import Gevisor.Ept.Walk

/-! # The leaves of a map

`leafAt` is the meaning of a map: the entry that translates an address and the level it stands on.
-/

namespace Gevisor.Ept

open Gevisor.Lib

structure Leaf where
  level : Level
  entry : Entry
  deriving DecidableEq, Repr

/-- A map as a partial function. -/
abbrev AddrMap := Nat → Option Leaf

/-- The first word on the way of an address that maps memory. -/
def leafOf (view : List (Fin 512) → Fin 512 → Entry) : AddrMap := fun virt =>
  let word (l : Level) := view (pathTo l virt) (l.index virt)
  if word .pdpt ≠ 0 then some ⟨.pdpt, word .pdpt⟩
  else if word .pd ≠ 0 then some ⟨.pd, word .pd⟩
  else if word .pt ≠ 0 then some ⟨.pt, word .pt⟩
  else none

def leafAt (mm : PagePool) (m : Mmap) : AddrMap := leafOf (m.view mm)

section Views

variable {mm : PagePool} {m m' : Mmap} {virt : Nat}

/-- The PML4 maps nothing itself. -/
theorem view_pml4 (i : Fin 512) : m.view mm [] i = 0 := by
  by_cases zero : m.slot mm [] i = 0
  · rw [Mmap.view, zero]
    exact ite_self 0
  · exact if_pos ⟨zero, by decide, .inl rfl⟩

theorem view_of_slot_zero {q : List (Fin 512)} {i : Fin 512} (zero : m.slot mm q i = 0) : m.view mm q i = 0 := by
  rw [Mmap.view, zero]
  exact ite_self 0

/-- Below an entry that names no table there is nothing. -/
theorem slot_below {parent child : Level} (hb : Below parent child)
    (hn : ¬ IsTable parent.depth (m.slot mm (pathTo parent virt) (parent.index virt))) (i : Fin 512) :
    m.slot mm (pathTo child virt) i = 0 := by
  apply slot_of_missing
  rw [node_child hb, if_neg hn]

theorem slot_deeper {l l' : Level} (hde : l.depth < l'.depth)
    (hn : ¬ IsTable l.depth (m.slot mm (pathTo l virt) (l.index virt))) (i : Fin 512) :
    m.slot mm (pathTo l' virt) i = 0 := by
  have next {parent child : Level} (hb : Below parent child)
      (hn : ¬ IsTable parent.depth (m.slot mm (pathTo parent virt) (parent.index virt))) :
      ¬ IsTable child.depth (m.slot mm (pathTo child virt) (child.index virt)) := by
    rw [slot_below hb hn]
    exact not_isTable_zero _
  cases l <;> cases l' <;> first | exact absurd hde (by decide) | skip
  · exact slot_below .pdpt hn i
  · exact slot_below .pd (next .pdpt hn) i
  · exact slot_below .pt (next .pd (next .pdpt hn)) i
  · exact slot_below .pd hn i
  · exact slot_below .pt (next .pd hn) i
  · exact slot_below .pt hn i

variable {d : Nat} {w : Entry}

/-- A word that is neither zero nor a leaf names a table. -/
theorem isTable_of (deep : d < 3) (hp : w ≠ 0) (hs : ¬ w.ps = true) : IsTable d w :=
  ⟨hp, deep, .inr (by simpa using hs)⟩

theorem not_isTable_of_ps (inner : 0 < d) (large : w.ps = true) : ¬ IsTable d w := by
  intro table
  rcases table.2.2 with top | small
  · omega
  · rw [large] at small
    cases small

theorem leafAt_pdpt (word : m.slot mm (pathTo .pdpt virt) (Level.pdpt.index virt) = w)
    (hl : w.ps = true) : leafAt mm m virt = some ⟨.pdpt, w⟩ := by
  have view : m.view mm (pathTo .pdpt virt) (Level.pdpt.index virt) = w := by
    rw [Mmap.view, word, if_neg (not_isTable_of_ps (by simp [Level.depth]) hl)]
  simp only [leafAt, leafOf, view, ne_eq, ne_zero_of_ps hl, not_false_eq_true, if_true]

theorem leafAt_pd (hu : m.view mm (pathTo .pdpt virt) (Level.pdpt.index virt) = 0)
    (word : m.slot mm (pathTo .pd virt) (Level.pd.index virt) = w) (hl : w.ps = true) :
    leafAt mm m virt = some ⟨.pd, w⟩ := by
  have view : m.view mm (pathTo .pd virt) (Level.pd.index virt) = w := by
    rw [Mmap.view, word, if_neg (not_isTable_of_ps (by simp [Level.depth]) hl)]
  simp only [leafAt, leafOf, hu, view, ne_eq, ne_zero_of_ps hl, not_true_eq_false, not_false_eq_true, if_true, if_false]

theorem view_pt (q : List (Fin 512)) (deep : q.length = 3) (i : Fin 512) : m.view mm q i = m.slot mm q i := by
  refine if_neg fun ht => ?_
  have := ht.2.1
  omega

theorem leafAt_pt (hu : m.view mm (pathTo .pdpt virt) (Level.pdpt.index virt) = 0)
    (hm : m.view mm (pathTo .pd virt) (Level.pd.index virt) = 0) :
    leafAt mm m virt = if m.slot mm (pathTo .pt virt) (Level.pt.index virt) = 0 then none
      else some ⟨.pt, m.slot mm (pathTo .pt virt) (Level.pt.index virt)⟩ := by
  simp only [leafAt, leafOf, hu, hm, view_pt _ (length_pathTo .pt virt), ne_eq, not_true_eq_false, if_false, ite_not]

theorem leafAt_of_slot_pdpt_zero (zero : m.slot mm (pathTo .pdpt virt) (Level.pdpt.index virt) = 0) :
    leafAt mm m virt = none := by
  have hn : ¬ IsTable 1 (m.slot mm (pathTo .pdpt virt) (Level.pdpt.index virt)) := by
    rw [zero]
    exact not_isTable_zero _
  rw [leafAt_pt (view_of_slot_zero zero) (view_of_slot_zero (slot_below .pd hn _)),
    if_pos (slot_deeper (l := .pdpt) (by decide) hn _)]

theorem leafAt_of_slot_pd_zero (hu : m.view mm (pathTo .pdpt virt) (Level.pdpt.index virt) = 0)
    (zero : m.slot mm (pathTo .pd virt) (Level.pd.index virt) = 0) : leafAt mm m virt = none := by
  have hn : ¬ IsTable 2 (m.slot mm (pathTo .pd virt) (Level.pd.index virt)) := by
    rw [zero]
    exact not_isTable_zero _
  rw [leafAt_pt hu (view_of_slot_zero zero), if_pos (slot_below .pt hn _)]

end Views

/-! ## Look-ups -/

section Lookup

variable {mm : PagePool} {m m' : Mmap} {virt : Nat}

variable {l : Level} {r : EntryRef}

theorem Grown.leafAt_eq {v d : Nat} (hg : Grown mm v d m m') : leafAt mm m' = leafAt mm m := by
  funext virt
  simp only [leafAt, leafOf, hg.view]

/-- The three steps of a walk down to the page table of `virt`. -/
theorem mapPdpt_spec (virt : Nat) (hc : Coherent mm m.live m) :
    ∃ m', mapPdpt mm (Level.pml4.index virt) m = .ok () m' ∧ Grown mm virt 1 m m' ∧ AtTable mm m' .pdpt virt := by
  obtain ⟨m', hret, hg, here, -⟩ := mapTable_spec .pdpt hc (hc.atTable_pml4 virt) (view_pml4 _)
  exact ⟨m', hret, hg, here⟩

theorem mapPd_spec (hc : Coherent mm m.live m) (here : AtTable mm m .pdpt virt)
    (hem : m.view mm (pathTo .pdpt virt) (Level.pdpt.index virt) = 0) :
    ∃ m', mapPd mm (Level.pdpt.index virt) m = .ok () m' ∧ Grown mm virt 2 m m' ∧ AtTable mm m' .pd virt ∧
      AtTable mm m' .pdpt virt := by
  obtain ⟨m', hret, hg, hb, hot⟩ := mapTable_spec .pd hc here hem
  exact ⟨m', hret, hg, hb, hg.atTable (hot .pdpt (by decide)) here⟩

theorem mapPt_spec (hc : Coherent mm m.live m) (here : AtTable mm m .pd virt)
    (hem : m.view mm (pathTo .pd virt) (Level.pd.index virt) = 0) :
    ∃ m', mapPt mm (Level.pd.index virt) m = .ok () m' ∧ Grown mm virt 3 m m' ∧ AtTable mm m' .pt virt ∧
      AtTable mm m' .pd virt ∧ (AtTable mm m .pdpt virt → AtTable mm m' .pdpt virt) := by
  obtain ⟨m', hret, hg, hb, hot⟩ := mapTable_spec .pt hc here hem
  exact ⟨m', hret, hg, hb, hg.atTable (hot .pd (by decide)) here, hg.atTable (hot .pdpt (by decide))⟩

/-- A reference to the word of `virt` at level `l`. -/
def RefTo (mm : PagePool) (m : Mmap) (l : Level) (virt : Nat) (r : EntryRef) : Prop :=
  m.node mm (pathTo l virt) = some r.page ∧ r.index = l.index virt

theorem RefTo.deref (hrf : RefTo mm m l virt r) : deref r m = .ok (m.slot mm (pathTo l virt) (l.index virt)) m := by
  rw [slot_of_node hrf.1, ← hrf.2]
  rfl

theorem AtTable.spanAt (here : AtTable mm m l virt) :
    ∃ r, spanAt l (l.index virt) m = .ok r m ∧ RefTo mm m l virt r := by
  obtain ⟨p, hcu, at_q⟩ := here
  exact ⟨⟨p, l.index virt⟩, spanAt_eq hcu, at_q, rfl⟩

/-- A walk for `virt` from `m` stops at level `l`, with a reference to the entry there: the first one
that names no table. -/
inductive Walk (mm : PagePool) (virt : Nat) (m : Mmap) : Level → EntryRef → Mmap → Prop
  | pdpt {r₁ : EntryRef} {m₁ : Mmap} (down₁ : mapPdpt mm (Level.pml4.index virt) m = .ok () m₁)
      (span₁ : spanAt .pdpt (Level.pdpt.index virt) m₁ = .ok r₁ m₁)
      (stop : m₁.word r₁.page r₁.index = 0 ∨ (m₁.word r₁.page r₁.index).ps = true) : Walk mm virt m .pdpt r₁ m₁
  | pd {r₁ r₂ : EntryRef} {m₁ m₂ : Mmap} (down₁ : mapPdpt mm (Level.pml4.index virt) m = .ok () m₁)
      (span₁ : spanAt .pdpt (Level.pdpt.index virt) m₁ = .ok r₁ m₁) (present₁ : m₁.word r₁.page r₁.index ≠ 0)
      (small₁ : ¬ (m₁.word r₁.page r₁.index).ps = true)
      (down₂ : mapPd mm (Level.pdpt.index virt) m₁ = .ok () m₂)
      (span₂ : spanAt .pd (Level.pd.index virt) m₂ = .ok r₂ m₂)
      (stop : m₂.word r₂.page r₂.index = 0 ∨ (m₂.word r₂.page r₂.index).ps = true) : Walk mm virt m .pd r₂ m₂
  | pt {r₁ r₂ r₃ : EntryRef} {m₁ m₂ m₃ : Mmap} (down₁ : mapPdpt mm (Level.pml4.index virt) m = .ok () m₁)
      (span₁ : spanAt .pdpt (Level.pdpt.index virt) m₁ = .ok r₁ m₁) (present₁ : m₁.word r₁.page r₁.index ≠ 0)
      (small₁ : ¬ (m₁.word r₁.page r₁.index).ps = true)
      (down₂ : mapPd mm (Level.pdpt.index virt) m₁ = .ok () m₂)
      (span₂ : spanAt .pd (Level.pd.index virt) m₂ = .ok r₂ m₂) (present₂ : m₂.word r₂.page r₂.index ≠ 0)
      (small₂ : ¬ (m₂.word r₂.page r₂.index).ps = true)
      (down₃ : mapPt mm (Level.pd.index virt) m₂ = .ok () m₃)
      (span₃ : spanAt .pt (Level.pt.index virt) m₃ = .ok r₃ m₃) : Walk mm virt m .pt r₃ m₃

/-- What a walk finds: the entry it stops at is the leaf of `virt`, or zero if there is none. -/
structure Arrives (mm : PagePool) (virt : Nat) (m : Mmap) (l : Level) (r : EntryRef) (m' : Mmap) : Prop where
  walk : Walk mm virt m l r m'
  grown : Grown mm virt 3 m m'
  refers : RefTo mm m' l virt r
  inner : l ≠ .pml4
  leaf : leafAt mm m virt =
    if m'.word r.page r.index = 0 then none else some ⟨l, m'.word r.page r.index⟩
  stops : ¬ IsTable l.depth (m'.word r.page r.index)
  upper : ∀ l' : Level, l'.depth < l.depth → m'.view mm (pathTo l' virt) (l'.index virt) = 0

theorem RefTo.word (hrf : RefTo mm m l virt r) :
    m.word r.page r.index = m.slot mm (pathTo l virt) (l.index virt) := by
  rw [slot_of_node hrf.1, hrf.2]

theorem not_isTable_of_stop {d : Nat} {w : Entry} (inner : 0 < d) (stop : w = 0 ∨ w.ps = true) : ¬ IsTable d w := by
  rcases stop with zero | large
  · rw [zero]
    exact not_isTable_zero d
  · exact not_isTable_of_ps inner large

theorem arrives (virt : Nat) (hc : Coherent mm m.live m) : ∃ l r m', Arrives mm virt m l r m' := by
  obtain ⟨m₁, down₁, hg₁, here₁⟩ := mapPdpt_spec virt hc
  obtain ⟨r₁, span₁, hrf₁⟩ := here₁.spanAt
  have word₁ := hrf₁.word.symm
  by_cases stop₁ : m₁.word r₁.page r₁.index = 0 ∨ (m₁.word r₁.page r₁.index).ps = true
  · refine ⟨.pdpt, r₁, m₁, .pdpt down₁ span₁ stop₁, hg₁.trans (.refl hg₁.coherent) (by decide), hrf₁,
      by decide, ?_, not_isTable_of_stop (by decide) stop₁, fun l' habv => ?_⟩
    · rw [← hg₁.leafAt_eq]
      split
      · next zero => exact leafAt_of_slot_pdpt_zero (word₁.trans zero)
      · next hp => exact leafAt_pdpt word₁ (stop₁.resolve_left hp)
    · cases l' with
      | pml4 => exact view_pml4 _
      | _ => exact absurd habv (by decide)
  obtain ⟨hp₁, hs₁⟩ := not_or.mp stop₁
  have hu : m₁.view mm (pathTo .pdpt virt) (Level.pdpt.index virt) = 0 := by
    rw [Mmap.view, word₁, length_pathTo, if_pos (isTable_of (by decide) hp₁ hs₁)]
  obtain ⟨m₂, down₂, hg₂, here₂, -⟩ := mapPd_spec hg₁.coherent here₁ hu
  obtain ⟨r₂, span₂, hrf₂⟩ := here₂.spanAt
  have word₂ := hrf₂.word.symm
  rw [← hg₂.view] at hu
  have hde := hg₁.trans hg₂ (by decide)
  by_cases stop₂ : m₂.word r₂.page r₂.index = 0 ∨ (m₂.word r₂.page r₂.index).ps = true
  · refine ⟨.pd, r₂, m₂, .pd down₁ span₁ hp₁ hs₁ down₂ span₂ stop₂,
      hde.trans (.refl hg₂.coherent) (by decide), hrf₂, by decide, ?_,
      not_isTable_of_stop (by decide) stop₂, fun l' habv => ?_⟩
    · rw [← hde.leafAt_eq]
      split
      · next zero => exact leafAt_of_slot_pd_zero hu (word₂.trans zero)
      · next hp => exact leafAt_pd hu word₂ (stop₂.resolve_left hp)
    · cases l' with
      | pml4 => exact view_pml4 _
      | pdpt => exact hu
      | _ => exact absurd habv (by decide)
  obtain ⟨hp₂, hs₂⟩ := not_or.mp stop₂
  have hm : m₂.view mm (pathTo .pd virt) (Level.pd.index virt) = 0 := by
    rw [Mmap.view, word₂, length_pathTo, if_pos (isTable_of (by decide) hp₂ hs₂)]
  obtain ⟨m₃, down₃, hg₃, here₃, -, -⟩ := mapPt_spec hg₂.coherent here₂ hm
  obtain ⟨r₃, span₃, hrf₃⟩ := here₃.spanAt
  rw [← hg₃.view] at hu hm
  refine ⟨.pt, r₃, m₃, .pt down₁ span₁ hp₁ hs₁ down₂ span₂ hp₂ hs₂ down₃ span₃,
    hde.trans hg₃ (by decide), hrf₃, by decide, ?_, fun ht => absurd ht.2.1 (by decide),
    fun l' habv => ?_⟩
  · rw [← hde.leafAt_eq, ← hg₃.leafAt_eq, hrf₃.word]
    exact leafAt_pt hu hm
  · cases l' with
    | pml4 => exact view_pml4 _
    | pdpt => exact hu
    | pd => exact hm
    | pt => exact absurd habv (by decide)

/-- A look-up throws where its walk stops at zero, and else answers what it stopped at. -/
theorem Walk.findLeaf_eq (walk : Walk mm virt m l r m') (name : String) :
    if m'.word r.page r.index = 0 then ∃ what, findLeaf mm name virt m = .error (.exn what) m'
    else findLeaf mm name virt m = .ok (r, l) m' := by
  cases walk with
  | pdpt down₁ span₁ stop =>
    rw [findLeaf, bind_of_ok down₁, bind_of_ok span₁, bind_of_ok (deref_eq r m')]
    split
    · exact ⟨_, rfl⟩
    · next hp =>
      rw [if_pos (stop.resolve_left hp)]
      rfl
  | @pd r₁ _ m₁ _ down₁ span₁ hp₁ hs₁ down₂ span₂ stop =>
    rw [findLeaf, bind_of_ok down₁, bind_of_ok span₁, bind_of_ok (deref_eq r₁ m₁), if_neg hp₁,
      if_neg hs₁, bind_of_ok down₂, bind_of_ok span₂, bind_of_ok (deref_eq r m')]
    split
    · exact ⟨_, rfl⟩
    · next hp =>
      rw [if_pos (stop.resolve_left hp)]
      rfl
  | @pt r₁ r₂ _ m₁ m₂ _ down₁ span₁ hp₁ hs₁ down₂ span₂ hp₂ hs₂ down₃ span₃ =>
    rw [findLeaf, bind_of_ok down₁, bind_of_ok span₁, bind_of_ok (deref_eq r₁ m₁), if_neg hp₁,
      if_neg hs₁, bind_of_ok down₂, bind_of_ok span₂, bind_of_ok (deref_eq r₂ m₂), if_neg hp₂,
      if_neg hs₂, bind_of_ok down₃, bind_of_ok span₃, bind_of_ok (deref_eq r m')]
    split
    · exact ⟨_, rfl⟩
    · rfl

/-- What a look-up of `virt` must answer, given the leaf there. -/
def FindsLeaf (mm : PagePool) (virt : Nat) (m : Mmap) (leaf : Option Leaf) :
    EStateM.Result Err Mmap (EntryRef × Level) → Prop
  | .ok (r, l) m' => Grown mm virt 3 m m' ∧ RefTo mm m' l virt r ∧ l ≠ .pml4 ∧
      leaf = some ⟨l, m'.slot mm (pathTo l virt) (l.index virt)⟩
  | .error e m' => Grown mm virt 3 m m' ∧ leaf = none ∧ e.isExn = true

/-- The common walk of `entry`, `virt_to_phys` and `from` finds the leaf, or throws if there is none. -/
theorem findLeaf_spec (virt : Nat) (hc : Coherent mm m.live m) (name : String) :
    FindsLeaf mm virt m (leafAt mm m virt) (findLeaf mm name virt m) := by
  obtain ⟨l, r, m', harr⟩ := arrives virt hc
  have ha := harr.walk.findLeaf_eq name
  have leaf := harr.leaf
  split at ha
  · next zero =>
    obtain ⟨what, hth⟩ := ha
    rw [if_pos zero] at leaf
    rw [hth]
    exact ⟨harr.grown, leaf, rfl⟩
  · next hp =>
    rw [if_neg hp, harr.refers.word] at leaf
    rw [ha]
    exact ⟨harr.grown, harr.refers, harr.inner, leaf⟩

end Lookup

end Gevisor.Ept
