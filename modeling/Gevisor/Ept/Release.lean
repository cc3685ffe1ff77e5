import Gevisor.Ept.Leaf

/-! # Releasing an address

`release` clears the leaf of an address and gives back every table that this leaves empty. A table is
given back before the entry that names it is cleared; in between the tree still has one page that is no
longer in use, which `Emptied` states.
-/

namespace Gevisor.Ept

open Gevisor.Lib

variable {mm : PagePool} {m m' : Mmap} {virt : Nat}

/-- The answer `b` of a release function about `virt`'s table of level `l`: given back and blank but
still in the tree, or still in use. -/
def Emptied (mm : PagePool) (l : Level) (virt : Nat) (b : Bool) (m : Mmap) : Prop :=
  if b then ∃ p, m.node mm (pathTo l virt) = some p ∧ Blank m.word p ∧ Coherent mm (p :: m.live) m
  else Coherent mm m.live m ∧ ∃ i, m.slot mm (pathTo l virt) i ≠ 0

variable {l child : Level} {m₁ : Mmap}

theorem freeIfEmpty_spec (hc : Coherent mm m.live m) (here : AtTable mm m l virt) :
    ∃ b m', freeIfEmpty l m = .ok b m' ∧ m'.word = m.word ∧ m'.pairs = m.pairs ∧
      Emptied mm l virt b m' := by
  obtain ⟨p, hcu, at_l⟩ := here
  have hm : p ∈ m.live := (hc.nodes p).mpr ⟨_, at_l⟩
  by_cases hbl : ∀ i, m.word p i = 0
  · refine ⟨true, { m with live := m.live.erase p }, ?_, rfl, rfl, ?_⟩
    · rw [freeIfEmpty, get_bind]
      simp only [hcu]
      rw [if_pos hbl, bind_of_ok (show free (some p) m = .ok () _ from if_pos hm)]
      rfl
    · refine ⟨p, at_l, hbl, ?_⟩
      have perm := List.perm_cons_erase hm
      exact {
        root := hc.root
        separated := hc.separated
        linked := hc.linked
        nodes := fun p' => perm.mem_iff.symm.trans (hc.nodes p')
        nodup := perm.nodup_iff.mp hc.nodup
        pages := fun p' hm' => hc.pages p' (perm.mem_iff.mpr hm')
        cached := hc.cached }
  · refine ⟨false, m, ?_, rfl, rfl, hc, ?_⟩
    · rw [freeIfEmpty, get_bind]
      simp only [hcu]
      rw [if_neg hbl]
      rfl
    · obtain ⟨i, hp⟩ := not_forall.mp hbl
      exact ⟨i, by rw [slot_of_node at_l]; exact hp⟩

/-- What a release function does, from the table of level `l` downwards. -/
structure Released (mm : PagePool) (l : Level) (virt : Nat) (b : Bool) (m m' : Mmap) : Prop where
  emptied : Emptied mm l virt b m'
  frame : ∀ q i, ¬ OnPath virt q i → m'.slot mm q i = m.slot mm q i
  cleared : ∀ l' : Level, l.depth ≤ l'.depth → m'.view mm (pathTo l' virt) (l'.index virt) = 0
  above : ∀ l' : Level, l'.depth < l.depth →
    m'.view mm (pathTo l' virt) (l'.index virt) = m.view mm (pathTo l' virt) (l'.index virt)
  tables : ∀ l' : Level, l'.depth < l.depth → ∀ p, AtPage mm m l' virt p → AtPage mm m' l' virt p
  tidy : ∀ {parent child : Level}, Below parent child → l.depth ≤ parent.depth →
    m'.slot mm (pathTo parent virt) (parent.index virt) = 0 ∨ ∃ i, m'.slot mm (pathTo child virt) i ≠ 0

/-- Once the entry of level `l` is cleared, giving its table back ends a release at that level. -/
private theorem release_finish (hc : Coherent mm m₁.live m₁) (here : AtTable mm m₁ l virt)
    (hf : ∀ q i, ¬ OnPath virt q i → m₁.slot mm q i = m.slot mm q i)
    (zero : m₁.slot mm (pathTo l virt) (l.index virt) = 0)
    (habv : ∀ l' : Level, l'.depth < l.depth →
      m₁.view mm (pathTo l' virt) (l'.index virt) = m.view mm (pathTo l' virt) (l'.index virt))
    (ht : ∀ l' : Level, l'.depth < l.depth → ∀ p, AtPage mm m l' virt p → AtPage mm m₁ l' virt p) :
    ∃ b m', freeIfEmpty l m₁ = .ok b m' ∧ Released mm l virt b m m' := by
  obtain ⟨b, m', hret, hwo, hp, he⟩ := freeIfEmpty_spec hc here
  have root : m'.root = m₁.root := by rw [Mmap.root, hp, Mmap.root]
  have slot : ∀ q i, m'.slot mm q i = m₁.slot mm q i := by
    intro q i
    rw [Mmap.slot, Mmap.slot, root, hwo]
  have node : ∀ q, m'.node mm q = m₁.node mm q := by
    intro q
    rw [Mmap.node, Mmap.node, root, hwo]
  have view : ∀ q i, m'.view mm q i = m₁.view mm q i := fun q i => view_congr (slot q i)
  have hn : ¬ IsTable l.depth (m₁.slot mm (pathTo l virt) (l.index virt)) := by
    rw [zero]
    exact not_isTable_zero _
  refine ⟨b, m', hret, he, ?_, ?_, ?_, ?_, ?_⟩
  · intro q i off
    rw [slot, hf q i off]
  · intro l' hde
    rw [view]
    rcases Nat.lt_or_eq_of_le hde with hde | same
    · exact view_of_slot_zero (slot_deeper hde hn _)
    · rw [← Level.depth_injective same]
      exact view_of_slot_zero zero
  · intro l' hu
    rw [view, habv l' hu]
  · intro l' hu p at_p
    obtain ⟨hcu, at_l'⟩ := ht l' hu p at_p
    exact ⟨by rw [hp]; exact hcu, by rw [node]; exact at_l'⟩
  · intro parent child _ hw
    left
    rw [slot]
    rcases Nat.lt_or_eq_of_le hw with hde | same
    · exact slot_deeper hde hn _
    · rw [← Level.depth_injective same]
      exact zero

theorem pathTo_of_depth_lt {l' : Level} (hu : l'.depth < l.depth) (v : Nat) : pathTo l' v ≠ pathTo l virt := by
  intro same
  rw [pathTo_level same] at hu
  omega

theorem releasePte_spec (hc : Coherent mm m.live m) (here : AtTable mm m .pd virt)
    (hem : m.view mm (pathTo .pd virt) (Level.pd.index virt) = 0) :
    ∃ b m', releasePte mm virt m = .ok b m' ∧ Released mm .pt virt b m m' := by
  obtain ⟨m₁, hret₁, hg, here₁, hot⟩ := mapTable_spec .pt hc here hem
  obtain ⟨r, span, hrf⟩ := here₁.spanAt
  have last (w : Entry) : ¬ IsTable (pathTo .pt virt).length w := fun ht => by
    have := ht.2.1
    simp [Level.depth] at this
  obtain ⟨hc₂, node₂, slot₂⟩ := hg.coherent.write_leaf (i := Level.pt.index virt) hrf.1 (last _) (last 0)
  have hp : releasePte mm virt m = freeIfEmpty .pt (m₁.write r.page (Level.pt.index virt) 0) := by
    rw [releasePte, bind_of_ok (show mapPt mm (Level.pd.index virt) m = .ok () m₁ from hret₁),
      bind_of_ok span, bind_of_ok (assign_eq r 0 m₁), hrf.2]
  rw [hp]
  apply release_finish hc₂
  · obtain ⟨p, hcu, at_pt⟩ := here₁
    exact ⟨p, hcu, by rw [node₂]; exact at_pt⟩
  · intro q i off
    rw [slot₂, if_neg fun same => off ⟨.pt, same⟩]
    exact hg.frame q i fun on => off on.1
  · rw [slot₂, if_pos ⟨rfl, rfl⟩]
  · intro l' hu
    rw [← hg.view]
    refine view_congr ?_
    rw [slot₂, if_neg fun same => pathTo_of_depth_lt hu _ same.1]
  · intro l' hu p at_p
    have ho : l' ≠ .pt := fun same => by simp [same] at hu
    obtain ⟨hcu, at_q⟩ := hg.atPage (hot l' ho) at_p
    exact ⟨hcu, by rw [node₂]; exact at_q⟩

theorem Below.unique {child' : Level} (next : Below l child) (next' : Below l child') : child = child' := by
  cases next <;> cases next' <;> rfl

/-- One level up: if the level below releases, so does this one. -/
theorem releaseEntry_spec (next : Below l child) (hi : 0 < l.depth) {below : MapM Bool}
    (hc : Coherent mm m.live m) (here : AtTable mm m l virt)
    (hr : m.view mm (pathTo l virt) (l.index virt) = 0 → ∃ b m', below m = .ok b m' ∧ Released mm child virt b m m') :
    ∃ b m', releaseEntry l virt below m = .ok b m' ∧ Released mm l virt b m m' := by
  have hch : child.depth = l.depth + 1 := by cases next <;> rfl
  obtain ⟨r, span, hrf⟩ := here.spanAt
  rw [releaseEntry, bind_of_ok span, bind_of_ok hrf.deref]
  by_cases hl : (m.slot mm (pathTo l virt) (l.index virt)).ps = true
  · -- A leaf: it is cleared without looking further down.
    have old : ¬ IsTable (pathTo l virt).length (m.slot mm (pathTo l virt) (l.index virt)) :=
      not_isTable_of_ps (by rw [length_pathTo]; exact hi) hl
    obtain ⟨hc₁, node₁, slot₁⟩ := hc.write_leaf hrf.1 old (not_isTable_zero _)
    rw [if_pos hl, pure_bind]
    simp only [↓reduceIte]
    rw [bind_of_ok (assign_eq r 0 m), hrf.2]
    apply release_finish hc₁
    · obtain ⟨p, hcu, at_l⟩ := here
      exact ⟨p, hcu, by rw [node₁]; exact at_l⟩
    · intro q i off
      rw [slot₁, if_neg fun same => off ⟨l, same⟩]
    · rw [slot₁, if_pos ⟨rfl, rfl⟩]
    · intro l' hu
      refine view_congr ?_
      rw [slot₁, if_neg fun same => pathTo_of_depth_lt hu _ same.1]
    · intro l' _ p at_p
      exact ⟨at_p.1, by rw [node₁]; exact at_p.2⟩
  · have hem : m.view mm (pathTo l virt) (l.index virt) = 0 := by
      by_cases zero : m.slot mm (pathTo l virt) (l.index virt) = 0
      · exact view_of_slot_zero zero
      · exact if_pos (isTable_of (by rw [length_pathTo]; exact next.depth_lt) zero hl)
    obtain ⟨b, m₁, hret, hrl⟩ := hr hem
    have habv₁ : ∀ l' : Level, l'.depth < l.depth →
        m₁.view mm (pathTo l' virt) (l'.index virt) = m.view mm (pathTo l' virt) (l'.index virt) :=
      fun l' hu => hrl.above l' (by omega)
    have ht₁ : ∀ l' : Level, l'.depth ≤ l.depth → ∀ p, AtPage mm m l' virt p → AtPage mm m₁ l' virt p :=
      fun l' hu => hrl.tables l' (by omega)
    rw [if_neg hl, bind_of_ok hret]
    cases b with
    | false =>
      -- The table below is still in use, so the entry that names it stays.
      obtain ⟨hc₁, i, hp⟩ := hrl.emptied
      refine ⟨false, m₁, rfl, ⟨hc₁, l.index virt, fun zero => hp ?_⟩, hrl.frame, ?_, habv₁,
        fun l' hu => ht₁ l' (by omega), ?_⟩
      · refine slot_below next ?_ i
        rw [zero]
        exact not_isTable_zero _
      · intro l' hde
        rcases Nat.lt_or_eq_of_le hde with hde | same
        · exact hrl.cleared l' (by omega)
        · rw [← Level.depth_injective same, hrl.above l (by omega), hem]
      · intro parent child' hb' hw
        rcases Nat.lt_or_eq_of_le hw with hde | same
        · exact hrl.tidy hb' (by omega)
        · obtain rfl := Level.depth_injective same
          rw [hb'.unique next]
          exact .inr ⟨i, hp⟩
    | true =>
      obtain ⟨c, at_child, hbl, hc₁⟩ := hrl.emptied
      obtain ⟨p, hcu, at_l⟩ := here
      obtain ⟨hcu₁, at_l₁⟩ := ht₁ l (Nat.le_refl _) p ⟨hcu, at_l⟩
      have page : r.page = p := Option.some.inj (hrf.1.symm.trans at_l)
      rw [next.pathTo_eq] at at_child
      obtain ⟨hc₂, node₂, slot₂⟩ := hc₁.write_unlink at_l₁ at_child hbl
      simp only [↓reduceIte]
      rw [bind_of_ok (assign_eq r 0 m₁), hrf.2, page]
      apply release_finish hc₂
      · refine ⟨p, hcu₁, ?_⟩
        rw [node₂ _ fun same => by simpa using congrArg List.length same, at_l₁]
      · intro q i off
        rw [slot₂, if_neg fun same => off ⟨l, same⟩, hrl.frame q i off]
      · rw [slot₂, if_pos ⟨rfl, rfl⟩]
      · intro l' hu
        rw [← habv₁ l' hu]
        refine view_congr ?_
        rw [slot₂, if_neg fun same => pathTo_of_depth_lt hu _ same.1]
      · intro l' hu p' at_p'
        obtain ⟨hcu', at_q⟩ := ht₁ l' (by omega) p' at_p'
        refine ⟨hcu', ?_⟩
        rw [node₂ _ fun same => ?_, at_q]
        have hle := congrArg List.length same
        simp only [length_pathTo, List.length_cons] at hle
        omega

/-- The step down to level `l` may be put in front of a release there. -/
theorem Released.after_grown {b : Bool} (hg : Grown mm virt l.depth m m₁)
    (hp : ∀ l' : Level, l'.depth < l.depth → m₁.pairs l' = m.pairs l')
    (hrl : Released mm l virt b m₁ m') : Released mm l virt b m m' where
  emptied := hrl.emptied
  frame q i off := (hrl.frame q i off).trans (hg.frame q i fun on => off on.1)
  cleared := hrl.cleared
  above l' hu := (hrl.above l' hu).trans (hg.view _ _)
  tables l' hu p at_p := hrl.tables l' hu p (hg.atPage (hp l' hu) at_p)
  tidy := hrl.tidy

theorem releasePde_spec (hc : Coherent mm m.live m) (here : AtTable mm m .pdpt virt)
    (hem : m.view mm (pathTo .pdpt virt) (Level.pdpt.index virt) = 0) :
    ∃ b m', releasePde mm virt m = .ok b m' ∧ Released mm .pd virt b m m' := by
  obtain ⟨m₁, hret, hg, here₁, hot⟩ := mapTable_spec .pd hc here hem
  obtain ⟨b, m', hf, hrl⟩ := releaseEntry_spec .pt (by decide) hg.coherent here₁
    fun free => releasePte_spec hg.coherent here₁ free
  refine ⟨b, m', ?_, hrl.after_grown hg fun l' hu => hot l' ?_⟩
  · rw [releasePde, bind_of_ok (show mapPd mm (Level.pdpt.index virt) m = .ok () m₁ from hret)]
    exact hf
  · rintro rfl
    exact absurd hu (by decide)

theorem releasePdpte_spec (virt : Nat) (hc : Coherent mm m.live m) :
    ∃ b m', releasePdpte mm virt m = .ok b m' ∧ Released mm .pdpt virt b m m' := by
  obtain ⟨m₁, hret, hg, here₁, hot⟩ := mapTable_spec .pdpt hc (hc.atTable_pml4 virt) (view_pml4 _)
  obtain ⟨b, m', hf, hrl⟩ := releaseEntry_spec .pd (by decide) hg.coherent here₁
    fun free => releasePde_spec hg.coherent here₁ free
  refine ⟨b, m', ?_, hrl.after_grown hg fun l' hu => hot l' ?_⟩
  · rw [releasePdpte, bind_of_ok (show mapPdpt mm (Level.pml4.index virt) m = .ok () m₁ from hret)]
    exact hf
  · rintro rfl
    exact absurd hu (by decide)

/-- What `release` leaves of the words on the way of `virt`. -/
structure Freed (mm : PagePool) (virt : Nat) (m m' : Mmap) : Prop where
  coherent : Coherent mm m'.live m'
  frame : ∀ q i, ¬ OnPath virt q i → m'.slot mm q i = m.slot mm q i
  cleared : ∀ l : Level, m'.view mm (pathTo l virt) (l.index virt) = 0
  tidy : ∀ {parent child : Level}, Below parent child → 0 < parent.depth →
    m'.slot mm (pathTo parent virt) (parent.index virt) = 0 ∨ ∃ i, m'.slot mm (pathTo child virt) i ≠ 0

theorem release_spec (virt : Nat) (hc : Coherent mm m.live m) :
    ∃ m', release mm virt m = .ok () m' ∧ Freed mm virt m m' := by
  obtain ⟨b, m₁, hret, hrl⟩ := releasePdpte_spec virt hc
  have root₁ : AtPage mm m₁ .pml4 virt m.root := hrl.tables .pml4 (by decide) m.root ⟨hc.root, rfl⟩
  rw [release, bind_of_ok hret]
  cases b with
  | false =>
    refine ⟨m₁, rfl, hrl.emptied.1, hrl.frame, fun l => ?_, hrl.tidy⟩
    cases l with
    | pml4 => exact view_pml4 _
    | pdpt => exact hrl.cleared .pdpt (by decide)
    | pd => exact hrl.cleared .pd (by decide)
    | pt => exact hrl.cleared .pt (by decide)
  | true =>
    obtain ⟨c, at_child, hbl, hc₁⟩ := hrl.emptied
    obtain ⟨hc₂, -, slot₂⟩ :=
      hc₁.write_unlink (q := pathTo .pml4 virt) (i := Level.pml4.index virt) root₁.2 at_child hbl
    have zero : (m₁.write m.root (Level.pml4.index virt) 0).slot mm (pathTo .pml4 virt)
        (Level.pml4.index virt) = 0 := by
      rw [slot₂, if_pos ⟨rfl, rfl⟩]
    have hde (l : Level) (hl : 0 < l.depth) (i : Fin 512) :
        (m₁.write m.root (Level.pml4.index virt) 0).slot mm (pathTo l virt) i = 0 := by
      refine slot_deeper (l := .pml4) hl ?_ i
      rw [zero]
      exact not_isTable_zero _
    refine ⟨m₁.write m.root (Level.pml4.index virt) 0, ?_, hc₂, ?_, fun l => ?_, ?_⟩
    · simp only [↓reduceIte]
      rw [bind_of_ok (spanAt_eq root₁.1), assign_eq]
    · intro q i off
      rw [slot₂, if_neg fun same => off ⟨.pml4, same⟩, hrl.frame q i off]
    · cases l with
      | pml4 => exact view_pml4 _
      | pdpt => exact view_of_slot_zero (hde .pdpt (by decide) _)
      | pd => exact view_of_slot_zero (hde .pd (by decide) _)
      | pt => exact view_of_slot_zero (hde .pt (by decide) _)
    · exact fun _ hi => .inl (hde _ hi _)

end Gevisor.Ept
