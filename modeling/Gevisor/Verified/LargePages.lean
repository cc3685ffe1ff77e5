import Gevisor.Ept.Calls
import Gevisor.Ept.Destroy

/-! # Mapping below a large page

`map_pd` and `map_pt` do not look at `ps`. Where a large page is mapped they take its physical address for
that of a table: if the memory manager knows the address, the page behind it is read, and written, as a
table. `Unharmed` is the exact condition under which the call throws and leaves memory as it is.
-/

namespace Gevisor.Verified

open Gevisor.Lib Gevisor.Ept

variable {α : Type} {mm : PagePool} {m : Mmap} {virt : Nat}

variable {name : String} {l : Level} {c : Nat}

/-- The call throws an exception, and no word of memory is changed. -/
def Refuses (c : MapM α) (m : Mmap) : Prop := ∃ what m', c m = .error (.exn what) m' ∧ m'.word = m.word

/-- The page that a walk takes for the table of level `l` at a physical address: the remembered one if it
has this address, and else whatever the memory manager has there. -/
def takenTable (mm : PagePool) (m : Mmap) (l : Level) (phys : Nat) : Option Nat :=
  if (m.pairs l).physAddr = phys then (m.pairs l).virtAddr else mm.physintToVirtptr phys

/-- If there is a page that is taken for the table of level `l`, its word for `virt` is not zero. -/
def TakenInUse (mm : PagePool) (m : Mmap) (l : Level) (virt phys : Nat) : Prop :=
  ∀ p, takenTable mm m l phys = some p → m.word p (l.index virt) ≠ 0

/-- When mapping a page of size `size` below the large page with leaf `entry` and size `large` does no
harm. From a 1G page a walk to a page table goes through two pages that are no tables. -/
def Unharmed (mm : PagePool) (m : Mmap) (virt : Nat) (entry : Entry) : (large size : PageSize) → Prop
  | .size1g, .size2m => TakenInUse mm m .pd virt entry.physAddr
  | .size2m, .size4k => TakenInUse mm m .pt virt entry.physAddr
  | .size1g, .size4k => ∀ p, takenTable mm m .pd entry.physAddr = some p →
      m.word p (Level.pd.index virt) ≠ 0 ∧
        TakenInUse mm m .pt virt (m.word p (Level.pd.index virt)).physAddr
  | _, _ => True

/-! ## The steps of the walk -/

variable {m' : Mmap} {phys p : Nat} {attr : AttrType} {cache : MemoryType} {parent child : Level}
    {i : Fin 512} {k : MapM α}

theorem refuses_of_ok {β : Type} {c : MapM α} {a : α} (hret : c m = .ok a m') (hw : m'.word = m.word)
    (k : α → MapM β) : Refuses (c >>= k) m ↔ Refuses (k a) m' := by
  simp only [Refuses, bind_of_ok hret, hw]

theorem mapLeaf_fills (current : (m.pairs l).virtAddr = some p) (zero : m.word p (l.index virt) = 0) :
    mapLeaf name l virt phys attr cache m =
      .ok ⟨p, l.index virt⟩ (m.write p (l.index virt) (leafEntry phys attr cache (l ≠ .pt))) := by
  rw [mapLeaf, bind_of_ok (spanAt_eq current), bind_of_ok (deref_eq _ m), if_neg (not_not.mpr zero)]
  rfl

/-- Filling an entry is refused when the entry is in use, and when there is no table. -/
theorem refuses_mapLeaf : Refuses (mapLeaf name l virt phys attr cache) m ↔
      ∀ p, (m.pairs l).virtAddr = some p → m.word p (l.index virt) ≠ 0 := by
  cases current : (m.pairs l).virtAddr with
  | none =>
    simp only [reduceCtorEq, false_imp_iff, implies_true, iff_true]
    have hth : spanAt l (l.index virt) m = .error failFast m := by simp only [spanAt, current]
    exact ⟨_, m, bind_of_error hth _, rfl⟩
  | some p =>
    simp only [Option.some.injEq, forall_eq']
    by_cases zero : m.word p (l.index virt) = 0
    · refine iff_of_false ?_ (not_not.mpr zero)
      rintro ⟨what, m', hth, -⟩
      rw [mapLeaf_fills current zero] at hth
      cases hth
    · have hth : mapLeaf name l virt phys attr cache m =
          .error (.exn (name ++ ": map failed, virt / phys map already exists: " ++ toHex phys)) m := by
        rw [mapLeaf, bind_of_ok (spanAt_eq current), bind_of_ok (deref_eq _ m), if_pos zero]
        rfl
      exact iff_of_true ⟨_, m, hth, rfl⟩ zero

section Present

variable {parent child : Level} {i : Fin 512} {p : Nat} (current : (m.pairs parent).virtAddr = some p)
  (present : m.word p i ≠ 0)

include current present

/-- Where the entry is not zero, the page taken for a table becomes the current one. -/
theorem mapTable_taken {c : Nat} (htk : takenTable mm m child (m.word p i).physAddr = some c) :
    mapTable mm parent child i m = .ok () (m.withPair child ⟨some c, (m.word p i).physAddr⟩) := by
  rw [mapTable, bind_of_ok (spanAt_eq current), bind_of_ok (deref_eq _ m), if_pos present, get_bind]
  rw [takenTable] at htk
  simp only
  split at htk
  · next hr =>
    rw [if_pos hr, ← htk, ← hr]
    exact congrArg (fun pairs => EStateM.Result.ok () { m with pairs }) (Function.update_eq_self child m.pairs).symm
  · next ho =>
    have hf : physToPair mm (m.word p i).physAddr m = .ok ⟨some c, (m.word p i).physAddr⟩ m := by
      simp only [physToPair, htk]
    rw [if_neg ho, bind_of_ok hf]
    rfl

/-- If no page is taken for one, the walk throws, or it goes on without a current table. -/
theorem mapTable_none (none : takenTable mm m child (m.word p i).physAddr = none) :
    (mapTable mm parent child i m = .ok () m ∧ (m.pairs child).virtAddr = .none) ∨
      ∃ what, mapTable mm parent child i m = .error (.exn what) m := by
  rw [mapTable, bind_of_ok (spanAt_eq current), bind_of_ok (deref_eq _ m), if_pos present, get_bind]
  rw [takenTable] at none
  simp only
  split at none
  · next hr =>
    rw [if_pos hr]
    exact .inl ⟨rfl, none⟩
  · next ho =>
    have hu : physToPair mm (m.word p i).physAddr m =
        .error (.exn ("physint_to_virtint failed: " ++ toHex (m.word p i).physAddr)) m := by
      simp only [physToPair, none]
    rw [if_neg ho, bind_of_error hu]
    exact .inr ⟨_, rfl⟩

theorem refuses_mapTable {k : MapM α} (hs : ∀ t, (t.pairs child).virtAddr = none → Refuses k t) :
    Refuses (mapTable mm parent child i >>= fun _ => k) m ↔ ∀ c, takenTable mm m child (m.word p i).physAddr = some c →
        Refuses k (m.withPair child ⟨some c, (m.word p i).physAddr⟩) := by
  cases htk : takenTable mm m child (m.word p i).physAddr with
  | none =>
    simp only [reduceCtorEq, false_imp_iff, implies_true, iff_true]
    rcases mapTable_none current present htk with ⟨hr, hm⟩ | ⟨what, ht⟩
    · exact (refuses_of_ok hr rfl _).mpr (hs m hm)
    · exact ⟨what, m, bind_of_error ht _, rfl⟩
  | some c =>
    simp only [Option.some.injEq, forall_eq']
    exact refuses_of_ok (mapTable_taken current present htk) rfl _

end Present

theorem refuses_mapTable_stuck (t : Mmap)
    (hmis : (t.pairs parent).virtAddr = none) : Refuses (mapTable mm parent child i >>= fun _ => k) t := by
  have hth : spanAt parent i t = .error failFast t := by simp only [spanAt, hmis]
  exact ⟨_, t, bind_of_error (bind_of_error hth _) _, rfl⟩

theorem refuses_mapLeaf_stuck
    (t : Mmap) (hmis : (t.pairs l).virtAddr = none) : Refuses (mapLeaf name l virt phys attr cache) t := by
  rw [refuses_mapLeaf, hmis]
  intro p hf
  cases hf

/-- `map_pde` and the others never set a word to zero that was not. -/
theorem mapLeaf_keeps : Preserves (fun t => t.word p i ≠ 0) (mapLeaf name l virt phys attr cache) := by
  intro t present
  simp only [mapLeaf, wp_bind]
  cases current : (t.pairs l).virtAddr with
  | none =>
    have hth : spanAt l (l.index virt) t = .error failFast t := by simp only [spanAt, current]
    rw [wp_of_error hth]
    exact present
  | some c =>
    rw [wp_of_ok (spanAt_eq current), wp_of_ok (deref_eq _ t)]
    by_cases zero : t.word c (l.index virt) = 0
    · rw [if_neg (not_not.mpr zero), wp_bind, wp_of_ok (assign_eq _ _ t)]
      show writeWord t.word c (l.index virt) _ p i ≠ 0
      by_cases page : p = c
      · subst page
        have ho : i ≠ l.index virt := fun same => present (same ▸ zero)
        rw [writeWord_index ho]
        exact present
      · rw [writeWord_page page]
        exact present
    · rw [if_pos zero]
      exact present

/-- Where the entry is zero a page is allocated and linked, which changes the entry. -/
theorem not_refuses_mapTable (current : (m.pairs parent).virtAddr = some p) (zero : m.word p i = 0)
    (page : mm.IsPage (mm.allocPage m.calls m.live)) (hkp : Preserves (fun t => t.word p i ≠ 0) k) :
    ¬ Refuses (mapTable mm parent child i >>= fun _ => k) m := by
  have hc : wp (mapTable mm parent child i >>= fun _ => k) (fun _ t => t.word p i ≠ 0)
      (fun _ t => t.word p i ≠ 0) m := by
    rw [wp_bind, mapTable, wp_bind, wp_of_ok (spanAt_eq current), wp_bind, wp_of_ok (deref_eq _ m),
      if_neg (not_not.mpr zero), wp_bind]
    simp only [wp, allocate, mm.virtptrToPhysint_page page]
    refine hkp _ ?_
    show writeWord _ p i _ p i ≠ 0
    rw [writeWord_same]
    exact tableEntry_ne_zero _
  rintro ⟨what, m', hth, hw⟩
  rw [wp_of_error hth, hw] at hc
  exact hc zero

/-! ## The walk down to the large page -/

/-- `m'` is `m` but for the pairs of the levels down to `l`, and its table of level `l` is the one of
`virt`, in which `entry` is the word of `virt`. -/
structure Above (mm : PagePool) (m : Mmap) (virt : Nat) (entry : Entry) (l : Level) (m' : Mmap) : Prop where
  current : ∃ p, (m'.pairs l).virtAddr = some p ∧ m.word p (l.index virt) = entry
  word : m'.word = m.word
  live : m'.live = m.live
  calls : m'.calls = m.calls
  pairs : ∀ l' : Level, l.depth < l'.depth → m'.pairs l' = m.pairs l'

theorem Above.takenTable {entry : Entry} {l' : Level} (habv : Above mm m virt entry l m')
    (hde : l.depth < l'.depth) (phys : Nat) : takenTable mm m' l' phys = takenTable mm m l' phys := by
  simp only [Verified.takenTable, habv.pairs l' hde]

theorem exists_node {q : List (Fin 512)} (present : m.slot mm q i ≠ 0) : ∃ p, m.node mm q = some p := by
  cases at_q : m.node mm q with
  | none => exact absurd (slot_of_missing at_q i) present
  | some p => exact ⟨p, rfl⟩

/-- One real table further down. -/
theorem mapTable_down (hb : Below parent child) (hc : Coherent mm m.live m) {c : Nat}
    (current : (m.pairs parent).virtAddr = some p) (at_p : m.node mm (pathTo parent virt) = some p)
    (at_c : m.node mm (pathTo child virt) = some c) :
    mm.IsPage c ∧ mapTable mm parent child (parent.index virt) m = .ok () (m.withPair child ⟨some c, mm.phys c⟩) := by
  have ht : IsTable (pathTo parent virt).length (m.word p (parent.index virt)) := by
    rw [node_child hb, slot_of_node at_p] at at_c
    rw [length_pathTo]
    by_contra hn
    rw [if_neg hn] at at_c
    cases at_c
  obtain ⟨c', at_c', page, down⟩ := mapTable_descend hb hc at_p current rfl ht hc.cached
  rw [← hb.pathTo_eq, at_c] at at_c'
  obtain rfl := Option.some.inj at_c'
  exact ⟨page, down⟩

/-- Every table above a table is there. -/
theorem exists_parent (hb : Below parent child)
    (at_c : m.node mm (pathTo child virt) = some c) : ∃ p, m.node mm (pathTo parent virt) = some p := by
  refine exists_node (i := parent.index virt) fun zero => ?_
  rw [node_child hb, zero, if_neg (not_isTable_zero _)] at at_c
  cases at_c

theorem mapPdpt_above (hc : Coherent mm m.live m) (at_c : m.node mm (pathTo .pdpt virt) = some c) :
    mapPdpt mm (Level.pml4.index virt) m = .ok () (m.withPair .pdpt ⟨some c, mm.phys c⟩) ∧
      Above mm m virt (m.slot mm (pathTo .pdpt virt) (Level.pdpt.index virt)) .pdpt
        (m.withPair .pdpt ⟨some c, mm.phys c⟩) := by
  obtain ⟨-, down⟩ := mapTable_down .pdpt hc hc.root (show m.node mm [] = some m.root from rfl) at_c
  refine ⟨down, ⟨c, by rw [withPair_pairs_self], (slot_of_node at_c _).symm⟩, rfl, rfl, rfl, fun l' hde => ?_⟩
  refine withPair_pairs_of_ne ?_ _
  rintro rfl
  exact Nat.lt_irrefl _ hde

theorem mapPd_above (hc : Coherent mm m.live m) (at_c : m.node mm (pathTo .pd virt) = some c) :
    ∃ m' m'', mapPdpt mm (Level.pml4.index virt) m = .ok () m' ∧ m'.word = m.word ∧
      mapPd mm (Level.pdpt.index virt) m' = .ok () m'' ∧ Above mm m virt (m.slot mm (pathTo .pd virt) (Level.pd.index virt)) .pd m'' := by
  obtain ⟨p, at_p⟩ := exists_parent .pd at_c
  obtain ⟨page, down⟩ := mapTable_down .pdpt hc hc.root (show m.node mm [] = some m.root from rfl) at_p
  obtain ⟨hc₁, node₁, -⟩ := hc.withPair (l := .pdpt) (by decide) page
  have hcu₁ : ((m.withPair .pdpt ⟨some p, mm.phys p⟩).pairs .pdpt).virtAddr = some p := by
    rw [withPair_pairs_self]
  rw [← node₁] at at_p
  have at_c₁ := (node₁ (pathTo .pd virt)).trans at_c
  obtain ⟨-, down₁⟩ := mapTable_down .pd hc₁ hcu₁ at_p at_c₁
  refine ⟨_, _, down, rfl, down₁, ⟨c, by rw [withPair_pairs_self], (slot_of_node at_c _).symm⟩, rfl, rfl, rfl,
    fun l' hde => ?_⟩
  rw [withPair_pairs_of_ne, withPair_pairs_of_ne]
  · rintro rfl
    exact absurd hde (by decide)
  · rintro rfl
    exact absurd hde (by decide)

/-- The way down to an entry leads to its own table only if the entry names one. -/
theorem missing_below (hb : Below l child)
    (hn : ¬ IsTable l.depth (m.slot mm (pathTo l virt) (l.index virt))) : m.node mm (pathTo child virt) = none := by
  rw [node_child hb, if_neg hn]

/-! ## The exact condition -/

section Exact

variable {entry : Entry} {phys : Nat} {attr : AttrType} {cache : MemoryType}

variable {m' : Mmap}

/-- The last step, from the large page's own table: a page is taken for the table of the mapping. -/
theorem refuses_last {l child : Level} (hde : l.depth < child.depth)
    (habv : Above mm m virt entry l m') (present : entry ≠ 0) :
    Refuses (mapTable mm l child (l.index virt) >>= fun _ => mapLeaf name child virt phys attr cache) m' ↔
      TakenInUse mm m child virt entry.physAddr := by
  obtain ⟨p, current, word⟩ := habv.current
  rw [← habv.word] at word
  rw [refuses_mapTable current (by rw [word]; exact present) fun t => refuses_mapLeaf_stuck t, word]
  refine forall_congr' fun c => ?_
  rw [habv.takenTable hde, refuses_mapLeaf, withPair_pairs_self]
  simp only [Option.some.injEq, forall_eq']
  rw [← habv.word]
  rfl

/-- From a 1G page: two pages are taken for tables, and the first of them must name the second. -/
theorem refuses_twice (habv : Above mm m virt entry .pdpt m') (present : entry ≠ 0)
    (page : mm.IsPage (mm.allocPage m.calls m.live)) :
    Refuses (mapTable mm .pdpt .pd (Level.pdpt.index virt) >>= fun _ =>
        mapTable mm .pd .pt (Level.pd.index virt) >>= fun _ => mapLeaf name .pt virt phys attr cache) m' ↔
      Unharmed mm m virt entry .size1g .size4k := by
  obtain ⟨p, current, word⟩ := habv.current
  rw [← habv.word] at word
  rw [refuses_mapTable current (by rw [word]; exact present) fun t => refuses_mapTable_stuck t, word]
  refine forall_congr' fun c => ?_
  rw [habv.takenTable (by decide)]
  refine imp_congr_right fun _ => ?_
  have hcu' : ((m'.withPair .pd ⟨some c, entry.physAddr⟩).pairs .pd).virtAddr = some c := by
    rw [withPair_pairs_self]
  by_cases zero : m.word c (Level.pd.index virt) = 0
  · refine iff_of_false ?_ fun hi => hi.1 zero
    refine not_refuses_mapTable hcu' ?_ ?_ mapLeaf_keeps
    · rw [← zero, ← habv.word]
      rfl
    · show mm.IsPage (mm.allocPage m'.calls m'.live)
      rw [habv.calls, habv.live]
      exact page
  · have hb : Above mm m virt (m.word c (Level.pd.index virt)) .pd (m'.withPair .pd ⟨some c, entry.physAddr⟩) := {
      current := ⟨c, hcu', rfl⟩
      word := habv.word
      live := habv.live
      calls := habv.calls
      pairs := fun l' hde => by
        rw [withPair_pairs_of_ne, habv.pairs l' (Nat.lt_trans (by decide) hde)]
        rintro rfl
        exact Nat.lt_irrefl _ hde }
    rw [refuses_last (by decide) hb zero, and_iff_right zero]

/-- Mapping below a large page is refused without harm exactly when no page is taken for a table that has
room for the entry. -/
theorem map_below_large_page_iff (reachable : MapCall.Reachable mm m) {large size : PageSize}
    (covered : (report mm m virt).bits = some large.bits ∧ (report mm m virt).entry = some entry)
    (smaller : size.bits < large.bits) :
    Refuses (size.map mm virt phys attr cache) m ↔ Unharmed mm m virt entry large size := by
  have coherent := reachable.coherent
  have found : leafAt mm m virt = some ⟨large.level, entry⟩ := by
    rw [report_eq coherent] at covered
    cases leaf : leafAt mm m virt with
    | none =>
      rw [leaf] at covered
      cases covered.1
    | some leaf' =>
      obtain ⟨l, w⟩ := leaf'
      simp only [leaf, Report.ofLeaf, Option.some.injEq] at covered
      obtain ⟨bits, rfl⟩ := covered
      have level : l = large.level := by
        cases large <;> cases l <;> first | rfl | cases bits
      rw [level]
  obtain ⟨-, present, view, -⟩ := leafAt_some found
  obtain ⟨slot, noTable⟩ := slot_of_view view present
  obtain ⟨c, at_c⟩ := exists_node (by rw [slot]; exact present)
  rw [length_pathTo] at noTable
  cases large with
  | size1g =>
    simp only [PageSize.level] at slot noTable at_c
    obtain ⟨down, above⟩ := mapPdpt_above coherent at_c
    rw [slot] at above
    cases size with
    | size1g => exact absurd smaller (Nat.lt_irrefl _)
    | size2m => exact (refuses_of_ok down rfl _).trans (refuses_last (by decide) above present)
    | size4k =>
      have room := coherent.length_lt (by simp [Level.depth]) (missing_below .pd (by rw [slot]; exact noTable))
      have page := mm.alloc_isPage m.calls m.live coherent.nodup coherent.pages room
      exact (refuses_of_ok down rfl _).trans (refuses_twice above present page)
  | size2m =>
    simp only [PageSize.level] at slot at_c
    obtain ⟨m₁, m₂, down₁, words₁, down₂, above⟩ := mapPd_above coherent at_c
    rw [slot] at above
    cases size with
    | size1g => exact absurd smaller (by decide)
    | size2m => exact absurd smaller (Nat.lt_irrefl _)
    | size4k =>
      exact (refuses_of_ok down₁ words₁ _).trans
        ((refuses_of_ok down₂ (above.word.trans words₁.symm) _).trans (refuses_last (by decide) above present))
  | size4k => cases size <;> exact absurd smaller (by decide)

end Exact

/-! ## A 1G page in a new map -/

/-- After `map_1g` of address zero in a new map. -/
structure LargeStart (mm : PagePool) (phys : Nat) (m : Mmap) : Prop where
  reachable : MapCall.Reachable mm m
  leaf : leafAt mm m 0x200000 = some ⟨.pdpt, leafEntry phys .readWriteExecute .writeBack true⟩
  pairs : ∀ l, l ≠ .pml4 → l ≠ .pdpt → m.pairs l = ⟨none, 0⟩
  outside : ∀ p, ¬ mm.IsPage p → m.word p = fun _ => 0

theorem exists_largeStart (mm : PagePool) (phys : Nat) (hbo : phys < 2 ^ 48) (hal : phys % 2 ^ 30 = 0) :
    ∃ m, LargeStart mm phys m := by
  have bare : Bare mm (Mmap.init mm fun _ _ => 0) := init_bare _
  obtain ⟨m₁, down, hg, here, hot⟩ := mapTable_spec .pdpt bare.1 (bare.1.atTable_pml4 0) (view_pml4 _)
  obtain ⟨r, span, hrf⟩ := here.spanAt
  have zero : m₁.slot mm (pathTo .pdpt 0) (Level.pdpt.index 0) = 0 := by
    rw [hg.frame, bare.2]
    intro on
    exact absurd on.2 (by simp [Level.depth])
  have hmap : map1g mm 0 phys .readWriteExecute .writeBack (Mmap.init mm fun _ _ => 0) =
      .ok r (m₁.write r.page r.index (leafEntry phys .readWriteExecute .writeBack true)) := by
    rw [map1g, bind_of_ok (show mapPdpt mm _ _ = _ from down), mapPdpte, mapLeaf, bind_of_ok span,
      bind_of_ok hrf.deref, if_neg (not_not.mpr zero)]
    rfl
  have hpp : (MapCall.map .size1g 0 phys .readWriteExecute .writeBack).Proper mm (Mmap.init mm fun _ _ => 0) := by
    refine ⟨by decide, ⟨hbo, hal⟩, by decide, fun bits hf => ?_⟩
    rw [report_eq bare.1, bare.leafAt_eq] at hf
    cases hf
  have spec := MapCall.exec_spec bare.1 hpp
  simp only [MapCall.exec, PageSize.map, wp_bind, wp_pure, wp_of_ok hmap] at spec
  have hre : run (MapCall.step mm) (Mmap.init mm fun _ _ => 0) [.map .size1g 0 phys .readWriteExecute .writeBack] =
      some (m₁.write r.page r.index (leafEntry phys .readWriteExecute .writeBack true)) := by
    simp only [run, MapCall.step, MapCall.exec, PageSize.map, bind, EStateM.bind, hmap]
    rfl
  have hr : MapCall.Reachable mm (m₁.write r.page r.index (leafEntry phys .readWriteExecute .writeBack true)) :=
    ⟨fun _ _ => 0, [.map .size1g 0 phys .readWriteExecute .writeBack], ⟨hpp, fun _ _ => trivial⟩, hre⟩
  refine ⟨_, hr, ?_, ?_, ?_⟩
  · rw [spec.2, MapCall.effect, AddrMap.set_same (by decide)]
    rfl
  · intro l top hs
    rw [show (m₁.write r.page r.index _).pairs l = m₁.pairs l from rfl, hot l hs]
    exact if_neg top
  · intro p hout
    have hc := hg.coherent
    have free : p ∉ m₁.live := fun hm => hout (hc.pages p hm)
    have ho : p ≠ r.page := fun same => free (same ▸ (hc.nodes r.page).mpr ⟨_, hrf.1⟩)
    show writeWord m₁.word r.page r.index _ p = _
    rw [writeWord_page ho, hg.outside p free]
    have root : p ≠ mm.allocPage 0 [] := fun same => hout (same ▸ bare.1.pages _ List.mem_cons_self)
    show Function.update (fun _ _ => 0) (mm.allocPage 0 []) (fun _ => 0) p = _
    rw [Function.update_of_ne root]

/-- With the 1G page at zero, whose address is that of no page, the call is refused: the walk is left
without a table. -/
theorem map_below_large_page_zero : ∃ m, MapCall.Reachable default m ∧ (report default m 0x200000).bits = some 30 ∧
      Refuses (map2m default 0x200000 0 .readWriteExecute .writeBack) m := by
  obtain ⟨m, start⟩ := exists_largeStart default 0 (by decide) (by decide)
  have coherent := start.reachable.coherent
  have covered : (report default m 0x200000).bits = some PageSize.size1g.bits ∧
      (report default m 0x200000).entry = some (leafEntry 0 .readWriteExecute .writeBack true) := by
    rw [report_eq coherent, start.leaf]
    exact ⟨rfl, rfl⟩
  have unharmed : Unharmed default m 0x200000 (leafEntry 0 .readWriteExecute .writeBack true) .size1g .size2m := by
    intro p taken
    rw [takenTable, start.pairs .pd (by decide) (by decide), leafEntry_physAddr] at taken
    cases taken
  exact ⟨m, start.reachable, covered.1,
    (map_below_large_page_iff start.reachable covered (show PageSize.size2m.bits < _ by decide)).mpr unharmed⟩

/-- Pages are handed out from below one tebibyte; addresses above belong to other memory of the
hypervisor. -/
def lowPages : PagePool where
  IsPage p := 0 < p ∧ p < 2 ^ 40 ∧ p % 4096 = 0
  allocPage := (default : PagePool).allocPage
  virtptrToPhysint := some
  physintToVirtptr := some
  alloc_isPage _ live _ _ room := by
    have low := (Nat.find_spec (PagePool.exists_unused live)).1
    simp only [maxTables] at room
    show 0 < 4096 * (Nat.find (PagePool.exists_unused live) + 1) ∧
      4096 * (Nat.find (PagePool.exists_unused live) + 1) < 2 ^ 40 ∧
      4096 * (Nat.find (PagePool.exists_unused live) + 1) % 4096 = 0
    omega
  alloc_fresh _ live _ _ _ := (Nat.find_spec (PagePool.exists_unused live)).2
  translate p page := ⟨p, rfl, rfl, page.1, by omega, page.2.2⟩

/-- A 1G page at one tebibyte, where the memory manager knows a page: mapping 2M below it returns, and a
word of that page is overwritten. -/
theorem map_below_large_page_overwrites :
    ∃ m r m', MapCall.Reachable lowPages m ∧ (report lowPages m 0x200000).bits = some 30 ∧
      map2m lowPages 0x200000 0 .readWriteExecute .writeBack m = .ok r m' ∧
      ¬ lowPages.IsPage (2 ^ 40) ∧ m.word (2 ^ 40) 1 = 0 ∧ m'.word (2 ^ 40) 1 ≠ 0 := by
  obtain ⟨m, start⟩ := exists_largeStart lowPages (2 ^ 40) (by decide) (by decide)
  have coherent := start.reachable.coherent
  have other : ¬ lowPages.IsPage (2 ^ 40) := fun page => absurd page.2.1 (Nat.lt_irrefl _)
  have zero (i : Fin 512) : m.word (2 ^ 40) i = 0 := by rw [start.outside _ other]
  obtain ⟨-, present, view, -⟩ := leafAt_some start.leaf
  obtain ⟨slot, -⟩ := slot_of_view view present
  obtain ⟨c, at_c⟩ := exists_node (by rw [slot]; exact present)
  obtain ⟨down, above⟩ := mapPdpt_above coherent at_c
  generalize m.withPair .pdpt ⟨some c, lowPages.phys c⟩ = m₁ at down above
  obtain ⟨p, current, word⟩ := above.current
  rw [slot, ← above.word] at word
  have physAddr : (m₁.word p (Level.pdpt.index 0x200000)).physAddr = 2 ^ 40 := by
    rw [word, leafEntry_physAddr]
    decide
  -- The leaf is taken for a page directory at one tebibyte, and its entry for the address is zero.
  have taken : takenTable lowPages m₁ .pd (m₁.word p (Level.pdpt.index 0x200000)).physAddr = some (2 ^ 40) := by
    rw [physAddr, above.takenTable (by decide), takenTable, start.pairs .pd (by decide) (by decide), if_neg (by decide)]
    rfl
  have down₂ : mapPd lowPages (Level.pdpt.index 0x200000) m₁ = .ok () (m₁.withPair .pd ⟨some (2 ^ 40), 2 ^ 40⟩) := by
    have followed := mapTable_taken current (by rw [word]; exact present) taken
    rw [physAddr] at followed
    exact followed
  have current₂ : ((m₁.withPair .pd ⟨some (2 ^ 40), 2 ^ 40⟩).pairs .pd).virtAddr = some (2 ^ 40) := by
    rw [withPair_pairs_self]
  have zero₂ : m₁.word (2 ^ 40) (Level.pd.index 0x200000) = 0 := by rw [above.word, zero]
  have returns : map2m lowPages 0x200000 0 .readWriteExecute .writeBack m =
      .ok ⟨2 ^ 40, 1⟩ ((m₁.withPair .pd ⟨some (2 ^ 40), 2 ^ 40⟩).write (2 ^ 40) 1
        (leafEntry 0 .readWriteExecute .writeBack true)) := by
    rw [map2m, bind_of_ok down, bind_of_ok down₂]
    exact mapLeaf_fills current₂ zero₂
  refine ⟨m, _, _, start.reachable, ?_, returns, other, zero 1, ?_⟩
  · rw [report_eq coherent, start.leaf]
    rfl
  · simp only [Mmap.write, writeWord_same]
    exact leafEntry_ne_zero (by decide)

end Gevisor.Verified
