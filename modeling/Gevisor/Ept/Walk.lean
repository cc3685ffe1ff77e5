import Gevisor.Ept.Coherent

/-! # Walks through a coherent map

What `map_pdpt`, `map_pd` and `map_pt` do to a coherent map, and from it what the look-ups return: they
always reach the table they are asked for, and whatever they allocate on the way, no word that maps
memory changes.
-/

namespace Gevisor.Ept

open Gevisor.Lib

variable {mm : PagePool} {m m' : Mmap} {tables : List Nat}

def Mmap.write (m : Mmap) (p : Nat) (i : Fin 512) (w : Entry) : Mmap :=
  { m with word := writeWord m.word p i w }

theorem assign_eq (r : EntryRef) (w : Entry) (m : Mmap) : assign r w m = .ok () (m.write r.page r.index w) := rfl

theorem deref_eq (r : EntryRef) (m : Mmap) : deref r m = .ok (m.word r.page r.index) m := rfl

variable {l : Level} {p : Nat}

theorem spanAt_eq {i : Fin 512} (here : (m.pairs l).virtAddr = some p) : spanAt l i m = .ok ⟨p, i⟩ m := by
  simp only [spanAt, here]

/-! ## Writing one word -/

section Write

variable {q : List (Fin 512)} {i : Fin 512} {p : Nat} {w : Entry}

theorem slot_write (hc : Coherent mm tables m) (at_q : m.node mm q = some p)
    (hat : (tree mm m.root).Attaches m.word q i w) (q' : List (Fin 512)) (j : Fin 512) :
    (m.write p i w).slot mm q' j = if q' = q ∧ j = i then w else m.slot mm q' j :=
  PageTree.slot_write hc.separated at_q hat q' j

theorem node_write (hc : Coherent mm tables m) (at_q : m.node mm q = some p)
    (hat : (tree mm m.root).Attaches m.word q i w) (q' : List (Fin 512)) :
    (m.write p i w).node mm q' =
      if q' = i :: q then (if IsTable q.length w then mm.physintToVirtptr w.physAddr else none)
      else m.node mm q' :=
  PageTree.node_write hc.separated at_q hat q'

/-- A write keeps a map coherent if the pages of the tree afterwards are known. -/
theorem Coherent.write {tables' : List Nat} (hc : Coherent mm tables m)
    (at_q : m.node mm q = some p) (hat : (tree mm m.root).Attaches m.word q i w)
    (hl : IsTable q.length w → ∃ p, mm.IsPage p ∧ w.physAddr = mm.phys p)
    (hn : ∀ p', p' ∈ tables' ↔ ∃ q', (m.write p i w).node mm q' = some p')
    (hno : tables'.Nodup) (hp : ∀ p' ∈ tables', mm.IsPage p') :
    Coherent mm tables' (m.write p i w) where
  root := hc.root
  separated := PageTree.separated_write hc.separated at_q hat
  linked q' j ht := by
    rw [slot_write hc at_q hat] at ht ⊢
    split at ht
    · next here =>
      rw [if_pos here]
      exact hl (by simpa [here.1] using ht)
    · next he =>
      rw [if_neg he]
      exact hc.linked q' j ht
  nodes := hn
  nodup := hno
  pages := hp
  cached := hc.cached

/-- A word that maps memory, or zero, may be replaced by another such word. -/
theorem attaches_leaf (old : ¬ IsTable q.length (m.slot mm q i)) (new : ¬ IsTable q.length w) :
    (tree mm m.root).Attaches m.word q i w := by
  refine .inl ?_
  show (if IsTable q.length w then _ else none) = if IsTable q.length (m.slot mm q i) then _ else none
  rw [if_neg new, if_neg old]

theorem Coherent.write_leaf (hc : Coherent mm tables m) (at_q : m.node mm q = some p)
    (old : ¬ IsTable q.length (m.slot mm q i)) (new : ¬ IsTable q.length w) :
    Coherent mm tables (m.write p i w) ∧ (∀ q', (m.write p i w).node mm q' = m.node mm q') ∧
      ∀ q' j, (m.write p i w).slot mm q' j = if q' = q ∧ j = i then w else m.slot mm q' j := by
  have hat := attaches_leaf old new
  have same : ∀ q', (m.write p i w).node mm q' = m.node mm q' := by
    intro q'
    rw [node_write hc at_q hat]
    split
    · next here => rw [here, node_cons, if_neg old]
    · rfl
  refine ⟨?_, same, slot_write hc at_q hat⟩
  refine hc.write at_q hat (fun ht => absurd ht new) ?_ hc.nodup hc.pages
  intro p'
  simp only [same]
  exact hc.nodes p'

/-- The entry of a blank table is cleared: the table leaves the tree. -/
theorem Coherent.write_unlink {child : Nat} (coherent : Coherent mm (child :: tables) m)
    (at_q : m.node mm q = some p) (at_child : m.node mm (i :: q) = some child)
    (blank : Blank m.word child) :
    Coherent mm tables (m.write p i 0) ∧ (∀ q', q' ≠ i :: q → (m.write p i 0).node mm q' = m.node mm q') ∧
      ∀ q' j, (m.write p i 0).slot mm q' j = if q' = q ∧ j = i then 0 else m.slot mm q' j := by
  have attaches : (tree mm m.root).Attaches m.word q i 0 := by
    refine .inr ⟨fun p' named => ?_, fun p' named => ?_⟩
    · have : m.node mm (i :: q) = some p' := (PageTree.node_cons q i).trans named
      rw [at_child] at this
      exact Option.some.inj this ▸ blank
    · rw [PageTree.next_zero] at named
      cases named
  refine ⟨?_, fun q' other => by rw [node_write coherent at_q attaches, if_neg other],
    slot_write coherent at_q attaches⟩
  obtain ⟨notMember, nodup⟩ := List.nodup_cons.mp coherent.nodup
  refine coherent.write at_q attaches (fun table => absurd table (not_isTable_zero _)) ?_ nodup
    fun p' member => coherent.pages p' (List.mem_cons_of_mem child member)
  intro p'
  simp only [node_write coherent at_q attaches, if_neg (not_isTable_zero q.length)]
  constructor
  · intro member
    obtain ⟨q', at_q'⟩ := (coherent.nodes p').mp (List.mem_cons_of_mem child member)
    refine ⟨q', ?_⟩
    rw [if_neg]
    · exact at_q'
    · rintro rfl
      rw [at_child] at at_q'
      exact notMember (Option.some.inj at_q' ▸ member)
  · rintro ⟨q', at_q'⟩
    split at at_q'
    · cases at_q'
    · next elsewhere =>
      rcases List.mem_cons.mp ((coherent.nodes p').mpr ⟨q', at_q'⟩) with rfl | member
      · exact absurd (coherent.separated q' (i :: q) p' at_q' at_child) elsewhere
      · exact member

/-- A zero entry is made to name a blank page from outside the tree. -/
theorem Coherent.write_table {child : Nat} (coherent : Coherent mm tables m) (at_q : m.node mm q = some p)
    (zero : m.slot mm q i = 0) (table : IsTable q.length w) (physAddr : w.physAddr = mm.phys child)
    (page : mm.IsPage child) (fresh : child ∉ tables) (blank : Blank m.word child) :
    Coherent mm (child :: tables) (m.write p i w) ∧ (m.write p i w).node mm (i :: q) = some child ∧
      ∀ q' j, (m.write p i w).slot mm q' j = if q' = q ∧ j = i then w else m.slot mm q' j := by
  have names : mm.physintToVirtptr w.physAddr = some child := by
    rw [physAddr]
    exact mm.physintToVirtptr_phys page
  have outside : ∀ q', m.node mm q' ≠ some child := fun q' at_q' =>
    fresh ((coherent.nodes child).mpr ⟨q', at_q'⟩)
  have attaches : (tree mm m.root).Attaches m.word q i w := by
    refine .inr ⟨fun p' named => ?_, fun p' named => ?_⟩
    · rw [show (tree mm m.root).slot m.word q i = 0 from zero, PageTree.next_zero] at named
      cases named
    · have : some child = some p' := by
        rw [← named]
        show _ = if IsTable q.length _ then _ else none
        rw [if_pos table, names]
      obtain rfl := Option.some.inj this
      exact ⟨blank, outside⟩
  have node := node_write coherent at_q attaches
  simp only [if_pos table, names] at node
  refine ⟨?_, by rw [node, if_pos rfl], slot_write coherent at_q attaches⟩
  refine coherent.write at_q attaches (fun _ => ⟨child, page, physAddr⟩) ?_
    (List.nodup_cons.mpr ⟨fresh, coherent.nodup⟩) ?_
  · intro p'
    simp only [node, List.mem_cons]
    constructor
    · rintro (rfl | member)
      · exact ⟨i :: q, if_pos rfl⟩
      · obtain ⟨q', at_q'⟩ := (coherent.nodes p').mp member
        refine ⟨q', ?_⟩
        rw [if_neg]
        · exact at_q'
        · rintro rfl
          rw [node_cons, zero, if_neg (not_isTable_zero _)] at at_q'
          cases at_q'
    · rintro ⟨q', at_q'⟩
      split at at_q'
      · exact .inl (Option.some.inj at_q').symm
      · exact .inr ((coherent.nodes p').mpr ⟨q', at_q'⟩)
  · intro p' member
    rcases List.mem_cons.mp member with rfl | member
    · exact page
    · exact coherent.pages p' member

end Write

/-! ## Changes outside the tree -/

/-- A map with the same pairs that differs outside the tables of the tree. -/
theorem Coherent.congr (hc : Coherent mm tables m) (hp : m'.pairs = m.pairs)
    (hw : ∀ p ∈ tables, m'.word p = m.word p) :
    Coherent mm tables m' ∧ (∀ q, m'.node mm q = m.node mm q) ∧ ∀ q i, m'.slot mm q i = m.slot mm q i := by
  have root : m'.root = m.root := by rw [Mmap.root, hp, Mmap.root]
  have same : ∀ q p, m.node mm q = some p → m'.word p = m.word p := fun q p at_q =>
    hw p ((hc.nodes p).mpr ⟨q, at_q⟩)
  have node : ∀ q, m'.node mm q = m.node mm q := by
    intro q
    rw [Mmap.node, root]
    exact PageTree.node_congr same q
  have slot : ∀ q i, m'.slot mm q i = m.slot mm q i := by
    intro q i
    rw [Mmap.slot, root]
    exact PageTree.slot_congr same q i
  refine ⟨?_, node, slot⟩
  exact {
    root := by rw [hp, root]; exact hc.root
    separated := fun q q' p at_q at_q' =>
      hc.separated q q' p ((node q).symm.trans at_q) ((node q').symm.trans at_q')
    linked := fun q i => by rw [slot]; exact hc.linked q i
    nodes := fun p => by simp only [node]; exact hc.nodes p
    nodup := hc.nodup
    pages := hc.pages
    cached := by rw [hp]; exact hc.cached }

def Mmap.withPair (m : Mmap) (l : Level) (pair : Pair) : Mmap :=
  { m with pairs := Function.update m.pairs l pair }

@[simp] theorem withPair_pairs_self (l : Level) (pair : Pair) : (m.withPair l pair).pairs l = pair :=
  Function.update_self _ _ _

theorem withPair_pairs_of_ne {l' : Level} (ho : l' ≠ l) (pair : Pair) : (m.withPair l pair).pairs l' = m.pairs l' :=
  Function.update_of_ne ho _ _

/-- The pair of a level below the PML4 may be moved to any page. -/
theorem Coherent.withPair (hc : Coherent mm tables m) (hl : l ≠ .pml4)
    (page : mm.IsPage p) :
    Coherent mm tables (m.withPair l ⟨some p, mm.phys p⟩) ∧
      (∀ q, (m.withPair l ⟨some p, mm.phys p⟩).node mm q = m.node mm q) ∧
      ∀ q i, (m.withPair l ⟨some p, mm.phys p⟩).slot mm q i = m.slot mm q i := by
  have pml4 : (m.withPair l ⟨some p, mm.phys p⟩).pairs .pml4 = m.pairs .pml4 :=
    withPair_pairs_of_ne hl.symm _
  have root : (m.withPair l ⟨some p, mm.phys p⟩).root = m.root := by rw [Mmap.root, pml4, Mmap.root]
  have node : ∀ q, (m.withPair l ⟨some p, mm.phys p⟩).node mm q = m.node mm q := by
    intro q
    rw [Mmap.node, root]
    rfl
  have slot : ∀ q i, (m.withPair l ⟨some p, mm.phys p⟩).slot mm q i = m.slot mm q i := by
    intro q i
    rw [Mmap.slot, root]
    rfl
  refine ⟨?_, node, slot⟩
  exact {
    root := by rw [pml4, root]; exact hc.root
    separated := by rw [root]; exact hc.separated
    linked := fun q i => by rw [slot]; exact hc.linked q i
    nodes := fun p => by simp only [node]; exact hc.nodes p
    nodup := hc.nodup
    pages := hc.pages
    cached := by
      intro l' hl'
      by_cases same : l' = l
      · subst same
        exact .inr ⟨p, page, withPair_pairs_self l' _⟩
      · rw [withPair_pairs_of_ne same]
        exact hc.cached l' hl' }

/-! ## One level of a walk -/

/-- The walk of `virt` passes word `i` of the table at `q`. -/
def OnPath (virt : Nat) (q : List (Fin 512)) (i : Fin 512) : Prop :=
  ∃ l, q = pathTo l virt ∧ i = l.index virt

/-- `m'` comes from `m` by putting missing tables on the way of `virt`, at most `d` levels deep. Memory
that holds no table is not written. -/
structure Grown (mm : PagePool) (virt d : Nat) (m m' : Mmap) : Prop where
  coherent : Coherent mm m'.live m'
  frame : ∀ q i, ¬ (OnPath virt q i ∧ q.length < d) → m'.slot mm q i = m.slot mm q i
  kept : ∀ q i, m.slot mm q i ≠ 0 → m'.slot mm q i = m.slot mm q i
  view : ∀ q i, m'.view mm q i = m.view mm q i
  root : m'.root = m.root
  live : ∀ p ∈ m.live, p ∈ m'.live
  outside : ∀ p, p ∉ m'.live → m'.word p = m.word p

namespace Grown

variable {virt d d' : Nat} {m'' : Mmap}

theorem refl (hc : Coherent mm m.live m) : Grown mm virt d m m where
  coherent := hc
  frame _ _ _ := rfl
  kept _ _ _ := rfl
  view _ _ := rfl
  root := rfl
  live _ hm := hm
  outside _ _ := rfl

theorem trans (first : Grown mm virt d m m') (hs : Grown mm virt d' m' m'') (hde : d ≤ d') :
    Grown mm virt d' m m'' where
  coherent := hs.coherent
  frame q i off := by
    rw [hs.frame q i off]
    exact first.frame q i fun on => off ⟨on.1, by omega⟩
  kept q i hp := by
    have once := first.kept q i hp
    rw [hs.kept q i (by rw [once]; exact hp), once]
  view q i := (hs.view q i).trans (first.view q i)
  root := hs.root.trans first.root
  live p hm := hs.live p (first.live p hm)
  outside p gone := (hs.outside p gone).trans (first.outside p fun hm => gone (hs.live p hm))

variable {p v : Nat} {l : Level}

theorem node (hg : Grown mm virt d m m') {q : List (Fin 512)} (at_q : m.node mm q = some p) :
    m'.node mm q = some p := by
  cases q with
  | nil =>
    rw [← at_q]
    exact congrArg some hg.root
  | cons i q =>
    rw [node_cons] at at_q ⊢
    split at at_q
    · next ht => rw [hg.kept q i ht.1, if_pos ht, at_q]
    · cases at_q

theorem atPage (hg : Grown mm virt d m m') (hp : m'.pairs l = m.pairs l)
    (here : AtPage mm m l v p) : AtPage mm m' l v p :=
  ⟨by rw [hp]; exact here.1, hg.node here.2⟩

theorem atTable (hg : Grown mm virt d m m') (hp : m'.pairs l = m.pairs l)
    (here : AtTable mm m l v) : AtTable mm m' l v := by
  obtain ⟨p, at_p⟩ := here
  exact ⟨p, hg.atPage hp at_p⟩

end Grown

section MapTable

variable {parent child : Level} {virt : Nat} {physAddr : Entry → Nat} {link : Nat → Entry}

/-- One level of a walk for entries of any format: where the address of a table is in its entry, and the entry
that is written for a new one. -/
def tableStep (mm : PagePool) (physAddr : Entry → Nat) (link : Nat → Entry) (parent child : Level)
    (i : Fin 512) : MapM Unit := do
  let ref ← spanAt parent i
  let entry ← deref ref
  if entry ≠ 0 then
    let m ← get
    if (m.pairs child).physAddr = physAddr entry then
      pure ()
    else
      let pair ← physToPair mm (physAddr entry)
      setPair child pair
  else
    let pair ← allocate mm
    setPair child pair
    assign ref (link pair.physAddr)

/-- Entries for new tables name them. -/
structure Format (mm : PagePool) (physAddr : Entry → Nat) (link : Nat → Entry) : Prop where
  table : ∀ d p, d < 3 → IsTable d (link p)
  named : ∀ p, mm.IsPage p → (link (mm.phys p)).physAddr = mm.phys p
  read : ∀ p, mm.IsPage p → physAddr (link (mm.phys p)) = mm.phys p

/-- Read in this format, the entries of `m` name the same tables. -/
def Reads (mm : PagePool) (physAddr : Entry → Nat) (m : Mmap) : Prop :=
  ∀ q i, IsTable q.length (m.slot mm q i) → physAddr (m.slot mm q i) = (m.slot mm q i).physAddr

theorem format_ept (mm : PagePool) : Format mm Entry.physAddr tableEntry where
  table _ p deep := isTable_tableEntry deep p
  named _ page := tableEntry_physAddr (mm.phys_lt page) (mm.phys_aligned page)
  read _ page := tableEntry_physAddr (mm.phys_lt page) (mm.phys_aligned page)

/-- A word that names a page by its physical address makes that page the current table of the level
below, whatever page was remembered there. -/
theorem tableStep_follow {p c : Nat} {i : Fin 512} (hcu : (m.pairs parent).virtAddr = some p)
    (hp : m.word p i ≠ 0) (page : mm.IsPage c) (phys : physAddr (m.word p i) = mm.phys c)
    (hc : m.pairs child = ⟨none, 0⟩ ∨ ∃ c', mm.IsPage c' ∧ m.pairs child = ⟨some c', mm.phys c'⟩) :
    tableStep mm physAddr link parent child i m = .ok () (m.withPair child ⟨some c, mm.phys c⟩) := by
  rw [tableStep, bind_of_ok (spanAt_eq hcu), bind_of_ok (deref_eq _ m)]
  simp only
  rw [if_pos hp, phys, get_bind]
  by_cases hr : (m.pairs child).physAddr = mm.phys c
  · -- The remembered pair has the right physical address, hence it is the pair of this page.
    rw [if_pos hr]
    rcases hc with none | ⟨c', page', pair⟩
    · rw [none] at hr
      exact absurd hr (Nat.ne_of_lt (mm.phys_pos page))
    · rw [pair] at hr
      have same := mm.physintToVirtptr_phys page'
      rw [show mm.phys c' = mm.phys c from hr, mm.physintToVirtptr_phys page] at same
      rw [← Option.some.inj same] at pair
      rw [Mmap.withPair, ← pair, Function.update_eq_self]
      rfl
  · rw [if_neg hr]
    have hf : physToPair mm (mm.phys c) m = .ok ⟨some c, mm.phys c⟩ m := by
      simp only [physToPair, mm.physintToVirtptr_phys page]
    exact bind_of_ok hf _

private theorem tableStep_linked (hb : Below parent child) (hc : Coherent mm m.live m) (hr : Reads mm physAddr m)
    (here : AtTable mm m parent virt)
    (ht : IsTable parent.depth (m.slot mm (pathTo parent virt) (parent.index virt))) :
    ∃ m', tableStep mm physAddr link parent child (parent.index virt) m = .ok () m' ∧
      Grown mm virt child.depth m m' ∧ Reads mm physAddr m' ∧ AtTable mm m' child virt ∧ ∀ l, l ≠ child → m'.pairs l = m.pairs l := by
  obtain ⟨p, hcu, at_parent⟩ := here
  have word := slot_of_node at_parent (parent.index virt)
  obtain ⟨c, at_child, page, phys⟩ :=
    hc.node_of_isTable (q := pathTo parent virt) (by rw [length_pathTo]; exact ht)
  rw [← hb.pathTo_eq] at at_child
  have hna : physAddr (m.word p (parent.index virt)) = mm.phys c := by
    rw [← word, hr _ _ (by rw [length_pathTo]; exact ht), phys]
  have hfl := @tableStep_follow mm m parent child physAddr link p c (parent.index virt) hcu
    (by rw [← word]; exact ht.1) page hna (hc.cached child hb.child_ne_pml4)
  obtain ⟨hc', node, slot⟩ := hc.withPair hb.child_ne_pml4 page
  refine ⟨m.withPair child ⟨some c, mm.phys c⟩, hfl, ?_, ?_, ⟨c, ?_, ?_⟩, ?_⟩
  · exact {
      coherent := hc'
      frame := fun q i _ => slot q i
      kept := fun q i _ => slot q i
      view := fun q i => view_congr (slot q i)
      root := by rw [Mmap.root, withPair_pairs_of_ne hb.child_ne_pml4.symm, Mmap.root]
      live := fun _ hm => hm
      outside := fun _ _ => rfl }
  · intro q i
    rw [slot]
    exact hr q i
  · rw [withPair_pairs_self]
  · rw [node, at_child]
  · exact fun l ho => withPair_pairs_of_ne ho _

/-- A zero entry gets a new table. -/
private theorem tableStep_missing (hf : Format mm physAddr link) (hb : Below parent child)
    (hc : Coherent mm m.live m) (hr : Reads mm physAddr m) (here : AtTable mm m parent virt)
    (zero : m.slot mm (pathTo parent virt) (parent.index virt) = 0) :
    ∃ m', tableStep mm physAddr link parent child (parent.index virt) m = .ok () m' ∧
      Grown mm virt child.depth m m' ∧ Reads mm physAddr m' ∧ AtTable mm m' child virt ∧ ∀ l, l ≠ child → m'.pairs l = m.pairs l := by
  obtain ⟨p, hcu, at_parent⟩ := here
  have word := slot_of_node at_parent (parent.index virt)
  have hab : m.node mm (pathTo child virt) = none := by
    rw [node_child hb, zero, if_neg (not_isTable_zero _)]
  have room : m.live.length < maxTables := by
    refine hc.length_lt ?_ hab
    cases hb <;> simp [Level.depth]
  have page := mm.alloc_isPage m.calls m.live hc.nodup hc.pages room
  have hfr := mm.alloc_fresh m.calls m.live hc.nodup hc.pages room
  generalize hna : mm.allocPage m.calls m.live = c at page hfr
  -- The three states: after the allocation, after the pair is set, after the entry is written.
  let m₁ : Mmap := { m with
    word := Function.update m.word c fun _ => 0, live := c :: m.live, calls := m.calls + 1 }
  let m₂ := m₁.withPair child ⟨some c, mm.phys c⟩
  have ha : allocate mm m = .ok ⟨some c, mm.phys c⟩ m₁ := by
    simp only [allocate, hna, mm.virtptrToPhysint_page page]
    rfl
  have hu : ∀ p ∈ m.live, m₁.word p = m.word p := fun p hm =>
    Function.update_of_ne (fun same : p = c => hfr (same ▸ hm)) _ _
  obtain ⟨hc₁, node₁, slot₁⟩ := hc.congr (show m₁.pairs = m.pairs from rfl) hu
  obtain ⟨hc₂, node₂, slot₂⟩ := hc₁.withPair hb.child_ne_pml4 page
  have hbl : Blank m₂.word c := fun i => by
    show Function.update m.word c (fun _ => 0) c i = 0
    rw [Function.update_self]
  have at_parent₂ : m₂.node mm (pathTo parent virt) = some p := by rw [node₂, node₁, at_parent]
  have zero₂ : m₂.slot mm (pathTo parent virt) (parent.index virt) = 0 := by rw [slot₂, slot₁, zero]
  obtain ⟨hc₃, at_child, slot₃⟩ := hc₂.write_table at_parent₂ zero₂
    (hf.table _ (mm.phys c) (by rw [length_pathTo]; exact hb.depth_lt)) (hf.named c page) page hfr hbl
  refine ⟨m₂.write p (parent.index virt) (link (mm.phys c)), ?_, ?_, ?_, ⟨c, ?_, ?_⟩, ?_⟩
  · rw [tableStep, bind_of_ok (spanAt_eq hcu), bind_of_ok (deref_eq _ m)]
    simp only [← word]
    rw [if_neg (not_not.mpr zero), bind_of_ok ha,
      bind_of_ok (show setPair child _ m₁ = .ok () m₂ from rfl), assign_eq]
  · have slot : ∀ q i, ¬ (q = pathTo parent virt ∧ i = parent.index virt) →
        (m₂.write p (parent.index virt) (link (mm.phys c))).slot mm q i = m.slot mm q i := by
      intro q i ho
      rw [slot₃, if_neg ho, slot₂, slot₁]
    exact {
      coherent := hc₃
      frame := fun q i off => slot q i fun here => off ⟨⟨parent, here⟩, by
        rw [here.1, length_pathTo]
        cases hb <;> decide⟩
      kept := fun q i hp => slot q i fun here => hp (by rw [here.1, here.2, zero])
      view := fun q i => by
        by_cases here : q = pathTo parent virt ∧ i = parent.index virt
        · have deep : q.length < 3 := by rw [here.1, length_pathTo]; exact hb.depth_lt
          rw [Mmap.view, slot₃, if_pos here, if_pos (hf.table _ _ deep), Mmap.view, here.1, here.2,
            zero, if_neg (not_isTable_zero _)]
        · exact view_congr (slot q i here)
      root := by
        show ((m₁.withPair child _).pairs .pml4).virtAddr.getD 0 = _
        rw [withPair_pairs_of_ne hb.child_ne_pml4.symm]
        rfl
      live := fun p' hm => List.mem_cons_of_mem c hm
      outside := fun p' gone => by
        have hm : p ∈ c :: m.live := List.mem_cons_of_mem c ((hc.nodes p).mpr ⟨_, at_parent⟩)
        have hab : p' ∉ c :: m.live := gone
        have new : p' ≠ c := fun same => hab (same ▸ List.mem_cons_self)
        have ho : p' ≠ p := fun same => hab (same ▸ hm)
        exact (writeWord_page ho _ _).trans (Function.update_of_ne new _ _) }
  · intro q i ht
    rw [slot₃] at ht ⊢
    by_cases here : q = pathTo parent virt ∧ i = parent.index virt
    · rw [if_pos here, hf.read c page, hf.named c page]
    · rw [if_neg here, slot₂, slot₁] at ht ⊢
      exact hr q i ht
  · show ((m₁.withPair child _).pairs child).virtAddr = some c
    rw [withPair_pairs_self]
  · rw [hb.pathTo_eq, at_child]
  · exact fun l ho => withPair_pairs_of_ne ho _

/-- Where no large page is in the way, one step of a walk reaches the table below. -/
theorem tableStep_spec (format : Format mm physAddr link) (hb : Below parent child)
    (hc : Coherent mm m.live m) (reads : Reads mm physAddr m) (here : AtTable mm m parent virt)
    (hem : m.view mm (pathTo parent virt) (parent.index virt) = 0) :
    ∃ m', tableStep mm physAddr link parent child (parent.index virt) m = .ok () m' ∧
      Grown mm virt child.depth m m' ∧ Reads mm physAddr m' ∧ AtTable mm m' child virt ∧
      ∀ l, l ≠ child → m'.pairs l = m.pairs l := by
  rcases view_eq_zero_or hem with zero | table
  · exact tableStep_missing format hb hc reads here zero
  · exact tableStep_linked hb hc reads here (by rw [length_pathTo] at table; exact table)

/-- Where no large page is in the way, `map_pdpt`, `map_pd` and `map_pt` reach the table below. -/
theorem mapTable_spec (hb : Below parent child) (hc : Coherent mm m.live m) (here : AtTable mm m parent virt)
    (hem : m.view mm (pathTo parent virt) (parent.index virt) = 0) :
    ∃ m', mapTable mm parent child (parent.index virt) m = .ok () m' ∧ Grown mm virt child.depth m m' ∧
      AtTable mm m' child virt ∧ ∀ l, l ≠ child → m'.pairs l = m.pairs l := by
  obtain ⟨m', hret, hg, -, hb, hot⟩ := tableStep_spec (format_ept mm) hb hc (fun _ _ _ => rfl) here hem
  exact ⟨m', hret, hg, hb, hot⟩

end MapTable

end Gevisor.Ept
