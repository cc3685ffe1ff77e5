import Gevisor.Ept.Mmap

/-! # Coherent memory maps

The pages of a map form a radix tree. Its words are addressed by the path to their table; a word that
names a table is structure, every other non-zero word maps memory. `Mmap.view` forgets the structure.
`Coherent` says that the tree is one, that the pages in use are its tables, and that the remembered
pairs name pages by their own physical addresses, so that a remembered pair is right whenever its
physical address is, even if its page has been given back and allocated again in the meantime.
-/

namespace Gevisor.Ept

open Gevisor.Lib

def Level.depth : Level → Nat
  | .pml4 => 0
  | .pdpt => 1
  | .pd => 2
  | .pt => 3

/-- `child`'s tables hang below `parent`'s entries. -/
inductive Below : Level → Level → Prop
  | pdpt : Below .pml4 .pdpt
  | pd : Below .pdpt .pd
  | pt : Below .pd .pt

/-- The indices on the way of `virt` to its table of level `l`, last index first. -/
def pathTo : Level → Nat → List (Fin 512)
  | .pml4, _ => []
  | .pdpt, virt => [Level.pml4.index virt]
  | .pd, virt => [Level.pdpt.index virt, Level.pml4.index virt]
  | .pt, virt => [Level.pd.index virt, Level.pdpt.index virt, Level.pml4.index virt]

@[simp] theorem length_pathTo (l : Level) (virt : Nat) : (pathTo l virt).length = l.depth := by
  cases l <;> rfl

variable {parent child l l' : Level}

theorem Below.pathTo_eq (hb : Below parent child) (virt : Nat) :
    pathTo child virt = parent.index virt :: pathTo parent virt := by
  cases hb <;> rfl

theorem Below.depth_lt (hb : Below parent child) : parent.depth < 3 := by
  cases hb <;> decide

theorem Below.child_ne_pml4 (hb : Below parent child) : child ≠ .pml4 := by
  cases hb <;> decide

theorem Level.depth_injective (same : l.depth = l'.depth) : l = l' := by
  cases l <;> cases l' <;> first | rfl | cases same

theorem pathTo_level {virt virt' : Nat} (same : pathTo l virt = pathTo l' virt') : l = l' :=
  Level.depth_injective (by simpa using congrArg List.length same)

/-- The word, found in a table `d` levels below the root, names a table. -/
def IsTable (d : Nat) (w : Entry) : Prop := w ≠ 0 ∧ d < 3 ∧ (d = 0 ∨ w.ps = false)

instance (d : Nat) (w : Entry) : Decidable (IsTable d w) := inferInstanceAs (Decidable (_ ∧ _))

theorem isTable_tableEntry {d : Nat} (deep : d < 3) (phys : Nat) : IsTable d (tableEntry phys) :=
  ⟨tableEntry_ne_zero phys, deep, .inr (tableEntry_ps phys)⟩

theorem not_isTable_zero (d : Nat) : ¬ IsTable d 0 := fun h => h.1 rfl

def tree (mm : PagePool) (root : Nat) : PageTree Nat Entry where
  root := root
  next d w := if IsTable d w then mm.physintToVirtptr w.physAddr else none
  next_zero d := if_neg (not_isTable_zero d)

namespace Mmap

variable (mm : PagePool) (m : Mmap)

def root : Nat := (m.pairs .pml4).virtAddr.getD 0

def node (q : List (Fin 512)) : Option Nat := (tree mm m.root).node m.word q

def slot (q : List (Fin 512)) (i : Fin 512) : Entry := (tree mm m.root).slot m.word q i

/-- The words that map memory. -/
def view (q : List (Fin 512)) (i : Fin 512) : Entry :=
  if IsTable q.length (m.slot mm q i) then 0 else m.slot mm q i

end Mmap

/-- The tree of `m` is well formed and `tables` are its pages. -/
structure Coherent (mm : PagePool) (tables : List Nat) (m : Mmap) : Prop where
  root : (m.pairs .pml4).virtAddr = some m.root
  separated : (tree mm m.root).Separated m.word
  linked : ∀ q i, IsTable q.length (m.slot mm q i) →
    ∃ p, mm.IsPage p ∧ (m.slot mm q i).physAddr = mm.phys p
  nodes : ∀ p, p ∈ tables ↔ ∃ q, m.node mm q = some p
  nodup : tables.Nodup
  pages : ∀ p ∈ tables, mm.IsPage p
  cached : ∀ l, l ≠ .pml4 → m.pairs l = ⟨none, 0⟩ ∨ ∃ p, mm.IsPage p ∧ m.pairs l = ⟨some p, mm.phys p⟩

/-- The current table of level `l` is page `p`, and it is the one on the way of `virt`. -/
def AtPage (mm : PagePool) (m : Mmap) (l : Level) (virt p : Nat) : Prop :=
  (m.pairs l).virtAddr = some p ∧ m.node mm (pathTo l virt) = some p

def AtTable (mm : PagePool) (m : Mmap) (l : Level) (virt : Nat) : Prop :=
  ∃ p, AtPage mm m l virt p

section Basics

variable {mm : PagePool} {m : Mmap} {tables : List Nat}

variable {q : List (Fin 512)} {i : Fin 512}

theorem node_cons (q : List (Fin 512)) (i : Fin 512) : m.node mm (i :: q) =
      if IsTable q.length (m.slot mm q i) then mm.physintToVirtptr (m.slot mm q i).physAddr else none :=
  PageTree.node_cons q i

theorem node_child {parent child : Level} (hb : Below parent child) (virt : Nat) : m.node mm (pathTo child virt) =
      if IsTable parent.depth (m.slot mm (pathTo parent virt) (parent.index virt)) then
        mm.physintToVirtptr (m.slot mm (pathTo parent virt) (parent.index virt)).physAddr
      else none := by
  rw [hb.pathTo_eq, node_cons, length_pathTo]

theorem slot_of_node {p : Nat} (at_q : m.node mm q = some p) (i : Fin 512) : m.slot mm q i = m.word p i :=
  PageTree.slot_of_node at_q i

theorem slot_of_missing (hmis : m.node mm q = none) (i : Fin 512) :
    m.slot mm q i = 0 := PageTree.slot_of_missing hmis i

/-- Nothing hangs below the last level. -/
theorem node_deep (deep : 3 < q.length) : m.node mm q = none := by
  cases q with
  | nil => cases deep
  | cons i q =>
    rw [node_cons, if_neg]
    intro ht
    have := ht.2.1
    simp only [List.length_cons] at deep
    omega

theorem view_eq_zero_or (hem : m.view mm q i = 0) : m.slot mm q i = 0 ∨ IsTable q.length (m.slot mm q i) := by
  by_cases ht : IsTable q.length (m.slot mm q i)
  · exact .inr ht
  · rw [Mmap.view, if_neg ht] at hem
    exact .inl hem

theorem view_congr {m' : Mmap} (same : m'.slot mm q i = m.slot mm q i) : m'.view mm q i = m.view mm q i := by
  rw [Mmap.view, same, Mmap.view]

theorem Coherent.atTable_pml4 (hc : Coherent mm tables m) (virt : Nat) : AtTable mm m .pml4 virt :=
  ⟨m.root, hc.root, rfl⟩

/-- A word that names a table leads to a page of the tree. -/
theorem Coherent.node_of_isTable (hc : Coherent mm tables m) (ht : IsTable q.length (m.slot mm q i)) :
    ∃ p, m.node mm (i :: q) = some p ∧ mm.IsPage p ∧ (m.slot mm q i).physAddr = mm.phys p := by
  obtain ⟨p, page, phys⟩ := hc.linked q i ht
  refine ⟨p, ?_, page, phys⟩
  rw [node_cons, if_pos ht, phys]
  exact mm.physintToVirtptr_phys page

/-- While a node is missing there is still a page to allocate. -/
theorem Coherent.length_lt (hc : Coherent mm tables m) (hs : q.length ≤ 3)
    (hmis : m.node mm q = none) : tables.length < maxTables := by
  have hf := PageTree.length_lt_of_missing (fun q deep => node_deep deep) hc.nodup
    (fun p hm => (hc.nodes p).mp hm) hs hmis
  have ht : ∑ k : Fin 4, Fintype.card (Fin 512) ^ (k : Nat) = maxTables := by
    simp [Fin.sum_univ_four, maxTables]
  exact lt_of_lt_of_eq hf ht

end Basics

end Gevisor.Ept
