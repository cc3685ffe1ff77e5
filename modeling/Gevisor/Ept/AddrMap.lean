import Gevisor.Ept.Release

/-! # A map as a partial function

The abstract view of `ept::mmap`: a partial function from addresses to leaves. `Refines` connects the
two, and the operations that GEVisor applies to its map at run time are shown to act on the partial
function alone.
-/

namespace Gevisor.Ept

open Gevisor.Lib

/-- The two addresses have their words of level `l` in common. Only 48 address bits take part in a
walk. -/
def SameLeaf (l : Level) (a v : Nat) : Prop := a % 2 ^ 48 / 2 ^ l.fromBit = v % 2 ^ 48 / 2 ^ l.fromBit

instance (l : Level) (a v : Nat) : Decidable (SameLeaf l a v) := inferInstanceAs (Decidable (_ = _))

variable (l : Level) (a v : Nat)

theorem SameLeaf.refl : SameLeaf l v v := rfl

theorem index_eq_iff :
    l.index a = l.index v ↔ a / 2 ^ l.fromBit % 512 = v / 2 ^ l.fromBit % 512 := by
  rw [Fin.ext_iff]
  rfl

theorem sameLeaf_iff : SameLeaf l a v ↔ pathTo l a = pathTo l v ∧ l.index a = l.index v := by
  cases l <;>
    simp only [SameLeaf, pathTo, List.cons.injEq, and_true, true_and, index_eq_iff, Level.fromBit] <;>
    omega

/-- Addresses that share a word share the words above it. -/
theorem SameLeaf.upper {l l' : Level} {a v : Nat} (same : SameLeaf l a v) (upper : l'.depth ≤ l.depth) :
    SameLeaf l' a v := by
  cases l <;> cases l' <;> first | exact same | exact absurd upper (by decide) | skip
  all_goals
    simp only [SameLeaf, Level.fromBit] at same ⊢
    omega

namespace AddrMap

/-- `leaf` becomes the answer for all addresses that share `virt`'s word of level `l`. -/
def set (A : AddrMap) (l : Level) (virt : Nat) (leaf : Option Leaf) : AddrMap := fun a =>
  if SameLeaf l a virt then leaf else A a

variable {l : Level} {a virt : Nat}

theorem set_same (same : SameLeaf l a virt) (A : AddrMap) (leaf : Option Leaf) : A.set l virt leaf a = leaf :=
  if_pos same

theorem set_other (ho : ¬ SameLeaf l a virt) (A : AddrMap) (leaf : Option Leaf) :
    A.set l virt leaf a = A a := if_neg ho

end AddrMap

/-- A word as a leaf; zero is none. -/
def asLeaf (l : Level) (w : Entry) : Option Leaf := if w = 0 then none else some ⟨l, w⟩

section Update

variable {view view' : List (Fin 512) → Fin 512 → Entry} {l : Level} {virt : Nat} {w : Entry}

/-- One word of level `l` is replaced where nothing above it maps memory and, if the word goes, nothing
below it does. -/
theorem leafOf_update (inner : l ≠ .pml4)
    (update : ∀ q i, view' q i = if q = pathTo l virt ∧ i = l.index virt then w else view q i)
    (upper : ∀ l' : Level, l'.depth < l.depth → view (pathTo l' virt) (l'.index virt) = 0)
    (lower : w = 0 → ∀ l' a, l.depth < l'.depth → SameLeaf l a virt → view (pathTo l' a) (l'.index a) = 0) :
    leafOf view' = AddrMap.set (leafOf view) l virt (asLeaf l w) := by
  funext a
  by_cases same : SameLeaf l a virt
  · rw [AddrMap.set_same same]
    have here : view' (pathTo l a) (l.index a) = w := by
      rw [update, if_pos ((sameLeaf_iff l a virt).mp same)]
    have higher : ∀ l' : Level, l'.depth < l.depth → view' (pathTo l' a) (l'.index a) = 0 := by
      intro l' less
      obtain ⟨path, index⟩ := (sameLeaf_iff l' a virt).mp (same.upper (Nat.le_of_lt less))
      rw [update, if_neg fun eq => pathTo_of_depth_lt less a eq.1, path, index, upper l' less]
    have under : w = 0 → ∀ l' : Level, l.depth < l'.depth → view' (pathTo l' a) (l'.index a) = 0 := by
      intro zero l' more
      rw [update, if_neg fun eq => pathTo_of_depth_lt more virt eq.1.symm, lower zero l' a more same]
    by_cases zero : w = 0
    · have gone : ∀ l' : Level, view' (pathTo l' a) (l'.index a) = 0 := by
        intro l'
        rcases Nat.lt_trichotomy l'.depth l.depth with less | equal | more
        · exact higher l' less
        · rw [Level.depth_injective equal, here, zero]
        · exact under zero l' more
      simp only [leafOf, gone, asLeaf, zero, ne_eq, not_true_eq_false, if_false, if_true]
    · cases l with
      | pml4 => exact absurd rfl inner
      | pdpt => simp only [leafOf, here, asLeaf, zero, ne_eq, not_false_eq_true, if_true, if_false]
      | pd =>
        simp only [leafOf, higher .pdpt (by decide), here, asLeaf, zero, ne_eq, not_true_eq_false,
          not_false_eq_true, if_true, if_false]
      | pt =>
        simp only [leafOf, higher .pdpt (by decide), higher .pd (by decide), here, asLeaf, zero, ne_eq,
          not_true_eq_false, not_false_eq_true, if_true, if_false]
  · rw [AddrMap.set_other same]
    have elsewhere : ∀ l' : Level, view' (pathTo l' a) (l'.index a) = view (pathTo l' a) (l'.index a) := by
      intro l'
      rw [update, if_neg]
      rintro ⟨path, index⟩
      obtain rfl := pathTo_level path
      exact same ((sameLeaf_iff l' a virt).mpr ⟨path, index⟩)
    simp only [leafOf, elsewhere]

end Update

/-- `m` is a coherent map whose meaning is `A`. -/
def Refines (mm : PagePool) (m : Mmap) (A : AddrMap) : Prop :=
  Coherent mm m.live m ∧ leafAt mm m = A

section Writes

variable {mm : PagePool} {m m' : Mmap} {l : Level} {virt : Nat} {w : Entry}

/-- Replacing a leaf, or a zero entry, by a leaf or zero acts on the partial function at one place. -/
theorem leafAt_write (hc : Coherent mm m.live m) {r : EntryRef} (hrf : RefTo mm m l virt r)
    (hin : l ≠ .pml4) (old : ¬ IsTable l.depth (m.slot mm (pathTo l virt) (l.index virt)))
    (new : ¬ IsTable l.depth w)
    (hu : ∀ l' : Level, l'.depth < l.depth → m.view mm (pathTo l' virt) (l'.index virt) = 0) :
    Refines mm (m.write r.page r.index w) ((leafAt mm m).set l virt (asLeaf l w)) ∧
      ∀ q i, ¬ OnPath virt q i → (m.write r.page r.index w).slot mm q i = m.slot mm q i := by
  have hd := length_pathTo l virt
  rw [hrf.2]
  obtain ⟨hc', -, slot⟩ := hc.write_leaf hrf.1 (i := l.index virt) (by rw [hd]; exact old) (by rw [hd]; exact new)
  refine ⟨⟨hc', leafOf_update hin ?_ hu ?_⟩, ?_⟩
  · intro q i
    by_cases here : q = pathTo l virt ∧ i = l.index virt
    · rw [Mmap.view, slot, if_pos here, if_pos here, here.1, hd, if_neg new]
    · rw [if_neg here]
      exact view_congr (by rw [slot, if_neg here])
  · intro _ l' a hde same
    obtain ⟨path, hi⟩ := (sameLeaf_iff l a virt).mp same
    refine view_of_slot_zero (slot_deeper hde ?_ _)
    rw [path, hi]
    exact old
  · intro q i off
    rw [slot, if_neg fun same => off ⟨l, same⟩]

theorem leafAt_some (hf : leafAt mm m virt = some ⟨l, w⟩) :
    l ≠ .pml4 ∧ w ≠ 0 ∧ m.view mm (pathTo l virt) (l.index virt) = w ∧
      ∀ l' : Level, l'.depth < l.depth → m.view mm (pathTo l' virt) (l'.index virt) = 0 := by
  have top : m.view mm (pathTo .pml4 virt) (Level.pml4.index virt) = 0 := view_pml4 _
  simp only [leafAt, leafOf] at hf
  split at hf
  · next hp =>
    simp only [Option.some.injEq, Leaf.mk.injEq] at hf
    obtain ⟨rfl, rfl⟩ := hf
    refine ⟨by decide, hp, rfl, fun l' hu => ?_⟩
    cases l' <;> first | exact top | exact absurd hu (by decide)
  · next hab₁ =>
    split at hf
    · next hp =>
      simp only [Option.some.injEq, Leaf.mk.injEq] at hf
      obtain ⟨rfl, rfl⟩ := hf
      refine ⟨by decide, hp, rfl, fun l' hu => ?_⟩
      cases l' <;> first | exact top | exact not_not.mp hab₁ | exact absurd hu (by decide)
    · next hab₂ =>
      split at hf
      · next hp =>
        simp only [Option.some.injEq, Leaf.mk.injEq] at hf
        obtain ⟨rfl, rfl⟩ := hf
        refine ⟨by decide, hp, rfl, fun l' hu => ?_⟩
        cases l' <;> first
          | exact top
          | exact not_not.mp hab₁
          | exact not_not.mp hab₂
          | exact absurd hu (by decide)
      · cases hf

theorem leafAt_none (hf : leafAt mm m virt = none) (l : Level) : m.view mm (pathTo l virt) (l.index virt) = 0 := by
  simp only [leafAt, leafOf] at hf
  split at hf
  · cases hf
  · next hab₁ =>
    split at hf
    · cases hf
    · next hab₂ =>
      split at hf
      · cases hf
      · next hab₃ =>
        cases l with
        | pml4 => exact view_pml4 _
        | pdpt => exact not_not.mp hab₁
        | pd => exact not_not.mp hab₂
        | pt => exact not_not.mp hab₃

/-- A word that shows in the view is no table. -/
theorem slot_of_view {q : List (Fin 512)} {i : Fin 512} (word : m.view mm q i = w) (hp : w ≠ 0) :
    m.slot mm q i = w ∧ ¬ IsTable q.length w := by
  by_cases ht : IsTable q.length (m.slot mm q i)
  · rw [Mmap.view, if_pos ht] at word
    exact absurd word.symm hp
  · rw [Mmap.view, if_neg ht] at word
    exact ⟨word, word ▸ ht⟩

end Writes

end Gevisor.Ept
