import Mathlib.Algebra.CharZero.Defs
import Mathlib.Data.BitVec
import Mathlib.Algebra.Order.Ring.Nat

/-! # Blocks of memory

A block has a start and a length. Blocks that lie in blocks without a common byte have none themselves, and cutting
a block into equal parts gives parts without a common byte.
-/

namespace Gevisor.Lib

structure Block where
  start : Nat
  length : Nat
  deriving DecidableEq, Repr

namespace Block

variable {x y z : Block} {size : Nat}

/-- No common byte. -/
def Apart (x y : Block) : Prop := x.start + x.length ≤ y.start ∨ y.start + y.length ≤ x.start

def Inside (x y : Block) : Prop := y.start ≤ x.start ∧ x.start + x.length ≤ y.start + y.length

/-- Byte `a` is in the block. -/
def Has (x : Block) (a : Nat) : Prop := x.start ≤ a ∧ a < x.start + x.length

theorem Apart.symm (hap : Apart x y) : Apart y x := Or.symm hap

theorem Inside.refl (x : Block) : Inside x x := ⟨Nat.le_refl _, Nat.le_refl _⟩

theorem Inside.trans (first : Inside x y) (hs : Inside y z) : Inside x z :=
  ⟨Nat.le_trans hs.1 first.1, Nat.le_trans first.2 hs.2⟩

theorem Apart.inside {x' y' : Block} (hap : Apart x y) (left : Inside x' x) (right : Inside y' y) :
    Apart x' y' := by
  simp only [Apart, Inside] at *
  omega

/-- A byte of a block is in no block apart from it. -/
theorem Apart.not_has (hap : Apart x y) {a : Nat} (here : x.Has a) : ¬ y.Has a := by
  simp only [Apart, Has] at *
  omega

theorem Inside.has (hi : Inside x y) {a : Nat} (here : x.Has a) : y.Has a := by
  simp only [Inside, Has] at *
  omega

theorem Has.start (hfi : 0 < x.length) : x.Has x.start := by
  simp only [Has]
  omega

/-- As many parts of `size` bytes as fit. -/
def cut (size : Nat) (x : Block) : List Block :=
  (List.range (x.length / size)).map fun i => ⟨x.start + size * i, size⟩

theorem inside_of_mem_cut (part : y ∈ cut size x) : Inside y x := by
  obtain ⟨i, hm, rfl⟩ := List.mem_map.mp part
  have fits : size * (i + 1) ≤ x.length := by
    rw [Nat.mul_comm]
    exact (Nat.le_div_iff_mul_le (Nat.pos_of_ne_zero fun zero => by simp [zero] at hm)).mp (List.mem_range.mp hm)
  simp only [Inside]
  rw [Nat.mul_add, Nat.mul_one] at fits
  omega

theorem cut_apart (size : Nat) (x : Block) : (cut size x).Pairwise Apart := by
  refine List.pairwise_map.mpr (List.pairwise_lt_range.imp ?_)
  intro i j less
  have hs := Nat.mul_le_mul_left size (Nat.succ_le_of_lt less)
  rw [Nat.succ_eq_add_one, Nat.mul_add, Nat.mul_one] at hs
  simp only [Apart]
  omega

/-- Parts of blocks without a common byte have no common byte. -/
theorem flatMap_apart {xs : List Block} (hap : xs.Pairwise Apart) {parts : Block → List Block}
    (hi : ∀ x, ∀ y ∈ parts x, Inside y x) (each : ∀ x, (parts x).Pairwise Apart) :
    (xs.flatMap parts).Pairwise Apart := by
  induction xs with
  | nil => exact .nil
  | cons x xs ih =>
    obtain ⟨first, hot⟩ := List.pairwise_cons.mp hap
    rw [List.flatMap_cons]
    refine List.pairwise_append.mpr ⟨each x, ih hot, fun y part z hm => ?_⟩
    obtain ⟨x', ho, part'⟩ := List.mem_flatMap.mp hm
    exact (first x' ho).inside (hi x y part) (hi x' z part')

end Block

end Gevisor.Lib
