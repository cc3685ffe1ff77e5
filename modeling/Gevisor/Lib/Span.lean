import Mathlib.Algebra.CharZero.Defs
import Mathlib.Data.BitVec
import Mathlib.Algebra.Order.Ring.Nat

/-! # Byte spans read as bits

A span of bytes with its size, the writes to it, and what each write does to single bits. Bit `i` is bit
`i % 8` of byte `i / 8`.
-/

namespace Gevisor.Lib

structure Span where
  data : Nat → BitVec 8
  size : Nat

namespace Span

/-- A span of zeroed memory. -/
def zero (size : Nat) : Span := ⟨fun _ => 0, size⟩

def bit (view : Span) (i : Nat) : Bool := (view.data (i / 8)).getLsbD (i % 8)

def put (view : Span) (k : Nat) (value : BitVec 8) : Span :=
  { view with data := fun i => if i = k then value else view.data i }

/-- Every byte from `start` on, `count` of them. -/
def fill (view : Span) (start count : Nat) (value : BitVec 8) : Span :=
  { view with data := fun i => if start ≤ i ∧ i < start + count then value else view.data i }

theorem bit_zero (size i : Nat) : (zero size).bit i = false := BitVec.getLsbD_zero

/-- The byte with bit `j` alone. -/
theorem getLsbD_single {i j : Nat} (hb : i < 8) : (BitVec.ofNat 8 (1 <<< j)).getLsbD i = decide (i = j) := by
  rw [BitVec.getLsbD_ofNat, Nat.one_shiftLeft, Nat.testBit_two_pow, decide_eq_true hb, Bool.true_and]
  exact decide_eq_decide.mpr eq_comm

variable {view : Span} {b i : Nat}

theorem bit_put {k : Nat} {value : BitVec 8} :
    (view.put k value).bit i = if i / 8 = k then value.getLsbD (i % 8) else view.bit i := by
  simp only [bit, put]
  split <;> rfl

/-- A bit is known by its byte and its place there. -/
theorem eq_iff_of_byte (byte : i / 8 = b / 8) : i % 8 = b % 8 ↔ i = b := by omega

theorem bit_or : (view.put (b / 8) (view.data (b / 8) ||| BitVec.ofNat 8 (1 <<< (b % 8)))).bit i =
    if i = b then true else view.bit i := by
  rw [bit_put]
  by_cases byte : i / 8 = b / 8
  · rw [if_pos byte, BitVec.getLsbD_or, getLsbD_single (Nat.mod_lt i (by decide)), bit, byte]
    by_cases same : i = b
    · simp [same]
    · simp [same, eq_iff_of_byte byte]
  · have ho : i ≠ b := fun same => byte (same ▸ rfl)
    rw [if_neg byte, if_neg ho]

theorem bit_and_not : (view.put (b / 8) (view.data (b / 8) &&& ~~~BitVec.ofNat 8 (1 <<< (b % 8)))).bit i =
    if i = b then false else view.bit i := by
  rw [bit_put]
  by_cases byte : i / 8 = b / 8
  · have hb : i % 8 < 8 := Nat.mod_lt i (by decide)
    rw [if_pos byte, BitVec.getLsbD_and, BitVec.getLsbD_not, getLsbD_single hb, bit, byte]
    by_cases same : i = b
    · simp [same]
    · have hp : decide (i % 8 = b % 8) = false := decide_eq_false (mt (eq_iff_of_byte byte).mp same)
      rw [hp, decide_eq_true hb, if_neg same, Bool.not_false, Bool.and_true, Bool.and_true]
  · have ho : i ≠ b := fun same => byte (same ▸ rfl)
    rw [if_neg byte, if_neg ho]

theorem bit_fill {start count : Nat} {value : BitVec 8} : (view.fill start count value).bit i =
    if start * 8 ≤ i ∧ i < (start + count) * 8 then value.getLsbD (i % 8) else view.bit i := by
  have hi : (start ≤ i / 8 ∧ i / 8 < start + count) ↔ start * 8 ≤ i ∧ i < (start + count) * 8 := by omega
  simp only [bit, fill, hi]
  split <;> rfl

end Span

end Gevisor.Lib
