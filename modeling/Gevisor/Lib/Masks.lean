import Mathlib.Algebra.CharZero.Defs
import Mathlib.Data.BitVec
import Mathlib.Algebra.Order.Ring.Nat

/-! # Rounding with masks -/

namespace Gevisor.Lib

/-- Clearing the lowest bits rounds down. -/
theorem toNat_and_not {w : Nat} (x : BitVec w) (k : Nat) :
    (x &&& ~~~BitVec.ofNat w (2 ^ k - 1)).toNat = x.toNat / 2 ^ k * 2 ^ k := by
  refine Nat.eq_of_testBit_eq fun i => ?_
  rw [BitVec.testBit_toNat, BitVec.getLsbD_and, BitVec.getLsbD_not, BitVec.getLsbD_ofNat, Nat.testBit_two_pow_sub_one,
    Nat.testBit_mul_two_pow, Nat.testBit_div_two_pow, BitVec.testBit_toNat]
  by_cases low : i < k
  · simp [low]
  · rw [Nat.sub_add_cancel (Nat.le_of_not_lt low)]
    by_cases hbo : i < w
    · simp [low, hbo, Nat.le_of_not_lt low]
    · simp [BitVec.getLsbD_of_ge x i (Nat.le_of_not_lt hbo)]

/-- The lowest bits are the rest. -/
theorem toNat_and_low {w : Nat} (x : BitVec w) (k : Nat) :
    (x &&& BitVec.ofNat w (2 ^ k - 1)).toNat = x.toNat % 2 ^ k := by
  refine Nat.eq_of_testBit_eq fun i => ?_
  rw [BitVec.testBit_toNat, BitVec.getLsbD_and, BitVec.getLsbD_ofNat, Nat.testBit_two_pow_sub_one, Nat.testBit_mod_two_pow,
    BitVec.testBit_toNat]
  by_cases hbo : i < w
  · simp [hbo, Bool.and_comm]
  · simp [BitVec.getLsbD_of_ge x i (Nat.le_of_not_lt hbo)]

/-- A field of bits from `lo` on keeps its place. -/
theorem toNat_and_field {m : BitVec 64} {lo n : Nat} (hm : m.toNat = (2 ^ n - 1) <<< lo) (hw : lo + n ≤ 64)
    (val : Nat) : (BitVec.ofNat 64 val &&& m).toNat = val % 2 ^ (lo + n) / 2 ^ lo * 2 ^ lo := by
  rw [BitVec.toNat_and, BitVec.toNat_ofNat, hm]
  refine Nat.eq_of_testBit_eq fun i => ?_
  rw [Nat.testBit_mul_two_pow, Nat.testBit_div_two_pow]
  simp only [Nat.testBit_and, Nat.testBit_shiftLeft, Nat.testBit_mod_two_pow, Nat.testBit_two_pow_sub_one]
  by_cases low : lo ≤ i
  · rw [Nat.sub_add_cancel low]
    by_cases high : i < lo + n
    · simp [low, high, (by omega : i < 64), (by omega : i - lo < n)]
    · simp [high, (by omega : n ≤ i - lo)]
  · simp [low]

end Gevisor.Lib
