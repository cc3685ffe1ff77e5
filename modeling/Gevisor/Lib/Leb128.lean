import Mathlib.Algebra.CharZero.Defs
import Mathlib.Data.BitVec
import Mathlib.Algebra.Order.Ring.Nat
import Mathlib.Algebra.Order.Ring.Int

/-! # LEB128

Numbers as bytes of seven bits each, the lowest ones first. All bytes but the last have their highest bit set. In the
signed form the second highest bit of the last byte is the sign.
-/

namespace Gevisor.Lib.Leb128

/-! ## Encodings and their values -/

/-- All bytes but the last one say that there are more. -/
def Terminated : List (BitVec 8) → Prop
  | [] => False
  | [b] => b.toNat < 128
  | b :: c :: rest => 128 ≤ b.toNat ∧ Terminated (c :: rest)

instance decidableTerminated : (bytes : List (BitVec 8)) → Decidable (Terminated bytes)
  | [] => inferInstanceAs (Decidable False)
  | [_] => inferInstanceAs (Decidable (_ < _))
  | _ :: c :: rest =>
    have := decidableTerminated (c :: rest)
    inferInstanceAs (Decidable (_ ∧ _))

def digit (b : BitVec 8) : Nat := b.toNat % 128

def unsignedValue : List (BitVec 8) → Nat
  | [] => 0
  | b :: rest => digit b + 128 * unsignedValue rest

theorem unsignedValue_cons (b : BitVec 8) (rest : List (BitVec 8)) :
    unsignedValue (b :: rest) = digit b + 128 * unsignedValue rest := rfl

/-- The value of a last byte, with its sign. -/
def lastDigit (b : BitVec 8) : Int := if digit b < 64 then digit b else digit b - 128

def signedValue : List (BitVec 8) → Int
  | [] => 0
  | [b] => lastDigit b
  | b :: c :: rest => digit b + 128 * signedValue (c :: rest)

/-- `bytes` is an encoding of `n`, and there is none with fewer bytes. -/
structure Shortest {α : Type} (value : List (BitVec 8) → α) (n : α) (bytes : List (BitVec 8)) : Prop where
  terminated : Terminated bytes
  encodes : value bytes = n
  least : ∀ other, Terminated other → value other = n → bytes.length ≤ other.length

theorem digit_lt (b : BitVec 8) : digit b < 128 := Nat.mod_lt _ (by decide)

theorem unsignedValue_lt (bytes : List (BitVec 8)) : unsignedValue bytes < 2 ^ (7 * bytes.length) := by
  induction bytes with
  | nil => decide
  | cons b rest ih =>
    have hbo := digit_lt b
    rw [unsignedValue_cons, List.length_cons, Nat.mul_succ, Nat.pow_add]
    omega

theorem lastDigit_bounds (b : BitVec 8) : -64 ≤ lastDigit b ∧ lastDigit b < 64 := by
  have hbo := digit_lt b
  rw [lastDigit]
  split
  · omega
  · omega

/-! ## Encoding -/

/-- A byte with more to come. -/
def more (n : Nat) : BitVec 8 := BitVec.ofNat 8 (n % 128 + 128)

@[simp] theorem toNat_more (n : Nat) : (more n).toNat = n % 128 + 128 := by
  rw [more, BitVec.toNat_ofNat]
  omega

@[simp] theorem digit_more (n : Nat) : digit (more n) = n % 128 := by
  rw [digit, toNat_more]
  omega

def uleb (n : Nat) : List (BitVec 8) := if n < 128 then [BitVec.ofNat 8 n] else more n :: uleb (n / 128)
termination_by n
decreasing_by omega

def sleb (z : Int) : List (BitVec 8) :=
  if -64 ≤ z ∧ z < 64 then [BitVec.ofNat 8 (z % 128).toNat] else more (z % 128).toNat :: sleb (z / 128)
termination_by z.natAbs
decreasing_by omega

theorem sleb_ne_nil (z : Int) : sleb z ≠ [] := by
  rw [sleb]
  split
  · simp
  · simp

variable {b : BitVec 8} {rest bytes : List (BitVec 8)} {k : Nat}

theorem terminated_cons (high : 128 ≤ b.toNat) (hte : Terminated rest) : Terminated (b :: rest) := by
  cases rest with
  | nil => exact hte.elim
  | cons c rest => exact ⟨high, hte⟩

theorem signedValue_cons (some : rest ≠ []) : signedValue (b :: rest) = digit b + 128 * signedValue rest := by
  cases rest with
  | nil => exact absurd rfl some
  | cons c rest => rfl

theorem uleb_encodes (n : Nat) : Terminated (uleb n) ∧ unsignedValue (uleb n) = n := by
  induction n using Nat.strongRecOn with
  | ind n ih =>
    rw [uleb]
    by_cases hs : n < 128
    · rw [if_pos hs, Terminated, unsignedValue, unsignedValue, digit, BitVec.toNat_ofNat]
      omega
    · obtain ⟨hte, hv⟩ := ih (n / 128) (by omega)
      rw [if_neg hs, unsignedValue, hv, digit_more]
      refine ⟨terminated_cons ?_ hte, by omega⟩
      rw [toNat_more]
      omega

theorem sleb_encodes (z : Int) : Terminated (sleb z) ∧ signedValue (sleb z) = z := by
  induction size : z.natAbs using Nat.strongRecOn generalizing z with
  | ind n ih =>
    rw [sleb]
    by_cases hs : -64 ≤ z ∧ z < 64
    · have byte : (BitVec.ofNat 8 (z % 128).toNat).toNat = (z % 128).toNat := by
        rw [BitVec.toNat_ofNat]
        omega
      rw [if_pos hs, Terminated, signedValue, lastDigit, digit, byte]
      refine ⟨by omega, ?_⟩
      split
      · omega
      · omega
    · obtain ⟨hte, hv⟩ := ih (z / 128).natAbs (by omega) (z / 128) rfl
      rw [if_neg hs, signedValue_cons (sleb_ne_nil _), hv, digit_more]
      refine ⟨terminated_cons ?_ hte, by omega⟩
      rw [toNat_more]
      omega

/-! ## No encoding is shorter -/

theorem length_uleb_le (hte : Terminated bytes) : (uleb (unsignedValue bytes)).length ≤ bytes.length := by
  induction bytes with
  | nil => exact hte.elim
  | cons b rest ih =>
    have hbo := digit_lt b
    rw [uleb, unsignedValue]
    split
    · exact Nat.le_add_left 1 _
    · next hl =>
      cases rest with
      | nil =>
        rw [unsignedValue] at hl
        omega
      | cons c rest =>
        have next : (digit b + 128 * unsignedValue (c :: rest)) / 128 = unsignedValue (c :: rest) := by omega
        rw [next, List.length_cons, List.length_cons]
        exact Nat.succ_le_succ (ih hte.2)

theorem length_sleb_le (hte : Terminated bytes) : (sleb (signedValue bytes)).length ≤ bytes.length := by
  induction bytes with
  | nil => exact hte.elim
  | cons b rest ih =>
    have hbo := digit_lt b
    have last := lastDigit_bounds b
    rw [sleb]
    split
    · exact Nat.le_add_left 1 _
    · next hl =>
      cases rest with
      | nil => exact absurd last hl
      | cons c rest =>
        have next : signedValue (b :: c :: rest) / 128 = signedValue (c :: rest) := by
          rw [signedValue]
          omega
        rw [next, List.length_cons, List.length_cons]
        exact Nat.succ_le_succ (ih hte.2)

theorem uleb_shortest (n : Nat) : Shortest unsignedValue n (uleb n) := by
  obtain ⟨hte, hv⟩ := uleb_encodes n
  refine ⟨hte, hv, fun ho ends same => ?_⟩
  rw [← same]
  exact length_uleb_le ends

theorem sleb_shortest (z : Int) : Shortest signedValue z (sleb z) := by
  obtain ⟨hte, hv⟩ := sleb_encodes z
  refine ⟨hte, hv, fun ho ends same => ?_⟩
  rw [← same]
  exact length_sleb_le ends

theorem length_uleb_of_lt {n : Nat} (hbo : n < 128 ^ (k + 1)) : (uleb n).length ≤ k + 1 := by
  induction k generalizing n with
  | zero => rw [uleb, if_pos (by simpa using hbo), List.length_singleton]
  | succ k ih =>
    rw [uleb]
    split
    · exact Nat.le_add_left 1 _
    · rw [List.length_cons]
      refine Nat.succ_le_succ (ih ?_)
      rw [Nat.pow_succ] at hbo
      omega

theorem length_sleb_of_lt {z : Int} (hl : -(64 * 128 ^ k) ≤ z) (hu : z < 64 * 128 ^ k) :
    (sleb z).length ≤ k + 1 := by
  induction k generalizing z with
  | zero => rw [sleb, if_pos (by omega), List.length_singleton]
  | succ k ih =>
    rw [sleb]
    split
    · exact Nat.le_add_left 1 _
    · rw [List.length_cons]
      rw [Int.pow_succ] at hl hu
      exact Nat.succ_le_succ (ih (by omega) (by omega))

end Gevisor.Lib.Leb128
