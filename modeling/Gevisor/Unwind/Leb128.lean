import Mathlib.Tactic.Ring
import Gevisor.Elf.Format
import Gevisor.Lib.Leb128

/-! # LEB128 numbers in memory

`decode_uleb128` and `decode_sleb128` of `dwarf4.cpp`. The loops go on as long as the bytes say so; `limit` bounds how
far they are followed, and without a result they have not ended by then. A shift by 64 or more, which a number of more
than ten bytes leads to, is left undefined by the language; the processor takes it modulo 64.
-/

namespace Gevisor.Unwind

open Elf (Word Byte Bytes)
open Lib.Leb128

variable {bytes : List Byte} {memory : Bytes} {limit : Nat} {addr : Word}

/-- The loop of both functions: the last byte, the shift and the result after it, and where it ends. -/
def decodeLoop (memory : Bytes) : Nat → Word → Nat → Word → Option (Word × Nat × Word × Word)
  | 0, _, _, _ => none
  | limit + 1, addr, shift, result =>
    let byte : Word := (memory addr).setWidth 64
    let result := result ||| ((byte &&& 0x7f) <<< (shift % 64))
    if byte &&& 0x80 = 0 then some (byte, shift + 7, result, addr + 1)
    else decodeLoop memory limit (addr + 1) (shift + 7) result

/-- The number and the address after it. -/
def decodeUleb128 (memory : Bytes) (limit : Nat) (addr : Word) : Option (Word × Word) :=
  match decodeLoop memory limit addr 0 0 with
  | none => none
  | some (_, _, result, addr) => some (result, addr)

def decodeSleb128 (memory : Bytes) (limit : Nat) (addr : Word) : Option (Word × Word) :=
  match decodeLoop memory limit addr 0 0 with
  | none => none
  | some (byte, shift, result, addr) =>
    if shift < 0x40 ∧ byte &&& 0x40 ≠ 0 then some (result ||| -((1 : Word) <<< shift), addr) else some (result, addr)

/-! ## Bytes in memory -/

/-- The bytes from `a` on. -/
def BytesAt (memory : Bytes) : Word → List Byte → Prop
  | _, [] => True
  | a, b :: rest => memory a = b ∧ BytesAt memory (a + 1) rest

instance decidableBytesAt (memory : Bytes) : (a : Word) → (bytes : List Byte) → Decidable (BytesAt memory a bytes)
  | _, [] => inferInstanceAs (Decidable True)
  | a, _ :: rest =>
    have := decidableBytesAt memory (a + 1) rest
    inferInstanceAs (Decidable (_ ∧ _))

variable (a : Word) (b : Byte) (rest : List Byte)

theorem add_length :
    a + BitVec.ofNat 64 (b :: rest).length = a + 1 + BitVec.ofNat 64 rest.length := by
  rw [List.length_cons, Nat.add_comm, BitVec.ofNat_add, BitVec.add_assoc]
  rfl

variable {a result : Word} {shift : Nat}

/-- A memory that starts with these bytes. -/
def holding (bytes : List Byte) : Bytes := fun a => bytes.getD a.toNat 0

theorem bytesAt_iff : BytesAt memory a bytes ↔ ∀ i < bytes.length, memory (a + BitVec.ofNat 64 i) = bytes.getD i 0 := by
  induction bytes generalizing a with
  | nil => simp [BytesAt]
  | cons b rest ih =>
    have next (i : Nat) : a + 1 + BitVec.ofNat 64 i = a + BitVec.ofNat 64 (i + 1) := by
      rw [Nat.add_comm i 1, BitVec.ofNat_add, BitVec.add_assoc]
      rfl
    rw [BytesAt, ih, List.length_cons, Nat.forall_lt_succ_left]
    simp only [next]
    simp

theorem bytesAt_holding {bytes rest : List Byte} (hbo : bytes.length ≤ 2 ^ 64) :
    BytesAt (holding (bytes ++ rest)) 0 bytes := by
  rw [bytesAt_iff]
  intro i hi
  have hin : (0 + BitVec.ofNat 64 i : Word).toNat = i := by
    rw [show (0 : Word) = 0#64 from rfl, BitVec.zero_add, BitVec.toNat_ofNat, Nat.mod_eq_of_lt (by omega)]
  rw [holding, hin, List.getD_eq_getElem?_getD, List.getElem?_append_left hi, List.getD_eq_getElem?_getD]

/-! ## One byte -/

theorem low_eq : ((b.setWidth 64 : Word) &&& 0x7f).toNat = digit b := by
  have byte : (b.setWidth 64 : Word).toNat = b.toNat := by
    rw [BitVec.toNat_setWidth, Nat.mod_eq_of_lt (by omega)]
  rw [BitVec.toNat_and, byte, digit]
  exact Nat.and_two_pow_sub_one_eq_mod b.toNat 7

/-- A single bit of a byte. -/
theorem bit_eq_zero_iff (k : Nat) (hs : k < 8) :
    (b.setWidth 64 : Word) &&& BitVec.twoPow 64 k = 0 ↔ b.toNat / 2 ^ k % 2 = 0 := by
  rw [BitVec.and_twoPow, BitVec.getLsbD_setWidth, BitVec.getLsbD, Nat.testBit_eq_decide_div_mod_eq]
  have hi : k < 64 := by omega
  by_cases set : b.toNat / 2 ^ k % 2 = 1
  · have hnz : BitVec.twoPow 64 k ≠ 0#64 := by
      intro zero
      have bit := congrArg (BitVec.getLsbD · k) zero
      simp [hi] at bit
    simp [set, hi, hnz]
  · have clear : b.toNat / 2 ^ k % 2 = 0 := by omega
    simp [clear]

theorem last_iff : (b.setWidth 64 : Word) &&& 0x80 = 0 ↔ b.toNat < 128 := by
  rw [show (0x80 : Word) = BitVec.twoPow 64 7 from rfl, bit_eq_zero_iff b 7 (by decide)]
  omega

theorem sign_iff : (b.setWidth 64 : Word) &&& 0x40 = 0 ↔ digit b < 64 := by
  rw [show (0x40 : Word) = BitVec.twoPow 64 6 from rfl, bit_eq_zero_iff b 6 (by decide), digit]
  omega

/-- Bits above all that are set so far are added. -/
theorem toNat_or_shiftLeft {d : Word} (hi : shift < 64) (hb : result.toNat < 2 ^ shift) :
    (result ||| (d <<< shift)).toNat = (result.toNat + d.toNat * 2 ^ shift) % 2 ^ 64 := by
  rw [BitVec.toNat_or, BitVec.toNat_shiftLeft, Nat.shiftLeft_eq]
  have high : d.toNat * 2 ^ shift % 2 ^ 64 = d.toNat % 2 ^ (64 - shift) * 2 ^ shift := by
    rw [show 2 ^ 64 = 2 ^ (64 - shift) * 2 ^ shift by rw [← Nat.pow_add]; congr 1; omega, Nat.mul_mod_mul_right]
  have sum : result.toNat ||| d.toNat % 2 ^ (64 - shift) * 2 ^ shift =
      result.toNat + d.toNat % 2 ^ (64 - shift) * 2 ^ shift := by
    rw [Nat.or_comm, ← Nat.shiftLeft_eq, ← Nat.shiftLeft_add_eq_or_of_lt hb, Nat.add_comm]
  have hwh := (result ||| (d <<< shift)).isLt
  rw [BitVec.toNat_or, BitVec.toNat_shiftLeft, Nat.shiftLeft_eq, high, sum] at hwh
  rw [← Nat.add_mod_mod, high, sum, Nat.mod_eq_of_lt hwh]

theorem neg_shiftLeft (shift : Nat) : -((1 : Word) <<< shift) = BitVec.allOnes 64 <<< shift := by
  rw [BitVec.shiftLeft_eq_mul_twoPow, BitVec.shiftLeft_eq_mul_twoPow, ← BitVec.neg_one_eq_allOnes, BitVec.neg_mul]
  rfl

theorem ofNat_eq_ofInt {a : Nat} {z : Int} (same : (2 : Int) ^ 64 ∣ z - a) :
    BitVec.ofNat 64 a = BitVec.ofInt 64 z := by
  have rest : z % 2 ^ 64 = (a : Int) % 2 ^ 64 := Int.emod_eq_emod_iff_emod_sub_eq_zero.2 (Int.emod_eq_zero_of_dvd same)
  apply BitVec.eq_of_toNat_eq
  rw [BitVec.toNat_ofNat, BitVec.toNat_ofInt, Nat.cast_pow, Nat.cast_ofNat, rest]
  omega

/-! ## The loop -/

/-- At most ten bytes: the last shift is by 63. What has been read is `result`, below bit `shift`. -/
theorem decodeLoop_eq (hte : Terminated bytes) {addr : Word} (hf : BytesAt memory addr bytes)
    (he : bytes.length ≤ limit) (hs : shift + 7 * bytes.length ≤ 70) (hb : result.toNat < 2 ^ shift) :
    ∃ last ∈ bytes.getLast?, decodeLoop memory limit addr shift result =
      some (last.setWidth 64, shift + 7 * bytes.length,
        BitVec.ofNat 64 (result.toNat + 2 ^ shift * unsignedValue bytes), addr + BitVec.ofNat 64 bytes.length) := by
  induction bytes generalizing limit addr result shift with
  | nil => exact hte.elim
  | cons b rest ih =>
    obtain ⟨first, hf⟩ := hf
    rw [List.length_cons] at hs he
    obtain ⟨limit, rfl⟩ := Nat.exists_eq_add_of_le' (show 1 ≤ limit by omega)
    have hi : shift < 64 := by omega
    have next := toNat_or_shiftLeft (d := (b.setWidth 64 : Word) &&& 0x7f) hi hb
    rw [low_eq] at next
    rw [decodeLoop, first, Nat.mod_eq_of_lt hi]
    cases rest with
    | nil =>
      refine ⟨b, rfl, ?_⟩
      rw [if_pos ((last_iff b).2 hte)]
      congr 3
      refine congrArg (·, addr + 1) (BitVec.eq_of_toNat_eq ?_)
      rw [next, BitVec.toNat_ofNat, unsignedValue, unsignedValue, Nat.mul_comm, Nat.mul_zero, Nat.add_zero]
    | cons c rest =>
      have high : ¬ b.toNat < 128 := Nat.not_lt.2 hte.1
      have hbo : digit b * 2 ^ shift ≤ 127 * 2 ^ shift := Nat.mul_le_mul_right _ (Nat.le_of_lt_succ (digit_lt b))
      have hgw : 2 ^ (shift + 7) = 128 * 2 ^ shift := by rw [Nat.pow_add, Nat.mul_comm]
      have room := Nat.mod_le (result.toNat + digit b * 2 ^ shift) (2 ^ 64)
      obtain ⟨last, his, read⟩ := ih hte.2 hf (by omega : (c :: rest).length ≤ limit)
        (by omega : shift + 7 + 7 * (c :: rest).length ≤ 70) (by rw [next]; omega)
      refine ⟨last, by rwa [List.getLast?_cons_cons], ?_⟩
      rw [if_neg ((last_iff b).not.2 high), read, add_length addr b, next]
      have hv : BitVec.ofNat 64 ((result.toNat + digit b * 2 ^ shift) % 2 ^ 64 + 2 ^ (shift + 7) * unsignedValue (c :: rest)) =
          BitVec.ofNat 64 (result.toNat + 2 ^ shift * unsignedValue (b :: c :: rest)) := by
        apply BitVec.eq_of_toNat_eq
        rw [BitVec.toNat_ofNat, BitVec.toNat_ofNat, Nat.mod_add_mod, hgw, unsignedValue_cons b]
        congr 1
        ring
      rw [hv]
      congr 3
      rw [List.length_cons (a := b)]
      omega

theorem decodeLoop_start (ht : Terminated bytes)
    (hf : BytesAt memory addr bytes) (he : bytes.length ≤ limit) (hs : bytes.length ≤ 10) :
    ∃ last ∈ bytes.getLast?, decodeLoop memory limit addr 0 0 =
      some (last.setWidth 64, 7 * bytes.length, BitVec.ofNat 64 (unsignedValue bytes),
        addr + BitVec.ofNat 64 bytes.length) := by
  obtain ⟨last, hi, read⟩ :=
    decodeLoop_eq ht hf he (by omega : 0 + 7 * bytes.length ≤ 70) (by decide : (0 : Word).toNat < 2 ^ 0)
  refine ⟨last, hi, ?_⟩
  rw [read, Nat.zero_add, Nat.pow_zero, Nat.one_mul]
  simp

/-! ## The two functions -/

theorem decodeUleb128_eq (hte : Terminated bytes)
    (hf : BytesAt memory addr bytes) (he : bytes.length ≤ limit) (hs : bytes.length ≤ 10) :
    decodeUleb128 memory limit addr =
      some (BitVec.ofNat 64 (unsignedValue bytes), addr + BitVec.ofNat 64 bytes.length) := by
  obtain ⟨last, -, read⟩ := decodeLoop_start hte hf he hs
  rw [decodeUleb128, read]

/-- The sign of the last byte takes away one more digit. -/
theorem signedValue_eq {last : Byte} (hi : last ∈ bytes.getLast?) :
    signedValue bytes = unsignedValue bytes - if digit last < 64 then 0 else 2 ^ (7 * bytes.length) := by
  induction bytes with
  | nil => simp at hi
  | cons b rest ih =>
    cases rest with
    | nil =>
      obtain rfl : b = last := by simpa using hi
      rw [signedValue, lastDigit, unsignedValue, unsignedValue]
      split
      · simp
      · simp
    | cons c rest =>
      rw [List.getLast?_cons_cons] at hi
      rw [signedValue, ih hi, unsignedValue_cons b, List.length_cons (a := b), Nat.mul_succ, Int.pow_add]
      split
      · push_cast
        ring
      · push_cast
        ring

/-- Ten bytes have passed all 64 bits, and the sign is in the tenth; with fewer it is extended. -/
theorem decodeSleb128_eq (hte : Terminated bytes)
    (hf : BytesAt memory addr bytes) (he : bytes.length ≤ limit) (hs : bytes.length ≤ 10) :
    decodeSleb128 memory limit addr =
      some (BitVec.ofInt 64 (signedValue bytes), addr + BitVec.ofNat 64 bytes.length) := by
  obtain ⟨last, hi, read⟩ := decodeLoop_start hte hf he hs
  rw [decodeSleb128, read, signedValue_eq hi]
  dsimp only
  have hbo := unsignedValue_lt bytes
  by_cases hn : digit last < 64
  · rw [if_neg (fun both => both.2 ((sign_iff last).2 hn)), if_pos hn]
    simp
  · have hnz := (sign_iff last).not.2 hn
    rw [if_neg hn]
    by_cases fits : 7 * bytes.length < 0x40
    · rw [if_pos ⟨fits, hnz⟩, neg_shiftLeft]
      congr 2
      have hb : (BitVec.ofNat 64 (unsignedValue bytes)).toNat < 2 ^ (7 * bytes.length) := by
        rw [BitVec.toNat_ofNat]
        exact Nat.lt_of_le_of_lt (Nat.mod_le _ _) hbo
      have sum := toNat_or_shiftLeft (d := BitVec.allOnes 64) fits hb
      rw [BitVec.toNat_ofNat, Nat.mod_add_mod, ← BitVec.toNat_ofNat] at sum
      rw [BitVec.eq_of_toNat_eq sum, BitVec.toNat_allOnes]
      refine ofNat_eq_ofInt ⟨-2 ^ (7 * bytes.length), ?_⟩
      push_cast
      ring
    · rw [if_neg (fun both => fits both.1)]
      congr 2
      refine ofNat_eq_ofInt ?_
      rw [sub_sub_cancel_left, Int.dvd_neg]
      exact pow_dvd_pow 2 (by omega)

end Gevisor.Unwind
