import Mathlib.Data.List.Pairwise
import Gevisor.Elf.Format

/-! # Words in memory

Writing eight-byte words, and what reading gives afterwards.
-/

namespace Gevisor.Elf

/-- `a` is one of the `n` bytes from `base` on. -/
def Has (base : Word) (n : Nat) (a : Word) : Prop := (a - base).toNat < n

instance decidableHas (base : Word) (n : Nat) (a : Word) : Decidable (Has base n a) :=
  inferInstanceAs (Decidable (_ < _))

variable {base p q a value : Word} {n : Nat} {memory memory' : Bytes} {writes : List (Word × Word)}

theorem has_add {offset : Word} (hb : offset.toNat < n) : Has base n (base + offset) := by
  rw [Has, BitVec.add_comm, BitVec.add_sub_cancel]
  exact hb

theorem toNat_add_le (a b : Word) : (a + b).toNat ≤ a.toNat + b.toNat := by
  rw [BitVec.toNat_add]
  exact Nat.mod_le _ _

/-- Regions that both begin after the end of the other have no byte in common. -/
theorem not_has_of_far {m : Nat} (ha : m ≤ (q - p).toNat) (hbe : n ≤ (p - q).toNat) (hi : Has p m a) :
    ¬ Has q n a := by
  intro ho
  rw [Has] at hi ho
  bv_omega

/-- The bytes of entry `i` of a table. An offset that wraps around only gets smaller, so nothing is asked of the
size of the table. -/
theorem has_entry {base size i k : Word} {n : Nat} (he : i.toNat < n) (hb : k.toNat < size.toNat) :
    Has base (size.toNat * n) (base + size * i + k) := by
  rw [BitVec.add_assoc]
  apply has_add
  have hs : (size * i).toNat ≤ size.toNat * i.toNat := by
    rw [BitVec.toNat_mul]
    exact Nat.mod_le _ _
  have hwh : size.toNat * i.toNat + size.toNat ≤ size.toNat * n := by
    rw [← Nat.mul_succ]
    exact Nat.mul_le_mul_left _ he
  have ho := toNat_add_le (size * i) k
  omega

theorem has_field {size i : Word} {f : Field} {j : Nat} (he : i.toNat < n)
    (fits : f.offset.toNat + f.size ≤ size.toNat) (hb : j < f.size) :
    Has base (size.toNat * n) (base + size * i + f.offset + BitVec.ofNat 64 j) := by
  rw [BitVec.add_assoc (base + size * i)]
  apply has_entry he
  have ho := toNat_add_le f.offset (BitVec.ofNat 64 j)
  have byte : (BitVec.ofNat 64 j).toNat ≤ j := by
    rw [BitVec.toNat_ofNat]
    exact Nat.mod_le _ _
  omega

theorem succ_byte (a : Word) (j : Nat) : a + BitVec.ofNat 64 (j + 1) = a + 1 + BitVec.ofNat 64 j := by
  rw [Nat.add_comm, BitVec.ofNat_add, BitVec.add_assoc]
  rfl

theorem fetch_congr (same : ∀ j < n, memory' (a + BitVec.ofNat 64 j) = memory (a + BitVec.ofNat 64 j)) :
    fetch memory' a n = fetch memory a n := by
  induction n generalizing a with
  | zero => simp [fetch]
  | succ n ih =>
    have head : memory' a = memory a := by simpa using same 0 (by omega)
    have tail : fetch memory' (a + 1) n = fetch memory (a + 1) n := by
      apply ih
      intro j hb
      rw [← succ_byte]
      exact same (j + 1) (by omega)
    simp only [fetch, head, tail]

/-! ## Writing -/

def byteAt (value : Word) (j : Nat) : Byte := (value >>> (8 * j)).setWidth 8

/-- The eight bytes at `p` become the little-endian `value`. -/
def store (memory : Bytes) (p value : Word) : Bytes := fun a =>
  if Has p 8 a then byteAt value (a - p).toNat else memory a

theorem store_of_not_has (hout : ¬ Has p 8 a) : store memory p value a = memory a := by
  rw [store, if_neg hout]

theorem store_of_has (memory memory' : Bytes) (hi : Has p 8 a) :
    store memory p value a = store memory' p value a := by
  rw [store, store, if_pos hi, if_pos hi]

theorem store_store (memory : Bytes) (p value value' : Word) :
    store (store memory p value) p value' = store memory p value' := by
  funext a
  by_cases hi : Has p 8 a
  · exact store_of_has _ _ hi
  · rw [store_of_not_has hi, store_of_not_has hi, store_of_not_has hi]

theorem fetch_of_bytes (hsm : n ≤ 8) (hby : ∀ j < n, memory (p + BitVec.ofNat 64 j) = byteAt value j) :
    (fetch memory p n).toNat = value.toNat % 2 ^ (8 * n) := by
  induction n generalizing p value with
  | zero => simp [fetch, Nat.mod_one]
  | succ n ih =>
    have head : (memory p).toNat = value.toNat % 256 := by
      have first := hby 0 (by omega)
      rw [BitVec.add_zero] at first
      simp [first, byteAt]
    have hs : ∀ j < n, memory (p + 1 + BitVec.ofNat 64 j) = byteAt (value >>> 8) j := by
      intro j hb
      rw [← succ_byte, hby (j + 1) (by omega), byteAt, byteAt, ← BitVec.shiftRight_add, Nat.mul_add, Nat.add_comm]
    have tail : (fetch memory (p + 1) n).toNat = value.toNat / 256 % 2 ^ (8 * n) := by
      rw [ih (by omega) hs, BitVec.toNat_ushiftRight, Nat.shiftRight_eq_div_pow]
    have split : value.toNat % 2 ^ (8 * (n + 1)) = value.toNat % 256 + 256 * (value.toNat / 256 % 2 ^ (8 * n)) := by
      rw [Nat.mul_add, Nat.pow_add, Nat.mul_comm (2 ^ (8 * n)), Nat.mod_mul]
    have hbo : 2 ^ (8 * (n + 1)) ≤ 2 ^ 64 := Nat.pow_le_pow_right (by omega) (by omega)
    have hb := Nat.mod_lt value.toNat (Nat.two_pow_pos (8 * (n + 1)))
    rw [fetch, BitVec.toNat_add, BitVec.toNat_shiftLeft, tail, BitVec.toNat_setWidth, head, Nat.shiftLeft_eq]
    omega

theorem fetch_zero (zero : ∀ j < 4, memory (a + BitVec.ofNat 64 j) = 0) : fetch memory a 4 = 0 := by
  apply BitVec.eq_of_toNat_eq
  have hby : ∀ j < 4, memory (a + BitVec.ofNat 64 j) = byteAt 0 j := by
    intro j hb
    rw [zero j hb]
    simp [byteAt]
  rw [fetch_of_bytes (by decide) hby]
  rfl

theorem fetch_store (memory : Bytes) (p value : Word) : fetch (store memory p value) p 8 = value := by
  have hby : ∀ j < 8, store memory p value (p + BitVec.ofNat 64 j) = byteAt value j := by
    intro j hb
    have ho : (BitVec.ofNat 64 j).toNat = j := by rw [BitVec.toNat_ofNat, Nat.mod_eq_of_lt (by omega)]
    have hi : Has p 8 (p + BitVec.ofNat 64 j) := has_add (by omega)
    rw [store, if_pos hi, BitVec.add_comm, BitVec.add_sub_cancel, ho]
  apply BitVec.eq_of_toNat_eq
  rw [fetch_of_bytes (Nat.le_refl 8) hby]
  exact Nat.mod_eq_of_lt value.isLt

/-! ## Writing several words -/

/-- No byte belongs to both words. -/
def Apart (p q : Word) : Prop := ∀ a, ¬ (Has p 8 a ∧ Has q 8 a)

theorem Apart.symm (hap : Apart p q) : Apart q p := fun a both => hap a both.symm

/-- The writes of a list of addresses and words, the first one first. -/
def storeAll (memory : Bytes) (writes : List (Word × Word)) : Bytes :=
  writes.foldl (fun m w => store m w.1 w.2) memory

theorem storeAll_cons (memory : Bytes) (w : Word × Word) (writes : List (Word × Word)) :
    storeAll memory (w :: writes) = storeAll (store memory w.1 w.2) writes := rfl

theorem storeAll_of_not_has (hout : ∀ w ∈ writes, ¬ Has w.1 8 a)
    (memory : Bytes) : storeAll memory writes a = memory a := by
  induction writes generalizing memory with
  | nil => rfl
  | cons w writes ih =>
    rw [storeAll_cons, ih (fun v hm => hout v (List.mem_cons_of_mem _ hm)),
      store_of_not_has (hout w List.mem_cons_self)]

/-- What a byte becomes depends on no other byte. -/
theorem storeAll_congr (same : memory a = memory' a)
    (writes : List (Word × Word)) : storeAll memory writes a = storeAll memory' writes a := by
  induction writes generalizing memory memory' with
  | nil => exact same
  | cons w writes ih =>
    rw [storeAll_cons, storeAll_cons]
    apply ih
    by_cases hi : Has w.1 8 a
    · exact store_of_has _ _ hi
    · rw [store_of_not_has hi, store_of_not_has hi, same]

theorem store_comm (hap : Apart p q) (memory : Bytes) (v w : Word) :
    store (store memory p v) q w = store (store memory q w) p v := by
  funext a
  by_cases first : Has p 8 a
  · have hs : ¬ Has q 8 a := fun has => hap a ⟨first, has⟩
    rw [store_of_not_has hs, store_of_has _ _ first]
  · rw [store_of_not_has first]
    by_cases hs : Has q 8 a
    · exact store_of_has _ _ hs
    · rw [store_of_not_has hs, store_of_not_has hs, store_of_not_has first]

/-- Words that are apart can be written in any order. -/
theorem storeAll_perm {writes' : List (Word × Word)} (perm : writes.Perm writes')
    (hap : writes.Pairwise fun v w => Apart v.1 w.1) (memory : Bytes) :
    storeAll memory writes = storeAll memory writes' := by
  have symm : Std.Symm fun v w : Word × Word => Apart v.1 w.1 := ⟨fun _ _ far => far.symm⟩
  apply perm.foldl_eq' _ memory
  intro v mem w mem' m
  by_cases same : v = w
  · rw [same]
  · have far : Apart v.1 w.1 := hap.forall mem mem' same
    exact store_comm far m v.2 w.2

/-- Each of the words is where it was written. -/
theorem fetch_storeAll (hap : writes.Pairwise fun v w => Apart v.1 w.1)
    {w : Word × Word} (hm : w ∈ writes) (memory : Bytes) : fetch (storeAll memory writes) w.1 8 = w.2 := by
  induction writes generalizing memory with
  | nil => simp at hm
  | cons v writes ih =>
    rw [List.pairwise_cons] at hap
    rw [storeAll_cons]
    cases List.mem_cons.mp hm with
    | inr hla => exact ih hap.2 hla _
    | inl first =>
      subst first
      -- The later words are elsewhere, so they leave this one as it was written.
      have kept : fetch (storeAll (store memory w.1 w.2) writes) w.1 8 = fetch (store memory w.1 w.2) w.1 8 := by
        apply fetch_congr
        intro j hb
        apply storeAll_of_not_has
        intro u mem has
        refine hap.1 u mem _ ⟨has_add ?_, has⟩
        rw [BitVec.toNat_ofNat, Nat.mod_eq_of_lt (by omega)]
        exact hb
      rw [kept, fetch_store]

end Gevisor.Elf
