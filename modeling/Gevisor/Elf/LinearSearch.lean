import Gevisor.Elf.Hash
import Gevisor.Elf.Words
import Gevisor.Lib.Masks

/-! # What a look-up reads

The addresses that `private_get_sym_by_name` reads, and the search through all symbols one after the other.
-/

namespace Gevisor.Elf

/-! ## Reads -/

section Reads

variable (memory : Bytes)

variable (ef : AddedFile)

end Reads

/-- A symbol table of `n` entries that ends where the string table begins. The names are strings in the first `size`
bytes of the latter. -/
structure Tables (memory : Bytes) (ef : AddedFile) (n size : Nat) (names : Nat → List Byte) : Prop where
  count : n < 2 ^ 32
  follows : ef.strtab = ef.symtab + symSize * BitVec.ofNat 64 n
  room : 24 * n + size < 2 ^ 64
  named : ∀ i < n, StringAt memory (symbolName memory ef (symbol ef (BitVec.ofNat 64 i))) (names i)
  inside : ∀ i < n, (field memory (symbol ef (BitVec.ofNat 64 i)) stName).toNat + (names i).length < size

section

variable {memory : Bytes} {ef : AddedFile} {n size : Nat} {names : Nat → List Byte} (tables : Tables memory ef n size names)
  (number : ef.symnum = (ef.strtab - ef.symtab) / symSize)

variable {s : List Byte} {name : Word} {i : Nat}

include tables

theorem Tables.symnum (number : ef.symnum = (ef.strtab - ef.symtab) / symSize) : ef.symnum = BitVec.ofNat 64 n := by
  have hc := tables.count
  have hwh : (symSize * BitVec.ofNat 64 n).toNat = 24 * n := by
    rw [BitVec.toNat_mul, BitVec.toNat_ofNat, show symSize.toNat = 24 from rfl]
    omega
  rw [number, tables.follows, BitVec.add_comm, BitVec.add_sub_cancel]
  apply BitVec.eq_of_toNat_eq
  rw [BitVec.toNat_udiv, hwh, BitVec.toNat_ofNat, show symSize.toNat = 24 from rfl]
  omega

include number

theorem Tables.index (hb : i ≤ n) : BitVec.ofNat 64 i < ef.symnum ↔ i < n := by
  have hc := tables.count
  rw [tables.symnum number, BitVec.lt_def, BitVec.toNat_ofNat, BitVec.toNat_ofNat, Nat.mod_eq_of_lt (by omega),
    Nat.mod_eq_of_lt (by omega)]

omit number in
/-- The index is a 32-bit number, which does not wrap. -/
theorem Tables.next (hb : i < n) : (BitVec.ofNat 64 i + 1) &&& 0xffffffff = BitVec.ofNat 64 (i + 1) := by
  have hc := tables.count
  have succ : BitVec.ofNat 64 i + 1 = BitVec.ofNat 64 (i + 1) := (BitVec.ofNat_add i 1).symm
  apply BitVec.eq_of_toNat_eq
  rw [succ, show (0xffffffff : Word) = BitVec.ofNat 64 (2 ^ 32 - 1) from rfl, Lib.toNat_and_low, BitVec.toNat_ofNat]
  omega

end

end Gevisor.Elf
