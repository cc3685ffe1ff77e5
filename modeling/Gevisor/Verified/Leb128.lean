import Gevisor.Unwind.Leb128

/-! # Decoding inverts encoding

The shortest encoding of a 64-bit number has at most ten bytes, and the functions of the unwinder read it back.
-/

namespace Gevisor.Verified.Leb128

open Elf (Word Byte Bytes)
open Unwind Lib.Leb128

theorem length_unsigned {n : Word} {bytes : List Byte} (hs : Shortest unsignedValue n.toNat bytes) :
    bytes.length ≤ 10 := by
  obtain ⟨hte, hv⟩ := uleb_encodes n.toNat
  have hbo : n.toNat < 128 ^ (9 + 1) := by have := n.isLt; omega
  exact Nat.le_trans (hs.least _ hte hv) (length_uleb_of_lt hbo)

theorem length_signed {z : Word} {bytes : List Byte} (hs : Shortest signedValue z.toInt bytes) :
    bytes.length ≤ 10 := by
  obtain ⟨hte, hv⟩ := sleb_encodes z.toInt
  have hl := BitVec.le_toInt z
  have hu := BitVec.toInt_lt (x := z)
  have hbo : (sleb z.toInt).length ≤ 9 + 1 := length_sleb_of_lt (by omega) (by omega)
  exact Nat.le_trans (hs.least _ hte hv) hbo

/-- Any bytes may follow: nothing is said about the rest of the memory. -/
theorem decoding_inverts (memory : Bytes) (addr : Word) (limit : Nat) (bytes : List Byte)
    (found : BytesAt memory addr bytes) (enough : bytes.length ≤ limit) :
    (∀ n : Word, Shortest unsignedValue n.toNat bytes →
        decodeUleb128 memory limit addr = some (n, addr + BitVec.ofNat 64 bytes.length)) ∧
      ∀ z : Word, Shortest signedValue z.toInt bytes →
        decodeSleb128 memory limit addr = some (z, addr + BitVec.ofNat 64 bytes.length) := by
  refine ⟨fun n shortest => ?_, fun z shortest => ?_⟩
  · rw [decodeUleb128_eq shortest.terminated found enough (length_unsigned shortest), shortest.encodes,
      BitVec.ofNat_toNat, BitVec.setWidth_eq]
  · rw [decodeSleb128_eq shortest.terminated found enough (length_signed shortest), shortest.encodes,
      BitVec.ofInt_toInt]

/-- The largest number and the least one, each with ten bytes and another number after it. -/
theorem decoding_inverts_extremes : decodeUleb128 (holding (uleb (2 ^ 64 - 1) ++ [0xff, 0x01])) 10 0 =
        some (BitVec.allOnes 64, 0 + BitVec.ofNat 64 (uleb (2 ^ 64 - 1)).length) ∧
      decodeSleb128 (holding (sleb (-2 ^ 63) ++ [0xff, 0x01])) 10 0 =
        some (BitVec.intMin 64, 0 + BitVec.ofNat 64 (sleb (-2 ^ 63)).length) := by
  have largest : Shortest unsignedValue (BitVec.allOnes 64).toNat (uleb (2 ^ 64 - 1)) := by
    rw [show (BitVec.allOnes 64).toNat = 2 ^ 64 - 1 from rfl]
    exact uleb_shortest _
  have least : Shortest signedValue (BitVec.intMin 64).toInt (sleb (-2 ^ 63)) := by
    rw [show (BitVec.intMin 64).toInt = -2 ^ 63 from rfl]
    exact sleb_shortest _
  have ten := length_unsigned largest
  have signedTen := length_signed least
  have after := @bytesAt_holding (uleb (2 ^ 64 - 1)) [0xff, 0x01] (by omega)
  have unsigned := (decoding_inverts _ 0 10 _ after ten).1 _ largest
  have after := @bytesAt_holding (sleb (-2 ^ 63)) [0xff, 0x01] (by omega)
  have signed := (decoding_inverts _ 0 10 _ after signedTen).2 _ least
  exact ⟨unsigned, signed⟩

end Gevisor.Verified.Leb128
