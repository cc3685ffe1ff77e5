import Gevisor.Unwind.Leb128

/-! # Encoded pointers

`decode_pointer` of `eh_frame.cpp`, and the pointers that the format has and the unwinder supports.
-/

namespace Gevisor.Unwind

open Elf (Word Byte Bytes fetch)
open Lib.Leb128

/-- Why a function of the unwinder does not return. -/
inductive Stop
  | abort (msg : String)
  | nullDereference
  /-- A loop has not ended within the limit. -/
  | running
  deriving DecidableEq, Repr

section Decoding

variable (memory : Bytes) (limit : Nat)

def readUleb (addr : Word) : Except Stop (Word × Word) :=
  match decodeUleb128 memory limit addr with
  | none => .error .running
  | some result => .ok result

def readSleb (addr : Word) : Except Stop (Word × Word) :=
  match decodeSleb128 memory limit addr with
  | none => .error .running
  | some result => .ok result

def addOffset (value offset : Word) : Except Stop Word :=
  if 0 ≤ offset.toInt then .ok (value + offset)
  else if -offset ≤ value then .ok (value - -offset)
  else .error (.abort "attempted add an offset that would result in overflow")

/-- The upper bits of the encoding. -/
def applied (addr encoding : Word) : Except Stop Word :=
  match (encoding &&& 0x70).toNat with
  | 0x00 => .ok 0
  | 0x10 => .ok addr
  | 0x20 => .error (.abort "DW_EH_PE_textrel pointer encodings not supported")
  | 0x30 => .error (.abort "DW_EH_PE_datarel pointer encodings not supported")
  | 0x40 => .error (.abort "DW_EH_PE_funcrel pointer encodings not supported")
  | 0x50 => .error (.abort "DW_EH_PE_aligned pointer encodings not supported")
  | _ => .error (.abort "unknown upper pointer encoding bits")

/-- A signed number of `n` bytes. -/
def fetchSigned (addr : Word) (n : Nat) : Word := ((fetch memory addr n).setWidth (8 * n)).signExtend 64

/-- The value and the address after it. -/
def decodePointer (addr encoding : Word) : Except Stop (Word × Word) :=
  if encoding = 0xFF then .ok (0, addr)
  else do
    let result ← applied addr encoding
    match (encoding &&& 0x0F).toNat with
    | 0x00 => .ok (result + fetch memory addr 8, addr + 8) -- DW_EH_PE_absptr
    | 0x01 => do -- DW_EH_PE_uleb128
      let (value, next) ← readUleb memory limit addr
      .ok (result + value, next)
    | 0x02 => .ok (result + fetch memory addr 2, addr + 2) -- DW_EH_PE_udata2
    | 0x03 => .ok (result + fetch memory addr 4, addr + 4) -- DW_EH_PE_udata4
    | 0x04 => .ok (result + fetch memory addr 8, addr + 8) -- DW_EH_PE_udata8
    | 0x09 => do -- DW_EH_PE_sleb128
      let (value, next) ← readSleb memory limit addr
      let result ← addOffset result value
      .ok (result, next)
    | 0x0A => do -- DW_EH_PE_sdata2
      let result ← addOffset result (fetchSigned memory addr 2)
      .ok (result, addr + 2)
    | 0x0B => do -- DW_EH_PE_sdata4
      let result ← addOffset result (fetchSigned memory addr 4)
      .ok (result, addr + 4)
    | 0x0C => do -- DW_EH_PE_sdata8
      let result ← addOffset result (fetchSigned memory addr 8)
      .ok (result, addr + 8)
    | _ => .error (.abort "unknown lower pointer encoding bits")

end Decoding

/-! ## What the format has -/

/-- A number in LEB128, of at most ten bytes. -/
structure LebAt (memory : Bytes) (a : Word) (bytes : List Byte) : Prop where
  terminated : Terminated bytes
  found : BytesAt memory a bytes
  short : bytes.length ≤ 10

/-- The number at `a` in one of the nine formats, extended to 64 bits, and where it ends. -/
inductive NumberAt (memory : Bytes) (a : Word) : Word → Word → Word → Prop
  | absptr : NumberAt memory a 0x00 (fetch memory a 8) (a + 8)
  | uleb128 {bytes : List Byte} (leb : LebAt memory a bytes) :
    NumberAt memory a 0x01 (BitVec.ofNat 64 (unsignedValue bytes)) (a + BitVec.ofNat 64 bytes.length)
  | udata2 : NumberAt memory a 0x02 (fetch memory a 2) (a + 2)
  | udata4 : NumberAt memory a 0x03 (fetch memory a 4) (a + 4)
  | udata8 : NumberAt memory a 0x04 (fetch memory a 8) (a + 8)
  | sleb128 {bytes : List Byte} (leb : LebAt memory a bytes) :
    NumberAt memory a 0x09 (BitVec.ofInt 64 (signedValue bytes)) (a + BitVec.ofNat 64 bytes.length)
  | sdata2 : NumberAt memory a 0x0A (fetchSigned memory a 2) (a + 2)
  | sdata4 : NumberAt memory a 0x0B (fetchSigned memory a 4) (a + 4)
  | sdata8 : NumberAt memory a 0x0C (fetchSigned memory a 8) (a + 8)

/-- A signed number is not taken below address zero. -/
def Above (base encoding number : Word) : Prop :=
  8 ≤ (encoding &&& 0x0F).toNat → 0 ≤ number.toInt ∨ 0 ≤ (base.toNat : Int) + number.toInt

/-- A pointer that is left out, absolute, or relative to its own place. -/
inductive PointerAt (memory : Bytes) (a : Word) : Word → Word → Word → Prop
  | omitted : PointerAt memory a 0xFF 0 a
  | absolute {encoding number next : Word} (given : encoding ≠ 0xFF) (upper : encoding &&& 0x70 = 0x00)
    (found : NumberAt memory a (encoding &&& 0x0F) number next) (above : Above 0 encoding number) :
    PointerAt memory a encoding number next
  | relative {encoding number next : Word} (given : encoding ≠ 0xFF) (upper : encoding &&& 0x70 = 0x10)
    (found : NumberAt memory a (encoding &&& 0x0F) number next) (above : Above a encoding number) :
    PointerAt memory a encoding (a + number) next

/-! ## Decoding it -/

variable {memory : Bytes} {limit : Nat}

variable {a value encoding next : Word} {bytes : List Byte}

theorem readUleb_eq (leb : LebAt memory a bytes) (room : 10 ≤ limit) :
    readUleb memory limit a = .ok (BitVec.ofNat 64 (unsignedValue bytes), a + BitVec.ofNat 64 bytes.length) := by
  rw [readUleb, decodeUleb128_eq leb.terminated leb.found (Nat.le_trans leb.short room) leb.short]

theorem readSleb_eq (leb : LebAt memory a bytes) (room : 10 ≤ limit) :
    readSleb memory limit a = .ok (BitVec.ofInt 64 (signedValue bytes), a + BitVec.ofNat 64 bytes.length) := by
  rw [readSleb, decodeSleb128_eq leb.terminated leb.found (Nat.le_trans leb.short room) leb.short]

theorem addOffset_eq {offset : Word} (habv : 0 ≤ offset.toInt ∨ 0 ≤ (value.toNat : Int) + offset.toInt) :
    addOffset value offset = .ok (value + offset) := by
  rw [addOffset]
  by_cases hpos : 0 ≤ offset.toInt
  · rw [if_pos hpos]
  · have less : -offset ≤ value := by
      have sum := habv.resolve_left hpos
      rw [BitVec.le_def]
      rw [BitVec.toInt_eq_toNat_cond] at sum hpos
      bv_omega
    rw [if_neg hpos, if_pos less, BitVec.sub_neg]

/-- With the base from the upper bits, every number of the format is decoded. -/
theorem decodePointer_of_number {base number : Word} (hgi : encoding ≠ 0xFF)
    (ha : applied a encoding = .ok base) (hf : NumberAt memory a (encoding &&& 0x0F) number next)
    (habv : Above base encoding number) (room : 10 ≤ limit) :
    decodePointer memory limit a encoding = .ok (base + number, next) := by
  rw [Above] at habv
  generalize hl : encoding &&& 0x0F = format at hf habv
  rw [decodePointer, if_neg hgi, ha, hl]
  cases hf with
  | absptr | udata2 | udata4 | udata8 => rfl
  | uleb128 leb =>
    show ((readUleb memory limit a).bind fun hres => Except.ok (base + hres.1, hres.2)) = _
    rw [readUleb_eq leb room]
    rfl
  | sleb128 leb =>
    show ((readSleb memory limit a).bind fun hres => (addOffset base hres.1).bind fun sum => Except.ok (sum, hres.2)) = _
    rw [readSleb_eq leb room]
    show ((addOffset base _).bind fun sum => Except.ok (sum, _)) = _
    rw [addOffset_eq (habv (by decide))]
    rfl
  | sdata2 | sdata4 | sdata8 =>
    show ((addOffset base _).bind fun sum => Except.ok (sum, _)) = _
    rw [addOffset_eq (habv (by decide))]
    rfl

theorem applied_absolute (hu : encoding &&& 0x70 = 0x00) : applied a encoding = .ok 0 := by
  rw [applied, hu]
  rfl

theorem applied_relative (hu : encoding &&& 0x70 = 0x10) : applied a encoding = .ok a := by
  rw [applied, hu]
  rfl

theorem decodePointer_eq (hp : PointerAt memory a encoding value next)
    (room : 10 ≤ limit) : decodePointer memory limit a encoding = .ok (value, next) := by
  cases hp with
  | omitted => rw [decodePointer, if_pos rfl]
  | absolute hgi hu hf habv =>
    rw [decodePointer_of_number hgi (applied_absolute hu) hf habv room]
    exact congrArg (fun sum => Except.ok (sum, next)) (BitVec.zero_add _)
  | relative hgi hu hf habv =>
    exact decodePointer_of_number hgi (applied_relative hu) hf habv room

end Gevisor.Unwind
