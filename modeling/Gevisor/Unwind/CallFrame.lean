import Gevisor.Unwind.EhFrame

/-! # Call frame instructions

`private_parse_instruction` and its callers in `dwarf4.cpp`. A register of a row is kept at its index.
-/

namespace Gevisor.Unwind

open Elf (Word Byte Bytes fetch)

inductive RegisterRule
  | undefined
  | sameValue
  | offsetn
  | valOffsetn
  | register
  | expression
  | valExpression
  deriving DecidableEq

structure CfiRegister where
  rule : RegisterRule := .undefined
  value : Word := 0
  deriving DecidableEq

inductive CfaType
  | register
  | expression
  deriving DecidableEq

structure CfiCfa where
  value : Word := 0
  offset : Word := 0
  type : CfaType := .register
  deriving DecidableEq

structure CfiRow where
  cfa : CfiCfa := {}
  argSize : Word := 0
  registers : Nat → CfiRegister := fun _ => {}

def maxNumRegisters : Nat := 32

def CfiRow.reg (row : CfiRow) (index : Word) : Except Stop CfiRegister :=
  if maxNumRegisters ≤ index.toNat then .error (.abort "index out of bounds. increase MAX_NUM_REGISTERS")
  else .ok (row.registers index.toNat)

def CfiRow.setReg (row : CfiRow) (index : Word) (register : CfiRegister) : Except Stop CfiRow :=
  if maxNumRegisters ≤ index.toNat then .error (.abort "index out of bounds. increase MAX_NUM_REGISTERS")
  else .ok { row with registers := Function.update row.registers index.toNat register }

/-- The overload that sets the rule only. -/
def CfiRow.setRule (row : CfiRow) (index : Word) (rule : RegisterRule) : Except Stop CfiRow :=
  row.setReg index { row.registers index.toNat with rule }

/-- What the loop over the instructions changes: the row, `*p`, `*l2` and the remembered rows, the last one first. -/
structure Progress where
  row : CfiRow
  p : Word
  l2 : Word := 0
  stack : List CfiRow := []

section Parsing

variable (memory : Bytes) (limit : Nat) (cie : CiEntry) (initialRow : CfiRow)

def rememberStackSize : Nat := 10

/-- Skipping the block at `p`. -/
def skipBlock (p : Word) : Except Stop Word := do
  let (length, p) ← readUleb memory limit p
  .ok (p + length)

/-- A register and a number that is multiplied by the data alignment. -/
def readFactored (read : Word → Except Stop (Word × Word)) (p : Word) : Except Stop (Word × Word × Word) := do
  let (reg, p) ← readUleb memory limit p
  let (n, p) ← read p
  .ok (reg, n * cie.dataAlignment, p)

/-- The upper two bits, or the lower six where those are zero. -/
def opcode (byte : Byte) : Byte := if byte &&& 0xC0 = 0 then byte &&& 0x3F else byte &&& 0xC0

def parseInstruction (s : Progress) : Except Stop Progress := do
  let operand := (memory s.p &&& 0x3F).setWidth 64
  let p := s.p + 1
  let cfa := s.row.cfa
  match (opcode (memory s.p)).toNat with
  | 0x40 => .ok { s with p, l2 := s.l2 + operand * cie.codeAlignment } -- DW_CFA_advance_loc
  | 0x80 => do -- DW_CFA_offset
    let (n, p) ← readUleb memory limit p
    .ok { s with p, row := ← s.row.setReg operand ⟨.offsetn, n * cie.dataAlignment⟩ }
  | 0xC0 => do -- DW_CFA_restore
    .ok { s with p, row := ← s.row.setReg operand (← initialRow.reg operand) }
  | 0x00 => .ok { s with p } -- DW_CFA_nop
  | 0x01 => do -- DW_CFA_set_loc
    let (l2, p) ← decodePointer memory limit p cie.encodings.pointer
    .ok { s with p, l2 }
  | 0x02 => .ok { s with p := p + 1, l2 := s.l2 + fetch memory p 1 * cie.codeAlignment } -- DW_CFA_advance_loc1
  | 0x03 => .ok { s with p := p + 2, l2 := s.l2 + fetch memory p 2 * cie.codeAlignment } -- DW_CFA_advance_loc2
  | 0x04 => .ok { s with p := p + 4, l2 := s.l2 + fetch memory p 4 * cie.codeAlignment } -- DW_CFA_advance_loc4
  | 0x05 => do -- DW_CFA_offset_extended
    let (reg, value, p) ← readFactored memory limit cie (readUleb memory limit) p
    .ok { s with p, row := ← s.row.setReg reg ⟨.offsetn, value⟩ }
  | 0x06 => do -- DW_CFA_restore_extended
    let (reg, p) ← readUleb memory limit p
    .ok { s with p, row := ← s.row.setReg reg (← initialRow.reg reg) }
  | 0x07 => do -- DW_CFA_undefined
    let (reg, p) ← readUleb memory limit p
    .ok { s with p, row := ← s.row.setRule reg .undefined }
  | 0x08 => do -- DW_CFA_same_value
    let (reg, p) ← readUleb memory limit p
    .ok { s with p, row := ← s.row.setRule reg .sameValue }
  | 0x09 => do -- DW_CFA_register
    let (reg1, p) ← readUleb memory limit p
    let (reg2, p) ← readUleb memory limit p
    .ok { s with p, row := ← s.row.setRule reg1 (← s.row.reg reg2).rule }
  | 0x0A => -- DW_CFA_remember_state
    if rememberStackSize ≤ s.stack.length then .error (.abort "remember stack is full. unable to continue unwind")
    else .ok { s with p, stack := s.row :: s.stack }
  | 0x0B => -- DW_CFA_restore_state
    match s.stack with
    | [] => .error (.abort "remember stack is empty. unable to continue unwind")
    | row :: stack => .ok { s with p, row, stack }
  | 0x0C => do -- DW_CFA_def_cfa
    let (value, p) ← readUleb memory limit p
    let (offset, p) ← readUleb memory limit p
    .ok { s with p, row.cfa := { cfa with value, offset } }
  | 0x0D => do -- DW_CFA_def_cfa_register
    let (value, p) ← readUleb memory limit p
    .ok { s with p, row.cfa := { cfa with value } }
  | 0x0E => do -- DW_CFA_def_cfa_offset
    let (offset, p) ← readUleb memory limit p
    .ok { s with p, row.cfa := { cfa with offset } }
  | 0x0F => do -- DW_CFA_def_cfa_expression
    .ok { s with p := ← skipBlock memory limit p, row.cfa := { cfa with value := p, type := .expression } }
  | 0x10 => do -- DW_CFA_expression
    let (reg, p) ← readUleb memory limit p
    .ok { s with row := ← s.row.setReg reg ⟨.expression, p⟩, p := ← skipBlock memory limit p }
  | 0x11 => do -- DW_CFA_offset_extended_sf
    let (reg, value, p) ← readFactored memory limit cie (readSleb memory limit) p
    .ok { s with p, row := ← s.row.setReg reg ⟨.offsetn, value⟩ }
  | 0x12 => do -- DW_CFA_def_cfa_sf
    let (value, offset, p) ← readFactored memory limit cie (readSleb memory limit) p
    .ok { s with p, row.cfa := { cfa with value, offset } }
  | 0x13 => do -- DW_CFA_def_cfa_offset_sf
    let (n, p) ← readSleb memory limit p
    .ok { s with p, row.cfa := { cfa with offset := n * cie.dataAlignment } }
  | 0x14 => do -- DW_CFA_val_offset
    let (reg, value, p) ← readFactored memory limit cie (readUleb memory limit) p
    .ok { s with p, row := ← s.row.setReg reg ⟨.valOffsetn, value⟩ }
  | 0x15 => do -- DW_CFA_val_offset_sf
    let (reg, value, p) ← readFactored memory limit cie (readSleb memory limit) p
    .ok { s with p, row := ← s.row.setReg reg ⟨.valOffsetn, value⟩ }
  | 0x16 => do -- DW_CFA_val_expression
    let (reg, p) ← readUleb memory limit p
    .ok { s with row := ← s.row.setReg reg ⟨.valExpression, p⟩, p := ← skipBlock memory limit p }
  | 0x2E => do -- DW_CFA_GNU_args_size
    let (argSize, p) ← readUleb memory limit p
    .ok { s with p, row.argSize := argSize }
  | 0x2F => do -- DW_CFA_GNU_negative_offset_extended
    let (reg, value, p) ← readFactored memory limit cie (readUleb memory limit) p
    .ok { s with p, row := ← s.row.setReg reg ⟨.offsetn, -value⟩ }
  | _ => .error (.abort "unknown cfi cfa")

/-- The loop of `private_parse_instructions`. -/
def parseLoop (stop l1 : Word) : Nat → Progress → Except Stop CfiRow
  | 0, _ => .error .running
  | n + 1, s =>
    if s.p < stop ∧ s.l2 ≤ l1 then do parseLoop stop l1 n (← parseInstruction memory limit cie initialRow s)
    else .ok s.row

end Parsing

/-- `private_parse_instructions` for the CIE, and then for the FDE. -/
def decodeCfi (memory : Bytes) (limit : Nat) (fde : FdEntry) (ip : Word) : Except Stop CfiRow := do
  let cie := fde.cie
  let row ← parseLoop memory limit cie {} cie.entryEnd 0 limit { row := {}, p := cie.initialInstructions }
  parseLoop memory limit cie row fde.entryEnd (ip - fde.pcBegin) limit { row, p := fde.instructions }

end Gevisor.Unwind
