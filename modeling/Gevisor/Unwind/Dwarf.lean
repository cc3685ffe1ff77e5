import Gevisor.Unwind.CallFrame

/-! # Call frame programs

The rules of DWARF 4, section 6.4, in 64-bit arithmetic: what the instructions do to a row, and how they are written.
A remembered row includes the rule of the CFA. A block of an expression is named by its address.
-/

namespace Gevisor.Unwind.Dwarf

open Elf (Word Byte Bytes fetch)

inductive Rule
  | undefined
  | sameValue
  | offset (n : Word)
  | valOffset (n : Word)
  | register (r : Word)
  | expression (block : Word)
  | valExpression (block : Word)

inductive Cfa
  | undefined
  | registerOffset (register offset : Word)
  | expression (block : Word)

structure Row where
  cfa : Cfa := .undefined
  rule : Nat → Rule := fun _ => .undefined

inductive Instruction
  | nop
  | advance (bytes : Nat)
  | setLocation (address : Word)
  | define (register : Word) (rule : Rule)
  | restore (register : Word)
  | remember
  | restoreState
  | defCfa (register offset : Word)
  | defCfaRegister (register : Word)
  | defCfaOffset (offset : Word)
  | defCfaExpression (block : Word)

/-- The location is relative to where the FDE begins. -/
structure State where
  row : Row := {}
  location : Nat := 0
  stack : List Row := []

section Execution

variable (initial : Row) (pcBegin : Word)

/-- An instruction has no meaning where it needs a remembered row or a CFA of another form. -/
def step (s : State) : Instruction → Option State
  | .nop => some s
  | .advance bytes => some { s with location := s.location + bytes }
  | .setLocation address => some { s with location := address.toNat - pcBegin.toNat }
  | .define register rule => some { s with row.rule := Function.update s.row.rule register.toNat rule }
  | .restore register =>
    some { s with row.rule := Function.update s.row.rule register.toNat (initial.rule register.toNat) }
  | .remember => some { s with stack := s.row :: s.stack }
  | .restoreState =>
    match s.stack with
    | [] => none
    | row :: stack => some { s with row, stack }
  | .defCfa register offset => some { s with row.cfa := .registerOffset register offset }
  | .defCfaRegister register =>
    match s.row.cfa with
    | .registerOffset _ offset => some { s with row.cfa := .registerOffset register offset }
    | _ => none
  | .defCfaOffset offset =>
    match s.row.cfa with
    | .registerOffset register _ => some { s with row.cfa := .registerOffset register offset }
    | _ => none
  | .defCfaExpression block => some { s with row.cfa := .expression block }

variable (target : Nat)

/-- The row at a location is the one that is complete before the location goes beyond it. -/
def rowAt : State → List Instruction → Option Row
  | s, [] => some s.row
  | s, i :: rest => if s.location ≤ target then (step initial pcBegin s i).bind (rowAt · rest) else some s.row

/-- All steps up to the location meet a condition. -/
def Along (P : State → Instruction → Prop) : State → List Instruction → Prop
  | _, [] => True
  | s, i :: rest => s.location ≤ target → P s i ∧ ∀ t, step initial pcBegin s i = some t → Along P t rest

end Execution

/-! ## Instructions in memory -/

section Encoding

variable (memory : Bytes) (cie : CiEntry)

/-- The instruction at `a`, and where it ends. -/
inductive InstructionAt (a : Word) : Instruction → Word → Prop
  | advanceLoc (opcode : memory a &&& 0xC0 = 0x40) :
    InstructionAt a (.advance ((memory a &&& 0x3F).toNat * cie.codeAlignment.toNat)) (a + 1)
  | offset {n next : Word} (opcode : memory a &&& 0xC0 = 0x80) (number : NumberAt memory (a + 1) 0x01 n next) :
    InstructionAt a (.define ((memory a &&& 0x3F).setWidth 64) (.offset (n * cie.dataAlignment))) next
  | restore (opcode : memory a &&& 0xC0 = 0xC0) : InstructionAt a (.restore ((memory a &&& 0x3F).setWidth 64)) (a + 1)
  | nop (opcode : memory a = 0x00) : InstructionAt a .nop (a + 1)
  | setLoc {address next : Word} (opcode : memory a = 0x01)
    (pointer : PointerAt memory (a + 1) cie.encodings.pointer address next) : InstructionAt a (.setLocation address) next
  | advanceLoc1 (opcode : memory a = 0x02) :
    InstructionAt a (.advance ((fetch memory (a + 1) 1).toNat * cie.codeAlignment.toNat)) (a + 1 + 1)
  | advanceLoc2 (opcode : memory a = 0x03) :
    InstructionAt a (.advance ((fetch memory (a + 1) 2).toNat * cie.codeAlignment.toNat)) (a + 1 + 2)
  | advanceLoc4 (opcode : memory a = 0x04) :
    InstructionAt a (.advance ((fetch memory (a + 1) 4).toNat * cie.codeAlignment.toNat)) (a + 1 + 4)
  | offsetExtended {r n p next : Word} (opcode : memory a = 0x05) (register : NumberAt memory (a + 1) 0x01 r p)
    (number : NumberAt memory p 0x01 n next) : InstructionAt a (.define r (.offset (n * cie.dataAlignment))) next
  | restoreExtended {r next : Word} (opcode : memory a = 0x06) (register : NumberAt memory (a + 1) 0x01 r next) :
    InstructionAt a (.restore r) next
  | undefined {r next : Word} (opcode : memory a = 0x07) (register : NumberAt memory (a + 1) 0x01 r next) :
    InstructionAt a (.define r .undefined) next
  | sameValue {r next : Word} (opcode : memory a = 0x08) (register : NumberAt memory (a + 1) 0x01 r next) :
    InstructionAt a (.define r .sameValue) next
  | register {r n p next : Word} (opcode : memory a = 0x09) (register : NumberAt memory (a + 1) 0x01 r p)
    (number : NumberAt memory p 0x01 n next) : InstructionAt a (.define r (.register n)) next
  | rememberState (opcode : memory a = 0x0A) : InstructionAt a .remember (a + 1)
  | restoreState (opcode : memory a = 0x0B) : InstructionAt a .restoreState (a + 1)
  | defCfa {r n p next : Word} (opcode : memory a = 0x0C) (register : NumberAt memory (a + 1) 0x01 r p)
    (number : NumberAt memory p 0x01 n next) : InstructionAt a (.defCfa r n) next
  | defCfaRegister {r next : Word} (opcode : memory a = 0x0D) (register : NumberAt memory (a + 1) 0x01 r next) :
    InstructionAt a (.defCfaRegister r) next
  | defCfaOffset {n next : Word} (opcode : memory a = 0x0E) (number : NumberAt memory (a + 1) 0x01 n next) :
    InstructionAt a (.defCfaOffset n) next
  | defCfaExpression {n p : Word} (opcode : memory a = 0x0F) (length : NumberAt memory (a + 1) 0x01 n p) :
    InstructionAt a (.defCfaExpression (a + 1)) (p + n)
  | expression {r n p q : Word} (opcode : memory a = 0x10) (register : NumberAt memory (a + 1) 0x01 r p)
    (length : NumberAt memory p 0x01 n q) : InstructionAt a (.define r (.expression p)) (q + n)
  | offsetExtendedSf {r n p next : Word} (opcode : memory a = 0x11) (register : NumberAt memory (a + 1) 0x01 r p)
    (number : NumberAt memory p 0x09 n next) : InstructionAt a (.define r (.offset (n * cie.dataAlignment))) next
  | defCfaSf {r n p next : Word} (opcode : memory a = 0x12) (register : NumberAt memory (a + 1) 0x01 r p)
    (number : NumberAt memory p 0x09 n next) : InstructionAt a (.defCfa r (n * cie.dataAlignment)) next
  | defCfaOffsetSf {n next : Word} (opcode : memory a = 0x13) (number : NumberAt memory (a + 1) 0x09 n next) :
    InstructionAt a (.defCfaOffset (n * cie.dataAlignment)) next
  | valOffset {r n p next : Word} (opcode : memory a = 0x14) (register : NumberAt memory (a + 1) 0x01 r p)
    (number : NumberAt memory p 0x01 n next) : InstructionAt a (.define r (.valOffset (n * cie.dataAlignment))) next
  | valOffsetSf {r n p next : Word} (opcode : memory a = 0x15) (register : NumberAt memory (a + 1) 0x01 r p)
    (number : NumberAt memory p 0x09 n next) : InstructionAt a (.define r (.valOffset (n * cie.dataAlignment))) next
  | valExpression {r n p q : Word} (opcode : memory a = 0x16) (register : NumberAt memory (a + 1) 0x01 r p)
    (length : NumberAt memory p 0x01 n q) : InstructionAt a (.define r (.valExpression p)) (q + n)
  | argsSize {n next : Word} (opcode : memory a = 0x2E) (number : NumberAt memory (a + 1) 0x01 n next) :
    InstructionAt a .nop next
  | negativeOffsetExtended {r n p next : Word} (opcode : memory a = 0x2F)
    (register : NumberAt memory (a + 1) 0x01 r p) (number : NumberAt memory p 0x01 n next) :
    InstructionAt a (.define r (.offset (-(n * cie.dataAlignment)))) next

/-- A program that ends at `stop`. -/
inductive ProgramAt (stop : Word) : Word → List Instruction → Prop
  | nil : ProgramAt stop stop []
  | cons {a next : Word} {i : Instruction} {rest : List Instruction} (before : a < stop)
    (here : InstructionAt memory cie a i next) (after : ProgramAt stop next rest) : ProgramAt stop a (i :: rest)

end Encoding

end Gevisor.Unwind.Dwarf
