import Gevisor.Unwind.Dwarf
import Gevisor.Unwind.Section

/-! # Rows of call frame programs

The row that the unwinder computes, and the one that the rules of DWARF assign to the program counter.
-/

namespace Gevisor.Unwind

open Elf (Word Byte Bytes fetch)
open Dwarf

/-! ## Rows that are the same -/

def CfiRegister.Matches (register : CfiRegister) : Rule → Prop
  | .undefined => register.rule = .undefined
  | .sameValue => register.rule = .sameValue
  | .offset n => register = ⟨.offsetn, n⟩
  | .valOffset n => register = ⟨.valOffsetn, n⟩
  | .register r => register = ⟨.register, r⟩
  | .expression block => register = ⟨.expression, block⟩
  | .valExpression block => register = ⟨.valExpression, block⟩

/-- Nothing in a `cfi_cfa` tells that it is undefined: the blank one is register 0 with offset 0. -/
def CfiCfa.Follows (cfa : CfiCfa) : Cfa → Prop
  | .undefined => cfa.type = .register
  | .registerOffset register offset => cfa = ⟨register, offset, .register⟩
  | .expression block => cfa.type = .expression ∧ cfa.value = block

structure CfiRow.Follows (row : CfiRow) (spec : Row) : Prop where
  cfa : row.cfa.Follows spec.cfa
  register : ∀ i < maxNumRegisters, (row.registers i).Matches (spec.rule i)

/-- The rows are the same. -/
structure CfiRow.Matches (row : CfiRow) (spec : Row) : Prop extends row.Follows spec where
  defined : spec.cfa ≠ .undefined

structure Progress.Follows (s : Progress) (t : State) : Prop where
  row : s.row.Follows t.row
  location : s.l2.toNat = t.location
  stack : List.Forall₂ CfiRow.Follows s.stack t.stack

/-- Instructions that do not abort the unwinder. -/
def Accepted (s : State) : Instruction → Prop
  | .define register (.register r) => register.toNat < maxNumRegisters ∧ r.toNat < maxNumRegisters
  | .define register _ | .restore register => register.toNat < maxNumRegisters
  | .remember => s.stack.length < rememberStackSize
  | _ => True

/-- What the unwinder does as the rules of DWARF have it. -/
def Faithful (s : State) : Instruction → Prop
  | .define _ (.register _) | .setLocation _ => False
  | .advance bytes => s.location + bytes < 2 ^ 64
  | .defCfa _ _ => ∀ block, s.row.cfa ≠ .expression block
  | _ => True

section Simulation

variable {memory : Bytes} {limit : Nat} {cie : CiEntry} {initialRow : CfiRow} {initial : Row} {pcBegin : Word}
  {s : Progress} {t t' : State} {next : Word} {i : Instruction}

theorem CfiRow.follows_blank : CfiRow.Follows {} {} := ⟨rfl, fun _ _ => rfl⟩

variable {row : CfiRow} {index r n : Word} {rule : Rule}

theorem CfiRow.setReg_eq (hi : index.toNat < maxNumRegisters) (register : CfiRegister) :
    row.setReg index register = .ok { row with registers := Function.update row.registers index.toNat register } :=
  if_neg (Nat.not_le.mpr hi)

theorem CfiRow.reg_eq (hi : index.toNat < maxNumRegisters) : row.reg index = .ok (row.registers index.toNat) :=
  if_neg (Nat.not_le.mpr hi)

theorem CfiRow.Follows.update {spec : Row} {register : CfiRegister} (same : row.Follows spec)
    (r : Nat) (set : register.Matches rule) :
    CfiRow.Follows { row with registers := Function.update row.registers r register }
      { spec with rule := Function.update spec.rule r rule } where
  cfa := same.cfa
  register i hi := by
    by_cases at_r : i = r
    · subst at_r
      simpa using set
    · simpa [at_r] using same.register i hi

theorem opcode_of_upper {byte upper : Byte} (same : byte &&& 0xC0 = upper) (some : upper ≠ 0) :
    opcode byte = upper := by
  rw [opcode, same, if_neg some]

/-- The instructions that give a register a rule. -/
theorem parse_define (here : InstructionAt memory cie s.p (.define r rule) next)
    (hli : 10 ≤ limit) (hi : r.toNat < maxNumRegisters) (ho : ∀ n, rule ≠ .register n) :
    ∃ register : CfiRegister, register.Matches rule ∧ parseInstruction memory limit cie initialRow s =
      .ok { s with p := next, row.registers := Function.update s.row.registers r.toNat register } := by
  have uleb {a value next} (hn : NumberAt memory a 0x01 value next) := readUleb_of_number hn hli
  have sleb {a value next} (hn : NumberAt memory a 0x09 value next) := readSleb_of_number hn hli
  cases here with
  | offset hop hn =>
    refine ⟨_, rfl, ?_⟩
    simp only [parseInstruction, opcode_of_upper hop (by decide), uleb hn, ok_bind, CfiRow.setReg_eq hi]
    rfl
  | undefined hop register | sameValue hop register =>
    refine ⟨{ s.row.registers r.toNat with rule := _ }, rfl, ?_⟩
    simp only [parseInstruction, hop, uleb register, ok_bind, CfiRow.setRule, CfiRow.setReg_eq hi]
    rfl
  | register => exact absurd rfl (ho _)
  | expression hop register hl | valExpression hop register hl =>
    refine ⟨_, rfl, ?_⟩
    simp only [parseInstruction, hop, uleb register, skipBlock, uleb hl, ok_bind, CfiRow.setReg_eq hi]
    rfl
  | offsetExtendedSf hop register hn | valOffsetSf hop register hn =>
    refine ⟨_, rfl, ?_⟩
    simp only [parseInstruction, hop, readFactored, uleb register, sleb hn, ok_bind, CfiRow.setReg_eq hi]
    rfl
  | offsetExtended hop register hn | valOffset hop register hn
  | negativeOffsetExtended hop register hn =>
    refine ⟨_, rfl, ?_⟩
    simp only [parseInstruction, hop, readFactored, uleb register, uleb hn, ok_bind, CfiRow.setReg_eq hi]
    rfl

theorem parse_restore (here : InstructionAt memory cie s.p (.restore r) next)
    (hli : 10 ≤ limit) (hi : r.toNat < maxNumRegisters) :
    parseInstruction memory limit cie initialRow s = .ok { s with
      p := next, row.registers := Function.update s.row.registers r.toNat (initialRow.registers r.toNat) } := by
  cases here with
  | restore ho =>
    simp only [parseInstruction, opcode_of_upper ho (by decide), ok_bind, CfiRow.reg_eq hi, CfiRow.setReg_eq hi]
    rfl
  | restoreExtended ho hr =>
    simp only [parseInstruction, ho, readUleb_of_number hr hli, ok_bind, CfiRow.reg_eq hi, CfiRow.setReg_eq hi]
    rfl

theorem parse_advance {bytes : Nat} (here : InstructionAt memory cie s.p (.advance bytes) next) :
    parseInstruction memory limit cie initialRow s = .ok { s with p := next, l2 := s.l2 + BitVec.ofNat 64 bytes } := by
  cases here with
  | advanceLoc ho =>
    simp only [parseInstruction, opcode_of_upper ho (by decide), BitVec.ofNat_mul, BitVec.ofNat_toNat,
      BitVec.setWidth_eq]
    rfl
  | advanceLoc1 ho | advanceLoc2 ho | advanceLoc4 ho =>
    simp only [parseInstruction, ho, BitVec.ofNat_mul, BitVec.ofNat_toNat, BitVec.setWidth_eq]
    rfl

theorem parse_defCfa (here : InstructionAt memory cie s.p (.defCfa r n) next) (hli : 10 ≤ limit) :
    parseInstruction memory limit cie initialRow s =
      .ok { s with p := next, row.cfa := { s.row.cfa with value := r, offset := n } } := by
  cases here with
  | defCfa ho hr hn =>
    simp only [parseInstruction, ho, readUleb_of_number hr hli, readUleb_of_number hn hli, ok_bind]
    rfl
  | defCfaSf ho hr hn =>
    simp only [parseInstruction, ho, readFactored, readUleb_of_number hr hli, readSleb_of_number hn hli, ok_bind]
    rfl

theorem parse_defCfaOffset (here : InstructionAt memory cie s.p (.defCfaOffset n) next) (hli : 10 ≤ limit) :
    parseInstruction memory limit cie initialRow s =
      .ok { s with p := next, row.cfa := { s.row.cfa with offset := n } } := by
  cases here with
  | defCfaOffset ho hn =>
    simp only [parseInstruction, ho, readUleb_of_number hn hli, ok_bind]
    rfl
  | defCfaOffsetSf ho hn =>
    simp only [parseInstruction, ho, readSleb_of_number hn hli, ok_bind]
    rfl

/-- The size of the arguments is no part of the row that DWARF describes. -/
theorem parse_nop (here : InstructionAt memory cie s.p .nop next) (hli : 10 ≤ limit) :
    ∃ size, parseInstruction memory limit cie initialRow s = .ok { s with p := next, row.argSize := size } := by
  cases here with
  | nop ho =>
    refine ⟨s.row.argSize, ?_⟩
    simp only [parseInstruction, ho]
    rfl
  | @argsSize n _ ho hn =>
    refine ⟨n, ?_⟩
    simp only [parseInstruction, ho, readUleb_of_number hn hli, ok_bind]
    rfl

/-- One instruction that meets the condition. -/
theorem parseInstruction_simulates (here : InstructionAt memory cie s.p i next) (hli : 10 ≤ limit)
    (same : s.Follows t) (first : initialRow.Follows initial) (hacc : Accepted t i) (hf : Faithful t i)
    (done : step initial pcBegin t i = some t') :
    ∃ s', parseInstruction memory limit cie initialRow s = .ok s' ∧ s'.p = next ∧ s'.Follows t' := by
  cases i with
  | nop =>
    obtain ⟨size, hpa⟩ := parse_nop here hli
    cases done
    exact ⟨_, hpa, rfl, ⟨same.row.cfa, same.row.register⟩, same.location, same.stack⟩
  | advance bytes =>
    cases done
    refine ⟨_, parse_advance here, rfl, same.row, ?_, same.stack⟩
    simp only [Faithful, ← same.location] at hf ⊢
    rw [BitVec.toNat_add, BitVec.toNat_ofNat, Nat.add_mod_mod, Nat.mod_eq_of_lt hf]
  | setLocation => exact hf.elim
  | define r rule =>
    have hi : r.toNat < maxNumRegisters := by
      cases rule with
      | register => exact hacc.1
      | _ => exact hacc
    have ho (n : Word) : rule ≠ .register n := by
      intro hc
      subst hc
      exact hf
    obtain ⟨register, set, hpa⟩ := parse_define here hli hi ho
    cases done
    exact ⟨_, hpa, rfl, same.row.update r.toNat set, same.location, same.stack⟩
  | restore r =>
    cases done
    exact ⟨_, parse_restore here hli hacc, rfl, same.row.update r.toNat (first.register _ hacc),
      same.location, same.stack⟩
  | remember =>
    cases here with
    | rememberState hop =>
      have room : ¬ rememberStackSize ≤ s.stack.length := by
        rw [same.stack.length_eq]
        exact Nat.not_le.mpr hacc
      cases done
      refine ⟨{ s with p := s.p + 1, stack := s.row :: s.stack }, ?_, rfl, same.row, same.location,
        .cons same.row same.stack⟩
      simp only [parseInstruction, hop]
      exact if_neg room
  | restoreState =>
    cases here with
    | restoreState hop =>
      obtain ⟨row, p, l2, stack⟩ := s
      obtain ⟨spec, location, specs⟩ := t
      cases same.stack with
      | nil => cases done
      | @cons row' _ stack' _ top rest =>
        cases done
        refine ⟨⟨row', p + 1, l2, stack'⟩, ?_, rfl, top, same.location, rest⟩
        simp only [parseInstruction, hop]
        rfl
  | defCfa r n =>
    have type : s.row.cfa.type = .register := by
      have at_cfa := same.row.cfa
      cases cfa : t.row.cfa with
      | undefined => rwa [cfa] at at_cfa
      | registerOffset => rw [cfa] at at_cfa; rw [at_cfa]
      | expression block => exact absurd cfa (hf block)
    cases done
    exact ⟨_, parse_defCfa here hli, rfl, ⟨by simp [CfiCfa.Follows, type], same.row.register⟩, same.location,
      same.stack⟩
  | defCfaRegister r =>
    cases here with
    | defCfaRegister hop register =>
      have at_cfa := same.row.cfa
      cases cfa : t.row.cfa with
      | registerOffset r' n =>
        rw [cfa, CfiCfa.Follows] at at_cfa
        simp only [step, cfa, Option.some.injEq] at done
        subst done
        refine ⟨{ s with p := next, row.cfa := { s.row.cfa with value := r } }, ?_, rfl,
          ⟨by simp [CfiCfa.Follows, at_cfa], same.row.register⟩, same.location, same.stack⟩
        simp only [parseInstruction, hop, readUleb_of_number register hli, ok_bind]
        rfl
      | _ => simp [step, cfa] at done
  | defCfaOffset n =>
    have at_cfa := same.row.cfa
    cases cfa : t.row.cfa with
    | registerOffset r n' =>
      rw [cfa, CfiCfa.Follows] at at_cfa
      simp only [step, cfa, Option.some.injEq] at done
      subst done
      exact ⟨_, parse_defCfaOffset here hli, rfl, ⟨by simp [CfiCfa.Follows, at_cfa], same.row.register⟩,
        same.location, same.stack⟩
    | _ => simp [step, cfa] at done
  | defCfaExpression block =>
    cases here with
    | @defCfaExpression n p hop hl =>
      cases done
      refine ⟨{ s with p := p + n, row.cfa := { s.row.cfa with value := s.p + 1, type := .expression } }, ?_, rfl,
        ⟨⟨rfl, rfl⟩, same.row.register⟩, same.location, same.stack⟩
      simp only [parseInstruction, hop, skipBlock, readUleb_of_number hl hli, ok_bind]
      rfl

/-- A run whose steps all meet the condition. -/
theorem parseLoop_simulates {stop l : Word} {program : List Instruction} {row : Row}
    (code : ProgramAt memory cie stop s.p program) (hli : 10 ≤ limit) (first : initialRow.Follows initial)
    (same : s.Follows t)
    (fine : Along initial pcBegin l.toNat (fun s i => Accepted s i ∧ Faithful s i) t program)
    (done : rowAt initial pcBegin l.toNat t program = some row) {n : Nat} (hr : program.length < n) :
    ∃ r, parseLoop memory limit cie initialRow stop l n s = .ok r ∧ r.Follows row := by
  -- The loop of the code and the run of the rules take one instruction each.
  induction program generalizing s t n with
  | nil =>
    have he : ¬ (s.p < stop ∧ s.l2 ≤ l) := by
      cases code
      exact fun hg => BitVec.lt_irrefl _ hg.1
    cases n with
    | zero => exact absurd hr (Nat.not_lt_zero _)
    | succ n =>
      cases done
      exact ⟨s.row, if_neg he, same.row⟩
  | cons i rest ih =>
    cases n with
    | zero => exact absurd hr (Nat.not_lt_zero _)
    | succ n =>
      cases code with
      | @cons _ next _ _ hbe here ha =>
        have hl : s.l2 ≤ l ↔ t.location ≤ l.toNat := by rw [BitVec.le_def, same.location]
        by_cases hg : t.location ≤ l.toNat
        · obtain ⟨⟨hacc, hf⟩, fine⟩ := fine hg
          rw [rowAt, if_pos hg] at done
          obtain ⟨t', hs, done⟩ := Option.bind_eq_some_iff.mp done
          obtain ⟨s', hpa, at_next, same'⟩ := parseInstruction_simulates here hli same first hacc hf hs
          subst at_next
          obtain ⟨r, hlo, hm⟩ := ih ha same' (fine t' hs) done (Nat.lt_of_succ_lt_succ hr)
          refine ⟨r, ?_, hm⟩
          rw [parseLoop, if_pos ⟨hbe, hl.mpr hg⟩, hpa]
          exact hlo
        · rw [rowAt, if_neg hg] at done
          cases done
          exact ⟨s.row, if_neg fun both => hg (hl.mp both.2), same.row⟩

end Simulation

end Gevisor.Unwind

namespace Gevisor.Verified.CallFrames

open Elf (Word Byte Bytes)
open Unwind Unwind.Dwarf

/-- The instructions of an FDE and its CIE, and the rows that the rules give them. -/
structure Assigned (memory : Bytes) (fde : FdEntry) (ip : Word) (common own : List Instruction)
    (initial row : Row) : Prop where
  commonAt : ProgramAt memory fde.cie fde.cie.entryEnd fde.cie.initialInstructions common
  ownAt : ProgramAt memory fde.cie fde.entryEnd fde.instructions own
  commonRow : rowAt {} 0 0 {} common = some initial
  ownRow : rowAt initial fde.pcBegin (ip.toNat - fde.pcBegin.toNat) { row := initial } own = some row

/-- Each step of both is accepted, and does what DWARF has it do. -/
def AllFaithful (fde : FdEntry) (ip : Word) (common own : List Instruction) (initial : Row) : Prop :=
  Along {} 0 0 (fun s i => Accepted s i ∧ Faithful s i) {} common ∧
    Along initial fde.pcBegin (ip.toNat - fde.pcBegin.toNat) (fun s i => Accepted s i ∧ Faithful s i)
      { row := initial } own

/-- If each step meets the condition, the row is the one that DWARF assigns to the program counter. -/
theorem decodes_assigned_row (memory : Bytes) (fde : FdEntry) (ip : Word)
    (inside : fde.pcBegin.toNat < ip.toNat ∧ ip.toNat ≤ fde.pcBegin.toNat + fde.pcRange.toNat)
    (common own : List Instruction) (initial row : Row) (assigned : Assigned memory fde ip common own initial row)
    (fine : AllFaithful fde ip common own initial) (defined : row.cfa ≠ .undefined) :
    ∃ enough, ∀ limit ≥ enough, ∃ r, decodeCfi memory limit fde ip = .ok r ∧ r.Matches row := by
  have target : (ip - fde.pcBegin).toNat = ip.toNat - fde.pcBegin.toNat :=
    BitVec.toNat_sub_of_le (Nat.le_of_lt inside.1)
  refine ⟨common.length + own.length + 10, fun limit enough => ?_⟩
  have limited : 10 ≤ limit := by omega
  let start : Progress := { row := {}, p := fde.cie.initialInstructions }
  obtain ⟨first, decoded, follows⟩ := parseLoop_simulates (s := start) (t := {}) (n := limit) (l := 0) assigned.commonAt
    limited CfiRow.follows_blank ⟨CfiRow.follows_blank, rfl, .nil⟩ fine.1 assigned.commonRow (by omega)
  let start : Progress := { row := first, p := fde.instructions }
  obtain ⟨final, decoded', follows'⟩ := parseLoop_simulates (s := start) (t := { row := initial }) (n := limit)
    (l := ip - fde.pcBegin) assigned.ownAt limited follows ⟨follows, rfl, .nil⟩ (by rw [target]; exact fine.2)
    (by rw [target]; exact assigned.ownRow) (by omega)
  refine ⟨final, ?_, follows', defined⟩
  rw [decodeCfi, decoded]
  exact decoded'

/-! ## Two programs

A CIE with `DW_CFA_def_cfa r7, 8`, for an FDE with the instructions given.
-/

def sample (own : List Byte) : Bytes := holding ([0x0C, 7, 8] ++ own)

def sampleFde (length : Word) : FdEntry where
  pcBegin := 0x100
  pcRange := 0x40
  instructions := 3
  entryEnd := 3 + length
  cie := { initialInstructions := 0, entryEnd := 3, codeAlignment := 1, dataAlignment := -8 }

theorem number_of_byte {memory : Bytes} {a : Word} (b : Byte) (last : b.toNat < 128) (hf : memory a = b) :
    NumberAt memory a 0x01 (BitVec.ofNat 64 (Lib.Leb128.unsignedValue [b])) (a + 1) :=
  .uleb128 ⟨last, ⟨hf, trivial⟩, Nat.le_add_left 1 9⟩

theorem sample_common {own : List Byte} {length : Word} :
    ProgramAt (sample own) (sampleFde length).cie 3 0 [.defCfa 7 8] :=
  .cons (by decide) (.defCfa rfl (number_of_byte 7 (by decide) rfl) (number_of_byte 8 (by decide) rfl)) .nil

/-- `DW_CFA_register r3, r5` copies the rule of `r5`, which is undefined. -/
theorem register_rule_lost : ∃ row r,
    Assigned (sample [0x09, 3, 5]) (sampleFde 3) 0x110 [.defCfa 7 8] [.define 3 (.register 5)]
      { cfa := .registerOffset 7 8 } row ∧
    decodeCfi (sample [0x09, 3, 5]) 64 (sampleFde 3) 0x110 = .ok r ∧
    row.rule 3 = .register 5 ∧ (r.registers 3).rule = .undefined := by
  refine ⟨_, _, ⟨sample_common, ?_, rfl, rfl⟩, rfl, rfl, ?_⟩
  · exact .cons (by decide) (.register rfl (number_of_byte 3 (by decide) rfl) (number_of_byte 5 (by decide) rfl)) .nil
  · decide

/-- `DW_CFA_advance_loc 4`, `DW_CFA_def_cfa_offset 16`, `DW_CFA_offset r6, 2`. -/
theorem decodes_assigned_row_sample : ∃ enough, ∀ limit ≥ enough, ∃ r,
    decodeCfi (sample [0x44, 0x0E, 16, 0x86, 2]) limit (sampleFde 5) 0x105 = .ok r ∧
      r.cfa = ⟨7, 16, .register⟩ ∧ r.registers 6 = ⟨.offsetn, -16⟩ := by
  have own : ProgramAt (sample [0x44, 0x0E, 16, 0x86, 2]) (sampleFde 5).cie 8 3
      [.advance 4, .defCfaOffset 16, .define 6 (.offset (-16))] :=
    .cons (by decide) (.advanceLoc rfl) <| .cons (by decide) (.defCfaOffset rfl (number_of_byte 16 (by decide) rfl)) <|
      .cons (by decide) (.offset rfl (number_of_byte 2 (by decide) rfl)) .nil
  have fine : AllFaithful (sampleFde 5) 0x105 [.defCfa 7 8] [.advance 4, .defCfaOffset 16, .define 6 (.offset (-16))]
      { cfa := .registerOffset 7 8 } := by
    simp [AllFaithful, Along, step, Accepted, Faithful, sampleFde, maxNumRegisters]
  obtain ⟨enough, decodes⟩ := decodes_assigned_row _ (sampleFde 5) 0x105 (by decide) _ _ _ _
    ⟨sample_common, own, rfl, rfl⟩ fine nofun
  refine ⟨enough, fun limit room => ?_⟩
  obtain ⟨r, decoded, same⟩ := decodes limit room
  exact ⟨r, decoded, same.cfa, same.register 6 (by decide)⟩

end Gevisor.Verified.CallFrames
