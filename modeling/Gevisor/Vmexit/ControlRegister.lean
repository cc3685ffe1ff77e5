import Gevisor.Lib.Exec
import Gevisor.Lib.Transition
import Gevisor.Memory
import Mathlib.Logic.Function.Basic

/-! # Control register accesses

`control_register_handler` and the part of `init_signal_handler` that is about control registers. CR0 and CR4
are virtualised alike: the processor compares a write with the read shadow in the bits of the guest/host
mask and exits if they differ.
-/

namespace Gevisor.Vmexit.ControlRegister

open Lib

abbrev Word := BitVec 64

/-! ## General purpose registers -/

structure SaveState where
  rax : Word
  rbx : Word
  rcx : Word
  rdx : Word
  rbp : Word
  rsi : Word
  rdi : Word
  r08 : Word
  r09 : Word
  r10 : Word
  r11 : Word
  r12 : Word
  r13 : Word
  r14 : Word
  r15 : Word
  rip : Word
  rsp : Word
  deriving DecidableEq, Repr

/-- `emulate_rdgpr`, with the number in the exit qualification. -/
def emulateRdgpr (state : SaveState) (generalPurposeRegister : Nat) : Word :=
  match generalPurposeRegister with
  | 0 => state.rax
  | 3 => state.rbx
  | 1 => state.rcx
  | 2 => state.rdx
  | 4 => state.rsp
  | 5 => state.rbp
  | 6 => state.rsi
  | 7 => state.rdi
  | 8 => state.r08
  | 9 => state.r09
  | 10 => state.r10
  | 11 => state.r11
  | 12 => state.r12
  | 13 => state.r13
  | 14 => state.r14
  | _ => state.r15

/-- `emulate_wrgpr` -/
def emulateWrgpr (state : SaveState) (generalPurposeRegister : Nat) (val : Word) : SaveState :=
  match generalPurposeRegister with
  | 0 => { state with rax := val }
  | 3 => { state with rbx := val }
  | 1 => { state with rcx := val }
  | 2 => { state with rdx := val }
  | 4 => { state with rsp := val }
  | 5 => { state with rbp := val }
  | 6 => { state with rsi := val }
  | 7 => { state with rdi := val }
  | 8 => { state with r08 := val }
  | 9 => { state with r09 := val }
  | 10 => { state with r10 := val }
  | 11 => { state with r11 := val }
  | 12 => { state with r12 := val }
  | 13 => { state with r13 := val }
  | 14 => { state with r14 := val }
  | _ => { state with r15 := val }

/-! ## The VMCS -/

/-- The registers that have a mask and a shadow. -/
inductive Number
  | cr0
  | cr4
  deriving DecidableEq, Repr

/-- The fields of the VMCS for one of them. -/
structure Fields where
  guest : Word
  readShadow : Word
  guestHostMask : Word
  deriving DecidableEq, Repr

structure Vmcs where
  cr : Number → Fields
  guestCr3 : Word
  guestIa32Efer : Word
  ia32eModeGuest : Bool
  unrestrictedGuest : Bool
  vmExitInstructionLength : Word
  saveState : SaveState

/-- `eapis_vcpu_global_state_t`: the bits that must be set while the guest runs. -/
structure GlobalState where
  fixed0 : Number → Word

def Vmcs.set (vmcs : Vmcs) (n : Number) (fields : Fields) : Vmcs := { vmcs with cr := Function.update vmcs.cr n fields }

/-! ## Handlers -/

structure Info where
  val : Word
  shadow : Word
  ignoreWrite : Bool
  ignoreAdvance : Bool

/-- A delegate says whether it has dealt with the access. -/
abbrev Delegate := Vmcs → Info → Bool × Vmcs × Info

/-- The delegates are called in order, until one has dealt with the access. -/
def callDelegates : List Delegate → Vmcs → Info → Vmcs × Info
  | [], vmcs, info => (vmcs, info)
  | d :: rest, vmcs, info =>
    match d vmcs info with
    | (true, vmcs, info) => (vmcs, info)
    | (false, vmcs, info) => callDelegates rest vmcs info

def pagingFrom : Nat := 31

def lmeFrom : Nat := 8

def lmaFrom : Nat := 10

def emulateIa32eModeSwitch (vmcs : Vmcs) (info : Info) : Bool × Vmcs × Info :=
  if !vmcs.unrestrictedGuest || !vmcs.guestIa32Efer.getLsbD lmeFrom then (true, vmcs, info)
  else if info.val.getLsbD pagingFrom then
    (true, { vmcs with guestIa32Efer := vmcs.guestIa32Efer ||| 1#64 <<< lmaFrom, ia32eModeGuest := true }, info)
  else
    (true, { vmcs with guestIa32Efer := vmcs.guestIa32Efer &&& ~~~(1#64 <<< lmaFrom), ia32eModeGuest := false }, info)

def defaultWrcr0Handler : Delegate := fun vmcs info =>
  if (vmcs.cr .cr0).guest.getLsbD pagingFrom ≠ info.val.getLsbD pagingFrom then emulateIa32eModeSwitch vmcs info
  else (true, vmcs, info)

def defaultRdcr3Handler : Delegate := fun vmcs info => (true, vmcs, info)

def defaultWrcr3Handler : Delegate := fun vmcs info => (true, vmcs, info)

def defaultWrcr4Handler : Delegate := fun vmcs info => (true, vmcs, info)

structure ControlRegisterHandler where
  wrcr0Handlers : List Delegate
  rdcr3Handlers : List Delegate
  wrcr3Handlers : List Delegate
  wrcr4Handlers : List Delegate

/-- The delegates of a new handler. -/
def ControlRegisterHandler.default : ControlRegisterHandler where
  wrcr0Handlers := [defaultWrcr0Handler]
  rdcr3Handlers := [defaultRdcr3Handler]
  wrcr3Handlers := [defaultWrcr3Handler]
  wrcr4Handlers := [defaultWrcr4Handler]

/-- `enable_wrcr0_exiting` and `enable_wrcr4_exiting` -/
def enableExiting (g : GlobalState) (n : Number) (mask : Word) (vmcs : Vmcs) : Vmcs :=
  vmcs.set n { vmcs.cr n with guestHostMask := mask ||| g.fixed0 n, readShadow := (vmcs.cr n).guest }

/-- The constructor of `control_register_handler`. -/
def construct (g : GlobalState) (vmcs : Vmcs) : Vmcs := enableExiting g .cr4 0 (enableExiting g .cr0 0 vmcs)

def advance (vmcs : Vmcs) : Vmcs :=
  { vmcs with saveState := { vmcs.saveState with rip := vmcs.saveState.rip + vmcs.vmExitInstructionLength } }

/-- What `handle_wrcr0` and `handle_wrcr4` have in common. -/
def handleWrcr (g : GlobalState) (n : Number) (handlers : List Delegate) (generalPurposeRegister : Nat) (vmcs : Vmcs) :
    Vmcs :=
  let val := emulateRdgpr vmcs.saveState generalPurposeRegister
  let (vmcs, info) := callDelegates handlers vmcs
    { val := val ||| g.fixed0 n, shadow := val, ignoreWrite := false, ignoreAdvance := false }
  let vmcs := if info.ignoreWrite then vmcs
    else vmcs.set n { vmcs.cr n with guest := info.val, readShadow := info.shadow }
  if info.ignoreAdvance then vmcs else advance vmcs

def handleWrcr0 (g : GlobalState) (h : ControlRegisterHandler) : Nat → Vmcs → Vmcs := handleWrcr g .cr0 h.wrcr0Handlers

def handleWrcr4 (g : GlobalState) (h : ControlRegisterHandler) : Nat → Vmcs → Vmcs := handleWrcr g .cr4 h.wrcr4Handlers

def handleRdcr3 (h : ControlRegisterHandler) (generalPurposeRegister : Nat) (vmcs : Vmcs) : Vmcs :=
  let (vmcs, info) := callDelegates h.rdcr3Handlers vmcs
    { val := vmcs.guestCr3, shadow := 0, ignoreWrite := false, ignoreAdvance := false }
  let vmcs := if info.ignoreWrite then vmcs
    else { vmcs with saveState := emulateWrgpr vmcs.saveState generalPurposeRegister info.val }
  if info.ignoreAdvance then vmcs else advance vmcs

def handleWrcr3 (h : ControlRegisterHandler) (generalPurposeRegister : Nat) (vmcs : Vmcs) : Vmcs :=
  let (vmcs, info) := callDelegates h.wrcr3Handlers vmcs
    { val := emulateRdgpr vmcs.saveState generalPurposeRegister, shadow := 0, ignoreWrite := false, ignoreAdvance := false }
  let vmcs := if info.ignoreWrite then vmcs else { vmcs with guestCr3 := info.val &&& 0x7FFFFFFFFFFFFFFF }
  if info.ignoreAdvance then vmcs else advance vmcs

inductive AccessType
  | movToCr
  | movFromCr
  | clts
  | lmsw
  deriving DecidableEq, Repr

/-- The exit qualification. -/
structure Access where
  controlRegisterNumber : Nat
  accessType : AccessType
  generalPurposeRegister : Nat
  deriving DecidableEq, Repr

/-- `control_register_handler::handle`, with `handle_cr0`, `handle_cr3` and `handle_cr4`. -/
def handle (g : GlobalState) (h : ControlRegisterHandler) (access : Access) (vmcs : Vmcs) : Except Err Vmcs :=
  match access.controlRegisterNumber, access.accessType with
  | 0, .movToCr => .ok (handleWrcr0 g h access.generalPurposeRegister vmcs)
  | 0, .movFromCr => .error (.exn "control_register_handler::handle_cr0: mov_from_cr not supported")
  | 0, .clts => .error (.exn "control_register_handler::handle_cr0: clts not supported")
  | 0, .lmsw => .error (.exn "control_register_handler::handle_cr0: lmsw not supported")
  | 3, .movToCr => .ok (handleWrcr3 h access.generalPurposeRegister vmcs)
  | 3, .movFromCr => .ok (handleRdcr3 h access.generalPurposeRegister vmcs)
  | 3, .clts => .error (.exn "control_register_handler::handle_cr3: clts not supported")
  | 3, .lmsw => .error (.exn "control_register_handler::handle_cr3: lmsw not supported")
  | 4, .movToCr => .ok (handleWrcr4 g h access.generalPurposeRegister vmcs)
  | 4, .movFromCr => .error (.exn "control_register_handler::handle_cr4: mov_from_cr not supported")
  | 4, .clts => .error (.exn "control_register_handler::handle_cr4: clts not supported")
  | 4, .lmsw => .error (.exn "control_register_handler::handle_cr4: lmsw not supported")
  | _, _ => .error (.exn "control_register_handler::handle: invalid cr number")

/-- The value after an INIT signal. -/
def Number.reset : Number → Word
  | .cr0 => 0x60000010
  | .cr4 => 0x00000000

/-- `init_signal_handler::handle` -/
def handleInit (g : GlobalState) (vmcs : Vmcs) : Vmcs where
  cr n := { vmcs.cr n with guest := n.reset ||| g.fixed0 n, readShadow := n.reset }
  guestCr3 := 0
  guestIa32Efer := 0
  ia32eModeGuest := false
  unrestrictedGuest := vmcs.unrestrictedGuest
  vmExitInstructionLength := vmcs.vmExitInstructionLength
  saveState := ⟨0, 0, 0, 0x00000600, 0, 0, 0, 0, 0, 0, 0, 0, 0, 0, 0, 0x0000FFF0, 0⟩

/-! ## The processor -/

/-- The operand of a move to a control register. -/
inductive Gpr
  | rax | rcx | rdx | rbx | rsp | rbp | rsi | rdi | r8 | r9 | r10 | r11 | r12 | r13 | r14 | r15
  deriving DecidableEq, Repr

/-- Its number in instructions and in the exit qualification. -/
def Gpr.number : Gpr → Nat
  | .rax => 0 | .rcx => 1 | .rdx => 2 | .rbx => 3 | .rsp => 4 | .rbp => 5 | .rsi => 6 | .rdi => 7
  | .r8 => 8 | .r9 => 9 | .r10 => 10 | .r11 => 11 | .r12 => 12 | .r13 => 13 | .r14 => 14 | .r15 => 15

def SaveState.read (state : SaveState) : Gpr → Word
  | .rax => state.rax
  | .rcx => state.rcx
  | .rdx => state.rdx
  | .rbx => state.rbx
  | .rsp => state.rsp
  | .rbp => state.rbp
  | .rsi => state.rsi
  | .rdi => state.rdi
  | .r8 => state.r08
  | .r9 => state.r09
  | .r10 => state.r10
  | .r11 => state.r11
  | .r12 => state.r12
  | .r13 => state.r13
  | .r14 => state.r14
  | .r15 => state.r15

def Number.number : Number → Nat
  | .cr0 => 0
  | .cr4 => 4

/-- What the guest reads: masked bits from the shadow, the others from the register. -/
def Fields.read (f : Fields) : Word := (f.readShadow &&& f.guestHostMask) ||| (f.guest &&& ~~~f.guestHostMask)

/-- A write exits if it differs from the shadow in a masked bit. -/
def Fields.exits (f : Fields) (val : Word) : Bool := (val ^^^ f.readShadow) &&& f.guestHostMask ≠ 0

/-- A write that does not exit leaves the masked bits alone. -/
def Fields.write (f : Fields) (val : Word) : Fields :=
  { f with guest := (f.guest &&& f.guestHostMask) ||| (val &&& ~~~f.guestHostMask) }

inductive Event
  /-- The guest, with these registers, moves one of them to a control register. -/
  | mov (n : Number) (gpr : Gpr) (registers : SaveState) (length : Word)
  | init
  deriving DecidableEq, Repr

/-- The guest runs up to the end of the event. -/
def step (g : GlobalState) (h : ControlRegisterHandler) (vmcs : Vmcs) : Event → Except Err Vmcs
  | .mov n gpr registers length =>
    let vmcs := { vmcs with saveState := registers, vmExitInstructionLength := length }
    if (vmcs.cr n).exits (registers.read gpr) then handle g h ⟨n.number, .movToCr, gpr.number⟩ vmcs
    else .ok (advance (vmcs.set n ((vmcs.cr n).write (registers.read gpr))))
  | .init => .ok (handleInit g vmcs)

end Gevisor.Vmexit.ControlRegister
