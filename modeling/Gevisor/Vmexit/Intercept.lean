import Mathlib.Algebra.CharZero.Defs
import Mathlib.Data.BitVec
import Mathlib.Algebra.Order.Ring.Nat
import Mathlib.Tactic.Common

/-! # Intercepted CPUID, RDMSR and WRMSR

`cpuid_handler`, `rdmsr_handler` and `wrmsr_handler` of the extended APIs, the base handlers of
`exit_handler.cpp` they fall through to, and the dispatch of `exit_handler::handle`. The processor and
the registered delegates are parameters.
-/

namespace Gevisor.Vmexit

/-- The registers of `save_state_t` the three instructions use, and `rip`. -/
structure SaveState where
  rax : BitVec 64
  rbx : BitVec 64
  rcx : BitVec 64
  rdx : BitVec 64
  rip : BitVec 64
  deriving DecidableEq

/-- The guest fields of the VMCS that stand for an MSR. -/
inductive GuestField where
  | ia32Debugctl
  | ia32Pat
  | ia32Efer
  | ia32PerfGlobalCtrl
  | ia32SysenterCs
  | ia32SysenterEsp
  | ia32SysenterEip
  | fsBase
  | gsBase
  deriving DecidableEq

/-- A vCPU at an exit. `wrmsrs` are the WRMSR instructions the hypervisor has executed, newest first. -/
structure Vmcs where
  saveState : SaveState
  guest : GuestField → BitVec 64
  exitInstructionLength : BitVec 64
  wrmsrs : List (BitVec 32 × BitVec 64)

/-- The four registers CPUID returns, as `cpuid_regs` holds them. -/
structure CpuidRegs where
  rax : BitVec 64
  rbx : BitVec 64
  rcx : BitVec 64
  rdx : BitVec 64
  deriving DecidableEq

/-- What the processor answers. An MSR's value may depend on everything written before. -/
structure Processor where
  cpuid : BitVec 32 → BitVec 32 → BitVec 32 → BitVec 32 → BitVec 32 × BitVec 32 × BitVec 32 × BitVec 32
  rdmsr : List (BitVec 32 × BitVec 64) → BitVec 32 → BitVec 64
  perfGlobalCtrlExists : Bool

/-! ## Helpers of the base hypervisor -/

def clearBit (t : BitVec 64) (b : Nat) : BitVec 64 := t &&& ~~~(1#64 <<< b)

def setBits (t m v : BitVec 64) : BitVec 64 := (t &&& ~~~m) ||| (v &&& m)

/-- `gsl::narrow_cast` to a 32-bit type. -/
def narrow (x : BitVec 64) : BitVec 32 := x.setWidth 32

def lowMask : BitVec 64 := 0x00000000FFFFFFFF

/-- `::x64::cpuid::get`. -/
def Processor.cpuidGet (cpu : Processor) (eax ebx ecx edx : BitVec 32) : CpuidRegs :=
  let (a, b, c, d) := cpu.cpuid eax ebx ecx edx
  ⟨a.setWidth 64, b.setWidth 64, c.setWidth 64, d.setWidth 64⟩

/-- CPUID on the low halves of the four registers. -/
def Processor.cpuidOf (cpu : Processor) (s : SaveState) : CpuidRegs :=
  cpu.cpuidGet (narrow s.rax) (narrow s.rbx) (narrow s.rcx) (narrow s.rdx)

def advance (v : Vmcs) : Vmcs :=
  { v with saveState := { v.saveState with rip := v.saveState.rip + v.exitInstructionLength } }

/-- The guest field the two emulation functions use for an MSR. -/
def fieldOf (msr : BitVec 32) : Option GuestField :=
  if msr = 0x1D9 then some .ia32Debugctl
  else if msr = 0x277 then some .ia32Pat
  else if msr = 0xC0000080 then some .ia32Efer
  else if msr = 0x38F then some .ia32PerfGlobalCtrl
  else if msr = 0x174 then some .ia32SysenterCs
  else if msr = 0x175 then some .ia32SysenterEsp
  else if msr = 0x176 then some .ia32SysenterEip
  else if msr = 0xC0000100 then some .fsBase
  else if msr = 0xC0000101 then some .gsBase
  else none

/-- MSRs `emulate_rdmsr` answers with zero, since reading them would fault. -/
def quirks : List (BitVec 32) := [0x31, 0x39, 0x1ae, 0x1af, 0x602]

def emulateRdmsr (cpu : Processor) (msr : BitVec 32) (v : Vmcs) : BitVec 64 :=
  match fieldOf msr with
  | some .ia32PerfGlobalCtrl =>
    -- `get_if_exists`: a missing field reads as zero.
    if cpu.perfGlobalCtrlExists then v.guest .ia32PerfGlobalCtrl else 0
  | some field => v.guest field
  | none => if msr ∈ quirks then 0 else cpu.rdmsr v.wrmsrs msr

def Vmcs.setGuest (v : Vmcs) (field : GuestField) (val : BitVec 64) : Vmcs :=
  { v with guest := Function.update v.guest field val }

def emulateWrmsr (cpu : Processor) (msr : BitVec 32) (val : BitVec 64) (v : Vmcs) : Vmcs :=
  match fieldOf msr with
  | some .ia32PerfGlobalCtrl =>
    -- `set_if_exists`: a write to a missing field is dropped.
    if cpu.perfGlobalCtrlExists then v.setGuest .ia32PerfGlobalCtrl val else v
  | some field => v.setGuest field val
  | none => { v with wrmsrs := (msr, val) :: v.wrmsrs }

/-- The value WRMSR writes, from the low halves of `rax` and `rdx`. -/
def wrmsrValue (s : SaveState) : BitVec 64 :=
  ((s.rax &&& lowMask) <<< 0) ||| ((s.rdx &&& lowMask) <<< 32)

/-- RDMSR's result in `rax` and `rdx`. -/
def putMsr (val : BitVec 64) (v : Vmcs) : Vmcs :=
  { v with
    saveState :=
      { v.saveState with
        rax := (val >>> 0x00) &&& lowMask
        rdx := (val >>> 0x20) &&& lowMask } }

/-! ## Registered delegates -/

/-- An `info_t`: what the delegate may rewrite, and its two flags. -/
structure Info (ρ : Type) where
  regs : ρ
  ignoreWrite : Bool
  ignoreAdvance : Bool
  deriving DecidableEq

/-- The first two fields of the `info_t` of `rdmsr_handler` and of `wrmsr_handler`. -/
structure MsrInfo where
  msr : BitVec 64
  val : BitVec 64
  deriving DecidableEq

/-- A call of a delegate: whether it accepts the exit, and what it leaves behind. -/
abbrev Delegate (ρ : Type) := Vmcs → Info ρ → Bool × Info ρ × Vmcs

/-- `m_handlers`, keyed by all 64 bits of a register. -/
abbrev HandlerMap (κ : Type) := BitVec 64 → Option (List κ)

/-- `m_handlers[key].push_front(d)`. -/
def HandlerMap.addHandler {κ : Type} (m : HandlerMap κ) (key : BitVec 64) (d : κ) : HandlerMap κ :=
  Function.update m key (some (d :: (m key).getD []))

/-- The map after a sequence of `add_handler` calls. -/
def HandlerMap.addHandlers {κ : Type} (m : HandlerMap κ) (calls : List (BitVec 64 × κ)) : HandlerMap κ :=
  calls.foldl (fun m call => m.addHandler call.1 call.2) m

/-- The delegates of `cpuid_handler`: the one its constructor adds, and those added later. -/
inductive CpuidDelegate (δ : Type) where
  | featureInformation
  | added (d : δ)
  deriving DecidableEq

def featureInformationAddr : BitVec 64 := 0x00000001

/-- `feature_information::ecx::vmx::from`. -/
def vmxFrom : Nat := 5

def handleCpuidFeatureInformation : Delegate CpuidRegs := fun v info =>
  (true, { info with regs := { info.regs with rcx := clearBit info.regs.rcx vmxFrom } }, v)

/-- `cpuid_handler::m_handlers`: its constructor's entry, then the calls of `add_handler`. -/
def cpuidHandlers {δ : Type} (calls : List (BitVec 64 × δ)) : HandlerMap (CpuidDelegate δ) :=
  HandlerMap.addHandlers
    (HandlerMap.addHandler (fun _ => none) featureInformationAddr .featureInformation)
    (calls.map (fun call => (call.1, .added call.2)))

/-- `m_handlers` of `rdmsr_handler` and of `wrmsr_handler`, whose constructors add nothing. -/
def msrHandlers {δ : Type} (calls : List (BitVec 64 × δ)) : HandlerMap δ :=
  HandlerMap.addHandlers (fun _ => none) calls

/-! ## Exit handlers -/

/-- What the hypervisor calls while it handles an exit. -/
inductive Called (δ : Type) where
  | featureInformation
  | added (d : δ)
  | base
  deriving DecidableEq

def CpuidDelegate.called {δ : Type} : CpuidDelegate δ → Called δ
  | .featureInformation => .featureInformation
  | .added d => .added d

structure Machine (δ : Type) where
  vmcs : Vmcs
  called : List (Called δ)

/-- An exit handler accepts the exit, declines it, or does not return: `vmcs::promote`. -/
inductive Verdict where
  | accepted
  | declined
  | promoted
  deriving DecidableEq

abbrev ExitHandler (δ : Type) := Machine δ → Verdict × Machine δ

/-- The loop over `hdlrs->second`, up to the first delegate that accepts. -/
def runDelegates {δ κ ρ : Type} (name : κ → Called δ) (call : κ → Delegate ρ) :
    List κ → Info ρ → Machine δ → Option (Info ρ) × Machine δ
  | [], _, m => (none, m)
  | d :: ds, info, m =>
    let (accepts, info, vmcs) := call d m.vmcs info
    let m : Machine δ := ⟨vmcs, m.called ++ [name d]⟩
    if accepts then (some info, m) else runDelegates name call ds info m

/-- What a handler does after a delegate accepted. -/
def complete {ρ : Type} (write : ρ → Vmcs → Vmcs) (info : Info ρ) (v : Vmcs) : Vmcs :=
  let v := if info.ignoreWrite then v else write info.regs v
  if info.ignoreAdvance then v else advance v

/-- The common body of the three `handle` functions. -/
def intercept {δ κ ρ : Type} (handlers : HandlerMap κ) (name : κ → Called δ) (call : κ → Delegate ρ)
    (key : SaveState → BitVec 64) (regs : Vmcs → ρ) (write : ρ → Vmcs → Vmcs) : ExitHandler δ := fun m =>
  match handlers (key m.vmcs.saveState) with
  | none => (.declined, m)
  | some hdlrs =>
    match runDelegates name call hdlrs ⟨regs m.vmcs, false, false⟩ m with
    | (some info, m) => (.accepted, { m with vmcs := complete write info m.vmcs })
    | (none, m) => (.declined, m)

/-- Everything the hypervisor's code is run with: the processor, what the added delegates do, and
`m_init_handlers` and `m_fini_handlers`. -/
structure Env (δ : Type) where
  cpu : Processor
  cpuid : δ → Delegate CpuidRegs
  rdmsr : δ → Delegate MsrInfo
  wrmsr : δ → Delegate MsrInfo
  initHandlers : List (Vmcs → Vmcs)
  finiHandlers : List (Vmcs → Vmcs)

/-- The calls of `add_handler` on each of the three handlers, oldest first. -/
structure Registrations (δ : Type) where
  cpuid : List (BitVec 64 × δ)
  rdmsr : List (BitVec 64 × δ)
  wrmsr : List (BitVec 64 × δ)

section Handlers

variable {δ : Type} (env : Env δ) (added : Registrations δ)

def callCpuid : CpuidDelegate δ → Delegate CpuidRegs
  | .featureInformation => handleCpuidFeatureInformation
  | .added d => env.cpuid d

/-- The four registers keep their upper halves. -/
def putCpuid (r : CpuidRegs) (v : Vmcs) : Vmcs :=
  { v with
    saveState :=
      { v.saveState with
        rax := setBits v.saveState.rax lowMask r.rax
        rbx := setBits v.saveState.rbx lowMask r.rbx
        rcx := setBits v.saveState.rcx lowMask r.rcx
        rdx := setBits v.saveState.rdx lowMask r.rdx } }

/-- `cpuid_handler::handle`. -/
def cpuidHandle : ExitHandler δ :=
  intercept (cpuidHandlers added.cpuid) CpuidDelegate.called (callCpuid env) SaveState.rax
    (fun v => env.cpu.cpuidOf v.saveState) putCpuid

/-- `rdmsr_handler::handle`. -/
def rdmsrHandle : ExitHandler δ :=
  intercept (msrHandlers added.rdmsr) Called.added env.rdmsr SaveState.rcx
    (fun v => ⟨v.saveState.rcx, emulateRdmsr env.cpu (narrow v.saveState.rcx) v⟩)
    (fun info => putMsr info.val)

/-- `wrmsr_handler::handle`. -/
def wrmsrHandle : ExitHandler δ :=
  intercept (msrHandlers added.wrmsr) Called.added env.wrmsr SaveState.rcx
    (fun v => ⟨v.saveState.rcx, wrmsrValue v.saveState⟩)
    (fun info => emulateWrmsr env.cpu (narrow info.msr) info.val)

/-- The leaves `exit_handler::handle_cpuid` keeps for the driver. -/
inductive DriverLeaf where
  | init
  | fini
  | inVm
  | leaveVm
  deriving DecidableEq

/-- The comparisons of `handle_cpuid`, with all 64 bits of `rax`. -/
def driverLeaf (rax : BitVec 64) : Option DriverLeaf :=
  if rax = 0xBF10 then some .init
  else if rax = 0xBF20 then some .fini
  else if rax = 0xBF11 then some .inVm
  else if rax = 0xBF21 then some .leaveVm
  else none

/-- A whole register is replaced, not its low half. -/
def loadCpuid (r : CpuidRegs) (v : Vmcs) : Vmcs :=
  { v with saveState := { v.saveState with rax := r.rax, rbx := r.rbx, rcx := r.rcx, rdx := r.rdx } }

/-- `exit_handler::handle_cpuid`. -/
def handleCpuid (v : Vmcs) : Verdict × Vmcs :=
  match driverLeaf v.saveState.rax with
  | some .init => (.accepted, advance (env.initHandlers.foldl (fun v d => d v) v))
  | some .fini => (.accepted, advance (env.finiHandlers.foldl (fun v d => d v) v))
  | some .inVm => (.accepted, advance v)
  | some .leaveVm => (.promoted, v)
  | none => (.accepted, advance (loadCpuid (env.cpu.cpuidOf v.saveState) v))

/-- `handle_rdmsr` of `exit_handler.cpp`. -/
def handleRdmsr (v : Vmcs) : Verdict × Vmcs :=
  (.accepted, advance (putMsr (emulateRdmsr env.cpu (narrow v.saveState.rcx) v) v))

/-- `handle_wrmsr` of `exit_handler.cpp`. -/
def handleWrmsr (v : Vmcs) : Verdict × Vmcs :=
  (.accepted, advance (emulateWrmsr env.cpu (narrow v.saveState.rcx) (wrmsrValue v.saveState) v))

/-- A handler of the base hypervisor, as an exit handler. -/
def base (handler : Vmcs → Verdict × Vmcs) : ExitHandler δ := fun m =>
  let (verdict, vmcs) := handler m.vmcs
  (verdict, ⟨vmcs, m.called ++ [.base]⟩)

/-- The exits of the three instructions. -/
inductive Exit where
  | cpuid
  | rdmsr
  | wrmsr
  deriving DecidableEq

/-- `m_exit_handlers.at(reason)`: `add_handler` pushes to the front, so the base handler is last. -/
def exitHandlers : Exit → List (ExitHandler δ)
  | .cpuid => [cpuidHandle env added, base (handleCpuid env)]
  | .rdmsr => [rdmsrHandle env added, base (handleRdmsr env)]
  | .wrmsr => [wrmsrHandle env added, base (handleWrmsr env)]

/-- How an exit ends: `vmcs::resume` and `vmcs::promote` do not return. -/
inductive Ending where
  | resumed
  | promoted
  | halted
  deriving DecidableEq

/-- The loop of `exit_handler::handle`. -/
def handle : List (ExitHandler δ) → Machine δ → Ending × Machine δ
  | [], m => (.halted, m)
  | d :: ds, m =>
    match d m with
    | (.accepted, m) => (.resumed, m)
    | (.promoted, m) => (.promoted, m)
    | (.declined, m) => handle ds m

/-- The handling of one exit. -/
def handleExit (e : Exit) (v : Vmcs) : Ending × Machine δ :=
  handle (exitHandlers env added e) ⟨v, []⟩

end Handlers

end Gevisor.Vmexit
