import Gevisor.Host.GuestMap
import Gevisor.Vmexit.Intercept

/-! # Intercepted IN and OUT

`io_instruction_handler`: the exit of an I/O instruction, the delegates registered for a port, and the operand in
`rax` or, for a string instruction, in guest memory, which is mapped while it is read or written.
-/

namespace Gevisor.Vmexit.Io

open Lib Ept Host

/-- `info_t`. -/
structure Info where
  portNumber : BitVec 64
  sizeOfAccess : BitVec 64
  address : BitVec 64
  val : BitVec 64
  ignoreWrite : Bool
  ignoreAdvance : Bool
  deriving DecidableEq, Repr

/-- An access of the hypervisor to a port. -/
inductive PortAccess
  | input (port : BitVec 16) (width : Nat)
  | output (port : BitVec 16) (width : Nat) (val : BitVec 32)
  deriving DecidableEq, Repr

/-- A vCPU at the exit of an I/O instruction: what the VMCS says about the exit, the host and the guest's memory,
byte by byte. `ports` are the port accesses of the hypervisor, newest first, and `touched` the physical addresses
of the operand bytes it read or wrote, oldest first. -/
structure Vcpu where
  saveState : SaveState
  exitInstructionLength : BitVec 64
  exitQualification : BitVec 64
  guestLinearAddress : BitVec 64
  guestCr3 : BitVec 64
  host : Host.Host
  memory : Nat → BitVec 8
  ports : List PortAccess
  touched : List Nat

/-- A call of a delegate: it accepts the access or not, may rewrite the `info_t` and may throw. -/
abbrev Delegate := Info → EStateM Err Vcpu (Bool × Info)

/-- The delegates that `add_handler` is called with, by name, and the devices: what a port answers may depend on
everything that happened on the ports before. -/
structure Env (δ : Type) where
  mm : PagePool
  call : δ → Delegate
  device : List PortAccess → BitVec 16 → Nat → BitVec 32

/-- The vCPU, and the delegates that have been called, oldest first. -/
structure Machine (δ : Type) where
  vcpu : Vcpu
  called : List δ

abbrev IoM (δ : Type) := EStateM Err (Machine δ)

def onVcpu {δ α : Type} (c : EStateM Err Vcpu α) : IoM δ α := zoom Machine.vcpu (fun v m => { m with vcpu := v }) c

def onHost {α : Type} (c : HostM α) : EStateM Err Vcpu α := zoom Vcpu.host (fun h v => { v with host := h }) c

/-! ## The exit qualification -/

inductive Direction
  | output
  | input
  deriving DecidableEq, Repr

def sizeOfAccess (eq : BitVec 64) : BitVec 64 := getBits eq 0x7#64

def directionOfAccess (eq : BitVec 64) : Direction := if getBits eq 0x8#64 >>> 3 = 1 then .input else .output

def stringInstruction (eq : BitVec 64) : Bool := isBitSet eq 4

def repPrefixed (eq : BitVec 64) : Bool := isBitSet eq 5

/-- Whether the port is in `dx`. -/
def encodingIsDx (eq : BitVec 64) : Bool := getBits eq 0x40#64 >>> 6 = 0

def portNumber (eq : BitVec 64) : BitVec 64 := getBits eq 0xFFFF0000#64 >>> 16

/-! ## Operands -/

/-- The bytes of an access: one, two, or in every other case four. -/
def widthOf (size : BitVec 64) : Nat := if size = 0 then 1 else if size = 1 then 2 else 4

/-- The guest's memory as the walks through its page tables see it. -/
def words (memory : Nat → BitVec 8) : Memory := fun page i =>
  let addr := page + 8 * i.val
  memory (addr + 7) ++ memory (addr + 6) ++ memory (addr + 5) ++ memory (addr + 4) ++ memory (addr + 3) ++
    memory (addr + 2) ++ memory (addr + 1) ++ memory addr

/-- A number from its bytes, the lowest first. -/
def littleEndian : List (BitVec 8) → Nat
  | [] => 0
  | byte :: rest => byte.toNat + 2 ^ 8 * littleEndian rest

/-- Byte `i` of a number. -/
def byteOf (val : BitVec 64) (i : Nat) : BitVec 8 := (val >>> (8 * i)).setWidth 8

/-- Where the page tables of the hypervisor translate `n` bytes from `virt` on to. -/
def translateBytes (mm : PagePool) (m : Mmap) (virt n : Nat) : Option (List Nat) :=
  (List.range n).mapM fun i => hostTranslation mm m (virt + i)

def writeBytes (memory : Nat → BitVec 8) (val : BitVec 64) : Nat → List Nat → Nat → BitVec 8
  | _, [] => memory
  | i, p :: rest => Function.update (writeBytes memory val (i + 1) rest) p (byteOf val i)

section Operands

variable (mm : PagePool)

/-- The physical addresses behind a pointer; what is not mapped cannot be accessed. -/
def access (virt n : Nat) : EStateM Err Vcpu (List Nat) := fun v =>
  match translateBytes mm v.host.mmap virt n with
  | some bytes => .ok bytes { v with touched := v.touched ++ bytes }
  | none => .error (.fault .nullDereference) v

/-- `map.get()[0]`. -/
def readMap (map : UniqueMap) (n : Nat) : EStateM Err Vcpu (BitVec 64) := do
  let bytes ← access mm map.virt n
  let v ← get
  pure (BitVec.ofNat 64 (littleEndian (bytes.map v.memory)))

/-- `map.get()[0] = val`, with `val` cut to `n` bytes. -/
def writeMap (map : UniqueMap) (n : Nat) (val : BitVec 64) : EStateM Err Vcpu Unit := do
  let bytes ← access mm map.virt n
  modify fun v => { v with memory := writeBytes v.memory val 0 bytes }

/-- The map of the operand of a string instruction, for as long as `scope` lasts. -/
def withOperand {α : Type} (info : Info) (scope : UniqueMap → EStateM Err Vcpu α) : EStateM Err Vcpu α := do
  let v ← get
  let map ← onHost (makeUniqueMapGuest mm (words v.memory) info.address.toNat v.guestCr3.toNat info.sizeOfAccess.toNat)
  ensuring Err.isExn (scope map) (onHost (map.destroy mm))

/-- The low bytes of a register. -/
def operandMask (n : Nat) : BitVec 64 := BitVec.ofNat 64 (2 ^ (8 * n) - 1)

def loadOperand (info : Info) : EStateM Err Vcpu Info :=
  let n := widthOf info.sizeOfAccess
  if info.address ≠ 0 then
    withOperand mm info fun map => do
      let val ← readMap mm map n
      pure { info with val := val &&& operandMask n }
  else do
    let v ← get
    pure { info with val := v.saveState.rax &&& operandMask n }

def storeOperand (info : Info) : EStateM Err Vcpu Unit :=
  let n := widthOf info.sizeOfAccess
  if info.address ≠ 0 then
    withOperand mm info fun map => writeMap mm map n info.val
  else
    modify fun v =>
      { v with saveState := { v.saveState with rax := setBits v.saveState.rax (operandMask n) info.val } }

end Operands

/-! ## Handlers -/

def advance : EStateM Err Vcpu Bool := do
  modify fun v =>
    { v with saveState := { v.saveState with rip := v.saveState.rip + v.exitInstructionLength } }
  pure true

section Handle

variable {δ : Type} (env : Env δ)

def emulateIn (info : Info) : EStateM Err Vcpu Info := do
  let v ← get
  let n := widthOf info.sizeOfAccess
  let port := info.portNumber.setWidth 16
  -- `inb` and `inw` return eight and sixteen bits.
  let val := (env.device v.ports port n).setWidth 64 &&& operandMask n
  set { v with ports := .input port n :: v.ports }
  pure { info with val := val }

def emulateOut (info : Info) : EStateM Err Vcpu Unit :=
  let n := widthOf info.sizeOfAccess
  modify fun v =>
    { v with ports := .output (info.portNumber.setWidth 16) n ((info.val &&& operandMask n).setWidth 32) :: v.ports }

/-- The two maps of delegates. -/
structure Handlers (δ : Type) where
  inHandlers : HandlerMap δ
  outHandlers : HandlerMap δ

def Handlers.addHandler (h : Handlers δ) (port : BitVec 64) (inD outD : δ) : Handlers δ :=
  ⟨h.inHandlers.addHandler port inD, h.outHandlers.addHandler port outD⟩

/-- The maps after a sequence of `add_handler` calls, oldest first. -/
def registered (calls : List (BitVec 64 × δ × δ)) : Handlers δ :=
  calls.foldl (fun h call => h.addHandler call.1 call.2.1 call.2.2) ⟨fun _ => none, fun _ => none⟩

/-- The loop over `hdlrs->second`, up to the first delegate that accepts; there may be none. -/
def runDelegates : List δ → Info → IoM δ (Bool × Info)
  | [], info => pure (false, info)
  | d :: ds, info => do
    modify fun m => { m with called := m.called ++ [d] }
    let (accepts, info) ← onVcpu (env.call d info)
    if accepts then pure (true, info) else runDelegates ds info

/-- The error of a port without a delegate that accepts. -/
def unhandled (name : String) (info : Info) : Err :=
  .exn ("io_instruction_handler::" ++ name ++ ": unhandled io instruction #" ++ toString info.portNumber.toNat)

def putOperand (write : Info → EStateM Err Vcpu Unit) (info : Info) : EStateM Err Vcpu Unit :=
  if info.ignoreWrite then pure () else write info

def retire (info : Info) : EStateM Err Vcpu Bool := if info.ignoreAdvance then pure true else advance

/-- What is left to do once a delegate has accepted. -/
def complete (write : Info → EStateM Err Vcpu Unit) (info : Info) : EStateM Err Vcpu Bool := do
  putOperand write info
  retire info

/-- The common body of `handle_in` and `handle_out`. The delegates work on the caller's `info_t`. -/
def dispatch (hdlrs : Option (List δ)) (fetch : Info → EStateM Err Vcpu Info) (write : Info → EStateM Err Vcpu Unit)
    (name : String) (info : Info) : IoM δ Info :=
  match hdlrs with
  | none => throw (unhandled name info)
  | some ds => do
    let info ← onVcpu (fetch info)
    let (accepted, info) ← runDelegates env ds info
    if accepted then do
      let _ ← onVcpu (complete write info)
      pure info
    else throw (unhandled name info)

variable (h : Handlers δ)

def handleIn (info : Info) : IoM δ Info :=
  dispatch env (h.inHandlers info.portNumber) (emulateIn env) (storeOperand env.mm) "handle_in" info

/-- The delegates are those of `m_in_handlers`. -/
def handleOut (info : Info) : IoM δ Info :=
  dispatch env (h.inHandlers info.portNumber) (loadOperand env.mm) emulateOut "handle_out" info

/-- How often the instruction is repeated. -/
def repetitions (v : Vcpu) : Nat :=
  if repPrefixed v.exitQualification then (v.saveState.rcx &&& lowMask).toNat else 1

/-- The `info_t` of the exit. -/
def infoOf (v : Vcpu) : Info where
  portNumber := if encodingIsDx v.exitQualification then v.saveState.rdx &&& 0xFFFF#64 else portNumber v.exitQualification
  sizeOfAccess := sizeOfAccess v.exitQualification
  address := if stringInstruction v.exitQualification then v.guestLinearAddress else 0
  val := 0
  ignoreWrite := false
  ignoreAdvance := false

def handleAccess : Direction → Info → IoM δ Info
  | .input => handleIn env h
  | .output => handleOut env h

/-- The rounds of the loop in `handle`. -/
def repeatAccess (direction : Direction) : Nat → Info → IoM δ Unit
  | 0, _ => pure ()
  | n + 1, info => do
    let info ← handleAccess env h direction info
    repeatAccess direction n { info with address := info.address + (info.sizeOfAccess + 1) }

def handle : IoM δ Bool := do
  let m ← get
  repeatAccess env h (directionOfAccess m.vcpu.exitQualification) (repetitions m.vcpu) (infoOf m.vcpu)
  pure true

end Handle

end Gevisor.Vmexit.Io
