import Gevisor.Lib.Transition
import Gevisor.Vmm.Handlers

/-! # The system

vCPUs are constructed and exit, in any order. An exit is possible when the hardware can cause it: the
vCPU runs, and for ENCLS and for interrupt windows the control that asks for the exit is set. A handler
runs without interference. If it throws, the vCPU is stopped; after a fault there is no next state.
-/

namespace Gevisor.Vmm

open Gevisor.Lib
open Gevisor.Ept

/-- Exit reasons with what the hardware reports about them. -/
inductive Reason
  | externalInterrupt (information : BitVec 64)
  | interruptWindow
  | eptViolation (qual gva gpa : BitVec 64)
  | encls
  | vmcall
  | monitorTrap

/-- An exit of vCPU `id`. Between exits the guest may do anything to its own state and memory. -/
inductive Event
  | construct (id : BitVec 64)
  | exit (id : BitVec 64) (guest : GuestState) (reason : Reason)

/-- The bit of the ENCLS-exiting bitmap that EAX selects. -/
def enclsLeafBit (rax : BitVec 64) : Nat := min (rax.toNat % 2 ^ 32) 63

/-- The hardware can cause the exit in vCPU state `v`. -/
def canExit (v : Vcpu) (guest : GuestState) (reason : Reason) : Bool :=
  !v.halted &&
    match reason with
    | .encls => v.enclsExitingBitmap.getLsbD (enclsLeafBit guest.rax)
    | .interruptWindow => v.interruptWindowExiting
    | _ => true

section Step

variable {E : Type} (ops : EptOps E) (platform : Platform)

/-- The vector is the low byte of the exit interruption information. -/
def exitVector (information : BitVec 64) : BitVec 64 := getBits information 0xFF#64

def handle (id : BitVec 64) (guest : GuestState) : Reason → VmmM E Unit
  | .externalInterrupt information => externalInterruptHandler ops id guest (exitVector information)
  | .interruptWindow => interruptWindowHandler id
  | .eptViolation qual _ gpa => eptViolationHandle ops id guest qual gpa.toNat
  | .encls => enclsHandler ops id guest
  | .vmcall => vmcallHandler guest
  | .monitorTrap => monitorTrapHandler id

def acknowledge (vector : BitVec 64) (v : Vcpu) : Vcpu :=
  { v with acknowledged := v.acknowledged ++ [vector] }

/-- The exit itself: memory is what the guest left there, and the vector of an external interrupt has
been acknowledged. -/
def onExit (id : BitVec 64) (guest : GuestState) (reason : Reason) (g : Globals) : Globals :=
  let g := { g with mem := guest.mem }
  match reason with
  | .externalInterrupt information =>
    setVcpu id ((g.vcpus id).map (acknowledge (exitVector information))) g
  | _ => g

/-- The VM entry: a valid injection is delivered. -/
def enterVcpu (v : Vcpu) : Vcpu :=
  if isBitSet v.vmEntryInterruptionInformation 31 then
    { v with
      vmEntryInterruptionInformation := clearBit v.vmEntryInterruptionInformation 31
      delivered := v.delivered ++ [getBits v.vmEntryInterruptionInformation 0xFF#64] }
  else v

def onEntry (id : BitVec 64) (g : Globals) : Globals := setVcpu id ((g.vcpus id).map enterVcpu) g

def onHalt (id : BitVec 64) (g : Globals) : Globals :=
  setVcpu id ((g.vcpus id).map fun v => { v with halted := true }) g

/-- How a result of vCPU code continues the run: `ok` and `thrown` are applied to the globals. -/
def resume (ok thrown : Globals → Globals) : EStateM.Result Err (Machine E) Unit → Option (Machine E)
  | .ok _ s => some { s with g := ok s.g }
  | .error (.exn _) s => some { s with g := thrown s.g }
  | .error (.fault _) _ => none

/-- The state in which code has returned. -/
def returned : EStateM.Result Err (Machine E) Unit → Option (Machine E)
  | .ok _ s => some s
  | .error _ _ => none

def step (s : Machine E) : Event → Option (Machine E)
  | .construct id =>
    match s.g.vcpus id with
    | some _ => none
    | none => resume (fun g => g) (setVcpu id none) (constructVcpu ops platform id s)
  | .exit id guest reason =>
    match s.g.vcpus id with
    | none => none
    | some v =>
      if canExit v guest reason then
        resume (onEntry id) (onHalt id) (handle ops id guest reason { s with g := onExit id guest reason s.g })
      else none

/-- A step of the code. -/
abbrev codeStep (mm : PagePool) : Machine Mmap → Event → Option (Machine Mmap) :=
  step (mmapOps mm platform.mtrrs) platform

/-- A step of the abstract machine. -/
abbrev abstractStep : Machine AddrMap → Event → Option (Machine AddrMap) :=
  step (addrMapOps platform.mtrrs) platform

end Step

/-- The globals before the first vCPU: zero, except for the channel, which is either not mapped, as in
the code, or mapped as `find_enclave_channel` would map it. -/
def initialGlobals (channel : Option Nat) (mem : GuestMem) : Globals where
  epcBaseAddress := 0
  epcSize := 0
  sgxPaddrs _ := 0
  sgxVaddrs _ := 0
  sgxGuestPteShadow _ := 0
  countSgxPaddrs := 0
  modifiedPages := 0
  gpuBuffers _ := ⟨0, 0, 0, 0⟩
  countGpuBuffers := 0
  gpuPaddrs _ := 0
  countGpuPaddrs := 0
  channelPaddr := channel.getD 0
  channelMap := channel
  currentEnclaveCr3 := 0
  enclaveVcpuid := -1
  enclaveAep := 0
  enclaveRunning := false
  flagEpc := false
  flagEpt := false
  mem := mem
  vcpus _ := none

/-- The machine of the code at its start. -/
def boot (mm : PagePool) (channel : Option Nat) (word : Nat → Fin 512 → Entry) (mem : GuestMem) :
    Machine Mmap where
  guestMap := Mmap.init mm word
  g := initialGlobals channel mem

/-- The abstract machine at its start. -/
def bootAbstract (channel : Option Nat) (mem : GuestMem) : Machine AddrMap where
  guestMap _ := none
  g := initialGlobals channel mem

end Gevisor.Vmm
