import Gevisor.Vmm.Paging

/-! # Exit handlers

`vcpu_factory_hook.cpp`, with the parts of the extended APIs that stand between an exit and its
handler. Handlers run to the end, throw, or fault; what they have written stays written.
-/

namespace Gevisor.Vmm

open Gevisor.Lib
open Gevisor.Ept

/-- What a handler reads of the guest: saved registers, guest fields of the VMCS, and memory. The last
field says whether the local APIC is in a state in which an IPI can be sent. -/
structure GuestState where
  rax : BitVec 64
  rip : BitVec 64
  cr3 : BitVec 64
  rflags : BitVec 64
  activityState : BitVec 64
  interruptibilityState : BitVec 64
  mem : GuestMem
  lapicSupported : Bool

/-- A guest with empty memory that takes interrupts. -/
instance : Inhabited GuestState where
  default := {
    rax := 0, rip := 0, cr3 := 0, rflags := 0x200, activityState := 0, interruptibilityState := 0
    mem := fun _ _ => 0, lapicSupported := true }

section Handlers

variable {E : Type} (ops : EptOps E)

/-! ## Tracking frames -/

/-- Registration and re-trapping first turn the 2M frame of an address into one large page. -/
def ensure2m (paddr : Nat) : VmmM E Unit := do
  let fromBit ← onMap (ops.leafFrom (upper paddr Level.pd.fromBit))
  if fromBit = Level.pt.fromBit then onMap (ops.convert4kTo2m (upper paddr Level.pd.fromBit))
  else pure ()

def noteSgxPaddr (paddr : Nat) (g : Globals) : Globals :=
  { g with
    sgxPaddrs := Function.update g.sgxPaddrs g.countSgxPaddrs paddr
    countSgxPaddrs := g.countSgxPaddrs + 1 }

def addSgxPaddr (paddr : Nat) : VmmM E Unit := do
  let g ← getG
  checkIndex .sgxPaddrs g.countSgxPaddrs
  modifyG (noteSgxPaddr paddr)

/-- `epc_size` in 2M frames, rounded up. -/
def epcFrames (size : Nat) : Nat := size / (4096 * 512) + if size % (4096 * 512) ≠ 0 then 1 else 0

/-- The address of frame `i` of a region that starts at `start`. -/
def frameAddress (start i : Nat) : Nat := (start + i * (4096 * 512)) % 2 ^ 64

def addEpcAddress2m : VmmM E Unit := do
  let g ← getG
  forFrom (fun i => do
    ensure2m ops (frameAddress g.epcBaseAddress i)
    addSgxPaddr (frameAddress g.epcBaseAddress i)) 0 (epcFrames g.epcSize)

def trapEnclaveEntryNew2m : VmmM E Unit := do
  let g ← getG
  forFrom (fun k => do
    checkIndex .sgxPaddrs k
    let g ← getG
    ensure2m ops (g.sgxPaddrs k)
    let entry ← onMap (ops.entryValue (g.sgxPaddrs k))
    checkIndex .sgxGuestPteShadow k
    modifyG fun g => { g with sgxGuestPteShadow := Function.update g.sgxGuestPteShadow k entry }
    onMap (ops.updateEntry (g.sgxPaddrs k) [.disable .execute])) 0 g.countSgxPaddrs

def noteGpuPaddr (paddr : Nat) (g : Globals) : Globals :=
  { g with
    gpuPaddrs := Function.update g.gpuPaddrs g.countGpuPaddrs paddr
    countGpuPaddrs := g.countGpuPaddrs + 1 }

def addGpuPaddr (paddr : Nat) : VmmM E Unit := do
  let g ← getG
  checkIndex .gpuPaddrs g.countGpuPaddrs
  modifyG (noteGpuPaddr paddr)

/-- The number of frames taken for a buffer: its 4K pages times 512, and one more for a rest. -/
def bufferFrames (size : Nat) : Nat := size / 4096 * 512 + if size % (4096 * 512) ≠ 0 then 1 else 0

def addGpuBuffer2m (vaddr paddr size : Nat) : VmmM E Unit := do
  if paddr ≠ 0 then
    let g ← getG
    checkIndex .gpuBuffers g.countGpuBuffers
    modifyG fun g => { g with
      gpuBuffers := Function.update g.gpuBuffers g.countGpuBuffers
        { g.gpuBuffers g.countGpuBuffers with vaddr := vaddr, paddr := paddr, size := size } }
    forFrom (fun i => do
      ensure2m ops (frameAddress paddr i)
      addGpuPaddr (frameAddress paddr i)) 0 (bufferFrames size)
    modifyG fun g => { g with
      gpuBuffers := Function.update g.gpuBuffers g.countGpuBuffers
        { g.gpuBuffers g.countGpuBuffers with numPages := bufferFrames size }
      countGpuBuffers := g.countGpuBuffers + 1 }
  else pure ()

/-- The loop of `check_buffer_exists` over `n` buffers from number `i` on. -/
def checkBufferFrom (vaddr : Nat) : Nat → Nat → VmmM E Bool
  | _, 0 => pure false
  | i, n + 1 => do
    checkIndex .gpuBuffers i
    let g ← getG
    if (g.gpuBuffers i).vaddr = vaddr then pure true else checkBufferFrom vaddr (i + 1) n

def checkBufferExists (vaddr : Nat) : VmmM E Bool := do
  let g ← getG
  checkBufferFrom vaddr 0 g.countGpuBuffers

/-! ## Permissions -/

/-- The common loop of `remove_permission_gpu_buffers` and `grant_permission_gpu_buffers`. -/
def changeGpuBuffers (changes : List Change) : VmmM E Unit := do
  let g ← getG
  forFrom (fun k => do
    checkIndex .gpuPaddrs k
    let g ← getG
    onMap (ops.updateEntry (g.gpuPaddrs k) changes)) 0 g.countGpuPaddrs

def removePermissionGpuBuffers : VmmM E Unit := changeGpuBuffers ops [.disable .read, .disable .write]

def grantPermissionGpuBuffers : VmmM E Unit := changeGpuBuffers ops [.enable .read, .enable .write]

/-- The common body of `remove_permission_channel` and `grant_permission_channel`. -/
def changeChannel (changes : List Change) : VmmM E Unit := do
  let g ← getG
  onMap (ops.updateEntry g.channelPaddr changes)

def removePermissionChannel : VmmM E Unit := changeChannel ops [.disable .read, .disable .write]

def grantPermissionChannel : VmmM E Unit := changeChannel ops [.enable .read, .enable .write]

/-! ## The channel -/

def channelCommand (mem : GuestMem) (page : Nat) : Char := Char.ofNat (getBits (mem page 0) 0xFF#64).toNat

/-- `*t = 'o'`. -/
def channelDone (page : Nat) (g : Globals) : Globals :=
  { g with mem := writeWord g.mem page 0 (setBits (g.mem page 0) 0xFF#64 0x6F#64) }

/-- The address and the size are taken from words 1 and 9 of the channel. -/
def channelBuffer (mem : GuestMem) (page : Nat) : Nat := (mem page 1).toNat

def channelSize (mem : GuestMem) (page : Nat) : Nat := (mem page 9).toNat

def liftExcept {α : Type} : Except Err α → VmmM E α
  | .ok a => pure a
  | .error e => throw e

/-- Command `m`. -/
def registerBuffer (buf size guestCr3 : Nat) : VmmM E Unit := do
  let found ← checkBufferExists buf
  if found then pure ()
  else
    let g ← getG
    let paddr ← liftExcept (customVirtToPhysWithCr3 g.mem buf guestCr3)
    addGpuBuffer2m ops buf paddr size

def writeIpiInitAllNotSelf (lapicSupported : Bool) : VmmM E Unit :=
  if lapicSupported then pure () else throw (.exn "Unsupported lapic state")

def readEnclaveChannel (guestCr3 : Nat) (lapicSupported : Bool) : VmmM E Unit := do
  let g ← getG
  match g.channelMap with
  | none => throw (.fault .nullDereference)
  | some page =>
    match channelCommand g.mem page with
    | 'e' => do
      removePermissionGpuBuffers ops
      modifyG (channelDone page)
    | 'm' => do
      registerBuffer ops (channelBuffer g.mem page) (channelSize g.mem page) guestCr3
      modifyG (channelDone page)
    | 'n' => do
      writeIpiInitAllNotSelf lapicSupported
      grantPermissionGpuBuffers ops
      modifyG (channelDone page)
    | 'i' => modifyG (channelDone page)
    | 'd' => modifyG (channelDone page)
    | _ => pure ()

section

variable {ops : EptOps E} {m : E} {g : Globals} {page cr3 : Nat} {lapic : Bool} (mapped : g.channelMap = some page)

include mapped

theorem readEnclaveChannel_e (hc : channelCommand g.mem page = 'e') : readEnclaveChannel ops cr3 lapic ⟨m, g⟩ =
      (removePermissionGpuBuffers ops >>= fun _ => modifyG (channelDone page)) ⟨m, g⟩ := by
  rw [readEnclaveChannel, bind_of_ok (show getG ⟨m, g⟩ = .ok g ⟨m, g⟩ from rfl), mapped]
  simp only [hc]

theorem readEnclaveChannel_m (hc : channelCommand g.mem page = 'm') : readEnclaveChannel ops cr3 lapic ⟨m, g⟩ =
      (registerBuffer ops (channelBuffer g.mem page) (channelSize g.mem page) cr3 >>= fun _ =>
        modifyG (channelDone page)) ⟨m, g⟩ := by
  rw [readEnclaveChannel, bind_of_ok (show getG ⟨m, g⟩ = .ok g ⟨m, g⟩ from rfl), mapped]
  simp only [hc]

end

/-! ## Interrupts -/

/-- `interrupt_window_handler::is_open`. -/
def isInterruptWindowOpen (guest : GuestState) : Bool :=
  isBitSet guest.rflags 9 && (guest.activityState = 0 || guest.activityState = 1) &&
    !isBitSet guest.interruptibilityState 0 && !isBitSet guest.interruptibilityState 1

/-- `interrupt_window_handler::inject`: vector, type external interrupt, valid bit. -/
def entryInformation (vector : BitVec 64) : BitVec 64 :=
  setBit (setBits (setBits 0 0xFF#64 vector) 0x700#64 0) 31

def injectVector (vector : BitVec 64) (v : Vcpu) : Vcpu :=
  { v with
    vmEntryInterruptionInformation := entryInformation vector
    injected := v.injected ++ [getBits (entryInformation vector) 0xFF#64] }

def injectExternalInterrupt (id : BitVec 64) (vector : BitVec 64) : VmmM E Unit :=
  modifyVcpu id (injectVector vector)

def vectorsOf (g : Globals) (id : BitVec 64) : List (BitVec 64) :=
  match g.vcpus id with
  | some v => v.mVectors
  | none => []

/-- `m_vectors.pop_back()`; window exiting goes off unless vectors are left. -/
def popVector (v : Vcpu) : Vcpu :=
  { v with
    mVectors := v.mVectors.dropLast
    interruptWindowExiting := v.interruptWindowExiting && !v.mVectors.dropLast.isEmpty }

/-- The handler and, with `popVector`, the end of `interrupt_window_handler::handle`. -/
def interruptWindowHandler (id : BitVec 64) : VmmM E Unit := do
  let g ← getG
  match (vectorsOf g id).getLast? with
  | none => throw (.fault .emptyVector)
  | some vector =>
    injectExternalInterrupt id vector
    modifyVcpu id popVector

/-- The exit concerns the vCPU the enclave runs on; the identifier is kept as an `int`. -/
def onEnclaveVcpu (g : Globals) (id : BitVec 64) : Prop :=
  g.enclaveRunning = true ∧ id = g.enclaveVcpuid.signExtend 64

instance (g : Globals) (id : BitVec 64) : Decidable (onEnclaveVcpu g id) :=
  inferInstanceAs (Decidable (_ ∧ _))

/-- The first half of `external_interrupt_handler`: the enclave's vCPU stops running the enclave. -/
def pauseEnclave (id : BitVec 64) (guest : GuestState) : VmmM E Unit := do
  let g ← getG
  if onEnclaveVcpu g id then
    readEnclaveChannel ops guest.cr3.toNat guest.lapicSupported
    trapEnclaveEntryNew2m ops
    modifyG fun g => { g with enclaveRunning := false }
  else pure ()

def queueVector (vector : BitVec 64) (v : Vcpu) : Vcpu :=
  { v with interruptWindowExiting := true, mVectors := v.mVectors ++ [vector] }

/-- The second half: the vector is injected, or queued until the guest can take it. -/
def forwardVector (id : BitVec 64) (guest : GuestState) (vector : BitVec 64) : VmmM E Unit :=
  if isInterruptWindowOpen guest then injectExternalInterrupt id vector
  else modifyVcpu id (queueVector vector)

def externalInterruptHandler (id : BitVec 64) (guest : GuestState) (vector : BitVec 64) : VmmM E Unit := do
  pauseEnclave ops id guest
  forwardVector id guest vector

/-! ## ENCLS -/

def enclsBit (leaf : Nat) : BitVec 64 := 1#64 <<< leaf

def withBitmap (bitmap : BitVec 64) (v : Vcpu) : Vcpu := { v with enclsExitingBitmap := bitmap }

def setEnclsExitingBitmap (id : BitVec 64) (bitmap : BitVec 64) : VmmM E Unit :=
  modifyVcpu id (withBitmap bitmap)

/-- What EREMOVE does to the counters after the arrays. -/
def resetTracking (g : Globals) : Globals :=
  { g with
    countGpuBuffers := 0, countGpuPaddrs := 0, countSgxPaddrs := 0, modifiedPages := 0,
    enclaveVcpuid := -1 }

def enclsHandler (id : BitVec 64) (guest : GuestState) : VmmM E Unit := do
  if guest.rax.toNat = eremoveExit then
    modifyG fun g => { g with enclaveRunning := false }
    setEnclsExitingBitmap id (enclsBit einitExit)
    modifyG fun g => { g with currentEnclaveCr3 := 0 }
    let g ← getG
    forFrom (fun i => do
      checkIndex .sgxVaddrs i
      modifyG fun g => { g with sgxVaddrs := Function.update g.sgxVaddrs i 0 }
      checkIndex .sgxPaddrs i
      modifyG fun g => { g with sgxPaddrs := Function.update g.sgxPaddrs i 0 }) 0 g.modifiedPages
    modifyG resetTracking
  else
    modifyG fun g => { g with currentEnclaveCr3 := guest.cr3.toNat, modifiedPages := 0 }
    addEpcAddress2m ops
    modifyG fun g => { g with enclaveRunning := false }
    trapEnclaveEntryNew2m ops
    removePermissionChannel ops
    setEnclsExitingBitmap id (enclsBit eremoveExit)

/-! ## EPT violations -/

def enableMonitorTrapFlag (id : BitVec 64) : VmmM E Unit :=
  modifyVcpu id fun v => { v with monitorTrapFlag := true }

/-- The guest is about to resume the enclave: the instruction bytes are looked for in RIP itself. -/
def resumesEnclave (guest : GuestState) : Prop :=
  enclu = (guest.rip &&& 0xffffff#64).toNat ∧ guest.rax.toNat = eresumeExit

instance (guest : GuestState) : Decidable (resumesEnclave guest) := inferInstanceAs (Decidable (_ ∧ _))

def grantOnResume (guest : GuestState) : VmmM E Unit :=
  if resumesEnclave guest then grantPermissionChannel ops else pure ()

def eptWriteViolationHandler (id : BitVec 64) (guest : GuestState) (gpa : Nat) : VmmM E Unit := do
  grantOnResume ops guest
  grantPermissionChannel ops
  enableMonitorTrapFlag id
  onMap (ops.updateEntry (align gpa 4096) [.enable .write])

def eptReadViolationHandler (id : BitVec 64) (gpa : Nat) : VmmM E Unit := do
  enableMonitorTrapFlag id
  onMap (ops.updateEntry (align gpa 4096) [.enable .read])

def eptExecuteViolationHandler (id : BitVec 64) (guest : GuestState) (gpa : Nat) : VmmM E Unit := do
  modifyG fun g => { g with
    enclaveRunning := true, enclaveVcpuid := id.setWidth 32, enclaveAep := guest.rip.toNat }
  let g ← getG
  forFrom (fun i => do
    checkIndex .sgxPaddrs i
    let g ← getG
    onMap (ops.updateEntry (g.sgxPaddrs i) [.enable .execute])) 0 g.modifiedPages
  onMap (ops.updateEntry (align gpa 4096) [.enable .execute])

/-- `ept_violation_handler::handle`: the first kind of access in the qualification decides. -/
def eptViolationHandle (id : BitVec 64) (guest : GuestState) (qual : BitVec 64) (gpa : Nat) : VmmM E Unit :=
  if isBitSet qual 0 then eptReadViolationHandler ops id gpa
  else if isBitSet qual 1 then eptWriteViolationHandler ops id guest gpa
  else if isBitSet qual 2 then eptExecuteViolationHandler ops id guest gpa
  else throw (.exn "ept_violation_handler::handle: unhandled ept violation")

/-! ## The other exits and the constructor -/

/-- `guard_exceptions` catches what the scan throws. -/
def vmcallHandler (guest : GuestState) : VmmM E Unit :=
  swallow Err.isExn (if guest.rax = 0 then accessAllPml4 guest.cr3.toNat else pure ())

def monitorTrapHandler (id : BitVec 64) : VmmM E Unit :=
  modifyVcpu id fun v => { v with monitorTrapFlag := false }

/-- The VMCS of a new vCPU: ENCLS exits on EINIT and EREMOVE, nothing is pending. -/
def newVcpu : Vcpu where
  enclsExitingBitmap := enclsBit einitExit ||| enclsBit eremoveExit
  mVectors := []
  interruptWindowExiting := false
  monitorTrapFlag := false
  vmEntryInterruptionInformation := 0
  halted := false
  acknowledged := []
  injected := []
  delivered := []

/-- `call_once(flag_epc, …)`. -/
def locateEpcOnce (platform : Platform) : VmmM E Unit :=
  modifyG fun g => if g.flagEpc then g else { locateEpc platform g with flagEpc := true }

/-- `call_once(flag_ept, …)`. -/
def identityMapOnce : VmmM E Unit := do
  let g ← getG
  if g.flagEpt then pure ()
  else
    onMap (ops.identityMap maxPhysAddr)
    modifyG fun g => { g with flagEpt := true }

def constructVcpu (platform : Platform) (id : BitVec 64) : VmmM E Unit := do
  modifyG (setVcpu id (some newVcpu))
  locateEpcOnce platform
  identityMapOnce ops
  removePermissionChannel ops

end Handlers

end Gevisor.Vmm
