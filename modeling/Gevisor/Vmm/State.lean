import Gevisor.Ept.IdentityMap

/-! # The state of GEVisor

The globals of `vcpu_factory_hook.cpp` and `paging_utils.h`, the VMCS fields of each vCPU that the
handlers use, and guest memory. The handlers are written over any representation of `g_guest_map` that
offers the operations they use.
-/

namespace Gevisor.Vmm

open Gevisor.Lib
open Gevisor.Ept

def sgxPages : Nat := 100000

def gpuBufferNum : Nat := 100

def gpuPaddrNum : Nat := 1024 * 1024

def maxPhysAddr : Nat := 0x1200000000

def einitExit : Nat := 0x02

def eremoveExit : Nat := 0x03

def eresumeExit : Nat := 0x03

def enclu : Nat := 0xd7010f

/-- `ALIGN(x, a)`. -/
def align (x a : Nat) : Nat := x / a * a

/-- How many elements the array has. -/
def arrayLength : TrackingArray → Nat
  | .sgxPaddrs => sgxPages
  | .sgxVaddrs => sgxPages
  | .sgxGuestPteShadow => sgxPages
  | .gpuBuffers => gpuBufferNum
  | .gpuPaddrs => gpuPaddrNum

/-- `gpu_buffer_t`. -/
structure GpuBuffer where
  vaddr : Nat
  paddr : Nat
  size : Nat
  numPages : Nat
  deriving DecidableEq, Repr

/-- Guest-physical memory: the words of each page, by the page's address. -/
abbrev GuestMem := Nat → Fin 512 → BitVec 64

/-- What each vCPU has of its own. The last three fields record what happened to interrupts; no code
reads them. -/
structure Vcpu where
  enclsExitingBitmap : BitVec 64
  mVectors : List (BitVec 64)
  interruptWindowExiting : Bool
  monitorTrapFlag : Bool
  vmEntryInterruptionInformation : BitVec 64
  halted : Bool
  acknowledged : List (BitVec 64)
  injected : List (BitVec 64)
  delivered : List (BitVec 64)
  deriving DecidableEq, Repr

structure Globals where
  epcBaseAddress : Nat
  epcSize : Nat
  sgxPaddrs : Nat → Nat
  sgxVaddrs : Nat → Nat
  sgxGuestPteShadow : Nat → Entry
  countSgxPaddrs : Nat
  modifiedPages : Nat
  gpuBuffers : Nat → GpuBuffer
  countGpuBuffers : Nat
  gpuPaddrs : Nat → Nat
  countGpuPaddrs : Nat
  channelPaddr : Nat
  channelMap : Option Nat
  currentEnclaveCr3 : Nat
  enclaveVcpuid : BitVec 32
  enclaveAep : Nat
  enclaveRunning : Bool
  flagEpc : Bool
  flagEpt : Bool
  mem : GuestMem
  vcpus : BitVec 64 → Option Vcpu

structure Machine (E : Type) where
  guestMap : E
  g : Globals

abbrev VmmM (E : Type) := EStateM Err (Machine E)

/-- The operations on `g_guest_map`. -/
structure EptOps (E : Type) where
  leafFrom : Nat → EStateM Err E Nat
  entryValue : Nat → EStateM Err E Entry
  updateEntry : Nat → List Change → EStateM Err E Unit
  convert4kTo2m : Nat → EStateM Err E Unit
  identityMap : Nat → EStateM Err E Unit

/-- `ept::mmap`. -/
def mmapOps (mm : PagePool) (mtrrs : Mtrrs) : EptOps Mmap where
  leafFrom := leafFrom mm
  entryValue := entryValue mm
  updateEntry := updateEntry mm
  convert4kTo2m addr := identityMapConvert4kTo2m mm addr .readWriteExecute .writeBack
  identityMap eaddr := identityMap mm mtrrs 0 eaddr .readWriteExecute

/-- The partial function. -/
def addrMapOps (mtrrs : Mtrrs) : EptOps AddrMap where
  leafFrom := AddrMap.leafFrom
  entryValue := AddrMap.entryValue
  updateEntry := AddrMap.updateEntry
  convert4kTo2m := AddrMap.convert4kTo2m
  identityMap eaddr := set (AddrMap.identity mtrrs.ranges .readWriteExecute eaddr)

section Access

variable {E : Type}

def getG : VmmM E Globals := fun s => .ok s.g s

def modifyG (f : Globals → Globals) : VmmM E Unit := fun s => .ok () { s with g := f s.g }

def onMap {α : Type} (c : EStateM Err E α) : VmmM E α :=
  zoom Machine.guestMap (fun m s => { s with guestMap := m }) c

/-- Every access to a tracking array is made through this check. -/
def checkIndex (a : TrackingArray) (i : Nat) : VmmM E Unit :=
  if i < arrayLength a then pure () else throw (.fault (.outOfBounds a i))

def setVcpu (id : BitVec 64) (v : Option Vcpu) (g : Globals) : Globals :=
  { g with vcpus := Function.update g.vcpus id v }

variable (v w : Option Vcpu) (g : Globals) (id : BitVec 64)

theorem setVcpu_same : (setVcpu id v g).vcpus id = v :=
  Function.update_self ..

theorem setVcpu_other {id j : BitVec 64} (ho : j ≠ id) (v : Option Vcpu) (g : Globals) :
    (setVcpu id v g).vcpus j = g.vcpus j :=
  Function.update_of_ne ho ..

/-- A property of all vCPUs is kept if the vCPU that changes gets it. -/
theorem forall_setVcpu {p : Vcpu → Prop} {g : Globals} (all : ∀ j v, g.vcpus j = some v → p v) {id : BitVec 64}
    {w : Option Vcpu} (new : ∀ v, w = some v → p v) (j : BitVec 64) (v : Vcpu)
    (hk : (setVcpu id w g).vcpus j = some v) : p v := by
  by_cases same : j = id
  · rw [same, setVcpu_same] at hk
    exact new v hk
  · rw [setVcpu_other same] at hk
    exact all j v hk

/-- Changes the VMCS of vCPU `id`. -/
def modifyVcpu (id : BitVec 64) (f : Vcpu → Vcpu) : VmmM E Unit :=
  modifyG fun g => setVcpu id ((g.vcpus id).map f) g

section Rules

variable {Q : Unit → Machine E → Prop} {X : Err → Machine E → Prop} {s : Machine E}

@[simp] theorem wp_getG {Q : Globals → Machine E → Prop} : wp getG Q X s ↔ Q s.g s := Iff.rfl

@[simp] theorem wp_modifyG (f : Globals → Globals) : wp (modifyG f) Q X s ↔ Q () { s with g := f s.g } := Iff.rfl

@[simp] theorem wp_modifyVcpu (id : BitVec 64) (f : Vcpu → Vcpu) :
    wp (modifyVcpu id f) Q X s ↔ Q () { s with g := setVcpu id ((s.g.vcpus id).map f) s.g } :=
  Iff.rfl

theorem wp_checkIndex (a : TrackingArray) (i : Nat) : wp (checkIndex a i) Q X s ↔
      if i < arrayLength a then Q () s else X (.fault (.outOfBounds a i)) s := by
  rw [checkIndex, wp_ite]
  rfl

/-- Operations on the map leave the globals alone. -/
theorem onMap_globals {α : Type} (p : Globals → Prop) (c : EStateM Err E α) :
    Preserves (fun s => p s.g) (onMap c) := by
  intro s h
  rw [onMap, wp_zoom, wp]
  cases c s.guestMap <;> exact h

end Rules

end Access

end Gevisor.Vmm
