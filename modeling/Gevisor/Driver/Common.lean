import Gevisor.Elf.Loader

/-! # The driver

`bfdriver/src/common.c`. The operating system and the VMM are a `Platform`: what they answer is an arbitrary
function of everything that has happened so far. What the driver asks of them is kept in a log.
-/

namespace Gevisor.Driver

open Lib
open Elf (Word Bytes Binary)

/-! ## The platform -/

/-- `platform_alloc_rw` and `platform_alloc_rwe`. -/
inductive Pool
  | rw
  | rwe
  deriving DecidableEq, Repr

structure Buffer where
  pool : Pool
  ptr : Word
  size : Word
  deriving DecidableEq, Repr

structure MemoryDescriptor where
  phys : Word
  virt : Word
  type : Word
  deriving DecidableEq, Repr

/-- The requests to the VMM, with their first argument. -/
inductive Request
  | init
  | fini
  | vmmInit (cpuid : Word)
  | vmmFini (cpuid : Word)
  | addMdl (md : MemoryDescriptor)
  | setRsdp (rsdp : Word)
  deriving DecidableEq, Repr

inductive Event
  /-- The pointer is null if the allocation failed. -/
  | alloc (buffer : Buffer)
  | free (buffer : Buffer)
  | call (cpuid : Nat) (request : Request) (ret : Word)
  deriving DecidableEq, Repr

structure Platform where
  numCpus : Nat
  alloc : List Event → Pool → Word → Word
  virtToPhys : List Event → Word → Word
  getRsdp : List Event → Word
  callVmmOnCore : List Event → Nat → Request → Word
  /-- What is in memory, the module files included. -/
  memory : List Event → Bytes
  /-- The result of `bfelf_loader_relocate`. -/
  relocate : List Event → Word
  /-- How often the page loop may run before the call counts as one that does not return. -/
  patience : Nat

/-! ## State -/

inductive Status
  | unloaded
  | loaded
  | running
  | corrupt
  deriving DecidableEq, Repr

/-- The variables of `common.c`, with the log. -/
structure Globals where
  modules : List Binary := []
  numCpusStarted : Nat := 0
  status : Status := .unloaded
  tls : Word := 0
  stack : Word := 0
  tlsSize : Word := 0
  stackSize : Word := 0
  stackTop : Word := 0
  rsdp : Word := 0
  log : List Event := []

/-- How a call ends other than with `BF_SUCCESS`. -/
inductive Exit
  | returned (ret : Word)
  | hangs
  deriving DecidableEq, Repr

abbrev DriverM := EStateM Exit Globals

def success : Word := 0
def invalidArg : Word := 0x8000000010000000
def noModulesAdded : Word := 0x8000000030000000
def maxModulesReached : Word := 0x8000000040000000
def vmmInvalidState : Word := 0x8000000050000000
def outOfMemory : Word := 0x8000000080000000
def vmmCorrupted : Word := 0x8000000090000000

/-- `BFELF_ERROR_INVALID_ARG`. -/
def elfInvalidArg : Word := 0x8000000000100000

def maxNumModules : Nat := 75
def stackBytes : Word := 0x8000
def threadLocalStorageSize : Word := 0x1000
def pageSize : Word := 0x1000

def memoryTypeR : Word := 1
def memoryTypeW : Word := 2
def memoryTypeE : Word := 4

/-- `bfpf_x`. -/
def executable : Word := 1

section

variable (P : Platform)

def fail (ret : Word) : DriverM Unit := throw (.returned ret)

def platformAlloc (pool : Pool) (size : Word) : DriverM Word := fun d =>
  .ok (P.alloc d.log pool size) { d with log := .alloc ⟨pool, P.alloc d.log pool size, size⟩ :: d.log }

def platformFree (pool : Pool) (ptr size : Word) : DriverM Unit :=
  modify fun d => { d with log := .free ⟨pool, ptr, size⟩ :: d.log }

def platformCallVmmOnCore (cpuid : Nat) (request : Request) : DriverM Word := fun d =>
  .ok (P.callVmmOnCore d.log cpuid request)
    { d with log := .call cpuid request (P.callVmmOnCore d.log cpuid request) :: d.log }

/-- A call whose failure is returned. -/
def callVmm (cpuid : Nat) (request : Request) : DriverM Unit := do
  let ret ← platformCallVmmOnCore P cpuid request
  if ret ≠ success then fail ret

/-- `goto failure`: `cleanup` runs, its own result is ignored, and the first failure is returned. -/
def onFailure (c cleanup : DriverM Unit) : DriverM Unit := fun d =>
  match c d with
  | .ok a t => .ok a t
  | .error .hangs t => .error .hangs t
  | .error (.returned ret) t => match cleanup t with
    | .ok _ u => .error (.returned ret) u
    | .error (.returned _) u => .error (.returned ret) u
    | .error .hangs u => .error .hangs u

/-- The result of `c` is ignored. -/
def ignoreResult (c : DriverM Unit) : DriverM Unit := swallow (· ≠ .hangs) c

/-! ## Helpers -/

def privateSetupStack : DriverM Unit := do
  modify fun d => { d with stackSize := stackBytes * 2 }
  let stack ← platformAlloc P .rw (stackBytes * 2)
  modify fun d => { d with stack := stack }
  if stack = 0 then fail outOfMemory
  modify fun d => { d with stackTop := ((stack + stackBytes * 2) &&& ~~~(stackBytes - 1)) - 1 }

def privateSetupTls : DriverM Unit := do
  let size := threadLocalStorageSize * BitVec.ofNat 64 P.numCpus
  modify fun d => { d with tlsSize := size }
  let tls ← platformAlloc P .rw size
  modify fun d => { d with tls := tls }
  if tls = 0 then fail outOfMemory

def privateSetupRsdp : DriverM Unit := modify fun d => { d with rsdp := P.getRsdp d.log }

def privateAddRawMdToMemoryManager (virt type : Word) : DriverM Unit := do
  let d ← get
  callVmm P 0 (.addMdl { phys := P.virtToPhys d.log virt, virt := virt, type := type })

/-- The pages from `execS` up to the one at `execE`; the addresses wrap around. -/
def addPages (type execE : Word) : Nat → Word → DriverM Unit
  | 0, _ => throw .hangs
  | fuel + 1, execS => do
    if execS ≤ execE then
      privateAddRawMdToMemoryManager P execS type
      addPages type execE fuel (execS + pageSize)

def addSegment (module : Binary) (i : Nat) : DriverM Unit :=
  match module.ef.loadInstr[i]? with
  | none => pure ()
  | some instr => addPages P
      (if instr.perm &&& executable ≠ 0 then memoryTypeR ||| memoryTypeE else memoryTypeR ||| memoryTypeW)
      ((module.exec + instr.memOffset + instr.memsz) &&& ~~~(pageSize - 1))
      P.patience ((module.exec + instr.memOffset) &&& ~~~(pageSize - 1))

def privateAddMdToMemoryManager (module : Binary) : DriverM Unit :=
  forFrom (addSegment P module) 0 module.ef.loadInstr.length

def privateAddTssMdl : DriverM Unit := do
  let d ← get
  forFrom (fun i => privateAddRawMdToMemoryManager P (d.tls + pageSize * BitVec.ofNat 64 i) (memoryTypeR ||| memoryTypeW))
    0 ((d.tlsSize.toNat + 4095) / 4096)

def addModule (i : Nat) : DriverM Unit := do
  let d ← get
  privateAddMdToMemoryManager P (d.modules.getD i {})

def privateAddModulesMdl : DriverM Unit := do
  let d ← get
  forFrom (addModule P) 0 d.modules.length

/-! ## Modules -/

/-- `private_load_binary(&g_modules[i])`. Only the file structure of a module whose initialisation fails
has been written to. -/
def privateLoadBinary (i : Nat) : DriverM Unit := fun d =>
  let module := d.modules.getD i {}
  match Elf.initBinary { memory := P.memory d.log, binary := module } with
  | .error e t =>
    .error (.returned e.code) { d with modules := d.modules.set i { module with ef := t.binary.ef } }
  | .ok _ t =>
    match Elf.placeBinary (P.alloc d.log .rwe) { t with binary := { module with ef := t.binary.ef } } with
    | .error e u => .error (.returned e.code) { d with
        modules := d.modules.set i u.binary
        log := .alloc ⟨.rwe, u.binary.exec, u.binary.execSize⟩ :: d.log }
    | .ok _ u => .ok () { d with
        modules := d.modules.set i u.binary
        log := .alloc ⟨.rwe, u.binary.exec, u.binary.execSize⟩ :: d.log }

def bfelfLoad : DriverM Unit := do
  let d ← get
  if d.modules.length = 0 ∨ maxNumModules ≤ d.modules.length then fail elfInvalidArg
  else do
    forFrom (privateLoadBinary P) 0 d.modules.length
    let d ← get
    if P.relocate d.log ≠ success then fail (P.relocate d.log)

def freeModule (module : Binary) : DriverM Unit :=
  if module.exec ≠ 0 then platformFree .rwe module.exec module.execSize else pure ()

def freeModules : List Binary → DriverM Unit
  | [] => pure ()
  | module :: rest => do
    freeModule module
    freeModules rest

def commonReset : DriverM Unit := do
  let d ← get
  freeModules d.modules
  modify fun d => { d with modules := [], numCpusStarted := 0, status := .unloaded }
  if d.tls ≠ 0 then platformFree .rw d.tls d.tlsSize
  if d.stack ≠ 0 then platformFree .rw d.stack d.stackSize
  modify fun d => { d with tls := 0, stack := 0, stackTop := 0, rsdp := 0 }

/-! ## Calls -/

def commonAddModule (file fsize : Word) : DriverM Unit := do
  if file = 0 ∨ fsize = 0 then fail invalidArg
  else
    let d ← get
    match d.status with
    | .corrupt => fail vmmCorrupted
    | .loaded => fail vmmInvalidState
    | .running => fail vmmInvalidState
    | .unloaded =>
      if maxNumModules ≤ d.modules.length then fail maxModulesReached
      else modify fun d => { d with modules := d.modules ++ [{ file := file, fileSize := fsize }] }

def commonUnloadVmm : DriverM Unit := do
  let d ← get
  match d.status with
  | .corrupt => fail vmmCorrupted
  | .running => fail vmmInvalidState
  | .unloaded => commonReset
  | .loaded => do
    let ret ← platformCallVmmOnCore P 0 .fini
    if ret ≠ success then
      modify fun d => { d with status := .corrupt }
      fail ret
    else commonReset

/-- The first part of loading, up to the initialisation of the runtime. -/
def loadBegin : DriverM Unit := do
  privateSetupStack P
  privateSetupTls P
  privateSetupRsdp P
  bfelfLoad P
  callVmm P 0 .init

/-- The rest, which describes the memory to the initialised runtime. -/
def loadEnd : DriverM Unit := do
  let d ← get
  callVmm P 0 (.setRsdp d.rsdp)
  privateAddModulesMdl P
  privateAddTssMdl P
  modify fun d => { d with status := .loaded }

def commonLoadVmm : DriverM Unit := do
  let d ← get
  match d.status with
  | .corrupt => fail vmmCorrupted
  | .loaded => pure ()
  | .running => fail vmmInvalidState
  | .unloaded =>
    if d.modules.length = 0 then fail noModulesAdded
    else onFailure (do loadBegin P; loadEnd P) (commonUnloadVmm P)

/-- The loop of `common_stop_vmm`, from the last started CPU down. -/
def stopCpus : Nat → DriverM Unit
  | 0 => modify fun d => { d with status := .loaded }
  | cpuid + 1 => do
    let ret ← platformCallVmmOnCore P cpuid (.vmmFini (BitVec.ofNat 64 cpuid))
    if ret ≠ success then
      modify fun d => { d with status := .corrupt }
      fail ret
    else
      modify fun d => { d with numCpusStarted := d.numCpusStarted - 1 }
      stopCpus cpuid

def commonStopVmm : DriverM Unit := do
  let d ← get
  match d.status with
  | .corrupt => fail vmmCorrupted
  | .unloaded => fail vmmInvalidState
  | _ => stopCpus P d.numCpusStarted

def startCpu (cpuid : Nat) : DriverM Unit := do
  callVmm P cpuid (.vmmInit (BitVec.ofNat 64 cpuid))
  modify fun d => { d with numCpusStarted := d.numCpusStarted + 1 }

def commonStartVmm : DriverM Unit := do
  let d ← get
  match d.status with
  | .corrupt => fail vmmCorrupted
  | .running => pure ()
  | .unloaded => fail vmmInvalidState
  | .loaded => do
    modify fun d => { d with numCpusStarted := 0 }
    onFailure (forFrom (startCpu P) 0 P.numCpus) (commonStopVmm P)
    modify fun d => { d with status := .running }

def commonFini : DriverM Unit := do
  let d ← get
  if d.status = .running then ignoreResult (commonStopVmm P)
  let d ← get
  if d.status = .loaded then ignoreResult (commonUnloadVmm P)
  let d ← get
  if d.status = .corrupt then fail vmmCorrupted
  else if 0 < d.modules.length then commonReset

end

end Gevisor.Driver
