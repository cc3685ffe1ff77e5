import Gevisor.Elf.Format
import Gevisor.Lib.Exec

/-! # The ELF loader

`bfelf_file_init` and `private_load_binary`. All of memory can be read and written; the loader records
which parts of it it touches.
-/

namespace Gevisor.Elf

open Lib

inductive Error
  | invalidArgument (msg : String)
  | invalidSignature (msg : String)
  | unsupportedFile (msg : String)
  | outOfMemory (msg : String)
  deriving DecidableEq, Repr

def Error.code : Error → Word
  | .invalidArgument _ => 0x8000000000100000
  | .invalidSignature _ => 0x8000000000500000
  | .unsupportedFile _ => 0x8000000000600000
  | .outOfMemory _ => 0x8000000000E00000

inductive Access
  | read (addr : Word) (len : Nat)
  | write (addr : Word) (len : Nat)
  deriving DecidableEq, Repr

structure Loader where
  memory : Bytes
  binary : Binary
  accesses : List Access := []

/-- A binary as it is before it is loaded: `file` and `file_size` are filled in, the rest is zero. -/
def Loader.fresh (memory : Bytes) (file fileSize : Word) : Loader where
  memory := memory
  binary := { file := file, fileSize := fileSize }

abbrev LoaderM := EStateM Error Loader

/-! ## Memory -/

def load (a : Word) (n : Nat) : LoaderM Word := fun s =>
  .ok (fetch s.memory a n) { s with accesses := .read a n :: s.accesses }

def readField (base : Word) (f : Field) : LoaderM Word := load (base + f.offset) f.size

/-- `platform_memset(dst, 0, n)`. -/
def memset (dst n : Word) : LoaderM Unit := modify fun s => { s with
  memory := fun a => if (a - dst).toNat < n.toNat then 0 else s.memory a
  accesses := .write dst n.toNat :: s.accesses }

/-- `platform_memcpy(dst, src, n)`. -/
def memcpy (dst src n : Word) : LoaderM Unit := modify fun s => { s with
  memory := fun a => if (a - dst).toNat < n.toNat then s.memory (src + (a - dst)) else s.memory a
  accesses := .write dst n.toNat :: .read src n.toNat :: s.accesses }

def getEf : LoaderM File := do
  let s ← get
  pure s.binary.ef

def modifyEf (f : File → File) : LoaderM Unit := modify fun s => { s with
  binary := { s.binary with ef := f s.binary.ef } }

/-! ## The header -/

def readEhdr (f : Field) : LoaderM Word := do
  let ef ← getEf
  readField ef.file f

/-- One check of a header field against the value it must have. -/
def expectField (f : Field) (value : Word) (e : Error) : LoaderM Unit := do
  let found ← readEhdr f
  if found ≠ value then throw e

def privateCheckSignature : LoaderM Unit := do
  expectField (eIdent 0) 0x7F (.invalidSignature "magic #0 has unexpected value")
  expectField (eIdent 1) 0x45 (.invalidSignature "magic #1 has unexpected value")
  expectField (eIdent 2) 0x4C (.invalidSignature "magic #2 has unexpected value")
  expectField (eIdent 3) 0x46 (.invalidSignature "magic #3 has unexpected value")

def privateCheckSupport : LoaderM Unit := do
  expectField (eIdent 4) 2 (.unsupportedFile "file is not 64bit")
  expectField (eIdent 5) 1 (.unsupportedFile "file is not little endian")
  expectField (eIdent 6) 1 (.unsupportedFile "unsupported version")
  expectField (eIdent 7) 0 (.unsupportedFile "file does not use the system v abi")
  expectField (eIdent 8) 0 (.unsupportedFile "unsupported abi version")
  let type ← readEhdr eType
  if type ≠ 3 ∧ type ≠ 2 then throw (.unsupportedFile "file must be an executable or shared library")
  expectField eMachine 62 (.unsupportedFile "file must be compiled for x86_64")
  expectField eVersion 1 (.unsupportedFile "unsupported version")
  expectField eFlags 0 (.unsupportedFile "unsupported flags")

/-! ## Segments -/

def processSegment (i : Nat) : LoaderM Unit := do
  let ef ← getEf
  let phdr := ef.phdrtab + phdrSize * BitVec.ofNat 64 i
  let type ← readField phdr pType
  if type = ptLoad then
    if ef.loadableSegments.length < maxSegments then
      let vaddr ← readField phdr pVaddr
      let memsz ← readField phdr pMemsz
      modifyEf fun ef => { ef with
        totalMemsz := vaddr + memsz
        loadableSegments := ef.loadableSegments ++ [phdr] }
  else if type = ptDynamic then
    let offset ← readField phdr pOffset
    let filesz ← readField phdr pFilesz
    modifyEf fun ef => { ef with dynoff := offset, dynnum := filesz / dynSize }
  else if type = ptGnuStack then
    let flags ← readField phdr pFlags
    modifyEf fun ef => { ef with stackFlags := flags }
  else if type = ptGnuRelro then
    let vaddr ← readField phdr pVaddr
    let memsz ← readField phdr pMemsz
    modifyEf fun ef => { ef with relaroVaddr := vaddr, relaroMemsz := memsz }

def addLoadInstr (i : Nat) : LoaderM Unit := do
  let ef ← getEf
  let phdr := ef.loadableSegments.getD i 0
  let perm ← readField phdr pFlags
  let vaddr ← readField phdr pVaddr
  let offset ← readField phdr pOffset
  let memsz ← readField phdr pMemsz
  let filesz ← readField phdr pFilesz
  modifyEf fun ef => { ef with
    loadInstr := ef.loadInstr ++ [{
      perm := perm
      memOffset := vaddr - ef.startAddr
      fileOffset := offset
      memsz := memsz
      filesz := filesz
      virtAddr := vaddr }] }

def privateProcessSegments : LoaderM Unit := do
  let phnum ← readEhdr ePhnum
  forFrom processSegment 0 phnum.toNat
  let ef ← getEf
  if 0 < ef.loadableSegments.length then
    let start ← readField (ef.loadableSegments.getD 0 0) pVaddr
    modifyEf fun ef => { ef with startAddr := start, totalMemsz := ef.totalMemsz - start }
  forFrom addLoadInstr 0 ef.loadableSegments.length

/-! ## The dynamic section -/

/-- Whether the table ends at the entry. -/
def processDynamicEntry (dyn : Word) : LoaderM Bool := do
  let tag ← readField dyn dTag
  if tag = dtNull then pure true
  else if tag = dtNeeded then
    let ef ← getEf
    if ef.needed.length < maxNeeded then
      let val ← readField dyn dVal
      modifyEf fun ef => { ef with needed := ef.needed ++ [val] }
    pure false
  else match dynamicEntry tag with
    | none => pure false
    | some store => do
      let val ← readField dyn dVal
      modifyEf (store val)
      pure false

def processDynamicEntries : Nat → Word → LoaderM Unit
  | 0, _ => pure ()
  | n + 1, dyn => do
    let done ← processDynamicEntry dyn
    if done then pure () else processDynamicEntries n (dyn + dynSize)

def privateProcessDynamicSection : LoaderM Unit := do
  let ef ← getEf
  if ef.dynnum = 0 ∨ ef.dynoff = 0 then pure ()
  else
    modifyEf fun ef => { ef with needed := [], dyntab := ef.file + ef.dynoff }
    processDynamicEntries ef.dynnum.toNat (ef.file + ef.dynoff)

/-! ## Sections -/

/-- `private_strcmp` with a string that is not in the file. -/
def privateStrcmp (s1 : Word) : List Byte → LoaderM Bool
  | [] => do
    let c ← load s1 1
    pure (c = 0)
  | c2 :: s2 => do
    let c ← load s1 1
    if c ≠ 0 ∧ c = c2.setWidth 64 then privateStrcmp (s1 + 1) s2 else pure (c = c2.setWidth 64)

/-- The comparisons of one section's name, up to the first match. -/
def findSection (shdr name : Word) : List (List Byte × (Word → Word → File → File)) → LoaderM Unit
  | [] => pure ()
  | (s2, store) :: rest => do
    let same ← privateStrcmp name s2
    if same then
      let addr ← readField shdr shAddr
      let size ← readField shdr shSize
      modifyEf (store addr size)
    else findSection shdr name rest

def processSection (i : Nat) : LoaderM Unit := do
  let ef ← getEf
  let shdr := ef.shdrtab + shdrSize * BitVec.ofNat 64 i
  let name ← readField shdr shName
  findSection shdr (ef.shstrtab + name) namedSections

/-! ## `bfelf_file_init` -/

/-- The first half: the file is not empty, and its header is that of a file which can be loaded. -/
def checkFile (file filesz : Word) : LoaderM Unit := do
  if file = 0 then throw (.invalidArgument "file == nullptr")
  if filesz < ehdrSize then throw (.invalidArgument "filesz invalid")
  modifyEf fun ef => { ef with file := file, filesz := filesz }
  let phoff ← readEhdr ePhoff
  let shoff ← readEhdr eShoff
  modifyEf fun ef => { ef with phdrtab := file + phoff, shdrtab := file + shoff }
  privateCheckSignature
  privateCheckSupport

/-- The second half, which cannot fail. -/
def processFile (file : Word) : LoaderM Unit := do
  privateProcessSegments
  privateProcessDynamicSection
  let entry ← readEhdr eEntry
  let shstrndx ← readEhdr eShstrndx
  let ef ← getEf
  let names ← readField (ef.shdrtab + shdrSize * shstrndx) shOffset
  modifyEf fun ef => { ef with entry := entry, shstrtab := file + names }
  let shnum ← readEhdr eShnum
  forFrom processSection 0 shnum.toNat
  modifyEf fun ef => { ef with strtab := ef.strtabOffset + file }

def fileInit (file filesz : Word) : LoaderM Unit := do
  checkFile file filesz
  processFile file

/-! ## `private_load_binary` -/

def copySegment (i : Nat) : LoaderM Unit := do
  let s ← get
  match s.binary.ef.loadInstr[i]? with
  | none => pure ()
  | some instr => memcpy (s.binary.exec + instr.memOffset) (s.binary.file + instr.fileOffset) instr.filesz

/-- A file that has been initialised before is not initialised again. -/
def initBinary : LoaderM Unit := do
  let s ← get
  if s.binary.ef.file = 0 then fileInit s.binary.file s.binary.fileSize

/-- The image of an initialised file; `alloc` is `platform_alloc_rwe`. -/
def placeBinary (alloc : Word → Word) : LoaderM Unit := do
  let ef ← getEf
  let exec := alloc ef.totalMemsz
  modify fun s => { s with binary := { s.binary with execSize := ef.totalMemsz, exec := exec } }
  if exec = 0 then throw (.outOfMemory "unable to allocate exec RWE memory")
  memset exec ef.totalMemsz
  forFrom copySegment 0 ef.loadInstr.length

def privateLoadBinary (alloc : Word → Word) : LoaderM Unit := do
  initBinary
  placeBinary alloc

theorem copySegment_binary (b : Binary) (i : Nat) : Preserves (fun s => s.binary = b) (copySegment i) := by
  refine Preserves.bind Preserves.get fun s => ?_
  split
  · exact Preserves.pure ()
  · exact Preserves.modify fun _ same => same

/-- An initialised binary whose image has been allocated. -/
def Loader.allocated (s : Loader) (alloc : Word → Word) : Loader := { s with
  binary := { s.binary with execSize := s.binary.ef.totalMemsz, exec := alloc s.binary.ef.totalMemsz } }

theorem placeBinary_eq (alloc : Word → Word) (s : Loader) :
    placeBinary alloc s = (if alloc s.binary.ef.totalMemsz = 0 then do
        throw (.outOfMemory "unable to allocate exec RWE memory")
        memset (alloc s.binary.ef.totalMemsz) s.binary.ef.totalMemsz
        forFrom copySegment 0 s.binary.ef.loadInstr.length
      else do
        memset (alloc s.binary.ef.totalMemsz) s.binary.ef.totalMemsz
        forFrom copySegment 0 s.binary.ef.loadInstr.length : LoaderM Unit) (s.allocated alloc) := rfl

variable {alloc : Word → Word} {s : Loader}

theorem placeBinary_of_eq (hfa : alloc s.binary.ef.totalMemsz = 0) :
    placeBinary alloc s = .error (.outOfMemory "unable to allocate exec RWE memory") (s.allocated alloc) := by
  rw [placeBinary_eq, if_pos hfa]
  rfl

/-- The image is cleared and then copied to. -/
theorem placeBinary_of_ne (hs : alloc s.binary.ef.totalMemsz ≠ 0) : placeBinary alloc s = (do
        memset (alloc s.binary.ef.totalMemsz) s.binary.ef.totalMemsz
        forFrom copySegment 0 s.binary.ef.loadInstr.length : LoaderM Unit) (s.allocated alloc) := by
  rw [placeBinary_eq, if_neg hs]

/-- A binary that is placed has an image. -/
theorem placeBinary_binary (alloc : Word → Word) (s : Loader) :
    wp (placeBinary alloc) (fun _ t => t.binary = (s.allocated alloc).binary ∧ t.binary.exec ≠ 0) (fun _ _ => True) s := by
  by_cases hfa : alloc s.binary.ef.totalMemsz = 0
  · rw [wp, placeBinary_of_eq hfa]
    trivial
  · rw [wp, placeBinary_of_ne hfa, ← wp, wp_bind, memset, wp_modify]
    refine wp_mono (fun _ t same => ⟨same, ?_⟩) (fun _ _ _ => trivial) (Preserves.forFrom (copySegment_binary _) 0 _ _ rfl)
    rw [same]
    exact hfa

theorem placeBinary_exec (alloc : Word → Word) (s : Loader) :
    wp (placeBinary alloc) (fun _ t => t.binary.exec ≠ 0) (fun _ _ => True) s :=
  wp_mono (fun _ _ hp => hp.2) (fun _ _ _ => trivial) (placeBinary_binary alloc s)

end Gevisor.Elf
