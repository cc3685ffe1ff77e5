import Gevisor.Elf.Words
import Gevisor.Elf.Symbols

/-! # Relocating

`bfelf_loader_relocate` for x64. The relocator works on the images themselves, so the memory from which it
reads its tables is the one it writes.
-/

namespace Gevisor.Elf

def rOffset : Field := ⟨0, 8⟩
def rInfo : Field := ⟨8, 8⟩
def rAddend : Field := ⟨16, 8⟩

def relSym (info : Word) : Word := info >>> 32

def relType (info : Word) : Word := info &&& 0xffffffff

def rX8664 : Word := 1
def rX8664GlobDat : Word := 6
def rX8664JumpSlot : Word := 7
def rX8664Relative : Word := 8

abbrev Relocating := EStateM RelocError Bytes

def write (p value : Word) : Relocating Unit := modify fun memory => store memory p value

/-- A look-up in the memory as it is. -/
def lookUp (f : Bytes → Except RelocError α) : Relocating α := do
  match f (← get) with
  | .ok a => pure a
  | .error e => throw e

/-- Where the symbol of a relocation is found: the file and its symbol. `k` is the number of the file that is
being relocated. -/
def findSymbol (limit : Nat) (efs : List AddedFile) (k : Nat) (ef : AddedFile) (info : Word) (memory : Bytes) :
    Except RelocError (AddedFile × Word) :=
  let sym := symbol ef (relSym info)
  let weak := isWeak memory sym
  if field memory sym stValue = 0 ∨ weak then
    privateGetSymGlobal memory limit efs (symbolName memory ef sym) (if weak then none else some k)
  else .ok (ef, sym)

def privateRelocateSymbol (limit : Nat) (efs : List AddedFile) (k : Nat) (ef : AddedFile) (rela : Word) :
    Relocating Unit := do
  let memory ← get
  let ptr := ef.execAddr + field memory rela rOffset - ef.startAddr
  if relType (field memory rela rInfo) = rX8664Relative then
    write ptr (ef.execVirt + field memory rela rAddend)
  else do
    let (foundEf, foundSym) ← lookUp (findSymbol limit efs k ef (field memory rela rInfo))
    write ptr (foundEf.execVirt + field memory foundSym stValue)
    -- The entry is read again after the word has been written.
    let memory ← get
    let type := relType (field memory rela rInfo)
    if type = rX8664 then write ptr (fetch memory ptr 8 + field memory rela rAddend)
    else if type = rX8664GlobDat ∨ type = rX8664JumpSlot then pure ()
    else throw .unsupportedRela

/-- The loop over the `num` entries at `tab` from entry `i` on, a 32-bit number. -/
def relocateFrom (limit : Nat) (efs : List AddedFile) (k : Nat) (ef : AddedFile) (num tab : Word) :
    Nat → Word → Relocating Unit
  | 0, _ => throw .running
  | n + 1, i =>
    if i < num then do
      privateRelocateSymbol limit efs k ef (tab + relaSize * i)
      relocateFrom limit efs k ef num tab n ((i + 1) &&& 0xffffffff)
    else pure ()

def privateRelocateSymbols (limit : Nat) (efs : List AddedFile) (k : Nat) (ef : AddedFile) : Relocating Unit := do
  relocateFrom limit efs k ef ef.relanumDyn ef.relatabDyn limit 0
  relocateFrom limit efs k ef ef.relanumPlt ef.relatabPlt limit 0

/-- The loop of `bfelf_loader_relocate` over the files from number `k` on. -/
def relocateFiles (limit : Nat) (efs : List AddedFile) : List AddedFile → Nat → Relocating Unit
  | [], _ => pure ()
  | ef :: rest, k => do
    privateRelocateSymbols limit efs k ef
    relocateFiles limit efs rest (k + 1)

def bfelfLoaderRelocate (limit : Nat) (loader : ElfLoader) : Relocating ElfLoader :=
  if loader.relocated = 1 then pure loader
  else do
    relocateFiles limit loader.efs loader.efs 0
    pure { loader with relocated := 1 }

end Gevisor.Elf
