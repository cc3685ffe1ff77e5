import Gevisor.Elf.Layout

/-! # Symbols

Looking symbols up in the tables of the files that have been added to a loader. The loops over strings and
hash chains end where the tables say so; `limit` bounds how far they are followed, and a look-up that has
not ended by then is still `running`.
-/

namespace Gevisor.Elf

/-! ## The tables -/

def symSize : Word := 24

def stName : Field := ⟨0, 4⟩
def stInfo : Field := ⟨4, 1⟩
def stValue : Field := ⟨8, 8⟩

def stbWeak : Word := 2

/-- The fields of `bfelf_file_t` that look-ups and relocations use, as `bfelf_loader_add` leaves them. -/
structure AddedFile where
  execAddr : Word
  execVirt : Word
  startAddr : Word
  hash : Word
  nbucket : Word
  nchain : Word
  bucket : Word
  chain : Word
  strtab : Word
  symtab : Word
  symnum : Word
  relanumDyn : Word
  relatabDyn : Word
  relanumPlt : Word
  relatabPlt : Word
  deriving DecidableEq, Repr

/-- `bfelf_loader_t`. -/
structure ElfLoader where
  efs : List AddedFile := []
  relocated : BitVec 32 := 0
  deriving DecidableEq, Repr

def maxNumModules : Nat := 75

/-- What `bfelf_loader_add` makes of a file: the addresses of its tables become those in the loaded image.
Where the file is not position independent, its `exec_virt` stays what it was. -/
def placed (memory : Bytes) (ef : File) (oldVirt execAddr execVirt : Word) : AddedFile :=
  let start := execAddr - ef.startAddr
  let hash := ef.hash + start
  let strtab := ef.strtabOffset + start
  let symtab := ef.symtab + start
  let nbucket := fetch memory hash 4
  { execAddr := execAddr
    execVirt := if ef.startAddr = 0 then execVirt else oldVirt
    startAddr := ef.startAddr
    hash := hash
    nbucket := nbucket
    nchain := fetch memory (hash + 4) 4
    bucket := hash + 8
    -- The index `2 + nbucket` is a 32-bit number.
    chain := hash + 4 * ((2 + nbucket) &&& 0xffffffff)
    strtab := strtab
    symtab := symtab
    symnum := (strtab - symtab) / symSize
    relanumDyn := ef.relanumDyn
    relatabDyn := ef.relatabDyn + start
    relanumPlt := ef.relanumPlt
    relatabPlt := ef.relatabPlt + start }

inductive AddError
  | invalidArgument
  | loaderFull
  deriving DecidableEq, Repr

/-- `added` and `oldVirt` are the fields `added` and `exec_virt` of the file before the call. -/
def bfelfLoaderAdd (memory : Bytes) (loader : ElfLoader) (ef : File) (added : BitVec 32)
    (oldVirt execAddr execVirt : Word) : Except AddError ElfLoader :=
  if execAddr = 0 then .error .invalidArgument
  else if maxNumModules ≤ loader.efs.length then .error .loaderFull
  else if added ≠ 0 then .error .invalidArgument
  else .ok { loader with efs := loader.efs ++ [placed memory ef oldVirt execAddr execVirt] }

theorem placed_of_add {memory : Bytes} {loader loader' : ElfLoader} {file : File} {added : BitVec 32}
    {oldVirt execAddr execVirt : Word} {ef : AddedFile}
    (adds : bfelfLoaderAdd memory loader file added oldVirt execAddr execVirt = .ok loader')
    (last : loader'.efs = loader.efs ++ [ef]) : ef = placed memory file oldVirt execAddr execVirt := by
  rw [bfelfLoaderAdd] at adds
  split at adds
  · cases adds
  · split at adds
    · cases adds
    · split at adds
      · cases adds
      · cases adds
        simpa using last.symm

/-- Why a look-up or a relocation does not succeed. -/
inductive RelocError
  | noSuchSymbol
  | unsupportedRela
  | divisionByZero
  | running
  deriving DecidableEq, Repr

/-! ## Looking up -/

section Lookup

variable (memory : Bytes)

/-- `private_strcmp` of two strings in memory: whether they are equal. -/
def strcmpAt : Nat → Word → Word → Except RelocError Bool
  | 0, _, _ => .error .running
  | limit + 1, s1, s2 =>
    if memory s1 ≠ 0 ∧ memory s1 = memory s2 then strcmpAt limit (s1 + 1) (s2 + 1)
    else .ok (memory s1 = memory s2)

/-- One character of `private_hash`. -/
def hashStep (h : Word) (c : Byte) : Word :=
  let uc := c.setWidth 64
  let h := if c.msb then (h <<< 4) - uc else (h <<< 4) + uc
  let g := h &&& 0xf0000000
  let h := if g ≠ 0 then h ^^^ (g >>> 24) else h
  h &&& 0x0fffffff

def privateHash : Nat → Word → Word → Except RelocError Word
  | 0, _, _ => .error .running
  | limit + 1, name, h =>
    if memory name ≠ 0 then privateHash limit (name + 1) (hashStep h (memory name)) else .ok h

variable (ef : AddedFile)

def symbol (i : Word) : Word := ef.symtab + symSize * i

def symbolName (sym : Word) : Word := ef.strtab + field memory sym stName

def isWeak (sym : Word) : Bool := field memory sym stInfo >>> 4 = stbWeak

/-- The loop of `private_get_sym_by_hash` from symbol `i` on. -/
def chainFrom (limit : Nat) (name : Word) : Nat → Word → Except RelocError (Option Word)
  | 0, _ => .error .running
  | n + 1, i =>
    if 0 < i ∧ i < ef.nchain then do
      let same ← strcmpAt memory limit name (symbolName memory ef (symbol ef i))
      if same then pure (some (symbol ef i)) else chainFrom limit name n (fetch memory (ef.chain + 4 * i) 4)
    else pure none

def privateGetSymByHash (limit : Nat) (name : Word) : Except RelocError (Option Word) := do
  let x ← privateHash memory limit name 0
  if ef.nbucket = 0 then throw .divisionByZero
  else chainFrom memory ef limit name limit (fetch memory (ef.bucket + 4 * (x % ef.nbucket)) 4)

/-- The loop of `private_get_sym_by_name` from symbol `i` on, a 32-bit number. -/
def symbolsFrom (limit : Nat) (name : Word) : Nat → Word → Except RelocError (Option Word)
  | 0, _ => .error .running
  | n + 1, i =>
    if i < ef.symnum then do
      let same ← strcmpAt memory limit name (symbolName memory ef (symbol ef i))
      if same then pure (some (symbol ef i)) else symbolsFrom limit name n ((i + 1) &&& 0xffffffff)
    else pure none

/-- `none` is `BFELF_ERROR_NO_SUCH_SYMBOL`. -/
def privateGetSymByName (limit : Nat) (name : Word) : Except RelocError (Option Word) :=
  if ef.hash ≠ 0 then privateGetSymByHash memory ef limit name else symbolsFrom memory ef limit name limit 0

end Lookup

/-- The loop of `private_get_sym_global` over the files from number `i` on, with what it has found so far. -/
def symGlobalFrom (memory : Bytes) (limit : Nat) (name : Word) (ignore : Option Nat) :
    List AddedFile → Nat → Option (AddedFile × Word) → Except RelocError (Option (AddedFile × Word))
  | [], _, found => pure found
  | ef :: rest, i, found =>
    if some i = ignore then symGlobalFrom memory limit name ignore rest (i + 1) found
    else do
      match ← privateGetSymByName memory ef limit name with
      | none => symGlobalFrom memory limit name ignore rest (i + 1) found
      | some sym =>
        if field memory sym stValue = 0 then symGlobalFrom memory limit name ignore rest (i + 1) found
        else if isWeak memory sym then symGlobalFrom memory limit name ignore rest (i + 1) (some (ef, sym))
        else pure (some (ef, sym))

/-- Files are told apart by their numbers, as no file can be added twice. -/
def privateGetSymGlobal (memory : Bytes) (limit : Nat) (efs : List AddedFile) (name : Word) (ignore : Option Nat) :
    Except RelocError (AddedFile × Word) := do
  match ← symGlobalFrom memory limit name ignore efs 0 none with
  | some found => pure found
  | none => throw .noSuchSymbol

end Gevisor.Elf
