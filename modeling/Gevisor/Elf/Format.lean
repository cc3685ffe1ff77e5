import Mathlib.Algebra.CharZero.Defs
import Mathlib.Data.BitVec
import Mathlib.Algebra.Order.Ring.Nat

/-! # The ELF format

The structures of `bfelf_loader.h` as the compiler lays them out, and what the loader keeps of a file.
-/

namespace Gevisor.Elf

abbrev Word := BitVec 64

abbrev Byte := BitVec 8

abbrev Bytes := Word → Byte

/-- The little-endian number in the `n` bytes at `a`. -/
def fetch (memory : Bytes) (a : Word) : Nat → Word
  | 0 => 0
  | n + 1 => (memory a).setWidth 64 + (fetch memory (a + 1) n <<< 8)

theorem fetch_one (memory : Bytes) (a : Word) : fetch memory a 1 = (memory a).setWidth 64 := by
  simp [fetch]

-- Numbers in memory are compared with constants, which must not be attempted by evaluation.
attribute [irreducible] fetch

/-- A field of a structure. -/
structure Field where
  offset : Word
  size : Nat

/-! ## `bfelf_ehdr` -/

def ehdrSize : Word := 64

def eIdent (i : Word) : Field := ⟨i, 1⟩
def eType : Field := ⟨16, 2⟩
def eMachine : Field := ⟨18, 2⟩
def eVersion : Field := ⟨20, 4⟩
def eEntry : Field := ⟨24, 8⟩
def ePhoff : Field := ⟨32, 8⟩
def eShoff : Field := ⟨40, 8⟩
def eFlags : Field := ⟨48, 4⟩
def ePhnum : Field := ⟨56, 2⟩
def eShnum : Field := ⟨60, 2⟩
def eShstrndx : Field := ⟨62, 2⟩

/-! ## `bfelf_phdr` -/

def phdrSize : Word := 56

def pType : Field := ⟨0, 4⟩
def pFlags : Field := ⟨4, 4⟩
def pOffset : Field := ⟨8, 8⟩
def pVaddr : Field := ⟨16, 8⟩
def pFilesz : Field := ⟨32, 8⟩
def pMemsz : Field := ⟨40, 8⟩

def ptLoad : Word := 1
def ptDynamic : Word := 2
def ptGnuStack : Word := 0x6474e551
def ptGnuRelro : Word := 0x6474e552

/-! ## `bfelf_shdr` -/

def shdrSize : Word := 64

def shName : Field := ⟨0, 4⟩
def shAddr : Field := ⟨16, 8⟩
def shOffset : Field := ⟨24, 8⟩
def shSize : Field := ⟨32, 8⟩

/-! ## `bfelf_dyn` -/

def dynSize : Word := 16

def dTag : Field := ⟨0, 8⟩
def dVal : Field := ⟨8, 8⟩

def dtNull : Word := 0
def dtNeeded : Word := 1

/-- The size of a `bfelf_rela`. -/
def relaSize : Word := 24

/-! ## What the loader keeps -/

def maxSegments : Nat := 4

def maxNeeded : Nat := 25

structure LoadInstr where
  perm : Word
  memOffset : Word
  fileOffset : Word
  memsz : Word
  filesz : Word
  virtAddr : Word
  deriving DecidableEq, Repr

/-- `bfelf_file_t`. Its pointers are addresses, those to program headers and tables included. -/
structure File where
  filesz : Word := 0
  file : Word := 0
  entry : Word := 0
  loadInstr : List LoadInstr := []
  loadableSegments : List Word := []
  startAddr : Word := 0
  totalMemsz : Word := 0
  needed : List Word := []
  phdrtab : Word := 0
  shdrtab : Word := 0
  dynoff : Word := 0
  strtab : Word := 0
  strtabOffset : Word := 0
  shstrtab : Word := 0
  hash : Word := 0
  dynnum : Word := 0
  dyntab : Word := 0
  symtab : Word := 0
  relanumDyn : Word := 0
  relatabDyn : Word := 0
  relanumPlt : Word := 0
  relatabPlt : Word := 0
  init : Word := 0
  fini : Word := 0
  initArray : Word := 0
  initArraysz : Word := 0
  finiArray : Word := 0
  finiArraysz : Word := 0
  ehFrame : Word := 0
  ehFramesz : Word := 0
  flags1 : Word := 0
  stackFlags : Word := 0
  relaroVaddr : Word := 0
  relaroMemsz : Word := 0
  deriving DecidableEq, Repr

/-- `bfelf_binary_t`. -/
structure Binary where
  exec : Word := 0
  file : Word := 0
  execSize : Word := 0
  fileSize : Word := 0
  ef : File := {}
  deriving DecidableEq, Repr

/-- What an entry of the dynamic section with the given tag stores; `none` for the tags whose value is
not looked at. -/
def dynamicEntry (tag : Word) : Option (Word → File → File) :=
  match tag.toNat with
  | 2 => some fun val ef => { ef with relanumPlt := val / relaSize } -- bfdt_pltrelsz
  | 4 => some fun val ef => { ef with hash := val } -- bfdt_hash
  | 5 => some fun val ef => { ef with strtabOffset := val } -- bfdt_strtab
  | 6 => some fun val ef => { ef with symtab := val } -- bfdt_symtab
  | 7 => some fun val ef => { ef with relatabDyn := val } -- bfdt_rela
  | 8 => some fun val ef => { ef with relanumDyn := val / relaSize } -- bfdt_relasz
  | 12 => some fun val ef => { ef with init := val } -- bfdt_init
  | 13 => some fun val ef => { ef with fini := val } -- bfdt_fini
  | 23 => some fun val ef => { ef with relatabPlt := val } -- bfdt_jmprel
  | 25 => some fun val ef => { ef with initArray := val } -- bfdt_init_array
  | 26 => some fun val ef => { ef with finiArray := val } -- bfdt_fini_array
  | 27 => some fun val ef => { ef with initArraysz := val } -- bfdt_init_arraysz
  | 28 => some fun val ef => { ef with finiArraysz := val } -- bfdt_fini_arraysz
  | 0x6ffffffb => some fun val ef => { ef with flags1 := val } -- bfdt_flags_1
  | _ => none

/-- Every `dynamicEntry` leaves alone what the rest of the initialisation goes by. -/
theorem dynamicEntry_keeps {tag : Word} {store : Word → File → File} (hk : dynamicEntry tag = some store)
    (val : Word) (ef : File) :
    (store val ef).file = ef.file ∧ (store val ef).shdrtab = ef.shdrtab ∧ (store val ef).needed = ef.needed ∧
      (store val ef).loadInstr = ef.loadInstr ∧ (store val ef).totalMemsz = ef.totalMemsz := by
  simp only [dynamicEntry] at hk
  split at hk <;> simp only [Option.some.injEq, reduceCtorEq] at hk <;> subst hk <;>
    exact ⟨rfl, rfl, rfl, rfl, rfl⟩

/-- The sections that are looked up by name, and what is stored of them. -/
def namedSections : List (List Byte × (Word → Word → File → File)) :=
  [([0x2e, 0x65, 0x68, 0x5f, 0x66, 0x72, 0x61, 0x6d, 0x65], -- .eh_frame
      fun addr size ef => { ef with ehFrame := addr, ehFramesz := size }),
    ([0x2e, 0x63, 0x74, 0x6f, 0x72, 0x73], -- .ctors
      fun addr size ef => { ef with initArray := addr, initArraysz := size }),
    ([0x2e, 0x64, 0x74, 0x6f, 0x72, 0x73], -- .dtors
      fun addr size ef => { ef with finiArray := addr, finiArraysz := size })]

end Gevisor.Elf
