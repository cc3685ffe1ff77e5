import Gevisor.Elf.Loader

/-! # Where things are in a file

The tables of an ELF file as functions of the bytes at `file`, and the condition under which the parts
that loading looks at lie in the file and the segments in the image.
-/

namespace Gevisor.Elf

/-- `n` bytes from `offset` on are inside a region of `size` bytes. -/
def Fits (offset : Word) (n : Nat) (size : Word) : Prop := n = 0 ∨ offset.toNat + n ≤ size.toNat

instance decidableFits (offset : Word) (n : Nat) (size : Word) : Decidable (Fits offset n size) :=
  inferInstanceAs (Decidable (_ ∨ _))

/-- A region that starts in the region cannot leave it by wrapping around. -/
theorem fits_iff (offset : Word) (n : Nat) (size : Word) :
    Fits offset n size ↔ ∀ j < n, (offset + BitVec.ofNat 64 j).toNat < size.toNat := by
  have hs := size.isLt
  have hst := offset.isLt
  rw [Fits]
  constructor
  · intro fits j hb
    rw [BitVec.toNat_add, BitVec.toNat_ofNat, Nat.add_mod_mod, Nat.mod_eq_of_lt (by omega)]
    omega
  · intro all
    by_contra ho
    have pos : 0 < n := by omega
    by_cases hw : offset.toNat + n ≤ 2 ^ 64
    · have last := all (n - 1) (by omega)
      rw [BitVec.toNat_add, BitVec.toNat_ofNat, Nat.add_mod_mod, Nat.mod_eq_of_lt (by omega)] at last
      omega
    · have top := all (2 ^ 64 - 1 - offset.toNat) (by omega)
      rw [BitVec.toNat_add, BitVec.toNat_ofNat, Nat.add_mod_mod, Nat.mod_eq_of_lt (by omega)] at top
      omega

def field (memory : Bytes) (p : Word) (f : Field) : Word := fetch memory (p + f.offset) f.size

section

variable (memory : Bytes) (file : Word)

def header (f : Field) : Word := field memory file f

/-! ## Segments -/

def phdr (i : Nat) : Word := file + header memory file ePhoff + phdrSize * BitVec.ofNat 64 i

def segmentType (i : Nat) : Word := field memory (phdr memory file i) pType

/-- Of the first `n` program headers those of the given type. -/
def headersOf (type : Word) (n : Nat) : List Word :=
  ((List.range n).filter fun i => segmentType memory file i = type).map (phdr memory file)

/-- The load segments among the first `n` program headers; there is room for four. -/
def loadable (n : Nat) : List Word := (headersOf memory file ptLoad n).take maxSegments

def loadSegments : List Word := loadable memory file (header memory file ePhnum).toNat

/-- Where the last of the load segments ends. -/
def imageEnd (n : Nat) : Word :=
  ((loadable memory file n).getLast?.map fun p => field memory p pVaddr + field memory p pMemsz).getD 0

def imageStart : Word := ((loadSegments memory file).head?.map fun p => field memory p pVaddr).getD 0

/-- `total_memsz`. -/
def imageSize : Word := imageEnd memory file (header memory file ePhnum).toNat - imageStart memory file

def loadInstrOf (p : Word) : LoadInstr where
  perm := field memory p pFlags
  memOffset := field memory p pVaddr - imageStart memory file
  fileOffset := field memory p pOffset
  memsz := field memory p pMemsz
  filesz := field memory p pFilesz
  virtAddr := field memory p pVaddr

/-! ## The dynamic section -/

def dynoff (n : Nat) : Word := ((headersOf memory file ptDynamic n).getLast?.map fun p => field memory p pOffset).getD 0

def dynnum (n : Nat) : Word :=
  ((headersOf memory file ptDynamic n).getLast?.map fun p => field memory p pFilesz / dynSize).getD 0

def dynamicOffset : Word := dynoff memory file (header memory file ePhnum).toNat

/-- The number of entries; without an offset the section is passed over. -/
def dynamicCount : Nat :=
  if dynamicOffset memory file = 0 then 0 else (dynnum memory file (header memory file ePhnum).toNat).toNat

def dyn (i : Nat) : Word := file + dynamicOffset memory file + dynSize * BitVec.ofNat 64 i

def dynamicTag (i : Nat) : Word := field memory (dyn memory file i) dTag

def neededBefore (i : Nat) : Nat := ((List.range i).filter fun j => dynamicTag memory file j = dtNeeded).length

/-- Entry `i` is one whose value is looked at. -/
def UsesValue (i : Nat) : Prop :=
  if dynamicTag memory file i = dtNeeded then neededBefore memory file i < maxNeeded
  else (dynamicEntry (dynamicTag memory file i)).isSome

/-! ## Sections -/

def shdr (i : Nat) : Word := file + header memory file eShoff + shdrSize * BitVec.ofNat 64 i

/-- The header of the section that holds the names. -/
def namesHeader : Word := file + header memory file eShoff + shdrSize * header memory file eShstrndx

def sectionName (i : Nat) : Word :=
  file + field memory (namesHeader memory file) shOffset + field memory (shdr memory file i) shName

end

/-- The characters of the string at `s` that a comparison with `s2` looks at. -/
def compared (memory : Bytes) (s : Word) : List Byte → List Word
  | [] => [s]
  | c :: s2 => s :: if memory s ≠ 0 ∧ memory s = c then compared memory (s + 1) s2 else []

/-- Whether the string at `s` is `s2`. -/
def sameString (memory : Bytes) (s : Word) : List Byte → Bool
  | [] => memory s = 0
  | c :: s2 => if memory s ≠ 0 ∧ memory s = c then sameString memory (s + 1) s2 else memory s = c

/-- The characters that a comparison with one string after another looks at, up to the first match. -/
def comparedAll (memory : Bytes) (s : Word) : List (List Byte) → List Word
  | [] => []
  | s2 :: rest => compared memory s s2 ++ if sameString memory s s2 then [] else comparedAll memory s rest

/-! ## Files that are loaded within bounds -/

/-- The fields of a load segment's header that are looked at. -/
def loadFields : List Field := [pFlags, pVaddr, pOffset, pMemsz, pFilesz]

section

variable (memory : Bytes) (file size : Word)

/-- The field is in the file. -/
def FieldWithin (p : Word) (f : Field) : Prop := Fits (p + f.offset - file) f.size size

/-- The fields of a program header that are looked at besides its type, for other than load segments. -/
def segmentFields (type : Word) : List Field :=
  if type = ptDynamic then [pOffset, pFilesz]
  else if type = ptGnuStack then [pFlags]
  else if type = ptGnuRelro then [pVaddr, pMemsz]
  else []

/-- What `bfelf_file_init` looks at lies in the file. -/
structure Contained : Prop where
  segments : ∀ i < (header memory file ePhnum).toNat, ∀ f ∈ pType :: segmentFields (segmentType memory file i),
    FieldWithin file size (phdr memory file i) f
  loads : ∀ p ∈ loadSegments memory file, ∀ f ∈ loadFields, FieldWithin file size p f
  dynamic : ∀ i < dynamicCount memory file, (∀ j < i, dynamicTag memory file j ≠ dtNull) →
    FieldWithin file size (dyn memory file i) dTag ∧
      (UsesValue memory file i → FieldWithin file size (dyn memory file i) dVal)
  names : FieldWithin file size (namesHeader memory file) shOffset
  sections : ∀ i < (header memory file eShnum).toNat,
    FieldWithin file size (shdr memory file i) shName ∧
      (∀ a ∈ comparedAll memory (sectionName memory file i) (namedSections.map Prod.fst), Fits (a - file) 1 size) ∧
        ((∃ s2 ∈ namedSections.map Prod.fst, sameString memory (sectionName memory file i) s2) →
          FieldWithin file size (shdr memory file i) shAddr ∧ FieldWithin file size (shdr memory file i) shSize)

/-- The contents of the load segments lie in the file, and there is room for them in the image. -/
def SegmentsFit : Prop := ∀ p ∈ loadSegments memory file,
  Fits (field memory p pOffset) (field memory p pFilesz).toNat size ∧
    Fits (field memory p pVaddr - imageStart memory file) (field memory p pFilesz).toNat (imageSize memory file)

end

end Gevisor.Elf
