import Gevisor.Elf.Image
import Gevisor.Elf.LinearSearch
import Gevisor.Elf.Unhashed

/-! # Files without a hash table

Without a `DT_HASH` entry parsing leaves a null pointer, but `bfelf_loader_add` moves it along with the other addresses.
The search through all symbols is taken only where nothing is moved.
-/

namespace Gevisor.Verified.LinearSearch

open Elf Lib

/-- A file that is loaded and added: what loading reads and copies is where it should be, it has no hash table, and its
symbol and string tables are in the image, one after the other. -/
structure Added (memory : Bytes) (file size : Word) (alloc : Word → Word) (u : Loader) (ef : AddedFile)
    (n strsz : Nat) (names : Nat → List Byte) : Prop where
  contained : Contained memory file size
  segments : SegmentsFit memory file size
  loaded : privateLoadBinary alloc (.fresh memory file size) = .ok () u
  unhashed : NoHash memory file
  added : ∃ loader loader' added oldVirt execVirt,
    bfelfLoaderAdd u.memory loader u.binary.ef added oldVirt u.binary.exec execVirt = .ok loader' ∧
      loader'.efs = loader.efs ++ [ef]
  tables : Tables u.memory ef n strsz names
  image : ∀ a, Has ef.symtab (24 * n + strsz) a → Has u.binary.exec u.binary.execSize.toNat a

section

variable {memory : Bytes} {file size : Word} {alloc : Word → Word} {u : Loader} {ef : AddedFile} {n strsz : Nat}
  {names : Nat → List Byte} (added : Added memory file size alloc u ef n strsz names)

include added

theorem Added.fields : ef.hash = u.binary.exec - u.binary.ef.startAddr ∧
    ef.symnum = (ef.strtab - ef.symtab) / symSize ∧ ef.nbucket = fetch u.memory ef.hash 4 := by
  obtain ⟨t, hacc, hp⟩ := init_of_loaded added.loaded
  have same := ((wp_of_ok hp).mp (placeBinary_binary alloc t)).1
  have hab : u.binary.ef.hash = 0 := by
    rw [same]
    show t.binary.ef.hash = 0
    exact fileInit_unhashed added.unhashed hacc
  obtain ⟨loader, loader', number, oldVirt, execVirt, adds, last⟩ := added.added
  rw [placed_of_add adds last]
  refine ⟨?_, rfl, rfl⟩
  show u.binary.ef.hash + _ = _
  rw [hab]
  exact BitVec.zero_add _

end

/-! ## A small file -/

/-- The headers of a shared library, the second byte from the top of its start address being `c`. -/
def headers (c : Byte) : List Byte :=
  [0x7F, 0x45, 0x4C, 0x46, 2, 1, 1, 0, 0, 0, 0, 0, 0, 0, 0, 0, -- e_ident
    3, 0, 62, 0, 1, 0, 0, 0, 0, 0, 0, 0, 0, 0, 0, 0, -- e_type, e_machine, e_version, e_entry
    64, 0, 0, 0, 0, 0, 0, 0, 0, 0, 0, 0, 0, 0, 0, 0, -- e_phoff, e_shoff
    0, 0, 0, 0, 64, 0, 56, 0, 2, 0, 64, 0, 0, 0, 0, 0, -- e_flags to e_shstrndx, with e_phnum = 2
    1, 0, 0, 0, 6, 0, 0, 0, 176, 0, 0, 0, 0, 0, 0, 0, -- p_type, p_flags, p_offset
    0, 0, c, 0, 0, 0, 0, 0, 0, 0, c, 0, 0, 0, 0, 0, -- p_vaddr, p_paddr
    104, 0, 0, 0, 0, 0, 0, 0, 104, 0, 0, 0, 0, 0, 0, 0, -- p_filesz, p_memsz
    8, 0, 0, 0, 0, 0, 0, 0, -- p_align
    2, 0, 0, 0, 6, 0, 0, 0, 232, 0, 0, 0, 0, 0, 0, 0, -- the dynamic section
    56, 0, c, 0, 0, 0, 0, 0, 56, 0, c, 0, 0, 0, 0, 0,
    48, 0, 0, 0, 0, 0, 0, 0, 48, 0, 0, 0, 0, 0, 0, 0,
    8, 0, 0, 0, 0, 0, 0, 0]

/-- Its only segment: the null symbol and the function `a`, their names, and the dynamic section, which gives the
addresses of the two tables. -/
def contents (c : Byte) : List Byte :=
  [0, 0, 0, 0, 0, 0, 0, 0, 0, 0, 0, 0, 0, 0, 0, 0, 0, 0, 0, 0, 0, 0, 0, 0,
    1, 0, 0, 0, 0x12, 0, 1, 0, 16, 0, c, 0, 0, 0, 0, 0, 0, 0, 0, 0, 0, 0, 0, 0,
    0, 0x61, 0, 0, 0, 0, 0, 0,
    5, 0, 0, 0, 0, 0, 0, 0, 48, 0, c, 0, 0, 0, 0, 0,
    6, 0, 0, 0, 0, 0, 0, 0, 0, 0, c, 0, 0, 0, 0, 0,
    0, 0, 0, 0, 0, 0, 0, 0, 0, 0, 0, 0, 0, 0, 0, 0]

/-- The file in memory at `file`. -/
def library (c : Byte) (file : Word) : Bytes := fun a => (headers c ++ contents c).getD (a - file).toNat 0

def startOf (c : Byte) : Word := c.setWidth 64 <<< 16

def segmentOf (c : Byte) : LoadInstr where
  perm := 6
  memOffset := 0
  fileOffset := 176
  memsz := 104
  filesz := 104
  virtAddr := startOf c

/-- The numbers that the headers of the file at `file` give. -/
structure Sample (c : Byte) (file : Word) : Prop where
  phoff : header (library c file) file ePhoff = 64
  phnum : header (library c file) file ePhnum = 2
  shoff : header (library c file) file eShoff = 0
  shnum : header (library c file) file eShnum = 0
  shstrndx : header (library c file) file eShstrndx = 0
  types : segmentType (library c file) file 0 = ptLoad ∧ segmentType (library c file) file 1 = ptDynamic
  loads : loadSegments (library c file) file = [file + 64]
  load : field (library c file) (file + 64) pOffset = 176 ∧ field (library c file) (file + 64) pFilesz = 104 ∧
    field (library c file) (file + 64) pVaddr = imageStart (library c file) file
  total : imageSize (library c file) file = 104
  dynamic : dynamicOffset (library c file) file = 232 ∧ dynamicCount (library c file) file = 3
  tags : ∀ i < 3, dynamicTag (library c file) file i ≠ dtHash
  parsed : wp (fileInit file 280) (fun _ t => t.binary.ef.loadInstr = [segmentOf c] ∧ t.binary.ef.totalMemsz = 104 ∧
    t.binary.ef.startAddr = startOf c ∧ t.binary.ef.strtabOffset = startOf c + 48 ∧ t.binary.ef.symtab = startOf c)
    (fun _ _ => False) (.fresh (library c file) file 280)

variable {c : Byte} {file : Word}

theorem Sample.unhashed (sample : Sample c file) : NoHash (library c file) file := by
  intro i hb _
  rw [sample.dynamic.2] at hb
  exact sample.tags i hb

/-- Offsets in the file. -/
theorem fits_file {offset : Word} {n : Nat} (fits : offset.toNat + n ≤ 280) :
    Fits (file + offset - file) n 280 := by
  rw [BitVec.add_comm, BitVec.add_sub_cancel]
  exact .inr fits

theorem Sample.contained (sample : Sample c file) : Contained (library c file) file 280 := by
  have hh : phdr (library c file) file 0 = file + 64 := by
    rw [phdr, sample.phoff]
    exact BitVec.add_zero _
  have hhe : phdr (library c file) file 1 = file + 120 := by
    rw [phdr, sample.phoff, BitVec.add_assoc]
    rfl
  have hw (offset : Word) (f : Field) (fits : (offset + f.offset).toNat + f.size ≤ 280) :
      FieldWithin file 280 (file + offset) f := by
    rw [FieldWithin, BitVec.add_assoc]
    exact fits_file fits
  constructor
  · intro i hb
    rw [sample.phnum] at hb
    obtain rfl | rfl : i = 0 ∨ i = 1 := by
      have hb : i < 2 := hb
      omega
    · rw [sample.types.1, hh, show segmentFields ptLoad = [] from rfl, List.forall_mem_singleton]
      exact hw 64 pType (by decide)
    · rw [sample.types.2, hhe, show segmentFields ptDynamic = [pOffset, pFilesz] from rfl, List.forall_mem_cons,
        List.forall_mem_cons, List.forall_mem_singleton]
      exact ⟨hw 120 pType (by decide), hw 120 pOffset (by decide), hw 120 pFilesz (by decide)⟩
  · rw [sample.loads, List.forall_mem_singleton, loadFields]
    simp only [List.forall_mem_cons]
    exact ⟨hw 64 pFlags (by decide), hw 64 pVaddr (by decide), hw 64 pOffset (by decide),
      hw 64 pMemsz (by decide), hw 64 pFilesz (by decide), by simp⟩
  · intro i hb _
    rw [sample.dynamic.2] at hb
    have he : dyn (library c file) file i = file + (232 + dynSize * BitVec.ofNat 64 i) := by
      rw [dyn, sample.dynamic.1, BitVec.add_assoc]
    obtain rfl | rfl | rfl : i = 0 ∨ i = 1 ∨ i = 2 := by omega
    · rw [he]
      exact ⟨hw _ dTag (by decide), fun _ => hw _ dVal (by decide)⟩
    · rw [he]
      exact ⟨hw _ dTag (by decide), fun _ => hw _ dVal (by decide)⟩
    · rw [he]
      exact ⟨hw _ dTag (by decide), fun _ => hw _ dVal (by decide)⟩
  · have names : namesHeader (library c file) file = file + 0 := by
      rw [namesHeader, sample.shoff, sample.shstrndx]
      exact BitVec.add_zero _
    rw [names]
    exact hw 0 shOffset (by decide)
  · intro i hb
    rw [sample.shnum] at hb
    exact absurd hb (Nat.not_lt_zero i)

theorem Sample.segments (sample : Sample c file) : SegmentsFit (library c file) file 280 := by
  obtain ⟨ho, hf, hv⟩ := sample.load
  rw [SegmentsFit, sample.loads, List.forall_mem_singleton, ho, hf, hv, sample.total, BitVec.sub_self]
  decide

theorem laid (c : Byte) : Laid [segmentOf c] 280 104 := by
  refine ⟨List.pairwise_singleton _ _, ?_, ?_⟩
  · rw [List.forall_mem_singleton]
    exact Nat.le_refl 104
  · rw [List.forall_mem_singleton]
    exact Nat.le_refl 280

section

variable {c : Byte} {file exec : Word} (sample : Sample c file) (given : exec ≠ 0)
  (apart : ∀ a, Has file 280 a → ¬ Has exec 104 a)

include sample given apart

end

end Gevisor.Verified.LinearSearch
