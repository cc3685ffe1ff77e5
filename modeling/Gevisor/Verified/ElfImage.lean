import Gevisor.Elf.Image

/-! # The loaded image is the file's image

The size of the image comes from the last load segment, and the place of each segment from the first one. For segments
in ascending order this makes an image of exactly the segments, with zeros in between.
-/

namespace Gevisor.Verified.ElfImage

open Lib Elf

/-! ## Segments -/

section

variable (memory : Bytes) (file size : Word)

/-- The headers of all load segments of the file. -/
def loadHeaders : List Word := headersOf memory file ptLoad (header memory file ePhnum).toNat

def segmentStart (p : Word) : Nat := (field memory p pVaddr).toNat

def segmentEnd (p : Word) : Nat := segmentStart memory p + (field memory p pMemsz).toNat

/-- The load segments are few enough, in ascending order and disjoint, and their contents lie in the file. -/
structure Ordered : Prop where
  few : (loadHeaders memory file).length ≤ maxSegments
  ascending : (loadHeaders memory file).Pairwise fun p q => segmentEnd memory p ≤ segmentStart memory q
  addresses : ∀ p ∈ loadHeaders memory file, segmentEnd memory p ≤ 2 ^ 64
  /-- The size of the image is a number of 64 bits. -/
  span : ∀ p ∈ loadHeaders memory file, ∀ q ∈ loadHeaders memory file, segmentEnd memory q < segmentStart memory p + 2 ^ 64
  filesz_le : ∀ p ∈ loadHeaders memory file, field memory p pFilesz ≤ field memory p pMemsz
  contents : ∀ p ∈ loadHeaders memory file, (field memory p pOffset).toNat + (field memory p pFilesz).toNat ≤ size.toNat

/-- What `b` says about its image, and what the image is. -/
structure IsImage (b : Binary) (after : Bytes) : Prop where
  instrs : b.ef.loadInstr = (loadHeaders memory file).map (loadInstrOf memory file)
  offsets : ∀ first ∈ (loadHeaders memory file).head?, ∀ p ∈ loadHeaders memory file,
    (loadInstrOf memory file p).memOffset.toNat = segmentStart memory p - segmentStart memory first
  execSize : ∀ first ∈ (loadHeaders memory file).head?, ∀ last ∈ (loadHeaders memory file).getLast?,
    b.execSize.toNat = segmentEnd memory last - segmentStart memory first
  copied : ∀ x ∈ b.ef.loadInstr, ∀ i < x.filesz.toNat,
    after (b.exec + x.memOffset + BitVec.ofNat 64 i) = memory (file + x.fileOffset + BitVec.ofNat 64 i)
  zero : ∀ a, Has b.exec b.execSize.toNat a → (∀ x ∈ b.ef.loadInstr, ¬ Has (b.exec + x.memOffset) x.filesz.toNat a) →
    after a = 0

end

variable {memory : Bytes} {file size : Word}

theorem loadSegments_eq (few : (loadHeaders memory file).length ≤ maxSegments) :
    loadSegments memory file = loadHeaders memory file := by
  rw [loadSegments, loadable]
  exact List.take_of_length_le few

namespace Ordered

variable (ordered : Ordered memory file size)

include ordered

variable {first p last : Word}

theorem start_le (head : first ∈ (loadHeaders memory file).head?) (mem : p ∈ loadHeaders memory file) :
    segmentStart memory first ≤ segmentStart memory p := by
  have ha := ordered.ascending
  cases list : loadHeaders memory file with
  | nil =>
    rw [list] at mem
    cases mem
  | cons q rest =>
    rw [list] at head mem ha
    cases head
    cases mem with
    | head => exact Nat.le_refl _
    | tail _ hla =>
      have hbe := (List.pairwise_cons.mp ha).1 p hla
      rw [segmentEnd] at hbe
      omega

theorem end_le (tail : last ∈ (loadHeaders memory file).getLast?) (mem : p ∈ loadHeaders memory file) :
    segmentEnd memory p ≤ segmentEnd memory last := by
  have ha := ordered.ascending
  obtain ⟨hea, list⟩ := List.getLast?_eq_some_iff.mp tail
  rw [list] at mem ha
  cases List.mem_append.mp mem with
  | inl hbe =>
    have ho := (List.pairwise_append.mp ha).2.2 p hbe last (List.mem_singleton.mpr rfl)
    have hu : segmentStart memory last ≤ segmentEnd memory last := Nat.le_add_right _ _
    omega
  | inr same =>
    rw [List.mem_singleton.mp same]

theorem memOffset_eq (head : first ∈ (loadHeaders memory file).head?) (mem : p ∈ loadHeaders memory file) :
    (loadInstrOf memory file p).memOffset.toNat = segmentStart memory p - segmentStart memory first := by
  have hs : imageStart memory file = field memory first pVaddr := by
    rw [imageStart, loadSegments_eq ordered.few, head]
    rfl
  have ho := ordered.start_le head mem
  rw [segmentStart, segmentStart] at *
  rw [loadInstrOf, hs]
  bv_omega

theorem imageSize_eq (head : first ∈ (loadHeaders memory file).head?)
    (tail : last ∈ (loadHeaders memory file).getLast?) :
    (imageSize memory file).toNat = segmentEnd memory last - segmentStart memory first := by
  have hs : imageStart memory file = field memory first pVaddr := by
    rw [imageStart, loadSegments_eq ordered.few, head]
    rfl
  have ends : imageEnd memory file (header memory file ePhnum).toNat = field memory last pVaddr + field memory last pMemsz := by
    rw [imageEnd, ← loadSegments, loadSegments_eq ordered.few, tail]
    rfl
  have mem : last ∈ loadHeaders memory file := List.mem_of_getLast? tail
  have ho := ordered.start_le head mem
  have ha := ordered.addresses last mem
  have span := ordered.span first (List.mem_of_head? head) last mem
  rw [imageSize, hs, ends]
  rw [segmentEnd, segmentStart, segmentStart] at *
  bv_omega

theorem laid : Laid ((loadHeaders memory file).map (loadInstrOf memory file)) size (imageSize memory file) := by
  cases list : (loadHeaders memory file).head? with
  | none =>
    rw [List.head?_eq_none_iff.mp list]
    exact ⟨List.Pairwise.nil, by simp, by simp⟩
  | some first =>
    have hb : ∀ p ∈ loadHeaders memory file,
        (loadInstrOf memory file p).memOffset.toNat + (loadInstrOf memory file p).filesz.toNat ≤
          segmentEnd memory p - segmentStart memory first := by
      intro p mem
      have ho := ordered.memOffset_eq list mem
      have hor := ordered.start_le list mem
      have hs : (field memory p pFilesz).toNat ≤ (field memory p pMemsz).toNat := ordered.filesz_le p mem
      rw [ho, segmentEnd]
      show _ + (field memory p pFilesz).toNat ≤ _
      omega
    constructor
    · rw [List.pairwise_map]
      refine ordered.ascending.imp_of_mem fun {p q} memP memQ hbe => ?_
      have hbo := hb p memP
      rw [ordered.memOffset_eq list memQ]
      omega
    · rw [List.forall_mem_map]
      intro p mem
      have tail := List.getLast?_eq_some_getLast (List.ne_nil_of_mem mem)
      have hbo := hb p mem
      have hor := ordered.end_le tail mem
      rw [ordered.imageSize_eq list tail]
      omega
    · rw [List.forall_mem_map]
      exact ordered.contents

end Ordered

/-- For every file with ordered load segments, whether it is initialised by `private_load_binary` or before, and every
allocator that puts the image next to and not over the file: a load that succeeds gives the image of the file. -/
theorem loaded_image (memory : Bytes) (file size : Word) (alloc : Word → Word) (s u : Loader)
    (start : s = .fresh memory file size ∨ fileInit file size (.fresh memory file size) = .ok () s)
    (ordered : Ordered memory file size)
    (apart : ∀ a, Has file size.toNat a → ¬ Has (alloc (imageSize memory file)) (imageSize memory file).toNat a)
    (loaded : privateLoadBinary alloc s = .ok () u) : IsImage memory file u.binary u.memory := by
  have fresh : privateLoadBinary alloc (.fresh memory file size) = .ok () u := by
    cases start with
    | inl same => rw [← same, loaded]
    | inr accepted => rw [← privateLoadBinary_initialised alloc accepted, loaded]
  obtain ⟨t, accepted, placed⟩ := init_of_loaded fresh
  obtain ⟨⟨ef, holds, ready⟩, -, -⟩ := fileInit_processes 0 0 accepted
  have instrs : t.binary.ef.loadInstr = (loadHeaders memory file).map (loadInstrOf memory file) := by
    rw [holds.binary, ready.loadInstr, loadSegments_eq ordered.few]
  have total : t.binary.ef.totalMemsz = imageSize memory file := by rw [holds.binary, ready.totalMemsz]
  have base : t.binary.file = file := by rw [holds.binary]
  have succeeded : alloc (imageSize memory file) ≠ 0 := by
    intro failed
    rw [placeBinary_of_eq (total ▸ failed)] at placed
    cases placed
  have ends := placeBinary_copies ordered.laid apart instrs total base rfl succeeded holds.memory
  rw [wp_of_ok placed] at ends
  obtain ⟨binary, copied⟩ := ends
  rw [List.length_map] at copied
  have all : ((loadHeaders memory file).map (loadInstrOf memory file)).take (loadHeaders memory file).length =
      (loadHeaders memory file).map (loadInstrOf memory file) := List.take_of_length_le (by simp)
  have listed : u.binary.ef.loadInstr = (loadHeaders memory file).map (loadInstrOf memory file) := by
    rw [binary, ← instrs]
    rfl
  have exec : u.binary.exec = alloc (imageSize memory file) := by
    rw [binary, ← total]
    rfl
  have execSize : u.binary.execSize = imageSize memory file := by
    rw [binary, ← total]
    rfl
  constructor
  · exact listed
  · exact fun first head p mem => ordered.memOffset_eq head mem
  · intro first head last tail
    rw [execSize, ordered.imageSize_eq head tail]
  · rw [listed, exec]
    intro x mem
    exact copied.copied x (all.symm ▸ mem)
  · rw [listed, exec, execSize]
    intro a inside none
    exact copied.cleared a inside (all.symm ▸ none)

/-- An executable at `0x1000` with two segments of two bytes each, at `0x10` and `0x20`. -/
def twoSegments : Bytes := fun a => List.getD
  [0x7F, 0x45, 0x4C, 0x46, 2, 1, 1, 0, 0, 0, 0, 0, 0, 0, 0, 0, -- e_ident
    2, 0, 62, 0, 1, 0, 0, 0, 0, 0, 0, 0, 0, 0, 0, 0, -- e_type, e_machine, e_version, e_entry
    64, 0, 0, 0, 0, 0, 0, 0, 0, 0, 0, 0, 0, 0, 0, 0, -- e_phoff, e_shoff
    0, 0, 0, 0, 64, 0, 56, 0, 2, 0, 64, 0, 0, 0, 0, 0, -- e_flags to e_shstrndx, with e_phnum = 2
    1, 0, 0, 0, 5, 0, 0, 0, 176, 0, 0, 0, 0, 0, 0, 0, -- p_type, p_flags, p_offset
    0x10, 0, 0, 0, 0, 0, 0, 0, 0, 0, 0, 0, 0, 0, 0, 0, -- p_vaddr, p_paddr
    2, 0, 0, 0, 0, 0, 0, 0, 4, 0, 0, 0, 0, 0, 0, 0, -- p_filesz, p_memsz
    0, 0, 0, 0, 0, 0, 0, 0, -- p_align
    1, 0, 0, 0, 6, 0, 0, 0, 178, 0, 0, 0, 0, 0, 0, 0,
    0x20, 0, 0, 0, 0, 0, 0, 0, 0, 0, 0, 0, 0, 0, 0, 0,
    2, 0, 0, 0, 0, 0, 0, 0, 8, 0, 0, 0, 0, 0, 0, 0,
    0, 0, 0, 0, 0, 0, 0, 0,
    0xAA, 0xBB, 0xCC, 0xDD] (a - 0x1000).toNat 0

theorem twoSegments_headers : loadHeaders twoSegments 0x1000 = [0x1040, 0x1078] := by decide +kernel

theorem twoSegments_first : field twoSegments 0x1040 pVaddr = 0x10 ∧ field twoSegments 0x1040 pMemsz = 4 ∧
    field twoSegments 0x1040 pFilesz = 2 ∧ field twoSegments 0x1040 pOffset = 176 := by decide +kernel

theorem twoSegments_second : field twoSegments 0x1078 pVaddr = 0x20 ∧ field twoSegments 0x1078 pMemsz = 8 ∧
    field twoSegments 0x1078 pFilesz = 2 ∧ field twoSegments 0x1078 pOffset = 178 := by decide +kernel

theorem twoSegments_ordered : Ordered twoSegments 0x1000 180 := by
  obtain ⟨hv, hm, hf, ho⟩ := twoSegments_first
  obtain ⟨hv', hm', hf', ho'⟩ := twoSegments_second
  constructor <;> rw [twoSegments_headers]
  · decide
  · simp only [List.pairwise_cons, List.forall_mem_singleton, List.not_mem_nil, segmentEnd, segmentStart, hv, hv', hm]
    simp
  · simp only [List.forall_mem_cons, segmentEnd, segmentStart, hv, hv', hm, hm']
    simp
  · simp only [List.forall_mem_cons, segmentEnd, segmentStart, hv, hv', hm, hm']
    simp
  · simp only [List.forall_mem_cons, hf, hf', hm, hm']
    simp
  · simp only [List.forall_mem_cons, hf, hf', ho, ho']
    simp

theorem loaded_image_two_segments : ∃ u, privateLoadBinary (fun _ => 0x8000) (.fresh twoSegments 0x1000 180) = .ok () u ∧
    IsImage twoSegments 0x1000 u.binary u.memory := by
  have loads : wp (privateLoadBinary fun _ => 0x8000) (fun _ _ => True) (fun _ _ => False)
      (.fresh twoSegments 0x1000 180) := by decide +kernel
  obtain ⟨⟨⟩, u, loaded, -⟩ := exists_of_wp loads
  have total : imageSize twoSegments 0x1000 = 0x18 := by decide +kernel
  refine ⟨u, loaded, loaded_image twoSegments 0x1000 180 _ _ u (.inl rfl) twoSegments_ordered ?_ loaded⟩
  rw [total]
  intro a inFile
  rw [Has, show (180 : Word).toNat = 180 from rfl] at inFile
  rw [Has, show (0x18 : Word).toNat = 0x18 from rfl]
  bv_omega

end Gevisor.Verified.ElfImage
