import Gevisor.Elf.Bounds

/-! # Loading an accepted file

`bfelf_file_init` checks the header and nothing else. When the reads of the file stay in the file and the
writes in the image is therefore a question about the file: the tables, the names and the contents of the
segments have to lie inside it, and the segments inside what the last one of them makes the image.
-/

namespace Gevisor.Verified.ElfBounds

open Lib Elf

variable {memory : Bytes} {file size : Word}

theorem privateLoadBinary_bounds (alloc : Word → Word) {t : Loader}
    (hacc : fileInit file size (.fresh memory file size) = .ok () t) :
    wp (privateLoadBinary alloc) (fun _ u => u.InBounds ↔
        Contained memory file size ∧ (alloc (imageSize memory file) ≠ 0 → SegmentsFit memory file size))
      (fun _ u => u.InBounds ↔
        Contained memory file size ∧ (alloc (imageSize memory file) ≠ 0 → SegmentsFit memory file size))
      (.fresh memory file size) := by
  obtain ⟨⟨ef, hh, hrd⟩, null, hc⟩ := fileInit_processes (alloc (imageSize memory file)) (imageSize memory file) hacc
  obtain ⟨-, hb⟩ := hh
  have ht : t.binary.ef.totalMemsz = imageSize memory file := by rw [hb, hrd.totalMemsz]
  rw [← ht] at hc ⊢
  generalize hi : alloc t.binary.ef.totalMemsz = exec at hc ⊢
  -- The state in which the copying starts.
  let u : Loader := { t with binary := { t.binary with execSize := t.binary.ef.totalMemsz, exec := exec } }
  have hv (v : Loader) (same : v.binary = u.binary) :
      v.InBounds ↔ Permitted Loader.accesses (Access.Inside file size exec t.binary.ef.totalMemsz) v := by
    rw [Loader.InBounds, same, Permitted, show u.binary.file = file by simp only [u, hb],
      show u.binary.fileSize = size by simp only [u, hb]]
  have hl : privateLoadBinary alloc (.fresh memory file size) = (if exec = 0 then do
        throw (.outOfMemory "unable to allocate exec RWE memory")
        memset exec t.binary.ef.totalMemsz
        forFrom copySegment 0 t.binary.ef.loadInstr.length
      else do
        memset exec t.binary.ef.totalMemsz
        forFrom copySegment 0 t.binary.ef.loadInstr.length : LoaderM Unit) u := by
    subst hi
    have init : initBinary (.fresh memory file size) = .ok () t := hacc
    exact bind_of_ok init _
  simp only [wp, hl]
  by_cases hfa : exec = 0
  · rw [if_pos hfa]
    have ends : (do
        throw (.outOfMemory "unable to allocate exec RWE memory")
        memset exec t.binary.ef.totalMemsz
        forFrom copySegment 0 t.binary.ef.loadInstr.length : LoaderM Unit) u =
          .error (.outOfMemory "unable to allocate exec RWE memory") u := rfl
    rw [ends]
    refine (hv u rfl).trans (hc.trans ?_)
    exact ⟨fun hw => ⟨hw, fun hs => absurd hfa hs⟩, fun hw => hw.1⟩
  · rw [if_neg hfa]
    have hco := copy_stays size exec t.binary.ef.totalMemsz (s := u) (b := u.binary)
      (by simp only [u, hb]; exact hrd) rfl (by simp only [u, hb]) rfl ht
    rw [Stays, Touches] at hco
    obtain ⟨_, v, hret, same, hv'⟩ := exists_of_wp hco
    rw [hret]
    refine (hv v same).trans (hv'.trans ?_)
    have hbe : Permitted Loader.accesses (Access.Inside file size exec t.binary.ef.totalMemsz) u ↔ Contained memory file size :=
      hc
    rw [hbe]
    exact ⟨fun hw => ⟨hw.1, fun _ => hw.2⟩, fun hw => ⟨hw.1, hw.2 hfa⟩⟩

/-- For every file that `bfelf_file_init` accepts, whether it is initialised by `private_load_binary` or
before, and every allocator: all accesses stay within bounds exactly if what they refer to does. -/
theorem load_in_bounds_iff (memory : Bytes) (file size : Word) (alloc : Word → Word) (t : Loader)
    (accepted : fileInit file size (.fresh memory file size) = .ok () t) :
    (wp (privateLoadBinary alloc) (fun _ u => u.InBounds) (fun _ u => u.InBounds) (.fresh memory file size) ↔
      Contained memory file size ∧ (alloc (imageSize memory file) ≠ 0 → SegmentsFit memory file size)) ∧
    (wp (privateLoadBinary alloc) (fun _ u => u.InBounds) (fun _ u => u.InBounds) t ↔
      Contained memory file size ∧ (alloc (imageSize memory file) ≠ 0 → SegmentsFit memory file size)) := by
  have verdict := privateLoadBinary_bounds alloc accepted
  have loaded := privateLoadBinary_initialised alloc accepted
  have exact : wp (privateLoadBinary alloc) (fun _ u => u.InBounds) (fun _ u => u.InBounds) (.fresh memory file size) ↔
      Contained memory file size ∧ (alloc (imageSize memory file) ≠ 0 → SegmentsFit memory file size) := by
    simp only [wp] at verdict ⊢
    cases result : privateLoadBinary alloc (.fresh memory file size) with
    | ok a u => rw [result] at verdict; exact verdict
    | error e u => rw [result] at verdict; exact verdict
  refine ⟨exact, ?_⟩
  rw [← exact, wp, wp, loaded]

/-- An executable at `0x1000` with one segment, of which `filesz` bytes are in the file and 16 in memory. -/
def oneSegment (filesz : Byte) : Bytes := fun a => List.getD
  [0x7F, 0x45, 0x4C, 0x46, 2, 1, 1, 0, 0, 0, 0, 0, 0, 0, 0, 0, -- e_ident
    2, 0, 62, 0, 1, 0, 0, 0, 0, 0, 0, 0, 0, 0, 0, 0, -- e_type, e_machine, e_version, e_entry
    64, 0, 0, 0, 0, 0, 0, 0, 0, 0, 0, 0, 0, 0, 0, 0, -- e_phoff, e_shoff
    0, 0, 0, 0, 64, 0, 56, 0, 1, 0, 64, 0, 0, 0, 0, 0, -- e_flags to e_shstrndx, with e_phnum = 1
    1, 0, 0, 0, 5, 0, 0, 0, 0, 0, 0, 0, 0, 0, 0, 0, -- p_type, p_flags, p_offset
    0, 0, 0, 0, 0, 0, 0, 0, 0, 0, 0, 0, 0, 0, 0, 0, -- p_vaddr, p_paddr
    filesz, 0, 0, 0, 0, 0, 0, 0, 16, 0, 0, 0, 0, 0, 0, 0, -- p_filesz, p_memsz
    0, 0, 0, 0, 0, 0, 0, 0] (a - 0x1000).toNat 0

theorem load_in_bounds_one_segment : Contained (oneSegment 16) 0x1000 120 ∧
      ((0x8000 : Word) ≠ 0 → SegmentsFit (oneSegment 16) 0x1000 120) := by
  have accepts : wp (fileInit 0x1000 120) (fun _ _ => True) (fun _ _ => False) (.fresh (oneSegment 16) 0x1000 120) := by
    decide +kernel
  obtain ⟨⟨⟩, t, accepted, -⟩ := exists_of_wp accepts
  exact (load_in_bounds_iff (oneSegment 16) 0x1000 120 (fun _ => 0x8000) t accepted).1.mp (by decide +kernel)

/-- A segment with more bytes in the file than in memory is copied beyond the end of the image. -/
theorem load_out_of_bounds : (∃ t, fileInit 0x1000 120 (.fresh (oneSegment 64) 0x1000 120) = .ok () t) ∧
      ¬ wp (privateLoadBinary fun _ => 0x8000) (fun _ u => u.InBounds) (fun _ u => u.InBounds)
        (.fresh (oneSegment 64) 0x1000 120) := by
  have accepts : wp (fileInit 0x1000 120) (fun _ _ => True) (fun _ _ => False) (.fresh (oneSegment 64) 0x1000 120) := by
    decide +kernel
  obtain ⟨⟨⟩, t, accepted, -⟩ := exists_of_wp accepts
  exact ⟨⟨t, accepted⟩, by decide +kernel⟩

end Gevisor.Verified.ElfBounds
