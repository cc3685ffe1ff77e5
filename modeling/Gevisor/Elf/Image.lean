import Gevisor.Elf.Bounds
import Gevisor.Elf.Words

/-! # The image of a file

Copying one segment after another into a cleared image, for load instructions that do not overlap.
-/

namespace Gevisor.Elf

open Lib

/-- The instructions are in ascending order without overlaps, copy into an image of `execSize` bytes, and copy from
a file of `size` bytes. -/
structure Laid (instrs : List LoadInstr) (size execSize : Word) : Prop where
  ascending : instrs.Pairwise fun x y => x.memOffset.toNat + x.filesz.toNat ≤ y.memOffset.toNat
  within : ∀ x ∈ instrs, x.memOffset.toNat + x.filesz.toNat ≤ execSize.toNat
  contents : ∀ x ∈ instrs, x.fileOffset.toNat + x.filesz.toNat ≤ size.toNat

/-- Memory after the first `k` instructions, of which the image began as zeros. -/
structure Copied (instrs : List LoadInstr) (before : Bytes) (file exec execSize : Word) (k : Nat) (memory : Bytes) :
    Prop where
  outside : ∀ a, ¬ Has exec execSize.toNat a → memory a = before a
  copied : ∀ x ∈ instrs.take k, ∀ i < x.filesz.toNat,
    memory (exec + x.memOffset + BitVec.ofNat 64 i) = before (file + x.fileOffset + BitVec.ofNat 64 i)
  cleared : ∀ a, Has exec execSize.toNat a → (∀ x ∈ instrs.take k, ¬ Has (exec + x.memOffset) x.filesz.toNat a) →
    memory a = 0

variable {base a : Word} {n m i : Nat}

/-- A part of a region, given by its offset. -/
theorem has_of_part {offset : Word} (fits : offset.toNat + n ≤ m) (has : Has (base + offset) n a) :
    Has base m a := by
  rw [Has] at *
  bv_omega

theorem not_has_later {p q : Word} (hor : p.toNat + n ≤ q.toNat) (room : q.toNat + m < 2 ^ 64)
    (has : Has (base + q) m a) : ¬ Has (base + p) n a := by
  intro ho
  rw [Has] at *
  bv_omega

theorem has_index (hs : n < 2 ^ 64) (hb : i < n) : Has base n (base + BitVec.ofNat 64 i) := by
  apply has_add
  rw [BitVec.toNat_ofNat, Nat.mod_eq_of_lt (by omega)]
  exact hb

/-- Memory after `platform_memcpy`. -/
def copy (memory : Bytes) (dst src : Word) (n : Nat) : Bytes := fun a =>
  if Has dst n a then memory (src + (a - dst)) else memory a

theorem copy_of_not_has {memory : Bytes} {dst src : Word} (hout : ¬ Has dst n a) :
    copy memory dst src n a = memory a := by
  rw [copy, if_neg hout]

theorem copy_index (memory : Bytes) (dst src : Word) (hs : n < 2 ^ 64) (hb : i < n) :
    copy memory dst src n (dst + BitVec.ofNat 64 i) = memory (src + BitVec.ofNat 64 i) := by
  rw [copy, if_pos (has_index hs hb), BitVec.add_comm dst, BitVec.add_sub_cancel]

section

variable {instrs : List LoadInstr} {size execSize : Word} (laid : Laid instrs size execSize) {before : Bytes}
  {file exec : Word} (apart : ∀ a, Has file size.toNat a → ¬ Has exec execSize.toNat a)

include laid apart

/-- One `platform_memcpy`: the earlier segments and what is outside the image stay as they are. -/
theorem Copied.next {k : Nat} {x : LoadInstr} {memory : Bytes} (here : instrs[k]? = some x)
    (hc : Copied instrs before file exec execSize k memory) :
    Copied instrs before file exec execSize (k + 1)
      (copy memory (exec + x.memOffset) (file + x.fileOffset) x.filesz.toNat) := by
  obtain ⟨hb, here'⟩ := List.getElem?_eq_some_iff.mp here
  have hm : x ∈ instrs := List.mem_of_getElem? here
  have hw := laid.within x hm
  have hsm := execSize.isLt
  have htk : instrs.take (k + 1) = instrs.take k ++ [x] := by
    rw [List.take_add_one, here]
    rfl
  -- What is copied is still what the file held at the beginning.
  have hs : ∀ i < x.filesz.toNat, memory (file + x.fileOffset + BitVec.ofNat 64 i) =
      before (file + x.fileOffset + BitVec.ofNat 64 i) := by
    intro i less
    apply hc.outside
    apply apart
    exact has_of_part (laid.contents x hm) (has_index x.filesz.isLt less)
  constructor
  · intro a hout
    have he : ¬ Has (exec + x.memOffset) x.filesz.toNat a := fun has => hout (has_of_part hw has)
    rw [copy_of_not_has he]
    exact hc.outside a hout
  · intro y mem i less
    rw [htk, List.mem_append, List.mem_singleton] at mem
    cases mem with
    | inl hea =>
      have ho : y.memOffset.toNat + y.filesz.toNat ≤ x.memOffset.toNat := by
        obtain ⟨j, hl, at_⟩ := List.mem_take_iff_getElem.mp hea
        rw [← at_, ← here']
        exact List.pairwise_iff_getElem.mp laid.ascending j k _ hb (by omega)
      have he : ¬ Has (exec + x.memOffset) x.filesz.toNat (exec + y.memOffset + BitVec.ofNat 64 i) := by
        intro has
        exact not_has_later ho (by omega) has (has_index y.filesz.isLt less)
      rw [copy_of_not_has he]
      exact hc.copied y hea i less
    | inr last =>
      subst last
      rw [copy_index _ _ _ y.filesz.isLt less]
      exact hs i less
  · intro a hi none
    rw [htk, List.forall_mem_append, List.forall_mem_singleton] at none
    rw [copy_of_not_has none.2]
    exact hc.cleared a hi none.1

/-- The whole of `placeBinary`, if the image can be allocated. -/
theorem placeBinary_copies {alloc : Word → Word} {s : Loader} (hin : s.binary.ef.loadInstr = instrs)
    (hs : s.binary.ef.totalMemsz = execSize) (hf : s.binary.file = file) (he : alloc execSize = exec)
    (hsu : exec ≠ 0) (hm : s.memory = before) :
    wp (placeBinary alloc) (fun _ t => t.binary = (s.allocated alloc).binary ∧
      Copied instrs before file exec execSize instrs.length t.memory) (fun _ _ => False) s := by
  have him : alloc s.binary.ef.totalMemsz = exec := by rw [hs, he]
  rw [wp, placeBinary_of_ne (him ▸ hsu), ← wp, wp_bind, memset, wp_modify, hin]
  refine wp_loop (fun k t => t.binary = (s.allocated alloc).binary ∧ Copied instrs before file exec execSize k t.memory)
    ⟨rfl, ?_⟩ ?_ fun _ ends => ends
  · -- Before the first segment the image is all zeros.
    rw [him, hs]
    constructor
    · intro a hout
      show (if Has exec execSize.toNat a then 0 else s.memory a) = before a
      rw [if_neg hout, hm]
    · intro x mem
      rw [List.take_zero] at mem
      cases mem
    · intro a hi _
      show (if Has exec execSize.toNat a then 0 else s.memory a) = 0
      rw [if_pos hi]
  · intro k t hb inv
    have here : instrs[k]? = some instrs[k] := List.getElem?_eq_getElem hb
    have hl : t.binary.ef.loadInstr[k]? = some instrs[k] := by
      rw [inv.1, ← here, ← hin]
      rfl
    have base : t.binary.file = file := by
      rw [inv.1, ← hf]
      rfl
    have ht : t.binary.exec = exec := by
      rw [inv.1, ← him]
      rfl
    have hc : copySegment k t =
        memcpy (exec + instrs[k].memOffset) (file + instrs[k].fileOffset) instrs[k].filesz t := by
      rw [copySegment, get_bind, hl, base, ht]
    rw [wp, hc, ← wp, memcpy, wp_modify]
    exact ⟨inv.1, inv.2.next laid apart here⟩

end

section

variable {memory : Bytes} {file size : Word}

/-- A load that succeeds has initialised the file, unless that was done before. -/
theorem init_of_loaded {alloc : Word → Word} {u : Loader}
    (hld : privateLoadBinary alloc (.fresh memory file size) = .ok () u) :
    ∃ t, fileInit file size (.fresh memory file size) = .ok () t ∧ placeBinary alloc t = .ok () u := by
  have init : initBinary (.fresh memory file size) = fileInit file size (.fresh memory file size) := rfl
  rw [privateLoadBinary] at hld
  cases hres : fileInit file size (.fresh memory file size) with
  | error e t =>
    rw [bind_of_error (init.trans hres)] at hld
    cases hld
  | ok _ t =>
    rw [bind_of_ok (init.trans hres)] at hld
    exact ⟨t, rfl, hld⟩

end

end Gevisor.Elf
