import Gevisor.Vmm.Effects

/-! # Tracked GPU frames

The frames of registered buffers. A frame is turned into one large page before it is tracked, and
registering a buffer tracks the frames from its address on until one of them is not mapped.
-/

namespace Gevisor.Vmm

open Gevisor.Lib
open Gevisor.Ept

/-- The frame of `a` is one large page. -/
def IsLarge (A : AddrMap) (a : Nat) : Prop := ∃ e, A a = some ⟨.pd, e⟩

variable {A : AddrMap} {a : Nat} {g : Globals}

theorem IsLarge.merged (hl : IsLarge A a) (v : Nat) : IsLarge (A.merged v) a := by
  obtain ⟨e, hf⟩ := hl
  exact ⟨e, AddrMap.merged_large hf⟩

theorem IsLarge.updated (hl : IsLarge A a) (v : Nat) (changes : List Change) : IsLarge (A.updated v changes) a := by
  obtain ⟨e, hf⟩ := hl
  exact ⟨_, AddrMap.updated_level hf⟩

/-- `a` is one of the frames whose access bits the channel commands change. -/
def Tracked (g : Globals) (a : Nat) : Prop := ∃ k < g.countGpuPaddrs, g.gpuPaddrs k = a

theorem tracked_kept {g' : Globals} (kept : Kept g g') : Tracked g' a ↔ Tracked g a := by
  rw [Tracked, Tracked, kept.countGpuPaddrs, kept.gpuPaddrs]

theorem tracked_note {v : Nat} : Tracked (noteGpuPaddr v g) a ↔ Tracked g a ∨ a = v := by
  have hc : (noteGpuPaddr v g).countGpuPaddrs = g.countGpuPaddrs + 1 := rfl
  have hp : (noteGpuPaddr v g).gpuPaddrs = Function.update g.gpuPaddrs g.countGpuPaddrs v := rfl
  simp only [Tracked, hc, hp]
  constructor
  · rintro ⟨k, hb, hf⟩
    by_cases last : k = g.countGpuPaddrs
    · rw [last, Function.update_self] at hf
      exact .inr hf.symm
    · rw [Function.update_of_ne last] at hf
      exact .inl ⟨k, by omega, hf⟩
  · rintro (⟨k, hb, hf⟩ | rfl)
    · exact ⟨k, by omega, by rwa [Function.update_of_ne (by omega)]⟩
    · exact ⟨g.countGpuPaddrs, by omega, Function.update_self ..⟩

/-! ## Registering a buffer -/

section Register

variable {mtrrs : Mtrrs} {A : AddrMap} {g : Globals}

/-- The loop stops early only where a frame is not mapped, or in a fault. -/
theorem addGpuBuffer2m_tracks (hid : IsIdentity maxPhysAddr A) {paddr : Nat} (hp : paddr ≠ 0) (vaddr size : Nat) :
    wp (addGpuBuffer2m (addrMapOps mtrrs) vaddr paddr size)
      (fun _ t => ∀ a, Tracked t.g a ↔ Tracked g a ∨ ∃ i < bufferFrames size, a = frameAddress paddr i ∧
        ∀ j ≤ i, frameAddress paddr j % 2 ^ 48 < maxPhysAddr)
      (fun e t => e.isExn = true → ∀ a, Tracked t.g a ↔ Tracked g a ∨
        ∃ i < bufferFrames size, a = frameAddress paddr i ∧
          ∀ j ≤ i, frameAddress paddr j % 2 ^ 48 < maxPhysAddr) ⟨A, g⟩ := by
  rw [addGpuBuffer2m, if_pos hp, wp_bind, wp_getG, wp_bind, wp_checkIndex]
  split
  case isFalse => exact fun hf => absurd hf Bool.false_ne_true
  case isTrue =>
  rw [wp_bind, wp_modifyG, wp_bind]
  -- Before iteration `i` the frames below `i` have been tracked, and all of them are mapped.
  refine wp_loop (fun i t => IsIdentity maxPhysAddr t.guestMap ∧
      (∀ j < i, frameAddress paddr j % 2 ^ 48 < maxPhysAddr) ∧
      ∀ a, Tracked t.g a ↔ Tracked g a ∨ ∃ j < i, a = frameAddress paddr j)
    ⟨hid, fun j hb => by omega, fun a => by simp [Tracked]⟩ (fun i t hbo hbe => ?_) fun t ha a => ?_
  · obtain ⟨A', g'⟩ := t
    obtain ⟨hid', hea, htd⟩ := hbe
    have word : frameAddress paddr i < 2 ^ 64 := Nat.mod_lt _ (by decide)
    rw [wp_bind]
    cases ensure2m_cases mtrrs g' hid' (frameAddress paddr i) with
    | inl hret =>
      obtain ⟨hret, hi⟩ := hret
      rw [wp_of_ok hret, addGpuPaddr, wp_bind, wp_getG, wp_bind, wp_checkIndex]
      split
      · refine ⟨hid'.merged (by decide), fun j hb => ?_, fun a => ?_⟩
        · cases Nat.lt_or_eq_of_le (Nat.le_of_lt_succ hb) with
          | inl less => exact hea j less
          | inr heq => exact heq ▸ hi
        · refine tracked_note.trans ((or_congr_left (htd a)).trans (or_assoc.trans (or_congr_right ?_)))
          simp only [Nat.lt_succ_iff_lt_or_eq, or_and_right, exists_or, exists_eq_left]
      · exact fun hf => absurd hf Bool.false_ne_true
    | inr hth =>
      obtain ⟨e, hth, -, hout⟩ := hth
      rw [wp_of_error hth]
      refine fun _ a => (htd a).trans (or_congr_right ⟨?_, ?_⟩)
      · rintro ⟨j, hb, same⟩
        exact ⟨j, by omega, same, fun k upto => hea k (by omega)⟩
      · rintro ⟨j, -, same, hi⟩
        refine ⟨j, ?_, same⟩
        by_contra hby
        exact hout word (hi i (by omega))
  · obtain ⟨-, hi, htd⟩ := ha
    refine (htd a).trans (or_congr_right ⟨?_, ?_⟩)
    · rintro ⟨j, hb, same⟩
      exact ⟨j, hb, same, fun k upto => hi k (by omega)⟩
    · rintro ⟨j, hb, same, -⟩
      exact ⟨j, hb, same⟩

/-- What is tracked after command `m`. -/
theorem registerBuffer_tracks (hid : IsIdentity maxPhysAddr A) (buf size cr3 : Nat) :
    wp (registerBuffer (addrMapOps mtrrs) buf size cr3)
      (fun _ t => ∀ a, Tracked t.g a ↔ Tracked g a ∨ NewFrame g buf size cr3 a)
      (fun e t => e.isExn = true → ∀ a, Tracked t.g a ↔ Tracked g a ∨ NewFrame g buf size cr3 a) ⟨A, g⟩ := by
  rw [registerBuffer, wp_bind]
  refine wp_mono ?_ ?_ (checkBufferExists_spec buf ⟨A, g⟩)
  · rintro hf _ ⟨rfl, he⟩
    rw [wp_ite]
    split
    · next hk =>
      exact fun a => (or_iff_left fun new => new.1 (he.mp hk)).symm
    · next hab =>
      have new : ¬ BufferKnown g buf := fun hk => hab (he.mpr hk)
      rw [wp_bind, wp_getG, wp_bind]
      cases htl : customVirtToPhysWithCr3 g.mem buf cr3 with
      | error e =>
        refine fun _ a => (or_iff_left ?_).symm
        rintro ⟨-, paddr, hret, -⟩
        cases htl.symm.trans hret
      | ok paddr =>
        by_cases hp : paddr ≠ 0
        · have hfr (a : Nat) : NewFrame g buf size cr3 a ↔ ∃ i < bufferFrames size, a = frameAddress paddr i ∧
              ∀ j ≤ i, frameAddress paddr j % 2 ^ 48 < maxPhysAddr := by
            simp [NewFrame, new, htl, hp]
          simp only [hfr]
          exact addGpuBuffer2m_tracks hid hp buf size
        · have none (a : Nat) : ¬ NewFrame g buf size cr3 a := by
            rintro ⟨-, paddr', hret, hp', -⟩
            cases htl.symm.trans hret
            exact hp hp'
          simp only [none, or_false]
          exact (wp_ite ..).mpr (by rw [if_neg hp]; exact fun _ => Iff.rfl)
  · rintro e _ ⟨rfl, hfa⟩ exn
    rw [hfa] at exn
    cases exn

end Register

end Gevisor.Vmm
