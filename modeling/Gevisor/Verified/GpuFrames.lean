import Gevisor.Vmm.Tracking
import Gevisor.Vmm.Refinement

/-! # The frames that a registered buffer adds

`add_gpu_buffer_2m` takes the number of frames from the size of the buffer alone, as `size / 4096 * 512`
and one more for a rest. `Appended` is its effect on `gpu_paddrs`, whatever the map looks like.
-/

namespace Gevisor.Verified

open Gevisor.Lib Gevisor.Ept Gevisor.Vmm

/-- The frames from that of `paddr` on have been appended. -/
structure Appended (paddr n : Nat) (g g' : Globals) : Prop where
  count : g'.countGpuPaddrs = g.countGpuPaddrs + n
  old : ∀ k, k < g.countGpuPaddrs → g'.gpuPaddrs k = g.gpuPaddrs k
  new : ∀ i, i < n → g'.gpuPaddrs (g.countGpuPaddrs + i) = frameAddress paddr i

section Effect

variable {E : Type} {paddr n : Nat} {g g' : Globals}

theorem gpuPaddrs_note (v : Nat) (g : Globals) :
    (noteGpuPaddr v g).gpuPaddrs = Function.update g.gpuPaddrs g.countGpuPaddrs v := rfl

theorem Appended.note (ha : Appended paddr n g g') :
    Appended paddr (n + 1) g (noteGpuPaddr (frameAddress paddr n) g') where
  count := congrArg (· + 1) ha.count
  old k hb := by
    rw [gpuPaddrs_note, Function.update_of_ne (by have := ha.count; omega)]
    exact ha.old k hb
  new i hb := by
    rw [gpuPaddrs_note, ha.count]
    cases Nat.lt_succ_iff_lt_or_eq.mp hb with
    | inl less =>
      rw [Function.update_of_ne (by omega)]
      exact ha.new i less
    | inr last => rw [last, Function.update_self]

theorem ensure2m_globals (ops : EptOps E) (v : Nat) (p : Globals → Prop) :
    Preserves (fun s => p s.g) (ensure2m ops v) :=
  .bind (onMap_globals p _) fun _ => .ite (fun _ => onMap_globals p _) fun _ => .pure ()

/-- A call that returns has appended its frames. -/
theorem addGpuBuffer2m_appends (ops : EptOps E) (m : E) (vaddr : Nat) (hp : paddr ≠ 0) (size : Nat) :
    wp (addGpuBuffer2m ops vaddr paddr size) (fun _ t => Appended paddr (bufferFrames size) g t.g)
      (fun _ _ => True) ⟨m, g⟩ := by
  rw [addGpuBuffer2m, if_pos hp, wp_bind, wp_getG, wp_bind, wp_checkIndex]
  split
  case isFalse => trivial
  case isTrue =>
  rw [wp_bind, wp_modifyG, wp_bind]
  refine wp_loop (fun i t => Appended paddr i g t.g) ⟨rfl, fun _ _ => rfl, fun i none => absurd none (by omega)⟩
    (fun i t _ hbe => ?_) fun t ha => ⟨ha.count, ha.old, ha.new⟩
  rw [wp_bind]
  refine wp_mono (fun _ u kept => ?_) (fun _ _ _ => trivial) (ensure2m_globals ops _ (Appended paddr i g) t hbe)
  rw [addGpuPaddr, wp_bind, wp_getG, wp_bind, wp_checkIndex]
  split
  · exact kept.note
  · trivial

/-- The call returns if all of these frames are mapped and the arrays have room for them. -/
theorem addGpuBuffer2m_returns {mtrrs : Mtrrs} {A : AddrMap} {size : Nat} (hid : IsIdentity maxPhysAddr A)
    (vaddr : Nat) (hp : paddr ≠ 0)
    (hmap : ∀ i, i < bufferFrames size → frameAddress paddr i % 2 ^ 48 < maxPhysAddr)
    (hbu : g.countGpuBuffers < gpuBufferNum) (room : g.countGpuPaddrs + bufferFrames size ≤ gpuPaddrNum) :
    wp (addGpuBuffer2m (addrMapOps mtrrs) vaddr paddr size) (fun _ _ => True) (fun _ _ => False) ⟨A, g⟩ := by
  rw [addGpuBuffer2m, if_pos hp, wp_bind, wp_getG, wp_bind, wp_checkIndex]
  split
  case isFalse full => exact full hbu
  case isTrue =>
  rw [wp_bind, wp_modifyG, wp_bind]
  refine wp_loop (fun i t => IsIdentity maxPhysAddr t.guestMap ∧ t.g.countGpuPaddrs = g.countGpuPaddrs + i)
    ⟨hid, rfl⟩ (fun i t hb hbe => ?_) fun _ _ => trivial
  obtain ⟨A', g'⟩ := t
  obtain ⟨hid', hc⟩ := hbe
  rw [wp_bind]
  cases ensure2m_cases mtrrs g' hid' (frameAddress paddr i) with
  | inl hret =>
    have hi : g'.countGpuPaddrs < arrayLength .gpuPaddrs := by
      simp only [arrayLength]
      dsimp only at hc
      omega
    rw [wp_of_ok hret.1, addGpuPaddr, wp_bind, wp_getG, wp_bind, wp_checkIndex, if_pos hi]
    exact ⟨hid'.merged (by decide), congrArg (· + 1) hc⟩
  | inr hth =>
    obtain ⟨-, -, -, hout⟩ := hth
    exact (hout (Nat.mod_lt _ (by decide)) (hmap i hb)).elim

end Effect

/-- Frame number `f` and the buffer have a byte in common. -/
def Intersects (paddr size f : Nat) : Prop := f * 2 ^ 21 < paddr + size ∧ paddr < (f + 1) * 2 ^ 21

/-- The call returns with one new address in each frame of the buffer and none in any other frame. -/
def AppendsItsFrames (mm : PagePool) (mtrrs : Mtrrs) (m : Mmap) (g : Globals) (vaddr paddr size : Nat) : Prop :=
  ∃ s, addGpuBuffer2m (mmapOps mm mtrrs) vaddr paddr size ⟨m, g⟩ = .ok () s ∧
    (∀ k, k < g.countGpuPaddrs → s.g.gpuPaddrs k = g.gpuPaddrs k) ∧
    (∀ f, Intersects paddr size f →
      ∃! k, g.countGpuPaddrs ≤ k ∧ k < s.g.countGpuPaddrs ∧ s.g.gpuPaddrs k / 2 ^ 21 = f) ∧
    ∀ k, g.countGpuPaddrs ≤ k → k < s.g.countGpuPaddrs → Intersects paddr size (s.g.gpuPaddrs k / 2 ^ 21)

section Frames

variable {mm : PagePool} {m : Mmap} {g : Globals} {A : AddrMap} {paddr size : Nat}

/-- From a page on, there are far too many frames. -/
theorem frames_beyond (hi : paddr + size ≤ maxPhysAddr) (page : 4096 ≤ size) :
    size / 2 ^ 21 + 2 < bufferFrames size ∧
      ¬ Intersects paddr size (frameAddress paddr (size / 2 ^ 21 + 2) / 2 ^ 21) := by
  simp only [bufferFrames, frameAddress, Intersects, maxPhysAddr] at *
  omega

theorem bufferFrames_small (some : 0 < size) (hs : size < 4096) : bufferFrames size = 1 := by
  simp only [bufferFrames]
  split <;> omega

/-- The number of frames is right only for a buffer of less than a page that lies in one frame. Other buffers get
a frame for every 8 bytes, or miss the second of their two frames. -/
theorem appends_its_frames_iff (mtrrs : Mtrrs) (refines : Refines mm m A) (identity : IsIdentity maxPhysAddr A)
    (built : g.flagEpt = true) (vaddr : Nat) (present : paddr ≠ 0) (some : 0 < size)
    (inside : paddr + size ≤ maxPhysAddr) (buffers : g.countGpuBuffers < gpuBufferNum)
    (room : g.countGpuPaddrs < gpuPaddrNum) :
    AppendsItsFrames mm mtrrs m g vaddr paddr size ↔ size < 4096 ∧ paddr % 2 ^ 21 + size ≤ 2 ^ 21 := by
  have appends := addGpuBuffer2m_appends (g := g) (mmapOps mm mtrrs) m vaddr present size
  constructor
  · intro exactly
    obtain ⟨s, returns, -, every, only⟩ := exactly
    rw [wp_of_ok returns] at appends
    obtain ⟨count, -, new⟩ := appends
    have small : size < 4096 := by
      by_contra page
      obtain ⟨below, beyond⟩ := frames_beyond inside (Nat.le_of_not_lt page)
      apply beyond
      rw [← new _ below]
      exact only _ (by omega) (by omega)
    refine ⟨small, ?_⟩
    by_contra crosses
    -- The buffer reaches into the next frame, which is not tracked.
    obtain ⟨k, ⟨lower, upper, frame⟩, -⟩ := every (paddr / 2 ^ 21 + 1) (by simp only [Intersects]; omega)
    rw [count, bufferFrames_small some small] at upper
    obtain rfl : k = g.countGpuPaddrs + 0 := by omega
    rw [new 0 (by rw [bufferFrames_small some small]; decide)] at frame
    simp only [frameAddress, maxPhysAddr] at frame inside
    omega
  · intro one
    obtain ⟨small, within⟩ := one
    have frames := bufferFrames_small some small
    have address : frameAddress paddr 0 = paddr := by
      simp only [frameAddress, maxPhysAddr] at inside ⊢
      omega
    have mapped (i : Nat) (below : i < bufferFrames size) : frameAddress paddr i % 2 ^ 48 < maxPhysAddr := by
      obtain rfl : i = 0 := by omega
      rw [address]
      simp only [maxPhysAddr] at inside ⊢
      omega
    have agree : EptOps.Agree (Refines mm) (mmapOps mm mtrrs) (addrMapOps mtrrs) := mmapOps_agree mtrrs
    have returns := (addGpuBuffer2m_simulates agree vaddr paddr size).wp
      (s := ⟨m, g⟩) (t := ⟨A, g⟩) ⟨rfl, built, refines⟩
      (addGpuBuffer2m_returns identity vaddr present mapped buffers (by omega))
    obtain ⟨_, s, returns, -, count, old, new⟩ := exists_of_wp (wp_mono (fun _ _ ends => ends)
      (fun _ _ throws => by obtain ⟨⟨_, _, _, _, impossible⟩, -⟩ := throws; exact impossible) (wp_and returns appends))
    have first : s.g.gpuPaddrs g.countGpuPaddrs = paddr := (new 0 (by omega)).trans address
    refine ⟨s, returns, old, fun f meets => ⟨g.countGpuPaddrs, ⟨Nat.le_refl _, by omega, ?_⟩, ?_⟩, fun k lower upper => ?_⟩
    · rw [first]
      simp only [Intersects] at meets
      omega
    · intro k here
      obtain ⟨lower, upper, -⟩ := here
      omega
    · obtain rfl : k = g.countGpuPaddrs := by omega
      rw [first]
      simp only [Intersects]
      omega

end Frames

/-- GEVisor's globals once the identity map is built. -/
def builtGlobals : Globals := { initialGlobals none (fun _ _ => 0) with flagEpt := true }

theorem exists_identity_map :
    ∃ m A, identityMap default default 0 maxPhysAddr .readWriteExecute (Mmap.init default fun _ _ => 0) = .ok () m ∧
      Refines default m A ∧ IsIdentity maxPhysAddr A := by
  obtain ⟨m, hret, href⟩ := @identityMap_spec default _ default .readWriteExecute maxPhysAddr
    (by decide) (by decide) (init_bare fun _ _ => 0)
  exact ⟨m, _, hret, href, identity_isIdentity (default : Mtrrs).contiguous (by decide)⟩

/-- A buffer of one page gets 513 frames, up to an address 1G above it. -/
theorem page_gets_513_frames :
    ∃ m s, identityMap default default 0 maxPhysAddr .readWriteExecute (Mmap.init default fun _ _ => 0) = .ok () m ∧
      addGpuBuffer2m (mmapOps default default) 0 0x200000 0x1000 ⟨m, builtGlobals⟩ = .ok () s ∧
      s.g.countGpuPaddrs = 513 ∧ s.g.gpuPaddrs 512 = 0x40200000 ∧
      ¬ Intersects 0x200000 0x1000 (s.g.gpuPaddrs 512 / 2 ^ 21) := by
  obtain ⟨m, A, builds, refines, identity⟩ := exists_identity_map
  have mapped (i : Nat) (below : i < bufferFrames 0x1000) : frameAddress 0x200000 i % 2 ^ 48 < maxPhysAddr := by
    have frames : bufferFrames 0x1000 = 513 := by decide
    simp only [frameAddress, maxPhysAddr]
    omega
  have agree : EptOps.Agree (Refines default) (mmapOps default default) (addrMapOps default) := mmapOps_agree default
  have returns := (addGpuBuffer2m_simulates agree 0 0x200000 0x1000).wp
    (s := ⟨m, builtGlobals⟩) (t := ⟨A, builtGlobals⟩) ⟨rfl, rfl, refines⟩
    (addGpuBuffer2m_returns identity 0 (by decide) mapped (by decide) (by decide))
  have appends := addGpuBuffer2m_appends (g := builtGlobals) (mmapOps default default) m 0
    (show 0x200000 ≠ 0 by decide) 0x1000
  obtain ⟨_, s, returns, -, count, -, new⟩ := exists_of_wp (wp_mono (fun _ _ ends => ends)
    (fun _ _ throws => by obtain ⟨⟨_, _, _, _, impossible⟩, -⟩ := throws; exact impossible) (wp_and returns appends))
  have last : s.g.gpuPaddrs 512 = 0x40200000 := new 512 (by decide)
  refine ⟨m, s, builds, returns, count, last, ?_⟩
  rw [last, Intersects]
  decide

theorem small_buffer_gets_its_frame :
    ∃ m, identityMap default default 0 maxPhysAddr .readWriteExecute (Mmap.init default fun _ _ => 0) = .ok () m ∧
      AppendsItsFrames default default m builtGlobals 0x7f0000001000 0x3ff000 0xfff := by
  obtain ⟨m, A, builds, refines, identity⟩ := exists_identity_map
  exact ⟨m, builds, (appends_its_frames_iff default refines identity rfl 0x7f0000001000 (by decide) (by decide)
    (by decide) (by decide) (by decide)).mpr (by decide)⟩

end Gevisor.Verified
