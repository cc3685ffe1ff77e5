import Gevisor.Verified.Misconfiguration

/-! # Coverage of registered buffers

A buffer is given by a virtual range. The pages of the range are translated one by one by the hardware, but
only the first byte of the range by the code, which then counts off frames from there. A buffer that is
registered a second time is not looked at again.
-/

namespace Gevisor.Vmm

open Gevisor.Lib
open Gevisor.Ept

/-- What the hardware makes of a guest address: the entry of each level must be present. -/
def guestWalk (mem : GuestMem) (cr3 virt : Nat) : Option Nat :=
  let pml4Pte := mem (upper cr3 12) (Level.pml4.index virt)
  if !GuestPte.present pml4Pte then none
  else
    let pdptPte := mem (GuestPte.physAddr pml4Pte) (Level.pdpt.index virt)
    if !GuestPte.present pdptPte then none
    else if GuestPte.ps pdptPte then
      some (upper (GuestPte.physAddr pdptPte) Level.pdpt.fromBit ||| lower virt Level.pdpt.fromBit)
    else
      let pdPte := mem (GuestPte.physAddr pdptPte) (Level.pd.index virt)
      if !GuestPte.present pdPte then none
      else if GuestPte.ps pdPte then
        some (upper (GuestPte.physAddr pdPte) Level.pd.fromBit ||| lower virt Level.pd.fromBit)
      else
        let ptPte := mem (GuestPte.physAddr pdPte) (Level.pt.index virt)
        if !GuestPte.present ptPte then none
        else some (upper (GuestPte.physAddr ptPte) Level.pt.fromBit ||| lower virt Level.pt.fromBit)

/-- Where the code finds an address, the hardware finds the same. -/
theorem guestWalk_of_translated {mem : GuestMem} {virt cr3 paddr : Nat}
    (htl : customVirtToPhysWithCr3 mem virt cr3 = .ok paddr) (hp : paddr ≠ 0) :
    guestWalk mem cr3 virt = some paddr := by
  simp only [customVirtToPhysWithCr3, Bool.or_eq_true, decide_eq_true_eq] at htl
  -- Each level of the walk is either the one where the translation ends or has a present entry.
  split at htl
  · cases htl
  split at htl
  · cases htl
  split at htl
  · cases htl
  split at htl
  · exact absurd (Except.ok.inj htl).symm hp
  next pml4 =>
  split at htl
  · exact absurd (Except.ok.inj htl).symm hp
  next pdpt =>
  simp only [not_or, Bool.not_eq_true, Bool.not_eq_false'] at pml4 pdpt
  split at htl
  · next huge => simp [guestWalk, pml4.2, pdpt.2, huge, Except.ok.inj htl]
  next hn =>
  split at htl
  · exact absurd (Except.ok.inj htl).symm hp
  next pd =>
  simp only [not_or, Bool.not_eq_true, Bool.not_eq_false'] at pd
  split at htl
  · next hl => simp [guestWalk, pml4.2, pdpt.2, hn, pd.2, hl, Except.ok.inj htl]
  next hno =>
  split at htl
  · exact absurd (Except.ok.inj htl).symm hp
  next pt =>
  simp only [not_or, Bool.not_eq_true, Bool.not_eq_false'] at pt
  simp [guestWalk, pml4.2, pdpt.2, hn, pd.2, hno, pt.2, Except.ok.inj htl]

/-- After command `m` what is tracked is large, and it is what was tracked with the new frames. -/
theorem readEnclaveChannel_tracks {mtrrs : Mtrrs} {platform : Platform} {channel : Option Nat} {A : AddrMap}
    {g : Globals} (hr : Running (Sound platform channel) ⟨A, g⟩) {page : Nat}
    (hmap : g.channelMap = some page) (hc : channelCommand g.mem page = 'm') (cr3 : Nat) (lapic : Bool) :
    wp (readEnclaveChannel (addrMapOps mtrrs) cr3 lapic)
      (fun _ t => (∀ a, Tracked t.g a → IsLarge t.guestMap a) ∧ ∀ a, Tracked t.g a ↔
        Tracked g a ∨ NewFrame g (channelBuffer g.mem page) (channelSize g.mem page) cr3 a)
      (fun _ _ => True) ⟨A, g⟩ := by
  have hso := @Steady.registerBuffer _ mtrrs (closedAll_sound platform channel).toSteady (channelBuffer g.mem page)
    (channelSize g.mem page) cr3 A g hr fun _ _ => fun hl _ hso => hso.noteGpu hl
  have htr := @registerBuffer_tracks mtrrs A g hr.identity (channelBuffer g.mem page) (channelSize g.mem page) cr3
  rw [wp, readEnclaveChannel_m hmap hc, ← wp, wp_bind]
  refine wp_mono (fun _ t ha => ?_) (fun _ _ _ => trivial) (wp_and hso htr)
  exact ⟨ha.1.holds.large, ha.2⟩

/-- Every present page of the range is, with its frame, in the leaf of a tracked frame. -/
def Covered (s : Machine AddrMap) (mem : GuestMem) (cr3 buf size : Nat) : Prop :=
  ∀ virt pa, virt < 2 ^ 64 → buf ≤ virt → virt < buf + size → guestWalk mem cr3 virt = some pa →
    ∃ k < s.g.countGpuPaddrs, ∃ leaf, s.guestMap (s.g.gpuPaddrs k) = some leaf ∧
      SameLeaf leaf.level pa (s.g.gpuPaddrs k)

theorem covered_iff {s : Machine AddrMap} (hl : ∀ a, Tracked s.g a → IsLarge s.guestMap a) {mem : GuestMem}
    {cr3 buf size : Nat} :
    Covered s mem cr3 buf size ↔ ∀ virt pa, virt < 2 ^ 64 → buf ≤ virt → virt < buf + size →
      guestWalk mem cr3 virt = some pa → ∃ a, Tracked s.g a ∧ SameLeaf .pd pa a := by
  refine forall_congr' fun virt => forall_congr' fun pa => imp_congr_right fun _ => imp_congr_right fun _ =>
    imp_congr_right fun _ => imp_congr_right fun _ => ?_
  constructor
  · rintro ⟨k, hb, leaf, hf, same⟩
    obtain ⟨e, hf'⟩ := hl _ ⟨k, hb, rfl⟩
    cases hf.symm.trans hf'
    exact ⟨_, ⟨k, hb, rfl⟩, same⟩
  · rintro ⟨_, ⟨k, hb, rfl⟩, same⟩
    obtain ⟨e, hf⟩ := hl _ ⟨k, hb, rfl⟩
    exact ⟨k, hb, _, hf, same⟩

/-- When command `m` has been processed, the range is covered exactly if the frame of each of its present
pages was tracked before or is one of those counted off from the translation of the first byte, which is done
only for a buffer at an address that is not known yet. -/
theorem buffer_covered_iff (mm : PagePool) (platform : Platform) (page : Nat) (word : Nat → Fin 512 → Entry)
    (mem : GuestMem) (es : List Event) (s : Machine Mmap)
    (reach : run (codeStep platform mm) (boot mm (some page) word mem) es = some s) (id : BitVec 64) (v : Vcpu)
    (known : s.g.vcpus id = some v) (mem' : GuestMem) (cr3 : Nat) (lapic : Bool)
    (command : channelCommand mem' page = 'm') (s' : Machine Mmap)
    (returns : readEnclaveChannel (mmapOps mm platform.mtrrs) cr3 lapic { s with g := { s.g with mem := mem' } } =
      .ok () s') :
    Covered (s'.view mm) mem' cr3 (channelBuffer mem' page) (channelSize mem' page) ↔
      ∀ virt pa, virt < 2 ^ 64 → channelBuffer mem' page ≤ virt →
        virt < channelBuffer mem' page + channelSize mem' page → guestWalk mem' cr3 virt = some pa →
        ∃ a, (Tracked s.g a ∨ NewFrame { s.g with mem := mem' } (channelBuffer mem' page) (channelSize mem' page) cr3 a) ∧
          SameLeaf .pd pa a := by
  obtain ⟨reach', corresponds⟩ := run_abstract reach
  cases run_sound reach' with
  | inl start =>
    have none : (s.view mm).g.vcpus id = none := by rw [start]; rfl
    cases known.symm.trans none
  | inr running =>
    have live : s.g.channelMap = some page := running.holds.configured.channelMap
    have before : Running (Sound platform (some page)) ⟨leafAt mm s.guestMap, { s.g with mem := mem' }⟩ :=
      ⟨running.epc, running.ept, running.identity,
        (closedAll_sound platform (some page)).kept (by constructor <;> rfl) running.holds⟩
    have related : Related (Refines mm) { s with g := { s.g with mem := mem' } }
        ⟨leafAt mm s.guestMap, { s.g with mem := mem' }⟩ := ⟨rfl, running.ept, corresponds.refines running.ept⟩
    have ends := wp_code (readEnclaveChannel_simulates (mmapOps_agree platform.mtrrs) cr3 lapic) related
      (readEnclaveChannel_tracks before live command cr3 lapic)
    obtain ⟨large, tracked⟩ := (wp_of_ok returns).mp ends
    rw [covered_iff large]
    simp only [tracked]
    rfl

/-- Guest memory with a command in the channel at 4M to register `size` bytes from the last byte of the page at
1G on. That page is mapped to itself, the one after it to the page at 512M. -/
def scatteredMem (size : BitVec 64) : GuestMem := fun page i =>
  if page = 0x1000 ∧ i = 0 then 0x2001
  else if page = 0x2000 ∧ i = 1 then 0x3001
  else if page = 0x3000 ∧ i = 0 then 0x4001
  else if page = 0x4000 ∧ i = 0 then 0x40000001
  else if page = 0x4000 ∧ i = 1 then 0x20000001
  else if page = 0x400000 ∧ i = 0 then 0x6d
  else if page = 0x400000 ∧ i = 1 then 0x40000fff
  else if page = 0x400000 ∧ i = 9 then size
  else 0

/-- An enclave is started and entered. -/
def coverageRun : List Event :=
  [.construct 0, .exit 0 { (default : GuestState) with rax := 2 } .encls,
    .exit 0 default (.eptViolation 4 0x200000 0x200000)]

/-- What the enclave's interrupt makes of the channel, as far as `f` can see. -/
theorem exists_registered {size : BitVec 64} {α : Type} (f : Machine AddrMap → α) {x : α}
    (ho : (run (abstractStep default) (bootAbstract (some 0x400000) fun _ _ => 0) coverageRun).map (fun t =>
      (returned (readEnclaveChannel (addrMapOps (default : Platform).mtrrs) 0x1000 true
        { t with g := { t.g with mem := scatteredMem size } })).map f) = some (some x)) :
    ∃ s s' v, run (codeStep default default) (boot default (some 0x400000) (fun _ _ => 0) fun _ _ => 0) coverageRun =
        some s ∧
      s.g.vcpus 0 = some v ∧
      readEnclaveChannel (mmapOps default (default : Platform).mtrrs) 0x1000 true
        { s with g := { s.g with mem := scatteredMem size } } = .ok () s' ∧ f (s'.view default) = x := by
  have hs : (run (abstractStep default) (bootAbstract (some 0x400000) fun _ _ => 0) coverageRun).map (fun t =>
      (t.g.flagEpt, (t.g.vcpus 0).isSome)) = some (true, true) := by decide +kernel
  obtain ⟨s, hre, ends, hcor⟩ := exists_run _ ho default fun _ _ => 0
  rw [(run_abstract hre).1] at hs
  obtain ⟨hbt, hk⟩ := Prod.mk.inj (Option.some.inj hs)
  obtain ⟨v, hk⟩ := Option.isSome_iff_exists.mp hk
  obtain ⟨u, hret, ho⟩ := Option.map_eq_some_iff.mp ends
  have hrel : Related (Refines default) { s with g := { s.g with mem := scatteredMem size } }
      ⟨leafAt default s.guestMap, { s.g with mem := scatteredMem size }⟩ := ⟨rfl, hbt, hcor.refines hbt⟩
  obtain ⟨s', hret', rfl⟩ := code_returns
    (readEnclaveChannel_simulates (mmapOps_agree (default : Platform).mtrrs) 0x1000 true) hrel hret
  exact ⟨s, s', v, hre, hk, hret', ho⟩

theorem buffer_not_covered :
    ∃ s s' v, run (codeStep default default) (boot default (some 0x400000) (fun _ _ => 0) fun _ _ => 0) coverageRun =
        some s ∧
      s.g.vcpus 0 = some v ∧ channelCommand (scatteredMem 2) 0x400000 = 'm' ∧
      readEnclaveChannel (mmapOps default (default : Platform).mtrrs) 0x1000 true
        { s with g := { s.g with mem := scatteredMem 2 } } = .ok () s' ∧
      ¬ Covered (s'.view default) (scatteredMem 2) 0x1000 (channelBuffer (scatteredMem 2) 0x400000)
        (channelSize (scatteredMem 2) 0x400000) := by
  obtain ⟨s, s', v, reach, known, returns, seen⟩ := @exists_registered 2 _ (fun t =>
    (t.g.countGpuPaddrs, t.g.gpuPaddrs 0, (t.guestMap (t.g.gpuPaddrs 0)).map (·.level)))
    (1, 0x40000fff, some .pd) (by decide +kernel)
  simp only [Prod.mk.injEq] at seen
  obtain ⟨count, frame, level⟩ := seen
  refine ⟨s, s', v, reach, known, by decide, returns, fun covered => ?_⟩
  -- The second page of the range is at 512M, outside the one frame that is tracked.
  obtain ⟨k, below, leaf, found, same⟩ := covered 0x40001000 0x20000000 (by decide) (by decide) (by decide) (by decide)
  obtain rfl : k = 0 := by omega
  rw [found] at level
  rw [show leaf.level = .pd from Option.some.inj level, frame] at same
  exact absurd same (by decide)

/-- Only the last byte of the first page is registered. -/
theorem buffer_covered_one :
    ∃ s s', run (codeStep default default) (boot default (some 0x400000) (fun _ _ => 0) fun _ _ => 0) coverageRun =
        some s ∧
      readEnclaveChannel (mmapOps default (default : Platform).mtrrs) 0x1000 true
        { s with g := { s.g with mem := scatteredMem 1 } } = .ok () s' ∧
      Covered (s'.view default) (scatteredMem 1) 0x1000 (channelBuffer (scatteredMem 1) 0x400000)
        (channelSize (scatteredMem 1) 0x400000) := by
  obtain ⟨s, s', v, reach, known, returns, -⟩ := @exists_registered 1 _ (fun t => t.g.flagEpt) true (by decide +kernel)
  have none : (run (abstractStep default) (bootAbstract (some 0x400000) fun _ _ => 0) coverageRun).map
      (·.g.countGpuBuffers) = some 0 := by decide +kernel
  rw [(run_abstract reach).1] at none
  have none : s.g.countGpuBuffers = 0 := Option.some.inj none
  refine ⟨s, s', reach, returns, (buffer_covered_iff _ _ _ _ _ _ s reach 0 v known (scatteredMem 1) 0x1000 true
    (by decide) s' returns).mpr fun virt pa _ lower upper walk => ?_⟩
  have translated : customVirtToPhysWithCr3 (scatteredMem 1) 0x40000fff 0x1000 = .ok 0x40000fff := by decide
  obtain rfl : virt = 0x40000fff := by
    have start : channelBuffer (scatteredMem 1) 0x400000 = 0x40000fff := by decide
    have length : channelSize (scatteredMem 1) 0x400000 = 1 := by decide
    omega
  rw [guestWalk_of_translated translated (by decide)] at walk
  obtain rfl := Option.some.inj walk
  refine ⟨0x40000fff, .inr ⟨?_, 0x40000fff, translated, by decide, 0, by decide, by decide, fun j first => ?_⟩, .refl _ _⟩
  · rintro ⟨k, below, -⟩
    have below : k < s.g.countGpuBuffers := below
    omega
  · obtain rfl : j = 0 := by omega
    decide

end Gevisor.Vmm
