import Gevisor.Vmm.Steps
import Gevisor.Vmm.Tracking

/-! # Invariants of all runs

Facts about every state of the abstract machine that later results rest on: the configuration is fixed,
tracked GPU frames are large pages, and where a vCPU exists the channel's page is mapped.
-/

namespace Gevisor.Vmm

open Gevisor.Lib
open Gevisor.Ept

/-! ## The configuration -/

/-- Where the EPC and the channel are. -/
structure Configured (platform : Platform) (channel : Option Nat) (g : Globals) : Prop where
  epcBaseAddress : g.epcBaseAddress = cpuidAddress platform.ebx platform.eax
  epcSize : g.epcSize = cpuidAddress platform.edx platform.ecx
  channelPaddr : g.channelPaddr = channel.getD 0
  channelMap : g.channelMap = channel

theorem Configured.kept {platform : Platform} {channel : Option Nat} {g g' : Globals}
    (hcfg : Configured platform channel g) (kept : Kept g g') : Configured platform channel g' where
  epcBaseAddress := kept.epcBaseAddress.trans hcfg.epcBaseAddress
  epcSize := kept.epcSize.trans hcfg.epcSize
  channelPaddr := kept.channelPaddr.trans hcfg.channelPaddr
  channelMap := kept.channelMap.trans hcfg.channelMap

theorem closedAll_configured (platform : Platform) (channel : Option Nat) :
    ClosedAll fun s => Configured platform channel s.g where
  kept kept hc := hc.kept kept
  vcpu _ _ _ hc := ⟨hc.1, hc.2, hc.3, hc.4⟩
  registered _ _ hc := ⟨hc.1, hc.2, hc.3, hc.4⟩
  merged _ _ hc := hc
  trapped _ _ hc := hc
  recorded _ hc := ⟨hc.1, hc.2, hc.3, hc.4⟩
  running _ hc := ⟨hc.1, hc.2, hc.3, hc.4⟩
  removed _ hc := hc
  untrapped _ _ hc := hc
  noteSgx _ _ hc := ⟨hc.1, hc.2, hc.3, hc.4⟩
  cleared _ hc := ⟨hc.1, hc.2, hc.3, hc.4⟩
  reset hc := ⟨hc.1, hc.2, hc.3, hc.4⟩
  bitmap _ _ _ hc := ⟨hc.1, hc.2, hc.3, hc.4⟩
  create _ hc := ⟨hc.1, hc.2, hc.3, hc.4⟩
  delete _ hc := ⟨hc.1, hc.2, hc.3, hc.4⟩

/-! ## Tracked frames are large -/

/-- A property of each tracked frame that the changes to the map keep. -/
theorem closedAll_tracked {p : AddrMap → Nat → Prop}
    (hm : ∀ {A a} v, IsIdentity maxPhysAddr A → p A a → p (A.merged v) a)
    (hu : ∀ {A a} v {changes}, Restricts changes → IsIdentity maxPhysAddr A → p A a → p (A.updated v changes) a) :
    ClosedAll fun s => ∀ a, Tracked s.g a → p s.guestMap a where
  kept kept hh a ht := hh a ((tracked_kept kept).mp ht)
  vcpu _ _ _ hh := hh
  registered _ _ hh := hh
  merged v hi hh a ht := hm v hi (hh a ht)
  trapped v hi hh a ht := hu v .trap hi (hh a ht)
  recorded _ hh := hh
  running _ hh := hh
  removed hi hh a ht := hu _ .remove hi (hh a ht)
  untrapped v hi hh a ht := hu v .untrap hi (hh a ht)
  noteSgx _ _ hh := hh
  cleared _ hh := hh
  reset _ _ ht := absurd ht fun ⟨k, hb, _⟩ => Nat.not_lt_zero k hb
  bitmap _ _ _ hh := hh
  create _ hh := hh
  delete _ hh := hh

theorem ClosedAll.and {Q R : Machine AddrMap → Prop} (left : ClosedAll Q) (right : ClosedAll R) :
    ClosedAll fun s => Q s ∧ R s where
  kept kept h := ⟨left.kept kept h.1, right.kept kept h.2⟩
  vcpu id f hk h := ⟨left.vcpu id f hk h.1, right.vcpu id f hk h.2⟩
  registered b room h := ⟨left.registered b room h.1, right.registered b room h.2⟩
  merged v hi h := ⟨left.merged v hi h.1, right.merged v hi h.2⟩
  trapped v hi h := ⟨left.trapped v hi h.1, right.trapped v hi h.2⟩
  recorded v h := ⟨left.recorded v h.1, right.recorded v h.2⟩
  running b h := ⟨left.running b h.1, right.running b h.2⟩
  removed hi h := ⟨left.removed hi h.1, right.removed hi h.2⟩
  untrapped v hi h := ⟨left.untrapped v hi h.1, right.untrapped v hi h.2⟩
  noteSgx v room h := ⟨left.noteSgx v room h.1, right.noteSgx v room h.2⟩
  cleared i h := ⟨left.cleared i h.1, right.cleared i h.2⟩
  reset h := ⟨left.reset h.1, right.reset h.2⟩
  bitmap id _ hkn h := ⟨left.bitmap id hkn h.1, right.bitmap id hkn h.2⟩
  create id h := ⟨left.create id h.1, right.create id h.2⟩
  delete id h := ⟨left.delete id h.1, right.delete id h.2⟩

/-- What holds in every state once the map has been built. -/
structure Sound (platform : Platform) (channel : Option Nat) (s : Machine AddrMap) : Prop where
  configured : Configured platform channel s.g
  large : ∀ a, Tracked s.g a → IsLarge s.guestMap a

section Runs

variable {platform : Platform} {channel : Option Nat} {mem : GuestMem} {es : List Event} {s t : Machine AddrMap}

variable {A : AddrMap} {g : Globals}

theorem closedAll_sound (platform : Platform) (channel : Option Nat) : ClosedAll (Sound platform channel) := by
  have hl := closedAll_tracked (p := IsLarge) (fun v _ hl => hl.merged v) (fun v changes _ _ hl => hl.updated v changes)
  have same : (fun s => Configured platform channel s.g ∧ ∀ a, Tracked s.g a → IsLarge s.guestMap a) =
      Sound platform channel :=
    funext fun s => propext ⟨fun h => ⟨h.1, h.2⟩, fun h => ⟨h.1, h.2⟩⟩
  exact same ▸ (closedAll_configured platform channel).and hl

theorem Sound.noteGpu {v : Nat} {e : Entry} (hl : A v = some ⟨.pd, e⟩)
    (hso : Sound platform channel ⟨A, g⟩) : Sound platform channel ⟨A, noteGpuPaddr v g⟩ where
  configured := ⟨hso.configured.1, hso.configured.2, hso.configured.3, hso.configured.4⟩
  large a ht := by
    cases tracked_note.mp ht with
    | inl old => exact hso.large a old
    | inr new =>
      subst new
      exact ⟨e, hl⟩

theorem Sound.updated (hso : Sound platform channel ⟨A, g⟩) (v : Nat)
    (changes : List Change) : Sound platform channel ⟨A.updated v changes, g⟩ where
  configured := hso.configured
  large a ht := (hso.large a ht).updated v changes

theorem sound_started (id : BitVec 64) : Sound platform channel (started platform channel mem id) where
  configured := ⟨rfl, rfl, rfl, rfl⟩
  large a ht := by
    obtain ⟨k, hb, -⟩ := ht
    exact absurd hb (Nat.not_lt_zero k)

variable {e : Event} {id : BitVec 64}

theorem step_sound (mem : GuestMem) (hbe : s = bootAbstract channel mem ∨ Running (Sound platform channel) s)
    (next : abstractStep platform s e = some t) : Running (Sound platform channel) t :=
  step_keeps (closedAll_sound platform channel) (fun hl _ hso => hso.noteGpu hl)
    (fun _ hso => hso.updated _ _) sound_started hbe next

theorem run_sound_cons (hre : run (abstractStep platform) (bootAbstract channel mem) (e :: es) = some t) :
    Running (Sound platform channel) t := by
  obtain ⟨u, first, more⟩ := run_cons.mp hre
  exact run_preserves (fun _ _ _ hr next => step_sound mem (.inr hr) next) (step_sound mem (.inl rfl) first) more

theorem run_sound (hre : run (abstractStep platform) (bootAbstract channel mem) es = some t) :
    t = bootAbstract channel mem ∨ Running (Sound platform channel) t := by
  cases es with
  | nil => exact .inl (Option.some.inj hre).symm
  | cons e es => exact .inr (run_sound_cons hre)

/-! ## The channel's page -/

/-- After the first vCPU, constructing one comes down to removing access to the channel. -/
theorem construct_eq {Q : Machine AddrMap → Prop} (hr : Running Q ⟨A, g⟩) (id : BitVec 64) :
    constructVcpu (addrMapOps platform.mtrrs) platform id ⟨A, g⟩ =
      removePermissionChannel (addrMapOps platform.mtrrs) ⟨A, setVcpu id (some newVcpu) g⟩ := by
  have epc : (setVcpu id (some newVcpu) g).flagEpc = true := hr.epc
  have ept : (setVcpu id (some newVcpu) g).flagEpt = true := hr.ept
  have hl : locateEpcOnce platform (⟨A, setVcpu id (some newVcpu) g⟩ : Machine AddrMap) =
      .ok () ⟨A, setVcpu id (some newVcpu) g⟩ :=
    congrArg (fun g => EStateM.Result.ok () (Machine.mk A g)) (if_pos epc)
  have hbt : identityMapOnce (addrMapOps platform.mtrrs) ⟨A, setVcpu id (some newVcpu) g⟩ =
      .ok () ⟨A, setVcpu id (some newVcpu) g⟩ := by
    show (if (setVcpu id (some newVcpu) g).flagEpt then pure () else _ : VmmM AddrMap Unit) _ = _
    rw [if_pos ept]
    rfl
  have hc : modifyG (setVcpu id (some newVcpu)) (⟨A, g⟩ : Machine AddrMap) =
      .ok () ⟨A, setVcpu id (some newVcpu) g⟩ := rfl
  rw [constructVcpu, bind_of_ok hc, bind_of_ok hl, bind_of_ok hbt]

theorem removePermissionChannel_unmapped (platform : Platform)
    (hu : ¬ channel.getD 0 % 2 ^ 48 < maxPhysAddr) (hid : IsIdentity maxPhysAddr A)
    (hc : g.channelPaddr = channel.getD 0) :
    removePermissionChannel (addrMapOps platform.mtrrs) ⟨A, g⟩ = .error (.exn "entry: not mapped") ⟨A, g⟩ := by
  refine update_unmapped ?_
  show A g.channelPaddr = none
  rw [hc]
  cases hf : A (channel.getD 0) with
  | none => rfl
  | some leaf => exact absurd ((hid.domain _).mp ⟨leaf, hf⟩) hu

/-- A construction that throws leaves no vCPU behind. -/
theorem resume_construct_error {what : String} (hot : ∀ j, j ≠ id → g.vcpus j = none)
    (hrs : resume (fun g => g) (setVcpu id none) (.error (.exn what) ⟨A, g⟩) = some t) (j : BitVec 64) :
    t.g.vcpus j = none := by
  obtain rfl := Option.some.inj hrs
  by_cases same : j = id
  · exact same ▸ Function.update_self ..
  · exact (Function.update_of_ne same ..).trans (hot j same)

/-- Without the channel's page no vCPU is ever completed. -/
theorem no_vcpus (unmapped : ¬ channel.getD 0 % 2 ^ 48 < maxPhysAddr)
    (hre : run (abstractStep platform) (bootAbstract channel mem) es = some t) (id : BitVec 64) :
    t.g.vcpus id = none := by
  refine (run_preserves (I := fun s => (s = bootAbstract channel mem ∨ Running (Sound platform channel) s) ∧
    ∀ id, s.g.vcpus id = none) (fun s e u hbe next => ?_) ⟨.inl rfl, fun _ => rfl⟩ hre).2 id
  obtain ⟨state, hem⟩ := hbe
  refine ⟨.inr (step_sound mem state next), ?_⟩
  cases e with
  | exit id guest reason =>
    obtain ⟨v, hk, -⟩ := step_exit_some next
    rw [hem id] at hk
    cases hk
  | construct id =>
    obtain ⟨-, hrs⟩ := step_construct_some next
    rcases state with rfl | running
    · have hid : IsIdentity maxPhysAddr (started platform channel mem id).guestMap :=
        identity_isIdentity platform.mtrrs.contiguous (by decide)
      have hth := removePermissionChannel_unmapped platform (g := (started platform channel mem id).g) unmapped hid rfl
      rw [construct_boot, show started platform channel mem id =
        ⟨(started platform channel mem id).guestMap, (started platform channel mem id).g⟩ from rfl, hth] at hrs
      exact resume_construct_error (fun j ho => Function.update_of_ne ho ..) hrs
    · obtain ⟨A, g⟩ := s
      have hth := removePermissionChannel_unmapped platform (g := setVcpu id (some newVcpu) g)
        unmapped running.identity running.holds.configured.channelPaddr
      rw [construct_eq running, hth] at hrs
      exact resume_construct_error (fun j ho => (Function.update_of_ne ho ..).trans (hem j)) hrs

/-- A vCPU exists only if access to the channel could be removed, which needs its page to be mapped. -/
theorem channel_mapped (hre : run (abstractStep platform) (bootAbstract channel mem) es = some t) {v : Vcpu}
    (hk : t.g.vcpus id = some v) : channel.getD 0 % 2 ^ 48 < maxPhysAddr := by
  by_contra hu
  rw [no_vcpus hu hre id] at hk
  cases hk

end Runs

end Gevisor.Vmm
