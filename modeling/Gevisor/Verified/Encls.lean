import Gevisor.Verified.IdentityMapping
import Gevisor.Vmm.Invariants

/-! # ENCLS exits

Which ENCLS leaves exit is said by a bitmap that each vCPU has for itself, while what is tracked of the
enclave is global. The handler takes RAX for EREMOVE as a whole and everything else for EINIT.
-/

namespace Gevisor.Vmm

open Gevisor.Lib
open Gevisor.Ept

/-! ## What the handler does to counters and bitmaps -/

section Handler

variable {E : Type} {ops : EptOps E} {s : Machine E} {id : BitVec 64} {guest : GuestState}

theorem ensure2m_globals (ops : EptOps E) (p : Globals → Prop) (v : Nat) :
    Preserves (fun s => p s.g) (ensure2m ops v) :=
  .bind (onMap_globals p _) fun _ => .ite (fun _ => onMap_globals p _) fun _ => .pure ()

theorem trapEnclaveEntryNew2m_globals {p : Globals → Prop}
    (note : ∀ g k e, p g → p { g with sgxGuestPteShadow := Function.update g.sgxGuestPteShadow k e }) :
    Preserves (fun s => p s.g) (trapEnclaveEntryNew2m ops) := by
  have hc (a : TrackingArray) (i : Nat) : Preserves (fun s => p s.g) (checkIndex a i : VmmM E Unit) :=
    .ite (fun _ => .pure ()) fun _ => .throw _
  refine .bind (fun _ h => h) fun _ => .forFrom (fun k => .bind (hc _ _) fun _ => ?_) _ _
  refine .bind (fun _ h => h) fun _ => .bind (ensure2m_globals ops p _) fun _ => .bind (onMap_globals p _) fun e => ?_
  exact .bind (hc _ _) fun _ => .bind (fun s h => note s.g k e h) fun _ => onMap_globals p _

/-- Every frame that is registered is counted, and nothing else of interest here changes. -/
theorem addEpcAddress2m_counts (s : Machine E) : wp (addEpcAddress2m ops)
      (fun _ t => t.g.vcpus = s.g.vcpus ∧ t.g.countSgxPaddrs = s.g.countSgxPaddrs + epcFrames s.g.epcSize)
      (fun _ t => t.g.vcpus = s.g.vcpus ∧ s.g.countSgxPaddrs ≤ t.g.countSgxPaddrs) s := by
  rw [addEpcAddress2m, wp_bind, wp_getG]
  refine wp_loop (fun i t => t.g.vcpus = s.g.vcpus ∧ t.g.countSgxPaddrs = s.g.countSgxPaddrs + i) ⟨rfl, rfl⟩
    (fun i t _ hbe => ?_) fun _ h => h
  rw [wp_bind]
  refine wp_mono ?_ ?_ (ensure2m_globals ops (fun g => g.vcpus = s.g.vcpus ∧
    g.countSgxPaddrs = s.g.countSgxPaddrs + i) (frameAddress s.g.epcBaseAddress i) t hbe)
  · rintro _ u ⟨hv, hc⟩
    rw [addSgxPaddr, wp_bind, wp_getG, wp_bind, wp_checkIndex]
    split
    · exact ⟨hv, congrArg (· + 1) hc⟩
    · exact ⟨hv, by omega⟩
  · rintro _ u ⟨hv, hc⟩
    exact ⟨hv, by omega⟩

/-- EREMOVE: tracking is reset, and only EINIT exits on this vCPU from now on. Clearing the arrays can
fault but not throw. -/
theorem enclsHandler_eremove (ops : EptOps E) (id : BitVec 64) (hr : guest.rax.toNat = eremoveExit)
    (s : Machine E) :
    wp (enclsHandler ops id guest) (fun _ t => t.g.countSgxPaddrs = 0 ∧ t.g.vcpus = Function.update s.g.vcpus id
        ((s.g.vcpus id).map (withBitmap (enclsBit einitExit))))
      (fun e _ => e.isExn = false) s := by
  rw [enclsHandler, if_pos hr, wp_bind, wp_modifyG, wp_bind, setEnclsExitingBitmap, wp_modifyVcpu, wp_bind,
    wp_modifyG, wp_bind, wp_getG, wp_bind]
  refine wp_loop (fun _ t => t.g.vcpus = Function.update s.g.vcpus id
    ((s.g.vcpus id).map (withBitmap (enclsBit einitExit)))) rfl
    (fun i t _ hv => ?_) fun t hv => ⟨rfl, hv⟩
  rw [wp_bind, wp_checkIndex]
  split
  · rw [wp_bind, wp_modifyG, wp_bind, wp_checkIndex]
    split
    · exact hv
    · rfl
  · rfl

/-- Any other RAX: the frames of the EPC are counted once more, and only EREMOVE exits on this vCPU from
now on; if something is thrown on the way, the bitmap stays. -/
theorem enclsHandler_other (ops : EptOps E) (id : BitVec 64) (ho : guest.rax.toNat ≠ eremoveExit) (s : Machine E) :
    wp (enclsHandler ops id guest) (fun _ t => t.g.countSgxPaddrs = s.g.countSgxPaddrs + epcFrames s.g.epcSize ∧
        t.g.vcpus = Function.update s.g.vcpus id ((s.g.vcpus id).map (withBitmap (enclsBit eremoveExit))))
      (fun _ t => s.g.countSgxPaddrs ≤ t.g.countSgxPaddrs ∧ t.g.vcpus = s.g.vcpus) s := by
  rw [enclsHandler, if_neg ho, wp_bind, wp_modifyG, wp_bind]
  refine wp_mono ?_ (fun _ t h => ⟨h.2, h.1⟩) (addEpcAddress2m_counts _)
  rintro _ t ⟨hv, hc⟩
  -- From here to the last statement neither changes.
  let p (g : Globals) : Prop := g.vcpus = s.g.vcpus ∧ g.countSgxPaddrs = s.g.countSgxPaddrs + epcFrames s.g.epcSize
  have htn (u : Machine E) (h : p u.g) :
      s.g.countSgxPaddrs ≤ u.g.countSgxPaddrs ∧ u.g.vcpus = s.g.vcpus := ⟨by have := h.2; omega, h.1⟩
  rw [wp_bind, wp_modifyG, wp_bind]
  refine wp_mono (fun _ u h => ?_) (fun _ u h => htn u h)
    (trapEnclaveEntryNew2m_globals (p := p) (fun _ _ _ h => h) _ ⟨hv, hc⟩)
  rw [wp_bind]
  refine wp_mono ?_ (fun _ u h => htn u h) (onMap_globals p _ u h)
  rintro _ w ⟨hv, hc⟩
  rw [setEnclsExitingBitmap, wp_modifyVcpu]
  refine ⟨hc, ?_⟩
  show Function.update w.g.vcpus id ((w.g.vcpus id).map (withBitmap (enclsBit eremoveExit))) = _
  rw [hv]

end Handler

/-! ## Progress -/

theorem enclsBit_getLsbD {leaf : Nat} (hbo : leaf < 64) (i : Nat) :
    (enclsBit leaf).getLsbD i = decide (leaf = i) := by
  rw [enclsBit, ← BitVec.twoPow_eq, BitVec.getLsbD_twoPow]
  simp [hbo]

/-- The bitmaps that vCPUs ever have. -/
def KnownBitmap (b : BitVec 64) : Prop :=
  b = enclsBit einitExit ||| enclsBit eremoveExit ∨ b = enclsBit einitExit ∨ b = enclsBit eremoveExit

theorem KnownBitmap.leaf {b : BitVec 64} (hk : KnownBitmap b) {i : Nat} (set : b.getLsbD i = true) :
    i = einitExit ∨ i = eremoveExit := by
  have he := enclsBit_getLsbD (show einitExit < 64 by decide) i
  have her := enclsBit_getLsbD (show eremoveExit < 64 by decide) i
  rcases hk with rfl | rfl | rfl
  · rw [BitVec.getLsbD_or, he, her, Bool.or_eq_true, decide_eq_true_eq, decide_eq_true_eq] at set
    exact set.imp Eq.symm Eq.symm
  · rw [he, decide_eq_true_eq] at set
    exact .inl set.symm
  · rw [her, decide_eq_true_eq] at set
    exact .inr set.symm

theorem closedAll_bitmaps : ClosedAll fun s => ∀ id v, s.g.vcpus id = some v → KnownBitmap v.enclsExitingBitmap where
  kept kept hk := kept.vcpus ▸ hk
  vcpu id f hke hk := forall_setVcpu hk fun v hmap => by
    obtain ⟨w, hbe, rfl⟩ := Option.map_eq_some_iff.mp hmap
    rw [hke]
    exact hk id w hbe
  registered _ _ hk := hk
  merged _ _ hk := hk
  trapped _ _ hk := hk
  recorded _ hk := hk
  running _ hk := hk
  removed _ hk := hk
  untrapped _ _ hk := hk
  noteSgx _ _ hk := hk
  cleared _ hk := hk
  reset hk := hk
  bitmap id leaf he hk := forall_setVcpu hk fun v hmap => by
    obtain ⟨w, -, rfl⟩ := Option.map_eq_some_iff.mp hmap
    exact .inr (he.imp (congrArg enclsBit) (congrArg enclsBit))
  create _ hk := forall_setVcpu hk fun v new => Option.some.inj new ▸ .inl rfl
  delete _ hk := forall_setVcpu hk fun v hab => nomatch hab

theorem bitmaps_known {mm : PagePool} {platform : Platform} {channel : Option Nat}
    {word : Nat → Fin 512 → Entry} {mem : GuestMem} {es : List Event} {s : Machine Mmap}
    (hre : run (codeStep platform mm) (boot mm channel word mem) es = some s) {id : BitVec 64} {v : Vcpu}
    (hk : s.g.vcpus id = some v) : KnownBitmap v.enclsExitingBitmap := by
  obtain ⟨hre', -⟩ := run_abstract hre
  have start (id : BitVec 64) (j : BitVec 64) (v : Vcpu)
      (hk : (started platform channel mem id).g.vcpus j = some v) : KnownBitmap v.enclsExitingBitmap :=
    forall_setVcpu (p := fun v => KnownBitmap v.enclsExitingBitmap) (g := initialGlobals channel mem) (fun _ _ hab => nomatch hab)
      (fun v new => Option.some.inj new ▸ .inl rfl) j v hk
  rcases run_running closedAll_bitmaps (fun _ _ hk => hk) (fun _ hk => hk) start hre' with
    initial | running
  · rw [show s.g.vcpus = (s.view mm).g.vcpus from rfl, initial] at hk
    cases hk
  · exact running.holds id v hk

/-- A trapped ENCLS does not exit again on the same leaf exactly if RAX is EREMOVE whenever EAX is. The
hardware selects the leaf by EAX, the handler compares RAX. -/
theorem encls_progress_iff (mm : PagePool) (platform : Platform) (channel : Option Nat)
    (word : Nat → Fin 512 → Entry) (mem : GuestMem) (es : List Event) (s s' : Machine Mmap)
    (reach : run (codeStep platform mm) (boot mm channel word mem) es = some s)
    (id : BitVec 64) (guest : GuestState) (v : Vcpu) (known : s.g.vcpus id = some v)
    (selected : v.enclsExitingBitmap.getLsbD (enclsLeafBit guest.rax) = true)
    (returns : handle (mmapOps mm platform.mtrrs) id guest .encls { s with g := onExit id guest .encls s.g } =
      .ok () s') :
    (∃ v', s'.g.vcpus id = some v' ∧ v'.enclsExitingBitmap.getLsbD (enclsLeafBit guest.rax) = false) ↔
      (guest.rax.toNat % 2 ^ 32 = eremoveExit → guest.rax.toNat = eremoveExit) := by
  have leaf := (bitmaps_known reach known).leaf selected
  have after {b : BitVec 64} (vcpus : s'.g.vcpus = Function.update s.g.vcpus id ((s.g.vcpus id).map (withBitmap b))) :
      (∃ v', s'.g.vcpus id = some v' ∧ v'.enclsExitingBitmap.getLsbD (enclsLeafBit guest.rax) = false) ↔
        b.getLsbD (enclsLeafBit guest.rax) = false := by
    rw [vcpus, Function.update_self, known, Option.map_some]
    constructor
    · rintro ⟨v', same, clear⟩
      obtain rfl := Option.some.inj same
      exact clear
    · exact fun clear => ⟨_, rfl, clear⟩
  by_cases remove : guest.rax.toNat = eremoveExit
  · have spec := enclsHandler_eremove (mmapOps mm platform.mtrrs) id remove
      { s with g := onExit id guest .encls s.g }
    have vcpus := ((wp_of_ok returns).mp spec).2
    rw [after vcpus, enclsBit_getLsbD (by decide), enclsLeafBit, remove]
    simp [einitExit, eremoveExit]
  · have spec := enclsHandler_other (mmapOps mm platform.mtrrs) id remove
      { s with g := onExit id guest .encls s.g }
    have vcpus := ((wp_of_ok returns).mp spec).2
    rw [after vcpus, enclsBit_getLsbD (by decide), decide_eq_false_iff_not]
    simp only [enclsLeafBit, einitExit, eremoveExit] at leaf remove ⊢
    omega

/-- A guest that executes ENCLS with EAX selecting EREMOVE and a bit set above EAX. -/
def dirtyEremove : GuestState := { (default : GuestState) with rax := 0x100000003 }

/-- The bitmap of the first vCPU after it is constructed, and what the handler makes of it. -/
def firstEncls (guest : GuestState) (t : Machine AddrMap) : Bool × Option (BitVec 64) × Option (BitVec 64) :=
  (t.g.flagEpt, (t.g.vcpus 0).map (·.enclsExitingBitmap),
    (returned (handle (addrMapOps (default : Platform).mtrrs) 0 guest .encls
      { t with g := onExit 0 guest .encls t.g })).bind fun u => (u.g.vcpus 0).map (·.enclsExitingBitmap))

theorem exists_firstEncls {guest : GuestState} {b b' : BitVec 64}
    (ho : (run (abstractStep default) (bootAbstract none fun _ _ => 0) [.construct 0]).map (firstEncls guest) =
      some (true, some b, some b')) :
    ∃ s s' v v', run (codeStep default default) (boot default none (fun _ _ => 0) fun _ _ => 0) [.construct 0] =
        some s ∧
      s.g.vcpus 0 = some v ∧ v.enclsExitingBitmap = b ∧
      handle (mmapOps default (default : Platform).mtrrs) 0 guest .encls
        { s with g := onExit 0 guest .encls s.g } = .ok () s' ∧
      s'.g.vcpus 0 = some v' ∧ v'.enclsExitingBitmap = b' := by
  obtain ⟨s, hre, seen, hcor⟩ := exists_run _ ho default fun _ _ => 0
  obtain ⟨hbt, hbe, ha⟩ : _ ∧ _ ∧ _ := by simpa only [firstEncls, Prod.mk.injEq] using seen
  obtain ⟨v, hk, hb⟩ := Option.map_eq_some_iff.mp hbe
  obtain ⟨u, hret, ha⟩ := Option.bind_eq_some_iff.mp ha
  obtain ⟨s', hret', rfl⟩ := handle_returns hcor hbt hret
  obtain ⟨v', hk', hb'⟩ := Option.map_eq_some_iff.mp ha
  exact ⟨s, s', v, v', hre, hk, hb, hret', hk', hb'⟩

theorem encls_progress_fails :
    ∃ s s' v v', run (codeStep default default) (boot default none (fun _ _ => 0) fun _ _ => 0) [.construct 0] =
        some s ∧
      s.g.vcpus 0 = some v ∧ v.enclsExitingBitmap.getLsbD (enclsLeafBit dirtyEremove.rax) = true ∧
      handle (mmapOps default (default : Platform).mtrrs) 0 dirtyEremove .encls
        { s with g := onExit 0 dirtyEremove .encls s.g } = .ok () s' ∧
      s'.g.vcpus 0 = some v' ∧ v'.enclsExitingBitmap.getLsbD (enclsLeafBit dirtyEremove.rax) = true := by
  obtain ⟨s, s', v, v', reach, known, bitmap, returns, known', bitmap'⟩ := exists_firstEncls (b := 12)
      (show (run (abstractStep default) (bootAbstract none fun _ _ => 0) [.construct 0]).map
        (firstEncls dirtyEremove) = some (true, some 12, some 8) by decide +kernel)
  exact ⟨s, s', v, v', reach, known, by rw [bitmap]; decide, returns, known', by rw [bitmap']; decide⟩

theorem encls_progress_einit :
    ∃ s s' v', run (codeStep default default) (boot default none (fun _ _ => 0) fun _ _ => 0) [.construct 0] = some s ∧
      handle (mmapOps default (default : Platform).mtrrs) 0 { (default : GuestState) with rax := 2 } .encls
        { s with g := onExit 0 { (default : GuestState) with rax := 2 } .encls s.g } = .ok () s' ∧
      s'.g.vcpus 0 = some v' ∧ v'.enclsExitingBitmap.getLsbD (enclsLeafBit 2) = false := by
  obtain ⟨s, s', v, -, reach, known, bitmap, returns, -⟩ := exists_firstEncls (b := 12)
      (show (run (abstractStep default) (bootAbstract none fun _ _ => 0) [.construct 0]).map
        (firstEncls { (default : GuestState) with rax := 2 }) = some (true, some 12, some 8) by decide +kernel)
  obtain ⟨v', known', clear⟩ := (encls_progress_iff _ _ _ _ _ _ s s' reach 0 _ v known
    (by rw [bitmap]; decide) returns).mpr (by decide)
  exact ⟨s, s', v', reach, returns, known', clear⟩

/-! ## Interception of EINIT -/

/-- While no enclave is tracked, EINIT exits on every vCPU. -/
def Intercepted (g : Globals) : Prop :=
  g.countSgxPaddrs = 0 → ∀ id v, g.vcpus id = some v → v.enclsExitingBitmap.getLsbD einitExit = true

/-- EREMOVE comes in when EINIT exits on all other vCPUs, and any other ENCLS exit leaves frames tracked. -/
def EnclsInTurn (g : Globals) : Event → Prop
  | .exit id guest .encls =>
    if guest.rax.toNat = eremoveExit then
      ∀ j v, j ≠ id → g.vcpus j = some v → v.enclsExitingBitmap.getLsbD einitExit = true
    else 0 < g.countSgxPaddrs ∨ 0 < g.epcSize
  | _ => True

theorem closed_intercepted : Closed fun s => Intercepted s.g where
  kept kept hi he := kept.vcpus ▸ hi (kept.countSgxPaddrs ▸ he)
  vcpu id f hk hi he := forall_setVcpu (hi he) fun v hmap => by
    obtain ⟨w, hbe, rfl⟩ := Option.map_eq_some_iff.mp hmap
    rw [hk]
    exact hi he id w hbe
  registered _ _ hi := hi
  merged _ _ hi := hi
  trapped _ _ hi := hi
  recorded _ hi := hi
  running _ hi := hi
  removed _ hi := hi
  untrapped _ _ hi := hi

section Interception

variable {platform : Platform} {channel : Option Nat} {mem : GuestMem} {s t : Machine AddrMap} {id : BitVec 64}
  {guest : GuestState}

theorem construct_intercepted (hic : Intercepted s.g)
    (next : abstractStep platform s (.construct id) = some t) : Intercepted t.g :=
  step_construct_globals (p := Intercepted) (fun _ hic hem => forall_setVcpu (hic hem) fun v new => by
      obtain rfl := Option.some.inj new
      decide)
    (fun _ hic => hic) (fun _ hic => hic)
    (fun _ hic hem => forall_setVcpu (hic hem) fun v hab => nomatch hab) hic next

theorem epcFrames_pos (size : Nat) : 0 < epcFrames size ↔ 0 < size := by
  simp only [epcFrames]
  split <;> omega

/-- The exit leaves EINIT set for the others and sets it for this vCPU. -/
theorem eremove_intercepted (hr : guest.rax.toNat = eremoveExit)
    (next : abstractStep platform s (.exit id guest .encls) = some t) :
    Intercepted t.g ↔ ∀ j v, j ≠ id → s.g.vcpus j = some v → v.enclsExitingBitmap.getLsbD einitExit = true := by
  obtain ⟨w, hk, -, hrs⟩ := step_exit_some next
  rcases resume_split (enclsHandler_eremove (addrMapOps platform.mtrrs) id hr _) hrs with
    ⟨v, -, ⟨he, hv⟩, rfl⟩ | ⟨what, v, -, hf, -⟩
  · have hot {j : BitVec 64} (ho : j ≠ id) : (onEntry id v.g).vcpus j = s.g.vcpus j := by
      rw [onEntry, setVcpu_other ho, hv, Function.update_of_ne ho]
      rfl
    constructor
    · intro hic j u ho hbe
      exact hic he j u ((hot ho).trans hbe)
    · intro set hem' j u ha
      by_cases same : j = id
      · rw [same, onEntry, setVcpu_same, hv, Function.update_self,
          show (onExit id guest .encls s.g).vcpus id = some w from hk] at ha
        obtain rfl := Option.some.inj ha
        rw [enterVcpu_bitmap, withBitmap, enclsBit_getLsbD (by decide)]
        rfl
      · exact set j u same ((hot same).symm.trans ha)
  · cases hf

/-- With an empty EPC and nothing tracked the handler of EINIT has nothing to trap and returns. -/
theorem enclsHandler_nothing (mtrrs : Mtrrs) (id : BitVec 64) {A : AddrMap} {g : Globals}
    (hid : IsIdentity maxPhysAddr A) (ho : guest.rax.toNat ≠ eremoveExit) (hu : g.countSgxPaddrs = 0)
    (hem : g.epcSize = 0) (hmap : g.channelPaddr % 2 ^ 48 < maxPhysAddr) :
    ∃ u, enclsHandler (addrMapOps mtrrs) id guest ⟨A, g⟩ = .ok () u := by
  have ends : wp (enclsHandler (addrMapOps mtrrs) id guest) (fun _ _ => True) (fun _ _ => False) ⟨A, g⟩ := by
    rw [enclsHandler, if_neg ho, wp_bind, wp_modifyG, wp_bind, addEpcAddress2m, wp_bind, wp_getG]
    dsimp only
    rw [hem, show epcFrames 0 = 0 from rfl, forFrom, wp_pure, wp_bind, wp_modifyG, wp_bind,
      trapEnclaveEntryNew2m, wp_bind, wp_getG]
    dsimp only
    rw [hu, forFrom, wp_pure, wp_bind, removePermissionChannel, changeChannel, wp_bind, wp_getG]
    obtain ⟨leaf, hf⟩ := (hid.domain _).mpr hmap
    rw [wp_of_ok (update_mapped hid hf (keepsSmall leaf
      (fun e hex => by simp [applyChanges, Change.apply, hex]) (hid.leaf hf)))]
    exact trivial
  obtain ⟨_, u, hret, -⟩ := exists_of_wp ends
  exact ⟨u, hret⟩

/-- This vCPU no longer exits on EINIT, so something must be tracked afterwards. -/
theorem other_intercepted (hrc : Reached platform channel mem s) (hic : Intercepted s.g)
    (ho : guest.rax.toNat ≠ eremoveExit)
    (next : abstractStep platform s (.exit id guest .encls) = some t) :
    Intercepted t.g ↔ 0 < s.g.countSgxPaddrs ∨ 0 < s.g.epcSize := by
  obtain ⟨w, hk, -, hrs⟩ := step_exit_some next
  have frames := epcFrames_pos s.g.epcSize
  rcases resume_split (enclsHandler_other (addrMapOps platform.mtrrs) id ho _) hrs with
    ⟨v, -, ⟨count, vcpus⟩, rfl⟩ | ⟨what, v, throws, ⟨count, vcpus⟩, rfl⟩
  · have count : v.g.countSgxPaddrs = s.g.countSgxPaddrs + epcFrames s.g.epcSize := count
    constructor
    · intro ha
      by_contra nothing
      have here : (onEntry id v.g).vcpus id = some (enterVcpu (withBitmap (enclsBit eremoveExit) w)) := by
        rw [onEntry, setVcpu_same, vcpus, Function.update_self,
          show (onExit id guest .encls s.g).vcpus id = some w from hk]
        rfl
      have set := ha (show v.g.countSgxPaddrs = 0 by omega) id _ here
      rw [enterVcpu_bitmap, withBitmap, enclsBit_getLsbD (by decide)] at set
      cases set
    · intro htd hem
      have hem : v.g.countSgxPaddrs = 0 := hem
      omega
  · have count : s.g.countSgxPaddrs ≤ v.g.countSgxPaddrs := count
    constructor
    · intro _
      by_contra nothing
      obtain ⟨es, hre⟩ := hrc
      rcases run_sound hre with rfl | running
      · cases hk
      · have hmap : (onExit id guest .encls s.g).channelPaddr % 2 ^ 48 < maxPhysAddr := by
          rw [show (onExit id guest .encls s.g).channelPaddr = channel.getD 0 from
            running.holds.configured.channelPaddr]
          exact channel_mapped hre hk
        obtain ⟨u, hret⟩ := enclsHandler_nothing platform.mtrrs id running.identity ho
          (show (onExit id guest .encls s.g).countSgxPaddrs = 0 by
            show s.g.countSgxPaddrs = 0
            omega)
          (show s.g.epcSize = 0 by omega) hmap
        cases throws.symm.trans hret
    · intro _ hem
      have hem : v.g.countSgxPaddrs = 0 := hem
      have hbe := hic (by omega)
      refine forall_setVcpu (vcpus ▸ hbe) fun u hmap => ?_
      obtain ⟨w', hk', rfl⟩ := Option.map_eq_some_iff.mp hmap
      exact hbe id w' (vcpus ▸ hk')

theorem intercepted_step {e : Event} (hrc : Reached platform channel mem s) (hic : Intercepted s.g)
    (next : abstractStep platform s e = some t) : Intercepted t.g ↔ EnclsInTurn s.g e := by
  cases e with
  | construct id => exact iff_of_true (construct_intercepted hic next) trivial
  | exit id guest reason =>
    cases reason with
    | encls =>
      by_cases remove : guest.rax.toNat = eremoveExit
      · rw [EnclsInTurn, if_pos remove]
        exact eremove_intercepted remove next
      · rw [EnclsInTurn, if_neg remove]
        exact other_intercepted hrc hic remove next
    | externalInterrupt | interruptWindow | eptViolation | vmcall | monitorTrap =>
      refine iff_of_true ?_ trivial
      obtain ⟨es, hre⟩ := hrc
      obtain ⟨v, hk, -⟩ := step_exit_some next
      rcases run_sound hre with rfl | running
      · cases hk
      · have hbe : Running (fun s => Intercepted s.g) s := ⟨running.epc, running.ept, running.identity, hic⟩
        refine (step_exit closed_intercepted.toSteady hbe (fun A g ha _ _ => ?_) next).holds
        exact handle_closed closed_intercepted (fun _ _ hic => hic)
          (fun _ hic => hic) id guest (fun same => by cases same) _ ha

end Interception

/-- EINIT is intercepted in all states of a run with nothing tracked exactly if ENCLS exits come in turn:
EREMOVE only while EINIT exits on every other vCPU, and EINIT only with a frame to track. -/
theorem einit_intercepted_iff (mm : PagePool) (platform : Platform) (channel : Option Nat)
    (word : Nat → Fin 512 → Entry) (mem : GuestMem) (es : List Event) (s : Machine Mmap)
    (reach : run (codeStep platform mm) (boot mm channel word mem) es = some s) :
    AllStates (codeStep platform mm) (fun s => Intercepted s.g) (boot mm channel word mem) es ↔
      AllSteps (codeStep platform mm) (fun s e => EnclsInTurn s.g e) (boot mm channel word mem) es :=
  code_allStates_iff (P := fun t => Intercepted t.g) (C := fun t e => EnclsInTurn t.g e)
    (fun _ _ _ absent => nomatch absent)
    (fun _ _ _ reached intercepted next => intercepted_step reached intercepted next) reach

/-- One vCPU starts an enclave, another one removes it. -/
def removedElsewhere : List Event :=
  [.construct 0, .construct 1, .exit 0 { (default : GuestState) with rax := 2 } .encls,
    .exit 1 { (default : GuestState) with rax := 3 } .encls]

theorem einit_not_intercepted :
    ∃ s v, run (codeStep default default) (boot default none (fun _ _ => 0) fun _ _ => 0) removedElsewhere = some s ∧
      s.g.countSgxPaddrs = 0 ∧ s.g.vcpus 0 = some v ∧ v.enclsExitingBitmap.getLsbD einitExit = false := by
  have observed : (run (abstractStep default) (bootAbstract none fun _ _ => 0) removedElsewhere).map (fun t =>
      (t.g.countSgxPaddrs, (t.g.vcpus 0).map (·.enclsExitingBitmap))) = some (0, some 8) := by decide +kernel
  obtain ⟨s, reach, seen, -⟩ := exists_run _ observed default fun _ _ => 0
  obtain ⟨empty, bitmap⟩ := Prod.mk.inj seen
  obtain ⟨v, known, bitmap⟩ := Option.map_eq_some_iff.mp bitmap
  exact ⟨s, v, reach, empty, known, by rw [bitmap]; decide⟩

theorem einit_intercepted_once :
    ∃ s, run (codeStep default default) (boot default none (fun _ _ => 0) fun _ _ => 0) oneEinit = some s ∧
      AllStates (codeStep default default) (fun s => Intercepted s.g)
        (boot default none (fun _ _ => 0) fun _ _ => 0) oneEinit := by
  have observed : (run (abstractStep default) (bootAbstract none fun _ _ => 0) oneEinit).map
      (·.g.flagEpt) = some true := by decide +kernel
  obtain ⟨s, reach, -, -⟩ := exists_run _ observed default fun _ _ => 0
  refine ⟨s, reach, (einit_intercepted_iff _ _ _ _ _ _ s reach).mpr ⟨trivial, fun t next => ⟨.inr ?_, fun _ _ => trivial⟩⟩⟩
  obtain ⟨reach', -⟩ := run_abstract (run_cons.mpr ⟨t, next, rfl⟩ : run _ _ [_] = some t)
  rw [show t.g.epcSize = _ from (run_sound_cons reach').holds.configured.epcSize]
  decide

end Gevisor.Vmm
