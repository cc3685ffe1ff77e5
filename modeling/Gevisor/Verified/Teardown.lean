import Gevisor.Verified.BufferIsolation
import Gevisor.Verified.Encls

/-! # Tearing an enclave down

EREMOVE forgets which frames were tracked. It does not touch the map: what command `e` has taken away from
the guest stays away, and after EREMOVE nothing records it.
-/

namespace Gevisor.Vmm

open Gevisor.Lib
open Gevisor.Ept

/-- The leaf can be read and written. -/
def Accessible (leaf : Leaf) : Prop := leaf.entry.isEnabled .read = true ∧ leaf.entry.isEnabled .write = true

/-- `a` lies in the frame of a tracked address. -/
def InTrackedFrame (g : Globals) (a : Nat) : Prop := ∃ k < g.countGpuPaddrs, SameLeaf .pd a (g.gpuPaddrs k)

/-- On some step of the run `remove_permission_gpu_buffers` has cleared the leaf that covers `a`. -/
def Cleared {E : Type} (step : Machine E → Event → Option (Machine E)) (s₀ : Machine E) (es : List Event)
    (a : Nat) : Prop :=
  ∃ es₁ e es₂ s₁, es = es₁ ++ e :: es₂ ∧ run step s₀ es₁ = some s₁ ∧ Processes 'e' s₁.g e ∧ InTrackedFrame s₁.g a

/-- Outside of `C` and the channel's leaf everything is accessible. -/
def AccessibleOutside (C : Nat → Prop) (s : Machine AddrMap) : Prop :=
  ∀ a leaf, s.guestMap a = some leaf → Accessible leaf ∨ SameLeaf leaf.level a s.g.channelPaddr ∨ C a

/-! ## What handlers take away -/

section Updates

variable {A : AddrMap} {g : Globals} {C : Nat → Prop} {v : Nat} {changes : List Change}

section

variable (hout : AccessibleOutside C ⟨A, g⟩)

include hout

theorem AccessibleOutside.merged (v : Nat) : AccessibleOutside C ⟨A.merged v, g⟩ := by
  intro a _ ha
  obtain ⟨leaf, hf, rfl⟩ := AddrMap.merged_some.mp ha
  split
  · exact .inl (by simp [Accessible, convertedLeaf, AttrType.accesses])
  · exact hout a leaf hf

/-- Changes that leave read and write access where it is. -/
theorem AccessibleOutside.updated (v : Nat) (hkp : ∀ (e : Entry) (b : Access), b ≠ .execute → e.isEnabled b = true →
      (applyChanges changes e).isEnabled b = true) : AccessibleOutside C ⟨A.updated v changes, g⟩ := by
  intro a _ ha
  obtain ⟨leaf, hf, rfl⟩ := AddrMap.updated_some.mp ha
  split
  · refine (hout a leaf hf).imp_left fun hac => ?_
    exact ⟨hkp _ .read (by decide) hac.1, hkp _ .write (by decide) hac.2⟩
  · exact hout a leaf hf

theorem AccessibleOutside.restricted (v : Nat) {b : Access} {change : Change}
    (hex : change = .enable b ∨ change = .disable .execute) : AccessibleOutside C ⟨A.updated v [change], g⟩ := by
  refine hout.updated v fun e b ho he => ?_
  rcases hex with rfl | rfl <;> simp [applyChanges, Change.apply, he, ho]

theorem AccessibleOutside.granted (v : Nat) (hgr : Grants changes) :
    AccessibleOutside C ⟨A.updated v changes, g⟩ := by
  refine hout.updated v fun e b _ he => ?_
  cases hgr <;> simp [applyChanges, Change.apply, he]

/-- Access may be removed in the leaf of the channel and in `C`. -/
theorem AccessibleOutside.removed
    (hal : ∀ a leaf, A a = some leaf → SameLeaf leaf.level a v → SameLeaf leaf.level a g.channelPaddr ∨ C a) :
    AccessibleOutside C ⟨A.updated v changes, g⟩ := by
  intro a _ ha
  obtain ⟨leaf, hf, rfl⟩ := AddrMap.updated_some.mp ha
  split
  · next same => exact .inr (hal a leaf hf same)
  · exact hout a leaf hf

end

theorem closedAll_accessibleOutside (C : Nat → Prop) : ClosedAll (AccessibleOutside C) where
  kept kept ho a leaf hf := kept.channelPaddr ▸ ho a leaf hf
  vcpu _ _ _ ho := ho
  registered _ _ ho := ho
  merged v _ ho := ho.merged v
  trapped v _ ho := ho.restricted (b := .read) v (.inr rfl)
  recorded _ ho := ho
  running _ ho := ho
  removed _ ho := ho.removed fun _ _ _ same => .inl same
  untrapped v _ ho := ho.restricted v (.inl rfl)
  noteSgx _ _ ho := ho
  cleared _ ho := ho
  reset ho := ho
  bitmap _ _ _ ho := ho
  create _ ho := ho
  delete _ ho := ho

end Updates

section Steps

variable {platform : Platform} {channel : Option Nat} {mem : GuestMem} {s t : Machine AddrMap} {C : Nat → Prop}
  {id : BitVec 64} {guest : GuestState} {reason : Reason}

variable {mtrrs : Mtrrs} {A : AddrMap} {g : Globals}

/-- Command `e` takes away exactly the tracked frames. -/
theorem removePermissionGpuBuffers_outside
    (hr : Running (AccessibleOutside C) ⟨A, g⟩) (hfr : ∀ a, InTrackedFrame g a → C a) :
    wp (removePermissionGpuBuffers (addrMapOps mtrrs)) (fun _ => Running (AccessibleOutside C))
      (fun _ => Running (AccessibleOutside C)) ⟨A, g⟩ := by
  rw [removePermissionGpuBuffers, changeGpuBuffers, wp_bind, wp_getG]
  refine wp_loop (fun _ t => Running (AccessibleOutside C) t ∧ t.g = g) ⟨hr, rfl⟩ (fun k t hbo hbe => ?_)
    fun t ha => ha.1
  obtain ⟨A', g'⟩ := t
  obtain ⟨hr', same⟩ := hbe
  rw [wp_bind, wp_checkIndex]
  split
  case isFalse => exact hr'
  case isTrue =>
  rw [wp_bind, wp_getG]
  have hre := @Running.remove_at _ mtrrs _ _ hr' (g'.gpuPaddrs k) fun hid hout =>
    hout.removed fun a leaf hf near =>
      .inr (hfr a ⟨k, hbo, same ▸ (hid.leaf hf).frame near⟩)
  exact wp_mono (fun _ _ ha => ha) (fun _ _ ha => ha.1) (wp_and hre (onMap_globals (· = g) _ _ same))

theorem handle_accessibleOutside (hr : Running (AccessibleOutside C) ⟨A, g⟩)
    (hc : ∀ information page, reason = .externalInterrupt information → onEnclaveVcpu g id →
      g.channelMap = some page → channelCommand g.mem page = 'e' → ∀ a, InTrackedFrame g a → C a) :
    wp (handle (addrMapOps mtrrs) id guest reason) (fun _ => Running (AccessibleOutside C))
      (fun _ => Running (AccessibleOutside C)) ⟨A, g⟩ := by
  have hcl := closedAll_accessibleOutside C
  have channel : Preserves (Running (AccessibleOutside C)) (grantPermissionChannel (addrMapOps mtrrs)) :=
    .bind Running.getG fun _ => Running.grant .both fun _ _ _ hout => hout.granted _ .both
  refine handle_cases hcl.toClosed hr (fun information page hi he hmap hco =>
      removePermissionGpuBuffers_outside hr (hc information page hi he hmap hco))
    (fun _ _ _ _ _ _ => hcl.registerBuffer _ _ _ hr fun _ _ => fun _ _ hout => hout)
    (fun _ _ _ _ _ _ => Running.changeGpuBuffers fun _ => Running.grant .both fun _ _ _ hout => hout.granted _ .both)
    (fun _ _ _ _ _ => hcl.eptReadViolationHandler id _ fun _ _ _ hout => hout.granted _ .read)
    (fun _ _ _ _ _ _ => hcl.eptWriteViolationHandler id guest _ channel fun _ _ _ hout => hout.granted _ .write)
    fun _ => hcl.enclsHandler id guest

theorem accessibleOutside_started (id : BitVec 64) : AccessibleOutside C (started platform channel mem id) := by
  intro a leaf hf
  obtain ⟨hi, hf⟩ := Option.ite_none_right_eq_some.mp hf
  obtain ⟨level, type, hbt, -⟩ := identityLeaf_cases platform.mtrrs.contiguous (a := a % 2 ^ 48) (by omega)
  obtain rfl := Option.some.inj (hbt.symm.trans hf)
  exact .inl (by simp [Accessible, AttrType.accesses])

/-- One step takes access away from the channel's leaf and from what it clears. -/
theorem accessibleOutside_step {e : Event} (hbe : s = bootAbstract channel mem ∨ Running (AccessibleOutside C) s)
    (hc : Processes 'e' s.g e → ∀ a, InTrackedFrame s.g a → C a) (next : abstractStep platform s e = some t) :
    Running (AccessibleOutside C) t := by
  refine step_running (closedAll_accessibleOutside C) accessibleOutside_started
    (fun id guest reason exit hr => ?_) hbe next
  subst exit
  refine step_exit (closedAll_accessibleOutside C).toSteady hr (fun A g hr' _ hg => ?_) next
  subst hg
  refine handle_accessibleOutside hr' fun information page hi he hmap hco => ?_
  subst hi
  exact hc ⟨he, page, hmap, hco⟩

end Steps

/-! ## Runs -/

section Runs

variable {E : Type} {step : Machine E → Event → Option (Machine E)} {s₀ : Machine E} {es : List Event} {a : Nat}

theorem Cleared.append (hcr : Cleared step s₀ es a) (fs : List Event) : Cleared step s₀ (es ++ fs) a := by
  obtain ⟨es₁, e, es₂, s₁, rfl, rest⟩ := hcr
  exact ⟨es₁, e, es₂ ++ fs, s₁, by simp, rest⟩

variable {platform : Platform} {channel : Option Nat} {mem : GuestMem}

/-- By induction over the run: each step adds what it clears. -/
theorem run_accessibleOutside {es : List Event}
    {t : Machine AddrMap} (hre : run (abstractStep platform) (bootAbstract channel mem) es = some t) :
    t = bootAbstract channel mem ∨
      Running (AccessibleOutside (Cleared (abstractStep platform) (bootAbstract channel mem) es)) t := by
  induction es using List.reverseRecOn generalizing t with
  | nil => exact .inl (Option.some.inj hre).symm
  | append_singleton es e ih =>
    obtain ⟨s, hea, last⟩ := run_append.mp hre
    obtain ⟨u, next, hfi⟩ := run_cons.mp last
    obtain rfl := Option.some.inj hfi
    refine .inr (accessibleOutside_step ((ih hea).imp_right fun hr => ?_) (fun ht a htd => ?_) next)
    · exact hr.weaken fun hout a leaf hf => (hout a leaf hf).imp_right fun he =>
        he.imp_right fun hcr => hcr.append [e]
    · exact ⟨es, e, [], s, rfl, hea, ht, htd⟩

/-- The code clears what the abstract machine clears. -/
theorem Cleared.code {mm : PagePool} {word : Nat → Fin 512 → Entry} {s : Machine Mmap}
    (hre : run (codeStep platform mm) (boot mm channel word mem) es = some s)
    (hcr : Cleared (abstractStep platform) (bootAbstract channel mem) es a) :
    Cleared (codeStep platform mm) (boot mm channel word mem) es a := by
  obtain ⟨es₁, e, es₂, s₁, rfl, hea, ht, htd⟩ := hcr
  obtain ⟨s₁', hea', -⟩ := run_append.mp hre
  obtain rfl := Option.some.inj (hea.symm.trans (run_abstract hea').1)
  exact ⟨es₁, e, es₂, s₁', rfl, hea', ht, htd⟩

end Runs

/-! ## EREMOVE -/

section Eremove

variable {E : Type} {ops : EptOps E} {platform : Platform} {s t : Machine E} {id : BitVec 64} {guest : GuestState}

theorem eremove_map (hr : guest.rax.toNat = eremoveExit) :
    wp (enclsHandler ops id guest) (fun _ t => t.guestMap = s.guestMap ∧ t.g.channelPaddr = s.g.channelPaddr)
      (fun _ t => t.guestMap = s.guestMap ∧ t.g.channelPaddr = s.g.channelPaddr) s := by
  rw [enclsHandler, if_pos hr, wp_bind, wp_modifyG, wp_bind, setEnclsExitingBitmap, wp_modifyVcpu, wp_bind,
    wp_modifyG, wp_bind, wp_getG, wp_bind]
  refine wp_loop (fun _ (t : Machine E) => t.guestMap = s.guestMap ∧ t.g.channelPaddr = s.g.channelPaddr) ⟨rfl, rfl⟩
    (fun i t _ same => ?_) fun t same => same
  rw [wp_bind, wp_checkIndex]
  split
  case isFalse => exact same
  case isTrue =>
  rw [wp_bind, wp_modifyG, wp_bind, wp_checkIndex]
  split
  · exact same
  · exact same

theorem step_eremove_map (hr : guest.rax.toNat = eremoveExit)
    (next : step ops platform s (.exit id guest .encls) = some t) :
    t.guestMap = s.guestMap ∧ t.g.channelPaddr = s.g.channelPaddr := by
  obtain ⟨v, -, -, hrs⟩ := step_exit_some next
  obtain ⟨u, same, rfl | rfl⟩ := resume_cases (eremove_map hr) hrs
  · exact same
  · exact same

end Eremove

/-- After an EREMOVE exit all leaves that were cleared before are accessible again, or the channel's, exactly if
before the exit all leaves but the channel's were. -/
theorem teardown_restores_iff (mm : PagePool) (platform : Platform) (channel : Option Nat)
    (word : Nat → Fin 512 → Entry) (mem : GuestMem) (es : List Event) (s t : Machine Mmap)
    (reach : run (codeStep platform mm) (boot mm channel word mem) es = some s) (id : BitVec 64)
    (guest : GuestState) (remove : guest.rax.toNat = eremoveExit)
    (next : codeStep platform mm s (.exit id guest .encls) = some t) :
    (∀ a leaf, Cleared (codeStep platform mm) (boot mm channel word mem) es a → leafAt mm t.guestMap a = some leaf →
        Accessible leaf ∨ SameLeaf leaf.level a t.g.channelPaddr) ↔
      ∀ a leaf, leafAt mm s.guestMap a = some leaf → Accessible leaf ∨ SameLeaf leaf.level a s.g.channelPaddr := by
  obtain ⟨map, channelPaddr⟩ := step_eremove_map remove next
  rw [map, channelPaddr]
  constructor
  · intro restored a leaf found
    obtain ⟨reach', -⟩ := run_abstract reach
    rcases run_accessibleOutside reach' with start | running
    · have bare : (s.view mm).guestMap a = none := by rw [start]; rfl
      cases bare.symm.trans found
    · rcases running.holds a leaf found with accessible | channel | cleared
      · exact .inl accessible
      · exact .inr channel
      · exact restored a leaf (cleared.code reach) found
  · exact fun open' a leaf _ found => open' a leaf found

/-- The exit on which the enclave is removed. -/
def eremove : Event := .exit 0 { (default : GuestState) with rax := 3 } .encls

/-- An enclave takes a buffer for itself and is removed: the buffer stays out of reach. -/
theorem teardown_not_restored :
    ∃ t leaf, run (codeStep default default) (boot default (some 0x400000) (fun _ _ => 0) fun _ _ => 0)
        (bufferRemoved ++ [eremove]) = some t ∧
      Cleared (codeStep default default) (boot default (some 0x400000) (fun _ _ => 0) fun _ _ => 0) bufferRemoved
        0x40000000 ∧
      leafAt default t.guestMap 0x40000000 = some leaf ∧ ¬ Accessible leaf ∧
      ¬ SameLeaf leaf.level 0x40000000 t.g.channelPaddr ∧ t.g.countGpuPaddrs = 0 := by
  have observed : (run (abstractStep default) (bootAbstract (some 0x400000) fun _ _ => 0)
      (bufferRemoved ++ [eremove])).map (fun t =>
        ((t.guestMap 0x40000000).map fun leaf => (leaf.level, leaf.entry.isEnabled .read), t.g.channelPaddr,
          t.g.countGpuPaddrs)) = some (some (.pd, false), 0x400000, 0) := by decide +kernel
  obtain ⟨t, reach, seen, -⟩ := exists_run _ observed default fun _ _ => 0
  injection seen with found rest
  injection rest with channel count
  obtain ⟨leaf, found, bits⟩ := Option.map_eq_some_iff.mp found
  obtain ⟨level, unreadable⟩ := Prod.mk.inj bits
  -- The state in which command `e` is read.
  have before : (run (abstractStep default) (bootAbstract (some 0x400000) fun _ _ => 0)
      ([.construct 0, .exit 0 { (default : GuestState) with rax := 2 } .encls] ++ enclaveRound (channelGuest 'm' 1) ++
        [.exit 0 default (.eptViolation 4 0x200000 0x200000)])).map (fun t =>
          ((t.g.enclaveRunning, t.g.enclaveVcpuid), t.g.channelMap, t.g.countGpuPaddrs, t.g.gpuPaddrs 0)) =
      some ((true, 0), some 0x400000, 1, 0x40000000) := by decide +kernel
  obtain ⟨s, reach', seen', -⟩ := exists_run _ before default fun _ _ => 0
  injection seen' with enclave rest
  injection rest with mapped rest
  injection rest with one first
  obtain ⟨runs, vcpu⟩ := Prod.mk.inj enclave
  have cleared : Cleared (codeStep default default) (boot default (some 0x400000) (fun _ _ => 0) fun _ _ => 0)
      bufferRemoved 0x40000000 := by
    refine ⟨_, .exit 0 (channelGuest 'e' 1) (.externalInterrupt 0x20), [], s, rfl, reach', ?_, 0, ?_, ?_⟩
    · refine ⟨⟨runs, ?_⟩, 0x400000, mapped, by decide⟩
      rw [show s.g.enclaveVcpuid = 0 from vcpu]
      decide
    · rw [show s.g.countGpuPaddrs = 1 from one]
      decide
    · rw [show s.g.gpuPaddrs 0 = 0x40000000 from first]
      rfl
  refine ⟨t, leaf, reach, cleared, found, fun accessible => ?_, ?_, count⟩
  · exact Bool.false_ne_true (unreadable.symm.trans accessible.1)
  · rw [level, show t.g.channelPaddr = 0x400000 from channel]
    decide

theorem teardown_restores_plain :
    ∃ s t, run (codeStep default default) (boot default (some 0x400000) (fun _ _ => 0) fun _ _ => 0) oneEinit = some s ∧
      codeStep default default s eremove = some t ∧
      ∀ a leaf, Cleared (codeStep default default) (boot default (some 0x400000) (fun _ _ => 0) fun _ _ => 0) oneEinit
        a → leafAt default t.guestMap a = some leaf → Accessible leaf ∨ SameLeaf leaf.level a t.g.channelPaddr := by
  have observed : (run (abstractStep default) (bootAbstract (some 0x400000) fun _ _ => 0)
      (oneEinit ++ [eremove])).map (·.g.flagEpt) = some true := by decide +kernel
  obtain ⟨t, reach, -⟩ := exists_run _ observed default fun _ _ => 0
  obtain ⟨s, earlier, last⟩ := run_append.mp reach
  obtain ⟨u, next, final⟩ := run_cons.mp last
  obtain rfl := Option.some.inj final
  -- No step of this run reads the channel.
  have nothing (a : Nat) : ¬ Cleared (abstractStep default) (bootAbstract (some 0x400000) fun _ _ => 0) oneEinit a := by
    rintro ⟨es₁, e, es₂, s₁, split, -, takes, -⟩
    have member : e ∈ oneEinit := split ▸ List.mem_append_right _ List.mem_cons_self
    simp only [oneEinit, List.mem_cons, List.not_mem_nil, or_false] at member
    rcases member with rfl | rfl <;> exact takes
  refine ⟨s, u, earlier, next, (teardown_restores_iff _ _ _ _ _ _ s u earlier 0 _ rfl next).mpr fun a leaf found => ?_⟩
  rcases run_accessibleOutside (run_abstract earlier).1 with start | running
  · have bare : (s.view default).guestMap a = none := by rw [start]; rfl
    cases bare.symm.trans found
  · exact (running.holds a leaf found).imp_right fun either => either.resolve_right (nothing a)

end Gevisor.Vmm
