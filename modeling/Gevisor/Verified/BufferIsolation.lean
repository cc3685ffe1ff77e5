import Gevisor.Verified.Misconfiguration

/-! # Isolation of GPU buffers

Command `e` takes the registered buffers away from everybody but the enclave, command `n` gives them back.
In between the handlers of data violations give access to whatever address is touched, and a buffer that is
registered late is tracked without being taken away.
-/

namespace Gevisor.Vmm

open Gevisor.Lib
open Gevisor.Ept

/-- The leaves that cover tracked frames can be neither read nor written. -/
def Isolated (s : Machine AddrMap) : Prop :=
  ∀ k < s.g.countGpuPaddrs, ∀ leaf, s.guestMap (s.g.gpuPaddrs k) = some leaf →
    leaf.entry.isEnabled .read = false ∧ leaf.entry.isEnabled .write = false

/-- The frame of `a` is one large page that can be neither read nor written. -/
def Removed (A : AddrMap) (a : Nat) : Prop :=
  ∃ e, A a = some ⟨.pd, e⟩ ∧ e.isEnabled .read = false ∧ e.isEnabled .write = false

/-- `a` is mapped, and turning its frame into a large page leaves it accessible. -/
def Exposed (A : AddrMap) (a : Nat) : Prop :=
  ∃ leaf, A a = some leaf ∧
    (leaf.level = .pt ∨ leaf.entry.isEnabled .read = true ∨ leaf.entry.isEnabled .write = true)

/-! ## Updates -/

section Updates

variable {A : AddrMap} {a v : Nat} {changes : List Change}

theorem isolated_iff {s : Machine AddrMap} (hl : ∀ a, Tracked s.g a → IsLarge s.guestMap a) :
    Isolated s ↔ ∀ a, Tracked s.g a → Removed s.guestMap a := by
  constructor
  · rintro hi _ ⟨k, hb, rfl⟩
    obtain ⟨e, hf⟩ := hl _ ⟨k, hb, rfl⟩
    exact ⟨e, hf, hi k hb _ hf⟩
  · intro hrm k hb leaf hf
    obtain ⟨e, hf', bits⟩ := hrm _ ⟨k, hb, rfl⟩
    cases hf.symm.trans hf'
    exact bits

theorem Removed.merged (hrm : Removed A a) (v : Nat) : Removed (A.merged v) a := by
  obtain ⟨e, hf, bits⟩ := hrm
  exact ⟨e, AddrMap.merged_large hf, bits⟩

theorem Removed.restricted (hrm : Removed A a) (v : Nat) (hr : Restricts changes) :
    Removed (A.updated v changes) a := by
  obtain ⟨e, hf, hu, hun⟩ := hrm
  refine ⟨_, AddrMap.updated_level hf, ?_⟩
  by_cases same : SameLeaf .pd a v
  · cases hr <;> simp [same, applyChanges, Change.apply, hu, hun]
  · simp [same, hu, hun]

/-- Changes elsewhere. -/
theorem Removed.updated_apart (hrm : Removed A a) (hap : ¬ SameLeaf .pd a v) : Removed (A.updated v changes) a := by
  obtain ⟨e, hf, bits⟩ := hrm
  exact ⟨e, by rw [AddrMap.updated_level hf, if_neg hap], bits⟩

theorem removed_self (hl : IsLarge A v) : Removed (A.updated v [.disable .read, .disable .write]) v := by
  obtain ⟨e, hf⟩ := hl
  refine ⟨_, AddrMap.updated_level hf, ?_⟩
  simp [SameLeaf.refl, applyChanges, Change.apply]

/-- A mapped frame is one or the other. -/
theorem exposed_of_not_removed (hid : IsIdentity maxPhysAddr A) (hi : a % 2 ^ 48 < maxPhysAddr)
    (not : ¬ Removed A a) : Exposed A a := by
  obtain ⟨leaf, hf⟩ := (hid.domain a).mpr hi
  refine ⟨leaf, hf, ?_⟩
  obtain ⟨level, e⟩ := leaf
  cases (hid.leaf hf).level_cases with
  | inr hs => exact .inl hs
  | inl hl =>
    obtain rfl : level = .pd := hl
    by_contra hc
    simp only [not_or, Bool.not_eq_true] at hc
    exact not ⟨e, hf, hc.2⟩

theorem Exposed.not_removed (he : Exposed A a) : ¬ Removed A a := by
  rintro ⟨e, hf, hu, hun⟩
  obtain ⟨leaf, hf', open'⟩ := he
  cases hf.symm.trans hf'
  simp [hu, hun] at open'

theorem Exposed.merged (he : Exposed A a) (v : Nat) : Exposed (A.merged v) a := by
  obtain ⟨leaf, hf, ha⟩ := he
  refine ⟨_, AddrMap.merged_some.mpr ⟨leaf, hf, rfl⟩, ?_⟩
  split
  · simp [convertedLeaf, AttrType.accesses]
  · exact ha

/-- Every change that does not remove access. -/
theorem Exposed.updated (he : Exposed A a) (v : Nat)
    (hkp : ∀ (e : Entry) (b : Access), b = .read ∨ b = .write → e.isEnabled b = true →
      (applyChanges changes e).isEnabled b = true) : Exposed (A.updated v changes) a := by
  obtain ⟨⟨level, e⟩, hf, ha⟩ := he
  refine ⟨_, AddrMap.updated_level hf, ha.imp_right fun bits => ?_⟩
  by_cases same : SameLeaf level a v
  · rw [if_pos same]
    exact bits.imp (hkp e .read (.inl rfl)) (hkp e .write (.inr rfl))
  · rw [if_neg same]
    exact bits

theorem Exposed.granted (hex : Exposed A a) (v : Nat) (hgr : Grants changes) : Exposed (A.updated v changes) a := by
  refine hex.updated v fun e b _ he => ?_
  cases hgr <;> simp [applyChanges, Change.apply, he]

theorem Exposed.trapped (hex : Exposed A a) (v : Nat) : Exposed (A.updated v [.disable .execute]) a := by
  refine hex.updated v fun e b hei he => ?_
  cases hei with
  | inl read =>
    subst read
    simp [applyChanges, Change.apply, he]
  | inr hw =>
    subst hw
    simp [applyChanges, Change.apply, he]

/-- Giving access to an address gives access to its frame. -/
theorem exposed_of_grant (hl : IsLarge A a) (same : SameLeaf .pd a v) (hgr : Grants changes) :
    Exposed (A.updated v changes) a := by
  obtain ⟨e, hf⟩ := hl
  refine ⟨_, AddrMap.updated_level hf, .inr ?_⟩
  cases hgr <;> simp [same, applyChanges, Change.apply]

end Updates

/-! ## Taking buffers away and registering them late -/

section Commands

variable {mtrrs : Mtrrs} {A : AddrMap} {g : Globals} {page : Nat}

theorem closedAll_removed : ClosedAll fun s => ∀ a, Tracked s.g a → Removed s.guestMap a :=
  closedAll_tracked (p := Removed) (fun v _ hrm => hrm.merged v) fun v _ hr _ hrm => hrm.restricted v hr

/-- All tracked frames are mapped, so the loop of command `e` reaches each of them. -/
theorem removePermissionGpuBuffers_removes
    (hr : Running (fun s => ∀ a, Tracked s.g a → IsLarge s.guestMap a) ⟨A, g⟩) :
    wp (removePermissionGpuBuffers (addrMapOps mtrrs))
      (fun _ => Running fun s => ∀ a, Tracked s.g a → Removed s.guestMap a)
      (fun e _ => e.isExn = false) ⟨A, g⟩ := by
  rw [removePermissionGpuBuffers, changeGpuBuffers, wp_bind, wp_getG]
  -- Before iteration `k` the first `k` frames are done; what has been removed stays removed.
  refine wp_loop (fun k t => t.g = g ∧ Running (fun s => (∀ a, Tracked g a → IsLarge s.guestMap a) ∧
      ∀ j < k, Removed s.guestMap (g.gpuPaddrs j)) t)
    ⟨rfl, hr.epc, hr.ept, hr.identity, hr.holds, fun j hb => by omega⟩
    (fun k t hb hbe => ?_) fun t ha => ?_
  · obtain ⟨A', g'⟩ := t
    obtain ⟨rfl, epc, ept, hid, hl, done⟩ := hbe
    rw [wp_bind, wp_checkIndex]
    split
    case isFalse => rfl
    case isTrue =>
    rw [wp_bind, wp_getG]
    obtain ⟨e, hf⟩ := hl (g'.gpuPaddrs k) ⟨k, hb, rfl⟩
    have hs (leaf : Leaf) (hf : A' (g'.gpuPaddrs k) = some leaf) := @keepsSmall [.disable .read, .disable .write] leaf
        (fun e hex => by simp [applyChanges, Change.apply, hex]) _ (hid.leaf hf)
    rw [wp_of_ok (update_mapped hid hf (hs _ hf))]
    refine ⟨rfl, epc, ept, hid.updated hs, fun a htd => (hl a htd).updated _ _, fun j upto => ?_⟩
    cases Nat.lt_or_eq_of_le (Nat.le_of_lt_succ upto) with
    | inl less => exact (done j less).restricted _ .remove
    | inr heq =>
      subst heq
      exact removed_self ⟨e, hf⟩
  · obtain ⟨A', g'⟩ := t
    obtain ⟨rfl, epc, ept, hid, -, done⟩ := ha
    refine ⟨epc, ept, hid, ?_⟩
    rintro _ ⟨k, hb, rfl⟩
    exact done k hb

/-- Command `e` isolates all buffers. -/
theorem externalInterrupt_e (hr : Running (fun s => ∀ a, Tracked s.g a → IsLarge s.guestMap a) ⟨A, g⟩)
    {id : BitVec 64} {guest : GuestState} {vector : BitVec 64} (he : onEnclaveVcpu g id)
    (hmap : g.channelMap = some page) (hc : channelCommand g.mem page = 'e') :
    wp (externalInterruptHandler (addrMapOps mtrrs) id guest vector)
      (fun _ => Running fun s => ∀ a, Tracked s.g a → Removed s.guestMap a)
      (fun e t => e.isExn = true → Running (fun s => ∀ a, Tracked s.g a → Removed s.guestMap a) t) ⟨A, g⟩ := by
  have hst := closedAll_removed.toSteady
  refine hst.externalInterrupt_enclave (closedAll_removed.running false) he (fun _ _ h _ => h) ?_
  rw [wp, readEnclaveChannel_e hmap hc, ← wp, wp_bind]
  refine wp_mono (fun _ t ha => ?_) (fun e t hf exn => ?_) (removePermissionGpuBuffers_removes hr)
  · exact hst.modifyG (f := channelDone page) (fun _ => by constructor <;> rfl) t ha
  · cases hf.symm.trans exn

theorem steady_exposed_map (a : Nat) : Steady fun s => Exposed s.guestMap a where
  kept _ h := h
  vcpu _ _ _ h := h
  registered _ _ h := h
  merged v _ h := h.merged v
  trapped v _ h := h.trapped v

/-- A frame that is tracked while it is accessible. -/
theorem steady_exposed (a : Nat) : Steady fun s => Exposed s.guestMap a ∧ Tracked s.g a where
  kept kept h := ⟨h.1, (tracked_kept kept).mpr h.2⟩
  vcpu _ _ _ h := h
  registered _ _ h := h
  merged v _ h := ⟨h.1.merged v, h.2⟩
  trapped v _ h := ⟨h.1.trapped v, h.2⟩

/-- A frame that command `m` adds stays as accessible as it was. -/
theorem externalInterrupt_m {a : Nat} (hr : Running (fun s => Exposed s.guestMap a) ⟨A, g⟩)
    {id : BitVec 64} {guest : GuestState} {vector : BitVec 64} (he : onEnclaveVcpu g id)
    (hmap : g.channelMap = some page) (hc : channelCommand g.mem page = 'm')
    (new : NewFrame g (channelBuffer g.mem page) (channelSize g.mem page) guest.cr3.toNat a) :
    wp (externalInterruptHandler (addrMapOps mtrrs) id guest vector)
      (fun _ => Running fun s => Exposed s.guestMap a ∧ Tracked s.g a)
      (fun e t => e.isExn = true → Running (fun s => Exposed s.guestMap a ∧ Tracked s.g a) t) ⟨A, g⟩ := by
  have hst := steady_exposed a
  refine hst.externalInterrupt_enclave (fun h => h) he (fun _ _ h _ => h) ?_
  rw [wp, readEnclaveChannel_m hmap hc, ← wp, wp_bind]
  have hs := @Steady.registerBuffer _ mtrrs (steady_exposed_map a) (channelBuffer g.mem page)
    (channelSize g.mem page) guest.cr3.toNat A g hr fun _ _ => fun _ _ h => h
  have htr := @registerBuffer_tracks mtrrs A g hr.identity (channelBuffer g.mem page)
    (channelSize g.mem page) guest.cr3.toNat
  have both (t : Machine AddrMap) (hs : Running (fun s => Exposed s.guestMap a) t) (htd : Tracked t.g a) :
      Running (fun s => Exposed s.guestMap a ∧ Tracked s.g a) t :=
    ⟨hs.epc, hs.ept, hs.identity, hs.holds, htd⟩
  refine wp_mono (fun _ t ha => ?_) (fun e t ha exn => ?_) (wp_and hs htr)
  · exact hst.modifyG (f := channelDone page) (fun _ => by constructor <;> rfl) t
      (both t ha.1 ((ha.2 a).mpr (.inr new)))
  · exact both t ha.1 ((ha.2 exn a).mpr (.inr new))

end Commands

/-! ## Steps -/

/-- No tracked frame contains `v`. -/
def Apart (g : Globals) (v : Nat) : Prop := ∀ a, Tracked g a → ¬ SameLeaf .pd a v

/-- The exit makes `read_enclave_channel` process `command`. -/
def Processes (command : Char) (g : Globals) : Event → Prop
  | .exit id guest (.externalInterrupt _) =>
    onEnclaveVcpu g id ∧ ∃ page, g.channelMap = some page ∧ channelCommand guest.mem page = command
  | _ => False

/-- The exit ends the isolation: command `n`, or EREMOVE. -/
def Releases (g : Globals) : Event → Prop
  | .exit _ guest .encls => guest.rax.toNat = eremoveExit
  | e => Processes 'n' g e

/-- A buffer that is registered has no frame that is accessible, and a data violation is not in a tracked
frame. A write violation also gives access to the channel, which then is not in a tracked frame either. -/
def KeepsIsolated (s : Machine AddrMap) : Event → Prop
  | .exit id guest (.externalInterrupt _) =>
    onEnclaveVcpu s.g id → ∀ page, s.g.channelMap = some page → channelCommand guest.mem page = 'm' →
      ∀ a, NewFrame { s.g with mem := guest.mem } (channelBuffer guest.mem page) (channelSize guest.mem page)
        guest.cr3.toNat a → Removed s.guestMap a
  | .exit _ _ (.eptViolation qual _ gpa) =>
    (isBitSet qual 0 = true → Apart s.g (align gpa.toNat 4096)) ∧
      (isBitSet qual 0 = false → isBitSet qual 1 = true →
        Apart s.g s.g.channelPaddr ∧ Apart s.g (align gpa.toNat 4096))
  | _ => True

section Steps

variable {platform : Platform} {channel : Option Nat} {mem : GuestMem} {s t : Machine AddrMap} {id : BitVec 64}
  {guest : GuestState}

theorem SameTracking.tracked {g g' : Globals} (same : SameTracking g g') {a : Nat} :
    Tracked g' a ↔ Tracked g a := by
  obtain ⟨mem, vcpus, rfl⟩ := same
  rfl

/-- The frames that are tracked, or will be at the end of the step, are in `T`, and those are removed. -/
theorem closedAll_within (T : Nat → Prop) :
    ClosedAll fun s => (∀ a, Tracked s.g a → T a) ∧ ∀ a, T a → Removed s.guestMap a :=
  (closedAll_tracked (p := fun _ a => T a) (fun _ _ h => h) (fun _ _ _ _ h => h)).and
    (closedAll_map (p := fun A => ∀ a, T a → Removed A a) (fun v _ all a hm => (all a hm).merged v)
      fun v _ hr _ all a hm => (all a hm).restricted v hr)

/-- The frames that an exit adds. -/
def Added (g : Globals) (id : BitVec 64) (guest : GuestState) (reason : Reason) (a : Nat) : Prop :=
  ∃ information page, reason = .externalInterrupt information ∧ onEnclaveVcpu g id ∧ g.channelMap = some page ∧
    channelCommand guest.mem page = 'm' ∧
    NewFrame { g with mem := guest.mem } (channelBuffer guest.mem page) (channelSize guest.mem page)
      guest.cr3.toNat a

variable {reason : Reason} {e : Event}

/-- The condition is enough. -/
theorem exit_removed (hr : Running (Sound platform channel) s)
    (hrm : ∀ a, Tracked s.g a → Removed s.guestMap a) (hs : ¬ Releases s.g (.exit id guest reason))
    (hkp : KeepsIsolated s (.exit id guest reason))
    (next : abstractStep platform s (.exit id guest reason) = some t) (a : Nat) (htd : Tracked t.g a) :
    Removed t.guestMap a := by
  let T (a : Nat) : Prop := Tracked s.g a ∨ Added s.g id guest reason a
  have hcl := (closedAll_configured platform channel).and (closedAll_within T)
  have hal (a : Nat) (hm : T a) : Removed s.guestMap a := by
    cases hm with
    | inl old => exact hrm a old
    | inr had =>
      obtain ⟨information, page, rfl, he, hmap, hc, new⟩ := had
      exact hkp he page hmap hc a new
  have hbe : Running (fun s => Configured platform channel s.g ∧ (∀ a, Tracked s.g a → T a) ∧
      ∀ a, T a → Removed s.guestMap a) s :=
    ⟨hr.epc, hr.ept, hr.identity, hr.holds.configured, fun _ => .inl, hal⟩
  -- Access is given back only outside the frames of `T`.
  have hg {v : Nat} {changes : List Change} (hap : ∀ a, T a → ¬ SameLeaf .pd a v) (A : AddrMap) (g : Globals)
      (h : Configured platform channel g ∧ (∀ a, Tracked g a → T a) ∧ ∀ a, T a → Removed A a) :
      Configured platform channel g ∧ (∀ a, Tracked g a → T a) ∧ ∀ a, T a → Removed (A.updated v changes) a :=
    ⟨h.1, h.2.1, fun a hm => (h.2.2 a hm).updated_apart (hap a hm)⟩
  have ha := step_exit hcl.toSteady hbe (fun A g hr' _ same => ?_) next
  · exact ha.holds.2.2 a (ha.holds.2.1 a htd)
  subst same
  refine handle_cases hcl.toClosed hr' (fun _ _ _ _ _ _ => Running.changeGpuBuffers
      (fun v => Running.remove fun _ _ _ h => ⟨h.1, h.2.1, fun a hm => (h.2.2 a hm).restricted v .remove⟩) _
      hr')
    (fun information page hi he hmap hc => ?_)
    (fun information page hi he hmap hc => ?_)
    (fun qual gva gpa his read => ?_) (fun qual gva gpa his hn hwr => ?_)
    fun _ => hcl.enclsHandler id guest
  · subst hi
    refine hcl.registerBuffer _ _ _ hr' fun a new => fun _ _ hh => ?_
    have hm : T a := .inr ⟨information, page, rfl, he, hmap, hc, new⟩
    obtain ⟨hcfg, hw, all⟩ := hh
    refine ⟨⟨hcfg.1, hcfg.2, hcfg.3, hcfg.4⟩, fun b htd => ?_, all⟩
    cases tracked_note.mp htd with
    | inl old => exact hw b old
    | inr heq => exact heq ▸ hm
  · subst hi
    exact absurd ⟨he, page, hmap, hc⟩ hs
  · subst his
    refine hcl.eptReadViolationHandler id _ fun A g _ h => hg (fun a hm => ?_) A g h
    cases hm with
    | inl old => exact hkp.1 read a old
    | inr had =>
      obtain ⟨_, _, hi, -⟩ := had
      cases hi
  · subst his
    obtain ⟨haa, hap⟩ := hkp.2 hn hwr
    have ho {v : Nat} (hap : Apart s.g v) (a : Nat) (hm : T a) : ¬ SameLeaf .pd a v := by
      cases hm with
      | inl old => exact hap a old
      | inr had =>
        obtain ⟨_, _, hi, -⟩ := had
        cases hi
    refine hcl.eptWriteViolationHandler id guest _ ?_ fun A g _ h => hg (ho hap) A g h
    have same : s.g.channelPaddr = channel.getD 0 := hr.holds.configured.channelPaddr
    exact Running.grantPermissionChannel (fun _ _ h => h.1.channelPaddr.trans same.symm)
      fun A g _ h => hg (ho haa) A g h

/-- The condition is necessary: where it fails, the step leaves a tracked frame that is accessible. -/
theorem keeps_of_removed (hr : Running (Sound platform channel) s) (hmap : s.g.channelPaddr % 2 ^ 48 < maxPhysAddr)
    (next : abstractStep platform s (.exit id guest reason) = some t)
    (hrm : ∀ a, Tracked t.g a → Removed t.guestMap a) : KeepsIsolated s (.exit id guest reason) := by
  have hl := hr.holds.large
  cases reason with
  | externalInterrupt information =>
    intro hen page live hc a new
    by_contra hac
    have hi : a % 2 ^ 48 < maxPhysAddr := by
      obtain ⟨-, paddr, -, -, i, -, rfl, hi⟩ := new
      exact hi i (Nat.le_refl i)
    have he := exposed_of_not_removed hr.identity hi hac
    obtain ⟨-, -, -, hrs⟩ := step_exit_some next
    have hh := @externalInterrupt_m platform.mtrrs _ (onExit id guest (.externalInterrupt information) s.g) _ _
      ⟨hr.epc, hr.ept, hr.identity, he⟩ id guest (exitVector information) hen live hc new
    rcases resume_split hh hrs with ⟨u, -, ha, rfl⟩ | ⟨what, u, -, ha, rfl⟩
    · exact ha.holds.1.not_removed (hrm _ ha.holds.2)
    · exact (ha rfl).holds.1.not_removed (hrm _ (ha rfl).holds.2)
  | eptViolation qual gva gpa =>
    constructor
    · intro read a htd same
      obtain ⟨map, ht⟩ := step_read hr.identity read next
      have he := exposed_of_grant (hl a htd) same .read
      exact (map ▸ he).not_removed (hrm a (ht.tracked.mpr htd))
    · intro hn hw
      obtain ⟨map, ht⟩ := step_write hr.identity hmap hn hw next
      constructor
      · intro a htd same
        have he := (exposed_of_grant (hl a htd) same .both).granted (align gpa.toNat 4096) .write
        exact (map ▸ he).not_removed (hrm a (ht.tracked.mpr htd))
      · intro a htd same
        have he := exposed_of_grant ((hl a htd).updated s.g.channelPaddr [.enable .read, .enable .write]) same .write
        exact (map ▸ he).not_removed (hrm a (ht.tracked.mpr htd))
  | interruptWindow | encls | vmcall | monitorTrap => exact trivial

theorem isolated_step (hrc : Reached platform channel mem s) (hi : Isolated s)
    (hst : ¬ Releases s.g e) (next : abstractStep platform s e = some t) : Isolated t ↔ KeepsIsolated s e := by
  obtain ⟨es, hre⟩ := hrc
  have ha := step_sound mem (run_sound hre) next
  rw [isolated_iff ha.holds.large]
  cases e with
  | construct id =>
    refine iff_of_true ?_ trivial
    have hbe : s = bootAbstract channel mem ∨ Running (fun s => ∀ a, Tracked s.g a → Removed s.guestMap a) s :=
      (run_sound hre).imp_right fun hr =>
        ⟨hr.epc, hr.ept, hr.identity, (isolated_iff hr.holds.large).mp hi⟩
    refine (step_running closedAll_removed (fun id a htd => ?_) (fun _ _ _ exit => by cases exit) hbe next).holds
    obtain ⟨k, hb, -⟩ := htd
    cases hb
  | exit id guest reason =>
    obtain ⟨v, hk, -⟩ := step_exit_some next
    cases run_sound hre with
    | inl hs =>
      subst hs
      cases hk
    | inr hr =>
      have hmap : s.g.channelPaddr % 2 ^ 48 < maxPhysAddr := by
        rw [hr.holds.configured.channelPaddr]
        exact channel_mapped hre hk
      exact ⟨keeps_of_removed hr hmap next, fun hkp =>
        exit_removed hr ((isolated_iff hr.holds.large).mp hi) hst hkp next⟩

/-- After command `e` all tracked buffers are isolated. -/
theorem isolated_start (hrc : Reached platform channel mem s) (htk : Processes 'e' s.g e)
    (next : abstractStep platform s e = some t) : Isolated t := by
  obtain ⟨es, hre⟩ := hrc
  have ha := step_sound mem (run_sound hre) next
  rw [isolated_iff ha.holds.large]
  cases e with
  | construct id => exact htk.elim
  | exit id guest reason =>
    cases reason with
    | interruptWindow | eptViolation | encls | vmcall | monitorTrap => exact htk.elim
    | externalInterrupt information =>
      obtain ⟨hen, page, hmap, hc⟩ := htk
      obtain ⟨v, hk, -, hrs⟩ := step_exit_some next
      cases run_sound hre with
      | inl hs =>
        subst hs
        cases hk
      | inr hr =>
        have hh := @externalInterrupt_e platform.mtrrs _ (onExit id guest (.externalInterrupt information) s.g) _
          ⟨hr.epc, hr.ept, hr.identity, hr.holds.large⟩ id guest (exitVector information) hen
          hmap hc
        rcases resume_split hh hrs with ⟨u, -, he, rfl⟩ | ⟨what, u, -, he, rfl⟩
        · exact he.holds
        · exact (he rfl).holds

end Steps

/-- From the exit that processes command `e` on, and as long as no exit processes command `n` or EREMOVE,
tracked buffers are isolated in all states exactly if no buffer with an accessible frame is registered and no
data violation gives access to a tracked frame. -/
theorem buffers_isolated_iff (mm : PagePool) (platform : Platform) (page : Nat) (word : Nat → Fin 512 → Entry)
    (mem : GuestMem) (es : List Event) (s₀ s₁ s : Machine Mmap) (e : Event) (rest : List Event)
    (reach : run (codeStep platform mm) (boot mm (some page) word mem) es = some s₀)
    (taken : Processes 'e' s₀.g e) (next : codeStep platform mm s₀ e = some s₁)
    (stays : AllSteps (codeStep platform mm) (fun s e => ¬ Releases s.g e) s₁ rest)
    (reach' : run (codeStep platform mm) s₁ rest = some s) :
    AllStates (codeStep platform mm) (fun s => Isolated (s.view mm)) s₁ rest ↔
      AllSteps (codeStep platform mm) (fun s e => KeepsIsolated (s.view mm) e) s₁ rest := by
  obtain ⟨reached, corresponds⟩ := run_abstract reach
  obtain ⟨next', corresponds'⟩ := step_view corresponds next
  have reached₀ : Reached platform (some page) mem (s₀.view mm) := ⟨es, reached⟩
  exact code_allStates_iff_from (P := Isolated) (C := KeepsIsolated) (D := fun s e => ¬ Releases s.g e)
    (fun _ _ _ reached isolated stays next => isolated_step reached isolated stays next) corresponds'
    (reached₀.step next') (isolated_start reached₀ taken next') stays reach'

/-- An enclave has registered a buffer and is running again. -/
def bufferRegistered : List Event :=
  [.construct 0, .exit 0 { (default : GuestState) with rax := 2 } .encls] ++ enclaveRound (channelGuest 'm' 1) ++
    [.exit 0 default (.eptViolation 4 0x200000 0x200000)]

/-- It takes the buffer for itself. -/
def takeBuffer : Event := .exit 0 (channelGuest 'e' 1) (.externalInterrupt 0x20)

/-- The run up to and including command `e`, and one exit more. -/
theorem exists_taken {e : Event} {α : Type} (f : Machine AddrMap → α) {x : α}
    (ho : (run (abstractStep default) (bootAbstract (some 0x400000) fun _ _ => 0)
      (bufferRegistered ++ [takeBuffer, e])).map f = some x) :
    ∃ s₀ s₁ s, run (codeStep default default) (boot default (some 0x400000) (fun _ _ => 0) fun _ _ => 0)
        bufferRegistered = some s₀ ∧
      Processes 'e' s₀.g takeBuffer ∧ codeStep default default s₀ takeBuffer = some s₁ ∧
      s₁.g.countGpuPaddrs = 1 ∧ s₁.g.gpuPaddrs 0 = 0x40000000 ∧
      codeStep default default s₁ e = some s ∧ f (s.view default) = x := by
  have hbe : (run (abstractStep default) (bootAbstract (some 0x400000) fun _ _ => 0) bufferRegistered).map
      (fun t => (t.g.enclaveRunning, t.g.enclaveVcpuid, t.g.channelMap)) = some (true, 0, some 0x400000) := by
    decide +kernel
  have hb : (run (abstractStep default) (bootAbstract (some 0x400000) fun _ _ => 0)
      (bufferRegistered ++ [takeBuffer])).map (fun t => (t.g.countGpuPaddrs, t.g.gpuPaddrs 0)) =
      some (1, 0x40000000) := by decide +kernel
  obtain ⟨s, hre, seen, -⟩ := exists_run f ho default fun _ _ => 0
  obtain ⟨s₀, hre₀, more⟩ := run_append.mp hre
  obtain ⟨s₁, take, more⟩ := run_cons.mp more
  obtain ⟨s', last, done⟩ := run_cons.mp more
  cases done
  have htk : run (codeStep default default) s₀ [takeBuffer] = some s₁ := run_cons.mpr ⟨s₁, take, rfl⟩
  have hre₁ := run_append.mpr ⟨s₀, hre₀, htk⟩
  rw [(run_abstract hre₀).1] at hbe
  rw [(run_abstract hre₁).1] at hb
  simp only [Option.map_some, Option.some.injEq, Prod.mk.injEq, Machine.view] at hbe hb
  obtain ⟨runs, hon, live⟩ := hbe
  refine ⟨s₀, s₁, s, hre₀, ⟨⟨runs, ?_⟩, 0x400000, live, by decide⟩, take, hb.1, hb.2, last, seen⟩
  rw [hon]
  decide

/-- The guest reads the buffer. -/
def readBuffer : Event := .exit 0 default (.eptViolation 1 0x40000000 0x40000000)

theorem buffer_not_isolated :
    ∃ s₀ s₁ s, run (codeStep default default) (boot default (some 0x400000) (fun _ _ => 0) fun _ _ => 0)
        bufferRegistered = some s₀ ∧
      Processes 'e' s₀.g takeBuffer ∧ codeStep default default s₀ takeBuffer = some s₁ ∧
      ¬ Releases s₁.g readBuffer ∧ codeStep default default s₁ readBuffer = some s ∧
      ∃ k leaf, k < s.g.countGpuPaddrs ∧ leafAt default s.guestMap (s.g.gpuPaddrs k) = some leaf ∧
        leaf.entry.isEnabled .read = true := by
  obtain ⟨s₀, s₁, s, reach, taken, take, -, -, last, seen⟩ := exists_taken (e := readBuffer) (fun t =>
    (t.g.countGpuPaddrs, (t.guestMap (t.g.gpuPaddrs 0)).map (·.entry.isEnabled .read)))
    (x := (1, some true)) (by decide +kernel)
  obtain ⟨count, readable⟩ := Prod.mk.inj seen
  obtain ⟨leaf, found, readable⟩ := Option.map_eq_some_iff.mp readable
  refine ⟨s₀, s₁, s, reach, taken, take, fun releases => releases, last, 0, leaf, ?_, found, readable⟩
  rw [show s.g.countGpuPaddrs = 1 from count]
  decide

/-- The guest reads other memory. -/
def readElsewhere : Event := .exit 0 default (.eptViolation 1 0x80000000 0x80000000)

theorem buffer_isolated_elsewhere : ∃ s₁ s, codeStep default default s₁ readElsewhere = some s ∧
      AllStates (codeStep default default) (fun s => Isolated (s.view default)) s₁ [readElsewhere] := by
  obtain ⟨s₀, s₁, s, reach, taken, take, count, frame, last, -⟩ :=
    exists_taken (e := readElsewhere) (fun t => t.g.flagEpt) (x := true) (by decide +kernel)
  refine ⟨s₁, s, last, (buffers_isolated_iff _ _ _ _ _ _ s₀ s₁ s takeBuffer [readElsewhere] reach taken take
    ⟨fun releases => releases, fun _ _ => trivial⟩ (run_cons.mpr ⟨s, last, rfl⟩)).mpr
    ⟨⟨fun _ a tracked => ?_, fun notRead => by cases notRead⟩, fun _ _ => trivial⟩⟩
  obtain ⟨k, below, rfl⟩ := tracked
  obtain rfl : k = 0 := by
    have below : k < s₁.g.countGpuPaddrs := below
    omega
  rw [show (s₁.view default).g.gpuPaddrs 0 = 0x40000000 from frame]
  decide

end Gevisor.Vmm
