import Gevisor.Vmm.Invariants
import Gevisor.Vmm.Violations
import Gevisor.Vmm.Refinement

/-! # EPT misconfigurations

A leaf that can be written but not read is a misconfiguration, for which no handler is registered. Access
is taken away and given back one bit at a time; the write bit is set alone by the handler of write
violations.
-/

namespace Gevisor.Vmm

open Gevisor.Lib
open Gevisor.Ept

/-- Every leaf that can be written can be read. -/
def WellConfigured (A : AddrMap) : Prop :=
  ∀ a leaf, A a = some leaf → leaf.entry.isEnabled .write = true → leaf.entry.isEnabled .read = true

/-! ## Updates -/

section Updates

variable {A : AddrMap} {v : Nat} {changes : List Change}

section

variable (hcfg : WellConfigured A)

include hcfg

theorem WellConfigured.merged (v : Nat) : WellConfigured (A.merged v) := by
  intro a leaf' ha hw
  obtain ⟨leaf, hf, rfl⟩ := AddrMap.merged_some.mp ha
  split
  · simp [convertedLeaf, AttrType.accesses]
  · next hs =>
    rw [if_neg hs] at hw
    exact hcfg a leaf hf hw

/-- Only the leaf of `v` has to be looked at. -/
theorem wellConfigured_updated : WellConfigured (A.updated v changes) ↔
      ∀ a leaf, A a = some leaf → SameLeaf leaf.level a v → (applyChanges changes leaf.entry).isEnabled .write = true →
        (applyChanges changes leaf.entry).isEnabled .read = true := by
  constructor
  · intro ha a leaf hf same
    exact ha a (leaf.change changes) (AddrMap.updated_some.mpr ⟨leaf, hf, if_pos same⟩)
  · intro here a leaf' ha
    obtain ⟨leaf, hf, rfl⟩ := AddrMap.updated_some.mp ha
    by_cases same : SameLeaf leaf.level a v
    · rw [if_pos same]
      exact here a leaf hf same
    · rw [if_neg same]
      exact hcfg a leaf hf

theorem WellConfigured.restricted (v : Nat) (hr : Restricts changes) : WellConfigured (A.updated v changes) := by
  refine (wellConfigured_updated hcfg).mpr fun a leaf hf _ => ?_
  have hbe := hcfg a leaf hf
  cases hr <;> simp [applyChanges, Change.apply] <;> exact hbe

theorem WellConfigured.read (v : Nat) : WellConfigured (A.updated v [.enable .read]) :=
  (wellConfigured_updated hcfg).mpr fun _ _ _ _ => by simp [applyChanges, Change.apply]

theorem WellConfigured.both (v : Nat) : WellConfigured (A.updated v [.enable .read, .enable .write]) :=
  (wellConfigured_updated hcfg).mpr fun _ _ _ _ => by simp [applyChanges, Change.apply]

/-- The write bit alone needs a leaf that can be read. -/
theorem wellConfigured_write (hid : IsIdentity maxPhysAddr A) :
    WellConfigured (A.updated v [.enable .write]) ↔ ∀ leaf, A v = some leaf → leaf.entry.isEnabled .read = true := by
  rw [wellConfigured_updated hcfg]
  constructor
  · intro ha leaf hf
    simpa [applyChanges, Change.apply] using ha v leaf hf (.refl _ _)
  · intro hr a leaf hf same _
    simpa [applyChanges, Change.apply] using hr leaf (hid.uniform hf same.symm)

end

end Updates

theorem closedAll_wellConfigured : ClosedAll fun s => WellConfigured s.guestMap :=
  closedAll_map (fun v _ hcfg => hcfg.merged v) fun v _ hr _ hcfg =>
    hcfg.restricted v hr

/-! ## Write violations -/

/-- The leaf of `v` can be read, at the latest when access to the channel has been granted. -/
def ReadableWithChannel (A : AddrMap) (channelPaddr v : Nat) : Prop :=
  ∀ leaf, A v = some leaf → leaf.entry.isEnabled .read = true ∨ SameLeaf leaf.level v channelPaddr

/-- Granting access makes the channel's leaf readable and leaves the others as they are. -/
theorem readable_updated_both {A : AddrMap} {c v : Nat} :
    (∀ leaf, A.updated c [.enable .read, .enable .write] v = some leaf → leaf.entry.isEnabled .read = true) ↔
      ReadableWithChannel A c v := by
  cases hf : A v with
  | none => simp [ReadableWithChannel, AddrMap.updated, hf]
  | some leaf =>
    by_cases same : SameLeaf leaf.level v c
    · simp [ReadableWithChannel, AddrMap.updated, hf, same, Leaf.change, applyChanges, Change.apply]
    · simp [ReadableWithChannel, AddrMap.updated, hf, same]

/-! ## Steps and runs -/

/-- A violation that is handled as a write is at an address that can be read, or that is unmapped. -/
def WritesReadable (s : Machine AddrMap) : Event → Prop
  | .exit _ _ (.eptViolation qual _ gpa) =>
    isBitSet qual 0 = false → isBitSet qual 1 = true →
      ReadableWithChannel s.guestMap s.g.channelPaddr (align gpa.toNat 4096)
  | _ => True

section Steps

variable {platform : Platform} {channel : Option Nat} {mem : GuestMem} {s t : Machine AddrMap} {id : BitVec 64}
  {guest : GuestState}

/-- Every other exit. -/
theorem handle_wellConfigured {mtrrs : Mtrrs} {reason : Reason}
    (ho : ∀ qual gva gpa, reason = .eptViolation qual gva gpa → isBitSet qual 0 = false → isBitSet qual 1 = false) :
    Preserves (Running fun s => WellConfigured s.guestMap) (handle (addrMapOps mtrrs) id guest reason) := by
  rintro ⟨A, g⟩ hr
  have hcl := closedAll_wellConfigured.toClosed
  refine handle_cases hcl hr (fun _ _ _ _ _ _ => ?_) (fun _ _ _ _ _ _ => ?_) (fun _ _ _ _ _ _ => ?_)
    (fun _ _ _ _ _ => ?_)
    (fun qual gva gpa hv hn hw => ?_) fun _ => closedAll_wellConfigured.enclsHandler id guest
  · exact Running.changeGpuBuffers (fun v => Running.remove fun _ _ _ hcfg => hcfg.restricted v .remove) _ hr
  · exact hcl.registerBuffer _ _ _ hr fun _ _ => fun _ _ hcfg => hcfg
  · exact Running.changeGpuBuffers fun v => Running.grant .both fun _ _ _ hcfg => hcfg.both v
  · exact hcl.eptReadViolationHandler id _ fun _ _ _ hcfg => hcfg.read _
  · rw [ho qual gva gpa hv hn] at hw
    cases hw

theorem wellConfigured_started (id : BitVec 64) : WellConfigured (started platform channel mem id).guestMap := by
  intro a leaf hf hw
  obtain ⟨hi, hf⟩ := Option.ite_none_right_eq_some.mp hf
  obtain ⟨level, type, hbt, -⟩ := identityLeaf_cases platform.mtrrs.contiguous (a := a % 2 ^ 48) (by omega)
  obtain rfl := Option.some.inj (hbt.symm.trans hf)
  simp [AttrType.accesses]

theorem wellConfigured_step {e : Event} (reached : Reached platform channel mem s)
    (configured : WellConfigured s.guestMap) (next : abstractStep platform s e = some t) :
    WellConfigured t.guestMap ↔ WritesReadable s e := by
  obtain ⟨es, reach⟩ := reached
  cases e with
  | construct id =>
    refine iff_of_true ?_ trivial
    have before : s = bootAbstract channel mem ∨ Running (fun s => WellConfigured s.guestMap) s :=
      (run_sound reach).imp_right fun running => ⟨running.epc, running.ept, running.identity, configured⟩
    exact (step_running closedAll_wellConfigured wellConfigured_started
      (fun _ _ _ exit => by cases exit) before next).holds
  | exit id guest reason =>
    obtain ⟨v, known, -⟩ := step_exit_some next
    rcases run_sound reach with rfl | running
    · cases known
    · have mapped : s.g.channelPaddr % 2 ^ 48 < maxPhysAddr := by
        rw [running.holds.configured.channelPaddr]
        exact channel_mapped reach known
      have others (other : ∀ qual gva gpa, reason = .eptViolation qual gva gpa → isBitSet qual 0 = false →
          isBitSet qual 1 = false) : WellConfigured t.guestMap :=
        (step_exit closedAll_wellConfigured.toSteady ⟨running.epc, running.ept, running.identity, configured⟩
          (fun _ _ after _ _ => handle_wellConfigured other _ after) next).holds
      cases reason with
      | eptViolation qual gva gpa =>
        by_cases write : isBitSet qual 0 = false ∧ isBitSet qual 1 = true
        · rw [(step_write running.identity mapped write.1 write.2 next).1,
            wellConfigured_write (configured.both _) (grant_identity .both running.identity _), readable_updated_both]
          exact ⟨fun readable _ _ => readable, fun readable => readable write.1 write.2⟩
        · refine iff_of_true (others ?_) fun notRead set => absurd ⟨notRead, set⟩ write
          rintro _ _ _ ⟨⟩ notRead
          exact Bool.eq_false_iff.mpr fun set => write ⟨notRead, set⟩
      | externalInterrupt | interruptWindow | encls | vmcall | monitorTrap =>
        exact iff_of_true (others fun _ _ _ same => by cases same) trivial

end Steps

/-- No misconfiguration is created in a run exactly if each of its violations that are handled as writes is
at an address whose leaf can be read, or is the channel's, or does not exist. -/
theorem no_misconfiguration_iff (mm : PagePool) (platform : Platform) (channel : Option Nat)
    (word : Nat → Fin 512 → Entry) (mem : GuestMem) (es : List Event) (s : Machine Mmap)
    (reach : run (codeStep platform mm) (boot mm channel word mem) es = some s) :
    AllStates (codeStep platform mm) (fun s => WellConfigured (leafAt mm s.guestMap)) (boot mm channel word mem) es ↔
      AllSteps (codeStep platform mm) (fun s e => WritesReadable (s.view mm) e) (boot mm channel word mem) es :=
  code_allStates_iff (P := fun t => WellConfigured t.guestMap) (C := WritesReadable) (fun _ _ absent => nomatch absent)
    (fun _ _ _ reached configured next => wellConfigured_step reached configured next) reach

/-- A guest with the channel at 4M, which holds a command for a buffer of `size` bytes at 1G, and with page
tables that map the gigabyte from 1G on to itself. -/
def channelGuest (command : Char) (size : BitVec 64) : GuestState :=
  { (default : GuestState) with
    cr3 := 0x1000
    mem := fun page i =>
      if page = 0x1000 ∧ i = 0 then 0x2001
      else if page = 0x2000 ∧ i = 1 then 0x40000081
      else if page = 0x400000 ∧ i = 0 then BitVec.ofNat 64 command.toNat
      else if page = 0x400000 ∧ i = 1 then 0x40000000
      else if page = 0x400000 ∧ i = 9 then size
      else 0 }

/-- The enclave is entered and then interrupted, with the given contents of the channel. -/
def enclaveRound (guest : GuestState) : List Event :=
  [.exit 0 default (.eptViolation 4 0x200000 0x200000), .exit 0 guest (.externalInterrupt 0x20)]

/-- An enclave is started, registers a buffer and takes it for itself. -/
def bufferRemoved : List Event :=
  [.construct 0, .exit 0 { (default : GuestState) with rax := 2 } .encls] ++ enclaveRound (channelGuest 'm' 1) ++
    enclaveRound (channelGuest 'e' 1)

theorem misconfiguration_created :
    ∃ s leaf, run (codeStep default default) (boot default (some 0x400000) (fun _ _ => 0) fun _ _ => 0)
        (bufferRemoved ++ [.exit 0 default (.eptViolation 2 0x40000000 0x40000000)]) = some s ∧
      leafAt default s.guestMap 0x40000000 = some leaf ∧ leaf.entry.isEnabled .write = true ∧
        leaf.entry.isEnabled .read = false := by
  have observed : (run (abstractStep default) (bootAbstract (some 0x400000) fun _ _ => 0)
      (bufferRemoved ++ [.exit 0 default (.eptViolation 2 0x40000000 0x40000000)])).map (fun t =>
        (t.guestMap 0x40000000).map fun leaf => (leaf.entry.isEnabled .write, leaf.entry.isEnabled .read)) =
      some (some (true, false)) := by decide +kernel
  obtain ⟨s, reach, seen, -⟩ := exists_run _ observed default fun _ _ => 0
  obtain ⟨leaf, found, bits⟩ := Option.map_eq_some_iff.mp seen
  obtain ⟨writable, unreadable⟩ := Prod.mk.inj bits
  exact ⟨s, leaf, reach, found, writable, unreadable⟩

/-- A write to memory that has never been registered. -/
def plainWrite : List Event := [.construct 0, .exit 0 default (.eptViolation 2 0x40000000 0x40000000)]

theorem no_misconfiguration_plain :
    ∃ s, run (codeStep default default) (boot default (some 0x400000) (fun _ _ => 0) fun _ _ => 0) plainWrite = some s ∧
      AllStates (codeStep default default) (fun s => WellConfigured (leafAt default s.guestMap))
        (boot default (some 0x400000) (fun _ _ => 0) fun _ _ => 0) plainWrite := by
  have observed : (run (abstractStep default) (bootAbstract (some 0x400000) fun _ _ => 0) plainWrite).map
      (·.g.flagEpt) = some true := by decide +kernel
  have before : (run (abstractStep default) (bootAbstract (some 0x400000) fun _ _ => 0) [.construct 0]).map (fun t =>
      (t.guestMap 0x40000000).map (·.entry.isEnabled .read)) = some (some true) := by decide +kernel
  obtain ⟨s, reach, -⟩ := exists_run _ observed default fun _ _ => 0
  refine ⟨s, reach, (no_misconfiguration_iff _ _ _ _ _ _ s reach).mpr ⟨trivial, fun t next => ⟨?_, fun _ _ => trivial⟩⟩⟩
  obtain ⟨reach', -⟩ := run_abstract (run_cons.mpr ⟨t, next, rfl⟩ : run _ _ [_] = some t)
  rw [reach'] at before
  intro _ _ leaf found
  have readable : (Option.map (·.entry.isEnabled .read) (some leaf)) = some true := found ▸ Option.some.inj before
  exact .inl (Option.some.inj readable)

end Gevisor.Vmm
