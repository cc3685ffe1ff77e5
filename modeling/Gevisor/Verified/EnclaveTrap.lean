import Gevisor.Verified.Encls
import Gevisor.Vmm.Epc

/-! # Trapping enclave entries

While the enclave is not running, its memory should not be executable, so that its next entry exits. The
frames to trap are counted off from the start of the EPC, as many as its size takes; and they are kept in an
array that a scan for EPC pages writes as well.
-/

namespace Gevisor.Vmm

open Gevisor.Lib
open Gevisor.Ept

/-- While frames are tracked and the enclave is not running, no leaf that covers the EPC is executable. -/
def EpcTrapped (s : Machine AddrMap) : Prop :=
  0 < s.g.countSgxPaddrs → s.g.enclaveRunning = false →
    ∀ a, s.g.epcBaseAddress ≤ a → a < s.g.epcBaseAddress + s.g.epcSize →
      ∀ leaf, s.guestMap a = some leaf → leaf.entry.isEnabled .execute = false

/-- The frames that are counted off reach to the end of the EPC. -/
def FramesSuffice (base size : Nat) : Prop := size = 0 ∨ base % (4096 * 512) + size ≤ epcFrames size * (4096 * 512)

/-- Following present entries from `cr3`, a page table names a page of the EPC. -/
def NamesEpcPage (g : Globals) (mem : GuestMem) (cr3 : Nat) : Prop :=
  ∃ i j k l : Fin 512,
    let pml4Pte := mem (upper cr3 12) i
    let pdptPte := mem (GuestPte.physAddr pml4Pte) j
    let pdPte := mem (GuestPte.physAddr pdptPte) k
    let ptPte := mem (GuestPte.physAddr pdPte) l
    (GuestPte.physAddr pml4Pte ≠ 0 ∧ GuestPte.present pml4Pte = true) ∧
    (GuestPte.physAddr pdptPte ≠ 0 ∧ GuestPte.present pdptPte = true ∧ ¬ GuestPte.ps pdptPte = true) ∧
    (GuestPte.physAddr pdPte ≠ 0 ∧ GuestPte.present pdPte = true ∧ ¬ GuestPte.ps pdPte = true) ∧
    isEpcPage g (GuestPte.physAddr ptPte)

/-- A scan that is made while frames are tracked finds no EPC page. -/
def ScanFindsNothing (g : Globals) : Event → Prop
  | .exit _ guest .vmcall =>
    guest.rax = 0 → 0 < g.countSgxPaddrs → ¬ NamesEpcPage g guest.mem guest.cr3.toNat
  | _ => True

/-- What carries the property: all frames of the EPC are listed, everything listed is mapped, and the frames
are trapped. -/
structure Listed (g : Globals) : Prop where
  frames : 0 < g.countSgxPaddrs → ∀ i < epcFrames g.epcSize, ∃ k < g.countSgxPaddrs,
    g.sgxPaddrs k = frameAddress g.epcBaseAddress i
  mapped : ∀ k < g.countSgxPaddrs, g.sgxPaddrs k < maxPhysAddr

def FramesTrapped (s : Machine AddrMap) : Prop :=
  0 < s.g.countSgxPaddrs → s.g.enclaveRunning = false →
    ∀ i < epcFrames s.g.epcSize, Trapped s.guestMap (frameAddress s.g.epcBaseAddress i)

/-! ## The property follows -/

section Frames

variable {base size : Nat}

theorem frameAddress_eq (hb : base + size ≤ maxPhysAddr) {i : Nat} (hi : i < epcFrames size) :
    frameAddress base i = base + i * (4096 * 512) ∧ base + i * (4096 * 512) < base + size := by
  have hre : i * (4096 * 512) < size := by
    simp only [epcFrames] at hi
    split at hi <;> omega
  simp only [maxPhysAddr] at hb
  exact ⟨Nat.mod_eq_of_lt (by omega), by omega⟩

/-- Each address of the EPC is in one of the frames. -/
theorem exists_frame (hb : base + size ≤ maxPhysAddr) (hs : FramesSuffice base size) {a : Nat}
    (hst : base ≤ a) (ends : a < base + size) : ∃ i < epcFrames size, SameLeaf .pd a (frameAddress base i) := by
  have he : base % (4096 * 512) + size ≤ epcFrames size * (4096 * 512) := by
    cases hs with
    | inl hem => omega
    | inr he => exact he
  have hi : (base % (4096 * 512) + (a - base)) / (4096 * 512) < epcFrames size := by
    rw [Nat.div_lt_iff_lt_mul (by decide)]
    omega
  refine ⟨_, hi, ?_⟩
  rw [(frameAddress_eq hb hi).1]
  simp only [maxPhysAddr] at hb
  simp only [SameLeaf, Level.fromBit]
  omega

theorem epcTrapped_of_frames {s : Machine AddrMap} (hid : IsIdentity maxPhysAddr s.guestMap)
    (hb : s.g.epcBaseAddress + s.g.epcSize ≤ maxPhysAddr) (hsu : FramesSuffice s.g.epcBaseAddress s.g.epcSize)
    (ht : FramesTrapped s) : EpcTrapped s := by
  intro htd idle a hs ends leaf hf
  obtain ⟨i, hi, same⟩ := exists_frame hb hsu hs ends
  obtain ⟨e, hl, clear⟩ := ht htd idle i hi
  cases (hid.uniform hl same).symm.trans hf
  exact clear

end Frames

/-! ## What keeps it -/

/-- The state between exits. -/
def TrapInvariant (s : Machine AddrMap) : Prop := Listed s.g ∧ FramesTrapped s

/-- The state while the enclave runs. -/
def Entered (s : Machine AddrMap) : Prop := Listed s.g ∧ s.g.enclaveRunning = true

variable {g : Globals} {s : Machine AddrMap} {A : AddrMap} {changes : List Change}

theorem Listed.congr {g' : Globals} (hl : Listed g) (hc : g'.countSgxPaddrs = g.countSgxPaddrs)
    (hp : g'.sgxPaddrs = g.sgxPaddrs) (base : g'.epcBaseAddress = g.epcBaseAddress)
    (size : g'.epcSize = g.epcSize) : Listed g' where
  frames := by
    rw [hc, hp, base, size]
    exact hl.frames
  mapped := by
    rw [hc, hp]
    exact hl.mapped

theorem trapInvariant_of_untracked (hu : s.g.countSgxPaddrs = 0) : TrapInvariant s :=
  ⟨⟨fun _ => by omega, fun k _ => by omega⟩, fun htd => by omega⟩

theorem Entered.trapInvariant (he : Entered s) : TrapInvariant s :=
  ⟨he.1, fun _ idle => by rw [he.2] at idle; cases idle⟩

theorem FramesTrapped.map {A' : AddrMap} (hf : FramesTrapped ⟨A, g⟩)
    (hkp : ∀ a, Trapped A a → Trapped A' a) : FramesTrapped ⟨A', g⟩ :=
  fun htd idle i hi => hkp _ (hf htd idle i hi)

theorem steady_trapInvariant : Steady TrapInvariant where
  kept kept h := by
    refine ⟨h.1.congr kept.countSgxPaddrs kept.sgxPaddrs kept.epcBaseAddress kept.epcSize, ?_⟩
    have hf := h.2
    simp only [FramesTrapped, kept.countSgxPaddrs, kept.enclaveRunning, kept.epcSize, kept.epcBaseAddress] at hf ⊢
    exact hf
  vcpu _ _ _ h := ⟨h.1.congr rfl rfl rfl rfl, h.2⟩
  registered _ _ h := ⟨h.1.congr rfl rfl rfl rfl, h.2⟩
  merged v _ h := ⟨h.1, h.2.map fun _ ht => ht.merged v⟩
  trapped v _ h := ⟨h.1, h.2.map fun _ ht => ht.updated v fun e clear => by
    simp [applyChanges, Change.apply, clear]⟩

theorem steady_entered : Steady Entered where
  kept kept h := ⟨h.1.congr kept.countSgxPaddrs kept.sgxPaddrs kept.epcBaseAddress kept.epcSize,
    kept.enclaveRunning.trans h.2⟩
  vcpu _ _ _ h := ⟨h.1.congr rfl rfl rfl rfl, h.2⟩
  registered _ _ h := ⟨h.1.congr rfl rfl rfl rfl, h.2⟩
  merged _ _ h := h
  trapped _ _ h := h

/-- Read and write access do not matter. -/
theorem TrapInvariant.updated (h : TrapInvariant ⟨A, g⟩) (v : Nat)
    (hkp : ∀ e : Entry, e.isEnabled .execute = false → (applyChanges changes e).isEnabled .execute = false) :
    TrapInvariant ⟨A.updated v changes, g⟩ :=
  ⟨h.1, h.2.map fun _ ht => ht.updated v hkp⟩

theorem TrapInvariant.granted (h : TrapInvariant ⟨A, g⟩) (v : Nat) (hgr : Grants changes) :
    TrapInvariant ⟨A.updated v changes, g⟩ := by
  refine h.updated v fun e clear => ?_
  cases hgr <;> simp [applyChanges, Change.apply, clear]

theorem TrapInvariant.removed (h : TrapInvariant ⟨A, g⟩) (v : Nat) :
    TrapInvariant ⟨A.updated v [.disable .read, .disable .write], g⟩ :=
  h.updated v fun e clear => by simp [applyChanges, Change.apply, clear]

/-! ## Handlers -/

section Handlers

variable {mtrrs : Mtrrs} {A : AddrMap} {g : Globals} {id : BitVec 64} {guest : GuestState}

/-- Once everything listed is trapped the enclave may be marked as not running. -/
theorem trapInvariant_of_listed {A : AddrMap} {g : Globals} (hl : Listed g)
    (ht : ∀ k < g.countSgxPaddrs, Trapped A (g.sgxPaddrs k)) : TrapInvariant ⟨A, g⟩ := by
  refine ⟨hl, fun htd _ i hi => ?_⟩
  obtain ⟨k, hb, same⟩ := hl.frames htd i hi
  exact same ▸ ht k hb

/-- An interrupt on the enclave's vCPU traps all that is listed before the enclave counts as stopped; whatever
goes wrong before leaves it marked as running. -/
theorem externalInterrupt_trapInvariant (hr : Running TrapInvariant ⟨A, g⟩) (vector : BitVec 64) :
    wp (externalInterruptHandler (addrMapOps mtrrs) id guest vector) (fun _ => Running TrapInvariant)
      (fun _ => Running TrapInvariant) ⟨A, g⟩ := by
  have hf := steady_trapInvariant.forwardVector id guest vector
  rw [externalInterruptHandler, wp_bind, pauseEnclave, wp_bind, wp_getG, wp_ite]
  split
  case isFalse => exact hf _ hr
  case isTrue hen =>
  have he : Running Entered ⟨A, g⟩ := hr.weaken fun h => ⟨h.1, hen.1⟩
  have channel := @Steady.readEnclaveChannel _ mtrrs steady_entered guest.cr3.toNat guest.lapicSupported A g he
    (fun _ _ _ => Running.changeGpuBuffers (fun _ => Running.remove fun _ _ _ h => h) _ he)
    (fun _ _ _ => steady_entered.registerBuffer _ _ _ he fun _ _ => fun _ _ h => ⟨h.1.congr rfl rfl rfl rfl, h.2⟩)
    (fun _ _ _ => Running.changeGpuBuffers fun _ => Running.grant .both fun _ _ _ h => h)
  rw [wp_bind]
  refine wp_mono (fun _ t ha => ?_) (fun _ _ h => h.weaken Entered.trapInvariant) channel
  rw [wp_bind]
  have htr := wp_and (@Steady.trapEnclaveEntryNew2m _ mtrrs steady_entered t ha)
    (trapEnclaveEntryNew2m_spec mtrrs ha.identity t.g)
  refine wp_mono ?_ (fun _ _ h => h.1.weaken Entered.trapInvariant) htr
  rintro _ ⟨A', _⟩ ⟨ha', -, ⟨shadow, rfl⟩, ht⟩
  rw [wp_modifyG]
  refine hf _ ⟨ha'.epc, ha'.ept, ha'.identity, ?_⟩
  exact trapInvariant_of_listed (ha'.holds.1.congr rfl rfl rfl rfl) ht

theorem eptViolation_trapInvariant (hr : Running TrapInvariant ⟨A, g⟩) (qual : BitVec 64) (gpa : Nat) :
    wp (eptViolationHandle (addrMapOps mtrrs) id guest qual gpa) (fun _ => Running TrapInvariant)
      (fun _ => Running TrapInvariant) ⟨A, g⟩ := by
  have channel : Preserves (Running TrapInvariant) (grantPermissionChannel (addrMapOps mtrrs)) :=
    .bind Running.getG fun _ => Running.grant .both fun _ _ _ h => h.granted _ .both
  rw [eptViolationHandle, wp_ite]
  split
  · exact steady_trapInvariant.eptReadViolationHandler id gpa (fun _ _ _ h => h.granted _ .read) _ hr
  rw [wp_ite]
  split
  · exact steady_trapInvariant.eptWriteViolationHandler id guest gpa channel (fun _ _ _ h => h.granted _ .write) _ hr
  rw [wp_ite]
  split
  case isFalse => exact hr
  case isTrue =>
  -- The enclave counts as running from the first statement on.
  have hu (v : Nat) : Preserves (Running Entered) (onMap ((addrMapOps mtrrs).updateEntry v [.enable .execute])) :=
    Running.update_of (fun e _ => by simp [applyChanges, Change.apply]) fun _ _ _ h => h
  rw [eptExecuteViolationHandler, wp_bind, wp_modifyG]
  have rest : Preserves (Running Entered) (do
      let g ← getG
      forFrom (fun i => do
        checkIndex .sgxPaddrs i
        let g ← getG
        onMap ((addrMapOps mtrrs).updateEntry (g.sgxPaddrs i) [.enable .execute])) 0 g.modifiedPages
      onMap ((addrMapOps mtrrs).updateEntry (align gpa 4096) [.enable .execute])) :=
    .bind Running.getG fun _ =>
      .bind (.forFrom (fun _ => .bind (Running.checkIndex _ _) fun _ => .bind Running.getG fun _ => hu _) _ _)
        fun _ => hu _
  refine wp_mono (fun _ _ h => h.weaken Entered.trapInvariant) (fun _ _ h => h.weaken Entered.trapInvariant)
    (rest _ ⟨hr.epc, hr.ept, hr.identity, ?_⟩)
  exact ⟨hr.holds.1.congr rfl rfl rfl rfl, rfl⟩

/-! ### Scans -/

theorem forEntries_unchanged {s : Machine AddrMap} {page : Nat} {visit : BitVec 64 → VmmM AddrMap Unit}
    (hn : ∀ i, wp (visit (s.g.mem page i)) (fun _ t => t = s) (fun _ t => t = s) s) :
    wp (forEntries page visit) (fun _ t => t = s) (fun _ t => t = s) s := by
  rw [forEntries, wp_ite]
  split
  · refine wp_loop (fun _ t => t = s) rfl (fun i t _ same => ?_) fun _ h => h
    subst same
    rw [wp_bind, wp_getG]
    exact hn _
  · rfl

/-- A scan that finds nothing leaves everything as it is. -/
theorem accessAllPml4_unchanged {s : Machine AddrMap} {cr3 : Nat} (hn : ¬ NamesEpcPage s.g s.g.mem cr3) :
    wp (accessAllPml4 cr3) (fun _ t => t = s) (fun _ t => t = s) s := by
  rw [accessAllPml4, wp_ite]
  split
  case isTrue => rfl
  case isFalse =>
  refine forEntries_unchanged fun i => ?_
  rw [wp_ite]
  split
  case isFalse => rfl
  case isTrue pml4 =>
  refine forEntries_unchanged fun j => ?_
  rw [wp_ite]
  split
  case isFalse => rfl
  case isTrue pdpt =>
  refine forEntries_unchanged fun k => ?_
  rw [wp_ite]
  split
  case isFalse => rfl
  case isTrue pd =>
  refine forEntries_unchanged fun l => ?_
  rw [wp_bind, wp_getG, wp_ite]
  split
  · next page => exact absurd ⟨i, j, k, l, pml4, pdpt, pd, page⟩ hn
  · rfl

theorem closedAll_untracked : Closed fun s => s.g.countSgxPaddrs = 0 where
  kept kept hu := kept.countSgxPaddrs.trans hu
  vcpu _ _ _ hu := hu
  registered _ _ hu := hu
  merged _ _ hu := hu
  trapped _ _ hu := hu
  recorded _ hu := hu
  running _ hu := hu
  removed _ hu := hu
  untrapped _ _ hu := hu

theorem vmcall_trapInvariant (hr : Running TrapInvariant ⟨A, g⟩)
    (hn : guest.rax = 0 → 0 < g.countSgxPaddrs → ¬ NamesEpcPage g g.mem guest.cr3.toNat) :
    wp (vmcallHandler guest : VmmM AddrMap Unit) (fun _ => Running TrapInvariant) (fun _ => Running TrapInvariant)
      ⟨A, g⟩ := by
  by_cases htd : 0 < g.countSgxPaddrs
  · rw [vmcallHandler, wp_swallow, wp_ite]
    split
    · next hs =>
      refine wp_mono ?_ ?_ (accessAllPml4_unchanged (s := ⟨A, g⟩) (hn hs htd))
      · rintro _ _ rfl
        exact hr
      · rintro e _ rfl
        split <;> exact hr
    · exact hr
  · have hu : Running (fun s => s.g.countSgxPaddrs = 0) ⟨A, g⟩ := hr.weaken fun _ => Nat.eq_zero_of_not_pos htd
    exact wp_mono (fun _ _ h => h.weaken trapInvariant_of_untracked) (fun _ _ h => h.weaken trapInvariant_of_untracked)
      (closedAll_untracked.vmcallHandler guest _ hu)

/-! ### ENCLS -/

theorem listed_withFrames (hl : Listed g) (hb : g.epcBaseAddress + g.epcSize ≤ maxPhysAddr) :
    Listed (withFrames g (epcFrames g.epcSize)) where
  frames _ i hi := by
    have hi : i < epcFrames g.epcSize := hi
    refine ⟨g.countSgxPaddrs + i, Nat.add_lt_add_left hi _, ?_⟩
    show (if _ then _ else _) = _
    rw [if_pos ⟨by omega, by omega⟩, Nat.add_sub_cancel_left]
    rfl
  mapped k upto := by
    have upto : k < g.countSgxPaddrs + epcFrames g.epcSize := upto
    show (if _ then _ else _) < _
    split
    · obtain ⟨same, hi⟩ := frameAddress_eq hb (i := k - g.countSgxPaddrs) (by omega)
      omega
    · exact hl.mapped k (by omega)

/-- EINIT registers the frames and traps them; both loops run to their ends, because all frames are mapped. -/
theorem einit_trapInvariant (hr : Running TrapInvariant ⟨A, g⟩) (ho : guest.rax.toNat ≠ eremoveExit)
    (hb : g.epcBaseAddress + g.epcSize ≤ maxPhysAddr) :
    wp (enclsHandler (addrMapOps mtrrs) id guest) (fun _ => Running TrapInvariant)
      (fun e t => e.isExn = true → Running TrapInvariant t) ⟨A, g⟩ := by
  have hfi : Preserves (Running TrapInvariant) (do
      removePermissionChannel (addrMapOps mtrrs)
      setEnclsExitingBitmap id (enclsBit eremoveExit)) :=
    .bind (.bind Running.getG fun _ => Running.remove fun _ _ _ h => h.removed _) fun _ =>
      fun s h => ⟨h.epc, h.ept, h.identity, h.holds.1.congr rfl rfl rfl rfl, h.holds.2⟩
  rw [enclsHandler, if_neg ho, wp_bind, wp_modifyG, wp_bind]
  have hst : Running (fun _ => True) ⟨A, { g with currentEnclaveCr3 := guest.cr3.toNat, modifiedPages := 0 }⟩ :=
    ⟨hr.epc, hr.ept, hr.identity, trivial⟩
  have adds := wp_and (@ClosedAll.addEpcAddress2m _ mtrrs closedAll_true _ hst)
    (addEpcAddress2m_spec mtrrs hr.identity { g with currentEnclaveCr3 := guest.cr3.toNat, modifiedPages := 0 })
  refine wp_mono ?_ ?_ adds
  · rintro _ ⟨A', _⟩ ⟨ha, rfl, -⟩
    rw [wp_bind, wp_modifyG, wp_bind]
    have hl := listed_withFrames (g := { g with currentEnclaveCr3 := guest.cr3.toNat, modifiedPages := 0 })
      (hr.holds.1.congr rfl rfl rfl rfl) hb
    refine wp_mono ?_ ?_ (trapEnclaveEntryNew2m_spec mtrrs ha.identity _)
    · rintro _ ⟨A'', _⟩ ⟨hid, ⟨shadow, rfl⟩, ht⟩
      have htr := trapInvariant_of_listed (g := { withFrames
        { g with currentEnclaveCr3 := guest.cr3.toNat, modifiedPages := 0 } (epcFrames g.epcSize) with
          enclaveRunning := false, sgxGuestPteShadow := shadow }) (hl.congr rfl rfl rfl rfl) ht
      exact wp_mono (fun _ _ h => h) (fun _ _ h _ => h) (hfi _ ⟨hr.epc, hr.ept, hid, htr⟩)
    · rintro e t ⟨-, hs⟩ exn
      rw [if_pos exn] at hs
      obtain ⟨k, hi, hu⟩ := hs
      exact absurd (hl.mapped k hi) hu
  · rintro e t ⟨-, n, hi, -, -, he⟩ exn
    cases he with
    | inl hu =>
      obtain ⟨same, hi⟩ := frameAddress_eq hb hi
      refine absurd ?_ hu.2
      show frameAddress g.epcBaseAddress n % 2 ^ 48 < maxPhysAddr
      rw [same]
      simp only [maxPhysAddr] at hb ⊢
      omega
    | inr hf =>
      rw [hf.1] at exn
      cases exn

/-- EREMOVE forgets all frames; it only stops in a fault. -/
theorem encls_trapInvariant (hr : Running TrapInvariant ⟨A, g⟩) (hb : g.epcBaseAddress + g.epcSize ≤ maxPhysAddr) :
    wp (enclsHandler (addrMapOps mtrrs) id guest) (fun _ => Running TrapInvariant)
      (fun e t => e.isExn = true → Running TrapInvariant t) ⟨A, g⟩ := by
  by_cases hre : guest.rax.toNat = eremoveExit
  · have hs : Running (fun _ => True) ⟨A, g⟩ := hr.weaken fun _ => trivial
    refine wp_mono (fun _ t ha => ?_) (fun e t ha exn => ?_)
      (wp_and (closedAll_true.enclsHandler id guest _ hs) (enclsHandler_eremove (addrMapOps mtrrs) id hre ⟨A, g⟩))
    · exact ha.1.weaken fun _ => trapInvariant_of_untracked ha.2.1
    · rw [ha.2] at exn
      cases exn
  · exact einit_trapInvariant hr hre hb

end Handlers

/-! ## Runs -/

section Steps

variable {platform : Platform} {channel : Option Nat} {mem : GuestMem} {s t : Machine AddrMap} {id : BitVec 64}
  {guest : GuestState} {reason : Reason}

theorem handle_trapInvariant (hb : s.g.epcBaseAddress + s.g.epcSize ≤ maxPhysAddr)
    (hn : ScanFindsNothing s.g (.exit id guest reason))
    (hr : Running TrapInvariant ⟨s.guestMap, onExit id guest reason s.g⟩) :
    wp (handle (addrMapOps platform.mtrrs) id guest reason) (fun _ => Running TrapInvariant)
      (fun e t => e.isExn = true → Running TrapInvariant t) ⟨s.guestMap, onExit id guest reason s.g⟩ := by
  cases reason with
  | externalInterrupt information =>
    exact wp_mono (fun _ _ h => h) (fun _ _ h _ => h) (externalInterrupt_trapInvariant hr _)
  | interruptWindow =>
    exact wp_mono (fun _ _ h => h) (fun _ _ h _ => h) (steady_trapInvariant.interruptWindowHandler id _ hr)
  | eptViolation qual gva gpa =>
    exact wp_mono (fun _ _ h => h) (fun _ _ h _ => h) (eptViolation_trapInvariant hr _ _)
  | encls => exact encls_trapInvariant hr hb
  | vmcall => exact wp_mono (fun _ _ h => h) (fun _ _ h _ => h) (vmcall_trapInvariant hr hn)
  | monitorTrap =>
    exact wp_mono (fun _ _ h => h) (fun _ _ h _ => h) (steady_trapInvariant.monitorTrapHandler id _ hr)

theorem trapInvariant_step {e : Event} (hrc : Reached platform channel mem s) (hh : TrapInvariant s)
    (hb : s.g.epcBaseAddress + s.g.epcSize ≤ maxPhysAddr) (nothing : ScanFindsNothing s.g e)
    (next : abstractStep platform s e = some t) : TrapInvariant t := by
  obtain ⟨es, hre⟩ := hrc
  cases e with
  | construct id =>
    rcases run_sound hre with rfl | running
    · exact trapInvariant_of_untracked (step_construct_globals (p := fun g => g.countSgxPaddrs = 0) (fun _ h => h)
        (fun _ h => h) (fun _ h => h) (fun _ h => h) rfl next)
    · exact (step_construct (fun h => ⟨h.1.congr rfl rfl rfl rfl, h.2⟩) (fun h => ⟨h.1.congr rfl rfl rfl rfl, h.2⟩)
        (fun _ h => h.removed _) (running.weaken fun _ => hh) next).holds
  | exit id guest reason =>
    rcases run_sound hre with rfl | running
    · obtain ⟨v, hk, -⟩ := step_exit_some next
      cases hk
    · refine (step_exit_of steady_trapInvariant (running.weaken fun _ => hh) (fun A g ha map globals => ?_) next).holds
      subst map globals
      exact handle_trapInvariant hb nothing ha

/-- The EPC is where CPUID says, or not yet known. -/
theorem epc_located {p : Nat → Nat → Prop} (located : p (cpuidAddress platform.ebx platform.eax)
      (cpuidAddress platform.edx platform.ecx)) (unknown : p 0 0) (hrc : Reached platform channel mem s) :
    p s.g.epcBaseAddress s.g.epcSize := by
  obtain ⟨es, hre⟩ := hrc
  rcases run_sound hre with rfl | running
  · exact unknown
  · rw [running.holds.configured.epcBaseAddress, running.holds.configured.epcSize]
    exact located

theorem epcTrapped_reached (hb : s.g.epcBaseAddress + s.g.epcSize ≤ maxPhysAddr)
    (suffice : FramesSuffice s.g.epcBaseAddress s.g.epcSize) (hrc : Reached platform channel mem s)
    (hh : TrapInvariant s) : EpcTrapped s := by
  obtain ⟨es, hre⟩ := hrc
  rcases run_sound hre with rfl | running
  · exact fun htd => absurd htd (Nat.lt_irrefl 0)
  · exact epcTrapped_of_frames running.identity hb suffice hh.2

end Steps

/-- The EPC is trapped while the enclave is not running, if the frames that are counted off reach to its end and
if no scan finds one of its pages. -/
theorem epc_trapped (mm : PagePool) (platform : Platform) (channel : Option Nat) (word : Nat → Fin 512 → Entry)
    (mem : GuestMem) (es : List Event)
    (below : cpuidAddress platform.ebx platform.eax + cpuidAddress platform.edx platform.ecx ≤ maxPhysAddr)
    (suffice : FramesSuffice (cpuidAddress platform.ebx platform.eax) (cpuidAddress platform.edx platform.ecx))
    (nothing : AllSteps (codeStep platform mm) (fun s e => ScanFindsNothing s.g e) (boot mm channel word mem) es) :
    AllStates (codeStep platform mm) (fun s => EpcTrapped (s.view mm)) (boot mm channel word mem) es := by
  have inside {s : Machine AddrMap} (reached : Reached platform channel mem s) :
      s.g.epcBaseAddress + s.g.epcSize ≤ maxPhysAddr :=
    epc_located (p := fun base size => base + size ≤ maxPhysAddr) below (by decide) reached
  exact code_allStates_of (I := TrapInvariant) (P := EpcTrapped) (C := fun s e => ScanFindsNothing s.g e)
    (fun s e t reached holds meets next => trapInvariant_step reached holds (inside reached) meets next)
    (fun s reached holds => epcTrapped_reached (inside reached)
      (epc_located (p := FramesSuffice) suffice (.inl rfl) reached) reached holds)
    (trapInvariant_of_untracked rfl) nothing

/-- An EPC of 2M that does not start at a multiple of 2M. -/
def shiftedEpc : Platform := { (default : Platform) with eax := 0x201000 }

/-- Its second frame is never trapped. -/
theorem epc_not_trapped :
    ∃ s leaf, run (codeStep shiftedEpc default) (boot default (some 0x800000) (fun _ _ => 0) fun _ _ => 0) oneEinit =
        some s ∧
      0 < s.g.countSgxPaddrs ∧ s.g.enclaveRunning = false ∧
      (s.g.epcBaseAddress ≤ 0x400000 ∧ 0x400000 < s.g.epcBaseAddress + s.g.epcSize) ∧
      leafAt default s.guestMap 0x400000 = some leaf ∧ leaf.entry.isEnabled .execute = true := by
  have observed : (run (abstractStep shiftedEpc) (bootAbstract (some 0x800000) fun _ _ => 0) oneEinit).map (fun t =>
      (t.g.countSgxPaddrs, t.g.enclaveRunning, t.g.epcBaseAddress, t.g.epcSize)) =
      some (1, false, 0x201000, 0x200000) := by decide +kernel
  have executable : (run (abstractStep shiftedEpc) (bootAbstract (some 0x800000) fun _ _ => 0) oneEinit).map (fun t =>
      (t.guestMap 0x400000).map (·.entry.isEnabled .execute)) = some (some true) := by decide +kernel
  obtain ⟨s, reach, seen, -⟩ := exists_run _ observed default fun _ _ => 0
  obtain ⟨s', reach', seen', -⟩ := exists_run _ executable default fun _ _ => 0
  obtain rfl := Option.some.inj (reach.symm.trans reach')
  obtain ⟨leaf, found, execute⟩ := Option.map_eq_some_iff.mp seen'
  injection seen with count rest
  injection rest with idle rest
  injection rest with base size
  have count : s.g.countSgxPaddrs = 1 := count
  have base : s.g.epcBaseAddress = 0x201000 := base
  have size : s.g.epcSize = 0x200000 := size
  exact ⟨s, leaf, reach, by omega, idle, by omega, found, execute⟩

theorem epc_trapped_aligned :
    (∃ s, run (codeStep default default) (boot default (some 0x800000) (fun _ _ => 0) fun _ _ => 0) oneEinit = some s) ∧
      AllStates (codeStep default default) (fun s => EpcTrapped (s.view default))
        (boot default (some 0x800000) (fun _ _ => 0) fun _ _ => 0) oneEinit := by
  have observed : (run (abstractStep default) (bootAbstract (some 0x800000) fun _ _ => 0) oneEinit).map
      (·.g.flagEpt) = some true := by decide +kernel
  obtain ⟨s, reach, -⟩ := exists_run _ observed default fun _ _ => 0
  refine ⟨⟨s, reach⟩, epc_trapped _ _ _ _ _ _ (by decide) (.inr (by decide)) ?_⟩
  exact ⟨trivial, fun _ _ => ⟨trivial, fun _ _ => trivial⟩⟩

end Gevisor.Vmm
