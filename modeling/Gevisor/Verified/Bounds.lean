import Gevisor.Verified.IdentityMapping
import Gevisor.Vmm.Epc
import Gevisor.Vmm.Invariants

/-! # Bounds of the tracking arrays

The three counters never pass the lengths of their arrays, because each is checked before it grows: where the
source would write past an end, the model stops in a fault. What can pass an end are the loops: over the frames
of the EPC or of a buffer, and over `modified_pages`, which a scan raises for every entry it finds.
-/

namespace Gevisor.Vmm

open Gevisor.Lib
open Gevisor.Ept

def isOutOfBounds : Err → Bool
  | .fault (.outOfBounds _ _) => true
  | _ => false

theorem isOutOfBounds_of_exn {e : Err} (exn : e.isExn = true) : isOutOfBounds e = false := by
  cases e with
  | exn what => rfl
  | fault f => cases exn

/-- Counting off frames into an array that already holds `count` of them gets to its end before it gets to an
address that is not mapped. -/
def Overflows (start frames count length : Nat) : Prop :=
  ∃ i < frames, (∀ j ≤ i, frameAddress start j % 2 ^ 48 < maxPhysAddr) ∧ length ≤ count + i

/-- The buffer is known, or has no address, or there is room for it and its frames. -/
def BufferFits (g : Globals) (buf size cr3 : Nat) : Prop :=
  ¬ BufferKnown g buf → ∀ paddr, customVirtToPhysWithCr3 g.mem buf cr3 = .ok paddr → paddr ≠ 0 →
    g.countGpuBuffers < gpuBufferNum ∧ ¬ Overflows paddr (bufferFrames size) g.countGpuPaddrs gpuPaddrNum

/-- Entering the enclave stops at the end of the array, unless it stops at an address before. -/
def EntryFits (g : Globals) : Prop :=
  ¬ (sgxPages < g.modifiedPages ∧ ∀ i < sgxPages, g.sgxPaddrs i % 2 ^ 48 < maxPhysAddr)

/-- There is room for what the exit makes the hypervisor do. -/
def Fits (g : Globals) (id : BitVec 64) (guest : GuestState) : Reason → Prop
  | .externalInterrupt _ =>
    onEnclaveVcpu g id → ∀ page, g.channelMap = some page → channelCommand guest.mem page = 'm' →
      BufferFits { g with mem := guest.mem } (channelBuffer guest.mem page) (channelSize guest.mem page)
        guest.cr3.toNat
  | .eptViolation qual _ _ =>
    isBitSet qual 0 = false → isBitSet qual 1 = false → isBitSet qual 2 = true → EntryFits g
  | .encls =>
    if guest.rax.toNat = eremoveExit then g.modifiedPages ≤ sgxPages
    else ¬ Overflows g.epcBaseAddress (epcFrames g.epcSize) g.countSgxPaddrs sgxPages
  | .interruptWindow | .vmcall | .monitorTrap => True

/-! ## The counters -/

structure CountsBounded (g : Globals) : Prop where
  sgxPaddrs : g.countSgxPaddrs ≤ sgxPages
  gpuBuffers : g.countGpuBuffers ≤ gpuBufferNum
  gpuPaddrs : g.countGpuPaddrs ≤ gpuPaddrNum

theorem closedAll_countsBounded : ClosedAll fun s => CountsBounded s.g where
  kept kept h := ⟨kept.countSgxPaddrs ▸ h.1, kept.countGpuBuffers ▸ h.2, kept.countGpuPaddrs ▸ h.3⟩
  vcpu _ _ _ h := ⟨h.1, h.2, h.3⟩
  registered _ room h := ⟨h.1, room, h.3⟩
  merged _ _ h := h
  trapped _ _ h := h
  recorded _ h := ⟨h.1, h.2, h.3⟩
  running _ h := ⟨h.1, h.2, h.3⟩
  removed _ h := h
  untrapped _ _ h := h
  noteSgx _ room h := ⟨room, h.2, h.3⟩
  cleared _ h := ⟨h.1, h.2, h.3⟩
  reset _ := ⟨Nat.zero_le _, Nat.zero_le _, Nat.zero_le _⟩
  bitmap _ _ _ h := ⟨h.1, h.2, h.3⟩
  create _ h := ⟨h.1, h.2, h.3⟩
  delete _ h := ⟨h.1, h.2, h.3⟩

theorem CountsBounded.noteGpu {g : Globals} {v : Nat} (room : g.countGpuPaddrs < gpuPaddrNum)
    (h : CountsBounded g) : CountsBounded (noteGpuPaddr v g) := ⟨h.1, h.2, room⟩

theorem run_countsBounded {platform : Platform} {channel : Option Nat} {mem : GuestMem} {es : List Event}
    {t : Machine AddrMap} (hre : run (abstractStep platform) (bootAbstract channel mem) es = some t) :
    t = bootAbstract channel mem ∨ Running (fun s => CountsBounded s.g) t :=
  run_running closedAll_countsBounded (fun _ room h => h.noteGpu room) (fun _ h => h)
    (fun _ => ⟨Nat.zero_le _, Nat.zero_le _, Nat.zero_le _⟩) hre

/-! ## Code that goes out of bounds exactly if there is no room -/

/-- The code goes out of bounds in state `s` exactly if `room` does not hold. -/
def Bounded {α : Type} (room : Prop) (c : VmmM AddrMap α) (s : Machine AddrMap) : Prop :=
  wp c (fun _ _ => room) (fun e _ => isOutOfBounds e = true ↔ ¬ room) s

section Bounded

variable {α β : Type} {room : Prop} {c : VmmM AddrMap α} {f : α → VmmM AddrMap β} {s : Machine AddrMap}

theorem bounded_true : Bounded True c s ↔ wp c (fun _ _ => True) (fun e _ => isOutOfBounds e = false) s := by
  simp [Bounded]

theorem bounded_pure (s : Machine AddrMap) : Bounded True (pure () : VmmM AddrMap Unit) s := trivial

theorem Bounded.of_true (fits : room) (hb : Bounded True c s) : Bounded room c s := by
  simpa only [Bounded, fits] using hb

/-- What follows stays in bounds. -/
theorem Bounded.bind (first : Bounded room c s)
    (rest : wp c (fun a t => Bounded True (f a) t) (fun _ _ => True) s) : Bounded room (c >>= f) s := by
  rw [Bounded, wp_bind]
  refine wp_mono (fun a t ha => ?_) (fun _ _ ha => ha.1) (wp_and first rest)
  exact ha.2.of_true ha.1

theorem Bounded.ite {p : Prop} [Decidable p] {d : VmmM AddrMap α} (pos : p → Bounded room c s)
    (neg : ¬ p → Bounded room d s) : Bounded room (if p then c else d) s := by
  split
  case isTrue h => exact pos h
  case isFalse h => exact neg h

end Bounded

section Handlers

variable {mtrrs : Mtrrs} {A : AddrMap} {g : Globals} {id : BitVec 64} {guest : GuestState}

variable {v : Nat} {changes : List Change}

/-- An update of an entry returns where something is mapped and throws elsewhere. -/
theorem update_spec
    (hex : ∀ e : Entry, e.isEnabled .execute = true → (applyChanges changes e).isEnabled .execute = true)
    (hid : IsIdentity maxPhysAddr A) :
    wp (onMap ((addrMapOps mtrrs).updateEntry v changes))
      (fun _ t => IsIdentity maxPhysAddr t.guestMap ∧ t.g = g ∧ v % 2 ^ 48 < maxPhysAddr)
      (fun e _ => isOutOfBounds e = false ∧ ¬ v % 2 ^ 48 < maxPhysAddr) ⟨A, g⟩ := by
  cases hf : A v with
  | none =>
    rw [wp_of_error (update_unmapped hf)]
    refine ⟨rfl, fun hi => ?_⟩
    obtain ⟨leaf, hp⟩ := (hid.domain v).mpr hi
    cases hf.symm.trans hp
  | some leaf =>
    have hs (leaf : Leaf) (hf : A v = some leaf) := keepsSmall leaf hex (hid.leaf hf)
    rw [wp_of_ok (update_mapped hid hf (hs leaf hf))]
    exact ⟨hid.updated hs, rfl, (hid.domain v).mp ⟨leaf, hf⟩⟩

theorem update_bounded
    (hex : ∀ e : Entry, e.isEnabled .execute = true → (applyChanges changes e).isEnabled .execute = true)
    (hid : IsIdentity maxPhysAddr A) :
    Bounded True (onMap ((addrMapOps mtrrs).updateEntry v changes)) ⟨A, g⟩ :=
  bounded_true.mpr (wp_mono (fun _ _ _ => trivial) (fun _ _ h => h.1) (update_spec hex hid))

theorem changeGpuBuffers_bounded
    (hex : ∀ e : Entry, e.isEnabled .execute = true → (applyChanges changes e).isEnabled .execute = true)
    (hr : Running (fun s => CountsBounded s.g) ⟨A, g⟩) :
    Bounded True (changeGpuBuffers (addrMapOps mtrrs) changes) ⟨A, g⟩ := by
  rw [bounded_true, changeGpuBuffers, wp_bind, wp_getG]
  refine wp_loop (fun _ t => IsIdentity maxPhysAddr t.guestMap) hr.identity (fun n t hbo hid => ?_) fun _ _ => trivial
  have hi : n < arrayLength .gpuPaddrs := Nat.lt_of_lt_of_le hbo hr.holds.gpuPaddrs
  rw [wp_bind, wp_checkIndex, if_pos hi, wp_bind, wp_getG]
  exact wp_mono (fun _ _ h => h.1) (fun _ _ h => h.1) (update_spec hex hid)

theorem trapEnclaveEntryNew2m_bounded (hr : Running (fun s => CountsBounded s.g) ⟨A, g⟩) :
    Bounded True (trapEnclaveEntryNew2m (addrMapOps mtrrs)) ⟨A, g⟩ := by
  refine bounded_true.mpr (wp_mono (fun _ _ _ => trivial) (fun e t hs => ?_)
    (trapEnclaveEntryNew2m_spec mtrrs hr.identity g))
  by_cases exn : e.isExn = true
  · exact isOutOfBounds_of_exn exn
  · rw [if_neg exn] at hs
    exact absurd hr.holds.sgxPaddrs (Nat.not_le_of_lt hs.2)

/-! ### Buffers -/

theorem checkBufferFrom_returns (vaddr i n : Nat) (hi : i + n ≤ gpuBufferNum) (s : Machine AddrMap) :
    wp (checkBufferFrom vaddr i n) (fun _ _ => True) (fun _ _ => False) s := by
  induction n generalizing i with
  | zero => exact trivial
  | succ n ih =>
    have hin : i < arrayLength .gpuBuffers := by
      simp only [arrayLength]
      omega
    rw [checkBufferFrom, wp_bind, wp_checkIndex, if_pos hin, wp_bind, wp_getG, wp_ite]
    split
    · exact trivial
    · exact ih (i + 1) (by omega)

theorem customVirtToPhysWithCr3_error {mem : GuestMem} {virt cr3 : Nat} {e : Err}
    (hth : customVirtToPhysWithCr3 mem virt cr3 = .error e) : e = failFast := by
  simp only [customVirtToPhysWithCr3] at hth
  grind

/-- Frames are counted off until the array is full or a frame is not mapped. -/
theorem addGpuBuffer2m_bounded (hid : IsIdentity maxPhysAddr A) {paddr : Nat} (hp : paddr ≠ 0) (vaddr size : Nat) :
    Bounded (g.countGpuBuffers < gpuBufferNum ∧ ¬ Overflows paddr (bufferFrames size) g.countGpuPaddrs gpuPaddrNum)
      (addGpuBuffer2m (addrMapOps mtrrs) vaddr paddr size) ⟨A, g⟩ := by
  rw [Bounded, addGpuBuffer2m, if_pos hp, wp_bind, wp_getG, wp_bind, wp_checkIndex]
  split
  case isFalse full => exact iff_of_true rfl fun fits => full fits.1
  case isTrue room =>
  rw [wp_bind, wp_modifyG, wp_bind]
  refine wp_loop (fun i t => IsIdentity maxPhysAddr t.guestMap ∧ t.g.countGpuPaddrs = g.countGpuPaddrs + i ∧
      ∀ j < i, frameAddress paddr j % 2 ^ 48 < maxPhysAddr ∧ g.countGpuPaddrs + j < gpuPaddrNum)
    ⟨hid, rfl, fun j hb => by omega⟩ (fun i t hbo hbe => ?_) fun t ha => ?_
  · obtain ⟨A', g'⟩ := t
    obtain ⟨hid', hc, hea⟩ := hbe
    have hc : g'.countGpuPaddrs = g.countGpuPaddrs + i := hc
    have word : frameAddress paddr i < 2 ^ 64 := Nat.mod_lt _ (by decide)
    rw [wp_bind]
    cases ensure2m_cases mtrrs g' hid' (frameAddress paddr i) with
    | inl hret =>
      obtain ⟨hret, hi⟩ := hret
      have upto (j : Nat) (le : j ≤ i) : frameAddress paddr j % 2 ^ 48 < maxPhysAddr := by
        cases Nat.lt_or_eq_of_le le with
        | inl less => exact (hea j less).1
        | inr heq => exact heq ▸ hi
      rw [wp_of_ok hret, addGpuPaddr, wp_bind, wp_getG, wp_bind, wp_checkIndex]
      split
      · next hs =>
        have hs : g'.countGpuPaddrs < gpuPaddrNum := hs
        refine ⟨hid'.merged (by decide), congrArg (· + 1) hc, fun j hb => ⟨upto j (by omega), ?_⟩⟩
        omega
      · next full =>
        have full : ¬ g'.countGpuPaddrs < gpuPaddrNum := full
        exact iff_of_true rfl fun fits => fits.2 ⟨i, hbo, upto, by omega⟩
    | inr hth =>
      obtain ⟨e, hth, exn, hout⟩ := hth
      rw [wp_of_error hth, isOutOfBounds_of_exn exn]
      refine iff_of_false Bool.false_ne_true (not_not.mpr ⟨room, ?_⟩)
      rintro ⟨k, -, hi, full⟩
      by_cases hbe : k < i
      · have := (hea k hbe).2
        omega
      · exact hout word (hi i (by omega))
  · refine ⟨room, ?_⟩
    rintro ⟨k, hbo, -, full⟩
    have := (ha.2.2 k hbo).2
    omega

theorem registerBuffer_bounded (hr : Running (fun s => CountsBounded s.g) ⟨A, g⟩) (buf size cr3 : Nat) :
    Bounded (BufferFits g buf size cr3) (registerBuffer (addrMapOps mtrrs) buf size cr3) ⟨A, g⟩ := by
  rw [Bounded, registerBuffer, wp_bind]
  have upto : 0 + g.countGpuBuffers ≤ gpuBufferNum := (Nat.zero_add _).symm ▸ hr.holds.gpuBuffers
  refine wp_mono ?_ (fun _ _ h => h.1.elim)
    (wp_and (checkBufferFrom_returns buf 0 g.countGpuBuffers upto ⟨A, g⟩) (checkBufferExists_spec buf ⟨A, g⟩))
  rintro hf _ ⟨-, rfl, he⟩
  refine Bounded.ite (fun hk => ?_) fun hab => ?_
  · exact fun new => absurd (he.mp hk) new
  · have new : ¬ BufferKnown g buf := fun hk => hab (he.mpr hk)
    rw [Bounded, wp_bind, wp_getG, wp_bind]
    cases htl : customVirtToPhysWithCr3 g.mem buf cr3 with
    | error e =>
      obtain rfl := customVirtToPhysWithCr3_error htl
      refine iff_of_false Bool.false_ne_true (not_not.mpr fun _ paddr hret => ?_)
      cases htl.symm.trans hret
    | ok paddr =>
      by_cases hp : paddr ≠ 0
      · have same : BufferFits g buf size cr3 ↔ g.countGpuBuffers < gpuBufferNum ∧
            ¬ Overflows paddr (bufferFrames size) g.countGpuPaddrs gpuPaddrNum := by
          simp [BufferFits, new, htl, hp]
        rw [same]
        exact addGpuBuffer2m_bounded hr.identity hp buf size
      · refine (wp_ite ..).mpr ?_
        rw [if_neg hp]
        intro _ paddr' hret hp'
        cases htl.symm.trans hret
        exact absurd hp' hp

theorem readEnclaveChannel_bounded (hr : Running (fun s => CountsBounded s.g) ⟨A, g⟩) (cr3 : Nat) (lapic : Bool) :
    Bounded (∀ page, g.channelMap = some page → channelCommand g.mem page = 'm' →
        BufferFits g (channelBuffer g.mem page) (channelSize g.mem page) cr3)
      (readEnclaveChannel (addrMapOps mtrrs) cr3 lapic) ⟨A, g⟩ := by
  rw [Bounded, readEnclaveChannel, wp_bind, wp_getG]
  cases hmap : g.channelMap with
  | none => exact iff_of_false Bool.false_ne_true (not_not.mpr fun _ hab => absurd hab (Option.some_ne_none _).symm)
  | some page =>
    simp only [Option.some.injEq, forall_eq']
    have done (c : VmmM AddrMap Unit) : wp c (fun _ t => Bounded True (modifyG (channelDone page)) t) (fun _ _ => True)
        ⟨A, g⟩ := wp_mono (fun _ _ _ => trivial) (fun _ _ _ => trivial) (wp_true c ⟨A, g⟩)
    split
    · next hc =>
      rw [hc]
      refine Bounded.of_true (fun ho => absurd ho (by decide)) ?_
      exact (changeGpuBuffers_bounded (fun e h => by simp [applyChanges, Change.apply, h]) hr).bind (done _)
    · next hc =>
      simp only [hc, forall_const]
      exact (registerBuffer_bounded hr _ _ _).bind (done _)
    · next hc =>
      rw [hc]
      refine Bounded.of_true (fun ho => absurd ho (by decide)) ?_
      rw [Bounded, wp_bind, writeIpiInitAllNotSelf, wp_ite]
      split
      · exact (changeGpuBuffers_bounded (fun e h => by simp [applyChanges, Change.apply, h]) hr).bind (done _)
      · exact iff_of_false Bool.false_ne_true (not_not.mpr trivial)
    · next hc => exact fun ho => absurd (hc.symm.trans ho) (by decide)
    · next hc => exact fun ho => absurd (hc.symm.trans ho) (by decide)
    · next _ hre _ _ _ => exact fun hc => absurd hc hre

variable (vector : BitVec 64) (s : Machine AddrMap)

theorem externalInterrupt_bounded (hr : Running (fun s => CountsBounded s.g) ⟨A, g⟩) (vector : BitVec 64) :
    Bounded (onEnclaveVcpu g id → ∀ page, g.channelMap = some page → channelCommand g.mem page = 'm' →
        BufferFits g (channelBuffer g.mem page) (channelSize g.mem page) guest.cr3.toNat)
      (externalInterruptHandler (addrMapOps mtrrs) id guest vector) ⟨A, g⟩ := by
  refine Bounded.bind ?_ (wp_mono (fun _ t _ => Bounded.ite (fun _ => trivial) fun _ => trivial) (fun _ _ _ => trivial) (wp_true _ _))
  rw [Bounded, pauseEnclave, wp_bind, wp_getG]
  refine Bounded.ite (fun he => ?_) fun hel he => absurd he hel
  simp only [he, forall_const]
  refine (readEnclaveChannel_bounded hr _ _).bind ?_
  have channel := @Steady.readEnclaveChannel _ mtrrs closedAll_countsBounded.toSteady guest.cr3.toNat
    guest.lapicSupported A g hr (fun _ _ _ => Running.changeGpuBuffers (fun _ => Running.remove fun _ _ _ h => h) _ hr)
    (fun _ _ _ => closedAll_countsBounded.registerBuffer _ _ _ hr fun _ _ => fun _ room h => h.noteGpu room)
    (fun _ _ _ => Running.changeGpuBuffers fun _ => Running.grant .both fun _ _ _ h => h)
  refine wp_mono (fun _ t ha => ?_) (fun _ _ _ => trivial) channel
  exact (trapEnclaveEntryNew2m_bounded ha).bind (wp_mono (fun _ _ _ => trivial) (fun _ _ _ => trivial) (wp_true _ _))

/-! ### Enclaves -/

theorem eptExecuteViolation_bounded (hid : IsIdentity maxPhysAddr A) (gpa : Nat) :
    Bounded (EntryFits g) (eptExecuteViolationHandler (addrMapOps mtrrs) id guest gpa) ⟨A, g⟩ := by
  have hex (e : Entry) (_ : e.isEnabled .execute = true) :
      (applyChanges [.enable .execute] e).isEnabled .execute = true := by simp [applyChanges, Change.apply]
  rw [Bounded, eptExecuteViolationHandler, wp_bind, wp_modifyG, wp_bind, wp_getG, wp_bind]
  -- Before iteration `n` the first `n` addresses have turned out to be mapped.
  refine wp_loop (fun n t => IsIdentity maxPhysAddr t.guestMap ∧ t.g.sgxPaddrs = g.sgxPaddrs ∧ n ≤ sgxPages ∧
      ∀ i < n, g.sgxPaddrs i % 2 ^ 48 < maxPhysAddr)
    ⟨hid, rfl, Nat.zero_le _, fun i hb => by omega⟩ (fun n t hbo hbe => ?_) fun t ha => ?_
  · obtain ⟨A', g'⟩ := t
    obtain ⟨hid', hp, upto, hmap⟩ := hbe
    have hbo : n < g.modifiedPages := hbo
    rw [wp_bind, wp_checkIndex]
    split
    case isFalse full =>
      have full : ¬ n < sgxPages := full
      obtain rfl : n = sgxPages := by omega
      exact iff_of_true rfl fun fits => fits ⟨hbo, hmap⟩
    case isTrue room =>
    have room : n < sgxPages := room
    rw [wp_bind, wp_getG]
    refine wp_mono ?_ ?_ (update_spec hex hid')
    · rintro _ t ⟨ha, same, hi⟩
      refine ⟨ha, same ▸ hp, room, fun i hb => ?_⟩
      cases Nat.lt_or_eq_of_le (Nat.le_of_lt_succ hb) with
      | inl less => exact hmap i less
      | inr heq => exact heq ▸ hp ▸ hi
    · rintro e t ⟨hin, hout⟩
      rw [hin]
      refine iff_of_false Bool.false_ne_true (not_not.mpr fun full => hout ?_)
      exact hp ▸ full.2 n room
  · obtain ⟨hid', -, upto, -⟩ := ha
    have upto : g.modifiedPages ≤ sgxPages := upto
    exact Bounded.of_true (fun full => absurd upto (Nat.not_le_of_lt full.1)) (update_bounded hex hid')

theorem eremove_bounded (hr : guest.rax.toNat = eremoveExit) :
    Bounded (g.modifiedPages ≤ sgxPages) (enclsHandler (addrMapOps mtrrs) id guest) ⟨A, g⟩ := by
  rw [Bounded, enclsHandler, if_pos hr, wp_bind, wp_modifyG, wp_bind, setEnclsExitingBitmap, wp_modifyVcpu,
    wp_bind, wp_modifyG, wp_bind, wp_getG, wp_bind]
  refine wp_loop (fun n _ => n ≤ sgxPages) (Nat.zero_le _) (fun n t hbo upto => ?_) fun t upto => upto
  have hbo : n < g.modifiedPages := hbo
  rw [wp_bind, wp_checkIndex]
  split
  case isFalse full =>
    have full : ¬ n < sgxPages := full
    exact iff_of_true rfl (by omega)
  case isTrue room =>
  rw [wp_bind, wp_modifyG, wp_bind, wp_checkIndex, if_pos (show n < arrayLength .sgxPaddrs from room)]
  exact room

theorem einit_bounded (hr : Running (fun s => CountsBounded s.g) ⟨A, g⟩) (ho : guest.rax.toNat ≠ eremoveExit) :
    Bounded (¬ Overflows g.epcBaseAddress (epcFrames g.epcSize) g.countSgxPaddrs sgxPages)
      (enclsHandler (addrMapOps mtrrs) id guest) ⟨A, g⟩ := by
  rw [Bounded, enclsHandler, if_neg ho, wp_bind, wp_modifyG]
  have hst : Running (fun s => CountsBounded s.g)
      ⟨A, { g with currentEnclaveCr3 := guest.cr3.toNat, modifiedPages := 0 }⟩ :=
    ⟨hr.epc, hr.ept, hr.identity, hr.holds.1, hr.holds.2, hr.holds.3⟩
  refine Bounded.bind ?_ (wp_mono (fun _ t ha => ?_) (fun _ _ _ => trivial)
    (@ClosedAll.addEpcAddress2m _ mtrrs closedAll_countsBounded _ hst))
  · refine wp_mono ?_ ?_ (addEpcAddress2m_spec mtrrs hr.identity
      { g with currentEnclaveCr3 := guest.cr3.toNat, modifiedPages := 0 })
    · rintro _ t ⟨-, done⟩ ⟨i, hi, -, full⟩
      have room : g.countSgxPaddrs + i < sgxPages := (done i hi).2
      omega
    · rintro e t ⟨n, hbo, -, done, he⟩
      cases he with
      | inl hu =>
        rw [isOutOfBounds_of_exn hu.1]
        refine iff_of_false Bool.false_ne_true (not_not.mpr ?_)
        rintro ⟨i, -, hmap, full⟩
        by_cases hbe : i < n
        · have room : g.countSgxPaddrs + i < sgxPages := (done i hbe).2
          omega
        · exact hu.2 (hmap n (by omega))
      | inr hf =>
        obtain ⟨rfl, hi, full⟩ := hf
        have full : ¬ g.countSgxPaddrs + n < sgxPages := full
        refine iff_of_true rfl (not_not.mpr ⟨n, hbo, fun j upto => ?_, by omega⟩)
        cases Nat.lt_or_eq_of_le upto with
        | inl less => exact (done j less).1
        | inr heq => exact heq ▸ hi
  · rw [Bounded, wp_bind, wp_modifyG]
    have hs : Running (fun s => CountsBounded s.g) ⟨t.guestMap, { t.g with enclaveRunning := false }⟩ :=
      ⟨ha.epc, ha.ept, ha.identity, ha.holds.1, ha.holds.2, ha.holds.3⟩
    refine (trapEnclaveEntryNew2m_bounded hs).bind (wp_mono (fun _ u ht => ?_) (fun _ _ _ => trivial)
      (@Steady.trapEnclaveEntryNew2m _ mtrrs closedAll_countsBounded.toSteady _ hs))
    refine Bounded.bind ?_ (wp_mono (fun _ _ _ => trivial) (fun _ _ _ => trivial) (wp_true _ _))
    rw [Bounded, removePermissionChannel, changeChannel, wp_bind, wp_getG]
    exact update_bounded (fun e h => by simp [applyChanges, Change.apply, h]) ht.identity

/-! ### Scans and violations -/

theorem forEntries_bounded {visit : BitVec 64 → VmmM AddrMap Unit} (hv : ∀ pte s, Bounded True (visit pte) s)
    (page : Nat) (s : Machine AddrMap) : Bounded True (forEntries page visit) s := by
  rw [bounded_true, forEntries, wp_ite]
  split
  · refine wp_loop (fun _ _ => True) trivial (fun i t _ _ => ?_) fun _ _ => trivial
    exact bounded_true.mp (hv _ t)
  · rfl

theorem accessAllPml4_bounded (cr3 : Nat) (s : Machine AddrMap) : Bounded True (accessAllPml4 cr3) s := by
  have pt (pte : BitVec 64) : ∀ s : Machine AddrMap, Bounded True (accessAllPt pte) s := by
    refine forEntries_bounded (fun pte s => ?_) _
    rw [Bounded, wp_bind, wp_getG]
    exact Bounded.ite (fun _ => trivial) fun _ => trivial
  have pdt (pte : BitVec 64) : ∀ s : Machine AddrMap, Bounded True (accessAllPdt pte) s :=
    forEntries_bounded (fun pte s => Bounded.ite (fun _ => pt pte s) fun _ => bounded_pure s) _
  have pdpt (pte : BitVec 64) : ∀ s : Machine AddrMap, Bounded True (accessAllPdpt pte) s :=
    forEntries_bounded (fun pte s => Bounded.ite (fun _ => pdt pte s) fun _ => bounded_pure s) _
  refine Bounded.ite (fun _ => bounded_true.mpr rfl) fun _ => ?_
  exact forEntries_bounded (fun pte s => Bounded.ite (fun _ => pdpt pte s) fun _ => bounded_pure s) _ s

theorem vmcall_bounded : Bounded True (vmcallHandler guest) s := by
  rw [bounded_true, vmcallHandler, wp_swallow]
  have scan : Bounded True (if guest.rax = 0 then accessAllPml4 guest.cr3.toNat else pure ()) s :=
    Bounded.ite (fun _ => accessAllPml4_bounded _ s) fun _ => trivial
  refine wp_mono (fun _ _ _ => trivial) (fun e t hi => ?_) (bounded_true.mp scan)
  split
  · trivial
  · exact hi

theorem interruptWindow_bounded : Bounded True (interruptWindowHandler id) s := by
  rw [bounded_true, interruptWindowHandler, wp_bind, wp_getG]
  cases (vectorsOf s.g id).getLast? with
  | none => rfl
  | some vector => trivial

theorem eptRead_bounded (hid : IsIdentity maxPhysAddr A) (gpa : Nat) :
    Bounded True (eptReadViolationHandler (addrMapOps mtrrs) id gpa) ⟨A, g⟩ := by
  rw [Bounded, eptReadViolationHandler, wp_bind, enableMonitorTrapFlag, wp_modifyVcpu]
  exact update_bounded (fun e h => by simp [applyChanges, Change.apply, h]) hid

theorem eptWrite_bounded (hid : IsIdentity maxPhysAddr A) (gpa : Nat) :
    Bounded True (eptWriteViolationHandler (addrMapOps mtrrs) id guest gpa) ⟨A, g⟩ := by
  have both (e : Entry) (h : e.isEnabled .execute = true) :
      (applyChanges [.enable .read, .enable .write] e).isEnabled .execute = true := by
    simp [applyChanges, Change.apply, h]
  -- Granting access to the channel returns with another identity map, or throws.
  have hg (A : AddrMap) (g : Globals) (hid : IsIdentity maxPhysAddr A) :
      wp (grantPermissionChannel (addrMapOps mtrrs)) (fun _ t => IsIdentity maxPhysAddr t.guestMap)
        (fun e _ => isOutOfBounds e = false) ⟨A, g⟩ := by
    rw [grantPermissionChannel, changeChannel, wp_bind, wp_getG]
    exact wp_mono (fun _ _ h => h.1) (fun _ _ h => h.1) (update_spec both hid)
  have ho : wp (grantOnResume (addrMapOps mtrrs) guest) (fun _ t => IsIdentity maxPhysAddr t.guestMap)
      (fun e _ => isOutOfBounds e = false) ⟨A, g⟩ := by
    rw [grantOnResume, wp_ite]
    split
    · exact hg A g hid
    · exact hid
  rw [bounded_true, eptWriteViolationHandler, wp_bind]
  refine wp_mono (fun _ t ha => ?_) (fun _ _ h => h) ho
  rw [wp_bind]
  refine wp_mono (fun _ u ha' => ?_) (fun _ _ h => h) (hg t.guestMap t.g ha)
  rw [wp_bind, enableMonitorTrapFlag, wp_modifyVcpu]
  exact bounded_true.mp (update_bounded (fun e h => by simp [applyChanges, Change.apply, h]) ha')

/-! ### All exits -/

theorem handle_bounded {s : Machine AddrMap} (hr : Running (fun s => CountsBounded s.g) s) (reason : Reason) :
    Bounded (Fits s.g id guest reason) (handle (addrMapOps mtrrs) id guest reason)
      ⟨s.guestMap, onExit id guest reason s.g⟩ := by
  have hex : Running (fun s => CountsBounded s.g) ⟨s.guestMap, onExit id guest reason s.g⟩ := by
    cases reason <;>
      exact ⟨hr.epc, hr.ept, hr.identity, hr.holds.1, hr.holds.2, hr.holds.3⟩
  cases reason with
  | externalInterrupt information => exact externalInterrupt_bounded hex _
  | interruptWindow => exact interruptWindow_bounded _
  | eptViolation qual gva gpa =>
    refine Bounded.ite (fun read => ?_) fun hn => Bounded.ite (fun hw => ?_) fun hno =>
      Bounded.ite (fun he => ?_) fun hnt => ?_
    · exact (eptRead_bounded hr.identity _).of_true fun hn => absurd (read.symm.trans hn) (by decide)
    · exact (eptWrite_bounded hr.identity _).of_true fun _ hno =>
        absurd (hw.symm.trans hno) (by decide)
    · have same : Fits s.g id guest (.eptViolation qual gva gpa) ↔ EntryFits s.g := by
        simp [Fits, hn, hno, he]
      rw [same]
      exact eptExecuteViolation_bounded hr.identity _
    · exact iff_of_false Bool.false_ne_true (not_not.mpr fun _ _ he => absurd he hnt)
  | encls =>
    by_cases hre : guest.rax.toNat = eremoveExit
    · simp only [Fits, if_pos hre]
      exact eremove_bounded hre
    · simp only [Fits, if_neg hre]
      exact einit_bounded hex hre
  | vmcall => exact vmcall_bounded _
  | monitorTrap => exact trivial

end Handlers

section Code

variable {mm : PagePool} {platform : Platform} {channel : Option Nat} {word : Nat → Fin 512 → Entry} {mem : GuestMem}
  {es : List Event} {s : Machine Mmap} {id : BitVec 64} {v : Vcpu}

/-- The handlers of the code, in every state that is reached with a vCPU that can exit. -/
theorem handle_code_bounded (hre : run (codeStep platform mm) (boot mm channel word mem) es = some s)
    (hk : s.g.vcpus id = some v) (guest : GuestState) (reason : Reason) :
    wp (handle (mmapOps mm platform.mtrrs) id guest reason) (fun _ _ => Fits s.g id guest reason)
      (fun e _ => isOutOfBounds e = true ↔ ¬ Fits s.g id guest reason)
      { s with g := onExit id guest reason s.g } := by
  obtain ⟨hre', hcor⟩ := run_abstract hre
  rcases run_countsBounded hre' with start | running
  · have hem : (s.view mm).g.vcpus id = none := by rw [start]; rfl
    cases hem.symm.trans hk
  · have hrel : Related (Refines mm) { s with g := onExit id guest reason s.g }
        { s.view mm with g := onExit id guest reason s.g } :=
      ⟨rfl, (onExit_flagEpt id guest reason s.g).trans running.ept, hcor.refines running.ept⟩
    have ends := @handle_bounded platform.mtrrs id guest _ running reason
    refine wp_mono (fun _ _ h => h) (fun e _ ha => ?_)
      (wp_code (handle_simulates (mmapOps_agree platform.mtrrs) id guest reason) hrel ends)
    obtain ⟨f, same, exactly⟩ := ha
    rcases same with rfl | ⟨exn, exn'⟩
    · exact exactly
    · rw [isOutOfBounds_of_exn exn, ← isOutOfBounds_of_exn exn']
      exact exactly

end Code

/-- In every reachable state an exit of a vCPU stays within all arrays exactly if there is room for what it
makes the hypervisor do. -/
theorem tracking_in_bounds_iff (mm : PagePool) (platform : Platform) (channel : Option Nat)
    (word : Nat → Fin 512 → Entry) (mem : GuestMem) (es : List Event) (s : Machine Mmap)
    (reach : run (codeStep platform mm) (boot mm channel word mem) es = some s) (id : BitVec 64) (v : Vcpu)
    (known : s.g.vcpus id = some v) (guest : GuestState) (reason : Reason) :
    (∀ a i s', handle (mmapOps mm platform.mtrrs) id guest reason { s with g := onExit id guest reason s.g } ≠
        .error (.fault (.outOfBounds a i)) s') ↔
      Fits s.g id guest reason := by
  have ends := handle_code_bounded reach known guest reason
  cases result : handle (mmapOps mm platform.mtrrs) id guest reason { s with g := onExit id guest reason s.g } with
  | ok _ s' =>
    rw [wp_of_ok result] at ends
    exact iff_of_true (fun _ _ _ => nofun) ends
  | error e s' =>
    rw [wp_of_error result] at ends
    rw [← not_iff_not, ← ends]
    cases e with
    | exn what => simp [isOutOfBounds]
    | fault f => cases f <;> simp [isOutOfBounds]

/-! ## Tables in a circle -/

section Scan

variable {s t : Machine AddrMap} {n : Nat}

/-- A scan has counted up to `n`. -/
def Counted (s : Machine AddrMap) (n : Nat) (t : Machine AddrMap) : Prop :=
  ∃ paddrs, t = { s with g := { s.g with sgxPaddrs := paddrs, modifiedPages := n % 2 ^ 64 } }

theorem forEntries_counted {k page : Nat} {visit : BitVec 64 → VmmM AddrMap Unit} (maps : mapsPage page = true)
    (hv : ∀ i n t, Counted s n t → wp (visit (s.g.mem page i)) (fun _ => Counted s (n + k)) (fun _ _ => False) t)
    (hcn : Counted s n t) :
    wp (forEntries page visit) (fun _ => Counted s (n + 512 * k)) (fun _ _ => False) t := by
  rw [forEntries, if_pos maps]
  refine wp_loop (fun i => Counted s (n + i * k)) (by simpa using hcn) (fun i u _ hbe => ?_) fun _ h => h
  have same : u.g.mem = s.g.mem := by
    obtain ⟨paddrs, rfl⟩ := hbe
    rfl
  rw [wp_bind, wp_getG, same, Nat.succ_mul, ← Nat.add_assoc]
  exact hv _ _ _ hbe

/-- Where every entry of every table names the same page of the EPC, all `512 ^ 4` paths are counted. -/
theorem accessAllPml4_counted {pte : BitVec 64} (hc : ∀ page i, s.g.mem page i = pte)
    (hp : GuestPte.present pte = true) (ht : ¬ GuestPte.ps pte = true)
    (maps : mapsPage (GuestPte.physAddr pte) = true) (epc : isEpcPage s.g (GuestPte.physAddr pte)) {cr3 : Nat}
    (root : mapsPage (upper cr3 12) = true) (hcn : Counted s n t) :
    wp (accessAllPml4 cr3) (fun _ => Counted s (n + 512 * (512 * (512 * (512 * 1))))) (fun _ _ => False) t := by
  have pt (n : Nat) (t : Machine AddrMap) (hcn : Counted s n t) :
      wp (accessAllPt pte) (fun _ => Counted s (n + 512 * 1)) (fun _ _ => False) t := by
    refine forEntries_counted maps (fun i n t hcn => ?_) hcn
    obtain ⟨paddrs, rfl⟩ := hcn
    rw [hc, wp_bind, wp_getG, wp_ite]
    split
    · exact ⟨_, congrArg (fun m => Machine.mk s.guestMap { s.g with sgxPaddrs := _, modifiedPages := m })
        (Nat.mod_add_mod ..)⟩
    · next ho => exact absurd epc ho
  have pdt (n : Nat) (t : Machine AddrMap) (hcn : Counted s n t) :
      wp (accessAllPdt pte) (fun _ => Counted s (n + 512 * (512 * 1))) (fun _ _ => False) t := by
    refine forEntries_counted maps (fun i n t hcn => ?_) hcn
    rw [hc, if_pos ⟨epc.1, hp, ht⟩]
    exact pt n t hcn
  have pdpt (n : Nat) (t : Machine AddrMap) (hcn : Counted s n t) :
      wp (accessAllPdpt pte) (fun _ => Counted s (n + 512 * (512 * (512 * 1)))) (fun _ _ => False) t := by
    refine forEntries_counted maps (fun i n t hcn => ?_) hcn
    rw [hc, if_pos ⟨epc.1, hp, ht⟩]
    exact pdt n t hcn
  have hnz : ¬ cr3 = 0 := by
    rintro rfl
    cases root
  rw [accessAllPml4, if_neg hnz]
  refine forEntries_counted root (fun i n t hcn => ?_) hcn
  rw [hc, if_pos ⟨epc.1, hp⟩]
  exact pdpt n t hcn

end Scan

/-- A guest whose tables all name the first page of the EPC. -/
def circleGuest : GuestState := { (default : GuestState) with cr3 := 0x1000, mem := fun _ _ => 0x200001 }

theorem step_circle {s : Machine AddrMap} {v : Vcpu} (hk : s.g.vcpus 0 = some v) (runs : v.halted = false)
    (base : s.g.epcBaseAddress = 0x200000) (hfr : s.g.modifiedPages = 0) :
    ∃ t, abstractStep default s (.exit 0 circleGuest .vmcall) = some t ∧ t.g.modifiedPages = 512 ^ 4 ∧
      t.g.vcpus 0 = some (enterVcpu v) := by
  have epc : isEpcPage { s.g with mem := circleGuest.mem } (GuestPte.physAddr 0x200001) := by
    have ha : GuestPte.physAddr 0x200001 = 0x200000 := by decide
    rw [ha]
    refine ⟨by decide, ?_, ?_⟩
    · show s.g.epcBaseAddress ≤ 0x200000
      omega
    · show 0x200000 ≤ s.g.epcBaseAddress + s.g.epcSize
      omega
  have hcn : Counted { s with g := onExit 0 circleGuest .vmcall s.g } 0
      { s with g := onExit 0 circleGuest .vmcall s.g } :=
    ⟨s.g.sgxPaddrs, congrArg (fun m => { s with g := { s.g with mem := circleGuest.mem, modifiedPages := m } }) hfr⟩
  have scan := accessAllPml4_counted (s := { s with g := onExit 0 circleGuest .vmcall s.g }) (fun _ _ => rfl)
    (by decide) (by decide) (by decide) epc (show mapsPage (upper circleGuest.cr3.toNat 12) = true by decide)
    hcn
  have hh : wp (handle (addrMapOps (default : Platform).mtrrs) 0 circleGuest .vmcall)
      (fun _ => Counted { s with g := onExit 0 circleGuest .vmcall s.g } (0 + 512 * (512 * (512 * (512 * 1)))))
      (fun _ _ => False) { s with g := onExit 0 circleGuest .vmcall s.g } := by
    rw [handle, vmcallHandler, wp_swallow, if_pos (show circleGuest.rax = 0 from rfl)]
    exact wp_mono (fun _ _ h => h) (fun _ _ h => h.elim) scan
  obtain ⟨_, u, hret, hcn'⟩ := exists_of_wp hh
  have same : u.g.modifiedPages = 512 ^ 4 ∧ u.g.vcpus = s.g.vcpus := by
    obtain ⟨paddrs, rfl⟩ := hcn'
    refine ⟨?_, rfl⟩
    show (0 + 512 * (512 * (512 * (512 * 1)))) % 2 ^ 64 = 512 ^ 4
    decide
  refine ⟨{ u with g := onEntry 0 u.g }, ?_, same.1, ?_⟩
  · simp only [abstractStep, step, hk]
    rw [if_pos (by simp [canExit, runs]), hret]
    rfl
  · show Function.update u.g.vcpus 0 ((u.g.vcpus 0).map enterVcpu) 0 = _
    rw [Function.update_self, same.2, hk]
    rfl

/-- EREMOVE clears as many elements as the scan has counted. -/
theorem tracking_out_of_bounds :
    ∃ s v a i s', run (codeStep default default) (boot default (some 0x800000) (fun _ _ => 0) fun _ _ => 0)
        [.construct 0, .exit 0 circleGuest .vmcall] = some s ∧
      s.g.vcpus 0 = some v ∧ canExit v { (default : GuestState) with rax := 3 } .encls = true ∧
      handle (mmapOps default (default : Platform).mtrrs) 0 { (default : GuestState) with rax := 3 } .encls
        { s with g := onExit 0 { (default : GuestState) with rax := 3 } .encls s.g } =
          .error (.fault (.outOfBounds a i)) s' := by
  have observed : (run (abstractStep default) (bootAbstract (some 0x800000) fun _ _ => 0) [.construct 0]).map
      (fun t => (t.g.vcpus 0, t.g.epcBaseAddress, t.g.modifiedPages)) = some (some newVcpu, 0x200000, 0) := by
    decide +kernel
  obtain ⟨first, reach, seen⟩ := Option.map_eq_some_iff.mp observed
  injection seen with known rest
  injection rest with base fresh
  obtain ⟨t, next, modified, known'⟩ := step_circle known rfl base fresh
  obtain ⟨s, reach', rfl, -⟩ := run_concrete default (fun _ _ => 0)
    (run_append.mpr ⟨first, reach, run_cons.mpr ⟨t, next, rfl⟩⟩ :
      run _ _ ([.construct 0] ++ [.exit 0 circleGuest .vmcall]) = some t)
  have modified : s.g.modifiedPages = 512 ^ 4 := modified
  have ends := handle_code_bounded reach' known' { (default : GuestState) with rax := 3 } .encls
  have full : ¬ Fits s.g 0 { (default : GuestState) with rax := 3 } .encls := by
    show ¬ s.g.modifiedPages ≤ sgxPages
    rw [modified]
    decide
  cases result : handle (mmapOps default (default : Platform).mtrrs) 0 { (default : GuestState) with rax := 3 } .encls
      { s with g := onExit 0 { (default : GuestState) with rax := 3 } .encls s.g } with
  | ok _ s' =>
    rw [wp_of_ok result] at ends
    exact absurd ends full
  | error e s' =>
    rw [wp_of_error result] at ends
    cases e with
    | exn what => cases ends.mpr full
    | fault f =>
      cases f with
      | outOfBounds a i => exact ⟨s, _, a, i, s', reach', known', by decide, result⟩
      | _ => cases ends.mpr full

theorem tracking_in_bounds_eremove :
    ∃ s, run (codeStep default default) (boot default (some 0x800000) (fun _ _ => 0) fun _ _ => 0) oneEinit = some s ∧
      ∀ a i s', handle (mmapOps default (default : Platform).mtrrs) 0 { (default : GuestState) with rax := 3 } .encls
        { s with g := onExit 0 { (default : GuestState) with rax := 3 } .encls s.g } ≠
          .error (.fault (.outOfBounds a i)) s' := by
  have observed : (run (abstractStep default) (bootAbstract (some 0x800000) fun _ _ => 0) oneEinit).map
      (fun t => ((t.g.vcpus 0).isSome, t.g.modifiedPages)) = some (true, 0) := by decide +kernel
  obtain ⟨s, reach, seen, -⟩ := exists_run _ observed default fun _ _ => 0
  injection seen with known modified
  obtain ⟨v, known⟩ := Option.isSome_iff_exists.mp known
  refine ⟨s, reach, (tracking_in_bounds_iff _ _ _ _ _ _ s reach 0 v known _ _).mpr ?_⟩
  show s.g.modifiedPages ≤ sgxPages
  rw [show s.g.modifiedPages = 0 from modified]
  exact Nat.zero_le _

end Gevisor.Vmm
