import Gevisor.Vmm.Effects

/-! # Steps and runs

Rules that carry a property from handlers to steps of the abstract machine and to its runs.
-/

namespace Gevisor.Vmm

open Gevisor.Lib
open Gevisor.Ept

section Steps

variable {Q : Machine AddrMap → Prop} {platform : Platform} {s t : Machine AddrMap}

variable {id : BitVec 64} {reason : Reason} {guest : GuestState} {E : Type} {ops : EptOps E} {mtrrs : Mtrrs}

variable {f h : Globals → Globals} {c : VmmM E Unit} {u : Machine E}

/-- A step ends the way its code does. -/
theorem resume_split {t : Machine E}
    {P : Unit → Machine E → Prop} {X : Err → Machine E → Prop} (ends : wp c P X u)
    (hrs : resume f h (c u) = some t) :
    (∃ v, c u = .ok () v ∧ P () v ∧ t = { v with g := f v.g }) ∨
      ∃ what v, c u = .error (.exn what) v ∧ X (.exn what) v ∧ t = { v with g := h v.g } := by
  simp only [wp] at ends
  cases hres : c u with
  | ok a v =>
    rw [hres] at ends hrs
    exact .inl ⟨v, rfl, ends, (Option.some.inj hrs).symm⟩
  | error e v =>
    rw [hres] at ends hrs
    cases e with
    | exn what => exact .inr ⟨what, v, rfl, ends, (Option.some.inj hrs).symm⟩
    | fault f => cases hrs

theorem resume_cases {t : Machine E}
    {P : Machine E → Prop} (ends : wp c (fun _ => P) (fun _ => P) u)
    (hrs : resume f h (c u) = some t) :
    ∃ v, P v ∧ (t = { v with g := f v.g } ∨ t = { v with g := h v.g }) := by
  rcases resume_split ends hrs with ⟨v, -, hh, same⟩ | ⟨-, v, -, hh, same⟩
  · exact ⟨v, hh, .inl same⟩
  · exact ⟨v, hh, .inr same⟩

theorem step_exit_some {s t : Machine E} (next : step ops platform s (.exit id guest reason) = some t) :
    ∃ v, s.g.vcpus id = some v ∧ canExit v guest reason = true ∧
      resume (onEntry id) (onHalt id) (handle ops id guest reason { s with g := onExit id guest reason s.g }) =
        some t := by
  simp only [step] at next
  cases hk : s.g.vcpus id with
  | none =>
    rw [hk] at next
    cases next
  | some v =>
    rw [hk] at next
    obtain ⟨hp, hrs⟩ := Option.ite_none_right_eq_some.mp next
    exact ⟨v, rfl, hp, hrs⟩

theorem step_construct_some {s t : Machine E} (next : step ops platform s (.construct id) = some t) :
    s.g.vcpus id = none ∧ resume (fun g => g) (setVcpu id none) (constructVcpu ops platform id s) = some t := by
  simp only [step] at next
  cases hk : s.g.vcpus id with
  | some v =>
    rw [hk] at next
    cases next
  | none =>
    rw [hk] at next
    exact ⟨rfl, next⟩

/-- Construction, as far as the globals go. -/
theorem step_construct_globals {s t : Machine E} {p : Globals → Prop}
    (hcr : ∀ g, p g → p (setVcpu id (some newVcpu) g))
    (hlo : ∀ g, p g → p { locateEpc platform g with flagEpc := true })
    (flag : ∀ g, p g → p { g with flagEpt := true }) (hd : ∀ g, p g → p (setVcpu id none g)) (hbe : p s.g)
    (next : step ops platform s (.construct id) = some t) : p t.g := by
  obtain ⟨-, hrs⟩ := step_construct_some next
  have hlc : Preserves (fun s : Machine E => p s.g) (locateEpcOnce platform) := by
    intro s h
    rw [locateEpcOnce, wp_modifyG]
    by_cases hl : s.g.flagEpc = true
    · simp only [hl, if_true]
      exact h
    · simp only [hl]
      exact hlo s.g h
  have hb : Preserves (fun s : Machine E => p s.g) (identityMapOnce ops) :=
    .bind (fun _ h => h) fun _ => .ite (fun _ => .pure ()) fun _ =>
      .bind (onMap_globals p _) fun _ => fun s h => flag s.g h
  have hc : Preserves (fun s : Machine E => p s.g) (constructVcpu ops platform id) :=
    .bind (fun s h => hcr s.g h) fun _ => .bind hlc fun _ => .bind hb fun _ =>
      .bind (fun _ h => h) fun _ => onMap_globals p _
  obtain ⟨u, he, rfl | rfl⟩ := resume_cases (hc s hbe) hrs
  · exact he
  · exact hd u.g he

theorem enterVcpu_bitmap (v : Vcpu) : (enterVcpu v).enclsExitingBitmap = v.enclsExitingBitmap := by
  rw [enterVcpu]
  split <;> rfl

/-- A property that the handler keeps from the state of the exit on, unless it faults, is kept by the whole
step. -/
theorem step_exit_of (hst : Steady Q) (hr : Running Q s)
    (hh : ∀ A g, Running Q ⟨A, g⟩ → A = s.guestMap → g = onExit id guest reason s.g →
      wp (handle (addrMapOps platform.mtrrs) id guest reason) (fun _ => Running Q)
        (fun e t => e.isExn = true → Running Q t) ⟨A, g⟩)
    (next : abstractStep platform s (.exit id guest reason) = some t) : Running Q t := by
  obtain ⟨A, g⟩ := s
  obtain ⟨-, -, -, hrs⟩ := step_exit_some next
  have vcpu (f : Vcpu → Vcpu) (hkp : ∀ v, (f v).enclsExitingBitmap = v.enclsExitingBitmap) (A : AddrMap)
      (g : Globals) (hr : Running Q ⟨A, g⟩) : Running Q ⟨A, setVcpu id ((g.vcpus id).map f) g⟩ :=
    ⟨hr.epc, hr.ept, hr.identity, hst.vcpu id f hkp hr.holds⟩
  have hex : Running Q ⟨A, onExit id guest reason g⟩ := by
    have hm : Running Q ⟨A, { g with mem := guest.mem }⟩ :=
      ⟨hr.epc, hr.ept, hr.identity, hst.kept (by constructor <;> rfl) hr.holds⟩
    cases reason with
    | externalInterrupt information =>
      exact vcpu (acknowledge (exitVector information)) (fun _ => rfl) A _ hm
    | _ => exact hm
  rcases resume_split (hh A _ hex rfl rfl) hrs with ⟨⟨A', g'⟩, -, he, rfl⟩ | ⟨_, ⟨A', g'⟩, -, he, rfl⟩
  · exact vcpu enterVcpu enterVcpu_bitmap A' g' he
  · exact vcpu (fun v => { v with halted := true }) (fun _ => rfl) A' g' (he rfl)

theorem step_exit (hst : Steady Q) (hr : Running Q s)
    (hh : ∀ A g, Running Q ⟨A, g⟩ → A = s.guestMap → g = onExit id guest reason s.g →
      wp (handle (addrMapOps platform.mtrrs) id guest reason) (fun _ => Running Q) (fun _ => Running Q) ⟨A, g⟩)
    (next : abstractStep platform s (.exit id guest reason) = some t) : Running Q t :=
  step_exit_of hst hr (fun A g hr' map hg =>
    wp_mono (fun _ _ h => h) (fun _ _ h _ => h) (hh A g hr' map hg)) next

theorem step_construct (hc : ∀ {A g}, Q ⟨A, g⟩ → Q ⟨A, setVcpu id (some newVcpu) g⟩)
    (hd : ∀ {A g}, Q ⟨A, g⟩ → Q ⟨A, setVcpu id none g⟩)
    (hrm : ∀ {A g}, IsIdentity maxPhysAddr A → Q ⟨A, g⟩ →
      Q ⟨A.updated g.channelPaddr [.disable .read, .disable .write], g⟩)
    (hr : Running Q s) (next : abstractStep platform s (.construct id) = some t) : Running Q t := by
  obtain ⟨-, hrs⟩ := step_construct_some next
  obtain ⟨⟨A', g'⟩, he, rfl | rfl⟩ := resume_cases (Running.constructVcpu hc hrm s hr) hrs
  · exact he
  · exact ⟨he.epc, he.ept, he.identity, hd he.holds⟩

/-- The machine when the first vCPU has built the identity map. -/
def started (platform : Platform) (channel : Option Nat) (mem : GuestMem) (id : BitVec 64) : Machine AddrMap where
  guestMap := AddrMap.identity platform.mtrrs.ranges .readWriteExecute maxPhysAddr
  g := { locateEpc platform (setVcpu id (some newVcpu) (initialGlobals channel mem)) with
    flagEpc := true, flagEpt := true }

theorem construct_boot (platform : Platform) (channel : Option Nat) (mem : GuestMem) (id : BitVec 64) :
    constructVcpu (addrMapOps platform.mtrrs) platform id (bootAbstract channel mem) =
      removePermissionChannel (addrMapOps platform.mtrrs) (started platform channel mem id) :=
  rfl

/-- What is left to show of a closed property: that it survives the channel commands, the handlers which give
access back, and the one of ENCLS. -/
theorem handle_cases (closed : Closed Q)
    {A : AddrMap} {g : Globals} (hr : Running Q ⟨A, g⟩)
    (hrm : ∀ information page, reason = .externalInterrupt information → onEnclaveVcpu g id →
      g.channelMap = some page → channelCommand g.mem page = 'e' →
      wp (removePermissionGpuBuffers (addrMapOps mtrrs)) (fun _ => Running Q) (fun _ => Running Q) ⟨A, g⟩)
    (hre : ∀ information page, reason = .externalInterrupt information → onEnclaveVcpu g id →
      g.channelMap = some page → channelCommand g.mem page = 'm' →
      wp (registerBuffer (addrMapOps mtrrs) (channelBuffer g.mem page) (channelSize g.mem page) guest.cr3.toNat)
        (fun _ => Running Q) (fun _ => Running Q) ⟨A, g⟩)
    (hg : ∀ information page, reason = .externalInterrupt information → onEnclaveVcpu g id →
      g.channelMap = some page → channelCommand g.mem page = 'n' →
      Preserves (Running Q) (grantPermissionGpuBuffers (addrMapOps mtrrs)))
    (read : ∀ qual gva gpa, reason = .eptViolation qual gva gpa → isBitSet qual 0 = true →
      Preserves (Running Q) (eptReadViolationHandler (addrMapOps mtrrs) id gpa.toNat))
    (hw : ∀ qual gva gpa, reason = .eptViolation qual gva gpa → isBitSet qual 0 = false → isBitSet qual 1 = true →
      Preserves (Running Q) (eptWriteViolationHandler (addrMapOps mtrrs) id guest gpa.toNat))
    (hen : reason = .encls → Preserves (Running Q) (enclsHandler (addrMapOps mtrrs) id guest)) :
    wp (handle (addrMapOps mtrrs) id guest reason) (fun _ => Running Q) (fun _ => Running Q) ⟨A, g⟩ := by
  cases reason with
  | externalInterrupt information =>
    exact closed.externalInterruptHandler id guest _ hr fun he =>
      closed.readEnclaveChannel _ _ hr (fun page => hrm information page rfl he)
        (fun page => hre information page rfl he)
        fun page => hg information page rfl he
  | interruptWindow => exact closed.interruptWindowHandler id _ hr
  | eptViolation qual gva gpa =>
    exact Closed.eptViolationHandle id guest qual gpa.toNat (read qual gva gpa rfl) (hw qual gva gpa rfl) closed
      _ hr
  | encls => exact hen rfl _ hr
  | vmcall => exact closed.vmcallHandler guest _ hr
  | monitorTrap => exact closed.monitorTrapHandler id _ hr

/-- A property that survives all updates of the map is kept by every handler but that of ENCLS. -/
theorem handle_closed (closed : Closed Q)
    (noteGpu : ∀ {A g v e}, A v = some ⟨.pd, e⟩ → g.countGpuPaddrs < gpuPaddrNum → Q ⟨A, g⟩ → Q ⟨A, noteGpuPaddr v g⟩)
    (updates : ∀ {A g v changes}, IsIdentity maxPhysAddr A → Q ⟨A, g⟩ → Q ⟨A.updated v changes, g⟩)
    (id : BitVec 64) (guest : GuestState)
    (he : reason = .encls → Preserves (Running Q) (enclsHandler (addrMapOps mtrrs) id guest)) :
    Preserves (Running Q) (handle (addrMapOps mtrrs) id guest reason) := by
  have hu {v : Nat} {changes : List Change} (hg : Grants changes) :
      Preserves (Running Q) (onMap ((addrMapOps mtrrs).updateEntry v changes)) :=
    Running.grant hg fun _ _ hid hh => updates hid hh
  have channel : Preserves (Running Q) (grantPermissionChannel (addrMapOps mtrrs)) :=
    .bind Running.getG fun _ => hu .both
  rintro ⟨A, g⟩ hr
  refine handle_cases closed hr (fun _ _ _ _ _ _ => Running.changeGpuBuffers
      (fun _ => Running.remove fun _ _ hid hh => updates hid hh) _ hr)
    (fun _ page _ _ _ _ => ?_)
    (fun _ _ _ _ _ _ => Running.changeGpuBuffers fun _ => hu .both)
    (fun _ _ _ _ _ => closed.eptReadViolationHandler id _ fun _ _ hid hh => updates hid hh)
    (fun _ _ _ _ _ _ => closed.eptWriteViolationHandler id guest _ channel fun _ _ hid hh =>
      updates hid hh) he
  exact closed.registerBuffer _ _ _ hr fun _ _ => fun hl room hh => noteGpu hl room hh

/-- A property that survives all updates is kept by every handler. -/
theorem handle_running (closed : ClosedAll Q)
    (noteGpu : ∀ {A g v e}, A v = some ⟨.pd, e⟩ → g.countGpuPaddrs < gpuPaddrNum → Q ⟨A, g⟩ → Q ⟨A, noteGpuPaddr v g⟩)
    (updates : ∀ {A g v changes}, IsIdentity maxPhysAddr A → Q ⟨A, g⟩ → Q ⟨A.updated v changes, g⟩)
    (id : BitVec 64) (guest : GuestState) (reason : Reason) :
    Preserves (Running Q) (handle (addrMapOps mtrrs) id guest reason) :=
  handle_closed closed.toClosed noteGpu updates id guest fun _ => closed.enclsHandler id guest

/-- A step from the start or from a running machine leads to a running machine. -/
theorem step_running (closed : ClosedAll Q) {channel : Option Nat} {mem : GuestMem} {e : Event}
    (start : ∀ id, Q (started platform channel mem id))
    (exits : ∀ id guest reason, e = .exit id guest reason → Running Q s → Running Q t)
    (before : s = bootAbstract channel mem ∨ Running Q s)
    (next : abstractStep platform s e = some t) : Running Q t := by
  rcases before with rfl | running
  · cases e with
    | exit id guest reason =>
      obtain ⟨v, known, -⟩ := step_exit_some next
      cases known
    | construct id =>
      obtain ⟨-, resumed⟩ := step_construct_some next
      rw [construct_boot] at resumed
      have running : Running Q (started platform channel mem id) :=
        ⟨rfl, rfl, identity_isIdentity platform.mtrrs.contiguous (by decide), start id⟩
      obtain ⟨⟨A', g'⟩, ended, rfl | rfl⟩ := resume_cases (closed.removePermissionChannel _ running) resumed
      · exact ended
      · exact ⟨ended.epc, ended.ept, ended.identity, closed.delete id ended.holds⟩
  · cases e with
    | exit id guest reason => exact exits id guest reason rfl running
    | construct id =>
      exact step_construct (closed.create id) (closed.delete id) closed.removed running next

section Unrestricted

variable {channel : Option Nat} {mem : GuestMem} {es : List Event} (closed : ClosedAll Q)
  (noteGpu : ∀ {A g v e}, A v = some ⟨.pd, e⟩ → g.countGpuPaddrs < gpuPaddrNum → Q ⟨A, g⟩ →
      Q ⟨A, noteGpuPaddr v g⟩)
  (updates : ∀ {A g v changes}, IsIdentity maxPhysAddr A → Q ⟨A, g⟩ → Q ⟨A.updated v changes, g⟩)
  (start : ∀ id, Q (started platform channel mem id))

include closed noteGpu updates start

/-- The property survives everything, so each step keeps it. -/
theorem step_keeps {e : Event} (hbe : s = bootAbstract channel mem ∨ Running Q s)
    (next : abstractStep platform s e = some t) : Running Q t := by
  refine step_running closed start (fun id guest reason exit hr => ?_) hbe next
  subst exit
  exact step_exit closed.toSteady hr (fun A g ha _ _ => handle_running closed noteGpu updates id guest reason _ ha) next

theorem run_running (hre : run (abstractStep platform) (bootAbstract channel mem) es = some t) :
    t = bootAbstract channel mem ∨ Running Q t :=
  run_preserves (I := fun s => s = bootAbstract channel mem ∨ Running Q s)
    (fun _ _ _ hbe next => .inr (step_keeps closed noteGpu updates start hbe next)) (.inl rfl) hre

end Unrestricted

end Steps

end Gevisor.Vmm
