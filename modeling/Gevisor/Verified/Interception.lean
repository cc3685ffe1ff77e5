import Gevisor.Vmexit.Intercept

/-! # Interception and the upper halves of registers

CPUID, RDMSR and WRMSR use the low halves of `rax` and `rcx` only. The handlers look delegates up by the
whole register, so two guest states that the instructions cannot tell apart may be handled differently.
-/

namespace Gevisor.Verified.Interception

open Gevisor.Vmexit

variable {δ κ ρ : Type}

/-! ## Low halves -/

theorem lowMask_getLsbD (i : Nat) : lowMask.getLsbD i = decide (i < 32) := by
  change (BitVec.ofNat 64 (2 ^ 32 - 1)).getLsbD i = _
  rw [BitVec.getLsbD_ofNat, Nat.testBit_two_pow_sub_one]
  by_cases hs : i < 32
  · simp [hs, show i < 64 by omega]
  · simp [hs]

theorem narrow_setBits (t v : BitVec 64) : narrow (setBits t lowMask v) = narrow v := by
  ext i hs
  simp [narrow, setBits, lowMask_getLsbD, hs]

theorem and_lowMask (x : BitVec 64) : x &&& lowMask = (narrow x).setWidth 64 := by
  apply BitVec.eq_of_getLsbD_eq
  intro i hs
  simp only [narrow, BitVec.getLsbD_and, BitVec.getLsbD_setWidth, lowMask_getLsbD, hs, decide_true,
    Bool.true_and, Bool.and_comm]

/-- Two vCPUs that differ at most in the upper halves of the four registers. -/
structure Agree (v w : Vmcs) : Prop where
  rax : narrow v.saveState.rax = narrow w.saveState.rax
  rbx : narrow v.saveState.rbx = narrow w.saveState.rbx
  rcx : narrow v.saveState.rcx = narrow w.saveState.rcx
  rdx : narrow v.saveState.rdx = narrow w.saveState.rdx
  rip : v.saveState.rip = w.saveState.rip
  guest : v.guest = w.guest
  exitInstructionLength : v.exitInstructionLength = w.exitInstructionLength
  wrmsrs : v.wrmsrs = w.wrmsrs

variable {v w : Vmcs} {call : κ → Delegate ρ} {m n : Machine δ} {write : ρ → Vmcs → Vmcs}

theorem Agree.symm (hag : Agree v w) : Agree w v where
  rax := hag.rax.symm
  rbx := hag.rbx.symm
  rcx := hag.rcx.symm
  rdx := hag.rdx.symm
  rip := hag.rip.symm
  guest := hag.guest.symm
  exitInstructionLength := hag.exitInstructionLength.symm
  wrmsrs := hag.wrmsrs.symm

/-- A delegate that sees the registers as the instruction does. -/
def Respects (d : Delegate ρ) : Prop :=
  ∀ v w info, Agree v w →
    (d v info).1 = (d w info).1 ∧ (d v info).2.1 = (d w info).2.1 ∧ Agree (d v info).2.2 (d w info).2.2

/-- An environment whose delegates do not themselves look at upper halves, and leave `rax` alone when they
pass a CPUID on, so that a difference between two runs is due to the hypervisor's code. -/
structure LowEnv (δ : Type) extends Env δ where
  cpuid_declines : ∀ d v info, (cpuid d v info).1 = false → (cpuid d v info).2.2.saveState.rax = v.saveState.rax
  cpuid_respects : ∀ d, Respects (cpuid d)
  rdmsr_respects : ∀ d, Respects (rdmsr d)
  wrmsr_respects : ∀ d, Respects (wrmsr d)
  init_respects : ∀ d ∈ initHandlers, ∀ v w, Agree v w → Agree (d v) (d w)
  fini_respects : ∀ d ∈ finiHandlers, ∀ v w, Agree v w → Agree (d v) (d w)

/-- Two machines that called the same handlers and agree. -/
structure Matches (m n : Machine δ) : Prop where
  vmcs : Agree m.vmcs n.vmcs
  called : m.called = n.called

/-- Two exits ended the same way: the same handlers ran, with the same low halves and the same MSR
writes. -/
structure SameHandling (r s : Ending × Machine δ) : Prop where
  ending : r.1 = s.1
  machine : Matches r.2 s.2

theorem SameHandling.symm {r s : Ending × Machine δ} (same : SameHandling r s) : SameHandling s r :=
  ⟨same.ending.symm, same.machine.vmcs.symm, same.machine.called.symm⟩

/-! ## What the instructions do to agreeing states -/

theorem cpuidOf_eq (cpu : Processor) (hag : Agree v w) : cpu.cpuidOf v.saveState = cpu.cpuidOf w.saveState := by
  simp only [Processor.cpuidOf, hag.rax, hag.rbx, hag.rcx, hag.rdx]

theorem wrmsrValue_eq (hag : Agree v w) : wrmsrValue v.saveState = wrmsrValue w.saveState := by
  simp only [wrmsrValue, and_lowMask, hag.rax, hag.rdx]

theorem emulateRdmsr_eq (cpu : Processor) (msr : BitVec 32) (hag : Agree v w) :
    emulateRdmsr cpu msr v = emulateRdmsr cpu msr w := by
  simp only [emulateRdmsr, hag.guest, hag.wrmsrs]

theorem advance_agree (agree : Agree v w) : Agree (advance v) (advance w) :=
  { agree with rip := by simp only [advance, agree.rip, agree.exitInstructionLength] }

theorem putMsr_agree (val : BitVec 64) (agree : Agree v w) : Agree (putMsr val v) (putMsr val w) :=
  { agree with rax := rfl, rdx := rfl }

theorem putCpuid_agree (r : CpuidRegs) (hag : Agree v w) : Agree (putCpuid r v) (putCpuid r w) :=
  { hag with
    rax := by simp only [putCpuid, narrow_setBits]
    rbx := by simp only [putCpuid, narrow_setBits]
    rcx := by simp only [putCpuid, narrow_setBits]
    rdx := by simp only [putCpuid, narrow_setBits] }

theorem setGuest_agree (field : GuestField) (val : BitVec 64) (agree : Agree v w) :
    Agree (v.setGuest field val) (w.setGuest field val) :=
  { agree with guest := by simp only [Vmcs.setGuest, agree.guest] }

theorem emulateWrmsr_agree (cpu : Processor) (msr : BitVec 32) (val : BitVec 64)
    (agree : Agree v w) : Agree (emulateWrmsr cpu msr val v) (emulateWrmsr cpu msr val w) := by
  unfold emulateWrmsr
  split
  · split
    · exact setGuest_agree _ _ agree
    · exact agree
  · exact setGuest_agree _ _ agree
  · exact { agree with wrmsrs := by simp only [agree.wrmsrs] }

theorem foldl_agree {ds : List (Vmcs → Vmcs)} (hr : ∀ d ∈ ds, ∀ v w, Agree v w → Agree (d v) (d w))
    (hag : Agree v w) : Agree (ds.foldl (fun v d => d v) v) (ds.foldl (fun v d => d v) w) := by
  induction ds generalizing v w with
  | nil => exact hag
  | cons d ds ih =>
    simp only [List.forall_mem_cons] at hr
    exact ih hr.2 (hr.1 v w hag)

/-! ## Runs of agreeing states -/

variable (env : LowEnv δ) (added : Registrations δ)

theorem callCpuid_respects (d : CpuidDelegate δ) : Respects (callCpuid env.toEnv d) := by
  cases d with
  | featureInformation => exact fun _ _ _ hag => ⟨rfl, rfl, hag⟩
  | added d => exact env.cpuid_respects d

theorem runDelegates_matches (name : κ → Called δ) (hr : ∀ d, Respects (call d))
    (ds : List κ) (info : Info ρ) (same : Matches m n) :
    (runDelegates name call ds info m).1 = (runDelegates name call ds info n).1 ∧
      Matches (runDelegates name call ds info m).2 (runDelegates name call ds info n).2 := by
  induction ds generalizing info m n with
  | nil => exact ⟨rfl, same⟩
  | cons d ds ih =>
    obtain ⟨ha, hre, hag⟩ := hr d m.vmcs n.vmcs info same.vmcs
    simp only [runDelegates, ha, hre, same.called]
    split
    · exact ⟨rfl, hag, rfl⟩
    · exact ih _ ⟨hag, rfl⟩

theorem complete_agree (hr : ∀ r v w, Agree v w → Agree (write r v) (write r w))
    (info : Info ρ) (hag : Agree v w) : Agree (complete write info v) (complete write info w) := by
  have hwr : Agree (if info.ignoreWrite then v else write info.regs v)
      (if info.ignoreWrite then w else write info.regs w) := by
    split
    · exact hag
    · exact hr _ _ _ hag
  simp only [complete]
  split
  · exact hwr
  · exact advance_agree hwr

/-- The delegates a handler runs for a key. -/
def delegatesAt (handlers : HandlerMap κ) (key : BitVec 64) : List κ := (handlers key).getD []

/-- A key without an entry is handled as one with an empty list. -/
theorem intercept_eq (handlers : HandlerMap κ) (name : κ → Called δ) (call : κ → Delegate ρ)
    (key : SaveState → BitVec 64) (regs : Vmcs → ρ) (write : ρ → Vmcs → Vmcs) (m : Machine δ) :
    intercept handlers name call key regs write m =
      match runDelegates name call (delegatesAt handlers (key m.vmcs.saveState)) ⟨regs m.vmcs, false, false⟩ m with
      | (some info, m) => (.accepted, { m with vmcs := complete write info m.vmcs })
      | (none, m) => (.declined, m) := by
  unfold intercept delegatesAt
  cases handlers (key m.vmcs.saveState) <;> rfl

theorem intercept_matches {handlers : HandlerMap κ} {name : κ → Called δ} {key : SaveState → BitVec 64}
    {regs : Vmcs → ρ} (calls : ∀ d, Respects (call d))
    (writes : ∀ r v w, Agree v w → Agree (write r v) (write r w)) (same : Matches m n)
    (found : delegatesAt handlers (key m.vmcs.saveState) = delegatesAt handlers (key n.vmcs.saveState))
    (given : delegatesAt handlers (key n.vmcs.saveState) = [] ∨ regs m.vmcs = regs n.vmcs) :
    (intercept handlers name call key regs write m).1 = (intercept handlers name call key regs write n).1 ∧
      Matches (intercept handlers name call key regs write m).2 (intercept handlers name call key regs write n).2 := by
  rw [intercept_eq, intercept_eq, found]
  rcases given with none | given
  · rw [none]
    exact ⟨rfl, same⟩
  · rw [given]
    obtain ⟨answer, ran⟩ := runDelegates_matches name calls
      (delegatesAt handlers (key n.vmcs.saveState)) ⟨regs n.vmcs, false, false⟩ same
    generalize runDelegates name call _ _ m = r at answer ran
    generalize runDelegates name call _ _ n = s at answer ran
    obtain ⟨r, m'⟩ := r
    obtain ⟨s, n'⟩ := s
    subst answer
    cases r with
    | none => exact ⟨rfl, ran⟩
    | some info => exact ⟨rfl, complete_agree writes info ran.vmcs, ran.called⟩

/-- Two exit handlers that treat two machines alike. -/
def Alike (d : ExitHandler δ) (m n : Machine δ) : Prop := (d m).1 = (d n).1 ∧ Matches (d m).2 (d n).2

theorem handle_cons_same {d : ExitHandler δ} {ds : List (ExitHandler δ)} (first : Alike d m n)
    (rest : (d m).1 = .declined → SameHandling (handle ds (d m).2) (handle ds (d n).2)) :
    SameHandling (handle (d :: ds) m) (handle (d :: ds) n) := by
  obtain ⟨hv, same⟩ := first
  simp only [handle]
  generalize d m = r at hv same rest
  generalize d n = s at hv same rest
  obtain ⟨r, m'⟩ := r
  obtain ⟨s, n'⟩ := s
  subst hv
  cases r with
  | accepted => exact ⟨rfl, same⟩
  | promoted => exact ⟨rfl, same⟩
  | declined => exact rest rfl

theorem runDelegates_rax (name : κ → Called δ)
    (hde : ∀ d v info, (call d v info).1 = false → (call d v info).2.2.saveState.rax = v.saveState.rax)
    (ds : List κ) (info : Info ρ) (m : Machine δ) (none : (runDelegates name call ds info m).1 = none) :
    (runDelegates name call ds info m).2.vmcs.saveState.rax = m.vmcs.saveState.rax := by
  induction ds generalizing info m with
  | nil => rfl
  | cons d ds ih =>
    simp only [runDelegates] at none ⊢
    split at none
    · cases none
    · next hd =>
      rw [if_neg hd, ih _ _ none]
      exact hde d m.vmcs info (by simpa using hd)

theorem cpuidHandle_declined (m : Machine δ)
    (hd : (cpuidHandle env.toEnv added m).1 = .declined) :
    (cpuidHandle env.toEnv added m).2.vmcs.saveState.rax = m.vmcs.saveState.rax := by
  have kept : ∀ d v info, (callCpuid env.toEnv d v info).1 = false →
      (callCpuid env.toEnv d v info).2.2.saveState.rax = v.saveState.rax := by
    intro d v info ha
    cases d with
    | featureInformation => cases ha
    | added d => exact env.cpuid_declines d v info ha
  simp only [cpuidHandle, intercept_eq] at hd ⊢
  have rax := runDelegates_rax CpuidDelegate.called kept (delegatesAt (cpuidHandlers added.cpuid) m.vmcs.saveState.rax)
    ⟨env.cpu.cpuidOf m.vmcs.saveState, false, false⟩ m
  generalize runDelegates _ _ _ _ m = r at rax hd ⊢
  obtain ⟨r, m'⟩ := r
  cases r with
  | none => exact rax rfl
  | some info => cases hd

/-! ## The base handlers -/

theorem handleCpuid_alike (hag : Agree v w)
    (leaf : driverLeaf v.saveState.rax = driverLeaf w.saveState.rax) :
    (handleCpuid env.toEnv v).1 = (handleCpuid env.toEnv w).1 ∧
      Agree (handleCpuid env.toEnv v).2 (handleCpuid env.toEnv w).2 := by
  simp only [handleCpuid, leaf]
  cases driverLeaf w.saveState.rax with
  | none =>
    rw [cpuidOf_eq env.cpu hag]
    exact ⟨rfl, advance_agree { hag with rax := rfl, rbx := rfl, rcx := rfl, rdx := rfl }⟩
  | some leaf =>
    cases leaf with
    | init => exact ⟨rfl, advance_agree (foldl_agree env.init_respects hag)⟩
    | fini => exact ⟨rfl, advance_agree (foldl_agree env.fini_respects hag)⟩
    | inVm => exact ⟨rfl, advance_agree hag⟩
    | leaveVm => exact ⟨rfl, hag⟩

theorem handleRdmsr_agree (env : Env δ) (hag : Agree v w) : Agree (handleRdmsr env v).2 (handleRdmsr env w).2 := by
  simp only [handleRdmsr, hag.rcx, emulateRdmsr_eq _ _ hag]
  exact advance_agree (putMsr_agree _ hag)

theorem handleWrmsr_agree (env : Env δ) (hag : Agree v w) : Agree (handleWrmsr env v).2 (handleWrmsr env w).2 := by
  simp only [handleWrmsr, hag.rcx, wrmsrValue_eq hag]
  exact advance_agree (emulateWrmsr_agree _ _ _ hag)

/-- How an exit ends when no handler is left after this verdict. -/
def ending : Verdict → Ending
  | .accepted => .resumed
  | .promoted => .promoted
  | .declined => .halted

theorem handle_base (handler : Vmcs → Verdict × Vmcs) (m : Machine δ) : handle [base handler] m =
      (ending (handler m.vmcs).1, ⟨(handler m.vmcs).2, m.called ++ [.base]⟩) := by
  simp only [handle, base]
  generalize handler m.vmcs = r
  obtain ⟨verdict, v⟩ := r
  cases verdict <;> rfl

theorem base_same {handler : Vmcs → Verdict × Vmcs} (same : Matches m n)
    (hv : (handler m.vmcs).1 = (handler n.vmcs).1) (hag : Agree (handler m.vmcs).2 (handler n.vmcs).2) :
    SameHandling (handle [base handler] m) (handle [base handler] n) := by
  rw [handle_base, handle_base]
  exact ⟨congrArg ending hv, hag, by simp only [same.called]⟩

/-! ## The delegates registered for a key -/

/-- The delegates added under a key, newest first. -/
def addedAt (calls : List (BitVec 64 × δ)) (key : BitVec 64) : List δ :=
  ((calls.filter (fun call => call.1 = key)).map Prod.snd).reverse

theorem addHandlers_at (m : HandlerMap κ) (calls : List (BitVec 64 × κ)) (key : BitVec 64) :
    delegatesAt (m.addHandlers calls) key = addedAt calls key ++ delegatesAt m key := by
  induction calls generalizing m with
  | nil => rfl
  | cons call calls ih =>
    have step := ih (m.addHandler call.1 call.2)
    simp only [HandlerMap.addHandlers, List.foldl_cons] at step ⊢
    rw [step]
    by_cases hit : call.1 = key
    · subst hit
      simp [delegatesAt, HandlerMap.addHandler, addedAt]
    · simp [delegatesAt, HandlerMap.addHandler, addedAt, hit, Function.update_of_ne (Ne.symm hit)]

theorem msrHandlers_at (calls : List (BitVec 64 × δ)) (key : BitVec 64) :
    delegatesAt (msrHandlers calls) key = addedAt calls key := by
  rw [msrHandlers, addHandlers_at]
  exact List.append_nil _

/-- The constructor's delegate was added first, so it comes last. -/
theorem cpuidHandlers_at (calls : List (BitVec 64 × δ)) (key : BitVec 64) : delegatesAt (cpuidHandlers calls) key =
      (addedAt calls key).map .added ++ if key = featureInformationAddr then [.featureInformation] else [] := by
  rw [cpuidHandlers, addHandlers_at]
  congr 1
  · simp only [addedAt, List.filter_map, List.map_map, List.map_reverse]
    rfl
  · by_cases leaf : key = featureInformationAddr
    · subst leaf
      simp [delegatesAt, HandlerMap.addHandler]
    · simp [delegatesAt, HandlerMap.addHandler, leaf]

/-! ## The exact condition -/

/-- When the upper halves make no difference. The two MSR handlers hand `rcx` to their delegates whole,
so with a delegate registered for either value the two must be equal. -/
def Unaffected (added : Registrations δ) : Exit → Vmcs → Vmcs → Prop
  | .cpuid, v, w =>
    addedAt added.cpuid v.saveState.rax = addedAt added.cpuid w.saveState.rax ∧
      (v.saveState.rax = featureInformationAddr ↔ w.saveState.rax = featureInformationAddr) ∧
      driverLeaf v.saveState.rax = driverLeaf w.saveState.rax
  | .rdmsr, v, w =>
    v.saveState.rcx = w.saveState.rcx ∨
      addedAt added.rdmsr v.saveState.rcx = [] ∧ addedAt added.rdmsr w.saveState.rcx = []
  | .wrmsr, v, w =>
    v.saveState.rcx = w.saveState.rcx ∨
      addedAt added.wrmsr v.saveState.rcx = [] ∧ addedAt added.wrmsr w.saveState.rcx = []

theorem cpuid_same (hag : Agree v w) (hu : Unaffected added .cpuid v w) :
    SameHandling (handleExit env.toEnv added .cpuid v) (handleExit env.toEnv added .cpuid w) := by
  obtain ⟨hs, hsa, hsm⟩ := hu
  have hf : delegatesAt (cpuidHandlers added.cpuid) v.saveState.rax =
      delegatesAt (cpuidHandlers added.cpuid) w.saveState.rax := by
    rw [cpuidHandlers_at, cpuidHandlers_at, hs]
    simp only [hsa]
  have first : Alike (cpuidHandle env.toEnv added) ⟨v, []⟩ ⟨w, []⟩ :=
    intercept_matches (callCpuid_respects env) (fun r _ _ => putCpuid_agree r) ⟨hag, rfl⟩ hf
      (.inr (cpuidOf_eq env.cpu hag))
  apply handle_cons_same first
  intro hd
  -- The delegates left `rax` alone, so the base handler compares what the guest put there.
  have leaf : driverLeaf (cpuidHandle env.toEnv added ⟨v, []⟩).2.vmcs.saveState.rax =
      driverLeaf (cpuidHandle env.toEnv added ⟨w, []⟩).2.vmcs.saveState.rax := by
    rw [cpuidHandle_declined env added _ hd, cpuidHandle_declined env added _ (first.1 ▸ hd)]
    exact hsm
  obtain ⟨hv, hag⟩ := handleCpuid_alike env first.2.vmcs leaf
  exact base_same first.2 hv hag

/-- Of two MSR accesses, either both find the same delegates or neither finds any. -/
theorem addedAt_same {calls : List (BitVec 64 × δ)} (hu : v.saveState.rcx = w.saveState.rcx ∨
      addedAt calls v.saveState.rcx = [] ∧ addedAt calls w.saveState.rcx = []) :
    delegatesAt (msrHandlers calls) v.saveState.rcx = delegatesAt (msrHandlers calls) w.saveState.rcx ∧
      (delegatesAt (msrHandlers calls) w.saveState.rcx = [] ∨ v.saveState.rcx = w.saveState.rcx) := by
  rcases hu with he | ⟨hn, hno⟩
  · exact ⟨by rw [he], .inr he⟩
  · simp only [msrHandlers_at, hn, hno, true_or, and_self]

theorem rdmsr_same (hag : Agree v w) (hu : Unaffected added .rdmsr v w) :
    SameHandling (handleExit env.toEnv added .rdmsr v) (handleExit env.toEnv added .rdmsr w) := by
  obtain ⟨hf, hgi⟩ := addedAt_same hu
  have first : Alike (rdmsrHandle env.toEnv added) ⟨v, []⟩ ⟨w, []⟩ :=
    intercept_matches env.rdmsr_respects (fun info _ _ => putMsr_agree info.val) ⟨hag, rfl⟩ hf
      (hgi.imp id (fun heq => by simp only [heq, emulateRdmsr_eq _ _ hag]))
  exact handle_cons_same first (fun _ => base_same first.2 rfl (handleRdmsr_agree env.toEnv first.2.vmcs))

theorem wrmsr_same (hag : Agree v w) (hu : Unaffected added .wrmsr v w) :
    SameHandling (handleExit env.toEnv added .wrmsr v) (handleExit env.toEnv added .wrmsr w) := by
  obtain ⟨hf, hgi⟩ := addedAt_same hu
  have first : Alike (wrmsrHandle env.toEnv added) ⟨v, []⟩ ⟨w, []⟩ :=
    intercept_matches env.wrmsr_respects (fun info _ _ => emulateWrmsr_agree env.cpu (narrow info.msr) info.val)
      ⟨hag, rfl⟩ hf (hgi.imp id (fun heq => by simp only [heq, wrmsrValue_eq hag]))
  exact handle_cons_same first (fun _ => base_same first.2 rfl (handleWrmsr_agree env.toEnv first.2.vmcs))

/-! ## Delegates that tell two states apart -/

def acceptMsr (msr : BitVec 64) : Delegate MsrInfo := fun v info => (info.regs.msr == msr, info, v)

/-- CPUID delegates that only watch, and MSR delegates that accept accesses to one `rcx`. -/
def watching (δ : Type) (cpu : Processor) (msr : BitVec 64) : LowEnv δ where
  cpu := cpu
  cpuid _ v info := (false, info, v)
  rdmsr _ := acceptMsr msr
  wrmsr _ := acceptMsr msr
  initHandlers := []
  finiHandlers := []
  cpuid_declines _ _ _ _ := rfl
  cpuid_respects _ _ _ _ agree := ⟨rfl, rfl, agree⟩
  rdmsr_respects _ _ _ _ agree := ⟨rfl, rfl, agree⟩
  wrmsr_respects _ _ _ _ agree := ⟨rfl, rfl, agree⟩
  init_respects := by simp
  fini_respects := by simp

theorem runDelegates_watched (name : κ → Called δ) {info : Info ρ}
    {ds : List κ} (hd : ∀ d ∈ ds, call d v info = (false, info, v)) (rest : List κ)
    (called : List (Called δ)) :
    runDelegates name call (ds ++ rest) info ⟨v, called⟩ =
      runDelegates name call rest info ⟨v, called ++ ds.map name⟩ := by
  induction ds generalizing called with
  | nil => simp
  | cons d ds ih =>
    simp only [List.forall_mem_cons] at hd
    simp only [List.cons_append, runDelegates, hd.1, Bool.false_eq_true, if_false]
    rw [ih hd.2]
    simp

section Msr

variable {calls : List (BitVec 64 × δ)} {regs : Vmcs → MsrInfo} {write : MsrInfo → Vmcs → Vmcs}
  {handler : Vmcs → Verdict × Vmcs}

/-- The exit handlers of RDMSR and WRMSR when every delegate accepts `msr` only. -/
def accepting (calls : List (BitVec 64 × δ)) (regs : Vmcs → MsrInfo) (write : MsrInfo → Vmcs → Vmcs)
    (msr : BitVec 64) : ExitHandler δ :=
  intercept (msrHandlers calls) Called.added (fun _ => acceptMsr msr) SaveState.rcx regs write

theorem accepting_called_miss {v : Vmcs} {msr : BitVec 64} (hgi : (regs v).msr = v.saveState.rcx)
    (miss : addedAt calls v.saveState.rcx = [] ∨ v.saveState.rcx ≠ msr) :
    (handle [accepting calls regs write msr, base handler] ⟨v, []⟩).2.called =
      (addedAt calls v.saveState.rcx).map .added ++ [.base] := by
  have hde : ∀ d ∈ addedAt calls v.saveState.rcx, acceptMsr msr v ⟨regs v, false, false⟩ =
      (false, ⟨regs v, false, false⟩, v) := by
    intro d hm
    have miss := miss.resolve_left (List.ne_nil_of_mem hm)
    simp [acceptMsr, hgi, miss]
  have hd : accepting calls regs write msr ⟨v, []⟩ = (.declined, ⟨v, (addedAt calls v.saveState.rcx).map .added⟩) := by
    have ran := runDelegates_watched Called.added hde [] []
    rw [List.append_nil] at ran
    simp only [accepting, intercept_eq, msrHandlers_at, ran, runDelegates, List.nil_append]
  rw [handle, hd]
  simp only [handle_base]

theorem accepting_called_hit {v : Vmcs} (hgi : (regs v).msr = v.saveState.rcx) {d : δ} {ds : List δ}
    (added : addedAt calls v.saveState.rcx = d :: ds) :
    (handle [accepting calls regs write v.saveState.rcx, base handler] ⟨v, []⟩).2.called = [.added d] := by
  simp [handle, accepting, intercept_eq, msrHandlers_at, added, runDelegates, acceptMsr, hgi]

theorem addedAt_nil_of_same {v w : Vmcs} (hg : (regs v).msr = v.saveState.rcx)
    (hgi : (regs w).msr = w.saveState.rcx) (hd : w.saveState.rcx ≠ v.saveState.rcx)
    (same : SameHandling (handle [accepting calls regs write v.saveState.rcx, base handler] ⟨v, []⟩)
      (handle [accepting calls regs write v.saveState.rcx, base handler] ⟨w, []⟩)) :
    addedAt calls v.saveState.rcx = [] ∧ addedAt calls w.saveState.rcx = [] := by
  have hc := same.machine.called
  rw [accepting_called_miss hgi (.inr hd)] at hc
  cases added : addedAt calls v.saveState.rcx with
  | nil =>
    rw [accepting_called_miss hg (.inl added), added] at hc
    simpa using hc
  | cons d ds =>
    rw [accepting_called_hit hg added] at hc
    cases ho : addedAt calls w.saveState.rcx <;> simp [ho] at hc

end Msr

section Cpuid

variable (cpu : Processor) (msr : BitVec 64) (added : Registrations δ)

theorem watching_runs (v : Vmcs) (rest : List (CpuidDelegate δ)) (info : Info CpuidRegs) :
    runDelegates CpuidDelegate.called (callCpuid (watching δ cpu msr).toEnv)
        ((addedAt added.cpuid v.saveState.rax).map .added ++ rest) info ⟨v, []⟩ =
      runDelegates CpuidDelegate.called (callCpuid (watching δ cpu msr).toEnv) rest info
        ⟨v, (addedAt added.cpuid v.saveState.rax).map .added⟩ := by
  rw [runDelegates_watched]
  · simp only [List.nil_append, List.map_map]
    rfl
  · intro d hm
    obtain ⟨d, _, rfl⟩ := List.mem_map.mp hm
    rfl

variable {v w : Vmcs} {leaf : DriverLeaf}

theorem watching_feature (leaf : v.saveState.rax = featureInformationAddr) :
    (handleExit (watching δ cpu msr).toEnv added .cpuid v).2.called =
      (addedAt added.cpuid v.saveState.rax).map .added ++ [.featureInformation] := by
  have hf := cpuidHandlers_at added.cpuid v.saveState.rax
  rw [if_pos leaf] at hf
  simp only [handleExit, exitHandlers, handle, cpuidHandle, intercept_eq, hf, watching_runs]
  rfl

theorem watching_base (leaf : v.saveState.rax ≠ featureInformationAddr) :
    handleExit (watching δ cpu msr).toEnv added .cpuid v =
      (ending (handleCpuid (watching δ cpu msr).toEnv v).1, ⟨(handleCpuid (watching δ cpu msr).toEnv v).2,
        (addedAt added.cpuid v.saveState.rax).map .added ++ [.base]⟩) := by
  have hf := cpuidHandlers_at added.cpuid v.saveState.rax
  rw [if_neg leaf] at hf
  have hd : cpuidHandle (watching δ cpu msr).toEnv added ⟨v, []⟩ =
      (.declined, ⟨v, (addedAt added.cpuid v.saveState.rax).map .added⟩) := by
    simp only [cpuidHandle, intercept_eq, hf, watching_runs, runDelegates]
  simp only [handleExit, exitHandlers]
  rw [handle, hd]
  simp only [handle_base]

/-- The last call tells whether the constructor's delegate was reached. -/
theorem watching_called (v : Vmcs) : (handleExit (watching δ cpu msr).toEnv added .cpuid v).2.called =
      (addedAt added.cpuid v.saveState.rax).map .added ++
        [if v.saveState.rax = featureInformationAddr then .featureInformation else .base] := by
  by_cases leaf : v.saveState.rax = featureInformationAddr
  · rw [watching_feature cpu msr added leaf, if_pos leaf]
  · rw [watching_base cpu msr added leaf, if_neg leaf]

/-- A processor whose CPUID changes `eax`. -/
def countingCpu : Processor where
  cpuid eax ebx ecx edx := (eax + 1, ebx, ecx, edx)
  rdmsr _ _ := 0
  perfGlobalCtrlExists := false

/-- The `rax` of a driver leaf. -/
def leafRax : DriverLeaf → BitVec 64
  | .init => 0xBF10
  | .fini => 0xBF20
  | .inVm => 0xBF11
  | .leaveVm => 0xBF21

theorem eq_leafRax {rax : BitVec 64} (hd : driverLeaf rax = some leaf) : rax = leafRax leaf := by
  unfold driverLeaf at hd
  repeat' split at hd
  all_goals cases hd <;> assumption

theorem leafRax_narrow_inj : ∀ leaf leaf' : DriverLeaf, narrow (leafRax leaf) = narrow (leafRax leaf') →
    leaf = leaf' := by
  intro leaf leaf'
  cases leaf <;> cases leaf' <;> decide

theorem narrow_leafRax_ne (leaf : DriverLeaf) : narrow (leafRax leaf) ≠ narrow featureInformationAddr := by
  cases leaf <;> decide

/-- A driver leaf is not treated like a plain CPUID: it leaves the registers alone, or does not return. -/
theorem handleCpuid_leaf_differs (hag : Agree v w)
    (hd : driverLeaf v.saveState.rax = some leaf) (hp : driverLeaf w.saveState.rax = none) :
    (handleCpuid (watching δ countingCpu msr).toEnv v).1 ≠ (handleCpuid (watching δ countingCpu msr).toEnv w).1 ∨
      ¬ Agree (handleCpuid (watching δ countingCpu msr).toEnv v).2
        (handleCpuid (watching δ countingCpu msr).toEnv w).2 := by
  have rax : narrow (handleCpuid (watching δ countingCpu msr).toEnv w).2.saveState.rax =
      narrow v.saveState.rax + 1 := by
    simp only [handleCpuid, hp, hag.rax]
    simp [advance, loadCpuid, watching, Processor.cpuidOf, Processor.cpuidGet, countingCpu, narrow]
  have hm : narrow v.saveState.rax ≠ narrow v.saveState.rax + 1 := by
    rw [eq_leafRax hd]
    cases leaf <;> decide
  cases leaf with
  | leaveVm =>
    left
    simp only [handleCpuid, hd, hp]
    decide
  | init | fini | inVm =>
    right
    intro same
    have low := same.rax
    rw [rax] at low
    simp only [handleCpuid, hd] at low
    exact hm low

theorem driverLeaf_of_same {v w : Vmcs} {leaf : DriverLeaf} (hag : Agree v w)
    (driver : driverLeaf v.saveState.rax = some leaf)
    (same : SameHandling (handleExit (watching δ countingCpu msr).toEnv added .cpuid v)
      (handleExit (watching δ countingCpu msr).toEnv added .cpuid w)) :
    driverLeaf w.saveState.rax = some leaf := by
  have raxV := eq_leafRax driver
  have leafV : v.saveState.rax ≠ featureInformationAddr := fun feature =>
    narrow_leafRax_ne leaf (by rw [← raxV, feature])
  have leafW : w.saveState.rax ≠ featureInformationAddr := fun feature =>
    narrow_leafRax_ne leaf (by rw [← raxV, hag.rax, feature])
  rw [watching_base _ _ _ leafV, watching_base _ _ _ leafW] at same
  cases ho : driverLeaf w.saveState.rax with
  | some leaf' =>
    have heq := leafRax_narrow_inj leaf leaf' (by rw [← raxV, ← eq_leafRax ho, hag.rax])
    rw [heq]
  | none =>
    rcases handleCpuid_leaf_differs msr hag driver ho with verdict | registers
    · -- Only `promoted` and `accepted` occur, and they end differently.
      have ends := same.ending
      simp only [handleCpuid, driver, ho] at ends verdict
      cases leaf <;> simp_all [ending]
    · exact absurd same.machine.vmcs registers

theorem cpuid_unaffected (hag : Agree v w)
    (same : SameHandling (handleExit (watching δ countingCpu msr).toEnv added .cpuid v)
      (handleExit (watching δ countingCpu msr).toEnv added .cpuid w)) : Unaffected added .cpuid v w := by
  have hc := same.machine.called
  rw [watching_called, watching_called] at hc
  obtain ⟨hf, last⟩ := List.append_inj' hc rfl
  refine ⟨(List.map_inj_right (fun _ _ => Called.added.inj)).mp hf, ?_, ?_⟩
  · by_cases hl : v.saveState.rax = featureInformationAddr <;>
      by_cases hle : w.saveState.rax = featureInformationAddr <;> simp_all
  · cases hd : driverLeaf v.saveState.rax with
    | some leaf => exact (driverLeaf_of_same msr added hag hd same).symm
    | none =>
      cases ho : driverLeaf w.saveState.rax with
      | none => rfl
      | some leaf =>
        have hrc := driverLeaf_of_same msr added hag.symm ho same.symm
        rw [hd] at hrc
        cases hrc

end Cpuid

/-! ## The VMX bit -/

/-- A processor that reports every feature. -/
def fullCpu : Processor where
  cpuid _ _ _ _ := (0xFFFFFFFF, 0xFFFFFFFF, 0xFFFFFFFF, 0xFFFFFFFF)
  rdmsr _ _ := 0
  perfGlobalCtrlExists := false

theorem clearBit_getLsbD (x : BitVec 64) : (clearBit x vmxFrom).getLsbD vmxFrom = false := by
  simp [clearBit, vmxFrom]

theorem vmx_hidden (env : Env δ) {added : Registrations δ} (ha : added.cpuid = [])
    (leaf : v.saveState.rax = featureInformationAddr) :
    (handleExit env added .cpuid v).2.vmcs.saveState.rcx.getLsbD vmxFrom = false := by
  have hf : delegatesAt (cpuidHandlers added.cpuid) v.saveState.rax = [.featureInformation] := by
    rw [cpuidHandlers_at, ha, if_pos leaf]
    rfl
  simp only [handleExit, exitHandlers, handle, cpuidHandle, intercept_eq, hf, runDelegates, callCpuid,
    handleCpuidFeatureInformation, complete, if_true, Bool.false_eq_true, if_false, advance, putCpuid]
  have low := lowMask_getLsbD vmxFrom
  simp only [setBits, BitVec.getLsbD_or, BitVec.getLsbD_and, BitVec.getLsbD_not, clearBit_getLsbD, low]
  simp [vmxFrom]

theorem vmx_visible {added : Registrations δ} {v : Vmcs}
    (low : narrow v.saveState.rax = narrow featureInformationAddr) (hu : v.saveState.rax ≠ featureInformationAddr) :
    (handleExit (watching δ fullCpu 0).toEnv added .cpuid v).2.vmcs.saveState.rcx.getLsbD vmxFrom = true := by
  have hp : driverLeaf v.saveState.rax = none := by
    cases hd : driverLeaf v.saveState.rax with
    | none => rfl
    | some leaf => exact absurd (eq_leafRax hd ▸ low) (narrow_leafRax_ne leaf)
  rw [watching_base _ _ _ hu]
  simp only [handleCpuid, hp]
  change (BitVec.setWidth 64 (0xFFFFFFFF : BitVec 32)).getLsbD vmxFrom = true
  decide

/-! ## The result -/

/-- Handling an exit ignores the upper halves, whatever the processor and the registered delegates do,
exactly when they do not change which delegates are found. With the constructor's delegate alone, CPUID
leaf 1 hides the VMX bit exactly when the upper half of `rax` is zero. -/
theorem interception_ignores_upper_iff (added : Registrations δ) (e : Exit) (v w : Vmcs) (agree : Agree v w) :
    ((∀ env : LowEnv δ, SameHandling (handleExit env.toEnv added e v) (handleExit env.toEnv added e w)) ↔
        Unaffected added e v w) ∧
      (added.cpuid = [] → narrow v.saveState.rax = narrow featureInformationAddr → ((∀ env : LowEnv δ,
            (handleExit env.toEnv added .cpuid v).2.vmcs.saveState.rcx.getLsbD vmxFrom = false) ↔
          v.saveState.rax = featureInformationAddr)) := by
  constructor
  · cases e with
    | cpuid =>
      exact ⟨fun same => cpuid_unaffected 0 added agree (same _), fun unaffected env =>
        cpuid_same env added agree unaffected⟩
    | rdmsr =>
      refine ⟨fun same => ?_, fun unaffected env => rdmsr_same env added agree unaffected⟩
      by_cases equal : v.saveState.rcx = w.saveState.rcx
      · exact .inl equal
      · have told := same (watching δ countingCpu v.saveState.rcx)
        exact .inr (addedAt_nil_of_same rfl rfl (Ne.symm equal) told)
    | wrmsr =>
      refine ⟨fun same => ?_, fun unaffected env => wrmsr_same env added agree unaffected⟩
      by_cases equal : v.saveState.rcx = w.saveState.rcx
      · exact .inl equal
      · have told := same (watching δ countingCpu v.saveState.rcx)
        exact .inr (addedAt_nil_of_same rfl rfl (Ne.symm equal) told)
  · intro alone low
    refine ⟨fun hidden => ?_, fun leaf env => vmx_hidden env.toEnv alone leaf⟩
    by_contra upper
    have visible := @vmx_visible δ added v low upper
    rw [hidden] at visible
    cases visible

/-- A vCPU that is about to execute CPUID. -/
def atLeaf (rax : BitVec 64) : Vmcs where
  saveState := ⟨rax, 0, 0, 0, 0x1000⟩
  guest _ := 0
  exitInstructionLength := 2
  wrmsrs := []

/-- No delegate beyond the constructor's. -/
def noneAdded : Registrations Nat := ⟨[], [], []⟩

theorem interception_ignores_upper_leaf_2 : Agree (atLeaf 2) (atLeaf 0x100000002) ∧
      ∀ env : LowEnv Nat, SameHandling (handleExit env.toEnv noneAdded .cpuid (atLeaf 2))
        (handleExit env.toEnv noneAdded .cpuid (atLeaf 0x100000002)) := by
  have agree : Agree (atLeaf 2) (atLeaf 0x100000002) := ⟨by decide, rfl, rfl, rfl, rfl, rfl, rfl, rfl⟩
  refine ⟨agree, (interception_ignores_upper_iff noneAdded .cpuid _ _ agree).1.mpr ?_⟩
  exact ⟨rfl, by decide, by decide⟩

/-- With bit 32 of `rax` set, leaf 1 goes past the delegate that hides the VMX bit. -/
theorem upper_bits_bypass_leaf_1 : Agree (atLeaf 1) (atLeaf 0x100000001) ∧
      (handleExit (watching Nat fullCpu 0).toEnv noneAdded .cpuid (atLeaf 1)).2.called = [.featureInformation] ∧
      (handleExit (watching Nat fullCpu 0).toEnv noneAdded .cpuid (atLeaf 0x100000001)).2.called = [.base] ∧
      (handleExit (watching Nat fullCpu 0).toEnv noneAdded .cpuid
        (atLeaf 1)).2.vmcs.saveState.rcx.getLsbD vmxFrom = false ∧
      (handleExit (watching Nat fullCpu 0).toEnv noneAdded .cpuid
        (atLeaf 0x100000001)).2.vmcs.saveState.rcx.getLsbD vmxFrom = true := by
  refine ⟨⟨by decide, rfl, rfl, rfl, rfl, rfl, rfl, rfl⟩, ?_, ?_, ?_, ?_⟩
  · rfl
  · rfl
  · rfl
  · rfl

end Gevisor.Verified.Interception
