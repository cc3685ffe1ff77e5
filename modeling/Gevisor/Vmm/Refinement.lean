import Gevisor.Vmm.System

/-! # The machine on partial functions simulates the machine on page tables

Handlers touch `g_guest_map` only through its operations, so a simulation of the operations carries
over to handlers, to steps and to whole runs. Safety is then shown on the abstract machine and holds of
the code's.
-/

namespace Gevisor.Vmm

open Gevisor.Lib
open Gevisor.Ept

section Handlers

variable {E F : Type} {R : E → F → Prop} {ops : EptOps E} {ops' : EptOps F}

/-- The run-time operations agree. Building the identity map is not one of them. -/
structure EptOps.Agree (R : E → F → Prop) (ops : EptOps E) (ops' : EptOps F) : Prop where
  leafFrom : ∀ v, Simulates SameErr R (ops.leafFrom v) (ops'.leafFrom v)
  entryValue : ∀ v, Simulates SameErr R (ops.entryValue v) (ops'.entryValue v)
  updateEntry : ∀ v changes, Simulates SameErr R (ops.updateEntry v changes) (ops'.updateEntry v changes)
  convert4kTo2m : ∀ v, Simulates SameErr R (ops.convert4kTo2m v) (ops'.convert4kTo2m v)

/-- Equal globals, with the identity map already built, and related maps. -/
def Related (R : E → F → Prop) (s : Machine E) (t : Machine F) : Prop :=
  s.g = t.g ∧ t.g.flagEpt = true ∧ R s.guestMap t.guestMap

theorem getG_simulates : Simulates SameErr (Related R) getG getG := by
  rintro ⟨m, g⟩ ⟨A, g'⟩ ⟨same, flag, hrel⟩
  obtain rfl : g = g' := same
  exact .ok g ⟨rfl, flag, hrel⟩

theorem modifyG_simulates {f : Globals → Globals} (hkp : ∀ g, (f g).flagEpt = g.flagEpt) :
    Simulates SameErr (Related R) (modifyG f) (modifyG f) := by
  rintro ⟨m, g⟩ ⟨A, g'⟩ ⟨same, flag, hrel⟩
  obtain rfl : g = g' := same
  exact .ok () ⟨rfl, (hkp g).trans flag, hrel⟩

theorem modifyVcpu_simulates (id : BitVec 64) (f : Vcpu → Vcpu) :
    Simulates SameErr (Related R) (modifyVcpu id f) (modifyVcpu id f) :=
  modifyG_simulates fun _ => rfl

variable {α : Type}

theorem onMap_simulates {c : EStateM Err E α} {d : EStateM Err F α}
    (agree : Simulates SameErr R c d) : Simulates SameErr (Related R) (onMap c) (onMap d) := by
  rintro ⟨m, g⟩ ⟨A, g'⟩ ⟨same, flag, hrel⟩
  obtain rfl : g = g' := same
  have ho := agree m A hrel
  simp only [onMap, zoom]
  generalize c m = x at ho
  generalize d A = y at ho
  cases ho with
  | ok a ha => exact .ok a ⟨rfl, flag, ha⟩
  | error kind ha => exact .error kind ⟨rfl, flag, ha⟩

theorem throw_simulates (e : Err) : Simulates SameErr (Related R) (throw e : VmmM E α) (throw e) :=
  .throw (.inl rfl)

theorem checkIndex_simulates (a : TrackingArray) (i : Nat) :
    Simulates SameErr (Related R) (checkIndex a i) (checkIndex a i) :=
  .ite (.pure ()) (throw_simulates _)

variable (agree : EptOps.Agree R ops ops')

include agree

theorem ensure2m_simulates (paddr : Nat) :
    Simulates SameErr (Related R) (ensure2m ops paddr) (ensure2m ops' paddr) :=
  .bind (onMap_simulates (agree.leafFrom _)) fun _ =>
    .ite (onMap_simulates (agree.convert4kTo2m _)) (.pure ())

omit agree in
theorem addSgxPaddr_simulates (paddr : Nat) :
    Simulates SameErr (Related R) (addSgxPaddr paddr) (addSgxPaddr paddr) :=
  .bind getG_simulates fun _ =>
    .bind (checkIndex_simulates _ _) fun _ => modifyG_simulates fun _ => rfl

theorem addEpcAddress2m_simulates : Simulates SameErr (Related R) (addEpcAddress2m ops) (addEpcAddress2m ops') :=
  .bind getG_simulates fun _ => .forFrom (fun _ =>
    .bind (ensure2m_simulates agree _) fun _ => addSgxPaddr_simulates _) _ _

theorem trapEnclaveEntryNew2m_simulates :
    Simulates SameErr (Related R) (trapEnclaveEntryNew2m ops) (trapEnclaveEntryNew2m ops') := by
  refine .bind getG_simulates fun _ => .forFrom (fun k => ?_) _ _
  refine .bind (checkIndex_simulates _ _) fun _ => .bind getG_simulates fun g => ?_
  refine .bind (ensure2m_simulates agree _) fun _ => ?_
  refine .bind (onMap_simulates (agree.entryValue _)) fun entry => ?_
  refine .bind (checkIndex_simulates _ _) fun _ => .bind (modifyG_simulates fun _ => rfl) fun _ => ?_
  exact onMap_simulates (agree.updateEntry _ _)

omit agree in
theorem addGpuPaddr_simulates (paddr : Nat) :
    Simulates SameErr (Related R) (addGpuPaddr paddr) (addGpuPaddr paddr) :=
  .bind getG_simulates fun _ =>
    .bind (checkIndex_simulates _ _) fun _ => modifyG_simulates fun _ => rfl

theorem addGpuBuffer2m_simulates (vaddr paddr size : Nat) :
    Simulates SameErr (Related R) (addGpuBuffer2m ops vaddr paddr size) (addGpuBuffer2m ops' vaddr paddr size) := by
  refine .ite ?_ (.pure ())
  refine .bind getG_simulates fun _ => .bind (checkIndex_simulates _ _) fun _ => ?_
  refine .bind (modifyG_simulates fun _ => rfl) fun _ => ?_
  refine .bind (.forFrom (fun i => ?_) _ _) fun _ => modifyG_simulates fun _ => rfl
  exact .bind (ensure2m_simulates agree _) fun _ => addGpuPaddr_simulates _

omit agree in
theorem checkBufferFrom_simulates (vaddr i n : Nat) :
    Simulates SameErr (Related R) (checkBufferFrom vaddr i n) (checkBufferFrom vaddr i n) := by
  induction n generalizing i with
  | zero => exact .pure false
  | succ n ih =>
    exact .bind (checkIndex_simulates _ _) fun _ => .bind getG_simulates fun _ => .ite (.pure true) (ih (i + 1))

theorem changeGpuBuffers_simulates (changes : List Change) :
    Simulates SameErr (Related R) (changeGpuBuffers ops changes) (changeGpuBuffers ops' changes) := by
  refine .bind getG_simulates fun _ => .forFrom (fun k => ?_) _ _
  exact .bind (checkIndex_simulates _ _) fun _ => .bind getG_simulates fun _ =>
    onMap_simulates (agree.updateEntry _ _)

theorem changeChannel_simulates (changes : List Change) :
    Simulates SameErr (Related R) (changeChannel ops changes) (changeChannel ops' changes) :=
  .bind getG_simulates fun _ => onMap_simulates (agree.updateEntry _ _)

omit agree in
theorem liftExcept_simulates (x : Except Err α) :
    Simulates SameErr (Related R) (liftExcept x) (liftExcept x) := by
  cases x with
  | ok a => exact .pure a
  | error e => exact throw_simulates e

theorem registerBuffer_simulates (buf size guestCr3 : Nat) :
    Simulates SameErr (Related R) (registerBuffer ops buf size guestCr3) (registerBuffer ops' buf size guestCr3) := by
  refine .bind (.bind getG_simulates fun _ => checkBufferFrom_simulates _ _ _) fun _ => ?_
  refine .ite (.pure ()) (.bind getG_simulates fun _ => ?_)
  exact .bind (liftExcept_simulates _) fun _ => addGpuBuffer2m_simulates agree _ _ _

theorem readEnclaveChannel_simulates (guestCr3 : Nat) (lapicSupported : Bool) :
    Simulates SameErr (Related R) (readEnclaveChannel ops guestCr3 lapicSupported)
      (readEnclaveChannel ops' guestCr3 lapicSupported) := by
  have done (page : Nat) : Simulates SameErr (Related R) (modifyG (channelDone page))
      (modifyG (channelDone page)) := modifyG_simulates fun _ => rfl
  refine .bind getG_simulates fun g => ?_
  cases g.channelMap with
  | none => exact throw_simulates _
  | some page =>
    dsimp only
    split
    · exact .bind (changeGpuBuffers_simulates agree _) fun _ => done page
    · exact .bind (registerBuffer_simulates agree _ _ _) fun _ => done page
    · refine .bind (.ite (.pure ()) (throw_simulates _)) fun _ => ?_
      exact .bind (changeGpuBuffers_simulates agree _) fun _ => done page
    · exact done page
    · exact done page
    · exact .pure ()

theorem externalInterruptHandler_simulates (id : BitVec 64) (guest : GuestState) (vector : BitVec 64) :
    Simulates SameErr (Related R) (externalInterruptHandler ops id guest vector)
      (externalInterruptHandler ops' id guest vector) := by
  refine .bind (.bind getG_simulates fun g => .ite ?_ (.pure ())) fun _ => ?_
  · refine .bind (readEnclaveChannel_simulates agree _ _) fun _ => ?_
    exact .bind (trapEnclaveEntryNew2m_simulates agree) fun _ => modifyG_simulates fun _ => rfl
  · exact .ite (modifyVcpu_simulates _ _) (modifyVcpu_simulates _ _)

omit agree in
theorem interruptWindowHandler_simulates (id : BitVec 64) :
    Simulates SameErr (Related R) (interruptWindowHandler id) (interruptWindowHandler id) := by
  refine .bind getG_simulates fun g => ?_
  cases (vectorsOf g id).getLast? with
  | none => exact throw_simulates _
  | some vector => exact .bind (modifyVcpu_simulates _ _) fun _ => modifyVcpu_simulates _ _

theorem enclsHandler_simulates (id : BitVec 64) (guest : GuestState) :
    Simulates SameErr (Related R) (enclsHandler ops id guest) (enclsHandler ops' id guest) := by
  refine .ite ?_ ?_
  · refine .bind (modifyG_simulates fun _ => rfl) fun _ => .bind (modifyVcpu_simulates _ _) fun _ => ?_
    refine .bind (modifyG_simulates fun _ => rfl) fun _ => .bind getG_simulates fun g => ?_
    refine .bind (.forFrom (fun i => ?_) _ _) fun _ => modifyG_simulates fun _ => rfl
    refine .bind (checkIndex_simulates _ _) fun _ => .bind (modifyG_simulates fun _ => rfl) fun _ => ?_
    exact .bind (checkIndex_simulates _ _) fun _ => modifyG_simulates fun _ => rfl
  · refine .bind (modifyG_simulates fun _ => rfl) fun _ => .bind (addEpcAddress2m_simulates agree) fun _ => ?_
    refine .bind (modifyG_simulates fun _ => rfl) fun _ => ?_
    refine .bind (trapEnclaveEntryNew2m_simulates agree) fun _ => ?_
    exact .bind (changeChannel_simulates agree _) fun _ => modifyVcpu_simulates _ _

theorem eptViolationHandle_simulates (id : BitVec 64) (guest : GuestState) (qual : BitVec 64) (gpa : Nat) :
    Simulates SameErr (Related R) (eptViolationHandle ops id guest qual gpa)
      (eptViolationHandle ops' id guest qual gpa) := by
  refine .ite ?_ (.ite ?_ (.ite ?_ (throw_simulates _)))
  · exact .bind (modifyVcpu_simulates _ _) fun _ => onMap_simulates (agree.updateEntry _ _)
  · refine .bind (.ite (changeChannel_simulates agree _) (.pure ())) fun _ => ?_
    refine .bind (changeChannel_simulates agree _) fun _ => .bind (modifyVcpu_simulates _ _) fun _ => ?_
    exact onMap_simulates (agree.updateEntry _ _)
  · refine .bind (modifyG_simulates fun _ => rfl) fun _ => .bind getG_simulates fun g => ?_
    refine .bind (.forFrom (fun i => ?_) _ _) fun _ => onMap_simulates (agree.updateEntry _ _)
    exact .bind (checkIndex_simulates _ _) fun _ => .bind getG_simulates fun _ =>
      onMap_simulates (agree.updateEntry _ _)

omit agree in
theorem forEntries_simulates {visit : BitVec 64 → VmmM E Unit} {visit' : BitVec 64 → VmmM F Unit}
    (each : ∀ pte, Simulates SameErr (Related R) (visit pte) (visit' pte)) (page : Nat) :
    Simulates SameErr (Related R) (forEntries page visit) (forEntries page visit') :=
  .ite (.forFrom (fun _ => .bind getG_simulates fun _ => each _) _ _) (throw_simulates _)

omit agree in
theorem accessAllPml4_simulates (cr3 : Nat) :
    Simulates SameErr (Related R) (accessAllPml4 cr3) (accessAllPml4 cr3) := by
  have pt (pte : BitVec 64) : Simulates SameErr (Related R) (accessAllPt pte) (accessAllPt pte) := by
    refine forEntries_simulates (fun _ => .bind getG_simulates fun _ => ?_) _
    exact .ite (modifyG_simulates fun _ => rfl) (.pure ())
  have pdt (pte : BitVec 64) : Simulates SameErr (Related R) (accessAllPdt pte) (accessAllPdt pte) :=
    forEntries_simulates (fun _ => .ite (pt _) (.pure ())) _
  have pdpt (pte : BitVec 64) : Simulates SameErr (Related R) (accessAllPdpt pte) (accessAllPdpt pte) :=
    forEntries_simulates (fun _ => .ite (pdt _) (.pure ())) _
  exact .ite (throw_simulates _) (forEntries_simulates (fun _ => .ite (pdpt _) (.pure ())) _)

theorem handle_simulates (id : BitVec 64) (guest : GuestState) (reason : Reason) :
    Simulates SameErr (Related R) (handle ops id guest reason) (handle ops' id guest reason) := by
  cases reason with
  | externalInterrupt information => exact externalInterruptHandler_simulates agree id guest _
  | interruptWindow => exact interruptWindowHandler_simulates id
  | eptViolation qual gva gpa => exact eptViolationHandle_simulates agree id guest qual _
  | encls => exact enclsHandler_simulates agree id guest
  | vmcall =>
    refine .swallow (fun e f same => ?_) (.ite (accessAllPml4_simulates _) (.pure ()))
    rcases same with rfl | ⟨exn, exn'⟩
    · rfl
    · rw [exn, exn']
  | monitorTrap => exact modifyVcpu_simulates _ _

end Handlers

/-! ## Steps and runs -/

section Runs

variable {mm : PagePool} {platform : Platform} {s : Machine Mmap} {t : Machine AddrMap}

variable {channel : Option Nat} {mem : GuestMem} {es : List Event} {word : Nat → Fin 512 → Entry}

theorem mmapOps_agree (mtrrs : Mtrrs) : EptOps.Agree (Refines mm) (mmapOps mm mtrrs) (addrMapOps mtrrs) where
  leafFrom _ := leafFrom_simulates
  entryValue _ := entryValue_simulates
  updateEntry _ changes := updateEntry_simulates changes
  convert4kTo2m _ := convert4kTo2m_simulates

/-- The code's machine and the abstract one between two exits. Before the first vCPU the map is bare. -/
def Corresponds (mm : PagePool) (s : Machine Mmap) (t : Machine AddrMap) : Prop :=
  s.g = t.g ∧
    if t.g.flagEpt then Refines mm s.guestMap t.guestMap
    else Bare mm s.guestMap ∧ (t.guestMap = fun _ => none) ∧ ∀ id, t.g.vcpus id = none

theorem Related.corresponds (hrel : Related (Refines mm) s t) {f : Globals → Globals}
    (hkp : ∀ g, (f g).flagEpt = g.flagEpt) :
    Corresponds mm { s with g := f s.g } { t with g := f t.g } := by
  obtain ⟨same, flag, href⟩ := hrel
  refine ⟨congrArg f same, ?_⟩
  rw [show (f t.g).flagEpt = true from (hkp t.g).trans flag]
  exact href

theorem resume_corresponds (ok htn : Globals → Globals) (ho : ∀ g, (ok g).flagEpt = g.flagEpt)
    (ht : ∀ g, (htn g).flagEpt = g.flagEpt)
    {x : EStateM.Result Err (Machine Mmap) Unit} {y : EStateM.Result Err (Machine AddrMap) Unit}
    (agree : Lib.Agree SameErr (Related (Refines mm)) x y) :
    Option.Rel (Corresponds mm) (resume ok htn x) (resume ok htn y) := by
  cases agree with
  | ok a hrel => exact .some (hrel.corresponds ho)
  | @error s t e f same hrel =>
    cases e with
    | exn what =>
      cases f with
      | exn what' => exact .some (hrel.corresponds ht)
      | fault f =>
        rcases same with same | ⟨-, exn⟩
        · cases same
        · cases exn
    | fault e =>
      rcases same with rfl | ⟨exn, -⟩
      · exact .none
      · cases exn

/-- The first vCPU builds the identity map, the others find it built. -/
theorem identityMapOnce_agrees (same : s.g = t.g) (hbt : t.g.flagEpt = true → Refines mm s.guestMap t.guestMap)
    (bare : t.g.flagEpt = false → Bare mm s.guestMap) :
    Lib.Agree SameErr (Related (Refines mm)) (identityMapOnce (mmapOps mm platform.mtrrs) s)
      (identityMapOnce (addrMapOps platform.mtrrs) t) := by
  obtain ⟨m, g⟩ := s
  obtain ⟨A, g'⟩ := t
  obtain rfl : g = g' := same
  simp only [identityMapOnce, getG, bind, EStateM.bind]
  cases flag : g.flagEpt with
  | true =>
    simp only [if_true]
    exact .ok () ⟨rfl, flag, hbt flag⟩
  | false =>
    obtain ⟨m', hret, href⟩ := identityMap_spec platform.mtrrs .readWriteExecute
      (show maxPhysAddr ≤ 2 ^ 48 by decide) (by decide) (bare flag)
    have hmap : onMap ((mmapOps mm platform.mtrrs).identityMap maxPhysAddr) (⟨m, g⟩ : Machine Mmap) =
        .ok () ⟨m', g⟩ := by
      simp only [onMap, zoom, mmapOps, hret]
    simp only [Bool.false_eq_true, if_false, EStateM.bind, hmap]
    exact .ok () ⟨rfl, rfl, href⟩

theorem construct_agrees (hcor : Corresponds mm s t) (id : BitVec 64) :
    Lib.Agree SameErr (Related (Refines mm)) (constructVcpu (mmapOps mm platform.mtrrs) platform id s)
      (constructVcpu (addrMapOps platform.mtrrs) platform id t) := by
  obtain ⟨m, g⟩ := s
  obtain ⟨A, g'⟩ := t
  obtain ⟨same, hs⟩ := hcor
  obtain rfl : g = g' := same
  -- The two updates of the globals do not touch `flag_ept` or the map.
  let prepare (g : Globals) : Globals := let g := setVcpu id (some newVcpu) g
    if g.flagEpc then g else { locateEpc platform g with flagEpc := true }
  have flag : (prepare g).flagEpt = g.flagEpt := by
    simp only [prepare]
    split <;> rfl
  have once : Lib.Agree SameErr (Related (Refines mm)) (identityMapOnce (mmapOps mm platform.mtrrs) ⟨m, prepare g⟩)
      (identityMapOnce (addrMapOps platform.mtrrs) ⟨A, prepare g⟩) := identityMapOnce_agrees rfl
    (fun hbt => by
      rw [flag] at hbt
      rw [show (⟨A, g⟩ : Machine AddrMap).g.flagEpt = true from hbt] at hs
      exact hs)
    (fun bare => by
      rw [flag] at bare
      rw [show (⟨A, g⟩ : Machine AddrMap).g.flagEpt = false from bare] at hs
      exact hs.1)
  have hp {E : Type} (ops : EptOps E) (x : E) : constructVcpu ops platform id ⟨x, g⟩ =
        (identityMapOnce ops >>= fun _ => removePermissionChannel ops) ⟨x, prepare g⟩ := rfl
  rw [hp, hp]
  simp only [bind, EStateM.bind]
  generalize identityMapOnce (mmapOps mm platform.mtrrs) ⟨m, prepare g⟩ = x at once
  generalize identityMapOnce (addrMapOps platform.mtrrs) ⟨A, prepare g⟩ = y at once
  cases once with
  | ok a hrel => exact changeChannel_simulates (mmapOps_agree platform.mtrrs) _ _ _ hrel
  | error kind hrel => exact .error kind hrel

theorem onExit_flagEpt (id : BitVec 64) (guest : GuestState) (reason : Reason) (g : Globals) :
    (onExit id guest reason g).flagEpt = g.flagEpt := by
  cases reason <;> rfl

theorem step_simulates (platform : Platform) (hcor : Corresponds mm s t) (e : Event) :
    Option.Rel (Corresponds mm) (codeStep platform mm s e) (abstractStep platform t e) := by
  cases e with
  | construct id =>
    simp only [step, hcor.1]
    cases t.g.vcpus id with
    | some v => exact .none
    | none =>
      exact resume_corresponds _ (setVcpu id none) (fun _ => rfl) (fun _ => rfl) (construct_agrees hcor id)
  | exit id guest reason =>
    simp only [step, hcor.1]
    cases hk : t.g.vcpus id with
    | none => exact .none
    | some v =>
      by_cases hp : canExit v guest reason = true
      · simp only [hp, if_true]
        obtain ⟨-, hs⟩ := hcor
        have hbt : t.g.flagEpt = true := by
          cases flag : t.g.flagEpt with
          | true => rfl
          | false =>
            rw [flag] at hs
            rw [hs.2.2 id] at hk
            cases hk
        rw [hbt] at hs
        refine resume_corresponds (onEntry id) (onHalt id) (fun _ => rfl) (fun _ => rfl)
          (handle_simulates (mmapOps_agree platform.mtrrs) id guest reason _ _ ⟨rfl, ?_, hs⟩)
        exact (onExit_flagEpt id guest reason t.g).trans hbt
      · simp only [hp]
        exact .none

theorem boot_corresponds (channel : Option Nat) (word : Nat → Fin 512 → Entry) (mem : GuestMem) :
    Corresponds mm (boot mm channel word mem) (bootAbstract channel mem) :=
  ⟨rfl, init_bare word, rfl, fun _ => rfl⟩

/-- The runs of the code's machine are those of the abstract machine. -/
theorem run_corresponds (mm : PagePool) (platform : Platform) (channel : Option Nat)
    (word : Nat → Fin 512 → Entry) (mem : GuestMem) (es : List Event) :
    Option.Rel (Corresponds mm) (run (codeStep platform mm) (boot mm channel word mem) es)
      (run (abstractStep platform) (bootAbstract channel mem) es) :=
  run_simulates (fun _ _ e hcor => step_simulates platform hcor e) (boot_corresponds channel word mem) es

/-- What the code's machine stands for. -/
def Machine.view (mm : PagePool) (s : Machine Mmap) : Machine AddrMap := ⟨leafAt mm s.guestMap, s.g⟩

theorem Corresponds.view_eq (hcor : Corresponds mm s t) : s.view mm = t := by
  obtain ⟨m, g⟩ := s
  obtain ⟨A, g'⟩ := t
  obtain ⟨same, hs⟩ := hcor
  obtain rfl : g = g' := same
  cases flag : g.flagEpt with
  | true =>
    rw [show (⟨A, g⟩ : Machine AddrMap).g.flagEpt = true from flag] at hs
    exact congrArg (Machine.mk · g) hs.2
  | false =>
    rw [show (⟨A, g⟩ : Machine AddrMap).g.flagEpt = false from flag] at hs
    obtain ⟨bare, rfl, -⟩ := hs
    exact congrArg (Machine.mk · g) bare.leafAt_eq

theorem Corresponds.refines (hcor : Corresponds mm s t) (hbt : t.g.flagEpt = true) :
    Refines mm s.guestMap t.guestMap := by
  have hs := hcor.2
  rwa [hbt] at hs

theorem run_abstract (hre : run (codeStep platform mm) (boot mm channel word mem) es = some s) :
    run (abstractStep platform) (bootAbstract channel mem) es = some (s.view mm) ∧ Corresponds mm s (s.view mm) := by
  have hrel := run_corresponds mm platform channel word mem es
  rw [hre] at hrel
  generalize run (abstractStep platform) (bootAbstract channel mem) es = o at hrel
  cases hrel with
  | some hcor =>
    obtain rfl := hcor.view_eq
    exact ⟨rfl, hcor⟩

theorem run_concrete (mm : PagePool) (word : Nat → Fin 512 → Entry)
    (hre : run (abstractStep platform) (bootAbstract channel mem) es = some t) :
    ∃ s, run (codeStep platform mm) (boot mm channel word mem) es = some s ∧ s.view mm = t ∧ Corresponds mm s t := by
  have hrel := run_corresponds mm platform channel word mem es
  rw [hre] at hrel
  generalize run (codeStep platform mm) (boot mm channel word mem) es = o at hrel
  cases hrel with
  | some hcor => exact ⟨_, rfl, hcor.view_eq, hcor⟩

/-- The abstract machine gets into `t`. -/
def Reached (platform : Platform) (channel : Option Nat) (mem : GuestMem) (t : Machine AddrMap) : Prop :=
  ∃ es, run (abstractStep platform) (bootAbstract channel mem) es = some t

variable {u : Machine AddrMap} {e : Event} {P : Machine AddrMap → Prop}
    {C : Machine AddrMap → Event → Prop} {α : Type}

theorem Reached.step
    (hrc : Reached platform channel mem t) (next : abstractStep platform t e = some u) :
    Reached platform channel mem u := by
  obtain ⟨es, hre⟩ := hrc
  exact ⟨es ++ [e], run_append.mpr ⟨t, hre, run_cons.mpr ⟨u, next, rfl⟩⟩⟩

theorem step_view {t : Machine Mmap} (hcor : Corresponds mm s (s.view mm))
    (next : codeStep platform mm s e = some t) :
    abstractStep platform (s.view mm) e = some (t.view mm) ∧ Corresponds mm t (t.view mm) := by
  have hrel := step_simulates platform hcor e
  rw [next] at hrel
  generalize abstractStep platform (s.view mm) e = o at hrel
  cases hrel with
  | some hcor =>
    obtain rfl := hcor.view_eq
    exact ⟨rfl, hcor⟩

/-- An exact condition for steps of the abstract machine is one for runs of the code, from any state that
is reached. -/
theorem code_allStates_iff_from {s₀ : Machine Mmap} {D : Machine AddrMap → Event → Prop}
    (exact : ∀ s e t, Reached platform channel mem s → P s → D s e → abstractStep platform s e = some t → (P t ↔ C s e))
    (hcor : Corresponds mm s₀ (s₀.view mm)) (hrc : Reached platform channel mem (s₀.view mm))
    (hs : P (s₀.view mm)) (ha : AllSteps (codeStep platform mm) (fun s e => D (s.view mm) e) s₀ es)
    (hre : run (codeStep platform mm) s₀ es = some s) :
    AllStates (codeStep platform mm) (fun s => P (s.view mm)) s₀ es ↔
      AllSteps (codeStep platform mm) (fun s e => C (s.view mm) e) s₀ es := by
  refine allStates_iff_allSteps
    (I := fun s => Corresponds mm s (s.view mm) ∧ Reached platform channel mem (s.view mm)) ?_ ?_
    ⟨hcor, hrc⟩ hs ha hre
  · rintro s e t ⟨hcor, hrc⟩ next
    obtain ⟨next', hcor'⟩ := step_view hcor next
    exact ⟨hcor', hrc.step next'⟩
  · rintro s e t ⟨hcor, hrc⟩ hh may next
    exact exact _ e _ hrc hh may (step_view hcor next).1

/-- The same from the start. -/
theorem code_allStates_iff
    (hs : P (bootAbstract channel mem))
    (exact : ∀ s e t, Reached platform channel mem s → P s → abstractStep platform s e = some t → (P t ↔ C s e))
    (hre : run (codeStep platform mm) (boot mm channel word mem) es = some s) :
    AllStates (codeStep platform mm) (fun s => P (s.view mm)) (boot mm channel word mem) es ↔
      AllSteps (codeStep platform mm) (fun s e => C (s.view mm) e) (boot mm channel word mem) es := by
  have init : (boot mm channel word mem).view mm = bootAbstract channel mem :=
    (boot_corresponds channel word mem).view_eq
  refine code_allStates_iff_from (D := fun _ _ => True) (fun s e t hrc hh _ => exact s e t hrc hh)
    (init ▸ boot_corresponds channel word mem) (init ▸ ⟨[], rfl⟩) (init ▸ hs) ?_ hre
  exact allSteps_of_forall (p := fun _ => True) fun _ _ => trivial

/-- An invariant of the abstract machine's allowed steps gives a property of all states of the code. -/
theorem code_allStates_of {I : Machine AddrMap → Prop}
    (hp : ∀ s e t, Reached platform channel mem s → I s → C s e → abstractStep platform s e = some t → I t)
    (hi : ∀ s, Reached platform channel mem s → I s → P s) (hs : I (bootAbstract channel mem))
    (ha : AllSteps (codeStep platform mm) (fun s e => C (s.view mm) e) (boot mm channel word mem) es) :
    AllStates (codeStep platform mm) (fun s => P (s.view mm)) (boot mm channel word mem) es := by
  have init : (boot mm channel word mem).view mm = bootAbstract channel mem :=
    (boot_corresponds channel word mem).view_eq
  refine allStates_of_allSteps (I := fun s => Corresponds mm s (s.view mm) ∧
    Reached platform channel mem (s.view mm) ∧ I (s.view mm)) ?_ (fun s h => hi _ h.2.1 h.2.2)
    ⟨init ▸ boot_corresponds channel word mem, init ▸ ⟨[], rfl⟩, init ▸ hs⟩ ha
  rintro s e t ⟨hcor, hrc, hh⟩ hm next
  obtain ⟨next', hcor'⟩ := step_view hcor next
  exact ⟨hcor', hrc.step next', hp _ e _ hrc hh hm next'⟩

theorem Corresponds.related (hcor : Corresponds mm s t) (hbt : t.g.flagEpt = true) : Related (Refines mm) s t :=
  ⟨hcor.1, hbt, hcor.refines hbt⟩

theorem Related.view_eq {s : Machine Mmap} (hrel : Related (Refines mm) s t) : s.view mm = t := by
  obtain ⟨m, g⟩ := s
  obtain ⟨A, g'⟩ := t
  obtain ⟨same, -, href⟩ := hrel
  obtain rfl : g = g' := same
  exact congrArg (Machine.mk · g) href.2

/-- What holds of a computation on the abstract machine holds of its counterpart in the code. -/
theorem wp_code {c : VmmM Mmap α} {d : VmmM AddrMap α}
    (hs : Simulates SameErr (Related (Refines mm)) c d) (hrel : Related (Refines mm) s t)
    {Q : α → Machine AddrMap → Prop} {X : Err → Machine AddrMap → Prop} (ends : wp d Q X t) :
    wp c (fun a s' => Q a (s'.view mm)) (fun e s' => ∃ f, SameErr e f ∧ X f (s'.view mm)) s := by
  refine wp_mono (fun a s' ha => ?_) (fun e s' ha => ?_) (hs.wp hrel ends)
  · obtain ⟨t', hrel', hh⟩ := ha
    rw [hrel'.view_eq]
    exact hh
  · obtain ⟨f, t', same, hrel', hh⟩ := ha
    rw [hrel'.view_eq]
    exact ⟨f, same, hh⟩

/-- Code that returns on the abstract machine returns. -/
theorem code_returns {c : VmmM Mmap Unit} {d : VmmM AddrMap Unit}
    (hs : Simulates SameErr (Related (Refines mm)) c d) (hrel : Related (Refines mm) s t)
    (hret : returned (d t) = some u) : ∃ s', c s = .ok () s' ∧ s'.view mm = u := by
  have agree := hs s t hrel
  generalize d t = y at agree hret
  generalize c s = x at agree
  cases agree with
  | @ok s' u' _ hrel =>
    obtain rfl := Option.some.inj hret
    exact ⟨s', rfl, hrel.view_eq⟩
  | error kind hrel => cases hret

theorem handle_returns (hcor : Corresponds mm s (s.view mm)) (hbt : s.g.flagEpt = true)
    {id : BitVec 64} {guest : GuestState} {reason : Reason}
    (hret : returned (handle (addrMapOps platform.mtrrs) id guest reason
      { s.view mm with g := onExit id guest reason s.g }) = some u) :
    ∃ s', handle (mmapOps mm platform.mtrrs) id guest reason { s with g := onExit id guest reason s.g } =
      .ok () s' ∧ s'.view mm = u := by
  have hrel : Related (Refines mm) { s with g := onExit id guest reason s.g }
      { s.view mm with g := onExit id guest reason s.g } :=
    ⟨rfl, (onExit_flagEpt id guest reason s.g).trans hbt, hcor.refines hbt⟩
  exact code_returns (handle_simulates (mmapOps_agree platform.mtrrs) id guest reason) hrel hret

/-- What evaluating the abstract machine shows holds of the code. -/
theorem exists_run (f : Machine AddrMap → α)
    {x : α} (ho : (run (abstractStep platform) (bootAbstract channel mem) es).map f = some x)
    (mm : PagePool) (word : Nat → Fin 512 → Entry) :
    ∃ s, run (codeStep platform mm) (boot mm channel word mem) es = some s ∧ f (s.view mm) = x ∧
      Corresponds mm s (s.view mm) := by
  obtain ⟨t, hre, rfl⟩ := Option.map_eq_some_iff.mp ho
  obtain ⟨s, hre', rfl, hcor⟩ := run_concrete mm word hre
  exact ⟨s, hre', rfl, hcor⟩

end Runs

end Gevisor.Vmm
