import Gevisor.Driver.Runs

/-! # Effects of the driver's functions

One specification for each function of the driver: what it adds to the log, and what it does to the
variables, however it ends.
-/

namespace Gevisor.Driver

open Lib
open Elf (Word Binary)

variable {P : Platform} {s t : Globals}

variable {X : Exit → Globals → Prop} {Q : Unit → Globals → Prop} {request : Request} {cpuid : Nat}

@[simp] theorem wp_platformCallVmmOnCore {Q : Word → Globals → Prop} (cpuid : Nat) (request : Request) :
    wp (platformCallVmmOnCore P cpuid request) Q X s ↔ Q (P.callVmmOnCore s.log cpuid request)
        { s with log := .call cpuid request (P.callVmmOnCore s.log cpuid request) :: s.log } := Iff.rfl

@[simp] theorem wp_platformAlloc {Q : Word → Globals → Prop} (pool : Pool) (size : Word) :
    wp (platformAlloc P pool size) Q X s ↔
      Q (P.alloc s.log pool size) { s with log := .alloc ⟨pool, P.alloc s.log pool size, size⟩ :: s.log } := Iff.rfl

@[simp] theorem wp_fail (ret : Word) : wp (fail ret) Q X s ↔ X (.returned ret) s := Iff.rfl

/-- A call either succeeds or returns its result. -/
theorem wp_callVmm (ends : ∀ ret, if ret = success then Q () { s with log := .call cpuid request ret :: s.log }
      else X (.returned ret) { s with log := .call cpuid request ret :: s.log }) :
    wp (callVmm P cpuid request) Q X s := by
  rw [callVmm, wp_bind, wp_platformCallVmmOnCore, wp_ite]
  have here := ends (P.callVmmOnCore s.log cpuid request)
  by_cases hs : P.callVmmOnCore s.log cpuid request = success
  · rw [if_pos hs] at here
    rw [if_neg (not_not.mpr hs)]
    exact here
  · rw [if_neg hs] at here
    rw [if_pos hs]
    exact here

/-- After a failure the cleanup runs. -/
theorem wp_onFailure {c cleanup : DriverM Unit} (body : wp c Q (fun e t => match e with
      | .hangs => X .hangs t
      | .returned ret => wp cleanup (fun _ u => X (.returned ret) u) (fun e u => if e = .hangs then X .hangs u else X (.returned ret) u) t) s) :
    wp (onFailure c cleanup) Q X s := by
  simp only [wp, onFailure] at body ⊢
  cases first : c s with
  | ok a t =>
    rw [first] at body
    exact body
  | error e t =>
    rw [first] at body
    cases e with
    | hangs => exact body
    | returned ret =>
      dsimp only at body ⊢
      cases hs : cleanup t with
      | ok a u =>
        rw [hs] at body
        exact body
      | error e u =>
        rw [hs] at body
        cases e with
        | hangs => exact body
        | returned ret' => exact body

/-! ## Describing memory -/

def Event.IsDescription : Event → Prop
  | .call _ (.addMdl _) _ => True
  | .call _ (.setRsdp _) _ => True
  | _ => False

/-- Nothing has happened except that memory was described to the VMM. -/
def Described (s t : Globals) : Prop := ∃ es, t = { s with log := es ++ s.log } ∧ ∀ e ∈ es, e.IsDescription

theorem Described.refl (s : Globals) : Described s s := ⟨[], rfl, by simp⟩

theorem Described.call (hds : Described s t) (hd : ∀ ret, (Event.call cpuid request ret).IsDescription)
    (ret : Word) : Described s { t with log := .call cpuid request ret :: t.log } := by
  obtain ⟨es, same, all⟩ := hds
  refine ⟨.call cpuid request ret :: es, by rw [same]; rfl, ?_⟩
  exact List.forall_mem_cons.mpr ⟨hd ret, all⟩

theorem callVmm_describes (hd : ∀ ret, (Event.call cpuid request ret).IsDescription) :
    Preserves (Described s) (callVmm P cpuid request) := by
  intro t hds
  refine wp_callVmm fun ret => ?_
  split
  · exact hds.call hd ret
  · exact hds.call hd ret

theorem privateAddRawMd_describes (virt type : Word) :
    Preserves (Described s) (privateAddRawMdToMemoryManager P virt type) :=
  Preserves.bind Preserves.get fun _ => callVmm_describes fun _ => trivial

theorem addPages_describes (type execE : Word) (fuel : Nat) (execS : Word) :
    Preserves (Described s) (addPages P type execE fuel execS) := by
  induction fuel generalizing execS with
  | zero => exact Preserves.throw _
  | succ fuel ih =>
    rw [addPages]
    exact Preserves.ite (fun _ => Preserves.bind (privateAddRawMd_describes execS type) fun _ => ih _)
      fun _ => Preserves.pure ()

theorem addModule_describes (i : Nat) : Preserves (Described s) (addModule P i) := by
  refine Preserves.bind Preserves.get fun d => Preserves.forFrom (fun j => ?_) 0 _
  rw [addSegment]
  split
  · exact Preserves.pure ()
  · exact addPages_describes _ _ _ _

theorem loadEnd_spec (s : Globals) :
    wp (loadEnd P) (fun _ t => ∃ u, Described s u ∧ t = { u with status := .loaded }) (fun _ t => Described s t) s := by
  have rsdp (ret : Word) : (Event.call 0 (.setRsdp s.rsdp) ret).IsDescription := trivial
  rw [loadEnd, wp_bind, wp_get, wp_bind]
  refine wp_mono ?_ (fun _ _ hds => hds) (callVmm_describes rsdp s (.refl s))
  intro _ t hds
  rw [wp_bind]
  refine wp_mono ?_ (fun _ _ hds => hds)
    (Preserves.bind Preserves.get (fun d => Preserves.forFrom addModule_describes 0 _) t hds)
  intro _ t hds
  rw [wp_bind]
  refine wp_mono ?_ (fun _ _ hds => hds)
    (Preserves.bind Preserves.get (fun d => Preserves.forFrom (fun j => privateAddRawMd_describes _ _) 0 _) t hds)
  intro _ t hds
  exact ⟨t, hds, rfl⟩

/-! ## Preparing -/

/-- Nothing has happened except that buffers were allocated. -/
structure Prepared (s t : Globals) : Prop where
  log : ∃ es, t.log = es ++ s.log ∧ ∀ e ∈ es, ∃ b, e = .alloc b
  status : t.status = s.status
  numCpusStarted : t.numCpusStarted = s.numCpusStarted
  count : t.modules.length = s.modules.length

theorem Prepared.refl (s : Globals) : Prepared s s := ⟨⟨[], rfl, by simp⟩, rfl, rfl, rfl⟩

/-- One more allocation, or none. -/
theorem Prepared.next {u : Globals} (hpr : Prepared s t) (log : u.log = t.log ∨ ∃ b, u.log = .alloc b :: t.log)
    (hs : u.status = t.status) (hn : u.numCpusStarted = t.numCpusStarted)
    (hc : u.modules.length = t.modules.length) : Prepared s u := by
  obtain ⟨es, hbe, all⟩ := hpr.log
  refine ⟨?_, hs.trans hpr.status, hn.trans hpr.numCpusStarted, hc.trans hpr.count⟩
  cases log with
  | inl same => exact ⟨es, by rw [same, hbe], all⟩
  | inr one =>
    obtain ⟨b, one⟩ := one
    exact ⟨.alloc b :: es, by rw [one, hbe]; rfl, List.forall_mem_cons.mpr ⟨⟨b, rfl⟩, all⟩⟩

theorem privateSetupStack_spec (hpr : Prepared s t) (hac : Accounted t) (none : t.stack = 0) :
    wp (privateSetupStack P)
      (fun _ u => Prepared s u ∧ Accounted u ∧ u.tls = t.tls ∧ u.modules = t.modules)
      (fun _ u => Prepared s u ∧ Accounted u) t := by
  have hem : t.held = Buffer.keep ⟨.rw, t.tls, t.tlsSize⟩ ++ t.modules.flatMap image := by
    rw [Globals.held, keep_null none, List.nil_append]
  have held (stack top size : Word) (log : List Event) :
      Globals.held { t with stack := stack, stackTop := top, stackSize := size, log := log } =
        Buffer.keep ⟨.rw, stack, size⟩ ++ t.held := by rw [hem]; rfl
  rw [privateSetupStack, wp_bind, wp_modify, wp_bind, wp_platformAlloc, wp_bind, wp_modify]
  dsimp only
  generalize P.alloc t.log .rw (stackBytes * 2) = stack
  have kept (top : Word) : Prepared s { t with
        stack := stack, stackTop := top, stackSize := stackBytes * 2
        log := .alloc ⟨.rw, stack, stackBytes * 2⟩ :: t.log } ∧
      Accounted { t with
        stack := stack, stackTop := top, stackSize := stackBytes * 2
        log := .alloc ⟨.rw, stack, stackBytes * 2⟩ :: t.log } :=
    ⟨hpr.next (.inr ⟨_, rfl⟩) rfl rfl rfl, hac.alloc rfl (by rw [held])⟩
  rw [wp_ite]
  split
  · exact kept t.stackTop
  · exact ⟨(kept _).1, (kept _).2, rfl, rfl⟩

theorem privateSetupTls_spec (hpr : Prepared s t) (hac : Accounted t) (none : t.tls = 0) :
    wp (privateSetupTls P) (fun _ u => Prepared s u ∧ Accounted u ∧ u.modules = t.modules)
      (fun _ u => Prepared s u ∧ Accounted u) t := by
  have hem : t.held = Buffer.keep ⟨.rw, t.stack, t.stackSize⟩ ++ t.modules.flatMap image := by
    rw [Globals.held, keep_null (b := ⟨.rw, t.tls, t.tlsSize⟩) none, List.nil_append]
  rw [privateSetupTls, wp_bind, wp_modify, wp_bind, wp_platformAlloc, wp_bind, wp_modify]
  dsimp only
  generalize threadLocalStorageSize * BitVec.ofNat 64 P.numCpus = size
  generalize P.alloc t.log .rw size = tls
  have held : Globals.held { t with tls := tls, tlsSize := size, log := .alloc ⟨.rw, tls, size⟩ :: t.log } =
      Buffer.keep ⟨.rw, t.stack, t.stackSize⟩ ++ (Buffer.keep ⟨.rw, tls, size⟩ ++ t.modules.flatMap image) := rfl
  have kept : Prepared s { t with tls := tls, tlsSize := size, log := .alloc ⟨.rw, tls, size⟩ :: t.log } ∧
      Accounted { t with tls := tls, tlsSize := size, log := .alloc ⟨.rw, tls, size⟩ :: t.log } := by
    refine ⟨hpr.next (.inr ⟨_, rfl⟩) rfl rfl rfl, hac.alloc rfl ?_⟩
    rw [held, hem, ← List.append_assoc, ← List.append_assoc]
    exact List.perm_append_comm.append_right _
  rw [wp_ite]
  split
  · exact kept
  · exact ⟨kept.1, kept.2, rfl⟩

theorem perm_inner {a b c c' m : List Buffer} (hi : c'.Perm (m ++ c)) :
    (a ++ (b ++ c')).Perm (m ++ (a ++ (b ++ c))) := by
  refine ((hi.append_left b).append_left a).trans ?_
  have hf : (a ++ b ++ m).Perm (m ++ (a ++ b)) := List.perm_append_comm
  simpa only [List.append_assoc] using hf.append_right c

/-- A module without an image gets one, or loading it fails. -/
theorem privateLoadBinary_spec {i : Nat} (hpr : Prepared s t) (hac : Accounted t) (hb : i < t.modules.length)
    (none : (t.modules.getD i {}).exec = 0) :
    wp (privateLoadBinary P i)
      (fun _ u => Prepared s u ∧ Accounted u ∧ ∃ module : Binary, module.exec ≠ 0 ∧ u.modules = t.modules.set i module)
      (fun _ u => Prepared s u ∧ Accounted u) t := by
  have hem : image (t.modules.getD i {}) = [] := keep_null none
  have held (module : Binary) (log : List Event) :
      (Globals.held { t with modules := t.modules.set i module, log := log }).Perm (image module ++ t.held) :=
    perm_inner (flatMap_image_set hb module hem)
  -- Both outcomes of the placing leave a module with the image that was allocated for it.
  have hp (module : Binary) : Prepared s { t with
          modules := t.modules.set i module
          log := .alloc ⟨.rwe, module.exec, module.execSize⟩ :: t.log } ∧
        Accounted { t with
          modules := t.modules.set i module
          log := .alloc ⟨.rwe, module.exec, module.execSize⟩ :: t.log } :=
    ⟨hpr.next (.inr ⟨_, rfl⟩) rfl rfl List.length_set, hac.alloc rfl (held module _)⟩
  simp only [wp, privateLoadBinary]
  cases Elf.initBinary { memory := P.memory t.log, binary := t.modules.getD i {} } with
  | error e u =>
    refine ⟨hpr.next (.inl rfl) rfl rfl List.length_set, hac.congr rfl ?_⟩
    have same := held { t.modules.getD i {} with ef := u.binary.ef } t.log
    rwa [show image { t.modules.getD i {} with ef := u.binary.ef } = [] from keep_null none] at same
  | ok a u =>
    dsimp only
    have exec := Elf.placeBinary_exec (P.alloc t.log .rwe)
      { u with binary := { t.modules.getD i {} with ef := u.binary.ef } }
    rw [wp] at exec
    cases hres : Elf.placeBinary (P.alloc t.log .rwe)
        { u with binary := { t.modules.getD i {} with ef := u.binary.ef } } with
    | error e v => exact hp v.binary
    | ok a v =>
      rw [hres] at exec
      exact ⟨(hp v.binary).1, (hp v.binary).2, v.binary, exec, rfl⟩


theorem bfelfLoad_spec (hpr : Prepared s t) (hac : Accounted t) (none : ∀ m ∈ t.modules, m.exec = 0) :
    wp (bfelfLoad P) (fun _ u => Prepared s u ∧ Accounted u ∧ ∀ m ∈ u.modules, m.exec ≠ 0)
      (fun _ u => Prepared s u ∧ Accounted u) t := by
  rw [bfelfLoad, wp_bind, wp_get, wp_ite]
  split
  · exact ⟨hpr, hac⟩
  · rw [wp_bind]
    -- Before round `i` the first `i` modules have an image, the others none.
    refine wp_loop (fun i u => Prepared s u ∧ Accounted u ∧ u.modules.length = t.modules.length ∧
      (∀ j < i, (u.modules.getD j {}).exec ≠ 0) ∧ ∀ j, i ≤ j → j < t.modules.length → (u.modules.getD j {}).exec = 0)
      ⟨hpr, hac, rfl, fun j hb => absurd hb (Nat.not_lt_zero j), fun j _ hb => ?_⟩ ?_ ?_
    · rw [List.getD_eq_getElem?_getD, List.getElem?_eq_getElem hb]
      exact none _ (List.getElem_mem hb)
    · intro i u hb ⟨hpr, hac, hl, hld, left⟩
      refine wp_mono ?_ (fun _ _ ends => ends) (privateLoadBinary_spec hpr hac (hl ▸ hb) (left i (Nat.le_refl i) hb))
      intro _ v ⟨hpr, hac, module, exec, hr⟩
      have here : (v.modules.getD i {}) = module := by
        rw [hr, List.getD_eq_getElem?_getD, List.getElem?_set_self (hl ▸ hb)]
        rfl
      have hot (j : Nat) (ho : i ≠ j) : v.modules.getD j {} = u.modules.getD j {} := by
        rw [hr, List.getD_eq_getElem?_getD, List.getElem?_set_ne ho, List.getD_eq_getElem?_getD]
      refine ⟨hpr, hac, by rw [hr, List.length_set, hl], fun j hlo => ?_, fun j hlo hu => ?_⟩
      · by_cases last : i = j
        · rw [← last, here]
          exact exec
        · rw [hot j last]
          exact hld j (by omega)
      · rw [hot j (by omega)]
        exact left j (by omega) hu
    · intro u ⟨hpr, hac, hl, hld, _⟩
      rw [wp_bind, wp_get, wp_ite]
      split
      · exact ⟨hpr, hac⟩
      · refine ⟨hpr, hac, fun m mem => ?_⟩
        obtain ⟨j, here⟩ := List.mem_iff_getElem?.mp mem
        have hb : j < t.modules.length := hl ▸ (List.getElem?_eq_some_iff.mp here).1
        have exec := hld j hb
        rwa [List.getD_eq_getElem?_getD, here] at exec

/-- Nothing is held. -/
structure Blank (s : Globals) : Prop where
  stack : s.stack = 0
  tls : s.tls = 0
  modules : ∀ m ∈ s.modules, m.exec = 0

/-- The runtime is initialised last, with all modules in memory. -/
theorem loadBegin_spec (hac : Accounted s) (hbl : Blank s) : wp (loadBegin P)
      (fun _ t => ∃ u, Prepared s u ∧ Accounted u ∧ (∀ m ∈ u.modules, m.exec ≠ 0) ∧
        t = { u with log := .call 0 .init success :: u.log })
      (fun _ t => ∃ u, Prepared s u ∧ Accounted u ∧
        (t = u ∨ ∃ ret, ret ≠ success ∧ t = { u with log := .call 0 .init ret :: u.log })) s := by
  have hfa (e : Exit) (u : Globals) (ends : Prepared s u ∧ Accounted u) : ∃ u', Prepared s u' ∧ Accounted u' ∧
      (u = u' ∨ ∃ ret, ret ≠ success ∧ u = { u' with log := .call 0 .init ret :: u'.log }) :=
    ⟨u, ends.1, ends.2, .inl rfl⟩
  rw [loadBegin, wp_bind]
  refine wp_mono ?_ hfa (privateSetupStack_spec (.refl s) hac hbl.stack)
  intro _ t ⟨hpr, hac, tls, hm⟩
  rw [wp_bind]
  refine wp_mono ?_ hfa (privateSetupTls_spec hpr hac (tls.trans hbl.tls))
  intro _ t' ⟨hpr, hac, hm'⟩
  rw [wp_bind, privateSetupRsdp, wp_modify, wp_bind]
  have hs : Prepared s { t' with rsdp := P.getRsdp t'.log } := hpr.next (.inl rfl) rfl rfl rfl
  have none : ∀ m ∈ t'.modules, m.exec = 0 := by
    rw [hm', hm]
    exact hbl.modules
  refine wp_mono ?_ hfa (bfelfLoad_spec hs (hac.congr rfl (.refl _)) none)
  intro _ u ⟨hpr, hac, hld⟩
  refine wp_callVmm fun ret => ?_
  split
  · next hsu => exact ⟨u, hpr, hac, hld, by rw [hsu]⟩
  · next hrfd => exact ⟨u, hpr, hac, .inr ⟨ret, hrfd, rfl⟩⟩

/-! ## Releasing -/

/-- The events of freeing the buffers one after another. -/
def released (buffers : List Buffer) : List Event := (buffers.map Event.free).reverse

theorem released_append (a b : List Buffer) (log : List Event) :
    released (a ++ b) ++ log = released b ++ (released a ++ log) := by
  rw [released, List.map_append, List.reverse_append, List.append_assoc, ← released, ← released]

/-- The first buffer is freed first. -/
theorem released_cons (b : Buffer) (buffers : List Buffer) (log : List Event) :
    released (b :: buffers) ++ log = released buffers ++ (.free b :: log) := by
  rw [show b :: buffers = [b] ++ buffers from rfl, released_append]
  rfl

theorem free_eq (pool : Pool) (ptr size : Word) (s : Globals) :
    (if ptr ≠ 0 then platformFree pool ptr size else pure ()) s =
      .ok () { s with log := released (Buffer.keep ⟨pool, ptr, size⟩) ++ s.log } := by
  by_cases null : ptr = 0
  · rw [if_neg (not_not.mpr null), keep_null null]
    rfl
  · rw [if_pos null, keep_some null]
    rfl

theorem freeModules_eq (modules : List Binary) (s : Globals) :
    freeModules modules s = .ok () { s with log := released (modules.flatMap image) ++ s.log } := by
  induction modules generalizing s with
  | nil => rfl
  | cons module rest ih =>
    have first : freeModule module s = .ok () { s with log := released (image module) ++ s.log } := free_eq _ _ _ s
    rw [freeModules, bind_of_ok first, ih, List.flatMap_cons, released_append]

/-- The state after a reset: everything that is held is freed. -/
def Globals.reset (s : Globals) : Globals where
  tlsSize := s.tlsSize
  stackSize := s.stackSize
  log := released (s.modules.flatMap image ++ Buffer.keep ⟨.rw, s.tls, s.tlsSize⟩ ++
    Buffer.keep ⟨.rw, s.stack, s.stackSize⟩) ++ s.log

theorem commonReset_eq (s : Globals) : commonReset s = .ok () s.reset := by
  rw [commonReset, get_bind, bind_of_ok (freeModules_eq s.modules s), Globals.reset, released_append, released_append]
  dsimp only
  by_cases tls : s.tls = 0
  · rw [if_neg (not_not.mpr tls), keep_null (b := ⟨.rw, s.tls, s.tlsSize⟩) tls]
    by_cases hs : s.stack = 0
    · rw [if_neg (not_not.mpr hs), keep_null hs]
      rfl
    · rw [if_pos hs, keep_some hs]
      rfl
  · rw [if_pos tls, keep_some (b := ⟨.rw, s.tls, s.tlsSize⟩) tls]
    by_cases hs : s.stack = 0
    · rw [if_neg (not_not.mpr hs), keep_null hs]
      rfl
    · rw [if_pos hs, keep_some hs]
      rfl

theorem outstanding_released {buffers live : List Buffer} {log : List Event} (ha : outstanding log = some live)
    (same : live.Perm buffers) : outstanding (released buffers ++ log) = some [] := by
  induction buffers generalizing live log with
  | nil =>
    rw [same.eq_nil] at ha
    exact ha
  | cons b rest ih =>
    have mem : b ∈ live := same.mem_iff.mpr List.mem_cons_self
    have hfre : outstanding (.free b :: log) = some (live.erase b) := by
      rw [outstanding, ha]
      exact if_pos mem
    have left : (live.erase b).Perm rest := by
      have := same.erase b
      rwa [List.erase_cons_head] at this
    rw [released_cons]
    exact ih hfre left

/-- After a reset every buffer has been freed once. -/
theorem Accounted.reset (hac : Accounted s) : outstanding s.reset.log = some [] := by
  obtain ⟨live, ha, same⟩ := hac
  refine outstanding_released ha (same.trans ?_)
  rw [Globals.held, ← List.append_assoc]
  exact List.perm_append_comm.trans ((List.perm_append_comm.append_left _).trans (by rw [List.append_assoc]))

/-! ## Starting and stopping -/

def Event.IsVmm : Event → Prop
  | .call _ (.vmmInit _) _ => True
  | .call _ (.vmmFini _) _ => True
  | _ => False

/-- Nothing has happened except that the VMM was started or stopped on CPUs. -/
def Switched (s t : Globals) : Prop := ∃ es, (∀ e ∈ es, e.IsVmm) ∧
  t = { s with log := es ++ s.log, status := t.status, numCpusStarted := t.numCpusStarted }

theorem Switched.refl (s : Globals) : Switched s s := ⟨[], by simp, rfl⟩

theorem Switched.set (hsw : Switched s t) (status : Status) (n : Nat) :
    Switched s { t with status := status, numCpusStarted := n } := by
  obtain ⟨es, all, same⟩ := hsw
  exact ⟨es, all, by rw [same]⟩

theorem Switched.call (hsw : Switched s t) {e : Event} (vmm : e.IsVmm) :
    Switched s { t with log := e :: t.log } := by
  obtain ⟨es, all, same⟩ := hsw
  exact ⟨e :: es, List.forall_mem_cons.mpr ⟨vmm, all⟩, by rw [same]; rfl⟩

/-- The VMM is started on the first `n` CPUs, and the counter says so. -/
structure Cpus (n : Nat) (d : Globals) : Prop where
  started : ∀ c, started c d.log = decide (c < n)
  count : d.numCpusStarted = n
  sent : WellSent d.log

theorem stopCpus_spec {n : Nat} (hsw : Switched s t) (cpus : Cpus n t) :
    wp (stopCpus P n) (fun _ u => Switched s u ∧ u.status = .loaded ∧ Cpus 0 u)
      (fun e u => Switched s u ∧ u.status = .corrupt ∧ WellSent u.log ∧ e ≠ .hangs) t := by
  induction n generalizing t with
  | zero => exact ⟨hsw.set .loaded t.numCpusStarted, rfl, cpus.started, cpus.count, cpus.sent⟩
  | succ n ih =>
    rw [stopCpus, wp_bind, wp_platformCallVmmOnCore]
    generalize P.callVmmOnCore t.log n (.vmmFini (BitVec.ofNat 64 n)) = ret
    have sent : WellSent (.call n (.vmmFini (BitVec.ofNat 64 n)) ret :: t.log) := by
      refine ⟨?_, cpus.sent⟩
      rw [Event.ProperStart, cpus.started]
      exact decide_eq_true (Nat.lt_succ_self n)
    have hc := hsw.call (e := .call n (.vmmFini (BitVec.ofNat 64 n)) ret) trivial
    rw [wp_ite]
    split
    · exact ⟨hc.set .corrupt t.numCpusStarted, rfl, sent, by simp⟩
    · next hs =>
      rw [wp_bind, wp_modify]
      refine ih (hc.set t.status (t.numCpusStarted - 1)) ⟨fun c => ?_, ?_, sent⟩
      · have fini : Event.starts c (.call n (.vmmFini (BitVec.ofNat 64 n)) ret) = if n = c ∧ ret = success then some false else none := rfl
        rw [not_not.mp hs] at fini ⊢
        by_cases this : n = c
        · rw [if_pos ⟨this, rfl⟩] at fini
          rw [started, latest_some fini]
          simp [this]
        · rw [if_neg fun both => this both.1] at fini
          rw [started, latest_silent fini, ← started, cpus.started, decide_eq_decide]
          omega
      · show t.numCpusStarted - 1 = n
        rw [cpus.count]
        rfl

theorem startCpu_spec {n : Nat} (hsw : Switched s t) (cpus : Cpus n t) :
    wp (startCpu P n) (fun _ u => Switched s u ∧ u.status = t.status ∧ Cpus (n + 1) u)
      (fun _ u => Switched s u ∧ u.status = t.status ∧ Cpus n u) t := by
  rw [startCpu, wp_bind]
  refine wp_callVmm fun ret => ?_
  have sent : WellSent (.call n (.vmmInit (BitVec.ofNat 64 n)) ret :: t.log) := by
    refine ⟨?_, cpus.sent⟩
    rw [Event.ProperStart, cpus.started]
    exact decide_eq_false (Nat.lt_irrefl n)
  have hc := hsw.call (e := .call n (.vmmInit (BitVec.ofNat 64 n)) ret) trivial
  have init (c : Nat) : Event.starts c (.call n (.vmmInit (BitVec.ofNat 64 n)) ret) =
      if n = c ∧ ret = success then some true else none := rfl
  split
  · next hs =>
    rw [wp_modify]
    refine ⟨hc.set t.status (t.numCpusStarted + 1), rfl, fun c => ?_, congrArg (· + 1) cpus.count, sent⟩
    have here := init c
    by_cases this : n = c
    · rw [if_pos ⟨this, hs⟩] at here
      rw [started, latest_some here]
      simp [this]
    · rw [if_neg fun both => this both.1] at here
      rw [started, latest_silent here, ← started, cpus.started, decide_eq_decide]
      omega
  · next hrfd =>
    refine ⟨hc, rfl, fun c => ?_, cpus.count, sent⟩
    have here := init c
    rw [if_neg fun both => hrfd both.2] at here
    rw [started, latest_silent here, ← started, cpus.started]

end Gevisor.Driver
