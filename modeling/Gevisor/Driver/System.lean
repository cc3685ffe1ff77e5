import Gevisor.Driver.Effects
import Mathlib.Logic.Relation

/-! # The driver as a system

The calls a client can make, the transitions they consist of, and the invariant that holds between calls.
-/

namespace Gevisor.Driver

open Lib
open Elf (Word Binary)
open Relation (ReflTransGen)

variable {n : Nat} {e : Event}

inductive Call
  | addModule (file fsize : Word)
  | load
  | unload
  | start
  | stop
  | fini
  deriving DecidableEq, Repr

def Call.run (P : Platform) : Call → DriverM Unit
  | .addModule file fsize => commonAddModule file fsize
  | .load => commonLoadVmm P
  | .unload => commonUnloadVmm P
  | .start => commonStartVmm P
  | .stop => commonStopVmm P
  | .fini => commonFini P

/-- One call; there is no next state if it does not return. -/
def step (P : Platform) (s : Globals) (call : Call) : Option Globals :=
  match call.run P s with
  | .ok _ t => some t
  | .error (.returned _) t => some t
  | .error .hangs _ => none

/-- The state in which the driver starts. -/
def boot : Globals := {}

/-! ## Transitions -/

section

variable (P : Platform)

/-- `v` is the state after a load that failed in its first part. -/
def BeginFailed (s v : Globals) : Prop := ∃ u, Prepared s u ∧ Accounted u ∧
  (v = u ∨ ∃ ret, ret ≠ success ∧ v = { u with log := .call 0 .init ret :: u.log })

/-- `v` is the state after the first part of a load and some of the second. -/
def Begun (s v : Globals) : Prop := ∃ u, Prepared s u ∧ Accounted u ∧ (∀ m ∈ u.modules, m.exec ≠ 0) ∧
  Described { u with log := .call 0 .init success :: u.log } v

/-- What calls do, except for a load that fails after the runtime has been initialised. -/
inductive Transition : Globals → Globals → Prop
  | add {s : Globals} (file fsize : Word) (unloaded : s.status = .unloaded) :
    Transition s { s with modules := s.modules ++ [{ file := file, fileSize := fsize }] }
  | reset {s : Globals} (unloaded : s.status = .unloaded) : Transition s s.reset
  | giveUp {s v : Globals} (unloaded : s.status = .unloaded) (failed : BeginFailed s v) : Transition s v.reset
  | load {s v : Globals} (unloaded : s.status = .unloaded) (begun : Begun s v) : Transition s { v with status := .loaded }
  | unload {s : Globals} (loaded : s.status = .loaded) :
    Transition s (Globals.reset { s with log := .call 0 .fini success :: s.log })
  | corrupt {s : Globals} {ret : Word} (loaded : s.status = .loaded) (refused : ret ≠ success) :
    Transition s { s with log := .call 0 .fini ret :: s.log, status := .corrupt }
  | switch {s t : Globals} (live : s.status = .loaded ∨ s.status = .running) (switched : Switched s t)
    (ends : (t.status = .loaded ∧ Cpus 0 t) ∨ (t.status = .running ∧ Cpus P.numCpus t) ∨
      (t.status = .corrupt ∧ WellSent t.log)) : Transition s t

/-- A load that fails after the runtime has been initialised. -/
def Lost (s t : Globals) : Prop := s.status = .unloaded ∧ s.modules ≠ [] ∧ ∃ v, Begun s v ∧ t = v.reset

/-- What holds between calls. -/
structure Coherent (s : Globals) : Prop where
  accounted : Accounted s
  sent : WellSent s.log
  unloaded : s.status = .unloaded → Blank s ∧ Cpus 0 s
  loaded : s.status = .loaded → Cpus 0 s
  running : s.status = .running → Cpus P.numCpus s

end

variable {P : Platform} {s t : Globals}

theorem coherent_boot : Coherent P boot where
  accounted := ⟨[], rfl, .refl _⟩
  sent := trivial
  unloaded := fun _ => ⟨⟨rfl, rfl, by simp [boot]⟩, fun c => by simp [started, latest, boot], rfl, trivial⟩
  loaded := fun absurd => by cases absurd
  running := fun absurd => by cases absurd

/-! ## Calm events -/

theorem Event.starts_of_not_vmm (calm : ¬ e.IsVmm) (c : Nat) : e.starts c = none := by
  cases e with
  | alloc b => rfl
  | free b => rfl
  | call cpuid request ret =>
    cases request with
    | vmmInit _ => exact absurd trivial calm
    | vmmFini _ => exact absurd trivial calm
    | _ => rfl

theorem Event.proper_of_not_vmm (calm : ¬ e.IsVmm) (rest : List Event) : e.ProperStart rest := by
  cases e with
  | alloc b => trivial
  | free b => trivial
  | call cpuid request ret =>
    cases request with
    | vmmInit _ => exact absurd trivial calm
    | vmmFini _ => exact absurd trivial calm
    | _ => trivial

/-- Events other than starts and stops do not change which CPUs are started. -/
theorem Cpus.calm (cpus : Cpus n s) (es : List Event) (log : t.log = es ++ s.log) (calm : ∀ e ∈ es, ¬ e.IsVmm)
    (hc : t.numCpusStarted = s.numCpusStarted) : Cpus n t where
  started c := by
    rw [log, Driver.started, latest_append fun e mem => Event.starts_of_not_vmm (calm e mem) c]
    exact cpus.started c
  count := hc.trans cpus.count
  sent := by
    rw [log]
    exact (chronicle_append fun e mem rest => Event.proper_of_not_vmm (calm e mem) rest).mpr cpus.sent

theorem Cpus.prepared (cpus : Cpus n s) (hpr : Prepared s t) : Cpus n t := by
  obtain ⟨es, log, ha⟩ := hpr.log
  refine cpus.calm es log (fun e mem vmm => ?_) hpr.numCpusStarted
  obtain ⟨b, rfl⟩ := ha e mem
  exact vmm

theorem Cpus.described (cpus : Cpus n s) (hds : Described s t) : Cpus n t := by
  obtain ⟨es, rfl, hde⟩ := hds
  refine cpus.calm _ rfl (fun e mem vmm => ?_) rfl
  have hd := hde e mem
  cases e with
  | alloc b => exact hd
  | free b => exact hd
  | call cpuid request ret =>
    cases request with
    | vmmInit _ => exact hd
    | vmmFini _ => exact hd
    | _ => exact vmm

theorem mem_released {buffers : List Buffer} (mem : e ∈ released buffers) : ∃ b ∈ buffers, e = .free b := by
  rw [released, List.mem_reverse, List.mem_map] at mem
  obtain ⟨b, mem, rfl⟩ := mem
  exact ⟨b, mem, rfl⟩

theorem Cpus.reset (cpus : Cpus 0 s) : Cpus 0 s.reset := by
  refine cpus.calm _ rfl (fun e mem vmm => ?_) cpus.count.symm
  obtain ⟨b, -, rfl⟩ := mem_released mem
  exact vmm

theorem Accounted.described (hac : Accounted s) (hds : Described s t) : Accounted t := by
  obtain ⟨live, ha, same⟩ := hac
  obtain ⟨es, rfl, hde⟩ := hds
  refine ⟨live, ?_, same⟩
  refine (outstanding_calls fun e mem => ?_).trans ha
  have hd := hde e mem
  cases e with
  | alloc b => exact hd.elim
  | free b => exact hd.elim
  | call cpuid request ret => exact ⟨cpuid, request, ret, rfl⟩

theorem Accounted.call (hac : Accounted s) (cpuid : Nat) (request : Request) (ret : Word) :
    Accounted { s with log := .call cpuid request ret :: s.log } := hac

/-! ## The invariant -/

theorem coherent_reset (hac : Accounted s) (cpus : Cpus 0 s) : Coherent P s.reset where
  accounted := ⟨[], hac.reset, .refl _⟩
  sent := cpus.reset.sent
  unloaded := fun _ => ⟨⟨rfl, rfl, by simp [Globals.reset]⟩, cpus.reset⟩
  loaded := fun absurd => by cases absurd
  running := fun absurd => by cases absurd

theorem BeginFailed.kept (hfa : BeginFailed s t) (cpus : Cpus 0 s) : Accounted t ∧ Cpus 0 t := by
  obtain ⟨u, hpr, hac, ends⟩ := hfa
  have cpus := cpus.prepared hpr
  cases ends with
  | inl same => exact same ▸ ⟨hac, cpus⟩
  | inr hrfd =>
    obtain ⟨ret, -, rfl⟩ := hrfd
    exact ⟨hac.call _ _ _, cpus.calm [_] rfl (by simp [Event.IsVmm]) rfl⟩

theorem Begun.kept (hb : Begun s t) (cpus : Cpus 0 s) : Accounted t ∧ Cpus 0 t := by
  obtain ⟨u, hpr, hac, -, hds⟩ := hb
  have cpus := cpus.prepared hpr
  have init : Cpus 0 { u with log := .call 0 .init success :: u.log } := cpus.calm [_] rfl (by simp [Event.IsVmm]) rfl
  exact ⟨(hac.call _ _ _).described hds, init.described hds⟩

theorem Switched.accounted (hsw : Switched s t) (hac : Accounted s) : Accounted t := by
  obtain ⟨live, ha, same⟩ := hac
  obtain ⟨es, vmm, next⟩ := hsw
  refine ⟨live, ?_, ?_⟩
  · rw [next]
    refine (outstanding_calls fun e mem => ?_).trans ha
    have vmm := vmm e mem
    cases e with
    | alloc b => exact vmm.elim
    | free b => exact vmm.elim
    | call cpuid request ret => exact ⟨cpuid, request, ret, rfl⟩
  · rw [next]
    exact same

/-- Every transition keeps the invariant. -/
theorem Coherent.transition (hc : Coherent P s) (transition : Transition P s t) : Coherent P t := by
  cases transition with
  | add file fsize hun =>
    obtain ⟨hbl, cpus⟩ := hc.unloaded hun
    have hi : (s.modules ++ [({ file := file, fileSize := fsize } : Binary)]).flatMap image = s.modules.flatMap image := by
      rw [List.flatMap_append, List.flatMap_cons, show image ({ file := file, fileSize := fsize } : Binary) = [] from rfl]
      simp
    refine ⟨hc.accounted.congr rfl ?_, hc.sent, fun _ => ⟨⟨hbl.stack, hbl.tls, ?_⟩, cpus.calm [] rfl (by simp) rfl⟩, ?_, ?_⟩
    · rw [Globals.held, hi]
      exact .refl _
    · intro m mem
      cases List.mem_append.mp mem with
      | inl mem => exact hbl.modules m mem
      | inr mem => rw [List.mem_singleton.mp mem]
    · intro hld
      exact absurd (hun.symm.trans hld) (by decide)
    · intro hr
      exact absurd (hun.symm.trans hr) (by decide)
  | reset hun => exact coherent_reset hc.accounted (hc.unloaded hun).2
  | giveUp hun hfa =>
    obtain ⟨hac, cpus⟩ := hfa.kept (hc.unloaded hun).2
    exact coherent_reset hac cpus
  | load hun hb =>
    obtain ⟨hac, cpus⟩ := hb.kept (hc.unloaded hun).2
    exact ⟨hac, cpus.sent, (by intro h; cases h), fun _ => cpus.calm [] rfl (by simp) rfl, (by intro h; cases h)⟩
  | unload hld =>
    have cpus := hc.loaded hld
    exact coherent_reset (hc.accounted.call _ _ _) (cpus.calm [_] rfl (by simp [Event.IsVmm]) rfl)
  | @corrupt ret hld hrfd =>
    have cpus : Cpus 0 { s with log := .call 0 .fini ret :: s.log } :=
      (hc.loaded hld).calm [_] rfl (by simp [Event.IsVmm]) rfl
    exact ⟨hc.accounted.call _ _ _, cpus.sent, (by intro h; cases h), (by intro h; cases h), (by intro h; cases h)⟩
  | switch live hsw ends =>
    have hac := hsw.accounted hc.accounted
    obtain ⟨hs, cpus⟩ | ⟨hs, cpus⟩ | ⟨hs, sent⟩ := ends
    · exact ⟨hac, cpus.sent, fun h => absurd (hs.symm.trans h) (by decide), fun _ => cpus,
        fun h => absurd (hs.symm.trans h) (by decide)⟩
    · exact ⟨hac, cpus.sent, fun h => absurd (hs.symm.trans h) (by decide),
        fun h => absurd (hs.symm.trans h) (by decide), fun _ => cpus⟩
    · exact ⟨hac, sent, fun h => absurd (hs.symm.trans h) (by decide),
        fun h => absurd (hs.symm.trans h) (by decide), fun h => absurd (hs.symm.trans h) (by decide)⟩

theorem Coherent.transitions (hc : Coherent P s) (hs : ReflTransGen (Transition P) s t) : Coherent P t := by
  induction hs with
  | refl => exact hc
  | tail _ ht ih => exact ih.transition ht

theorem Coherent.lost (hc : Coherent P s) (lost : Lost s t) : Coherent P t := by
  obtain ⟨hun, -, v, hb, rfl⟩ := lost
  obtain ⟨hac, cpus⟩ := hb.kept (hc.unloaded hun).2
  exact coherent_reset hac cpus

/-! ## Calls -/

/-- A call that returned, with whatever result, consists of transitions; one that does not return has at
least sent nothing improper. -/
def Ends (P : Platform) (s : Globals) : Exit → Globals → Prop
  | .hangs, t => WellSent t.log
  | .returned _, t => ReflTransGen (Transition P) s t

theorem commonAddModule_spec (file fsize : Word) (s : Globals) :
    wp (commonAddModule file fsize) (fun _ t => ReflTransGen (Transition P) s t) (Ends P s) s := by
  rw [commonAddModule, wp_ite]
  split
  · exact .refl
  · rw [wp_bind, wp_get]
    cases hs : s.status with
    | corrupt => exact .refl
    | loaded => exact .refl
    | running => exact .refl
    | unloaded =>
      dsimp only
      rw [wp_ite]
      split
      · exact .refl
      · exact .single (.add file fsize hs)

theorem commonUnloadVmm_spec (s : Globals) :
    wp (commonUnloadVmm P) (fun _ t => ReflTransGen (Transition P) s t) (Ends P s) s := by
  rw [commonUnloadVmm, wp_bind, wp_get]
  cases hs : s.status with
  | corrupt => exact .refl
  | running => exact .refl
  | unloaded => exact (wp_of_ok (commonReset_eq s)).mpr (.single (.reset hs))
  | loaded =>
    dsimp only
    rw [wp_bind, wp_platformCallVmmOnCore, wp_ite]
    generalize P.callVmmOnCore s.log 0 .fini = ret
    split
    · next hrfd => exact .single (.corrupt hs hrfd)
    · next hsu =>
      rw [not_not.mp hsu]
      exact (wp_of_ok (commonReset_eq _)).mpr (.single (.unload hs))

/-- Stopping, also in the middle of starting. -/
theorem commonStopVmm_switches (live : s.status = .loaded ∨ s.status = .running) (hsw : Switched s t)
    (hst : t.status = .loaded ∨ t.status = .running) (cpus : Cpus n t) :
    wp (commonStopVmm P) (fun _ u => ReflTransGen (Transition P) s u) (Ends P s) t := by
  have hso : wp (stopCpus P t.numCpusStarted) (fun _ u => ReflTransGen (Transition P) s u) (Ends P s) t := by
    rw [cpus.count]
    refine wp_mono (fun _ u ends => ?_) (fun e u ends => ?_) (stopCpus_spec hsw cpus)
    · exact .single (.switch live ends.1 (.inl ends.2))
    · obtain ⟨hsw, hs, sent, hret⟩ := ends
      cases e with
      | hangs => exact absurd rfl hret
      | returned ret => exact .single (.switch live hsw (.inr (.inr ⟨hs, sent⟩)))
  rw [commonStopVmm, wp_bind, wp_get]
  cases hs : t.status with
  | corrupt => rw [hs] at hst; cases hst <;> contradiction
  | unloaded => rw [hs] at hst; cases hst <;> contradiction
  | loaded => exact hso
  | running => exact hso

theorem commonStopVmm_spec (hc : Coherent P s) :
    wp (commonStopVmm P) (fun _ t => ReflTransGen (Transition P) s t) (Ends P s) s := by
  cases hs : s.status with
  | corrupt =>
    rw [commonStopVmm, wp_bind, wp_get, hs]
    exact .refl
  | unloaded =>
    rw [commonStopVmm, wp_bind, wp_get, hs]
    exact .refl
  | loaded => exact commonStopVmm_switches (.inl hs) (.refl s) (.inl hs) (hc.loaded hs)
  | running => exact commonStopVmm_switches (.inr hs) (.refl s) (.inr hs) (hc.running hs)

theorem commonStartVmm_spec (hc : Coherent P s) :
    wp (commonStartVmm P) (fun _ t => ReflTransGen (Transition P) s t) (Ends P s) s := by
  rw [commonStartVmm, wp_bind, wp_get]
  cases hs : s.status with
  | corrupt => exact .refl
  | running => exact .refl
  | unloaded => exact .refl
  | loaded =>
    have cpus := hc.loaded hs
    dsimp only
    rw [wp_bind, wp_modify, wp_bind]
    refine wp_onFailure ?_
    -- Before round `i` the VMM is started on the first `i` CPUs; a failure leaves it so.
    refine wp_loop (fun i t => Switched s t ∧ t.status = .loaded ∧ Cpus i t) ?_ ?_ ?_
    · exact ⟨(Switched.refl s).set s.status 0, hs, cpus.started, rfl, cpus.sent⟩
    · intro i t _ ⟨hsw, hld, cpus⟩
      refine wp_mono (fun _ u ends => ⟨ends.1, ends.2.1.trans hld, ends.2.2⟩) (fun e u ends => ?_)
        (startCpu_spec hsw cpus)
      obtain ⟨hsw, same, cpus⟩ := ends
      cases e with
      | hangs => exact cpus.sent
      | returned ret =>
        refine wp_mono (fun _ v ends => ends) (fun e v ends => ?_)
          (commonStopVmm_switches (.inl hs) hsw (.inl (same.trans hld)) cpus)
        cases e with
        | hangs => exact ends
        | returned ret' => exact ends
    · intro t ⟨hsw, _, cpus⟩
      refine .single (.switch (.inl hs) (hsw.set .running t.numCpusStarted) (.inr (.inl ⟨rfl, ?_⟩)))
      exact cpus.calm [] rfl (by simp) rfl

/-! ### Loading -/

/-- A load in state `s` fails after the runtime has been initialised. -/
def Interrupted (P : Platform) (s : Globals) : Prop :=
  ∃ v, loadBegin P s = .ok () v ∧ ∃ ret w, loadEnd P v = .error (.returned ret) w

variable {v : Globals} {c : DriverM Unit}

/-- Rolling back a load that failed: the status is still the one before the load. -/
theorem rollback {ret : Word} (hun : v.status = .unloaded) (hfa : c s = .error (.returned ret) v) :
    onFailure c (commonUnloadVmm P) s = .error (.returned ret) v.reset := by
  have hu : commonUnloadVmm P v = .ok () v.reset := by
    rw [commonUnloadVmm, get_bind, hun]
    exact commonReset_eq v
  simp only [onFailure, hfa, hu]

theorem onFailure_hangs {cleanup : DriverM Unit} (hfa : c s = .error .hangs v) :
    onFailure c cleanup s = .error .hangs v := by
  simp only [onFailure, hfa]

theorem BeginFailed.status (hfa : BeginFailed s t) : t.status = s.status := by
  obtain ⟨u, hpr, -, ends⟩ := hfa
  cases ends with
  | inl same => rw [same, hpr.status]
  | inr hrfd =>
    obtain ⟨ret, -, rfl⟩ := hrfd
    exact hpr.status

theorem Begun.status (hb : Begun s t) : t.status = s.status := by
  obtain ⟨u, hpr, -, -, es, same, -⟩ := hb
  rw [same]
  exact hpr.status

/-- What a load does that has something to do. -/
theorem commonLoadVmm_cases (hc : Coherent P s) (hun : s.status = .unloaded) (hm : s.modules ≠ []) :
    (Interrupted P s ∧ ∃ ret t, commonLoadVmm P s = .error (.returned ret) t ∧ Lost s t) ∨ (¬ Interrupted P s ∧
        wp (commonLoadVmm P) (fun _ t => ReflTransGen (Transition P) s t) (Ends P s) s) := by
  obtain ⟨hbl, cpus⟩ := hc.unloaded hun
  have hst : commonLoadVmm P s = onFailure (do loadBegin P; loadEnd P) (commonUnloadVmm P) s := by
    rw [commonLoadVmm, get_bind, hun]
    exact congrFun (if_neg (by simpa using hm)) s
  have first := loadBegin_spec (P := P) hc.accounted hbl
  rw [wp] at first
  cases hb : loadBegin P s with
  | error e v =>
    rw [hb] at first
    have hfa : BeginFailed s v := first
    have both : (do loadBegin P; loadEnd P : DriverM Unit) s = .error e v := bind_of_error hb _
    refine .inr ⟨fun hi => ?_, ?_⟩
    · obtain ⟨w, ok, -⟩ := hi
      cases hb.symm.trans ok
    · cases e with
      | hangs =>
        rw [wp_of_error (hst.trans (onFailure_hangs both))]
        exact (hfa.kept cpus).2.sent
      | returned ret =>
        rw [wp_of_error (hst.trans (rollback (hfa.status.trans hun) both))]
        exact .single (.giveUp hun hfa)
  | ok a v =>
    rw [hb] at first
    obtain ⟨u, hpr, hac, hld, same⟩ := first
    have hbe {w : Globals} (hds : Described v w) : Begun s w := ⟨u, hpr, hac, hld, same ▸ hds⟩
    have hs := loadEnd_spec (P := P) v
    rw [wp] at hs
    cases he : loadEnd P v with
    | ok b w =>
      rw [he] at hs
      obtain ⟨w', hds, rfl⟩ := hs
      have both : (do loadBegin P; loadEnd P : DriverM Unit) s = .ok b { w' with status := .loaded } :=
        (bind_of_ok hb _).trans he
      refine .inr ⟨fun hi => ?_, ?_⟩
      · obtain ⟨v', ok, ret, w, hfa⟩ := hi
        cases hb.symm.trans ok
        cases he.symm.trans hfa
      · have ends : commonLoadVmm P s = .ok b { w' with status := .loaded } := by
          rw [hst]
          simp only [onFailure, both]
        rw [wp_of_ok ends]
        exact .single (.load hun (hbe hds))
    | error e w =>
      rw [he] at hs
      have both : (do loadBegin P; loadEnd P : DriverM Unit) s = .error e w := (bind_of_ok hb _).trans he
      cases e with
      | hangs =>
        refine .inr ⟨fun hi => ?_, ?_⟩
        · obtain ⟨v', ok, ret, w', hfa⟩ := hi
          cases hb.symm.trans ok
          cases he.symm.trans hfa
        · rw [wp_of_error (hst.trans (onFailure_hangs both))]
          exact ((hbe hs).kept cpus).2.sent
      | returned ret =>
        refine .inl ⟨⟨v, hb, ret, w, he⟩, ret, w.reset, ?_, hun, hm, w, hbe hs, rfl⟩
        exact hst.trans (rollback ((hbe hs).status.trans hun) both)

/-- A load that has nothing to do. -/
theorem commonLoadVmm_idle (idle : s.status ≠ .unloaded ∨ s.modules = []) :
    wp (commonLoadVmm P) (fun _ t => t = s) (fun e t => e ≠ .hangs ∧ t = s) s := by
  rw [commonLoadVmm, wp_bind, wp_get]
  cases hs : s.status with
  | corrupt => exact ⟨by simp, rfl⟩
  | loaded => exact rfl
  | running => exact ⟨by simp, rfl⟩
  | unloaded =>
    have none : s.modules = [] := idle.resolve_left fun h => h hs
    rw [none]
    exact ⟨by simp, rfl⟩

theorem commonStopVmm_status (hc : Coherent P s) (hr : s.status = .running) :
    wp (commonStopVmm P) (fun _ t => t.status ≠ .running) (fun _ t => t.status ≠ .running) s := by
  have cpus := hc.running hr
  rw [commonStopVmm, wp_bind, wp_get, hr]
  dsimp only
  rw [cpus.count]
  refine wp_mono (fun _ t ends => ?_) (fun _ t ends => ?_) (stopCpus_spec (.refl s) cpus)
  · rw [ends.2.1]
    decide
  · rw [ends.2.1]
    decide

theorem commonUnloadVmm_status (hld : s.status = .loaded) :
    wp (commonUnloadVmm P) (fun _ t => t.status ≠ .running ∧ t.status ≠ .loaded)
      (fun _ t => t.status ≠ .running ∧ t.status ≠ .loaded) s := by
  rw [commonUnloadVmm, wp_bind, wp_get, hld]
  dsimp only
  rw [wp_bind, wp_platformCallVmmOnCore, wp_ite]
  split
  · exact ⟨by simp, by simp⟩
  · rw [wp_of_ok (commonReset_eq _)]
    exact ⟨by simp [Globals.reset], by simp [Globals.reset]⟩

/-- A call whose result is ignored, after other transitions. -/
theorem ignoreResult_spec {R : Globals → Prop} (hs : ReflTransGen (Transition P) s t)
    (ends : wp c (fun _ u => ReflTransGen (Transition P) t u) (Ends P t) t)
    (ha : wp c (fun _ u => R u) (fun _ u => R u) t) :
    wp (ignoreResult c) (fun _ u => ReflTransGen (Transition P) s u ∧ R u) (Ends P s) t := by
  rw [ignoreResult, wp_swallow]
  refine wp_mono (fun _ u both => ⟨hs.trans both.1, both.2⟩) (fun e u both => ?_) (wp_and ends ha)
  cases e with
  | hangs => exact both.1
  | returned ret => exact ⟨hs.trans both.1, both.2⟩

theorem commonFini_spec (hc : Coherent P s) :
    wp (commonFini P) (fun _ t => ReflTransGen (Transition P) s t) (Ends P s) s := by
  have last (t : Globals) (hs : ReflTransGen (Transition P) s t) (hst : t.status ≠ .running ∧ t.status ≠ .loaded) :
      wp (do
        let d ← get
        if d.status = .corrupt then fail vmmCorrupted
        else if 0 < d.modules.length then commonReset) (fun _ u => ReflTransGen (Transition P) s u) (Ends P s) t := by
    rw [wp_bind, wp_get, wp_ite, wp_ite]
    split
    · exact hs
    · next hso =>
      split
      · rw [wp_of_ok (commonReset_eq t)]
        refine hs.tail (.reset ?_)
        cases hsa : t.status with
        | unloaded => rfl
        | loaded => exact absurd hsa hst.2
        | running => exact absurd hsa hst.1
        | corrupt => exact absurd hsa hso
      · exact hs
  have hm (t : Globals) (hs : ReflTransGen (Transition P) s t) (hst : t.status ≠ .running) : wp (do
      let d ← get
      if d.status = .loaded then ignoreResult (commonUnloadVmm P)
      let d ← get
      if d.status = .corrupt then fail vmmCorrupted
      else if 0 < d.modules.length then commonReset) (fun _ u => ReflTransGen (Transition P) s u) (Ends P s) t := by
    rw [wp_bind, wp_get]
    dsimp only
    rw [wp_ite]
    split
    · next hld =>
      rw [wp_bind]
      exact wp_mono (fun _ u both => last u both.1 both.2) (fun _ _ ends => ends)
        (ignoreResult_spec hs (commonUnloadVmm_spec t) (commonUnloadVmm_status hld))
    · next ho => exact last t hs ⟨hst, ho⟩
  rw [commonFini, wp_bind, wp_get]
  dsimp only
  rw [wp_ite]
  split
  · next hr =>
    rw [wp_bind]
    exact wp_mono (fun _ u both => hm u both.1 both.2) (fun _ _ ends => ends)
      (ignoreResult_spec .refl (commonStopVmm_spec hc) (commonStopVmm_status hc hr))
  · next ho => exact hm s .refl ho

/-- What any call does. -/
theorem Call.run_spec (hc : Coherent P s) (call : Call) :
    wp (call.run P) (fun _ t => ReflTransGen (Transition P) s t)
      (fun e t => Ends P s e t ∨ (call = .load ∧ Interrupted P s ∧ Lost s t)) s := by
  cases call with
  | addModule file fsize => exact wp_mono (fun _ _ ends => ends) (fun _ _ ends => .inl ends) (commonAddModule_spec file fsize s)
  | unload => exact wp_mono (fun _ _ ends => ends) (fun _ _ ends => .inl ends) (commonUnloadVmm_spec s)
  | start => exact wp_mono (fun _ _ ends => ends) (fun _ _ ends => .inl ends) (commonStartVmm_spec hc)
  | stop => exact wp_mono (fun _ _ ends => ends) (fun _ _ ends => .inl ends) (commonStopVmm_spec hc)
  | fini => exact wp_mono (fun _ _ ends => ends) (fun _ _ ends => .inl ends) (commonFini_spec hc)
  | load =>
    by_cases idle : s.status ≠ .unloaded ∨ s.modules = []
    · refine wp_mono (fun _ t same => ?_) (fun e t ends => .inl ?_) (commonLoadVmm_idle idle)
      · rw [same]
      · cases e with
        | hangs => exact absurd rfl ends.1
        | returned ret =>
          rw [ends.2]
          exact .refl
    · rw [not_or, not_not] at idle
      cases commonLoadVmm_cases hc idle.1 idle.2 with
      | inl lost =>
        obtain ⟨hi, ret, t, ends, lost⟩ := lost
        exact (wp_of_error ends).mpr (.inr ⟨rfl, hi, lost⟩)
      | inr hco => exact wp_mono (fun _ _ ends => ends) (fun _ _ ends => .inl ends) hco.2

/-- A call that returns keeps the invariant. -/
theorem Coherent.step (hc : Coherent P s) {call : Call} (next : step P s call = some t) :
    Coherent P t ∧ (ReflTransGen (Transition P) s t ∨ (call = .load ∧ Interrupted P s ∧ Lost s t)) := by
  have ends := call.run_spec hc
  rw [Driver.step] at next
  rw [wp] at ends
  cases hres : call.run P s with
  | ok a u =>
    rw [hres] at next ends
    cases next
    exact ⟨hc.transitions ends, .inl ends⟩
  | error e u =>
    rw [hres] at next ends
    cases e with
    | hangs => cases next
    | returned ret =>
      cases next
      cases ends with
      | inl hs => exact ⟨hc.transitions hs, .inl hs⟩
      | inr lost => exact ⟨hc.lost lost.2.2, .inr lost⟩

end Gevisor.Driver
