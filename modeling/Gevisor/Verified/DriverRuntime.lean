import Gevisor.Driver.System
import Gevisor.Verified.ElfBounds

/-! # Initialisation and finalisation of the runtime

`common_load_vmm` sets the status at its very end. A load that fails after `BF_REQUEST_INIT` has succeeded is
rolled back in the status `VMM_UNLOADED`, in which `common_unload_vmm` frees the modules without
`BF_REQUEST_FINI`. Nothing else breaks the pairing.
-/

namespace Gevisor.Verified.DriverRuntime

open Lib Driver
open Elf (Word)
open Relation (ReflTransGen)

variable {P : Platform} {s t : Globals} {log : List Event}

/-! ## Events -/

/-- Neither about the runtime nor the release of a buffer. -/
def Calm (e : Event) : Prop := (∀ rest, e.ProperRuntime rest) ∧ e.initialises = none

variable {e : Event} {buffers : List Buffer} {call : Call}

theorem calm_description (hd : e.IsDescription) : Calm e := by
  cases e with
  | alloc b => exact hd.elim
  | free b => exact hd.elim
  | call cpuid request ret =>
    cases request with
    | addMdl md => exact ⟨fun _ => trivial, rfl⟩
    | setRsdp rsdp => exact ⟨fun _ => trivial, rfl⟩
    | _ => exact hd.elim

theorem calm_vmm (vmm : e.IsVmm) : Calm e := by
  cases e with
  | alloc b => exact vmm.elim
  | free b => exact vmm.elim
  | call cpuid request ret =>
    cases request with
    | vmmInit cpuid => exact ⟨fun _ => trivial, rfl⟩
    | vmmFini cpuid => exact ⟨fun _ => trivial, rfl⟩
    | _ => exact vmm.elim

theorem paired_calm (log : List Event) {es : List Event} (calm : ∀ e ∈ es, Calm e) :
    (Paired (es ++ log) ↔ Paired log) ∧ initialised (es ++ log) = initialised log :=
  ⟨chronicle_append fun e mem => (calm e mem).1, latest_append fun e mem => (calm e mem).2⟩

theorem initialised_released (buffers : List Buffer) : initialised (released buffers ++ log) = initialised log := by
  refine latest_append fun e mem => ?_
  obtain ⟨b, -, rfl⟩ := mem_released mem
  rfl

theorem paired_released (hp : Paired log) (hf : initialised log = false) : Paired (released buffers ++ log) := by
  induction buffers generalizing log with
  | nil => exact hp
  | cons b rest ih =>
    rw [released_cons]
    have hfre : initialised (.free b :: log) = initialised log := latest_silent rfl
    exact ih ⟨fun _ => hf, hp⟩ (hfre.trans hf)

/-- Module memory is not released while the runtime is initialised. -/
theorem not_paired_released {b : Buffer} (mem : b ∈ buffers) (hm : b.pool = .rwe)
    (hr : initialised log = true) : ¬ Paired (released buffers ++ log) := by
  induction buffers generalizing log with
  | nil => cases mem
  | cons first rest ih =>
    rw [released_cons]
    have hfre : initialised (.free first :: log) = initialised log := latest_silent rfl
    cases List.mem_cons.mp mem with
    | inl here =>
      subst here
      intro hp
      -- The release itself is the event that breaks the pairing.
      have hs : Paired (.free b :: log) := chronicle_suffix hp
      exact absurd (hs.1 hm) (by rw [hr]; decide)
    | inr hla => exact ih hla (hfre.trans hr)

/-! ## Transitions -/

theorem Prepared.calm (hpr : Prepared s t) :
    (Paired t.log ↔ Paired s.log) ∧ initialised t.log = initialised s.log := by
  obtain ⟨es, log, ha⟩ := hpr.log
  rw [log]
  refine paired_calm s.log fun e mem => ?_
  obtain ⟨b, rfl⟩ := ha e mem
  exact ⟨fun _ => trivial, rfl⟩

/-- A failed attempt to initialise the runtime leaves it as it was. -/
theorem BeginFailed.calm (hfa : BeginFailed s t) (hp : Paired s.log) (hf : initialised s.log = false) :
    Paired t.log ∧ initialised t.log = false := by
  obtain ⟨u, hpr, -, ends⟩ := hfa
  obtain ⟨same, hs⟩ := Prepared.calm hpr
  cases ends with
  | inl same' => exact same' ▸ ⟨same.mpr hp, hs.trans hf⟩
  | inr hrfd =>
    obtain ⟨ret, hrfd, rfl⟩ := hrfd
    have hsi : Event.initialises (.call 0 .init ret) = none := if_neg hrfd
    exact ⟨⟨hs.trans hf, same.mpr hp⟩, (latest_silent hsi).trans (hs.trans hf)⟩

/-- From the initialisation on the runtime is initialised. -/
theorem Begun.runtime (hb : Begun s t) :
    (Paired s.log → initialised s.log = false → Paired t.log) ∧ initialised t.log = true := by
  obtain ⟨u, hpr, -, -, es, rfl, hd⟩ := hb
  obtain ⟨same, hs⟩ := Prepared.calm hpr
  obtain ⟨kept, ha⟩ := paired_calm (.call 0 .init success :: u.log) fun e mem => calm_description (hd e mem)
  refine ⟨fun hp hf => kept.mpr ⟨hs.trans hf, same.mpr hp⟩, ha.trans ?_⟩
  exact latest_some rfl

/-- Every transition keeps the pairing, and the runtime is finalised when the driver is unloaded. -/
theorem transition_paired (ht : Transition P s t) (hp : Paired s.log)
    (hf : s.status = .unloaded → initialised s.log = false) :
    Paired t.log ∧ (t.status = .unloaded → initialised t.log = false) := by
  cases ht with
  | add file fsize hun => exact ⟨hp, hf⟩
  | reset hun =>
    have off := hf hun
    exact ⟨paired_released hp off, fun _ => (initialised_released _).trans off⟩
  | giveUp hun hfa =>
    obtain ⟨hp, off⟩ := BeginFailed.calm hfa hp (hf hun)
    exact ⟨paired_released hp off, fun _ => (initialised_released _).trans off⟩
  | load hun hb =>
    exact ⟨(Begun.runtime hb).1 hp (hf hun), (by intro h; cases h)⟩
  | unload hld =>
    have off : initialised (.call 0 .fini success :: s.log) = false := latest_some rfl
    exact ⟨paired_released ⟨trivial, hp⟩ off, fun _ => (initialised_released _).trans off⟩
  | corrupt hld hrfd => exact ⟨⟨trivial, hp⟩, (by intro h; cases h)⟩
  | switch live hsw ends =>
    obtain ⟨es, vmm, next⟩ := hsw
    obtain ⟨kept, -⟩ := paired_calm s.log fun e mem => calm_vmm (vmm e mem)
    refine ⟨?_, fun hun => ?_⟩
    · rw [next]
      exact kept.mpr hp
    · obtain ⟨hs, -⟩ | ⟨hs, -⟩ | ⟨hs, -⟩ := ends
      · exact absurd (hs.symm.trans hun) (by decide)
      · exact absurd (hs.symm.trans hun) (by decide)
      · exact absurd (hs.symm.trans hun) (by decide)

theorem transitions_paired (hs : ReflTransGen (Transition P) s t) (hp : Paired s.log)
    (hf : s.status = .unloaded → initialised s.log = false) :
    Paired t.log ∧ (t.status = .unloaded → initialised t.log = false) := by
  induction hs with
  | refl => exact ⟨hp, hf⟩
  | tail _ ht ih => exact transition_paired ht ih.1 ih.2

/-! ### Histories grow -/

theorem Prepared.grows (hpr : Prepared s t) : s.log <:+ t.log := by
  obtain ⟨es, log, -⟩ := hpr.log
  exact ⟨es, log.symm⟩

theorem Begun.grows (hb : Begun s t) : s.log <:+ t.log := by
  obtain ⟨u, hpr, -, -, es, rfl, -⟩ := hb
  exact ((Prepared.grows hpr).trans (List.suffix_cons _ _)).trans (List.suffix_append _ _)

theorem grows_reset (s : Globals) : s.log <:+ s.reset.log := List.suffix_append _ _

theorem transition_grows (ht : Transition P s t) : s.log <:+ t.log := by
  cases ht with
  | add file fsize hun => exact List.suffix_refl _
  | reset hun => exact grows_reset s
  | load hun hb =>
    have hg := Begun.grows hb
    exact hg
  | unload hld =>
    have hr := grows_reset { s with log := .call 0 .fini success :: s.log }
    exact (List.suffix_cons _ _).trans hr
  | corrupt hld hrfd => exact List.suffix_cons _ _
  | giveUp hun hfa =>
    obtain ⟨u, hpr, -, ends⟩ := hfa
    refine List.IsSuffix.trans ?_ (grows_reset _)
    cases ends with
    | inl same =>
      rw [same]
      exact Prepared.grows hpr
    | inr hrfd =>
      obtain ⟨ret, -, rfl⟩ := hrfd
      exact (Prepared.grows hpr).trans (List.suffix_cons _ _)
  | switch live hsw ends =>
    obtain ⟨es, -, next⟩ := hsw
    rw [next]
    exact List.suffix_append _ _

theorem transitions_grow (hs : ReflTransGen (Transition P) s t) : s.log <:+ t.log := by
  induction hs with
  | refl => exact List.suffix_refl _
  | tail _ ht ih => exact ih.trans (transition_grows ht)

/-! ### The interrupted load -/

/-- The interrupted load frees its modules while the runtime is initialised. -/
theorem not_paired_of_lost (lost : Lost s t) : ¬ Paired t.log := by
  obtain ⟨-, some, v, begun, rfl⟩ := lost
  have hr := (Begun.runtime begun).2
  obtain ⟨u, hpr, -, hld, es, rfl, -⟩ := begun
  have modules : u.modules ≠ [] := by
    intro none
    have count := hpr.count
    rw [none] at count
    exact some (List.length_eq_zero_iff.mp count.symm)
  obtain ⟨m, mem⟩ := List.exists_mem_of_ne_nil _ modules
  refine not_paired_released (b := ⟨.rwe, m.exec, m.execSize⟩) ?_ rfl hr
  have image : image m = [⟨.rwe, m.exec, m.execSize⟩] := keep_some (hld m mem)
  refine List.mem_append_left _ (List.mem_append_left _ (List.mem_flatMap.mpr ⟨m, mem, ?_⟩))
  rw [image]
  exact List.mem_singleton_self _

/-! ## Runs -/

/-- What holds between calls as long as the runtime has been paired. -/
structure Regular (P : Platform) (s : Globals) : Prop where
  coherent : Coherent P s
  finalised : Paired s.log → s.status = .unloaded → initialised s.log = false

/-- No load fails between the initialisation of the runtime and its own end. -/
def Uninterrupted (P : Platform) (s : Globals) (call : Call) : Prop :=
  call = .load → s.status = .unloaded → s.modules ≠ [] → ¬ Interrupted P s

theorem Regular.step (hr : Regular P s) (next : step P s call = some t) : Regular P t := by
  obtain ⟨hc, hm⟩ := hr.coherent.step next
  refine ⟨hc, fun hp => ?_⟩
  cases hm with
  | inl hs =>
    obtain ⟨es, log⟩ := transitions_grow hs
    have hbe : Paired s.log := chronicle_suffix (log.symm ▸ hp)
    exact (transitions_paired hs hbe (hr.finalised hbe)).2
  | inr lost => exact absurd hp (not_paired_of_lost lost.2.2)

/-- One call keeps the pairing exactly if it is not an interrupted load. -/
theorem Regular.step_paired_iff (hr : Regular P s) (next : Driver.step P s call = some t)
    (hp : Paired s.log) : Paired t.log ↔ Uninterrupted P s call := by
  constructor
  · intro ha load hun hm hi
    subst load
    -- An interrupted load ends in only one way.
    cases commonLoadVmm_cases hr.coherent hun hm with
    | inr hc => exact hc.1 hi
    | inl lost =>
      obtain ⟨-, ret, u, hf, lost⟩ := lost
      have ends : Driver.step P s .load = some u := by
        rw [Driver.step, Call.run, hf]
      cases next.symm.trans ends
      exact not_paired_of_lost lost ha
  · intro hu
    cases (hr.coherent.step next).2 with
    | inl hs => exact (transitions_paired hs hp (hr.finalised hp)).1
    | inr lost =>
      obtain ⟨load, hi, lost⟩ := lost
      exact absurd hi (hu load lost.1 lost.2.1)

/-- For every platform and every sequence of calls. -/
theorem runtime_paired_iff (P : Platform) (calls : List Call) (s : Globals)
    (reach : run (step P) boot calls = some s) :
    AllStates (step P) (fun s => Paired s.log) boot calls ↔ AllSteps (step P) (Uninterrupted P) boot calls :=
  allStates_iff_allSteps (I := Regular P) (D := fun _ _ => True) (fun _ _ _ regular next => regular.step next)
    (fun _ _ _ regular paired _ next => regular.step_paired_iff next paired) ⟨coherent_boot, fun _ _ => rfl⟩ trivial
    (allSteps_of_forall (p := fun _ => True) fun _ _ => trivial) reach

/-! ## Two platforms -/

instance decidableProperRuntime (rest : List Event) (e : Event) : Decidable (e.ProperRuntime rest) := by
  cases e with
  | alloc b => exact instDecidableTrue
  | free b => exact inferInstanceAs (Decidable (b.pool = .rwe → initialised rest = false))
  | call cpuid request ret =>
    cases request with
    | init => exact inferInstanceAs (Decidable (initialised rest = false))
    | _ => exact instDecidableTrue

instance decidablePaired : (log : List Event) → Decidable (Paired log)
  | [] => instDecidableTrue
  | e :: rest => @instDecidableAnd _ _ (decidableProperRuntime rest e) (decidablePaired rest)

/-- One CPU, an executable at `0x1000`; everything succeeds, except perhaps `BF_REQUEST_SET_RSDP`. -/
def withRsdp (answer : Word) : Platform where
  numCpus := 1
  alloc _ _ _ := 0x8000
  virtToPhys _ virt := virt
  getRsdp _ := 0x100
  callVmmOnCore _ _ request := match request with
    | .setRsdp _ => answer
    | _ => success
  memory _ := ElfBounds.oneSegment 16
  relocate _ := success
  patience := 4

/-- The modules are loaded, the runtime is initialised and finalised and the modules are freed. -/
theorem runtime_paired_load_unload :
    AllStates (step (withRsdp success)) (fun s => Paired s.log) boot [.addModule 0x1000 120, .load, .unload] ↔
      AllSteps (step (withRsdp success)) (Uninterrupted (withRsdp success)) boot [.addModule 0x1000 120, .load, .unload] := by
  have runs : (run (step (withRsdp success)) boot [.addModule 0x1000 120, .load, .unload]).map Globals.status =
      some .unloaded := by
    decide +kernel
  obtain ⟨s, reach, -⟩ := Option.map_eq_some_iff.mp runs
  exact runtime_paired_iff (withRsdp success) _ s reach

/-- The runtime refuses the address of the RSDP: its modules are freed while it is initialised. -/
theorem runtime_not_finalised :
    ∃ s, run (step (withRsdp 1)) boot [.addModule 0x1000 120, .load] = some s ∧ ¬ Paired s.log := by
  have runs : (run (step (withRsdp 1)) boot [.addModule 0x1000 120, .load]).map (fun s => decide (Paired s.log)) =
      some false := by
    decide +kernel
  obtain ⟨s, reach, unpaired⟩ := Option.map_eq_some_iff.mp runs
  exact ⟨s, reach, of_decide_eq_false unpaired⟩

end Gevisor.Verified.DriverRuntime
