import Gevisor.Driver.System
import Gevisor.Verified.ElfBounds

/-! # Driver states and CPUs

However the platform answers, the status of the driver tells on which CPUs the VMM runs and whether memory
is allocated. The roll-backs of starting and loading are transitions like the others, so that this is the
invariant of the system read at its four statuses.
-/

namespace Gevisor.Verified.DriverStates

open Lib Driver
open Relation (ReflTransGen)

variable {P : Platform} {s t : Globals}

/-- What the status says. -/
structure Agree (P : Platform) (s : Globals) : Prop where
  /-- The VMM has been started and not stopped on every CPU. -/
  running : s.status = .running → ∀ c < P.numCpus, started c s.log = true
  stopped : s.status = .loaded ∨ s.status = .unloaded → ∀ c, started c s.log = false
  /-- The VMM is started only on CPUs where it is not, and stopped only on those where it is. -/
  sent : WellSent s.log
  /-- Every buffer has been freed once, with its size. -/
  freed : s.status = .unloaded → outstanding s.log = some []

theorem agree_of_coherent (hc : Coherent P s) : Agree P s where
  running hs c hb := by
    rw [(hc.running hs).started]
    exact decide_eq_true hb
  stopped hs c := by
    cases hs with
    | inl hld => exact (hc.loaded hld).started c
    | inr hun => exact (hc.unloaded hun).2.started c
  sent := hc.sent
  freed hs := by
    obtain ⟨live, ha, same⟩ := hc.accounted
    obtain ⟨⟨hst, tls, hm⟩, -⟩ := hc.unloaded hs
    have hi : s.modules.flatMap image = [] := List.flatMap_eq_nil_iff.mpr fun m mem => keep_null (hm m mem)
    rw [Globals.held, keep_null hst, keep_null (b := ⟨.rw, s.tls, s.tlsSize⟩) tls, hi] at same
    rw [ha, same.eq_nil]

/-- Nothing leads out of the corrupt state. -/
theorem not_transition_of_corrupt (hc : s.status = .corrupt) : ¬ Transition P s t := by
  intro ht
  cases ht with
  | add file fsize hun => exact absurd (hc.symm.trans hun) (by decide)
  | reset hun => exact absurd (hc.symm.trans hun) (by decide)
  | giveUp hun _ => exact absurd (hc.symm.trans hun) (by decide)
  | load hun _ => exact absurd (hc.symm.trans hun) (by decide)
  | unload hld => exact absurd (hc.symm.trans hld) (by decide)
  | corrupt hld _ => exact absurd (hc.symm.trans hld) (by decide)
  | switch live _ _ =>
    cases live with
    | inl hld => exact absurd (hc.symm.trans hld) (by decide)
    | inr hr => exact absurd (hc.symm.trans hr) (by decide)

theorem corrupt_stays (hc : Coherent P s) {call : Call} (next : step P s call = some t)
    (hco : s.status = .corrupt) : t = s := by
  cases (hc.step next).2 with
  | inl hs =>
    cases ReflTransGen.cases_head hs with
    | inl same => exact same.symm
    | inr more =>
      obtain ⟨u, first, -⟩ := more
      exact absurd first (not_transition_of_corrupt hco)
  | inr lost => exact absurd (hco.symm.trans lost.2.2.1) (by decide)

/-- What is sent during a call is proper, whether the call returns or not. -/
theorem call_sends (hc : Coherent P s) (call : Call) :
    wp (call.run P) (fun _ t => WellSent t.log) (fun _ t => WellSent t.log) s := by
  refine wp_mono (fun _ t hs => (hc.transitions hs).sent) (fun e t ends => ?_) (call.run_spec hc)
  cases ends with
  | inl ends =>
    cases e with
    | hangs => exact ends
    | returned ret => exact (hc.transitions ends).sent
  | inr lost => exact (hc.lost lost.2.2).sent

/-- For every platform and every sequence of calls. -/
theorem driver_states_agree (P : Platform) (calls : List Call) (s : Globals)
    (reach : run (step P) boot calls = some s) :
    Agree P s ∧ (∀ call : Call, wp (call.run P) (fun _ t => WellSent t.log) (fun _ t => WellSent t.log) s) ∧
      (∀ call t, step P s call = some t → s.status = .corrupt → t.status = .corrupt) := by
  have coherent : Coherent P s :=
    run_preserves (fun s call t coherent next => (Coherent.step coherent next).1) coherent_boot reach
  refine ⟨agree_of_coherent coherent, call_sends coherent, fun call t next corrupt => ?_⟩
  rw [corrupt_stays coherent next corrupt]
  exact corrupt

/-- Two CPUs, an executable at `0x1000`, and a platform on which everything succeeds. -/
def obliging : Platform where
  numCpus := 2
  alloc _ _ _ := 0x8000
  virtToPhys _ virt := virt
  getRsdp _ := 0x100
  callVmmOnCore _ _ _ := success
  memory _ := ElfBounds.oneSegment 16
  relocate _ := success
  patience := 4

theorem driver_states_agree_two_cpus :
    ∃ s, run (step obliging) boot [.addModule 0x1000 120, .load, .start] = some s ∧ s.status = .running ∧
      Agree obliging s := by
  have runs : (run (step obliging) boot [.addModule 0x1000 120, .load, .start]).map Globals.status = some .running := by
    decide +kernel
  obtain ⟨s, reach, status⟩ := Option.map_eq_some_iff.mp runs
  exact ⟨s, reach, status, (driver_states_agree obliging _ s reach).1⟩

end Gevisor.Verified.DriverStates
