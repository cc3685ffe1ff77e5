import Mathlib.Algebra.CharZero.Defs
import Mathlib.Data.BitVec
import Mathlib.Algebra.Order.Ring.Nat

/-! # Runs of a partial step function

A run is a list of events that the step function accepts one after another. A property of all runs is
shown on one step; `AllSteps` restricts the runs by a condition on each step.
-/

namespace Gevisor.Lib

variable {σ Ev : Type} {step : σ → Ev → Option σ}

/-- The state after the events, if every step is possible. -/
def run (step : σ → Ev → Option σ) (s : σ) : List Ev → Option σ
  | [] => some s
  | e :: rest => (step s e).bind fun t => run step t rest

/-- Each step of the run meets `C`, which may look at the state before the step and at the event. -/
def AllSteps (step : σ → Ev → Option σ) (C : σ → Ev → Prop) : σ → List Ev → Prop
  | _, [] => True
  | s, e :: rest => C s e ∧ ∀ t, step s e = some t → AllSteps step C t rest

/-- The states of the run, the first and the last included, have `P`. -/
def AllStates (step : σ → Ev → Option σ) (P : σ → Prop) : σ → List Ev → Prop
  | s, [] => P s
  | s, e :: rest => P s ∧ ∀ t, step s e = some t → AllStates step P t rest

variable {es : List Ev} {s u t : σ} {I P : σ → Prop} {C D : σ → Ev → Prop} {O : σ → Bool}
    {verdict : Ev → Option Bool}

/-- A condition on the events alone. -/
theorem allSteps_of_forall {p : Ev → Prop} (all : ∀ e ∈ es, p e) : AllSteps step (fun _ e => p e) s es := by
  induction es generalizing s with
  | nil => trivial
  | cons e rest ih =>
    exact ⟨all e List.mem_cons_self, fun _ _ => ih fun e' hm => all e' (List.mem_cons_of_mem e hm)⟩

theorem run_cons {e : Ev} {rest : List Ev} :
    run step s (e :: rest) = some u ↔ ∃ t, step s e = some t ∧ run step t rest = some u := by
  simp only [run, Option.bind_eq_some_iff]

theorem run_append {fs : List Ev} :
    run step s (es ++ fs) = some u ↔ ∃ t, run step s es = some t ∧ run step t fs = some u := by
  induction es generalizing s with
  | nil => simp [run]
  | cons e rest ih =>
    rw [List.cons_append, run_cons]
    constructor
    · rintro ⟨t, first, more⟩
      obtain ⟨v, hre, last⟩ := ih.mp more
      exact ⟨v, run_cons.mpr ⟨t, first, hre⟩, last⟩
    · rintro ⟨v, hre, last⟩
      obtain ⟨t, first, more⟩ := run_cons.mp hre
      exact ⟨t, first, ih.mpr ⟨v, more, last⟩⟩

/-- The invariant rule: a property that every allowed step preserves holds at the end of every run
whose steps are all allowed. -/
theorem run_invariant (hp : ∀ s e t, I s → C s e → step s e = some t → I t) (init : I s)
    (ha : AllSteps step C s es) (hre : run step s es = some t) : I t := by
  induction es generalizing s with
  | nil =>
    obtain rfl := Option.some.inj hre
    exact init
  | cons e rest ih =>
    obtain ⟨u, first, more⟩ := run_cons.mp hre
    obtain ⟨here, hla⟩ := ha
    exact ih (hp s e u init here first) (hla u first) more

/-- If every allowed step is possible and preserves the invariant, every run of allowed steps gets to its
end. -/
theorem exists_run_of_progress (hp : ∀ s e, I s → C s e → ∃ t, step s e = some t ∧ I t) (init : I s)
    (ha : AllSteps step C s es) : ∃ t, run step s es = some t ∧ I t := by
  induction es generalizing s with
  | nil => exact ⟨s, rfl, init⟩
  | cons e rest ih =>
    obtain ⟨here, hla⟩ := ha
    obtain ⟨u, first, kept⟩ := hp s e init here
    obtain ⟨t, hre, last⟩ := ih kept (hla u first)
    exact ⟨t, run_cons.mpr ⟨u, first, hre⟩, last⟩

/-- The rule without a condition on the steps. -/
theorem run_preserves (hp : ∀ s e t, I s → step s e = some t → I t) (init : I s) (hre : run step s es = some t) :
    I t := by
  induction es generalizing s with
  | nil =>
    obtain rfl := Option.some.inj hre
    exact init
  | cons e rest ih =>
    obtain ⟨u, first, more⟩ := run_cons.mp hre
    exact ih (hp s e u init first) more

/-- The invariant rule for all states of a run. -/
theorem allStates_of_allSteps (hp : ∀ s e t, I s → C s e → step s e = some t → I t) (hi : ∀ s, I s → P s)
    (init : I s) (ha : AllSteps step C s es) : AllStates step P s es := by
  induction es generalizing s with
  | nil => exact hi s init
  | cons e rest ih =>
    obtain ⟨here, hla⟩ := ha
    exact ⟨hi s init, fun t next => ih (hp s e t init here next) (hla t next)⟩

/-- Two conditions that say the same about every allowed step say the same about a run. -/
theorem allSteps_iff {R : σ → Ev → Prop} (hp : ∀ s e t, I s → D s e → C s e → step s e = some t → I t)
    (exact : ∀ s e, I s → D s e → (R s e ↔ C s e)) (init : I s) (ha : AllSteps step D s es) :
    AllSteps step R s es ↔ AllSteps step C s es := by
  induction es generalizing s with
  | nil => rfl
  | cons e rest ih =>
    obtain ⟨may, hm⟩ := ha
    have here : R s e ↔ C s e := exact s e init may
    constructor
    · intro ⟨first, hla⟩
      have met := here.mp first
      exact ⟨met, fun t next => (ih (hp s e t init may met next) (hm t next)).mp (hla t next)⟩
    · intro ⟨met, hla⟩
      exact ⟨here.mpr met, fun t next => (ih (hp s e t init may met next) (hm t next)).mpr (hla t next)⟩

/-- If an allowed step keeps `P` exactly when it meets `C`, a run of allowed steps has `P` throughout
exactly when all its steps meet `C`. -/
theorem allStates_iff_allSteps (hp : ∀ s e t, I s → step s e = some t → I t)
    (exact : ∀ s e t, I s → P s → D s e → step s e = some t → (P t ↔ C s e)) (init : I s)
    (hs : P s) (ha : AllSteps step D s es) (hre : run step s es = some u) :
    AllStates step P s es ↔ AllSteps step C s es := by
  induction es generalizing s with
  | nil => exact ⟨fun _ => trivial, fun _ => hs⟩
  | cons e rest ih =>
    obtain ⟨t, first, more⟩ := run_cons.mp hre
    obtain ⟨may, hm⟩ := ha
    have only (t' : σ) (next : step s e = some t') : t' = t := Option.some.inj (next.symm.trans first)
    have kept : P t ↔ C s e := exact s e t init hs may first
    have rest_iff (here : P t) := ih (hp s e t init first) here (hm t first) more
    constructor
    · rintro ⟨-, hla⟩
      have here : P t := by
        have hst := hla t first
        cases rest with
        | nil => exact hst
        | cons e' rest => exact hst.1
      refine ⟨kept.mp here, fun t' next => ?_⟩
      rw [only t' next]
      exact (rest_iff here).mp (hla t first)
    · rintro ⟨here, hla⟩
      refine ⟨hs, fun t' next => ?_⟩
      rw [only t' next]
      exact (rest_iff (kept.mpr here)).mpr (hla t first)

/-- Two systems whose steps correspond have the same runs. -/
theorem run_simulates {τ : Type} {step' : τ → Ev → Option τ} {R : σ → τ → Prop}
    (hsi : ∀ s t e, R s t → Option.Rel R (step s e) (step' t e)) {t : τ} (init : R s t)
    (es : List Ev) : Option.Rel R (run step s es) (run step' t es) := by
  induction es generalizing s t with
  | nil => exact .some init
  | cons e rest ih =>
    have first := hsi s t e init
    rw [run, run]
    cases hs : step s e with
    | none =>
      rw [hs] at first
      cases ht : step' t e with
      | none => exact .none
      | some u => rw [ht] at first; cases first
    | some s' =>
      rw [hs] at first
      cases ht : step' t e with
      | none => rw [ht] at first; cases first
      | some t' =>
        rw [ht] at first
        cases first with
        | some hrel => exact ih hrel

/-! ## The last word -/

/-- What the last event says that says something; `false` if none does. -/
def lastly (verdict : Ev → Option Bool) (es : List Ev) : Bool := (es.reverse.findSome? verdict).getD false

theorem lastly_concat (verdict : Ev → Option Bool) (es : List Ev) (e : Ev) :
    lastly verdict (es ++ [e]) = (verdict e).getD (lastly verdict es) := by
  rw [lastly, lastly, List.reverse_append]
  cases here : verdict e with
  | none => simp [here]
  | some b => simp [here]

/-- If every event changes what `O` observes to what it says itself, the observation is the last word. -/
theorem foldl_lastly {next : σ → Ev → σ}
    (kept : ∀ s e, I s → I (next s e)) (change : ∀ s e, I s → O (next s e) = (verdict e).getD (O s))
    (init : I s) (hs : O s = false) (es : List Ev) :
    I (es.foldl next s) ∧ O (es.foldl next s) = lastly verdict es := by
  induction es using List.reverseRecOn with
  | nil => exact ⟨init, hs⟩
  | append_singleton es e ih =>
    obtain ⟨hh, same⟩ := ih
    rw [List.foldl_concat, lastly_concat, ← same]
    exact ⟨kept _ e hh, change _ e hh⟩

/-- The same for runs. -/
theorem run_lastly (kept : ∀ s e t, I s → step s e = some t → I t)
    (change : ∀ s e t, I s → step s e = some t → O t = (verdict e).getD (O s)) (init : I s)
    (hs : O s = false) (hre : run step s es = some t) : I t ∧ O t = lastly verdict es := by
  induction es using List.reverseRecOn generalizing t with
  | nil =>
    obtain rfl := Option.some.inj hre
    exact ⟨init, hs⟩
  | append_singleton es e ih =>
    obtain ⟨u, hbe, last⟩ := run_append.mp hre
    obtain ⟨t', here, done⟩ := run_cons.mp last
    obtain rfl := Option.some.inj done
    obtain ⟨hh, same⟩ := ih hbe
    rw [lastly_concat, ← same]
    exact ⟨kept u e t' hh here, change u e t' hh here⟩

end Gevisor.Lib
