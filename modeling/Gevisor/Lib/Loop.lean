import Gevisor.Lib.Exec

/-! # Loops that run until their body says so

`while (!body());` may not terminate, so it runs with fuel; running out of fuel is an exception of its
own. A measure that every further iteration lowers bounds the fuel the loop needs.
-/

namespace Gevisor.Lib

open EStateM (Result)

variable {ε ε' σ τ α : Type}

/-- `c`, in a setting where a computation can also run out of fuel. -/
def fueled (c : EStateM ε σ α) : EStateM (Option ε) σ α := fun s =>
  match c s with
  | .ok a t => .ok a t
  | .error e t => .error (some e) t

/-- `while (!body());` with at most `fuel` iterations. -/
def repeatUntil (body : EStateM ε σ Bool) : Nat → EStateM (Option ε) σ Unit
  | 0 => throw none
  | fuel + 1 => do
    let done ← fueled body
    if done then pure () else repeatUntil body fuel

/-- `X` for what is thrown; out of fuel only if `short`. -/
def Thrown (short : Prop) (X : ε → σ → Prop) : Option ε → σ → Prop
  | none, _ => short
  | some e, s => X e s

@[simp] theorem wp_fueled {Q : α → σ → Prop} {X : Option ε → σ → Prop} (c : EStateM ε σ α) (s : σ) :
    wp (fueled c) Q X s ↔ wp c Q (fun e t => X (some e) t) s := by
  simp only [wp, fueled]
  cases c s <;> rfl

/-- The loop rule: every iteration ends the loop or keeps the invariant and lowers the measure, so the
loop runs out of fuel only if it had no more than the measure. -/
theorem wp_repeatUntil {body : EStateM ε σ Bool} {I Q : σ → Prop} {X : ε → σ → Prop} (measure : σ → Nat)
    (step : ∀ s, I s → wp body (fun done t => if done then Q t else I t ∧ measure t < measure s) X s)
    {s : σ} (init : I s) (fuel : Nat) :
    wp (repeatUntil body fuel) (fun _ t => Q t) (Thrown (fuel ≤ measure s) X) s := by
  induction fuel generalizing s with
  | zero => exact Nat.zero_le _
  | succ fuel ih =>
    simp only [repeatUntil, wp_bind, wp_fueled]
    refine wp_mono ?_ (fun _ _ htn => htn) (step s init)
    intro done t ends
    cases done with
    | true => exact ends
    | false =>
      obtain ⟨kept, hl⟩ := ends
      refine wp_mono (fun _ _ ends => ends) ?_ (ih kept)
      intro e u htn
      cases e with
      | none => exact Nat.lt_of_le_of_lt htn hl
      | some e => exact htn

namespace Simulates

variable {E : ε → ε' → Prop} {R : σ → τ → Prop}

theorem fueled {c : EStateM ε σ α} {d : EStateM ε' τ α} (hag : Simulates E R c d) :
    Simulates (Option.Rel E) R (fueled c) (fueled d) := by
  intro s t hrel
  have both := hag s t hrel
  simp only [Lib.fueled]
  generalize c s = x at both
  generalize d t = y at both
  cases both with
  | ok a hrel => exact .ok a hrel
  | error same hrel => exact .error (.some same) hrel

theorem repeatUntil {body : EStateM ε σ Bool} {body' : EStateM ε' τ Bool} (step : Simulates E R body body')
    (fuel : Nat) : Simulates (Option.Rel E) R (repeatUntil body fuel) (repeatUntil body' fuel) := by
  induction fuel with
  | zero => exact throw .none
  | succ fuel ih =>
    apply bind (fueled step)
    intro done
    cases done with
    | true => exact pure ()
    | false => exact ih

end Simulates

end Gevisor.Lib
