import Mathlib.Algebra.CharZero.Defs
import Mathlib.Data.BitVec
import Mathlib.Algebra.Order.Ring.Nat

/-! # Computations with state and exceptions

Code that fails half way keeps what it has already written. `EStateM ε σ` has this reading: a result
is a value or an exception, and it carries the state in both cases. The three notions below are the
weakest precondition of a computation, its invariants, and the agreement of two computations that run
on different representations of one state.
-/

namespace Gevisor.Lib

open EStateM (Result)

variable {ε ε' σ τ α β : Type}

/-- Iterations `i, i + 1, …, i + n - 1` of `body`. -/
def forFrom (body : Nat → EStateM ε σ Unit) : Nat → Nat → EStateM ε σ Unit
  | _, 0 => pure ()
  | i, n + 1 => do
    body i
    forFrom body (i + 1) n

variable (body : Nat → EStateM ε σ Unit) (k i n : Nat)

theorem forFrom_add (m n : Nat) :
    forFrom body i (m + n) = (do forFrom body i m; forFrom body (i + m) n) := by
  induction m generalizing i with
  | zero =>
    rw [Nat.zero_add]
    rfl
  | succ m ih =>
    rw [show m + 1 + n = (m + n) + 1 by omega, forFrom, forFrom, ih, bind_assoc, show i + 1 + m = i + (m + 1) by omega]

theorem forFrom_congr {body body' : Nat → EStateM ε σ Unit} {i n : Nat}
    (same : ∀ j < n, body (i + j) = body' (i + j)) : forFrom body i n = forFrom body' i n := by
  induction n generalizing i with
  | zero => rfl
  | succ n ih =>
    rw [forFrom, forFrom, show body i = body' i from same 0 (by omega), ih]
    intro j less
    rw [show i + 1 + j = i + (j + 1) by omega]
    exact same (j + 1) (by omega)

theorem forFrom_shift :
    forFrom (fun j => body (k + j)) i n = forFrom body (k + i) n := by
  induction n generalizing i with
  | zero => rfl
  | succ n ih => rw [forFrom, forFrom, ih, Nat.add_assoc]

/-- Runs `c` on one component of a larger state. -/
def zoom (get : σ → τ) (set : τ → σ → σ) (c : EStateM ε τ α) : EStateM ε σ α := fun s =>
  match c (get s) with
  | .ok a t => .ok a (set t s)
  | .error e t => .error e (set t s)

/-- Runs `c` and swallows the exceptions `p` selects; what `c` wrote before throwing stays. -/
def swallow (p : ε → Bool) (c : EStateM ε σ Unit) : EStateM ε σ Unit := fun s =>
  match c s with
  | .ok a t => .ok a t
  | .error e t => if p e then .ok () t else .error e t

variable {c : EStateM ε σ α} {s t : σ}

theorem bind_of_ok {a : α} (hret : c s = .ok a t) (k : α → EStateM ε σ β) : (c >>= k) s = k a t := by
  simp only [bind, EStateM.bind, hret]

theorem bind_of_error {e : ε} (hth : c s = .error e t) (k : α → EStateM ε σ β) : (c >>= k) s = .error e t := by
  simp only [bind, EStateM.bind, hth]

/-- Runs the handler `d` if `c` throws an exception that `p` selects, and throws it again. -/
def onThrow (p : ε → Bool) (c : EStateM ε σ α) (d : EStateM ε σ Unit) : EStateM ε σ α := fun s =>
  match c s with
  | .ok a t => .ok a t
  | .error e t => if p e then (d >>= fun _ => throw e) t else .error e t

/-- Runs `d` at the end of `c`, also if `c` ends with an exception that `p` selects. -/
def ensuring (p : ε → Bool) (c : EStateM ε σ α) (d : EStateM ε σ Unit) : EStateM ε σ α :=
  onThrow p c d >>= fun a => d >>= fun _ => pure a

/-- What a computation that returns has gone through. -/
theorem ok_of_bind {k : α → EStateM ε σ β} {u : σ} {b : β} (hret : (c >>= k) s = .ok b u) :
    ∃ a t, c s = .ok a t ∧ k a t = .ok b u := by
  cases first : c s with
  | ok a t =>
    rw [bind_of_ok first] at hret
    exact ⟨a, t, rfl, hret⟩
  | error e t =>
    rw [bind_of_error first] at hret
    cases hret

theorem pure_apply (a : α) (s : σ) : (pure a : EStateM ε σ α) s = .ok a s := rfl

theorem throw_apply (e : ε) (s : σ) : (throw e : EStateM ε σ α) s = .error e s := rfl

theorem get_bind (k : σ → EStateM ε σ α) (s : σ) : (get >>= k) s = k s s := rfl

theorem modify_get_bind (f : σ → σ) (k : σ → EStateM ε σ α) (s : σ) :
    (do modify f; let t ← get; k t : EStateM ε σ α) s = k (f s) (f s) := rfl

/-! ## Weakest preconditions -/

/-- `c` started in `s` returns into `Q` or throws into `X`. -/
def wp (c : EStateM ε σ α) (Q : α → σ → Prop) (X : ε → σ → Prop) (s : σ) : Prop :=
  match c s with
  | .ok a t => Q a t
  | .error e t => X e t

section WeakestPreconditions

variable {Q : α → σ → Prop} {X : ε → σ → Prop} {s : σ}

@[simp] theorem wp_pure (a : α) : wp (pure a) Q X s ↔ Q a s := Iff.rfl

@[simp] theorem wp_throw (e : ε) : wp (throw e) Q X s ↔ X e s := Iff.rfl

@[simp] theorem wp_get {Q : σ → σ → Prop} : wp get Q X s ↔ Q s s := Iff.rfl

@[simp] theorem wp_modify {Q : Unit → σ → Prop} (f : σ → σ) : wp (modify f) Q X s ↔ Q () (f s) := Iff.rfl

@[simp] theorem wp_bind {Q : β → σ → Prop} (c : EStateM ε σ α) (k : α → EStateM ε σ β) :
    wp (c >>= k) Q X s ↔ wp c (fun a t => wp (k a) Q X t) X s := by
  simp only [wp, bind, EStateM.bind]
  cases c s <;> rfl

@[simp] theorem wp_zoom {get : σ → τ} {set : τ → σ → σ} (c : EStateM ε τ α) : wp (zoom get set c) Q X s ↔
      wp c (fun a t => Q a (set t s)) (fun e t => X e (set t s)) (get s) := by
  simp only [wp, zoom]
  cases c (get s) <;> rfl

@[simp] theorem wp_swallow {Q : Unit → σ → Prop} (p : ε → Bool) (c : EStateM ε σ Unit) :
    wp (swallow p c) Q X s ↔ wp c Q (fun e t => if p e then Q () t else X e t) s := by
  simp only [wp, swallow]
  cases c s with
  | ok a t => rfl
  | error e t => by_cases hs : p e <;> simp [hs]

@[simp] theorem wp_onThrow (p : ε → Bool) (c : EStateM ε σ α) (d : EStateM ε σ Unit) :
    wp (onThrow p c d) Q X s ↔ wp c Q (fun e t => if p e then wp d (fun _ u => X e u) X t else X e t) s := by
  simp only [wp, onThrow]
  cases c s with
  | ok a t => rfl
  | error e t =>
    by_cases hs : p e
    · simp only [hs, if_true, bind, EStateM.bind]
      cases d t <;> rfl
    · simp only [hs]
      rfl

@[simp] theorem wp_ensuring (p : ε → Bool) (c : EStateM ε σ α) (d : EStateM ε σ Unit) :
    wp (ensuring p c d) Q X s ↔ wp c (fun a t => wp d (fun _ u => Q a u) X t)
      (fun e t => if p e then wp d (fun _ u => X e u) X t else X e t) s := by
  simp only [ensuring, wp_bind, wp_onThrow, wp_pure]

theorem wp_ite {p : Prop} [Decidable p] (c d : EStateM ε σ α) :
    wp (if p then c else d) Q X s ↔ if p then wp c Q X s else wp d Q X s := by
  split <;> rfl

variable {c : EStateM ε σ α} {t : σ} {Q' : α → σ → Prop} {X' : ε → σ → Prop}
    {body : Nat → EStateM ε σ Unit} {n : Nat}

theorem wp_of_ok {a : α} (hret : c s = .ok a t) : wp c Q X s ↔ Q a t := by
  simp only [wp, hret]

theorem wp_of_error {e : ε} (hth : c s = .error e t) : wp c Q X s ↔ X e t := by
  simp only [wp, hth]

instance decidableWp [∀ a t, Decidable (Q a t)] [∀ e t, Decidable (X e t)] (c : EStateM ε σ α) : Decidable (wp c Q X s) :=
  match result : c s with
  | .ok _ _ => decidable_of_iff _ (wp_of_ok result).symm
  | .error _ _ => decidable_of_iff _ (wp_of_error result).symm

/-- A computation that cannot throw returns. -/
theorem exists_of_wp (h : wp c Q (fun _ _ => False) s) : ∃ a t, c s = .ok a t ∧ Q a t := by
  simp only [wp] at h
  cases hres : c s with
  | ok a t =>
    rw [hres] at h
    exact ⟨a, t, rfl, h⟩
  | error e t =>
    rw [hres] at h
    exact h.elim

theorem exists_error_of_wp (h : wp c (fun _ _ => False) X s) : ∃ e t, c s = .error e t ∧ X e t := by
  simp only [wp] at h
  cases hres : c s with
  | ok a t =>
    rw [hres] at h
    exact h.elim
  | error e t =>
    rw [hres] at h
    exact ⟨e, t, rfl, h⟩

theorem wp_mono (hr : ∀ a t, Q a t → Q' a t) (ht : ∀ e t, X e t → X' e t) (h : wp c Q X s) : wp c Q' X' s := by
  simp only [wp] at h ⊢
  cases hres : c s with
  | ok a t =>
    rw [hres] at h
    exact hr a t h
  | error e t =>
    rw [hres] at h
    exact ht e t h

theorem wp_true (c : EStateM ε σ α) (s : σ) : wp c (fun _ _ => True) (fun _ _ => True) s := by
  simp only [wp]
  cases c s <;> trivial

theorem wp_and (left : wp c Q X s)
    (right : wp c Q' X' s) : wp c (fun a t => Q a t ∧ Q' a t) (fun e t => X e t ∧ X' e t) s := by
  simp only [wp] at left right ⊢
  cases hres : c s with
  | ok a t =>
    rw [hres] at left right
    exact ⟨left, right⟩
  | error e t =>
    rw [hres] at left right
    exact ⟨left, right⟩

variable (I : Nat → σ → Prop)

/-- The loop rule: `I j` holds before iteration `j`. -/
theorem wp_forFrom
    {i : Nat} (init : I i s)
    (step : ∀ j t, i ≤ j → j < i + n → I j t → wp (body j) (fun _ u => I (j + 1) u) X t) :
    wp (forFrom body i n) (fun _ t => I (i + n) t) X s := by
  induction n generalizing i s with
  | zero => exact init
  | succ n ih =>
    rw [forFrom, wp_bind]
    refine wp_mono (fun _ t next => ?_) (fun _ _ h => h) (step i s (Nat.le_refl i) (by omega) init)
    have rest := ih next fun j u hl hu => step j u (by omega) (by omega)
    rwa [show i + 1 + n = i + (n + 1) by omega] at rest

/-- The rule for a loop from zero, with what follows at its end. -/
theorem wp_loop {Q : Unit → σ → Prop} (init : I 0 s)
    (step : ∀ j t, j < n → I j t → wp (body j) (fun _ u => I (j + 1) u) X t)
    (done : ∀ t, I n t → Q () t) : wp (forFrom body 0 n) Q X s := by
  have ends := wp_forFrom I init fun j t _ hu inv => step j t (Nat.zero_add n ▸ hu) inv
  rw [Nat.zero_add] at ends
  exact wp_mono (fun _ t inv => done t inv) (fun _ _ h => h) ends

/-- A loop that goes on as long as `S` holds of the rounds: it ends after all of them, or throws in the first
round without `S`. -/
theorem wp_loop_first {X : ε → Prop} (S : Nat → Prop) (init : I 0 s)
    (goes : ∀ j < n, S j → ∀ t, I j t → wp (body j) (fun _ u => I (j + 1) u) (fun _ _ => False) t)
    (hs : ∀ j < n, ¬ S j → ∀ t, I j t → wp (body j) (fun _ _ => False) (fun e u => I j u ∧ X e) t) :
    wp (forFrom body 0 n) (fun _ u => I n u ∧ ∀ j < n, S j)
      (fun e u => ∃ k < n, (∀ j < k, S j) ∧ ¬ S k ∧ I k u ∧ X e) s := by
  refine wp_loop (fun k t => I k t ∧ ∀ j < k, S j) ⟨init, fun j less => absurd less (Nat.not_lt_zero j)⟩ ?_
    fun _ ends => ends
  rintro k t less ⟨inv, hea⟩
  by_cases hh : S k
  · refine wp_mono (fun _ u next => ⟨next, fun j hbo => ?_⟩) (fun _ _ none => none.elim) (goes k less hh t inv)
    obtain hbe | rfl := Nat.lt_succ_iff_lt_or_eq.mp hbo
    · exact hea j hbe
    · exact hh
  · refine wp_mono (fun _ _ none => none.elim) ?_ (hs k less hh t inv)
    rintro e u ⟨kept, hc⟩
    exact ⟨k, less, hea, hh, kept, hc⟩

end WeakestPreconditions

/-! ## Invariants -/

/-- However `c` ends, it ends in a state with `P` when it starts in one. -/
def Preserves (P : σ → Prop) (c : EStateM ε σ α) : Prop :=
  ∀ s, P s → wp c (fun _ t => P t) (fun _ t => P t) s

namespace Preserves

variable {P : σ → Prop}

theorem pure (a : α) : Preserves P (pure a : EStateM ε σ α) := fun _ h => h

theorem throw (e : ε) : Preserves P (throw e : EStateM ε σ α) := fun _ h => h

theorem get : Preserves P (get : EStateM ε σ σ) := fun _ h => h

theorem modify {f : σ → σ} (hkp : ∀ s, P s → P (f s)) :
    Preserves P (modify f : EStateM ε σ Unit) := fun s h => hkp s h

variable {c : EStateM ε σ α} {p : ε → Bool}

theorem bind {k : α → EStateM ε σ β} (first : Preserves P c)
    (rest : ∀ a, Preserves P (k a)) : Preserves P (c >>= k) := by
  intro s h
  rw [wp_bind]
  exact wp_mono (fun a t kept => rest a t kept) (fun _ _ kept => kept) (first s h)

theorem ite {p : Prop} [Decidable p] {d : EStateM ε σ α} (left : p → Preserves P c)
    (right : ¬ p → Preserves P d) : Preserves P (if p then c else d) := by
  split
  · exact left ‹_›
  · exact right ‹_›

theorem forFrom {body : Nat → EStateM ε σ Unit} (hkp : ∀ j, Preserves P (body j)) (i n : Nat) :
    Preserves P (forFrom body i n) := fun _ h =>
  wp_forFrom (fun _ t => P t) h fun j t _ _ kept => hkp j t kept

/-- Whatever is done to a component that `P` does not depend on. -/
theorem zoom {get : σ → τ} {set : τ → σ → σ} (hkp : ∀ t s, P s → P (set t s)) (c : EStateM ε τ α) :
    Preserves P (zoom get set c) := by
  intro s h
  rw [wp_zoom]
  exact wp_mono (fun _ t _ => hkp t s h) (fun _ t _ => hkp t s h) (wp_true c (get s))

theorem ensuring {d : EStateM ε σ Unit} (first : Preserves P c)
    (last : Preserves P d) : Preserves P (ensuring p c d) := by
  intro s h
  rw [wp_ensuring]
  refine wp_mono (fun a t kept => last t kept) (fun e t kept => ?_) (first s h)
  split
  · exact last t kept
  · exact kept

theorem swallow {c : EStateM ε σ Unit} (hkp : Preserves P c) : Preserves P (swallow p c) := by
  intro s h
  rw [wp_swallow]
  exact wp_mono (fun _ _ kept => kept) (fun _ _ kept => by split <;> exact kept) (hkp s h)

end Preserves

/-! ## Agreement -/

/-- Both results are values or both are exceptions; the values are equal, the exceptions and the
states are related. -/
inductive Agree (E : ε → ε' → Prop) (R : σ → τ → Prop) : Result ε σ α → Result ε' τ α → Prop
  | ok {s : σ} {t : τ} (a : α) (related : R s t) : Agree E R (.ok a s) (.ok a t)
  | error {s : σ} {t : τ} {e : ε} {f : ε'} (same : E e f) (related : R s t) :
    Agree E R (.error e s) (.error f t)

/-- `c` and `d` agree from related states. -/
def Simulates (E : ε → ε' → Prop) (R : σ → τ → Prop) (c : EStateM ε σ α) (d : EStateM ε' τ α) : Prop :=
  ∀ s t, R s t → Agree E R (c s) (d t)

namespace Simulates

variable {E : ε → ε' → Prop} {R : σ → τ → Prop}

theorem pure (a : α) : Simulates E R (pure a) (pure a) := fun _ _ h => .ok a h

theorem throw {e : ε} {f : ε'} (same : E e f) :
    Simulates E R (throw e : EStateM ε σ α) (throw f) := fun _ _ h => .error same h

theorem modify {f : σ → σ} {g : τ → τ} (hkp : ∀ s t, R s t → R (f s) (g t)) :
    Simulates E R (modify f) (modify g) := fun s t h => .ok () (hkp s t h)

variable {c : EStateM ε σ α} {d : EStateM ε' τ α}

theorem bind {k : α → EStateM ε σ β}
    {l : α → EStateM ε' τ β} (first : Simulates E R c d)
    (rest : ∀ a, Simulates E R (k a) (l a)) : Simulates E R (c >>= k) (d >>= l) := by
  intro s t h
  have hag := first s t h
  simp only [Bind.bind, EStateM.bind]
  generalize c s = x at hag
  generalize d t = y at hag
  cases hag with
  | ok a hrel => exact rest a _ _ hrel
  | error same hrel => exact .error same hrel

theorem ite {p : Prop} [Decidable p] {d : EStateM ε σ α} {c' d' : EStateM ε' τ α}
    (left : Simulates E R c c') (right : Simulates E R d d') :
    Simulates E R (if p then c else d) (if p then c' else d') := by
  split
  · exact left
  · exact right

theorem forFrom {body : Nat → EStateM ε σ Unit} {body' : Nat → EStateM ε' τ Unit}
    (step : ∀ j, Simulates E R (body j) (body' j)) (i n : Nat) :
    Simulates E R (forFrom body i n) (forFrom body' i n) := by
  induction n generalizing i with
  | zero => exact pure ()
  | succ n ih => exact bind (step i) fun _ => ih (i + 1)

theorem swallow {p : ε → Bool} {q : ε' → Bool} {c : EStateM ε σ Unit} {d : EStateM ε' τ Unit}
    (hs : ∀ e f, E e f → p e = q f) (hag : Simulates E R c d) :
    Simulates E R (swallow p c) (swallow q d) := by
  intro s t h
  have := hag s t h
  simp only [Lib.swallow]
  generalize c s = x at this
  generalize d t = y at this
  cases this with
  | ok a hrel => exact .ok a hrel
  | error same hrel =>
    simp only [hs _ _ same]
    split
    · exact .ok () hrel
    · exact .error same hrel

/-- What is known of one computation holds of the other up to the relation. -/
theorem wp (hag : Simulates E R c d) {s : σ} {t : τ} (hrel : R s t)
    {Q : α → τ → Prop} {X : ε' → τ → Prop} (ends : Lib.wp d Q X t) :
    Lib.wp c (fun a s' => ∃ t', R s' t' ∧ Q a t') (fun e s' => ∃ f t', E e f ∧ R s' t' ∧ X f t') s := by
  have both := hag s t hrel
  simp only [Lib.wp] at ends ⊢
  generalize c s = x at both
  generalize d t = y at both ends
  cases both with
  | ok a hrel' => exact ⟨_, hrel', ends⟩
  | error same hrel' => exact ⟨_, _, same, hrel', ends⟩

end Simulates

end Gevisor.Lib
