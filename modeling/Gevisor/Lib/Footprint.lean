import Gevisor.Lib.Exec

/-! # Footprints

A computation that records what it touches in its state. `Touches` says under which condition everything
it records is permitted; the conditions of the parts of a program add up to the condition of the whole.
-/

namespace Gevisor.Lib

variable {ε σ α β A : Type}

section

-- What is recorded, and what may be.
variable (log : σ → List A) (B : A → Prop)

/-- Everything on record is permitted. -/
def Permitted (s : σ) : Prop := ∀ x ∈ log s, B x

/-- From `s`, `c` returns into `Q`, and what it adds to the record is permitted exactly if `C`. -/
@[irreducible] def Touches (c : EStateM ε σ α) (s : σ) (C : Prop) (Q : α → σ → Prop) : Prop :=
  wp c (fun a t => Q a t ∧ (Permitted log B t ↔ Permitted log B s ∧ C)) (fun _ _ => False) s

end

namespace Touches

variable {log : σ → List A} {B : A → Prop} {s : σ} {C C' : Prop} {Q : α → σ → Prop}

variable {c : EStateM ε σ α} {a : α} {t : σ} {k : α → EStateM ε σ β} {R : β → σ → Prop}
    {body : Nat → EStateM ε σ Unit} {n : Nat}

theorem of_ok {xs : List A} (hret : c s = .ok a t)
    (hr : log t = xs ++ log s) (post : Q a t) : Touches log B c s (∀ x ∈ xs, B x) Q := by
  rw [Touches, wp_of_ok hret]
  refine ⟨post, ?_⟩
  rw [Permitted, hr, List.forall_mem_append, And.comm, Permitted]

/-- A step that adds nothing to the record. -/
theorem silent (hret : c s = .ok a t) (same : log t = log s) (post : Q a t) : Touches log B c s True Q := by
  rw [Touches, wp_of_ok hret]
  refine ⟨post, ?_⟩
  rw [and_true, Permitted, same, Permitted]

theorem pure (post : Q a s) : Touches log B (pure a : EStateM ε σ α) s True Q := silent rfl rfl post

theorem congr (ht : Touches log B c s C Q) (same : C ↔ C') : Touches log B c s C' Q := by
  rw [← propext same]
  exact ht

theorem mono {Q' : α → σ → Prop} (ht : Touches log B c s C Q)
    (hi : ∀ a t, Q a t → Q' a t) : Touches log B c s C Q' := by
  rw [Touches] at ht ⊢
  exact wp_mono (fun a t ends => ⟨hi a t ends.1, ends.2⟩) (fun _ _ absurd => absurd) ht

theorem bind (first : Touches log B c s C Q)
    (rest : ∀ a t, Q a t → Touches log B (k a) t C' R) : Touches log B (c >>= k) s (C ∧ C') R := by
  rw [Touches] at first
  rw [Touches, wp_bind]
  refine wp_mono (fun a t ends => ?_) (fun _ _ absurd => absurd) first
  have hla := rest a t ends.1
  rw [Touches] at hla
  refine wp_mono (fun b u ends' => ⟨ends'.1, ?_⟩) (fun _ _ absurd => absurd) hla
  rw [ends'.2, ends.2, and_assoc]

/-- A step that adds nothing to the record, and the rest. -/
theorem andThen (first : Touches log B c s True Q)
    (rest : ∀ a t, Q a t → Touches log B (k a) t C R) : Touches log B (c >>= k) s C R :=
  (bind first rest).congr (iff_of_eq (true_and C))

/-- The loop rule: iteration `j` keeps the invariant and is permitted exactly if `C j`. -/
theorem loop {C : Nat → Prop} (I : Nat → σ → Prop) {i : Nat} {s : σ} (init : I i s)
    (step : ∀ j t, j < i + n → I j t → Touches log B (body j) t (C j) fun _ u => I (j + 1) u) :
    Touches log B (forFrom body i n) s (∀ j, i ≤ j → j < i + n → C j) fun _ t => I (i + n) t := by
  induction n generalizing i s with
  | zero =>
    have none : True ↔ ∀ j, i ≤ j → j < i + 0 → C j :=
      ⟨fun _ j hl hu => absurd hu (Nat.not_lt.mpr hl), fun _ => trivial⟩
    exact congr (silent (t := s) (a := ()) rfl rfl init) none
  | succ n ih =>
    have hs : i + 1 + n = i + (n + 1) := by omega
    have split : (C i ∧ ∀ j, i + 1 ≤ j → j < i + 1 + n → C j) ↔ ∀ j, i ≤ j → j < i + 1 + n → C j := by
      constructor
      · intro ⟨here, hla⟩ j hl hu
        cases Nat.eq_or_lt_of_le hl with
        | inl first => exact first ▸ here
        | inr habv => exact hla j habv (by omega)
      · intro all
        exact ⟨all i (Nat.le_refl i) (by omega), fun j hl hu => all j (by omega) (by omega)⟩
    rw [← hs]
    exact congr (bind (step i s (by omega) init) fun _ t next =>
      ih next fun j u hu => step j u (by omega)) split

/-- The rule for a loop from zero. -/
theorem loop_zero {C : Nat → Prop} (I : Nat → σ → Prop) (init : I 0 s)
    (step : ∀ j t, j < n → I j t → Touches log B (body j) t (C j) fun _ u => I (j + 1) u) :
    Touches log B (forFrom body 0 n) s (∀ j < n, C j) fun _ t => I n t := by
  have hwh : Touches log B _ s _ _ := loop I init fun j t hu => step j t (Nat.zero_add n ▸ hu)
  rw [Nat.zero_add] at hwh
  exact hwh.congr ⟨fun all j hu => all j (Nat.zero_le j) hu, fun all j _ hu => all j hu⟩

end Touches

end Gevisor.Lib
