import Gevisor.Mtrr.Pass

/-! # The two loops of the constructor

The registered ranges are flattened first; the ranges that come out, and one over all addresses with the
default type, are flattened again. The result covers every address once.
-/

namespace Gevisor.Mtrr

open Gevisor.Lib
open Gevisor.Ept

/-! ## Properties that a split preserves -/

variable {l t : List Range}

/-- Any two ranges are nested or apart. -/
def Laminar (l : List Range) : Prop := ∀ a ∈ l, ∀ b ∈ l, Nested a b

/-- Two of the ranges cross. -/
def Crossing (l : List Range) : Prop := ∃ a ∈ l, ∃ b ∈ l, Crosses a b

/-- What both loops need of the ranges. -/
structure Usable (l : List Range) : Prop where
  nonempty : l ≠ []
  sound : ∀ y ∈ l, Sound y

variable {l' : List Range}

theorem Usable.perm (hu : Usable l) (same : l.Perm l') : Usable l' where
  nonempty := fun hem => hu.nonempty (hem ▸ same).eq_nil
  sound y hm := hu.sound y (same.mem_iff.mpr hm)

theorem Usable.split {l l' pre post : List Range} {r1 r2 : Range} (hu : Usable l)
    (split : Split l l' pre r1 r2 post) : Usable l' where
  nonempty := List.ne_nil_of_mem split.second_mem_after
  sound y hm := by
    rcases split.mem_cases hm with old | new
    · exact hu.sound y old
    · exact (hu.sound r1 split.first_mem).piece (hu.sound r2 split.second_mem) split.within new

theorem Usable.positive (hu : Usable l) : ∀ y ∈ l, 0 < y.size := fun y hm =>
  (hu.sound y hm).nonempty

theorem laminar_of_pairwise (hn : l.Pairwise Nested) : Laminar l :=
  fun _ hm _ hme => hn.forall_of_forall (fun y _ => .inl (Within.refl y)) hm hme

theorem Laminar.perm (hl : Laminar l) (same : l.Perm l') : Laminar l' :=
  fun a hm b hme => hl a (same.mem_iff.mpr hm) b (same.mem_iff.mpr hme)

theorem Laminar.not_crossing (hl : Laminar l) : ¬ Crossing l := by
  rintro ⟨a, hm, b, hme, hc⟩
  exact (hl a hm b hme).not_crosses hc

/-- The addresses that some range has. -/
def Covers (l : List Range) (x : Nat) : Prop := ∃ y ∈ l, Mem x y

theorem covers_perm (same : l.Perm l') (x : Nat) : Covers l' x ↔ Covers l x := by
  simp only [Covers, same.mem_iff]

/-- The ranges of a loop that started with `first`. -/
structure Flattens (first l : List Range) : Prop where
  usable : Usable l
  laminar : Laminar first → Laminar l
  covers : ∀ x, Covers l x ↔ Covers first x

theorem Flattens.refl (hu : Usable l) : Flattens l l := ⟨hu, id, fun _ => Iff.rfl⟩

theorem Flattens.stable (first : List Range) (R : Range → Range → Prop) : Stable R (Flattens first) where
  perm same hh :=
    { usable := hh.usable.perm same
      laminar := fun hs => (hh.laminar hs).perm same
      covers := fun x => (covers_perm same x).trans (hh.covers x) }
  nonempty hh := hh.usable.nonempty
  sound hh := hh.usable.sound
  split hh split _ :=
    { usable := hh.usable.split split
      laminar := fun hs => split.nested_after hh.usable.positive (hh.laminar hs)
      covers := fun x => (split.covers x).trans (hh.covers x) }

/-! ## Both loops -/

theorem fin_defaultRange (type : MemoryType) : fin (defaultRange type) = 2 ^ 64 - 1 := by
  simp only [fin, defaultRange]
  omega

theorem sound_defaultRange (type : MemoryType) : Sound (defaultRange type) where
  base_dvd := by simp only [defaultRange]; omega
  base_le := Nat.zero_le _
  nonempty := by simp only [defaultRange]; omega
  ends := .inr (fin_defaultRange type)

theorem total_with_default (l : List Range) (type : MemoryType) :
    total (l ++ [defaultRange type]) = total l + (2 ^ 64 - 1) := by
  simp [total, defaultRange]

theorem usable_with_default (hu : Usable l) (type : MemoryType) : Usable (l ++ [defaultRange type]) where
  nonempty := by simp
  sound y hm := by
    rcases List.mem_append.mp hm with old | new
    · exact hu.sound y old
    · exact List.mem_singleton.mp new ▸ sound_defaultRange type

/-- The ranges in use after the constructor. -/
def State.inUse (s : State) : List Range := s.ranges.take s.num

theorem Filled.inUse_eq {s : State} (hfi : Filled s t) : s.inUse = t := by
  rw [State.inUse, hfi.ranges, hfi.num, List.take_left']
  rfl

/-- What the constructor throws, where `J` holds in the first loop and, when that has ended with `t`, `G t`
in the second. -/
def Stops (J : List Range → Prop) (G : List Range → List Range → Prop) (e : Err) (s : State) : Prop :=
  Full e s ∨ e = notExclusive ∧ ∃ t, J t ∧ (Crossing t ∨ t.Pairwise Left ∧ ∃ u, G t u ∧ Crossing u)

/-- The rule for the constructor: one stable property for each loop. The fuel the loops need is bounded by
the sizes of the registered ranges. -/
theorem wp_flatten {R : Range → Range → Prop} {J : List Range → Prop} {G : List Range → List Range → Prop}
    (hs : Stable R J) (hs' : ∀ t, J t → t.Pairwise Left → Stable R (G t)) {sorter : Sorter}
    (ho : ∀ a, (sorter.sort a).Pairwise R) {registered : List Range} (init : J registered)
    {type : MemoryType} (hb : ∀ t, J t → t.Pairwise Left → G t (t ++ [defaultRange type])) (fuel : Nat) :
    wp (flatten sorter registered type fuel)
      (fun _ s => ∃ t, J t ∧ t.Pairwise Left ∧ ∃ u, G t u ∧ u.Pairwise Left ∧ s.inUse = u)
      (Thrown (fuel ≤ total registered + 2 ^ 64) (Stops J G)) State.empty := by
  have hl : ∀ y ∈ registered, pageSize4k ≤ y.size := fun y hm =>
    (hs.sound init y hm).page_le_size
  simp only [flatten, wp_bind, wp_fueled]
  refine wp_mono ?_ (fun _ _ full => .inl full) (addRanges_spec filled_empty hl)
  intro _ s0 ha
  rw [List.nil_append] at ha
  refine wp_mono ?_ ?_ (wp_makeContinuous_loop (hs.bounded (total registered)) ho ha.represents
    ⟨init, Nat.le_refl _⟩ fuel)
  · rintro _ s1 ⟨t, hfi, ⟨hh, hbo⟩, hap⟩
    refine wp_mono ?_ (fun _ _ full => .inl full) (addRange_spec hfi (sound_defaultRange type).page_le_size)
    intro _ s2 ha
    refine wp_mono ?_ ?_ (wp_makeContinuous_loop (hs' t hh hap) ho ha.represents (hb t hh hap) fuel)
    · rintro _ s ⟨u, hfi, hh', hap'⟩
      exact ⟨t, hh, hap, u, hh', hap', hfi.inUse_eq⟩
    · intro e s htn
      cases e with
      | none =>
        have hsh : fuel ≤ total (t ++ [defaultRange type]) := htn
        rw [total_with_default] at hsh
        change fuel ≤ _
        omega
      | some e =>
        obtain ⟨u, hh', hf⟩ := htn
        exact hf.imp id fun hc => ⟨hc.1, t, hh, .inr ⟨hap, u, hh', hc.2⟩⟩
  · intro e s htn
    cases e with
    | none => exact Nat.le_trans htn (Nat.le_add_right _ _)
    | some e =>
      obtain ⟨t, ⟨hh, _⟩, hf⟩ := htn
      exact hf.imp id fun hc => ⟨hc.1, t, hh, .inl hc.2⟩

/-! ## The partition -/

/-- Ranges that are in order and apart and that cover all addresses from `start` on leave no gap. -/
theorem contiguous_of_covers {start : Nat} (hap : t.Pairwise Left) (hso : ∀ y ∈ t, Sound y)
    (first : ∀ y ∈ t, start ≤ y.base) (last : start ≤ 2 ^ 64 - 1)
    (covers : ∀ x, start ≤ x → x < 2 ^ 64 - 1 → Covers t x) : Contiguous start t := by
  induction t generalizing start with
  | nil =>
    by_contra gap
    obtain ⟨y, hm, _⟩ := covers start (Nat.le_refl _) (by simp only [Contiguous] at gap; omega)
    cases hm
  | cons r t ih =>
    obtain ⟨left, rest⟩ := List.pairwise_cons.mp hap
    simp only [List.forall_mem_cons] at hso first
    have hpos := hso.1.nonempty
    have ends := hso.1.fin_lt
    have base : r.base = start := by
      -- Only `r` can have the first address: the others lie to its right.
      have hb := first.1
      have space : start < 2 ^ 64 - 1 := by
        simp only [fin] at ends
        omega
      obtain ⟨y, hm, hi⟩ := covers start (Nat.le_refl _) space
      rcases List.mem_cons.mp hm with same | later
      · subst same
        exact Nat.le_antisymm hi.1 hb
      · have order := left y later
        simp only [Left, Mem, fin] at *
        omega
    refine ⟨base, hpos, ih rest hso.2 ?_ ?_ ?_⟩
    · intro y hm
      have order := left y hm
      simp only [Left, fin] at order
      omega
    · simp only [fin] at ends
      omega
    · intro x habv hb
      obtain ⟨y, hm, hi⟩ := covers x (by omega) hb
      rcases List.mem_cons.mp hm with same | later
      · subst same
        simp only [Mem, fin] at hi
        omega
      · exact ⟨y, later, hi⟩

/-- With the default range every address is covered. -/
theorem covers_with_default (l : List Range) (type : MemoryType) {x : Nat} (hs : x < 2 ^ 64 - 1) :
    Covers (l ++ [defaultRange type]) x := by
  refine ⟨defaultRange type, by simp, Nat.zero_le _, ?_⟩
  rw [fin_defaultRange]
  exact hs

/-- Ranges that are apart, and one around them. -/
theorem laminar_with_default (hap : t.Pairwise Left) (hso : ∀ y ∈ t, Sound y)
    (type : MemoryType) : Laminar (t ++ [defaultRange type]) := by
  have hi : Laminar t := laminar_of_pairwise (hap.imp fun left => .inr (.inr (.inl left)))
  have ho : ∀ y ∈ t, Within y (defaultRange type) := by
    intro y hm
    have ends := (hso y hm).fin_lt
    exact ⟨Nat.zero_le _, by rw [fin_defaultRange]; omega⟩
  intro a hmm b hme
  simp only [List.mem_append, List.mem_singleton] at hmm hme
  rcases hmm with hmm | rfl
  · rcases hme with hme | rfl
    · exact hi a hmm b hme
    · exact .inl (ho a hmm)
  · rcases hme with hme | rfl
    · exact .inr (.inl (ho b hme))
    · exact .inl (Within.refl _)

end Gevisor.Mtrr
