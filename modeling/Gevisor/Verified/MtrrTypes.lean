import Mathlib.Data.List.MinMax
import Gevisor.Mtrr.Erasure
import Gevisor.Mtrr.Heirs

/-! # The type an address gets from the MTRRs

An address should get the type of the smallest registered range that contains it. Where a piece of a
range comes to coincide with a registered range inside it, the sort decides which of the two stays.
-/

namespace Gevisor.Verified.MtrrTypes

open Gevisor.Lib
open Gevisor.Ept
open Gevisor.Mtrr

/-- The type the constructor is meant to give an address. -/
def innermostType (registered : List Range) (type : MemoryType) (x : Nat) : MemoryType :=
  match (containing x registered).argmin Range.size with
  | some r => r.type
  | none => type

/-- The type an address has in the flattened list. -/
def typeAt (s : State) (x : Nat) : Option MemoryType := (s.inUse.find? fun r => Mem x r).map Range.type

/-- Registered ranges of whole pages, with distinct addresses and nested or disjoint. No physical address
comes near the limit. -/
structure Family (registered : List Range) : Prop where
  nonempty : registered ≠ []
  base : ∀ r ∈ registered, 4096 ∣ r.base
  size : ∀ r ∈ registered, 4096 ∣ r.size
  positive : ∀ r ∈ registered, 0 < r.size
  ends : ∀ r ∈ registered, r.base + r.size ≤ limit
  nested : registered.Pairwise Nested
  distinct : Distinct registered

variable {registered : List Range} {x : Nat} {type : MemoryType}

theorem Family.usable (hf : Family registered) : Usable registered where
  nonempty := hf.nonempty
  sound r hm :=
    { base_dvd := hf.base r hm
      base_le := Nat.le_trans (Nat.le_add_right _ _) (hf.ends r hm)
      nonempty := hf.positive r hm
      ends := .inl ⟨Nat.dvd_add (hf.base r hm) (hf.size r hm), hf.ends r hm⟩ }

theorem Family.laminar (hf : Family registered) : Laminar registered := laminar_of_pairwise hf.nested

/-! ## Looking a type up -/

theorem typeAt_eq {s : State} (hap : s.inUse.Pairwise Left)
    (typed : HasType x type s.inUse) : typeAt s x = some type := by
  unfold typeAt
  generalize s.inUse = t at hap typed ⊢
  obtain ⟨Y, hm, hi, rfl⟩ := typed
  induction t with
  | nil => cases hm
  | cons r t ih =>
    obtain ⟨left, rest⟩ := List.pairwise_cons.mp hap
    rw [List.find?_cons]
    rcases List.mem_cons.mp hm with rfl | later
    · simp [hi]
    · have hout : ¬ Mem x r := by
        have order := left Y later
        simp only [Left, Mem] at *
        omega
      simp only [hout, decide_false]
      exact ih rest later

theorem innermostType_eq (hfa : Family registered) {D : Range}
    (hinn : Innermost registered x D) (type : MemoryType) : innermostType registered type x = D.type := by
  have hm : D ∈ containing x registered := mem_containing.mpr ⟨hinn.registered, hinn.mem⟩
  unfold innermostType
  cases hs : (containing x registered).argmin Range.size with
  | none =>
    rw [List.argmin_eq_none.mp hs] at hm
    cases hm
  | some r =>
    have hf := mem_containing.mp (List.argmin_mem hs)
    have hsm : r.size ≤ D.size := List.le_of_mem_argmin hm hs
    have ha := hinn.least r hf.1 hf.2
    have same : Same r D := by
      simp only [Same, Within, fin] at *
      omega
    rw [hfa.distinct.eq_of_same hf.1 hinn.registered same]

theorem exists_innermost (hfa : Family registered) (hcv : Covers registered x) : ∃ D, Innermost registered x D := by
  obtain ⟨y, hm, hi⟩ := hcv
  have some : y ∈ containing x registered := mem_containing.mpr ⟨hm, hi⟩
  cases hs : (containing x registered).argmin Range.size with
  | none =>
    rw [List.argmin_eq_none.mp hs] at some
    cases some
  | some D =>
    have hf := mem_containing.mp (List.argmin_mem hs)
    refine ⟨D, hf.1, hf.2, ?_⟩
    intro Z hme hin
    have hsm : D.size ≤ Z.size := List.le_of_mem_argmin (mem_containing.mpr ⟨hme, hin⟩) hs
    have hn := hfa.laminar D hf.1 Z hme
    have mem := hf.2
    simp only [Nested, Within, Left, Mem, fin] at *
    omega

theorem innermostType_default (hu : ¬ Covers registered x)
    (type : MemoryType) : innermostType registered type x = type := by
  have none : containing x registered = [] := by
    simp only [containing, List.filter_eq_nil_iff, decide_eq_true_eq]
    exact fun y hm hi => hu ⟨y, hm, hi⟩
  simp [innermostType, none]

/-! ## The second loop -/

section Second

variable {t : List Range} {type : MemoryType}

/-- What the first loop leaves for the second. -/
structure Ready (t : List Range) : Prop where
  apart : t.Pairwise Left
  usable : Usable t
  ends : ∀ y ∈ t, fin y ≤ limit

theorem ready_of_flattens {registered : List Range} (hfa : Family registered)
    (hf : Flattens registered t) (hap : t.Pairwise Left) : Ready t where
  apart := hap
  usable := hf.usable
  ends y hm := by
    -- The last address of `y` belongs to a registered range.
    have hpos := hf.usable.positive y hm
    have last : Covers t (fin y - 1) := ⟨y, hm, by simp only [Mem, fin]; omega⟩
    obtain ⟨Z, registered, hi⟩ := (hf.covers _).mp last
    have hbo := hfa.ends Z registered
    simp only [Mem, fin] at *
    omega

section

variable (hrd : Ready t)

include hrd

theorem Ready.eq_of_mem {x : Nat} {Y Z : Range} (hm : Y ∈ t) (hme : Z ∈ t) (hi : Mem x Y) (hin : Mem x Z) :
    Y = Z := by
  by_contra hd
  have symm : Std.Symm fun a b => Left a b ∨ Left b a := ⟨fun _ _ => Or.symm⟩
  have he : t.Pairwise fun a b => Left a b ∨ Left b a := hrd.apart.imp .inl
  have ho := he.forall hm hme hd
  simp only [Left, Mem] at *
  omega

theorem Ready.not_same_default {Y : Range} (hm : Y ∈ t) : ¬ Same Y (defaultRange type) := by
  intro same
  have ends := hrd.ends Y hm
  have last := fin_defaultRange type
  simp only [Same, limit, fin] at *
  omega

theorem Ready.distinct : Distinct (t ++ [defaultRange type]) := by
  rw [Distinct, List.pairwise_append]
  refine ⟨?_, List.pairwise_singleton _ _, ?_⟩
  · apply hrd.apart.imp_of_mem
    intro a b hmm hme left same
    have hpos := hrd.usable.positive b hme
    simp only [Left, Same, fin] at *
    omega
  · intro Y hm Z hs
    exact List.mem_singleton.mp hs ▸ hrd.not_same_default hm

/-- No range is left at the end of another one, so no piece can take its place. -/
theorem Ready.unambiguous : Unambiguous (t ++ [defaultRange type]) := by
  intro A D usurps x hinn
  exfalso
  have hi := usurps.inside
  have ends := usurps.ends
  have last := fin_defaultRange type
  rcases List.mem_append.mp hinn.registered with inner | same
  · have hbo := hrd.ends D inner
    rcases List.mem_append.mp usurps.outer with outer | default
    · have mem := hinn.mem
      have heq := hrd.eq_of_mem inner outer mem (by simp only [StrictlyIn, Within, Mem] at *; omega)
      exact hi.2 (heq ▸ Within.refl D)
    · rw [List.mem_singleton.mp default, last] at ends
      simp only [limit] at hbo
      omega
  · rw [List.mem_singleton.mp same] at ends hi
    rcases List.mem_append.mp usurps.outer with outer | default
    · have hbo := hrd.ends A outer
      simp only [limit] at hbo
      omega
    · exact hi.2 (List.mem_singleton.mp default ▸ Within.refl _)

theorem Ready.faithful : Faithful (t ++ [defaultRange type]) (t ++ [defaultRange type]) :=
  .refl (usable_with_default hrd.usable type) (laminar_with_default hrd.apart hrd.usable.sound type) hrd.distinct

/-- The types that the first loop has found stay. -/
theorem Ready.hasType {u : List Range} (faithful : Faithful (t ++ [defaultRange type]) u)
    {x : Nat} {found : MemoryType} (typed : HasType x found t) : HasType x found u := by
  obtain ⟨Y, hm, hi, rfl⟩ := typed
  apply faithful.hasType
  refine ⟨List.mem_append_left _ hm, hi, ?_⟩
  intro Z memberZ insideZ
  rcases List.mem_append.mp memberZ with other | default
  · exact hrd.eq_of_mem hm other hi insideZ ▸ Within.refl Y
  · have ends := hrd.ends Y hm
    have last := fin_defaultRange type
    rw [List.mem_singleton.mp default]
    exact ⟨Nat.zero_le _, by simp only [limit] at ends; omega⟩

end

/-- The other addresses get the default type. -/
theorem hasType_default {u : List Range} (faithful : Faithful (t ++ [defaultRange type]) u) {x : Nat}
    (small : x < 2 ^ 64 - 1) (uncovered : ¬ Covers t x) : HasType x type u := by
  have hinn : Innermost (t ++ [defaultRange type]) x (defaultRange type) := by
    refine ⟨by simp, ⟨Nat.zero_le _, by rw [fin_defaultRange]; exact small⟩, ?_⟩
    intro Z hm hi
    rcases List.mem_append.mp hm with other | default
    · exact absurd ⟨Z, other, hi⟩ uncovered
    · exact List.mem_singleton.mp default ▸ Within.refl _
  exact faithful.hasType hinn

end Second

/-! ## Both loops -/

section Both

variable {registered : List Range} {type : MemoryType} {sorter : Sorter} {fuel : Nat} {s : State}

/-- The rule for a run that succeeds: a stable property of the first loop, and the types at its end. -/
theorem types_of_flatten {R : Range → Range → Prop} {J : List Range → Prop} (hf : Family registered)
    (hst : Stable R J) (init : J registered) (ho : ∀ a, (sorter.sort a).Pairwise R)
    (hret : flatten sorter registered type fuel State.empty = .ok () s) :
    s.inUse.Pairwise Left ∧ ∃ t, J t ∧ Flattens registered t ∧ Ready t ∧
      Faithful (t ++ [defaultRange type]) s.inUse := by
  have hrd : ∀ t, Flattens registered t ∧ J t → t.Pairwise Left → Ready t := fun t hh hap =>
    ready_of_flattens hf hh.1 hap
  have hs : ∀ t, Flattens registered t ∧ J t → t.Pairwise Left →
      Faithful (t ++ [defaultRange type]) (t ++ [defaultRange type]) := fun t hh hap =>
    (hrd t hh hap).faithful
  have ends := wp_flatten ((Flattens.stable registered R).and hst)
    (fun t hh hap => Faithful.stable (hrd t hh hap).unambiguous R) ho
    ⟨.refl hf.usable, init⟩ hs fuel
  rw [wp_of_ok hret] at ends
  obtain ⟨t, hh, hap, u, hfa, hap', rfl⟩ := ends
  exact ⟨hap', t, hh.2, hh.1, hrd t hh hap, hfa⟩

/-- On an unambiguous family every sort gives the innermost types. -/
theorem typeAt_innermost (hf : Family registered) (hu : Unambiguous registered)
    (hret : flatten sorter registered type fuel State.empty = .ok () s) {x : Nat} (hs : x < 2 ^ 64 - 1) :
    typeAt s x = some (innermostType registered type x) := by
  have init := Faithful.refl hf.usable hf.laminar hf.distinct
  obtain ⟨hap, t, hfa, hfl, hrd, hf'⟩ := types_of_flatten hf
    (Faithful.stable hu fun _ _ => True) init (fun _ => List.pairwise_of_forall fun _ _ => trivial) hret
  apply typeAt_eq hap
  by_cases hcv : Covers registered x
  · obtain ⟨D, hinn⟩ := exists_innermost hf hcv
    rw [innermostType_eq hf hinn]
    exact hrd.hasType hf' (hfa.hasType hinn)
  · rw [innermostType_default hcv]
    exact hasType_default hf' hs fun hst => hcv ((hfl.covers x).mp hst)

/-- On any other family, a sort that leaves the type of the outer range behind gives a wrong type. -/
theorem typeAt_usurped (hf : Family registered) {A D : Range} {x : Nat} (hu : Usurps registered A D)
    (hinn : Innermost registered x D)
    (hret : flatten (.last A.type) registered type fuel State.empty = .ok () s) :
    typeAt s x = some A.type := by
  obtain ⟨hap, t, hs, _, hrd, hfa⟩ := types_of_flatten hf (Spoils.stable hf.usable hf.laminar hu hinn)
    (.refl hf.usable hf.laminar hu x) (List.pairwise_insertionSort (BeforeLast A.type)) hret
  exact typeAt_eq hap (hrd.hasType hfa (hs.usurped.hasType hinn.mem))

end Both

/-- Every order of ties gives each address the type of the smallest registered range that contains it, or
else the default type, exactly when the constructor never succeeds or the family is unambiguous. -/
theorem innermost_types_iff (registered : List Range) (type : MemoryType) (family : Family registered) :
    (∀ sorter fuel s, flatten sorter registered type fuel State.empty = .ok () s →
        ∀ x, x < 2 ^ 64 - 1 → typeAt s x = some (innermostType registered type x)) ↔
      (∀ sorter fuel s, flatten sorter registered type fuel State.empty ≠ .ok () s) ∨ Unambiguous registered := by
  constructor
  · intro correct
    by_contra neither
    simp only [not_or, not_forall, not_not] at neither
    obtain ⟨⟨sorter, fuel, s, returns⟩, ambiguous⟩ := neither
    simp only [Unambiguous, not_forall] at ambiguous
    obtain ⟨A, D, usurps, x, innermost, differ⟩ := ambiguous
    -- The same run with a sort that keeps the type of `A` succeeds too.
    obtain ⟨s', returns'⟩ := flatten_ok returns (.last A.type)
    have wrong := typeAt_usurped family usurps innermost returns'
    have small : x < 2 ^ 64 - 1 := by
      have inside := innermost.mem
      have bound := family.ends D innermost.registered
      simp only [Mem, limit, fin] at *
      omega
    rw [correct _ _ _ returns' x small, innermostType_eq family innermost] at wrong
    exact differ (Option.some.inj wrong).symm
  · intro condition sorter fuel s returns x small
    rcases condition with never | unambiguous
    · exact absurd returns (never sorter fuel s)
    · exact typeAt_innermost family unambiguous returns small

/-! ## Two families -/

/-- A variable range around the fixed one. -/
def nestedFamily : List Range := [fixedRange, ⟨.writeBack, 0, 0x200000⟩]

/-- A third range that begins where the fixed one ends. -/
def tiedFamily : List Range :=
  [fixedRange, ⟨.writeBack, 0, 0x200000⟩, ⟨.writeCombining, 0x100000, 0x100000⟩]

theorem family_tied : Family tiedFamily where
  nonempty := by simp [tiedFamily]
  base := by decide
  size := by decide
  positive := by decide
  ends := by decide
  nested := by decide
  distinct := by unfold Distinct; decide

theorem family_nested : Family nestedFamily where
  nonempty := by simp [nestedFamily]
  base := by decide
  size := by decide
  positive := by decide
  ends := by decide
  nested := by decide
  distinct := by unfold Distinct; decide

theorem unambiguous_nested : Unambiguous nestedFamily := by
  intro A D hu x hinn
  have hap : ∀ A ∈ nestedFamily, ∀ D ∈ nestedFamily, StrictlyIn D A → fin D ≠ fin A := by decide
  exact absurd hu.ends (hap A hu.outer D hinn.registered hu.inside)

theorem innermost_types_nested :
    Family nestedFamily ∧ ∀ sorter fuel s, flatten sorter nestedFamily .uncacheable fuel State.empty = .ok () s →
      ∀ x, x < 2 ^ 64 - 1 → typeAt s x = some (innermostType nestedFamily .uncacheable x) :=
  ⟨family_nested, (innermost_types_iff nestedFamily .uncacheable family_nested).mpr (.inr unambiguous_nested)⟩

/-- The type of an address after a run that succeeds. -/
def resultType (sorter : Sorter) (registered : List Range) (type : MemoryType) (fuel x : Nat) :
    Option MemoryType :=
  match flatten sorter registered type fuel State.empty with
  | .ok _ s => typeAt s x
  | .error _ _ => none

theorem exists_of_resultType {sorter : Sorter} {found : MemoryType} {fuel : Nat}
    (hres : resultType sorter registered type fuel x = some found) :
    ∃ s, flatten sorter registered type fuel State.empty = .ok () s ∧ typeAt s x = some found := by
  unfold resultType at hres
  generalize flatten sorter registered type fuel State.empty = outcome at hres ⊢
  cases outcome with
  | ok _ s => exact ⟨s, rfl, hres⟩
  | error _ _ => cases hres

/-- Cutting the write-back range at the fixed one leaves a piece with the addresses of the
write-combining range, and the sort decides which of the two stays. -/
theorem tied_types_depend_on_sort :
    Family tiedFamily ∧ innermostType tiedFamily .uncacheable 0x100000 = .writeCombining ∧
      (∃ s, flatten (.last .writeBack) tiedFamily .uncacheable 10 State.empty = .ok () s ∧
        typeAt s 0x100000 = some .writeBack) ∧
      ∃ s, flatten (.last .writeCombining) tiedFamily .uncacheable 10 State.empty = .ok () s ∧
        typeAt s 0x100000 = some .writeCombining := by
  refine ⟨family_tied, by decide, exists_of_resultType ?_, exists_of_resultType ?_⟩
  · decide +kernel
  · decide +kernel

end Gevisor.Verified.MtrrTypes
