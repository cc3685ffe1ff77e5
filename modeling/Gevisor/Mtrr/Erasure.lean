import Gevisor.Mtrr.Pass

/-! # The types do not steer the constructor

Two sorts can order ranges differently only if the ranges have the same addresses. So two runs with
different sorts go through arrays with the same addresses at the same places, and end alike; only the
types in them may differ.
-/

namespace Gevisor.Mtrr

open Gevisor.Lib
open Gevisor.Ept

variable {r r' : Range} {s s' : State}

/-- A range without its type. -/
def addresses (r : Range) : Nat × Nat := (r.base, r.size)

/-- Arrays with the same addresses at the same places. -/
structure Aligned (s s' : State) : Prop where
  num : s.num = s'.num
  ranges : s.ranges.map addresses = s'.ranges.map addresses

theorem Aligned.refl (s : State) : Aligned s s := ⟨rfl, rfl⟩

theorem Aligned.length (hal : Aligned s s') : s.ranges.length = s'.ranges.length := by
  have hl := congrArg List.length hal.ranges
  simpa only [List.length_map] using hl

theorem Aligned.set (hal : Aligned s s') (same : Same r r') (i num : Nat) :
    Aligned ⟨num, s.ranges.set i r⟩ ⟨num, s'.ranges.set i r'⟩ := by
  refine ⟨rfl, ?_⟩
  simp only [List.map_set, hal.ranges, addresses, same.1, same.2]

/-! ## Sorting -/

/-- The order of `compare`, on addresses. -/
def AddressesBefore (p q : Nat × Nat) : Prop := p.1 < q.1 ∨ p.1 = q.1 ∧ q.2 < p.2

theorem Sorted.addresses {l : List Range} (hs : Sorted l) :
    (l.map addresses).Pairwise fun p q => ¬ AddressesBefore q p :=
  List.pairwise_map.mpr hs

variable (sorter sorter' : Sorter) (registered : List Range) (type : MemoryType) (fuel : Nat)

theorem sort_addresses {l l' : List Range} (hal : l.map addresses = l'.map addresses) :
    (sorter.sort l).map addresses = (sorter'.sort l').map addresses := by
  have perm : ((sorter.sort l).map addresses).Perm ((sorter'.sort l').map addresses) := by
    have first := (sorter.perm l).map addresses
    have hs := (sorter'.perm l').map addresses
    rw [hal] at first
    exact first.trans hs.symm
  refine perm.eq_of_pairwise ?_ (sorter.sorted_sort l).addresses (sorter'.sorted_sort l').addresses
  rintro ⟨base, size⟩ ⟨base', size'⟩ _ _ first hs
  simp only [AddressesBefore] at first hs
  simp only [Prod.mk.injEq]
  omega

/-! ## The functions of the constructor -/

theorem addRange_simulates (same : Same r r') : Simulates Eq Aligned (addRange r) (addRange r') := by
  intro s s' hal
  unfold addRange
  rw [get_bind, get_bind, hal.num, same.2, hal.length]
  split
  · exact .error rfl hal
  · split
    · exact .error rfl hal
    · split
      · exact .error rfl hal
      · exact .ok () (hal.set same _ _)

theorem addPiece_simulates (type' : MemoryType) (base size : Nat) :
    Simulates Eq Aligned (addPiece type base size) (addPiece type' base size) := by
  unfold addPiece
  exact .ite (addRange_simulates ⟨rfl, rfl⟩) (.pure ())

theorem splitRange_simulates (i : Nat) {r1 r2 r1' r2' : Range} (first : Same r1 r1') (hs : Same r2 r2') :
    Simulates Eq Aligned (splitRange i r1 r2) (splitRange i r1' r2') := by
  simp only [splitRange, first.1, first.2, hs.1, hs.2]
  refine .bind (addPiece_simulates _ _ _ _) fun _ => .bind (addPiece_simulates _ _ _ _) fun _ => .modify ?_
  intro s s' hal
  rw [hal.num]
  exact hal.set ⟨rfl, rfl⟩ i _

/-- At any place both arrays end, or have ranges with the same addresses. -/
theorem Aligned.lookup (hal : Aligned s s') (i : Nat) : s.ranges[i]? = none ∧ s'.ranges[i]? = none ∨
      ∃ r r', s.ranges[i]? = some r ∧ s'.ranges[i]? = some r' ∧ Same r r' := by
  have hmap : s.ranges[i]?.map addresses = s'.ranges[i]?.map addresses := by
    rw [← List.getElem?_map, ← List.getElem?_map, hal.ranges]
  cases here : s.ranges[i]? with
  | none =>
    rw [here] at hmap
    exact .inl ⟨rfl, Option.map_eq_none_iff.mp hmap.symm⟩
  | some r =>
    rw [here] at hmap
    obtain ⟨r', ht, heq⟩ := Option.map_eq_some_iff.mp hmap.symm
    exact .inr ⟨r, r', rfl, ht, congrArg Prod.fst heq.symm, congrArg Prod.snd heq.symm⟩

theorem scan_simulates (n i : Nat) : Simulates Eq Aligned (scan n i) (scan n i) := by
  induction n generalizing i with
  | zero => exact .pure true
  | succ n ih =>
    intro s s' hal
    unfold scan
    rw [get_bind, get_bind]
    rcases hal.lookup i with ⟨here, ht⟩ | ⟨r1, r1', here, ht, hs⟩
    · rw [here, ht]
      exact .error rfl hal
    · rcases hal.lookup (i + 1) with ⟨next, next'⟩ | ⟨r2, r2', next, next', hsa⟩
      · rw [here, ht, next, next']
        exact .error rfl hal
      · have hsu : isSubset r1 r2 = isSubset r1' r2' := by
          simp only [isSubset, hs.1, hs.2, hsa.1, hsa.2]
        have hi : isIntersecting r1 r2 = isIntersecting r1' r2' := by
          simp only [isIntersecting, hs.1, hs.2, hsa.1]
        simp only [here, ht, next, next', hsu, hi]
        exact Simulates.ite (.bind (splitRange_simulates i hs hsa) fun _ => .pure false)
          (.ite (.throw rfl) (ih ((i + 1) % 2 ^ 8))) s s' hal

theorem makeContinuous_simulates :
    Simulates Eq Aligned (makeContinuous sorter) (makeContinuous sorter') := by
  intro s s' hal
  rw [makeContinuous_eq, makeContinuous_eq, hal.num]
  exact scan_simulates _ 0 _ _ ⟨rfl, sort_addresses sorter sorter' hal.ranges⟩

theorem addRanges_simulates :
    Simulates Eq Aligned (addRanges registered) (addRanges registered) := by
  induction registered with
  | nil => exact .pure ()
  | cons r registered ih =>
    exact .bind (addRange_simulates ⟨rfl, rfl⟩) fun _ => ih

theorem flatten_simulates :
    Simulates (Option.Rel Eq) Aligned (flatten sorter registered type fuel) (flatten sorter' registered type fuel) := by
  have loop := (makeContinuous_simulates sorter sorter').repeatUntil fuel
  exact .bind (addRanges_simulates registered).fueled fun _ => .bind loop fun _ =>
    .bind (addRange_simulates ⟨rfl, rfl⟩).fueled fun _ => loop

/-- Whether the constructor succeeds does not depend on the sort. -/
theorem flatten_ok {sorter : Sorter} {registered : List Range} {type : MemoryType} {fuel : Nat} {s : State}
    (hret : flatten sorter registered type fuel State.empty = .ok () s) (sorter' : Sorter) :
    ∃ s', flatten sorter' registered type fuel State.empty = .ok () s' := by
  have both := flatten_simulates sorter sorter' registered type fuel _ _ (.refl State.empty)
  rw [hret] at both
  generalize flatten sorter' registered type fuel State.empty = result at both ⊢
  cases both with
  | ok _ _ => exact ⟨_, rfl⟩

end Gevisor.Mtrr
