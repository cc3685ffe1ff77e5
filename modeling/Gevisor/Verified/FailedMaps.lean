import Gevisor.Host.Requests

/-! # What a failed map leaves behind

The range goes back to the pool in any case. The pages that were mapped before the call failed stay mapped: the
destructor of an object does not run when its constructor throws.
-/

namespace Gevisor.Verified.FailedMaps

open Lib Ept Host

variable {mm : PagePool} {mem : Memory} {r : Request} {A B : AddrMap} {t t' : Buddy memMapPoolK} {s s' : Host} {q : Nat}

/-- A call with its arguments in order maps all of its pages, or not even the first. -/
def AllOrNone (mem : Memory) (r : Request) (A : AddrMap) (t : Buddy memMapPoolK) : Prop :=
  ∀ q t', granted t r.size = some (q, t') → r.Accepted → Mappable mem r A t' q 0 →
    ∀ i < r.count, Mappable mem r A t' q i

/-- The state has one meaning. -/
theorem holds_unique (hh : Holds mm A t s) (ho : Holds mm B t' s) : A = B :=
  hh.maps.refines.2.symm.trans ho.maps.refines.2

/-- The first page is a trace. -/
theorem painted_ne {n : Nat} (hmap : 0 < n) (hab : A (place q 0) = none) : painted mem r A q n ≠ A := by
  intro same
  have ht : painted mem r A q n (place q 0) ≠ none := painted_ne_none hmap (SameLeaf.refl .pt (place q 0))
  rw [same] at ht
  exact ht hab

/-- The pool gets the range back, whatever is left in the page tables. -/
theorem failed_map_returns_range (hh : Holds mm A t s) (mem : Memory) (r : Request) :
    wp (r.make mm mem) (fun _ _ => True) (fun _ s' => ∃ B, Holds mm B t s') s := by
  by_cases hrfd : granted t r.size = none ∨ ¬ r.Accepted
  · exact wp_mono (fun _ _ _ => trivial) (fun _ _ ends => ⟨A, ends.1⟩) (wp_make_refused hh hrfd)
  · obtain ⟨some, hacc⟩ := not_or.mp hrfd
    obtain ⟨⟨q, t'⟩, hgr⟩ := Option.ne_none_iff_exists'.mp some
    refine wp_mono (fun _ _ _ => trivial) ?_ (wp_make hh hgr (not_not.mp hacc))
    rintro e s' ⟨-, k, -, -, -, hh'⟩
    exact ⟨_, hh'⟩

theorem failed_map_no_trace_iff (holds : Holds mm A t s) :
    wp (r.make mm mem) (fun _ _ => True) (fun _ s' => Holds mm A t s') s ↔ AllOrNone mem r A t := by
  constructor
  · intro noTrace q t' grants accepted first
    have ends := wp_and noTrace (wp_make holds grants accepted)
    -- After an exception the first page would be there and not be there.
    have returns : wp (r.make mm mem) (fun _ _ => ∀ i < r.count, Mappable mem r A t' q i) (fun _ _ => False) s := by
      refine wp_mono (fun _ _ end_ => end_.2.2.2) ?_ ends
      rintro e s' ⟨same, -, k, -, -, stop, left⟩
      cases k with
      | zero => exact stop first
      | succ k => exact painted_ne (Nat.succ_pos k) first.absent (holds_unique left same)
    obtain ⟨_, _, _, all⟩ := exists_of_wp returns
    exact all
  · intro whole
    by_cases refused : granted t r.size = none ∨ ¬ r.Accepted
    · exact wp_mono (fun _ _ _ => trivial) (fun _ _ ends => ends.1) (wp_make_refused holds refused)
    · obtain ⟨some, accepted⟩ := not_or.mp refused
      obtain ⟨⟨q, t'⟩, grants⟩ := Option.ne_none_iff_exists'.mp some
      refine wp_mono (fun _ _ _ => trivial) ?_ (wp_make holds grants (not_not.mp accepted))
      rintro e s' ⟨-, k, less, earlier, stop, left⟩
      cases k with
      | zero => exact left
      | succ k =>
        have all := whole q t' grants (not_not.mp accepted) (earlier 0 (Nat.succ_pos k))
        exact absurd (all (k + 1) less) stop

/-- Tables of a guest with one page, at 0x1000. -/
def onePage : Memory := fun page i =>
  if page = 0x1000 ∧ i = 0 then 0x2003#64 else if page = 0x2000 ∧ i = 0 then 0x3003#64
  else if page = 0x3000 ∧ i = 0 then 0x4003#64 else if page = 0x4000 ∧ i = 1 then 0x5003#64 else 0

theorem one_page_no_trace : AllOrNone onePage (.guest 0x1234 0x1000 0x10) (fun _ => none) .free ∧
    wp ((Request.guest 0x1234 0x1000 0x10).make default onePage) (fun _ _ => True)
      (fun _ s' => Holds default (fun _ => none) .free s') (Host.init default fun _ _ => 0) := by
  have whole : AllOrNone onePage (.guest 0x1234 0x1000 0x10) (fun _ => none) .free := by
    intro q t' _ _ first i less
    have single : (Request.guest 0x1234 0x1000 0x10).count = 1 := by decide
    obtain rfl : i = 0 := by omega
    exact first
  have holds := holds_init default fun _ _ => 0
  refine ⟨whole, ?_⟩
  rw [failed_map_no_trace_iff holds]
  exact whole

/-- The range for two pages of a new host. -/
theorem granted_two : granted (.free : Buddy memMapPoolK) 0x2000 = some (0, Buddy.carve 1 memMapPoolK) := by
  rw [granted, if_neg (by decide)]
  rfl

theorem first_mappable :
    Mappable onePage (.guest 0x1000 0x1000 0x2000) (fun _ => none) (Buddy.carve 1 memMapPoolK) 0 0 where
  present := by decide
  ready := ready_iff.mpr ⟨⟨_, _, rfl, _, _, rfl, _, _, rfl, _, _, rfl, trivial⟩, clear_empty _ _⟩
  absent := rfl
  apart j less := absurd less (Nat.not_lt_zero j)

theorem second_not_mappable (A : AddrMap) (t : Buddy memMapPoolK) :
    ¬ Mappable onePage (.guest 0x1000 0x1000 0x2000) A t 0 1 := by
  intro hm
  exact hm.present (by decide)

/-- The pages in front of the first that cannot be mapped are left. -/
theorem fails_at (holds : Holds mm A t s) (grants : granted t r.size = some (q, t')) (accepted : r.Accepted)
    {k : Nat} (less : k < r.count) (earlier : ∀ i < k, Mappable mem r A t' q i) (stop : ¬ Mappable mem r A t' q k) :
    ∃ e s', r.make mm mem s = .error e s' ∧ Holds mm (painted mem r A q k) t s' := by
  apply exists_error_of_wp
  refine wp_mono ?_ ?_ (wp_make holds grants accepted)
  · rintro map s' ⟨-, -, all⟩
    exact stop (all k less)
  · rintro e s' ⟨-, l, -, before, last, left⟩
    -- There is one first page that cannot be mapped.
    obtain first | rfl | later := Nat.lt_trichotomy k l
    · exact absurd (before k first) stop
    · exact left
    · exact absurd (earlier l later) last

/-- A page that is mapped already is in the way of every request for its range. -/
theorem fails_at_first (hh : Holds mm A t s) (hgr : granted t r.size = some (q, t')) (hacc : r.Accepted)
    (hfi : 0 < r.count) (hmap : A (place q 0) ≠ none) : ∃ e s', r.make mm mem s = .error e s' := by
  obtain ⟨e, s', hth, -⟩ := fails_at hh hgr hacc hfi (fun i less => absurd less (Nat.not_lt_zero i))
    fun hm => hmap hm.absent
  exact ⟨e, s', hth⟩

theorem fails_at_second :
    ∃ e s', makeUniqueMapGuest default onePage 0x1000 0x1000 0x2000 (Host.init default fun _ _ => 0) = .error e s' ∧
      Holds default (painted onePage (.guest 0x1000 0x1000 0x2000) (fun _ => none) 0 1) .free s' :=
  @fails_at default onePage (.guest 0x1000 0x1000 0x2000) _ _ _ _ _ (holds_init default fun _ _ => 0) granted_two
    (by decide) 1 (by decide) (fun _ less => Nat.lt_one_iff.mp less ▸ first_mappable) (second_not_mappable _ _)

/-- The page in front of one that is missing stays mapped, and the next call for the same range fails. -/
theorem first_page_stays_mapped : leafAt default (Host.init default fun _ _ => 0).mmap 0x200000 = none ∧
    ∃ e s', makeUniqueMapGuest default onePage 0x1000 0x1000 0x2000 (Host.init default fun _ _ => 0) = .error e s' ∧
      leafAt default s'.mmap 0x200000 ≠ none ∧
      ∃ e' s'', makeUniqueMapList default [(0x6000, 0x1000)] s' = .error e' s'' := by
  have holds := holds_init default fun _ _ => 0
  refine ⟨congrFun holds.maps.refines.2 _, ?_⟩
  obtain ⟨e, s', throws, left⟩ := fails_at_second
  have mapped : painted onePage (.guest 0x1000 0x1000 0x2000) (fun _ => none) 0 1 (place 0 0) ≠ none :=
    painted_ne_none Nat.one_pos (SameLeaf.refl _ _)
  refine ⟨e, s', throws, ?_, ?_⟩
  · rw [left.maps.refines.2]
    exact mapped
  · have grants : granted (.free : Buddy memMapPoolK) 0x1000 = some (0, Buddy.carve 0 memMapPoolK) := granted_page _
    exact @fails_at_first default onePage (.ranges [(0x6000, 0x1000)]) _ _ _ _ _ left grants (by decide) (by decide) mapped

end Gevisor.Verified.FailedMaps
