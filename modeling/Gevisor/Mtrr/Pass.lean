import Mathlib.Data.List.Sort
import Gevisor.Mtrr.Split

/-! # One pass over the array

`make_continuous` on the array of 256 ranges, where unused slots hold `range_t{}`. A pass that does not
throw either finds the ranges in order and apart, or makes one split.
-/

namespace Gevisor.Mtrr

open Gevisor.Lib
open Gevisor.Ept

/-! ## Machine arithmetic -/

theorem sub64_eq {a b : Nat} (le : b ≤ a) (hs : a < 2 ^ 64) : sub64 a b = a - b := by
  unfold sub64
  omega

variable {r r1 r2 : Range} {s : State} {t pre l : List Range} {sorter : Sorter}
    {R : Range → Range → Prop} {J : List Range → Prop}

theorem add64_eq (hso : Sound r) : add64 r.base r.size = fin r := Nat.mod_eq_of_lt hso.fin_lt

theorem isSubset_iff (ho : Sound r1) (hi : Sound r2) : isSubset r1 r2 = true ↔ Within r2 r1 := by
  simp only [isSubset, add64_eq ho, add64_eq hi, Bool.and_eq_true, decide_eq_true_eq, ge_iff_le, Within]

theorem isIntersecting_iff (ho : Sound r1) :
    isIntersecting r1 r2 = true ↔ r1.base < r2.base ∧ r2.base < fin r1 := by
  simp only [isIntersecting, add64_eq ho, Bool.and_eq_true, decide_eq_true_eq, gt_iff_lt]

theorem scanBound_eq {rest : List Range} {num : Nat} (hc : num = (r :: rest).length)
    (room : (r :: rest).length ≤ 255) : scanBound num = rest.length := by
  simp only [List.length_cons] at *
  unfold scanBound
  omega

/-! ## The array -/

/-- The ranges `t` stand at the front of the array. -/
structure Filled (s : State) (t : List Range) : Prop where
  num : s.num = t.length
  room : t.length ≤ 255
  ranges : s.ranges = t ++ List.replicate (256 - t.length) emptyRange

/-- The array holds the ranges `l` somewhere. -/
structure Represents (s : State) (l : List Range) : Prop where
  num : s.num = l.length
  room : l.length ≤ 255
  ranges : s.ranges.Perm (l ++ List.replicate (256 - l.length) emptyRange)

theorem Filled.represents (hfi : Filled s t) : Represents s t := ⟨hfi.num, hfi.room, hfi.ranges ▸ .refl _⟩

theorem filled_empty : Filled State.empty [] := ⟨rfl, by simp, rfl⟩

/-- What a pass can throw for lack of room. -/
def Full (e : Err) (s : State) : Prop := e = failFast ∧ s.num = 255

theorem addRange_spec (hfi : Filled s t) (hl : pageSize4k ≤ r.size) :
    wp (addRange r) (fun _ s' => Filled s' (t ++ [r])) Full s := by
  obtain ⟨num, room, hr⟩ := hfi
  have hle : s.ranges.length = 256 := by
    rw [hr, List.length_append, List.length_replicate]
    omega
  unfold addRange
  simp only [wp_bind, wp_get]
  rw [wp_ite]
  split
  · exact ⟨rfl, by omega⟩
  · rw [if_neg (by omega)]
    change Filled _ _
    refine ⟨?_, ?_, ?_⟩
    · simp only [List.length_append, List.length_singleton]
      omega
    · simp only [List.length_append, List.length_singleton]
      omega
    · have slot : 256 - t.length = (256 - (t.length + 1)) + 1 := by omega
      simp only [hr, num, List.length_append, List.length_singleton, slot, List.replicate_succ]
      rw [List.set_append_right _ _ (Nat.le_refl _), Nat.sub_self, List.set_cons_zero, List.append_assoc]
      rfl

theorem addPiece_spec (hfi : Filled s t) {type : MemoryType} {base size : Nat}
    (hl : ∀ y ∈ piece type base size, pageSize4k ≤ y.size) :
    wp (addPiece type base size) (fun _ s' => Filled s' (t ++ piece type base size)) Full s := by
  unfold addPiece piece at *
  split
  · next some =>
    rw [if_pos some] at hl
    exact addRange_spec hfi (hl _ (List.mem_singleton_self _))
  · rw [List.append_nil]
    exact hfi

theorem addRanges_spec (hfi : Filled s t) {registered : List Range} (hl : ∀ y ∈ registered, pageSize4k ≤ y.size) :
    wp (addRanges registered) (fun _ s' => Filled s' (t ++ registered)) Full s := by
  induction registered generalizing s t with
  | nil =>
    rw [List.append_nil]
    exact hfi
  | cons r registered ih =>
    simp only [List.forall_mem_cons] at hl
    simp only [addRanges, wp_bind]
    refine wp_mono ?_ (fun _ _ full => full) (addRange_spec hfi hl.1)
    intro _ s' ha
    rw [← List.singleton_append, ← List.append_assoc]
    exact ih ha hl.2

/-- `r1` leaves the array, and its pieces are stored behind the other ranges. -/
theorem splitRange_spec {post : List Range}
    (hfi : Filled s (pre ++ r1 :: r2 :: post)) (ho : Sound r1) (hi : Sound r2) (hw : Within r2 r1) :
    wp (splitRange pre.length r1 r2) (fun _ s' => Represents s' (pre ++ r2 :: post ++ pieces r1 r2)) Full s := by
  have hsi : sub64 r2.base r1.base = r2.base - r1.base :=
    sub64_eq hw.1 (Nat.lt_of_le_of_lt (Nat.le_add_right _ _) hi.fin_lt)
  have hsz : sub64 (sub64 (fin r1) r2.base) r2.size = fin r1 - fin r2 := by
    have hsm := ho.fin_lt
    simp only [Within, fin] at *
    rw [sub64_eq (by omega) hsm, sub64_eq (by omega) (by omega)]
    omega
  have hl : ∀ y ∈ pieces r1 r2, pageSize4k ≤ y.size := fun y hm =>
    (ho.piece hi hw hm).page_le_size
  simp only [pieces, List.forall_mem_append] at hl
  simp only [splitRange, add64_eq ho, add64_eq hi, hsi, hsz, wp_bind, wp_modify]
  refine wp_mono ?_ (fun _ _ full => full) (addPiece_spec hfi hl.1)
  intro _ s1 first
  refine wp_mono ?_ (fun _ _ full => full) (addPiece_spec first hl.2)
  intro _ s2 hs
  rw [List.append_assoc _ (piece _ _ _) (piece _ _ _)] at hs
  change Filled s2 (pre ++ r1 :: r2 :: post ++ pieces r1 r2) at hs
  obtain ⟨num, room, hr⟩ := hs
  have hsh : (pre ++ r1 :: r2 :: post ++ pieces r1 r2).length = (pre ++ r2 :: post ++ pieces r1 r2).length + 1 := by
    simp only [List.length_append, List.length_cons]
    omega
  generalize pieces r1 r2 = new at *
  refine ⟨?_, by omega, ?_⟩
  · simp only [num]
    omega
  · have hsl : 256 - (pre ++ r2 :: post ++ new).length = (256 - (pre ++ r1 :: r2 :: post ++ new).length) + 1 := by omega
    rw [hsl, List.replicate_succ, hr]
    generalize List.replicate _ emptyRange = unused
    rw [List.append_assoc, List.append_assoc, List.set_append_right _ _ (Nat.le_refl _), Nat.sub_self,
      List.cons_append, List.set_cons_zero]
    -- The freed slot joins the unused ones.
    have hfre : (pre ++ emptyRange :: (r2 :: post ++ (new ++ unused))).Perm
        (emptyRange :: (pre ++ (r2 :: post ++ (new ++ unused)))) := List.perm_middle
    refine hfre.trans ?_
    have back : (pre ++ r2 :: post ++ new ++ emptyRange :: unused).Perm
        (emptyRange :: (pre ++ r2 :: post ++ new ++ unused)) := List.perm_middle
    refine List.Perm.trans ?_ back.symm
    simp only [List.append_assoc]
    rfl

/-! ## Sorting -/

/-- Nothing later comes before. -/
def Sorted (l : List Range) : Prop := l.Pairwise fun a b => ¬ Before b a

theorem Sorter.sorted_sort (sorter : Sorter) (l : List Range) : Sorted (sorter.sort l) :=
  (sorter.sorted l).imp fun {a b} => (compare_eq_false b a).mp

/-- The order of `compare`, refined: of ranges that compare equal, those of one type come last. -/
def BeforeLast (type : MemoryType) (a b : Range) : Prop :=
  Before a b ∨ Same a b ∧ (a.type = type → b.type = type)

instance (type : MemoryType) (a b : Range) : Decidable (BeforeLast type a b) :=
  inferInstanceAs (Decidable (_ ∨ _))

instance (type : MemoryType) : Std.Total (BeforeLast type) where
  total a b := by
    have order : Before a b ∨ Before b a ∨ Same a b := by
      simp only [Before, Same]
      omega
    rcases order with before | after | same
    · exact .inl (.inl before)
    · exact .inr (.inl after)
    · by_cases last : b.type = type
      · exact .inl (.inr ⟨same, fun _ => last⟩)
      · exact .inr (.inr ⟨same.symm, fun other => absurd other last⟩)

instance (type : MemoryType) : IsTrans Range (BeforeLast type) where
  trans a b c first second := by
    rcases first with before | ⟨same, last⟩
    · left
      rcases second with before' | ⟨same, _⟩
      all_goals simp only [Before, Same] at *; omega
    · rcases second with before | ⟨same', last'⟩
      · left
        simp only [Before, Same] at *
        omega
      · exact .inr ⟨same.trans same', last' ∘ last⟩

/-- A sort that leaves the ranges of one type behind those they tie with. -/
def Sorter.last (type : MemoryType) : Sorter where
  sort := List.insertionSort (BeforeLast type)
  perm := List.perm_insertionSort (BeforeLast type)
  sorted l := by
    apply (List.pairwise_insertionSort (BeforeLast type) l).imp
    intro a b order
    rw [compare_eq_false]
    rcases order with before | ⟨same, _⟩
    all_goals simp only [Before, Same] at *; omega

theorem Sound.before_empty (hso : Sound r) : Before r emptyRange := by
  have hs := hso.base_le
  simp only [Before, emptyRange, invalid, limit] at *
  omega

theorem Sound.ne_empty (hso : Sound r) : r ≠ emptyRange := by
  intro hem
  have hbe := hso.before_empty
  rw [hem] at hbe
  simp only [Before] at hbe
  omega

/-- In a sorted array the unused slots come last. -/
theorem Sorted.eq_append_replicate {a : List Range} (hs : Sorted a) (hso : ∀ y ∈ a, y ≠ emptyRange → Sound y) :
    a = a.filter (· ≠ emptyRange) ++ List.replicate (a.count emptyRange) emptyRange := by
  induction a with
  | nil => rfl
  | cons r a ih =>
    obtain ⟨first, rest⟩ := List.pairwise_cons.mp hs
    have hla := ih rest fun y hm => hso y (List.mem_cons_of_mem r hm)
    by_cases hem : r = emptyRange
    · have hu : a.filter (· ≠ emptyRange) = [] := by
        rw [List.filter_eq_nil_iff]
        intro y hm
        by_contra used
        have used : y ≠ emptyRange := by simpa using used
        exact first y hm (hem ▸ (hso y (List.mem_cons_of_mem r hm) used).before_empty)
      rw [hu, List.nil_append] at hla
      subst hem
      rw [List.filter_cons_of_neg (by simp), hu, List.nil_append, List.count_cons_self, List.replicate_succ, ← hla]
    · rw [List.count_cons_of_ne hem, List.filter_cons_of_pos (by simpa using hem), List.cons_append, ← hla]

theorem sort_eq (represents : Represents s l) (hso : ∀ y ∈ l, Sound y) (sorter : Sorter) :
    ∃ t, sorter.sort s.ranges = t ++ List.replicate (256 - l.length) emptyRange ∧ t.Perm l ∧ Sorted t := by
  have perm := (sorter.perm s.ranges).trans represents.ranges
  have used : ∀ y ∈ l, y ≠ emptyRange := fun y hm => (hso y hm).ne_empty
  have sorted := sorter.sorted_sort s.ranges
  have shape := sorted.eq_append_replicate fun y hm used => by
    rcases List.mem_append.mp (perm.mem_iff.mp hm) with old | unused
    · exact hso y old
    · exact absurd (List.eq_of_mem_replicate unused) used
  have count : (sorter.sort s.ranges).count emptyRange = 256 - l.length := by
    rw [perm.count_eq, List.count_append, List.count_replicate_self,
      List.count_eq_zero_of_not_mem fun hm => used _ hm rfl, Nat.zero_add]
  have filtered : ((sorter.sort s.ranges).filter (· ≠ emptyRange)).Perm l := by
    refine (perm.filter _).trans ?_
    rw [List.filter_append, List.filter_replicate_of_neg (by simp), List.append_nil,
      List.filter_eq_self.mpr (by simpa using used)]
  refine ⟨_, count ▸ shape, filtered, ?_⟩
  exact sorted.sublist List.filter_sublist

/-! ## The pass -/

/-- What a pass throws: there is no room for a piece, or two ranges cross. -/
def Fails (t : List Range) (e : Err) (s : State) : Prop :=
  Full e s ∨ e = notExclusive ∧ ∃ a ∈ t, ∃ b ∈ t, Crosses a b

/-- A pass over the sorted ranges `t` changes nothing or makes a split. -/
def Passes (t : List Range) (s : State) (done : Bool) (s' : State) : Prop :=
  if done then s' = s ∧ t.Pairwise Left
  else ∃ l' pre r1 r2 post, Represents s' l' ∧ t = pre ++ r1 :: r2 :: post ∧ Split t l' pre r1 r2 post

theorem pairwise_left_concat (hap : (pre ++ [r]).Pairwise Left)
    (next : Left r r2) : (pre ++ [r] ++ [r2]).Pairwise Left := by
  rw [List.pairwise_append]
  refine ⟨hap, List.pairwise_singleton _ _, ?_⟩
  intro y hea z hs
  obtain rfl := List.mem_singleton.mp hs
  rcases List.mem_append.mp hea with hea | same
  · have left := (List.pairwise_append.mp hap).2.2 y hea r (List.mem_singleton_self r)
    simp only [Left, fin] at *
    omega
  · exact List.mem_singleton.mp same ▸ next

/-- The ranges `pre` and `r` have been looked at. -/
theorem scan_spec {s : State} {t pre rest : List Range} {r : Range} (hfi : Filled s t)
    (hs : t = pre ++ r :: rest) (hsr : Sorted t) (hso : ∀ y ∈ t, Sound y)
    (hap : (pre ++ [r]).Pairwise Left) :
    wp (scan rest.length pre.length) (Passes t s) (Fails t) s := by
  induction rest generalizing pre r with
  | nil => exact ⟨rfl, hs ▸ hap⟩
  | cons r2 rest ih =>
    have hm : r ∈ t := by simp [hs]
    have hm2 : r2 ∈ t := by simp [hs]
    have at1 : s.ranges[pre.length]? = some r := by
      rw [hfi.ranges, hs]
      simp
    have at2 : s.ranges[pre.length + 1]? = some r2 := by
      rw [hfi.ranges, hs]
      simp
    have ho : ¬ Before r2 r := by
      have tail := (hs ▸ hsr).sublist (List.sublist_append_right pre _)
      exact (List.pairwise_cons.mp tail).1 r2 (by simp)
    have left : ∀ y ∈ pre, Left y r := fun y hea =>
      (List.pairwise_append.mp hap).2.2 y hea r (List.mem_singleton_self r)
    simp only [List.length_cons, scan, wp_bind, wp_get, at1, at2]
    rw [wp_ite]
    split
    · next hsu =>
      have hw := (isSubset_iff (hso r hm) (hso r2 hm2)).mp hsu
      have right : ∀ y ∈ rest, ¬ Before y r2 := by
        have tail := (hs ▸ hsr).sublist (List.sublist_append_right pre _)
        exact (List.pairwise_cons.mp (List.pairwise_cons.mp tail).2).1
      rw [wp_bind]
      refine wp_mono ?_ (fun _ _ full => .inl full) (splitRange_spec (hs ▸ hfi) (hso r hm) (hso r2 hm2) hw)
      intro _ s' hr
      exact ⟨_, pre, r, r2, rest, hr, hs, hs ▸ .refl _, .refl _, hw, left, right⟩
    · next hno =>
      rw [isSubset_iff (hso r hm) (hso r2 hm2)] at hno
      rw [wp_ite]
      split
      · next hi =>
        have hme := (isIntersecting_iff (hso r hm)).mp hi
        refine .inr ⟨rfl, r, hm, r2, hm2, ?_⟩
        simp only [Crosses, Within] at *
        omega
      · next hn =>
        rw [isIntersecting_iff (hso r hm)] at hn
        have next : Left r r2 := by
          simp only [Left, Within, Before, fin] at *
          omega
        have hl : pre.length + 1 < 2 ^ 8 := by
          have room := hfi.room
          rw [hs] at room
          simp only [List.length_append, List.length_cons] at room
          omega
        rw [Nat.mod_eq_of_lt hl]
        have hla := @ih (pre ++ [r]) r2 (by simp [hs]) (pairwise_left_concat hap next)
        rwa [List.length_append, List.length_singleton] at hla

theorem makeContinuous_eq (sorter : Sorter) (s : State) :
    makeContinuous sorter s = scan (scanBound s.num) 0 { s with ranges := sorter.sort s.ranges } :=
  modify_get_bind _ _ s

theorem wp_makeContinuous {Q : Bool → State → Prop} {X : Err → State → Prop} :
    wp (makeContinuous sorter) Q X s ↔ wp (scan (scanBound s.num) 0) Q X { s with ranges := sorter.sort s.ranges } := by
  rw [wp, makeContinuous_eq, wp]

/-- One call of `make_continuous`. The sorter's own order, if it has one, relates the two ranges of the
split as well. -/
theorem makeContinuous_spec (hr : Represents s l) (hne : l ≠ []) (hso : ∀ y ∈ l, Sound y)
    (ho : ∀ a, (sorter.sort a).Pairwise R) :
    wp (makeContinuous sorter) (fun done s' =>
        if done then ∃ t, Filled s' t ∧ t.Perm l ∧ t.Pairwise Left
        else ∃ l' pre r1 r2 post, Represents s' l' ∧ Split l l' pre r1 r2 post ∧ R r1 r2)
      (Fails l) s := by
  obtain ⟨t, sort, perm, hsr⟩ := sort_eq hr hso sorter
  have hl := perm.length_eq
  have hfi : Filled { s with ranges := sorter.sort s.ranges } t := ⟨hr.num.trans hl.symm, hl ▸ hr.room, hl ▸ sort⟩
  have hrel : t.Pairwise R := by
    have all := ho s.ranges
    rw [sort] at all
    exact (List.pairwise_append.mp all).1
  cases t with
  | nil => exact absurd perm.symm.eq_nil hne
  | cons r rest =>
    have hbo := scanBound_eq hfi.num hfi.room
    rw [wp_makeContinuous, hbo]
    refine wp_mono ?_ ?_ (@scan_spec _ _ [] rest r hfi rfl hsr
      (fun y hm => hso y (perm.mem_iff.mp hm)) (List.pairwise_singleton _ _))
    · intro done s' hp
      cases done with
      | true => exact ⟨_, hp.1 ▸ hfi, perm, hp.2⟩
      | false =>
        obtain ⟨l', pre, r1, r2, post, hr', hs, split⟩ := hp
        rw [hs] at hrel
        have pair := hrel.sublist (List.sublist_append_right pre _)
        refine ⟨l', pre, r1, r2, post, hr', ?_, (List.pairwise_cons.mp pair).1 r2 (by simp)⟩
        exact { split with before := perm.symm.trans split.before }
    · intro e s' hf
      refine hf.imp id ?_
      rintro ⟨htn, a, hme, b, hmm, hc⟩
      exact ⟨htn, a, perm.mem_iff.mp hme, b, perm.mem_iff.mp hmm, hc⟩

/-! ## The loop -/

/-- The total size of the ranges. -/
def total (l : List Range) : Nat := (l.map Range.size).sum

theorem total_perm {l' : List Range} (same : l.Perm l') : total l = total l' := (same.map Range.size).sum_eq

/-- The total size of the ranges in an array. -/
def State.total (s : State) : Nat := Mtrr.total (s.ranges.filter (· ≠ emptyRange))

theorem Represents.total_eq (hr : Represents s l) (hso : ∀ y ∈ l, Sound y) : s.total = Mtrr.total l := by
  have used : ∀ y ∈ l, y ≠ emptyRange := fun y hm => (hso y hm).ne_empty
  have perm := hr.ranges.filter (· ≠ emptyRange)
  rw [List.filter_append, List.filter_replicate_of_neg (by simp), List.append_nil,
    @List.filter_eq_self _ _ l |>.mpr (by simpa using used)] at perm
  exact total_perm perm

/-- A property of the ranges that every split preserves, where `R` is what the sorter says of the two
ranges of a split. -/
structure Stable (R : Range → Range → Prop) (J : List Range → Prop) : Prop where
  perm : ∀ {l l'}, l.Perm l' → J l → J l'
  nonempty : ∀ {l}, J l → l ≠ []
  sound : ∀ {l}, J l → ∀ y ∈ l, Sound y
  split : ∀ {l l' pre r1 r2 post}, J l → Split l l' pre r1 r2 post → R r1 r2 → J l'

theorem Stable.and {J' : List Range → Prop} (hs : Stable R J) (hs' : Stable R J') :
    Stable R fun l => J l ∧ J' l where
  perm same hh := ⟨hs.perm same hh.1, hs'.perm same hh.2⟩
  nonempty hh := hs.nonempty hh.1
  sound hh := hs.sound hh.1
  split hh split hr := ⟨hs.split hh.1 split hr, hs'.split hh.2 split hr⟩

/-- The total size does not grow. -/
theorem Stable.bounded (hs : Stable R J) (n : Nat) : Stable R fun l => J l ∧ total l ≤ n where
  perm same hh := ⟨hs.perm same hh.1, total_perm same ▸ hh.2⟩
  nonempty hh := hs.nonempty hh.1
  sound hh := hs.sound hh.1
  split hh split hr := by
    refine ⟨hs.split hh.1 split hr, ?_⟩
    have hsm := split.total_size
    have hbe := hh.2
    simp only [total] at *
    omega

/-- The rule for the loops of the constructor: when the loop ends, a stable property holds, and the ranges
are in order and apart. -/
theorem wp_makeContinuous_loop (hs : Stable R J) (ho : ∀ a, (sorter.sort a).Pairwise R)
    (hr : Represents s l) (init : J l) (fuel : Nat) :
    wp (repeatUntil (makeContinuous sorter) fuel) (fun _ s' => ∃ t, Filled s' t ∧ J t ∧ t.Pairwise Left)
      (Thrown (fuel ≤ total l) fun e s' => ∃ t, J t ∧ Fails t e s') s := by
  have body : ∀ s, (∃ l, Represents s l ∧ J l) → wp (makeContinuous sorter)
      (fun done s' => if done then ∃ t, Filled s' t ∧ J t ∧ t.Pairwise Left
        else (∃ l, Represents s' l ∧ J l) ∧ s'.total < s.total)
      (fun e s' => ∃ t, J t ∧ Fails t e s') s := by
    rintro s ⟨l, hr, hh⟩
    have hso := hs.sound hh
    refine wp_mono ?_ (fun e s' hf => ⟨l, hh, hf⟩) (makeContinuous_spec hr (hs.nonempty hh) hso ho)
    intro done s' hp
    cases done with
    | true =>
      obtain ⟨t, hfi, same, hap⟩ := hp
      exact ⟨t, hfi, hs.perm same.symm hh, hap⟩
    | false =>
      obtain ⟨l', pre, r1, r2, post, hr', split, hrel⟩ := hp
      have next := hs.split hh split hrel
      refine ⟨⟨l', hr', next⟩, ?_⟩
      -- The removed range was larger than its pieces by the range inside it.
      have hsm := split.total_size
      have hi := (hso r2 split.second_mem).nonempty
      rw [hr.total_eq hso, hr'.total_eq (hs.sound next)]
      simp only [total]
      omega
  have ends := wp_repeatUntil State.total body ⟨l, hr, init⟩ fuel
  rwa [hr.total_eq (hs.sound init)] at ends

end Gevisor.Mtrr
