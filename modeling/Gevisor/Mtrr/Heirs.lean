import Gevisor.Mtrr.Flatten

/-! # Where the pieces come from

The registered ranges are a family `F` of nested or disjoint ranges. While a loop runs, every range is a
registered one or a piece of one. A piece to the left of the range it was cut at meets no other range any
more. A piece to the right may be cut again, and may come to coincide with a registered range; which of
the two then goes is up to the sort.
-/

namespace Gevisor.Mtrr

open Gevisor.Ept

/-! ## Ranges that contain an address -/

variable {x : Nat} {A D : Range}

/-- The ranges that contain an address. -/
def containing (x : Nat) (l : List Range) : List Range := l.filter fun y => Mem x y

variable {l l' F : List Range} {type : MemoryType} {r1 r2 : Range}

theorem mem_containing {y : Range} : y ∈ containing x l ↔ y ∈ l ∧ Mem x y := by
  simp [containing]

theorem containing_perm (same : l.Perm l') (x : Nat) : (containing x l).Perm (containing x l') := same.filter _

/-- No other range has an address of `r`. -/
def Lone (r : Range) (l : List Range) : Prop := ∀ x, Mem x r → containing x l = [r]

theorem Lone.perm {r : Range} (lone : Lone r l) (same : l.Perm l') : Lone r l' := by
  intro x hi
  have both := containing_perm same x
  rw [lone x hi] at both
  exact both.symm.eq_singleton

/-- One range has the address, and it has this type. -/
def Settled (x : Nat) (type : MemoryType) (l : List Range) : Prop := ∃ r, containing x l = [r] ∧ r.type = type

theorem Settled.perm (hs : Settled x type l) (same : l.Perm l') : Settled x type l' := by
  obtain ⟨r, only, ht⟩ := hs
  have both := containing_perm same x
  rw [only] at both
  exact ⟨r, both.symm.eq_singleton, ht⟩

theorem containing_piece (x : Nat) (type : MemoryType) (base size : Nat) :
    containing x (piece type base size) = if Mem x ⟨type, base, size⟩ then [⟨type, base, size⟩] else [] := by
  by_cases hem : size = 0
  · subst hem
    have hout : ¬ Mem x ⟨type, base, 0⟩ := by
      simp only [Mem, fin]
      omega
    simp [containing, piece, hout]
  · simp only [containing, piece, ne_eq, hem, not_false_eq_true, if_true, List.filter_cons, List.filter_nil,
      decide_eq_true_eq]

/-- An address of `r1` outside `r2` is in one piece. -/
theorem containing_pieces (hw : Within r2 r1) (hi : Mem x r1)
    (hout : ¬ Mem x r2) : ∃ p, containing x (pieces r1 r2) = [p] ∧ p.type = r1.type := by
  have split : containing x (pieces r1 r2) = containing x (piece r1.type r1.base (r2.base - r1.base)) ++
      containing x (piece r1.type (fin r2) (fin r1 - fin r2)) := List.filter_append ..
  rw [split, containing_piece, containing_piece]
  by_cases left : x < r2.base
  · rw [if_pos (by simp only [Mem, Within, fin] at *; omega), if_neg (by simp only [Mem, Within, fin] at *; omega)]
    exact ⟨_, rfl, rfl⟩
  · rw [if_neg (by simp only [Mem, Within, fin] at *; omega), if_pos (by simp only [Mem, Within, fin] at *; omega)]
    exact ⟨_, rfl, rfl⟩

namespace Split

variable {l l' pre post : List Range} {r1 r2 : Range}

section

variable (split : Split l l' pre r1 r2 post)

include split

theorem containing_before (x : Nat) :
    (containing x l).Perm (containing x [r1] ++ containing x (pre ++ r2 :: post)) := by
  have hf : (pre ++ r1 :: r2 :: post).Perm ([r1] ++ (pre ++ r2 :: post)) := List.perm_middle
  have both := containing_perm (split.before.trans hf) x
  rwa [containing, containing, List.filter_append] at both

theorem containing_after (x : Nat) :
    (containing x l').Perm (containing x (pieces r1 r2) ++ containing x (pre ++ r2 :: post)) := by
  have both := containing_perm (split.after.trans List.perm_append_comm) x
  rwa [containing, containing, List.filter_append] at both

variable {r : Range}

/-- Away from `r1` nothing changes. -/
theorem containing_outside (hout : ¬ Mem x r1) : (containing x l').Perm (containing x l) := by
  have first : containing x [r1] = [] := by simp [containing, hout]
  have none : containing x (pieces r1 r2) = [] := by
    simp only [containing, List.filter_eq_nil_iff, decide_eq_true_eq]
    exact fun p hm hi => hout ((mem_some_piece split.within x).mp ⟨p, hm, hi⟩).1
  have hbe := split.containing_before x
  have ha := split.containing_after x
  rw [first, List.nil_append] at hbe
  rw [none, List.nil_append] at ha
  exact ha.trans hbe.symm

/-- If `r1` alone has the address, one of its pieces alone has it afterwards. -/
theorem containing_inside (hi : Mem x r1) (only : containing x l = [r]) :
    r = r1 ∧ containing x (pre ++ r2 :: post) = [] ∧ ∃ p, containing x l' = [p] ∧ p.type = r1.type := by
  have first : containing x [r1] = [r1] := by simp [containing, hi]
  have hbe := split.containing_before x
  rw [only, first] at hbe
  have hl := hbe.length_eq
  simp only [List.length_append, List.length_singleton] at hl
  have rest : containing x (pre ++ r2 :: post) = [] := List.eq_nil_of_length_eq_zero (by omega)
  rw [rest, List.append_nil] at hbe
  have hout : ¬ Mem x r2 := fun hs => by
    have hm : r2 ∈ containing x (pre ++ r2 :: post) := mem_containing.mpr ⟨by simp, hs⟩
    rw [rest] at hm
    cases hm
  obtain ⟨p, hal, ht⟩ := containing_pieces split.within hi hout
  have ha := split.containing_after x
  rw [rest, List.append_nil, hal] at ha
  exact ⟨by simpa using hbe, rest, p, ha.eq_singleton, ht⟩

theorem settled {type : MemoryType} (settled : Settled x type l) : Settled x type l' := by
  obtain ⟨r, only, ht⟩ := settled
  by_cases hi : Mem x r1
  · obtain ⟨rfl, _, p, ha, same⟩ := split.containing_inside hi only
    exact ⟨p, ha, same.trans ht⟩
  · have same := split.containing_outside hi
    rw [only] at same
    exact ⟨r, same.eq_singleton, ht⟩

theorem lone (hpos : 0 < r2.size) (lone : Lone r l) (hm : r ∈ l') : Lone r l' := by
  intro x hi
  by_cases first : Mem x r1
  · -- `r` would be `r1`, which is gone.
    obtain ⟨rfl, rest, _⟩ := split.containing_inside first (lone x hi)
    exfalso
    rcases split.rest_or_piece hm with other | piece
    · have stays : r ∈ containing x (pre ++ r2 :: post) := mem_containing.mpr ⟨by simpa using other, hi⟩
      rw [rest] at stays
      cases stays
    · have hw := split.within
      obtain ⟨_, _, shape⟩ := (mem_pieces hw).mp piece
      simp only [Within, fin] at *
      omega
  · have same := split.containing_outside first
    rw [lone x hi] at same
    exact same.eq_singleton

end

end Split

/-! ## Registered ranges and pieces -/

/-- The ranges `l` of a loop that started with the family `F`. -/
structure Tracks (F l : List Range) : Prop where
  usable : Usable l
  laminar : Laminar l
  across : ∀ X ∈ l, ∀ Z ∈ F, Nested X Z
  present : ∀ X ∈ l, ∀ Z ∈ F, StrictlyIn Z X → Z ∈ l
  inner : ∀ Y ∈ l, ∀ X ∈ l, StrictlyIn Y X → Y ∈ F

theorem Tracks.refl (hu : Usable F) (hl : Laminar F) : Tracks F F where
  usable := hu
  laminar := hl
  across := hl
  present _ _ _ hm _ := hm
  inner _ hm _ _ _ := hm

theorem Tracks.perm (htr : Tracks F l) (same : l.Perm l') : Tracks F l' where
  usable := htr.usable.perm same
  laminar := htr.laminar.perm same
  across X hm := htr.across X (same.mem_iff.mpr hm)
  present X hm Z hr hi := same.mem_iff.mp (htr.present X (same.mem_iff.mpr hm) Z hr hi)
  inner Y hmm X hme := htr.inner Y (same.mem_iff.mpr hmm) X (same.mem_iff.mpr hme)

namespace Tracks

variable {F l l' pre post : List Range} {r1 r2 : Range}

theorem piece_inside_first (htr : Tracks F l) (split : Split l l' pre r1 r2 post) {p : Range}
    (hm : p ∈ pieces r1 r2) : StrictlyIn p r1 := by
  have hpos := htr.usable.positive r2 split.second_mem
  have hw := split.within
  obtain ⟨_, _, hs⟩ := (mem_pieces hw).mp hm
  simp only [StrictlyIn, Within, fin] at *
  omega

/-- Where a registered range inside `r1` lies: it is still there, and none comes before `r2`. -/
theorem place_registered (htr : Tracks F l) (split : Split l l' pre r1 r2 post) {Z : Range} (hm : Z ∈ F)
    (hi : StrictlyIn Z r1) : Z ∈ l' ∧ (Within Z r2 ∨ Left r2 Z) := by
  have hpos := htr.usable.positive
  have hp := htr.present r1 split.first_mem Z hm hi
  have ho : Z ≠ r1 := fun same => hi.2 (same ▸ Within.refl _)
  refine ⟨split.mem_after_of_ne hp ho, ?_⟩
  have rest : Z ∈ pre ∨ Z = r2 ∨ Z ∈ post := by
    have hk := (split.mem_before Z).mp hp
    tauto
  have hpl := split.place hpos htr.laminar rest
  have hne := hpos Z hp
  simp only [StrictlyIn, Within, Left, fin] at *
  omega

theorem split (htr : Tracks F l) (split : Split l l' pre r1 r2 post) : Tracks F l' where
  usable := htr.usable.split split
  laminar := split.nested_after htr.usable.positive htr.laminar
  across X member Z registered := by
    rcases split.mem_cases member with old | piece
    · exact htr.across X old Z registered
    · by_cases hi : StrictlyIn Z r1
      · exact split.piece_nested htr.usable.positive htr.laminar piece (htr.place_registered split registered hi).1
      · -- `Z` contains `r1` or does not meet it.
        have first := htr.across r1 split.first_mem Z registered
        have smaller := htr.piece_inside_first split piece
        simp only [Nested, StrictlyIn, Within, Left] at *
        omega
  present X member Z registered hi := by
    rcases split.mem_cases member with old | piece
    · have hp := htr.present X old Z registered hi
      have hpos := htr.usable.positive r1 split.first_mem
      exact split.mem_after_of_ne hp fun same => split.maximal hpos old (same ▸ hi)
    · have smaller := htr.piece_inside_first split piece
      have hi' : StrictlyIn Z r1 := by
        simp only [StrictlyIn, Within] at *
        omega
      exact (htr.place_registered split registered hi').1
  inner Y memberY X memberX hi := by
    have hpos := htr.usable.positive
    rcases split.rest_or_piece memberY with restY | pieceY
    · have oldY := split.mem_of_rest restY
      rcases split.mem_cases memberX with oldX | pieceX
      · exact htr.inner Y oldY X oldX hi
      · have smaller := htr.piece_inside_first split pieceX
        refine htr.inner Y oldY r1 split.first_mem ?_
        simp only [StrictlyIn, Within] at *
        omega
    · -- A piece is not inside any range.
      exfalso
      have hw := split.within
      have second := hpos r2 split.second_mem
      obtain ⟨_, hne, shape⟩ := (mem_pieces hw).mp pieceY
      rcases split.rest_or_piece memberX with restX | pieceX
      · have place := split.place hpos htr.laminar restX
        simp only [StrictlyIn, Within, Left, fin] at *
        omega
      · obtain ⟨_, hne', shape'⟩ := (mem_pieces hw).mp pieceX
        simp only [StrictlyIn, Within, fin] at *
        omega

end Tracks

/-! ## Innermost ranges -/

/-- `D` is the smallest registered range with the address `x`. -/
structure Innermost (F : List Range) (x : Nat) (D : Range) : Prop where
  registered : D ∈ F
  mem : Mem x D
  least : ∀ Z ∈ F, Mem x Z → Within D Z

/-- When a range with the addresses of `D` is cut, no other range has the address `x` any more. -/
theorem Tracks.containing_eq {pre post : List Range} (htr : Tracks F l)
    (split : Split l l' pre r1 r2 post) (hinn : Innermost F x D) (same : Same r1 D)
    (hpp : StrictlyIn r2 r1) : containing x l = [r1] := by
  have hpos := htr.usable.positive
  have hi : Mem x r1 := by
    have mem := hinn.mem
    simp only [Mem, Same, fin] at *
    omega
  have none : containing x (pre ++ r2 :: post) = [] := by
    simp only [containing, List.filter_eq_nil_iff, decide_eq_true_eq]
    intro y hm also
    have rest : y ∈ pre ∨ y = r2 ∨ y ∈ post := by simpa using hm
    have old := split.mem_of_rest rest
    have hp := split.place hpos htr.laminar rest
    -- `y` is properly inside `r1`, so it is registered and contains `D`.
    have hse := hpos r2 split.second_mem
    have hs : StrictlyIn y r1 := by
      simp only [StrictlyIn, Within, Left, Mem, fin] at *
      omega
    have ha := hinn.least y (htr.inner y old r1 split.first_mem hs) also
    simp only [StrictlyIn, Within, Same, fin] at *
    omega
  have hbe := split.containing_before x
  have first : containing x [r1] = [r1] := by simp [containing, hi]
  rw [none, first, List.append_nil] at hbe
  exact hbe.eq_singleton

/-! ## Heirs -/

/-- What is left of a registered range `A` to the right of all cuts so far is `X`. A registered range
between the two would have taken its place, unless it begins where another one ends. -/
structure HeirOf (F : List Range) (A X : Range) : Prop where
  registered : A ∈ F
  within : Within X A
  ends : fin X = fin A
  begins : ∀ Z ∈ F, Within X Z → StrictlyIn Z A → ∃ C ∈ F, fin C = Z.base

/-- Every range is what is left of a registered one, or meets no other. -/
def Heirs (F l : List Range) : Prop := ∀ X ∈ l, (∃ A, HeirOf F A X ∧ X.type = A.type) ∨ Lone X l

theorem HeirOf.refl {A : Range} (hreg : A ∈ F) : HeirOf F A A where
  registered := hreg
  within := Within.refl A
  ends := rfl
  begins _ _ ho hi := absurd ho hi.2

theorem Heirs.refl (F : List Range) : Heirs F F := fun A hreg => .inl ⟨A, .refl hreg, rfl⟩

theorem Heirs.perm (hh : Heirs F l) (same : l.Perm l') : Heirs F l' := fun X hm =>
  (hh X (same.mem_iff.mpr hm)).imp id fun lone => lone.perm same

namespace Tracks

variable {F l l' pre post : List Range} {r1 r2 : Range}

/-- A range that is cut is not alone. -/
theorem not_lone_first (htr : Tracks F l) (split : Split l l' pre r1 r2 post) : ¬ Lone r1 l := by
  intro lone
  have hpos := htr.usable.positive r2 split.second_mem
  have hw := split.within
  have hi : Mem r2.base r1 := by
    simp only [Mem, Within, fin] at *
    omega
  have hbe := split.containing_before r2.base
  have hm : r2 ∈ containing r2.base (pre ++ r2 :: post) := by
    refine mem_containing.mpr ⟨by simp, ?_⟩
    simp only [Mem, fin]
    omega
  have hl := hbe.length_eq
  rw [lone r2.base hi] at hl
  have first : containing r2.base [r1] = [r1] := by simp [containing, hi]
  have some := List.length_pos_of_mem hm
  rw [first, List.length_append, List.length_singleton] at hl
  omega

/-- The right piece of what is left of `A` is what is left of `A`. -/
theorem heirOf_piece (htr : Tracks F l) (split : Split l l' pre r1 r2 post) {A p : Range}
    (heir : HeirOf F A r1) (hp : p ∈ pieces r1 r2) (right : p.base = fin r2 ∧ fin p = fin r1) :
    HeirOf F A p where
  registered := heir.registered
  within := by
    have ho := heir.within
    have hsm := (htr.piece_inside_first split hp).1
    simp only [Within] at *
    omega
  ends := right.2.trans heir.ends
  begins Z hr ho hi := by
    have hne := ((mem_pieces split.within).mp hp).2.1
    by_cases ha : Within r1 Z
    · exact heir.begins Z hr ha hi
    · -- `Z` lies between the piece and `r1`, and so begins where `r2` ends.
      have hw := split.within
      have hs := htr.usable.positive r2 split.second_mem
      have hn := htr.across r1 split.first_mem Z hr
      have hb : StrictlyIn Z r1 := by
        simp only [Nested, StrictlyIn, Within, Left, fin] at *
        omega
      have cut : StrictlyIn r2 r1 := by
        simp only [StrictlyIn, Within, fin] at *
        omega
      refine ⟨r2, htr.inner r2 split.second_mem r1 split.first_mem cut, ?_⟩
      have hpl := (htr.place_registered split hr hb).2
      simp only [StrictlyIn, Within, Left, fin] at *
      omega

/-- The left piece meets no other range. -/
theorem lone_piece (htr : Tracks F l) (split : Split l l' pre r1 r2 post) {p : Range}
    (hp : p ∈ pieces r1 r2) (left : p.base = r1.base ∧ fin p = r2.base) : Lone p l' := by
  intro x hi
  have none : containing x (pre ++ r2 :: post) = [] := by
    simp only [containing, List.filter_eq_nil_iff, decide_eq_true_eq]
    intro y hm also
    have rest : y ∈ pre ∨ y = r2 ∨ y ∈ post := by simpa using hm
    have hpl := split.place htr.usable.positive htr.laminar rest
    have hw := split.within
    simp only [Within, Left, Mem, fin] at *
    omega
  have hout : ¬ Mem x r2 := by
    simp only [Mem, fin] at *
    omega
  have first := (mem_some_piece split.within x).mp ⟨p, hp, hi⟩
  obtain ⟨q, hal, _⟩ := containing_pieces split.within first.1 hout
  have same : p ∈ containing x (pieces r1 r2) := mem_containing.mpr ⟨hp, hi⟩
  rw [hal, List.mem_singleton] at same
  have ha := split.containing_after x
  rw [none, List.append_nil, hal, ← same] at ha
  exact ha.eq_singleton

theorem heirs_split (htr : Tracks F l) (heirs : Heirs F l) (split : Split l l' pre r1 r2 post) : Heirs F l' := by
  intro X hm
  rcases split.mem_cases hm with old | piece
  · exact (heirs X old).imp id fun lone =>
      split.lone (htr.usable.positive r2 split.second_mem) lone hm
  · obtain ⟨typed, _, left | right⟩ := (mem_pieces split.within).mp piece
    · exact .inr (htr.lone_piece split piece left)
    · rcases heirs r1 split.first_mem with ⟨A, heir, same⟩ | lone
      · exact .inl ⟨A, htr.heirOf_piece split heir piece right, typed.trans same⟩
      · exact absurd lone (htr.not_lone_first split)

end Tracks

/-! ## When the sort does not matter -/

/-- What is left of `A` can come to coincide with `D`: `D` lies at the end of `A`, and each registered
range between the two begins where some registered range ends. -/
structure Usurps (F : List Range) (A D : Range) : Prop where
  outer : A ∈ F
  inside : StrictlyIn D A
  ends : fin D = fin A
  begins : ∀ Z ∈ F, Within D Z → StrictlyIn Z A → ∃ C ∈ F, fin C = Z.base

/-- Ranges that can come to coincide have the same type, or the inner one has no address of its own. -/
def Unambiguous (F : List Range) : Prop :=
  ∀ A D, Usurps F A D → ∀ x, Innermost F x D → A.type = D.type

/-- The type of the innermost range of `x` is not lost: all ranges with the addresses of `D` have its type,
or `x` is settled. -/
def Keeps (x : Nat) (D : Range) (l : List Range) : Prop :=
  (∃ Y ∈ l, Same Y D) ∧ (∀ Y ∈ l, Same Y D → Y.type = D.type) ∨ Settled x D.type l

theorem Keeps.perm (hkp : Keeps x D l) (same : l.Perm l') : Keeps x D l' := by
  rcases hkp with ⟨⟨Y, hm, addresses⟩, typed⟩ | settled
  · exact .inl ⟨⟨Y, same.mem_iff.mp hm, addresses⟩, fun Y hm => typed Y (same.mem_iff.mpr hm)⟩
  · exact .inr (settled.perm same)

/-- Ranges with distinct addresses. -/
def Distinct (F : List Range) : Prop := F.Pairwise fun a b => ¬ Same a b

theorem Distinct.eq_of_same (hdi : Distinct F) {a b : Range} (hm : a ∈ F) (hme : b ∈ F) (same : Same a b) :
    a = b := by
  by_contra hd
  have symm : Std.Symm fun a b => ¬ Same a b := ⟨fun _ _ hap ho => hap ho.symm⟩
  exact hdi.forall hm hme hd same

theorem Keeps.refl (hd : Distinct F) (hinn : Innermost F x D) : Keeps x D F := by
  refine .inl ⟨⟨D, hinn.registered, rfl, rfl⟩, ?_⟩
  intro Y hm same
  rw [hd.eq_of_same hm hinn.registered same]

namespace Tracks

variable {F l l' pre post : List Range} {r1 r2 : Range}

/-- A piece with the addresses of a range that is still there is a right piece. -/
theorem right_of_same (htr : Tracks F l) (split : Split l l' pre r1 r2 post) {Y p : Range}
    (hp : p ∈ pieces r1 r2) (hm : Y ∈ l) (ho : Y ≠ r1) (hsm : Same Y D) (hsa : Same p D) :
    p.base = fin r2 ∧ fin p = fin r1 := by
  have hpos := htr.usable.positive
  have rest : Y ∈ pre ∨ Y = r2 ∨ Y ∈ post := by
    have hk := (split.mem_before Y).mp hm
    tauto
  have hpl := split.place hpos htr.laminar rest
  have hse := hpos r2 split.second_mem
  have hw := split.within
  obtain ⟨_, hne, hs⟩ := (mem_pieces hw).mp hp
  rcases hs with left | right
  · exfalso
    simp only [Same, Within, Left, fin] at *
    omega
  · exact right

theorem keeps_split (htr : Tracks F l) (heirs : Heirs F l) (unambiguous : Unambiguous F) {x : Nat}
    (hinn : Innermost F x D) (hkp : Keeps x D l) (split : Split l l' pre r1 r2 post) : Keeps x D l' := by
  rcases hkp with ⟨⟨Y, member, sameY⟩, typed⟩ | settled
  · by_cases first : Same r1 D
    · by_cases second : Same r2 D
      · -- Two ranges with the addresses of `D`: both have its type, and one is left.
        refine .inl ⟨⟨r2, split.second_mem_after, second⟩, ?_⟩
        intro Z memberZ sameZ
        rcases split.mem_cases memberZ with old | piece
        · exact typed Z old sameZ
        · obtain ⟨_, hne, shape⟩ := (mem_pieces split.within).mp piece
          simp only [Same, fin] at *
          omega
      · have cut : StrictlyIn r2 r1 := by
          have hw := split.within
          simp only [StrictlyIn, Within, Same, fin] at *
          omega
        have only := htr.containing_eq split hinn first cut
        exact .inr (split.settled ⟨r1, only, typed r1 split.first_mem first⟩)
    · have ho : Y ≠ r1 := fun same => first (same ▸ sameY)
      refine .inl ⟨⟨Y, split.mem_after_of_ne member ho, sameY⟩, ?_⟩
      intro Z memberZ sameZ
      rcases split.mem_cases memberZ with old | piece
      · exact typed Z old sameZ
      · have right := htr.right_of_same split piece member ho sameY sameZ
        rcases heirs r1 split.first_mem with ⟨A, heir, sameType⟩ | lone
        · -- What is left of `A` has come to coincide with `D`.
          have next := htr.heirOf_piece split heir piece right
          have smaller := htr.piece_inside_first split piece
          have usurps : Usurps F A D := by
            refine ⟨heir.registered, ?_, ?_, fun Z hreg outer hi => ?_⟩
            · have outer := heir.within
              simp only [StrictlyIn, Within, Same, fin] at *
              omega
            · have ends := next.ends
              simp only [Same, fin] at *
              omega
            · refine next.begins Z hreg ?_ hi
              simp only [Within, Same, fin] at *
              omega
          have pieceType := ((mem_pieces split.within).mp piece).1
          exact pieceType.trans (sameType.trans (unambiguous A D usurps x hinn))
        · exact absurd lone (htr.not_lone_first split)
  · exact .inr (split.settled settled)

end Tracks

/-- The property of a loop on an unambiguous family. -/
structure Faithful (F l : List Range) : Prop where
  tracks : Tracks F l
  heirs : Heirs F l
  keeps : ∀ x D, Innermost F x D → Keeps x D l

theorem Faithful.refl (hu : Usable F) (hl : Laminar F) (hd : Distinct F) : Faithful F F where
  tracks := .refl hu hl
  heirs := .refl F
  keeps _ _ hi := .refl hd hi

theorem Faithful.stable (hu : Unambiguous F) (R : Range → Range → Prop) :
    Stable R (Faithful F) where
  perm same hh :=
    { tracks := hh.tracks.perm same
      heirs := hh.heirs.perm same
      keeps := fun x D hinn => (hh.keeps x D hinn).perm same }
  nonempty hh := hh.tracks.usable.nonempty
  sound hh := hh.tracks.usable.sound
  split hh split _ :=
    { tracks := hh.tracks.split split
      heirs := hh.tracks.heirs_split hh.heirs split
      keeps := fun x D hinn =>
        hh.tracks.keeps_split hh.heirs hu hinn (hh.keeps x D hinn) split }

/-- Some range has the address `x` and this type. -/
def HasType (x : Nat) (type : MemoryType) (l : List Range) : Prop := ∃ Y ∈ l, Mem x Y ∧ Y.type = type

theorem Settled.hasType (hs : Settled x type l) : HasType x type l := by
  obtain ⟨r, only, ht⟩ := hs
  have hm : r ∈ containing x l := by simp [only]
  exact ⟨r, (mem_containing.mp hm).1, (mem_containing.mp hm).2, ht⟩

theorem Faithful.hasType (faithful : Faithful F l) (hinn : Innermost F x D) : HasType x D.type l := by
  rcases faithful.keeps x D hinn with ⟨⟨Y, member, same⟩, typed⟩ | settled
  · refine ⟨Y, member, ?_, typed Y member same⟩
    have hi := hinn.mem
    simp only [Mem, Same, fin] at *
    omega
  · exact settled.hasType

/-! ## When the sort matters -/

/-- What is left of `A`, or another range of its type, still covers `D`; or `x` is settled with its type. -/
def Usurped (x : Nat) (A D : Range) (l : List Range) : Prop :=
  (∃ X ∈ l, X.type = A.type ∧ fin X = fin A ∧ Within D X ∧ Within X A) ∨ Settled x A.type l

theorem Usurped.perm (usurped : Usurped x A D l) (same : l.Perm l') : Usurped x A D l' := by
  rcases usurped with ⟨X, member, known⟩ | settled
  · exact .inl ⟨X, same.mem_iff.mp member, known⟩
  · exact .inr (settled.perm same)

theorem Usurped.hasType (usurped : Usurped x A D l) (hi : Mem x D) : HasType x A.type l := by
  rcases usurped with ⟨X, member, typed, _, within, _⟩ | settled
  · refine ⟨X, member, ?_, typed⟩
    simp only [Mem, Within] at *
    omega
  · exact settled.hasType

namespace Tracks

variable {F l l' pre post : List Range} {r1 r2 : Range}

/-- The range cut out of one that covers `D` does not cover `D` itself. -/
theorem not_within_second (htr : Tracks F l) (split : Split l l' pre r1 r2 post)
    (hso : ∀ y ∈ F, 0 < y.size) (hu : Usurps F A D) (ends : fin r1 = fin A) (ho : Within r1 A)
    (cut : StrictlyIn r2 r1) : ¬ Within D r2 := by
  intro hcv
  have hreg := htr.inner r2 split.second_mem r1 split.first_mem cut
  have hs := hu.ends
  obtain ⟨C, hm, hme⟩ := hu.begins r2 hreg hcv (by
    simp only [StrictlyIn, Within] at *
    omega)
  -- `C` ends where `r2` begins, so it lies in `r1` before `r2`.
  have hn := htr.across r1 split.first_mem C hm
  have hne := hso C hm
  have hse := htr.usable.positive r2 split.second_mem
  have hi : StrictlyIn C r1 := by
    simp only [Nested, StrictlyIn, Within, Left, fin] at *
    omega
  have hp := (htr.place_registered split hm hi).2
  simp only [Within, Left, fin] at *
  omega

theorem usurped_split (htr : Tracks F l) (laminar : Laminar F) (hso : ∀ y ∈ F, 0 < y.size) {x : Nat}
    (usurps : Usurps F A D) (hinn : Innermost F x D) (usurped : Usurped x A D l)
    (split : Split l l' pre r1 r2 post) (tie : Same r1 r2 → r1.type = A.type → r2.type = A.type) :
    Usurped x A D l' := by
  rcases usurped with ⟨X, member, typed, ends, covers, outer⟩ | settled
  · by_cases first : X = r1
    · subst first
      have hw := split.within
      have second := htr.usable.positive r2 split.second_mem
      have hne := hso D hinn.registered
      have sameEnd := usurps.ends
      by_cases same : Same X r2
      · -- The sort left the type of `A` behind.
        refine .inl ⟨r2, split.second_mem_after, tie same typed, ?_, ?_, ?_⟩
        all_goals simp only [Same, Within, fin] at *; omega
      · have cut : StrictlyIn r2 X := by
          simp only [StrictlyIn, Within, Same, fin] at *
          omega
        have hreg := htr.inner r2 split.second_mem X split.first_mem cut
        have nested := laminar r2 hreg D hinn.registered
        have notAround := htr.not_within_second split hso usurps ends outer cut
        by_cases left : Left r2 D
        · -- The right piece still covers `D`.
          have piece : (⟨X.type, fin r2, fin X - fin r2⟩ : Range) ∈ pieces X r2 := by
            refine (mem_pieces hw).mpr ⟨rfl, ?_, .inr ⟨rfl, ?_⟩⟩
            all_goals simp only [Within, Left, fin] at *; omega
          refine .inl ⟨_, (split.mem_after _).mpr (.inr (.inr (.inr piece))), typed, ?_, ?_, ?_⟩
          all_goals simp only [Within, Left, fin] at *; omega
        · by_cases hi : StrictlyIn D X
          · exfalso
            have place := (htr.place_registered split hinn.registered hi).2
            simp only [Nested, StrictlyIn, Within, Left, fin] at *
            omega
          · have sameD : Same X D := by
              simp only [StrictlyIn, Within, Same, fin] at *
              omega
            have only := htr.containing_eq split hinn sameD cut
            exact .inr (split.settled ⟨X, only, typed⟩)
    · exact .inl ⟨X, split.mem_after_of_ne member first, typed, ends, covers, outer⟩
  · exact .inr (split.settled settled)

end Tracks

/-- The property of a loop in which the sort lets `A` take the place of `D`. -/
structure Spoils (F : List Range) (x : Nat) (A D : Range) (l : List Range) : Prop where
  tracks : Tracks F l
  usurped : Usurped x A D l

theorem Spoils.refl (hus : Usable F) (hl : Laminar F) (hu : Usurps F A D) (x : Nat) : Spoils F x A D F where
  tracks := .refl hus hl
  usurped := .inl ⟨A, hu.outer, rfl, rfl, hu.inside.1, Within.refl A⟩

theorem Spoils.stable (hu : Usable F) (hl : Laminar F) (hus : Usurps F A D) (hinn : Innermost F x D) :
    Stable (BeforeLast A.type) (Spoils F x A D) where
  perm same hh := ⟨hh.tracks.perm same, hh.usurped.perm same⟩
  nonempty hh := hh.tracks.usable.nonempty
  sound hh := hh.tracks.usable.sound
  split hh split ho := by
    refine ⟨hh.tracks.split split, ?_⟩
    refine hh.tracks.usurped_split hl hu.positive hus hinn hh.usurped split ?_
    intro same ht
    rcases ho with hb | ⟨_, last⟩
    · simp only [Before, Same] at *
      omega
    · exact last ht

end Gevisor.Mtrr
