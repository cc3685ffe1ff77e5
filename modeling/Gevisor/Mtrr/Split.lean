import Mathlib.Algebra.BigOperators.Group.List.Basic
import Mathlib.Data.List.Perm.Basic
import Gevisor.Mtrr.Ranges

/-! # Splitting one range around another

What one pass does to the ranges, apart from the array they are stored in: a range `r1` that no other
range contains is replaced by what is left of it around the first range `r2` inside it. The ranges keep
covering the same addresses, and their total size goes down.
-/

namespace Gevisor.Mtrr

open Gevisor.Ept

/-- The first address after a range. -/
def fin (r : Range) : Nat := r.base + r.size

/-- The addresses of a range. -/
def Mem (x : Nat) (r : Range) : Prop := r.base ≤ x ∧ x < fin r

instance (x : Nat) (r : Range) : Decidable (Mem x r) := inferInstanceAs (Decidable (_ ∧ _))

def Within (a b : Range) : Prop := b.base ≤ a.base ∧ fin a ≤ fin b

instance (a b : Range) : Decidable (Within a b) := inferInstanceAs (Decidable (_ ∧ _))

/-- Proper containment. -/
def StrictlyIn (a b : Range) : Prop := Within a b ∧ ¬ Within b a

instance (a b : Range) : Decidable (StrictlyIn a b) := inferInstanceAs (Decidable (_ ∧ _))

/-- The same addresses, whatever the types. -/
def Same (a b : Range) : Prop := a.base = b.base ∧ a.size = b.size

instance (a b : Range) : Decidable (Same a b) := inferInstanceAs (Decidable (_ ∧ _))

variable {a b y r1 r2 : Range}

theorem Same.symm (same : Same a b) : Same b a := ⟨same.1.symm, same.2.symm⟩

theorem Same.trans {c : Range} (first : Same a b) (hs : Same b c) :
    Same a c := ⟨first.1.trans hs.1, first.2.trans hs.2⟩

/-- `a` ends before `b` begins. -/
def Left (a b : Range) : Prop := fin a ≤ b.base

instance (a b : Range) : Decidable (Left a b) := inferInstanceAs (Decidable (_ ≤ _))

/-- `a` reaches into `b` without containing it. -/
def Crosses (a b : Range) : Prop := a.base < b.base ∧ b.base < fin a ∧ fin a < fin b

/-- One contains the other, or they have no address in common. -/
def Nested (a b : Range) : Prop := Within a b ∨ Within b a ∨ Left a b ∨ Left b a

instance (a b : Range) : Decidable (Nested a b) := inferInstanceAs (Decidable (_ ∨ _ ∨ _ ∨ _))

/-- The order of `compare`. -/
def Before (a b : Range) : Prop := a.base < b.base ∨ a.base = b.base ∧ b.size < a.size

instance (a b : Range) : Decidable (Before a b) := inferInstanceAs (Decidable (_ ∨ _))

theorem compare_iff (a b : Range) : compare a b = true ↔ Before a b := by
  unfold compare Before
  split <;> simp only [decide_eq_true_eq] <;> omega

theorem compare_eq_false (a b : Range) : compare a b = false ↔ ¬ Before a b := by
  rw [← compare_iff, Bool.not_eq_true]

theorem nested_of_not_crosses (hf : ¬ Crosses a b) (hb : ¬ Crosses b a) : Nested a b := by
  simp only [Crosses, Nested, Within, Left, fin] at *
  omega

theorem Nested.symm (hn : Nested a b) : Nested b a := by
  simp only [Nested] at *
  tauto

instance : Std.Symm Nested := ⟨fun _ _ => Nested.symm⟩

theorem Within.refl (a : Range) : Within a a := ⟨Nat.le_refl _, Nat.le_refl _⟩

theorem Nested.not_crosses (hn : Nested a b) : ¬ Crosses a b := by
  simp only [Crosses, Nested, Within, Left, fin] at *
  omega

/-! ## Pieces -/

/-- A range, unless it is empty. -/
def piece (type : MemoryType) (base size : Nat) : List Range := if size ≠ 0 then [⟨type, base, size⟩] else []

theorem mem_piece {type : MemoryType} {base size : Nat} :
    y ∈ piece type base size ↔ 0 < y.size ∧ y = ⟨type, base, size⟩ := by
  by_cases hem : size = 0
  · subst hem
    simp only [piece, ne_eq, not_true_eq_false, if_false, List.not_mem_nil, false_iff]
    rintro ⟨hne, rfl⟩
    exact absurd hne (Nat.lt_irrefl 0)
  · simp only [piece, ne_eq, hem, not_false_eq_true, if_true, List.mem_singleton]
    constructor
    · rintro rfl
      exact ⟨Nat.pos_of_ne_zero hem, rfl⟩
    · exact fun both => both.2

theorem piece_size (type : MemoryType) (base size : Nat) : ((piece type base size).map Range.size).sum = size := by
  unfold piece
  split <;> simp_all

/-- What is left of `r1` around `r2`. -/
def pieces (r1 r2 : Range) : List Range :=
  piece r1.type r1.base (r2.base - r1.base) ++ piece r1.type (fin r2) (fin r1 - fin r2)

theorem mem_pieces (hw : Within r2 r1) : y ∈ pieces r1 r2 ↔ y.type = r1.type ∧ 0 < y.size ∧
        (y.base = r1.base ∧ fin y = r2.base ∨ y.base = fin r2 ∧ fin y = fin r1) := by
  obtain ⟨type, base, size⟩ := y
  simp only [Within, fin] at hw
  simp only [pieces, fin, List.mem_append, mem_piece, Range.mk.injEq]
  constructor
  · rintro (⟨hne, rfl, rfl, rfl⟩ | ⟨hne, rfl, rfl, rfl⟩)
    · exact ⟨rfl, hne, .inl ⟨rfl, by omega⟩⟩
    · exact ⟨rfl, hne, .inr ⟨rfl, by omega⟩⟩
  · rintro ⟨rfl, hne, ⟨rfl, ends⟩ | ⟨rfl, ends⟩⟩
    · exact .inl ⟨hne, rfl, rfl, by omega⟩
    · exact .inr ⟨hne, rfl, rfl, by omega⟩

/-- The addresses of `r1` outside `r2` are those of the pieces. -/
theorem mem_some_piece (hw : Within r2 r1) (x : Nat) : (∃ y ∈ pieces r1 r2, Mem x y) ↔ Mem x r1 ∧ ¬ Mem x r2 := by
  constructor
  · rintro ⟨y, hm, hi⟩
    obtain ⟨_, _, side⟩ := (mem_pieces hw).mp hm
    simp only [Mem, Within, fin] at *
    omega
  · rintro ⟨hi, hout⟩
    by_cases side : x < r2.base
    · refine ⟨⟨r1.type, r1.base, r2.base - r1.base⟩, (mem_pieces hw).mpr ⟨rfl, ?_, .inl ⟨rfl, ?_⟩⟩, ?_⟩
      all_goals simp only [Mem, Within, fin] at *; omega
    · refine ⟨⟨r1.type, fin r2, fin r1 - fin r2⟩, (mem_pieces hw).mpr ⟨rfl, ?_, .inr ⟨rfl, ?_⟩⟩, ?_⟩
      all_goals simp only [Mem, Within, fin] at *; omega

theorem pieces_size (hw : Within r2 r1) : ((pieces r1 r2).map Range.size).sum + r2.size = r1.size := by
  simp only [Within, fin] at hw
  simp only [pieces, fin, List.map_append, List.sum_append, piece_size]
  omega

/-! ## One split -/

/-- The ranges `l` become `l'`: `r1` is split around `r2`. In the order of `compare` the ranges before
`r1` end before it, and `r2` is the next one. -/
structure Split (l l' pre : List Range) (r1 r2 : Range) (post : List Range) : Prop where
  before : l.Perm (pre ++ r1 :: r2 :: post)
  after : l'.Perm (pre ++ r2 :: post ++ pieces r1 r2)
  within : Within r2 r1
  left : ∀ y ∈ pre, Left y r1
  right : ∀ y ∈ post, ¬ Before y r2

namespace Split

variable {l l' pre post : List Range} {r1 r2 : Range}

variable {y : Range}

section

variable (split : Split l l' pre r1 r2 post)

include split

theorem mem_before (y : Range) : y ∈ l ↔ y ∈ pre ∨ y = r1 ∨ y = r2 ∨ y ∈ post := by
  rw [split.before.mem_iff]
  simp only [List.mem_append, List.mem_cons]

theorem mem_after (y : Range) : y ∈ l' ↔ y ∈ pre ∨ y = r2 ∨ y ∈ post ∨ y ∈ pieces r1 r2 := by
  rw [split.after.mem_iff]
  simp only [List.mem_append, List.mem_cons, or_assoc]

theorem first_mem : r1 ∈ l := by
  simp only [split.mem_before, true_or, or_true]

theorem second_mem : r2 ∈ l := by
  simp only [split.mem_before, true_or, or_true]

theorem second_mem_after : r2 ∈ l' := by
  simp only [split.mem_after, true_or, or_true]

/-- Every range but `r1` stays. -/
theorem mem_after_of_ne (hm : y ∈ l) (ho : y ≠ r1) : y ∈ l' := by
  rw [split.mem_before] at hm
  rw [split.mem_after]
  tauto

/-- A range after the split is an old one or a piece. -/
theorem mem_cases (hm : y ∈ l') : y ∈ l ∨ y ∈ pieces r1 r2 := by
  rw [split.mem_after] at hm
  rw [split.mem_before]
  tauto

theorem covers (x : Nat) : (∃ y ∈ l', Mem x y) ↔ ∃ y ∈ l, Mem x y := by
  have hp := mem_some_piece split.within x
  constructor
  · rintro ⟨y, hm, hi⟩
    rcases split.mem_cases hm with old | new
    · exact ⟨y, old, hi⟩
    · exact ⟨r1, split.first_mem, (hp.mp ⟨y, new, hi⟩).1⟩
  · rintro ⟨y, hm, hi⟩
    by_cases first : y = r1
    · subst first
      by_cases hs : Mem x r2
      · exact ⟨r2, split.second_mem_after, hs⟩
      · obtain ⟨z, new, hi⟩ := hp.mpr ⟨hi, hs⟩
        exact ⟨z, (split.mem_after z).mpr (.inr (.inr (.inr new))), hi⟩
    · exact ⟨y, split.mem_after_of_ne hm first, hi⟩

theorem total_size : (l'.map Range.size).sum + r2.size = (l.map Range.size).sum := by
  have hp := pieces_size split.within
  rw [(split.after.map _).sum_eq, (split.before.map _).sum_eq]
  simp only [List.map_append, List.map_cons, List.sum_append, List.sum_cons]
  omega

/-- No range contains `r1` properly: it is the first of those that contain another one. -/
theorem maximal (hne : 0 < r1.size) (hm : y ∈ l) : ¬ StrictlyIn r1 y := by
  have hw := split.within
  simp only [StrictlyIn, Within, fin] at hw ⊢
  rcases (split.mem_before y).mp hm with earlier | first | second | later
  · have left := split.left y earlier
    simp only [Left, fin] at left
    omega
  · subst first
    omega
  · subst second
    omega
  · have right := split.right y later
    simp only [Before] at right
    omega

/-- Where the other ranges lie. -/
theorem place (hne : ∀ y ∈ l, 0 < y.size) (nested : ∀ a ∈ l, ∀ b ∈ l, Nested a b)
    (rest : y ∈ pre ∨ y = r2 ∨ y ∈ post) : Left y r1 ∨ Within y r2 ∨ Left r2 y ∧ Within y r1 ∨ Left r1 y := by
  have hw := split.within
  have first := hne r1 split.first_mem
  rcases rest with earlier | second | later
  · exact .inl (split.left y earlier)
  · exact .inr (.inl (second ▸ Within.refl r2))
  · have hm : y ∈ l := (split.mem_before y).mpr (.inr (.inr (.inr later)))
    have right := split.right y later
    have outer := nested y hm r1 split.first_mem
    have inner := nested y hm r2 split.second_mem
    have hpos := hne y hm
    simp only [Before, Nested, Within, Left, fin] at *
    omega

theorem mem_of_rest (rest : y ∈ pre ∨ y = r2 ∨ y ∈ post) : y ∈ l := (split.mem_before y).mpr (rest.imp id .inr)

/-- A range after the split is another old one or a piece. -/
theorem rest_or_piece (hm : y ∈ l') : (y ∈ pre ∨ y = r2 ∨ y ∈ post) ∨ y ∈ pieces r1 r2 := by
  rw [split.mem_after] at hm
  tauto

theorem piece_nested (hne : ∀ y ∈ l, 0 < y.size)
    (nested : ∀ a ∈ l, ∀ b ∈ l, Nested a b) {p y : Range} (piece : p ∈ pieces r1 r2) (hm : y ∈ l') :
    Nested p y := by
  have hw := split.within
  have inner := hne r2 split.second_mem
  obtain ⟨_, hpos, shape⟩ := (mem_pieces split.within).mp piece
  rcases split.rest_or_piece hm with rest | other
  · have place := split.place hne nested rest
    simp only [Nested, Within, Left, fin] at *
    omega
  · obtain ⟨_, hpos', shape'⟩ := (mem_pieces split.within).mp other
    simp only [Nested, Within, Left, fin] at *
    omega

theorem nested_after (hne : ∀ y ∈ l, 0 < y.size)
    (hn : ∀ a ∈ l, ∀ b ∈ l, Nested a b) : ∀ a ∈ l', ∀ b ∈ l', Nested a b := by
  intro a hm b hme
  rcases split.mem_cases hm with oldA | newA
  · rcases split.mem_cases hme with oldB | newB
    · exact hn a oldA b oldB
    · exact (split.piece_nested hne hn newB hm).symm
  · exact split.piece_nested hne hn newA hme

end

end Split

/-! ## Alignment -/

/-- Up to here the rest of the addresses is more than a page. -/
def limit : Nat := 2 ^ 64 - 8192

/-- A range of whole pages below the limit, or one that reaches to the last address. -/
structure Sound (r : Range) : Prop where
  base_dvd : 4096 ∣ r.base
  base_le : r.base ≤ limit
  nonempty : 0 < r.size
  ends : 4096 ∣ fin r ∧ fin r ≤ limit ∨ fin r = 2 ^ 64 - 1

namespace Sound

theorem fin_lt {r : Range} (hso : Sound r) : fin r < 2 ^ 64 := by
  have ends := hso.ends
  unfold limit at ends
  omega

theorem page_le_size {r : Range} (hso : Sound r) : pageSize4k ≤ r.size := by
  obtain ⟨base, hs, hne, ends⟩ := hso
  simp only [pageSize4k, limit, fin] at *
  omega

theorem piece {r1 r2 p : Range} (ho : Sound r1) (hi : Sound r2) (hw : Within r2 r1)
    (hm : p ∈ pieces r1 r2) : Sound p := by
  obtain ⟨_, hpos, hs⟩ := (mem_pieces hw).mp hm
  obtain ⟨hb, hsm, hne1, he⟩ := ho
  obtain ⟨hba, hsa, hne2, hen⟩ := hi
  simp only [Within, limit, fin] at *
  exact {
    base_dvd := by omega
    base_le := by simp only [limit]; omega
    nonempty := hpos
    ends := by simp only [limit, fin]; omega }

end Sound

end Gevisor.Mtrr
