import Mathlib.Algebra.CharZero.Defs
import Mathlib.Algebra.Order.Ring.Nat
import Mathlib.Data.BitVec
import Mathlib.Data.List.Perm.Basic

/-! # Buddy systems

A block of `2 ^ n` units is free, used as a whole, or split into two halves. Taking a block of `2 ^ j`
units splits as far as needed at the leftmost place with room; giving one back joins free halves. The
used blocks of a tree, and where there is room, are the two views of it that clients need.
-/

namespace Gevisor.Lib

/-- A block of `2 ^ n` units. -/
inductive Buddy : Nat → Type
  | free {n : Nat} : Buddy n
  | used {n : Nat} : Buddy n
  | split {n : Nat} (left right : Buddy n) : Buddy (n + 1)
  deriving Repr

namespace Buddy

variable {n : Nat}

variable {j i o : Nat}

/-- The left half; that of a block which is not split is free. -/
def left : Buddy (n + 1) → Buddy n
  | .split l _ => l
  | _ => .free

def right : Buddy (n + 1) → Buddy n
  | .split _ r => r
  | _ => .free

def isFree : Buddy n → Bool
  | .free => true
  | _ => false

/-- No unit of the block is free. -/
def isFull : {n : Nat} → Buddy n → Bool
  | _, .free => false
  | _, .used => true
  | _, .split l r => l.isFull && r.isFull

/-- A free block with its first `2 ^ j` units taken. -/
def carve (j : Nat) : (n : Nat) → Buddy n
  | 0 => .used
  | n + 1 => if j = n + 1 then .used else .split (carve j n) .free

/-- Takes the leftmost `2 ^ j` units that are free and aligned. -/
def take (j : Nat) : {n : Nat} → Buddy n → Option (Nat × Buddy n)
  | n, .free => if j ≤ n then some (0, carve j n) else none
  | _, .used => none
  | _, @split n l r =>
    if j = n + 1 then none
    else match take j l with
      | some (i, l') => some (i, .split l' r)
      | none => match take j r with
        | some (i, r') => some (2 ^ n + i, .split l r')
        | none => none

def join : Buddy n → Buddy n → Buddy (n + 1)
  | .free, .free => .free
  | l, r => .split l r

/-- Gives back the used block around unit `i`. -/
def give (i : Nat) : {n : Nat} → Buddy n → Option (Buddy n)
  | _, .free => none
  | _, .used => some .free
  | _, @split n l r =>
    if i < 2 ^ n then (give i l).map fun l' => join l' r else (give (i - 2 ^ n) r).map fun r' => join l r'

/-- The level of the used block around unit `i`. -/
def levelAt (i : Nat) : {n : Nat} → Buddy n → Option Nat
  | _, .free => none
  | n, .used => some n
  | _, @split n l r => if i < 2 ^ n then levelAt i l else levelAt (i - 2 ^ n) r

/-- Start and level of the used blocks, from left to right, of a tree that starts at unit `o`. -/
def blocks : {n : Nat} → Buddy n → Nat → List (Nat × Nat)
  | _, .free, _ => []
  | n, .used, o => [(o, n)]
  | _, @split n l r, o => blocks l o ++ blocks r (o + 2 ^ n)

/-- No split block consists of two free halves. -/
def Normal : {n : Nat} → Buddy n → Prop
  | _, .free => True
  | _, .used => True
  | _, .split l r => Normal l ∧ Normal r ∧ (l.isFree && r.isFree) = false

/-! ## Where the blocks are -/

variable {b a : Nat × Nat} {t t' l r : Buddy n}

/-- Blocks lie inside the tree, at a multiple of their size from its start. -/
theorem block_inside (t : Buddy n) (mem : b ∈ blocks t o) :
    o ≤ b.1 ∧ b.1 + 2 ^ b.2 ≤ o + 2 ^ n ∧ b.2 ≤ n ∧ ∃ m, b.1 = o + m * 2 ^ b.2 := by
  induction t generalizing o with
  | free => cases mem
  | @used n =>
    cases List.mem_singleton.mp mem
    exact ⟨Nat.le_refl _, Nat.le_refl _, Nat.le_refl _, 0, by simp⟩
  | @split n l r ihl ihr =>
    have hd : 2 ^ (n + 1) = 2 ^ n + 2 ^ n := Nat.two_pow_succ n
    cases List.mem_append.mp mem with
    | inl mem =>
      obtain ⟨hlo, hu, hl, hal⟩ := ihl mem
      have := Nat.two_pow_pos n
      exact ⟨hlo, by omega, by omega, hal⟩
    | inr mem =>
      obtain ⟨hlo, hu, hl, m, hs⟩ := ihr mem
      -- The half starts at a multiple of every smaller size.
      have hm : 2 ^ n = 2 ^ (n - b.2) * 2 ^ b.2 := by rw [← Nat.pow_add, Nat.sub_add_cancel hl]
      exact ⟨by omega, by omega, by omega, 2 ^ (n - b.2) + m, by rw [Nat.add_mul, ← hm]; omega⟩

/-- `a` ends where `b` starts, or before. -/
def Before (a b : Nat × Nat) : Prop := a.1 + 2 ^ a.2 ≤ b.1

theorem blocks_ordered (t : Buddy n) (o : Nat) : (blocks t o).Pairwise Before := by
  induction t generalizing o with
  | free => exact .nil
  | used => exact List.pairwise_singleton _ _
  | split l r ihl ihr =>
    refine List.pairwise_append.mpr ⟨ihl o, ihr _, ?_⟩
    intro a hil b hir
    have hu := (block_inside l hil).2.1
    have hl := (block_inside r hir).1
    exact Nat.le_trans hu hl

theorem exists_block (hno : t.Normal) (hnt : t.isFree = false) (o : Nat) : ∃ b, b ∈ blocks t o := by
  induction t generalizing o with
  | free => cases hnt
  | @used n => exact ⟨(o, n), List.mem_singleton_self _⟩
  | @split n l r ihl ihr =>
    obtain ⟨hnr, hnor, hn⟩ := hno
    cases hil : l.isFree with
    | false =>
      obtain ⟨b, mem⟩ := ihl hnr hil o
      exact ⟨b, List.mem_append_left _ mem⟩
    | true =>
      rw [hil, Bool.true_and] at hn
      obtain ⟨b, mem⟩ := ihr hnor hn (o + 2 ^ n)
      exact ⟨b, List.mem_append_right _ mem⟩

/-! ## Taking -/

theorem blocks_carve (fits : j ≤ n) (o : Nat) : blocks (carve j n) o = [(o, j)] := by
  induction n with
  | zero => cases Nat.le_zero.mp fits; rfl
  | succ n ih =>
    simp only [carve]
    split
    · next hwh => rw [hwh]; rfl
    · next hs => simp only [blocks, ih (by omega), List.append_nil]

theorem normal_carve (j n : Nat) : (carve j n).Normal ∧ (carve j n).isFree = false := by
  induction n with
  | zero => exact ⟨trivial, rfl⟩
  | succ n ih =>
    simp only [carve]
    split
    · exact ⟨trivial, rfl⟩
    · refine ⟨⟨ih.1, trivial, ?_⟩, rfl⟩
      rw [ih.2, Bool.false_and]

/-- What taking a block does to the blocks in use. -/
theorem blocks_take (htk : take j t = some (i, t')) (o : Nat) : (blocks t' o).Perm ((o + i, j) :: blocks t o) := by
  induction t generalizing i o with
  | @free n =>
    simp only [take] at htk
    split at htk
    · next fits =>
      simp only [Option.some.injEq, Prod.mk.injEq] at htk
      obtain ⟨rfl, rfl⟩ := htk
      rw [blocks_carve fits]
      exact .refl _
    · cases htk
  | used => cases htk
  | @split n l r ihl ihr =>
    simp only [take] at htk
    split at htk
    · cases htk
    · split at htk
      · next k l' hil =>
        simp only [Option.some.injEq, Prod.mk.injEq] at htk
        obtain ⟨rfl, rfl⟩ := htk
        exact (ihl hil o).append_right _
      · split at htk
        · next k r' hir =>
          simp only [Option.some.injEq, Prod.mk.injEq] at htk
          obtain ⟨rfl, rfl⟩ := htk
          rw [← Nat.add_assoc]
          exact ((ihr hir _).append_left _).trans List.perm_middle
        · cases htk

theorem normal_take (hnor : t.Normal) (htk : take j t = some (i, t')) : t'.Normal ∧ t'.isFree = false := by
  induction t generalizing i with
  | @free n =>
    simp only [take] at htk
    split at htk
    · cases htk
      exact normal_carve j n
    · cases htk
  | used => cases htk
  | @split n l r ihl ihr =>
    obtain ⟨hno, hnr, -⟩ := hnor
    simp only [take] at htk
    split at htk
    · cases htk
    · split at htk
      · next k l' hil =>
        cases htk
        obtain ⟨hn', hn⟩ := ihl hno hil
        exact ⟨⟨hn', hnr, by rw [hn, Bool.false_and]⟩, rfl⟩
      · split at htk
        · next k r' hir =>
          cases htk
          obtain ⟨hn', hn⟩ := ihr hnr hir
          exact ⟨⟨hno, hn', by rw [hn, Bool.and_false]⟩, rfl⟩
        · cases htk

/-- The two blocks have a unit in common. -/
def Overlap (a b : Nat × Nat) : Prop := a.1 < b.1 + 2 ^ b.2 ∧ b.1 < a.1 + 2 ^ a.2

theorem Before.not_overlap (hbe : Before a b) : ¬ Overlap a b := by
  intro ho
  have := ho.2
  simp only [Before] at hbe
  omega

theorem Overlap.symm (ho : Overlap a b) : Overlap b a := ⟨ho.2, ho.1⟩

/-- Taking fails only if every aligned place in the tree meets a used block. -/
theorem overlap_of_take_none (hn : t.Normal) (fits : j ≤ n)
    (full : take j t = none) (o m : Nat) (hi : (m + 1) * 2 ^ j ≤ 2 ^ n) :
    ∃ b ∈ blocks t o, Overlap (o + m * 2 ^ j, j) b := by
  induction t generalizing o m with
  | free => simp [take, fits] at full
  | @used n =>
    refine ⟨(o, n), List.mem_singleton_self _, ?_, ?_⟩
    · rw [Nat.add_mul] at hi
      have := Nat.two_pow_pos j
      simp only
      omega
    · have := Nat.two_pow_pos j
      simp only
      omega
  | @split n l r ihl ihr =>
    simp only [take] at full
    split at full
    · next hwh =>
      -- The only place is the whole block, and some part of it is in use.
      obtain ⟨b, mem⟩ := exists_block hn rfl o
      obtain ⟨hlo, hu, -, -⟩ := block_inside (.split l r) mem
      subst hwh
      have first : m = 0 := by
        have one : m + 1 ≤ 1 := by
          refine Nat.le_of_mul_le_mul_right ?_ (Nat.two_pow_pos (n + 1))
          rw [Nat.one_mul]
          exact hi
        omega
      subst first
      have := Nat.two_pow_pos b.2
      exact ⟨b, mem, by simp only; omega, by simp only; omega⟩
    · next hsm =>
      have hl : j ≤ n := by omega
      obtain ⟨hnor, normalRight, -⟩ := hn
      have hm : 2 ^ n = 2 ^ (n - j) * 2 ^ j := by rw [← Nat.pow_add, Nat.sub_add_cancel hl]
      split at full
      · cases full
      · next hno =>
        split at full
        · cases full
        · next hnr =>
          by_cases hil : (m + 1) * 2 ^ j ≤ 2 ^ n
          · obtain ⟨b, mem, ho⟩ := ihl hnor hl hno o m hil
            exact ⟨b, List.mem_append_left _ mem, ho⟩
          · -- The place starts in the right half, as its size divides the half.
            have hb : 2 ^ (n - j) ≤ m := by
              rw [hm] at hil
              by_contra less
              exact hil (Nat.mul_le_mul_right _ (by omega))
            obtain ⟨d, rfl⟩ := Nat.exists_eq_add_of_le hb
            have hs : o + (2 ^ (n - j) + d) * 2 ^ j = o + 2 ^ n + d * 2 ^ j := by
              rw [Nat.add_mul, ← hm, Nat.add_assoc]
            have hi' : (d + 1) * 2 ^ j ≤ 2 ^ n := by
              rw [Nat.two_pow_succ, Nat.add_assoc, Nat.add_mul, ← hm] at hi
              omega
            obtain ⟨b, mem, ho⟩ := ihr normalRight hl hnr (o + 2 ^ n) d hi'
            exact ⟨b, List.mem_append_right _ mem, by rw [hs]; exact ho⟩

/-- What is taken was free. -/
theorem not_overlap_of_take (htk : take j t = some (i, t')) (mem : b ∈ blocks t o) : ¬ Overlap (o + i, j) b := by
  have hap : ((o + i, j) :: blocks t o).Pairwise fun a b => ¬ Overlap a b :=
    ((blocks_take htk o).pairwise_iff fun hap ho => hap ho.symm).mp ((blocks_ordered t' o).imp Before.not_overlap)
  exact (List.pairwise_cons.mp hap).1 b mem

/-- Where a block was taken from. -/
theorem take_inside (htk : take j t = some (i, t')) : i + 2 ^ j ≤ 2 ^ n ∧ j ≤ n ∧ ∃ m, i = m * 2 ^ j := by
  have mem : (0 + i, j) ∈ blocks t' 0 := (blocks_take htk 0).mem_iff.mpr List.mem_cons_self
  have hi := block_inside t' mem
  simp only [Nat.zero_add] at hi
  exact hi.2

theorem take_full (full : t.isFull = true) (j : Nat) : take j t = none := by
  induction t with
  | free => cases full
  | used => rfl
  | split l r ihl ihr =>
    simp only [isFull, Bool.and_eq_true] at full
    simp only [take, ihl full.1, ihr full.2, ite_self]

theorem take_whole (hn : t.isFree = false) : take n t = none := by
  cases t with
  | free => cases hn
  | used => rfl
  | split => simp only [take, if_true]

/-- The search in terms of the halves; those of a free block are free. -/
theorem take_halves (fits : j ≤ n) {t : Buddy (n + 1)} (room : t.isFull = false) :
    take j t = match take j t.left with
      | some (i, l) => some (i, .split l t.right)
      | none => match take j t.right with
        | some (i, r) => some (2 ^ n + i, .split t.left r)
        | none => none := by
  cases t with
  | free => simp only [take, left, right, carve, if_pos fits, if_pos (Nat.le_succ_of_le fits), if_neg (show ¬ j = n + 1 by omega)]
  | used => cases room
  | split l r => simp only [take, left, right, if_neg (show ¬ j = n + 1 by omega)]

/-! ## Giving back -/

theorem blocks_join (l r : Buddy n) (o : Nat) : blocks (join l r) o = blocks l o ++ blocks r (o + 2 ^ n) := by
  cases l <;> cases r <;> rfl

theorem normal_join (left : l.Normal) (right : r.Normal) : (join l r).Normal := by
  cases l with
  | free =>
    cases r with
    | free => trivial
    | used => exact ⟨left, right, rfl⟩
    | split => exact ⟨left, right, rfl⟩
  | used => exact ⟨left, right, rfl⟩
  | split => exact ⟨left, right, rfl⟩

@[simp] theorem left_join (l r : Buddy n) : (join l r).left = l := by
  cases l <;> cases r <;> rfl

@[simp] theorem right_join (l r : Buddy n) : (join l r).right = r := by
  cases l <;> cases r <;> rfl

/-- Giving back in terms of the halves. -/
theorem give_halves {t : Buddy (n + 1)} (hd : t ≠ .used) :
    give i t = if i < 2 ^ n then (give i t.left).map fun l => join l t.right
      else (give (i - 2 ^ n) t.right).map fun r => join t.left r := by
  cases t with
  | free => simp only [give, left, right, Option.map_none, ite_self]
  | used => exact absurd rfl hd
  | split l r => simp only [give, left, right]

theorem levelAt_halves {t : Buddy (n + 1)} (hd : t ≠ .used) :
    levelAt i t = if i < 2 ^ n then levelAt i t.left else levelAt (i - 2 ^ n) t.right := by
  cases t with
  | free => simp only [levelAt, left, right, ite_self]
  | used => exact absurd rfl hd
  | split l r => simp only [levelAt, left, right]

theorem normal_give (hnr : t.Normal) (hgi : give i t = some t') : t'.Normal := by
  induction t generalizing i with
  | free => simp only [give, reduceCtorEq] at hgi
  | used =>
    simp only [give, Option.some.injEq] at hgi
    subst hgi
    trivial
  | @split n l r ihl ihr =>
    obtain ⟨hn, hno, -⟩ := hnr
    simp only [give] at hgi
    split at hgi
    · obtain ⟨l', hil, rfl⟩ := Option.map_eq_some_iff.mp hgi
      exact normal_join (ihl hn hil) hno
    · obtain ⟨r', hir, rfl⟩ := Option.map_eq_some_iff.mp hgi
      exact normal_join hn (ihr hno hir)

theorem isFull_join (l r : Buddy n) : (join l r).isFull = (l.isFull && r.isFull) := by
  cases l <;> cases r <;> rfl

theorem not_full_give (hgi : give i t = some t') : t'.isFull = false := by
  induction t generalizing i with
  | free => simp only [give, reduceCtorEq] at hgi
  | used =>
    simp only [give, Option.some.injEq] at hgi
    subst hgi
    rfl
  | @split n l r ihl ihr =>
    simp only [give] at hgi
    split at hgi
    · obtain ⟨l', hil, rfl⟩ := Option.map_eq_some_iff.mp hgi
      rw [isFull_join, ihl hil, Bool.false_and]
    · obtain ⟨r', hir, rfl⟩ := Option.map_eq_some_iff.mp hgi
      rw [isFull_join, ihr hir, Bool.and_false]

/-- A block in use can be given back, and only it goes. -/
theorem give_block (mem : (o + i, j) ∈ blocks t o) :
    ∃ t', give i t = some t' ∧ (blocks t o).Perm ((o + i, j) :: blocks t' o) := by
  induction t generalizing o i with
  | free => cases mem
  | used => exact ⟨.free, by simp only [give], by rw [List.mem_singleton.mp mem]; exact .refl _⟩
  | @split n l r ihl ihr =>
    have pos := Nat.two_pow_pos j
    simp only [give]
    cases List.mem_append.mp mem with
    | inl hil =>
      have hi : o + i + 2 ^ j ≤ o + 2 ^ n := (block_inside l hil).2.1
      obtain ⟨l', hgi, perm⟩ := ihl hil
      rw [if_pos (by omega), hgi]
      refine ⟨join l' r, rfl, ?_⟩
      rw [blocks_join]
      exact perm.append_right _
    | inr hir =>
      have hi : o + 2 ^ n ≤ o + i := (block_inside r hir).1
      obtain ⟨d, rfl⟩ : ∃ d, i = 2 ^ n + d := ⟨i - 2 ^ n, by omega⟩
      rw [← Nat.add_assoc] at hir
      obtain ⟨r', hgi, perm⟩ := ihr hir
      rw [if_neg (by omega), Nat.add_sub_cancel_left, hgi]
      refine ⟨join l r', rfl, ?_⟩
      rw [blocks_join, ← Nat.add_assoc]
      exact (perm.append_left _).trans List.perm_middle

theorem levelAt_block (mem : (o + i, j) ∈ blocks t o) : levelAt i t = some j := by
  induction t generalizing o i with
  | free => cases mem
  | @used n =>
    have same : (o + i, j) = (o, n) := List.mem_singleton.mp mem
    simp only [levelAt, (Prod.mk.inj same).2]
  | @split n l r ihl ihr =>
    have pos := Nat.two_pow_pos j
    simp only [levelAt]
    cases List.mem_append.mp mem with
    | inl hil =>
      have hi : o + i + 2 ^ j ≤ o + 2 ^ n := (block_inside l hil).2.1
      rw [if_pos (by omega)]
      exact ihl hil
    | inr hir =>
      have hi : o + 2 ^ n ≤ o + i := (block_inside r hir).1
      obtain ⟨d, rfl⟩ : ∃ d, i = 2 ^ n + d := ⟨i - 2 ^ n, by omega⟩
      rw [← Nat.add_assoc] at hir
      rw [if_neg (by omega), Nat.add_sub_cancel_left]
      exact ihr hir

theorem give_carve (fits : j ≤ n) : give 0 (carve j n) = some .free := by
  induction n with
  | zero => rfl
  | succ n ih =>
    rw [carve]
    by_cases hwh : j = n + 1
    · rw [if_pos hwh]
      rfl
    · rw [if_neg hwh, give, if_pos (Nat.two_pow_pos n), ih (by omega)]
      rfl

theorem join_of_normal (hn : (split l r).Normal) : join l r = .split l r := by
  have hd := hn.2.2
  cases l with
  | free =>
    cases r with
    | free => cases hd
    | used => rfl
    | split => rfl
  | used => rfl
  | split => rfl

/-- Giving back what has just been taken leaves the tree as it was. -/
theorem give_take (hn : t.Normal) (htk : take j t = some (i, t')) : give i t' = some t := by
  induction t generalizing i with
  | @free n =>
    rw [take] at htk
    by_cases fits : j ≤ n
    · rw [if_pos fits, Option.some.injEq, Prod.mk.injEq] at htk
      obtain ⟨rfl, rfl⟩ := htk
      exact give_carve fits
    · rw [if_neg fits] at htk
      cases htk
  | used => cases htk
  | @split n l r left right =>
    rw [take] at htk
    by_cases hwh : j = n + 1
    · rw [if_pos hwh] at htk
      cases htk
    rw [if_neg hwh] at htk
    cases first : take j l with
    | some hf =>
      rw [first] at htk
      cases htk
      have hb : hf.1 < 2 ^ n := by
        have hi := (take_inside first).1
        have unit := Nat.two_pow_pos j
        omega
      rw [give, if_pos hb, left hn.1 first, Option.map_some, join_of_normal hn]
    | none =>
      rw [first] at htk
      cases hs : take j r with
      | none =>
        rw [hs] at htk
        cases htk
      | some hf =>
        rw [hs] at htk
        cases htk
        rw [give, if_neg (by omega), Nat.add_sub_cancel_left, right hn.2.1 hs, Option.map_some, join_of_normal hn]

/-- A tree with no block in use is free. -/
theorem eq_free_of_blocks_nil (hn : t.Normal) (none : blocks t o = []) : t = .free := by
  cases free : t.isFree with
  | true => cases t <;> first | rfl | cases free
  | false =>
    obtain ⟨b, mem⟩ := exists_block hn free o
    rw [none] at mem
    cases mem

/-! ## Counting units -/

/-- The units in use. -/
def inUse : {n : Nat} → Buddy n → Nat
  | _, .free => 0
  | n, .used => 2 ^ n
  | _, .split l r => l.inUse + r.inUse

theorem sum_blocks (t : Buddy n) (o : Nat) : ((blocks t o).map fun b => 2 ^ b.2).sum = t.inUse := by
  induction t generalizing o with
  | free => rfl
  | used => rfl
  | split l r left right => rw [blocks, List.map_append, List.sum_append, left, right, inUse]

theorem inUse_le (t : Buddy n) : t.inUse ≤ 2 ^ n := by
  induction t with
  | free => exact Nat.zero_le _
  | used => exact Nat.le_refl _
  | split l r left right =>
    rw [inUse, Nat.two_pow_succ]
    omega

/-- There is a unit to take as long as one is not in use. -/
theorem take_zero_eq_none_iff (t : Buddy n) : t.take 0 = none ↔ t.inUse = 2 ^ n := by
  induction t with
  | @free n =>
    have pos := Nat.two_pow_pos n
    rw [take, if_pos (Nat.zero_le n), inUse]
    exact iff_of_false (Option.some_ne_none _) (by omega)
  | used => exact iff_of_true rfl rfl
  | @split n l r left right =>
    have hl := l.inUse_le
    have hr := r.inUse_le
    rw [take, if_neg (by omega), inUse, Nat.two_pow_succ]
    cases first : take 0 l with
    | some hf =>
      have room : l.inUse ≠ 2 ^ n := fun full => by
        rw [left.mpr full] at first
        cases first
      exact iff_of_false (Option.some_ne_none _) (by omega)
    | none =>
      have full := left.mp first
      cases hs : take 0 r with
      | some hf =>
        have room : r.inUse ≠ 2 ^ n := fun full => by
          rw [right.mpr full] at hs
          cases hs
        exact iff_of_false (Option.some_ne_none _) (by omega)
      | none =>
        have full' := right.mp hs
        exact iff_of_true rfl (by omega)

end Buddy

end Gevisor.Lib
