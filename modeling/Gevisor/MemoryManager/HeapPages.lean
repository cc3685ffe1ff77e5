import Gevisor.MemoryManager.BuddySystem
import Gevisor.MemoryManager.Heap
import Gevisor.MemoryManager.ObjectStacks

/-! # The page pool as a source of pages

Slabs take pages from the page pool while others hold pages of it, too.
-/

namespace Gevisor.MemoryManager

open Lib BuddyAllocator

namespace BuddyAllocator

variable {a : BuddyAllocator} {b k : Nat} {t t' : Buddy k}

/-- The blocks in use, with their place in the buffer. -/
def blocksAt (b : Nat) (t : Buddy k) : List Block := (t.blocks 0).map fun u => ⟨b + pageSize * u.1, pageSize * 2 ^ u.2⟩

theorem blocksAt_apart (b : Nat) (t : Buddy k) : (blocksAt b t).Pairwise Block.Apart := by
  refine List.pairwise_map.mpr ((Buddy.blocks_ordered t 0).imp ?_)
  intro u v hbe
  have hs := Nat.mul_le_mul_left pageSize hbe
  rw [Nat.mul_add] at hs
  simp only [Block.Apart]
  omega

theorem blocksAt_inside {x : Block} (hm : x ∈ blocksAt b t) : x.Inside ⟨b, pageSize * 2 ^ k⟩ := by
  obtain ⟨u, unit, rfl⟩ := List.mem_map.mp hm
  have hi := Nat.mul_le_mul_left pageSize (Buddy.block_inside t unit).2.1
  rw [Nat.mul_add, Nat.zero_add] at hi
  simp only [Block.Inside]
  omega

theorem blocksAt_take {j q : Nat} (htk : t.take j = some (q, t')) :
    (blocksAt b t').Perm (⟨b + pageSize * q, pageSize * 2 ^ j⟩ :: blocksAt b t) := by
  have perm := (Buddy.blocks_take htk 0).map fun u : Nat × Nat => (⟨b + pageSize * u.1, pageSize * 2 ^ u.2⟩ : Block)
  rw [List.map_cons, Nat.zero_add] at perm
  exact perm

/-- A block in use can be given back. -/
theorem blocksAt_give {x : Block} {rest : List Block} (hb : (blocksAt b t).Perm (x :: rest)) :
    ∃ t', t.give (pageAt b x.start) = some t' ∧ (blocksAt b t').Perm rest := by
  obtain ⟨⟨i, j⟩, unit, rfl⟩ := List.mem_map.mp (hb.mem_iff.mpr List.mem_cons_self)
  obtain ⟨t', hgi, perm⟩ := Buddy.give_block (o := 0) (i := i) (by rw [Nat.zero_add]; exact unit)
  refine ⟨t', by rw [Client.pageAt_place]; exact hgi, ?_⟩
  have kept := perm.map fun u : Nat × Nat => (⟨b + pageSize * u.1, pageSize * 2 ^ u.2⟩ : Block)
  rw [Nat.zero_add, List.map_cons] at kept
  exact (kept.symm.trans hb).cons_inv

/-- The units in use, if all blocks are pages. -/
theorem inUse_of_pages {ps : List Nat} (hb : (blocksAt b t).Perm (ps.map pageBlock)) : t.inUse = ps.length := by
  have hs : ((t.blocks 0).map fun u => 2 ^ u.2) = (t.blocks 0).map fun _ => 1 := by
    refine List.map_congr_left fun u unit => ?_
    have ht := hb.mem_iff.mp (List.mem_map_of_mem (f := fun u : Nat × Nat =>
      (⟨b + pageSize * u.1, pageSize * 2 ^ u.2⟩ : Block)) unit)
    obtain ⟨p, -, same⟩ := List.mem_map.mp ht
    have hl : pageSize = pageSize * 2 ^ u.2 := (Block.mk.inj same).2
    exact Nat.eq_of_mul_eq_mul_left (show 0 < pageSize by decide) (by omega)
  have hc := hb.length_eq
  rw [blocksAt, List.length_map, List.length_map] at hc
  rw [← Buddy.sum_blocks t 0, hs, List.map_const', List.sum_replicate_nat, Nat.mul_one, hc]

theorem levelFor_page : levelFor pageSize = 0 := by decide

/-- The pool hands out `n` pages one after the other. -/
def Supplies : Nat → BuddyAllocator → Prop
  | 0, _ => True
  | n + 1, a => match allocate pageSize a with
    | .ok _ a' => Supplies n a'
    | .error _ _ => False

theorem inUse_take {q : Nat} (htk : t.take 0 = some (q, t')) : t'.inUse = t.inUse + 1 := by
  have sum := ((Buddy.blocks_take htk 0).map fun u => 2 ^ u.2).sum_nat
  rw [List.map_cons, List.sum_cons, Buddy.sum_blocks, Buddy.sum_blocks] at sum
  simp only [Nat.pow_zero] at sum
  omega

/-- It does as long as so many are not in use. -/
theorem supplies_iff (htr : Tracks a b k t) (n : Nat) : Supplies n a ↔ t.inUse + n ≤ 2 ^ k := by
  induction n generalizing a t with
  | zero => exact iff_of_true trivial t.inUse_le
  | succ n ih =>
    have hbo := t.inUse_le
    have fits := Nat.mul_le_mul_left pageSize (Nat.two_pow_pos k)
    have spec := allocate_spec htr pageSize
    rw [if_neg (by simp only [pageSize] at *; omega), levelFor_page] at spec
    rw [Supplies]
    cases htk : t.take 0 with
    | none =>
      rw [htk] at spec
      have full := t.take_zero_eq_none_iff.mp htk
      rw [spec]
      exact iff_of_false id (by omega)
    | some hf =>
      rw [htk] at spec
      obtain ⟨a', hret, htr'⟩ := spec
      have more := inUse_take htk
      rw [hret]
      simp only
      rw [ih htr']
      omega

-- Evaluating the pool is never what is wanted.
attribute [irreducible] Supplies

end BuddyAllocator

/-! ## Pages for slabs -/

namespace PageMemory

variable {b : Nat} {t : Buddy poolK} {pm : PageMemory}

/-- A page from the pool, or the null pointer. -/
theorem allocPage_spec (htr : Tracks pm.pool b poolK t) : match t.take 0 with
    | none => allocPage pm = .ok 0 pm
    | some (q, t') => ∃ a, allocPage pm = .ok (b + pageSize * q) { pm with pool := a } ∧ Tracks a b poolK t' := by
  have spec := allocate_spec htr pageSize
  rw [if_neg (by decide), levelFor_page] at spec
  cases htk : t.take 0 with
  | none =>
    rw [htk] at spec
    simp only [allocPage, orNull, onPool, zoom, spec]
    rfl
  | some hf =>
    rw [htk] at spec
    obtain ⟨a, hret, htr'⟩ := spec
    refine ⟨a, ?_, htr'⟩
    simp only [allocPage, orNull, onPool, zoom, hret]

/-- The slab owns pages `ps`, others hold `others`. Memory has changed in the pages it has got since it owned `old`
and nowhere else. -/
def Serves (b : Nat) (others old : List Nat) (memory : Nat → BitVec 8) (pm : PageMemory) (ps : List Nat) : Prop :=
  ∃ (t : Buddy poolK) (fresh : List Nat), Tracks pm.pool b poolK t ∧
    (blocksAt b t).Perm ((others ++ ps).map pageBlock) ∧ ps.Perm (fresh ++ old) ∧
    ∀ a, (∀ p ∈ fresh, ¬ (pageBlock p).Has a) → pm.memory a = memory a

theorem serves_apart {others old ps : List Nat} {memory : Nat → BitVec 8} (hs : Serves b others old memory pm ps) :
    ((others ++ ps).map pageBlock).Pairwise Block.Apart := by
  obtain ⟨t, -, -, hb, -⟩ := hs
  exact (hb.pairwise_iff Block.Apart.symm).mp (blocksAt_apart b t)

/-- The page pool is a source of pages until all of its pages are in use. -/
theorem pool_source (b : Nat) (others old : List Nat) (memory : Nat → BitVec 8) :
    PageSource allocPageCleared (Serves b others old memory) fun n => others.length + n = 2 ^ poolK where
  alloc {pm ps} hs := by
    obtain ⟨t, hfr, htr, hb, split, kept⟩ := hs
    have hc := inUse_of_pages hb
    rw [List.length_append] at hc
    have spec := allocPage_spec htr
    have none_iff := t.take_zero_eq_none_iff
    rw [allocPageCleared, wp_bind]
    cases htk : t.take 0 with
    | none =>
      rw [htk] at spec
      rw [wp_of_ok spec, if_pos rfl, wp_throw]
      exact ⟨rfl, by rw [← hc]; exact none_iff.mp htk⟩
    | some hf =>
      rw [htk] at spec
      obtain ⟨a, hret, htr'⟩ := spec
      have pos := htr.pos
      rw [wp_of_ok hret, if_neg (by omega), wp_bind, wp_modify, wp_pure]
      refine ⟨by omega, ?_, hf.2, (b + pageSize * hf.1) :: hfr, htr', ?_, split.cons _, ?_⟩
      · intro full
        rw [none_iff.mpr (by omega)] at htk
        cases htk
      · refine (blocksAt_take htk).trans (.trans (hb.cons _) ?_)
        rw [List.map_append, List.map_append, List.map_cons]
        exact List.perm_middle.symm
      · intro x hout
        have first : ¬ (b + pageSize * hf.1 ≤ x ∧ x < b + pageSize * hf.1 + pageSize) := hout _ List.mem_cons_self
        simp only [memset]
        rw [if_neg first]
        exact kept x fun p hm => hout p (List.mem_cons_of_mem _ hm)
  perm same hs := by
    obtain ⟨t, hfr, htr, hb, split, kept⟩ := hs
    exact ⟨t, hfr, htr, hb.trans ((same.append_left others).map _), same.symm.trans split, kept⟩
  apart hs := by
    have hap := serves_apart hs
    rw [List.map_append] at hap
    exact (List.pairwise_append.mp hap).2.1

end PageMemory

end Gevisor.MemoryManager
