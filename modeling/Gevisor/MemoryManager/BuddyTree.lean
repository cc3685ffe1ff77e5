import Mathlib.Data.Nat.Size
import Gevisor.Lib.Buddy
import Gevisor.MemoryManager.BuddyAllocator

/-! # The tree behind the node store

What the nodes of a buddy allocator say is a buddy system. Every function of the allocator does to it what the
name says, whatever nodes an earlier history has left behind below unused blocks.
-/

namespace Gevisor.MemoryManager

open Lib Ept

/-! ## Rounding up -/

/-- Bit `i` of `x` tells whether `n` has one of the `w` bits from `i` on. -/
def Smeared (n w x : Nat) : Prop := ∀ i, x.testBit i = true ↔ ∃ d < w, n.testBit (i + d) = true

theorem smeared_self (n : Nat) : Smeared n 1 n := by
  intro i
  constructor
  · intro set
    exact ⟨0, Nat.one_pos, set⟩
  · rintro ⟨d, hb, set⟩
    cases Nat.lt_one_iff.mp hb
    exact set

variable {n x size o : Nat} {s : Nat → Node}

theorem Smeared.double {w : Nat} (hs : Smeared n w x) : Smeared n (2 * w) (x ||| x >>> w) := by
  intro i
  simp only [Nat.testBit_or, Nat.testBit_shiftRight, Bool.or_eq_true, hs _]
  constructor
  · rintro (⟨d, hb, set⟩ | ⟨d, hb, set⟩)
    · exact ⟨d, by omega, set⟩
    · exact ⟨w + d, by omega, by rw [← Nat.add_assoc, Nat.add_comm i w]; exact set⟩
  · rintro ⟨d, hb, set⟩
    by_cases first : d < w
    · exact .inl ⟨d, first, set⟩
    · exact .inr ⟨d - w, by omega, by rw [show w + i + (d - w) = i + d by omega]; exact set⟩

/-- With all bits smeared, every bit below the topmost one is set. -/
theorem Smeared.eq (hs : Smeared n 64 x) (hbo : n < 2 ^ 64) : x = 2 ^ n.size - 1 := by
  apply Nat.eq_of_testBit_eq
  intro i
  rw [Nat.testBit_two_pow_sub_one, Bool.eq_iff_iff, hs i, decide_eq_true_iff, Nat.lt_size]
  constructor
  · rintro ⟨d, -, set⟩
    exact Nat.le_trans (Nat.pow_le_pow_right (by decide) (Nat.le_add_right i d)) (Nat.ge_two_pow_of_testBit set)
  · intro hl
    obtain ⟨j, upto, set⟩ := Nat.exists_ge_and_testBit_of_ge_two_pow hl
    have hb : j < 64 := by
      by_contra hbe
      have := Nat.ge_two_pow_of_testBit set
      have := Nat.pow_le_pow_right (show 0 < 2 by decide) (Nat.le_of_not_lt hbe)
      omega
    exact ⟨j - i, by omega, by rw [Nat.add_sub_cancel' upto]; exact set⟩

theorem nextPower2_eq (pos : 0 < size) (hbo : size ≤ 2 ^ 63) : nextPower2 size = 2 ^ (size - 1).size := by
  have hst : (size + (2 ^ 64 - 1)) % 2 ^ 64 = size - 1 := by omega
  have word : size - 1 < 2 ^ 64 := by omega
  have hs := ((((((smeared_self (size - 1)).double).double).double).double).double).double.eq word
  have hl : (size - 1).size ≤ 63 := Nat.size_le.mpr (by omega)
  have hu : 2 ^ (size - 1).size ≤ 2 ^ 63 := Nat.pow_le_pow_right (by decide) hl
  have hlo := Nat.two_pow_pos (size - 1).size
  simp only [nextPower2, hst]
  rw [hs]
  omega

/-- The level of the block that is handed out for `size` bytes. -/
def levelFor (size : Nat) : Nat := (max size pageSize - 1).size - 12

theorem le_levelFor (size : Nat) : size ≤ pageSize * 2 ^ levelFor size := by
  have page : pageSize = 2 ^ 12 := rfl
  have hl : 12 ≤ (max size pageSize - 1).size := Nat.lt_size.mpr (by omega)
  have hu : max size pageSize - 1 < 2 ^ (max size pageSize - 1).size := Nat.lt_size_self _
  have hwh : pageSize * 2 ^ levelFor size = 2 ^ (max size pageSize - 1).size := by
    rw [levelFor, ← Nat.add_sub_cancel' hl, Nat.pow_add, Nat.add_sub_cancel' hl]
    rfl
  rw [hwh]
  omega

theorem nextPower2_page {k : Nat} (fits : size ≤ pageSize * 2 ^ k) (hbo : pageSize * 2 ^ k ≤ 2 ^ 63) :
    nextPower2 (max size pageSize) = pageSize * 2 ^ levelFor size ∧ levelFor size ≤ k := by
  have page : pageSize = 2 ^ 12 := rfl
  have hu : max size pageSize ≤ pageSize * 2 ^ k := Nat.max_le.mpr ⟨fits, Nat.le_mul_of_pos_right _ (Nat.two_pow_pos k)⟩
  have hl : 12 ≤ (max size pageSize - 1).size := Nat.lt_size.mpr (by omega)
  have hle : (max size pageSize - 1).size ≤ 12 + k := by
    refine Nat.size_le.mpr ?_
    rw [Nat.pow_add, ← page]
    omega
  constructor
  · rw [nextPower2_eq (by omega) (by omega), levelFor]
    nth_rewrite 2 [page]
    rw [← Nat.pow_add, Nat.add_sub_cancel' hl]
  · rw [levelFor]
    omega

/-! ## Nodes -/

/-- What a node says about its block: `2 ^ n` pages from `o` on. -/
structure Describes (node : Node) (n o : Nat) (kind : Kind) : Prop where
  ptr : node.ptr = o
  size : node.getSize = pageSize * 2 ^ n
  is : ∀ k, node.is k = decide (k = kind)

theorem Describes.set {node : Node} {kind : Kind} (hd : Describes node n o kind) (kind' : Kind) :
    Describes (node.set kind') n o kind' where
  ptr := hd.ptr
  size := by
    rw [← hd.size]
    exact congrArg BitVec.toNat (getBits_setBits (by decide) node.size kind'.bits)
  is k := by
    rw [Node.is, Node.set, getBits_setBits_same]
    cases k <;> cases kind' <;> rfl

theorem getSize_ofNat {node : Node} (word : node.size = BitVec.ofNat 64 size) (hs : size < 2 ^ 60) :
    node.getSize = size := by
  have mask : sizeMask.toNat = 2 ^ 60 - 1 := by decide
  rw [Node.getSize, getBits, word, BitVec.toNat_and, BitVec.toNat_ofNat, mask, Nat.and_two_pow_sub_one_eq_mod,
    Nat.mod_eq_of_lt (show size < 2 ^ 64 by omega), Nat.mod_eq_of_lt hs]

/-- The sizes in use leave the bits for the type clear. -/
theorem is_ofNat {node : Node} (word : node.size = BitVec.ofNat 64 size) (hs : size < 2 ^ 60)
    (kind : Kind) : node.is kind = decide (kind = .unused) := by
  have clear : getBits node.size kindMask = 0 := by
    have mask : kindMask = 3#64 <<< 62 := by decide
    rw [getBits, word, mask]
    apply BitVec.eq_of_getLsbD_eq
    intro i hbo
    rw [BitVec.getLsbD_and, BitVec.getLsbD_ofNat, BitVec.getLsbD_shiftLeft]
    by_cases low : i < 62
    · simp [low]
    · have high : size.testBit i = false :=
        Nat.testBit_lt_two_pow (Nat.lt_of_lt_of_le hs (Nat.pow_le_pow_right (by decide) (by omega)))
      simp [high]
  rw [Node.is, clear]
  cases kind <;> rfl

theorem describes_ofNat {node : Node} (ptr : node.ptr = o)
    (word : node.size = BitVec.ofNat 64 (pageSize * 2 ^ n)) (hs : pageSize * 2 ^ n < 2 ^ 60) :
    Describes node n o .unused :=
  ⟨ptr, getSize_ofNat word hs, is_ofNat word hs⟩

/-- The type of a node whose block is divided like `t`. -/
def kindOf {n : Nat} : Buddy n → Kind
  | .free => .unused
  | .used => .leaf
  | .split l r => if l.isFull && r.isFull then .full else .parent

section

variable {node : Node} {n o : Nat} {t : Buddy n}

theorem Describes.taken (hd : Describes node n o (kindOf t)) : (node.isLeaf || node.isFull) = t.isFull := by
  rw [Node.isLeaf, Node.isFull, hd.is, hd.is]
  cases t with
  | free => rfl
  | used => rfl
  | split l r =>
    by_cases full : (l.isFull && r.isFull) = true <;> simp [kindOf, Buddy.isFull, full]

theorem Describes.unused (hd : Describes node n o (kindOf t)) : node.isUnused = t.isFree := by
  rw [Node.isUnused, hd.is]
  cases t with
  | free => rfl
  | used => rfl
  | split l r =>
    by_cases full : (l.isFull && r.isFull) = true <;> simp [kindOf, Buddy.isFree, full]

theorem Describes.leaf (hd : Describes node n o (kindOf t)) : node.isLeaf = true ↔ t = .used := by
  rw [Node.isLeaf, hd.is]
  cases t with
  | free => simp [kindOf]
  | used => simp [kindOf]
  | split l r =>
    by_cases full : (l.isFull && r.isFull) = true <;> simp [kindOf, full]

end

/-! ## Which nodes a tree has -/

/-- A node without children, or with two. -/
inductive Layout : Nat → Type
  | tip {n : Nat} (i : Nat) : Layout n
  | fork {n : Nat} (i : Nat) (left right : Layout n) : Layout (n + 1)

namespace Layout

def node {n : Nat} : Layout n → Nat
  | .tip i => i
  | .fork i _ _ => i

def nodes : {n : Nat} → Layout n → List Nat
  | _, .tip i => [i]
  | _, .fork i l r => i :: (l.nodes ++ r.nodes)

/-- How many nodes the tree can still get. -/
def missing : {n : Nat} → Layout n → Nat
  | n, .tip _ => 2 ^ (n + 1) - 2
  | _, .fork _ l r => l.missing + r.missing

theorem node_mem {n : Nat} (lay : Layout n) : lay.node ∈ lay.nodes := by
  cases lay <;> simp [node, nodes]

theorem length_nodes {n : Nat} (lay : Layout n) : lay.nodes.length + lay.missing = 2 ^ (n + 1) - 1 := by
  induction lay with
  | @tip n i =>
    have := Nat.two_pow_pos n
    simp only [nodes, missing, List.length_singleton, Nat.two_pow_succ n]
    omega
  | @fork n i l r ihl ihr =>
    have := Nat.two_pow_pos (n + 1)
    simp only [nodes, missing, List.length_cons, List.length_append, Nat.two_pow_succ (n + 1)]
    omega

theorem nodup_fork {n i : Nat} {l r : Layout n} (hn : i ∉ l.nodes) (hno : i ∉ r.nodes)
    (left : l.nodes.Nodup) (right : r.nodes.Nodup) (hap : ∀ j ∈ l.nodes, j ∉ r.nodes) :
    (fork i l r).nodes.Nodup := by
  simp only [nodes, List.nodup_cons, List.mem_append, not_or]
  exact ⟨⟨hn, hno⟩, List.Nodup.append left right fun j => hap j⟩

end Layout

/-- The nodes of `lay` describe the blocks of `t`, which starts at address `o`. Below a block that is not divided
all nodes are unused. -/
def Rep (s : Nat → Node) : {n : Nat} → Layout n → Buddy n → Nat → Prop
  | n, .tip i, t, o =>
    Describes (s i) n o (kindOf t) ∧ (s i).child0 = none ∧ (t = .free ∨ t = .used)
  | _, @Layout.fork n i l r, t, o =>
    Describes (s i) (n + 1) o (kindOf t) ∧ (s i).child0 = some l.node ∧ (s i).child1 = some r.node ∧
      Rep s l t.left o ∧ Rep s r t.right (o + pageSize * 2 ^ n)

theorem Rep.describes {lay : Layout n} {t : Buddy n} (rep : Rep s lay t o) :
    Describes (s lay.node) n o (kindOf t) := by
  cases lay <;> exact rep.1

theorem Rep.congr {s' : Nat → Node} {lay : Layout n} {t : Buddy n} (rep : Rep s lay t o)
    (same : ∀ i ∈ lay.nodes, s' i = s i) : Rep s' lay t o := by
  induction lay generalizing o with
  | tip i =>
    simp only [Rep, same i (List.mem_singleton_self i)] at rep ⊢
    exact rep
  | fork i l r ihl ihr =>
    obtain ⟨hd, hc, hch, left, right⟩ := rep
    have here := same i List.mem_cons_self
    refine ⟨by rw [here]; exact hd, by rw [here]; exact hc, by rw [here]; exact hch, ?_, ?_⟩
    · exact ihl left fun i mem => same i (List.mem_cons_of_mem _ (List.mem_append_left _ mem))
    · exact ihr right fun i mem => same i (List.mem_cons_of_mem _ (List.mem_append_right _ mem))

end Gevisor.MemoryManager
