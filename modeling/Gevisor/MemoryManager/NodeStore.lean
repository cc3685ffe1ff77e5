import Gevisor.MemoryManager.BuddySystem

/-! # The node store

Which part of the buffer each node stands for, and that a node which has been taken stands for it ever after.
-/

namespace Gevisor.MemoryManager

open Lib

/-! ## Nodes and intervals -/

/-- Start and length of the block of a node. -/
def Node.interval (node : Node) : Nat × Nat := (node.ptr, node.getSize)

/-- Some `2 ^ n` pages of `2 ^ k` pages from `b` on, at a multiple of their own length. -/
def Dyadic (b k : Nat) (interval : Nat × Nat) : Prop :=
  ∃ n m, n ≤ k ∧ (m + 1) * 2 ^ n ≤ 2 ^ k ∧ interval = (b + m * (pageSize * 2 ^ n), pageSize * 2 ^ n)

namespace Dyadic

variable {b k : Nat} {interval : Nat × Nat}

theorem whole (b k : Nat) : Dyadic b k (b, pageSize * 2 ^ k) :=
  ⟨k, 0, Nat.le_refl k, by omega, by rw [Nat.zero_mul, Nat.add_zero]⟩

theorem left (hd : Dyadic b k interval) : Dyadic b (k + 1) interval := by
  obtain ⟨n, m, hs, hi, same⟩ := hd
  refine ⟨n, m, Nat.le_succ_of_le hs, ?_, same⟩
  rw [Nat.two_pow_succ]
  omega

theorem right (hd : Dyadic (b + pageSize * 2 ^ k) k interval) : Dyadic b (k + 1) interval := by
  obtain ⟨n, m, hs, hi, same⟩ := hd
  have half : 2 ^ (k - n) * 2 ^ n = 2 ^ k := by rw [← Nat.pow_add, Nat.sub_add_cancel hs]
  refine ⟨n, 2 ^ (k - n) + m, Nat.le_succ_of_le hs, ?_, ?_⟩
  · rw [Nat.add_assoc, Nat.add_mul, half, Nat.two_pow_succ]
    omega
  · rw [same, Nat.add_mul, Nat.mul_left_comm (2 ^ (k - n)), half, Nat.add_assoc]

theorem bounds (hd : Dyadic b k interval) :
    0 < interval.2 ∧ b ≤ interval.1 ∧ interval.1 + interval.2 ≤ b + pageSize * 2 ^ k ∧ interval.2 ≤ pageSize * 2 ^ k := by
  obtain ⟨n, m, hsm, hi, rfl⟩ := hd
  have size : 0 < pageSize * 2 ^ n := Nat.mul_pos (by decide) (Nat.two_pow_pos n)
  have hs := Nat.mul_le_mul_left pageSize hi
  rw [Nat.mul_left_comm, Nat.add_mul, Nat.one_mul] at hs
  refine ⟨size, Nat.le_add_right _ _, ?_, ?_⟩
  · simp only
    omega
  · exact Nat.mul_le_mul_left _ (Nat.pow_le_pow_right (by decide) hsm)

end Dyadic

theorem Describes.interval {node : Node} {n o : Nat} {kind : Kind} (hd : Describes node n o kind) :
    node.interval = (o, pageSize * 2 ^ n) := by
  rw [Node.interval, hd.ptr, hd.size]

theorem interval_set (kind : Kind) (node : Node) : (node.set kind).interval = node.interval :=
  congrArg (node.ptr, ·) (congrArg BitVec.toNat (Ept.getBits_setBits (by decide) node.size kind.bits))

section

variable {s : Nat → Node} {n : Nat} {lay : Layout n} {t : Buddy n} {o : Nat}

theorem Rep.dyadic (rep : Rep s lay t o) : ∀ i ∈ lay.nodes, Dyadic o n (s i).interval := by
  induction lay generalizing o with
  | tip i =>
    intro j mem
    rw [List.mem_singleton.mp mem, rep.1.interval]
    exact .whole _ _
  | fork i l r ihl ihr =>
    obtain ⟨describes, -, -, left, right⟩ := rep
    intro j mem
    simp only [Layout.nodes, List.mem_cons, List.mem_append] at mem
    obtain rfl | inLeft | inRight := mem
    · rw [describes.interval]
      exact .whole _ _
    · exact (ihl left j inLeft).left
    · exact (ihr right j inRight).right

/-- A node is larger than those below it, and the halves have no byte in common. -/
theorem Rep.distinct (rep : Rep s lay t o) :
    ∀ i ∈ lay.nodes, ∀ j ∈ lay.nodes, (s i).interval = (s j).interval → i = j := by
  induction lay generalizing o with
  | tip i =>
    intro j inFirst j' inSecond _
    rw [List.mem_singleton.mp inFirst, List.mem_singleton.mp inSecond]
  | @fork n i l r ihl ihr =>
    obtain ⟨describes, -, -, left, right⟩ := rep
    have here := describes.interval
    have size : 0 < pageSize * 2 ^ n := Nat.mul_pos (by decide) (Nat.two_pow_pos n)
    have double : pageSize * 2 ^ (n + 1) = pageSize * 2 ^ n + pageSize * 2 ^ n := BuddyAllocator.double_size n
    have smaller (j : Nat) (mem : j ∈ l.nodes ∨ j ∈ r.nodes) : (s j).interval ≠ (s i).interval := by
      intro same
      have length := congrArg Prod.snd (same.trans here)
      cases mem with
      | inl inLeft => have := (left.dyadic j inLeft).bounds; simp only at length; omega
      | inr inRight => have := (right.dyadic j inRight).bounds; simp only at length; omega
    have apart (j j' : Nat) (inLeft : j ∈ l.nodes) (inRight : j' ∈ r.nodes) : (s j).interval ≠ (s j').interval := by
      intro same
      have before := (left.dyadic j inLeft).bounds
      have after := (right.dyadic j' inRight).bounds
      rw [same] at before
      omega
    intro j first j' second same
    simp only [Layout.nodes, List.mem_cons, List.mem_append] at first second
    obtain rfl | inLeft | inRight := first
    · obtain rfl | below := second
      · rfl
      · exact absurd same.symm (smaller j' below)
    · obtain rfl | inLeft' | inRight' := second
      · exact absurd same (smaller j (.inl inLeft))
      · exact ihl left j inLeft j' inLeft' same
      · exact absurd same (apart j j' inLeft inRight')
    · obtain rfl | inLeft' | inRight' := second
      · exact absurd same (smaller j (.inr inRight))
      · exact absurd same.symm (apart j' j inLeft' inRight)
      · exact ihr right j inRight j' inRight' same

end

namespace BuddyAllocator

variable {a : BuddyAllocator} {n : Nat} {lay : Layout n} {t : Buddy n} {o : Nat}

/-- Without room for more nodes than the tree can have, all nodes that have been taken are in it. -/
theorem Holds.covers (hh : Holds a lay t o) (room : a.room = 2 ^ (n + 1) - 1) {i : Nat} (htk : i < a.nodeIndex) :
    i ∈ lay.nodes := by
  have hl := lay.length_nodes
  have hsp := hh.room
  have hs : lay.nodes.toFinset ⊆ Finset.range a.nodeIndex := by
    intro j mem
    exact Finset.mem_range.mpr (hh.below j (List.mem_toFinset.mp mem))
  have card : (Finset.range a.nodeIndex).card ≤ lay.nodes.toFinset.card := by
    rw [Finset.card_range, List.toFinset_card_of_nodup hh.nodup]
    omega
  have all := Finset.eq_of_subset_of_card_le hs card
  rw [← List.mem_toFinset, all]
  exact Finset.mem_range.mpr htk

/-! ## What has been taken stays -/

/-- The nodes that `a₀` has taken are still for the same blocks in `a`. -/
structure Since (a₀ a : BuddyAllocator) : Prop where
  room : a.room = a₀.room
  index : a₀.nodeIndex ≤ a.nodeIndex
  kept : ∀ i < a₀.nodeIndex, (a.nodes i).interval = (a₀.nodes i).interval

variable {a₀ : BuddyAllocator}

theorem Since.refl (a : BuddyAllocator) : Since a a := ⟨rfl, Nat.le_refl _, fun _ _ => rfl⟩

theorem Since.write (hs : Since a₀ a) {i : Nat} {node : Node}
    (same : i < a₀.nodeIndex → node.interval = (a.nodes i).interval) : Since a₀ (writeNode i node a) where
  room := hs.room
  index := hs.index
  kept j ht := by
    by_cases here : j = i
    · subst here
      rw [writeNode_same, same ht]
      exact hs.kept j ht
    · rw [writeNode_other here]
      exact hs.kept j ht

variable (fuel ptr i : Nat)

theorem since_modifyNode {f : Node → Node} (same : ∀ node, (f node).interval = node.interval) :
    Preserves (Since a₀) (modifyNode i f) :=
  fun _ hs => hs.write fun _ => same _

theorem since_deref (child : Option Nat) : Preserves (Since a₀) (deref child) := by
  cases child with
  | none => exact .throw _
  | some i => exact .pure i

theorem since_getNode : Preserves (Since a₀) (getNode i) := fun _ hs => hs

/-- A new node is none of those that had been taken. -/
theorem since_nextNode (hs : Since a₀ a) :
    wp nextNode (fun i b => a₀.nodeIndex ≤ i ∧ Since a₀ b) (fun _ b => Since a₀ b) a := by
  have next : Since a₀ { a with nodeIndex := a.nodeIndex + 1 } := ⟨hs.room, Nat.le_succ_of_le hs.index, hs.kept⟩
  simp only [nextNode, wp_bind, wp_get, wp_modify]
  rw [wp_ite, wp_ite]
  split
  · exact next
  · split
    · exact next
    · exact ⟨hs.index, next⟩

theorem since_getNodes : Preserves (Since a₀) (getNodes i) := by
  intro a hs
  simp only [getNodes, wp_bind]
  refine wp_mono ?_ (fun _ _ htn => htn) (since_nextNode hs)
  rintro child0 b ⟨new0, hs⟩
  refine wp_mono ?_ (fun _ _ htn => htn) (since_nextNode hs)
  rintro child1 c ⟨new1, hs⟩
  simp only [wp_getNode, wp_modifyNode]
  refine ((hs.write ?_).write ?_).write ?_
  · intro htk
    omega
  · intro htk
    omega
  · intro _
    rfl

theorem since_markAllocated : Preserves (Since a₀) (markAllocated i) :=
  .bind (since_modifyNode i (interval_set _)) fun _ => .bind (since_getNode i) fun _ =>
    .bind (since_deref _) fun _ => .bind (since_getNode _) fun _ =>
    .bind (since_deref _) fun _ => .bind (since_getNode _) fun _ =>
    .ite (fun _ => since_modifyNode i (interval_set _)) fun _ => .pure _

theorem since_markDeallocated : Preserves (Since a₀) (markDeallocated i) :=
  .bind (since_modifyNode i (interval_set _)) fun _ => .bind (since_getNode i) fun _ =>
    .bind (since_deref _) fun _ => .bind (since_getNode _) fun _ =>
    .bind (since_deref _) fun _ => .bind (since_getNode _) fun _ =>
    .ite (fun _ => since_modifyNode i (interval_set _)) fun _ => .pure _

theorem since_tryChild {next : Nat → Nat → BuddyM Nat} {size : Nat} (hkp : ∀ i, Preserves (Since a₀) (next size i))
    (node child : Nat) : Preserves (Since a₀) (tryChild next size node child) :=
  .bind (since_getNode child) fun _ => .ite
    (fun _ => .bind (hkp child) fun _ => .ite (fun _ => .bind (since_markAllocated node) fun _ => .pure _) fun _ =>
      .pure _)
    fun _ => .pure _

theorem since_privateAllocate (size i : Nat) : Preserves (Since a₀) (privateAllocate fuel size i) := by
  induction fuel generalizing i with
  | zero => exact .throw _
  | succ fuel ih =>
    have hc : Preserves (Since a₀) (do
        let node ← getNode i
        let ptr ← tryChild (privateAllocate fuel) size i (← deref node.child0)
        if ptr ≠ 0 then pure ptr
        else tryChild (privateAllocate fuel) size i (← deref node.child1)) :=
      .bind (since_getNode i) fun _ => .bind (since_deref _) fun child0 => .bind (since_tryChild ih i child0) fun _ =>
        .ite (fun _ => .pure _) fun _ => .bind (since_deref _) fun child1 => since_tryChild ih i child1
    refine .bind (since_getNode i) fun node => .ite (fun _ => .pure _) fun _ => .ite (fun _ => .ite ?_ ?_) fun _ => ?_
    · exact fun _ => .bind (since_modifyNode i (interval_set _)) fun _ => .pure _
    · exact fun _ => .pure _
    · exact .ite (fun _ => .bind (since_getNodes i) fun _ => hc) fun _ => hc

theorem since_allocate (size : Nat) : Preserves (Since a₀) (allocate size) :=
  .bind .get fun _ => .ite (fun _ => .throw _) fun _ => .bind (since_privateAllocate _ _ _) fun _ =>
    .ite (fun _ => .pure _) fun _ => .throw _

theorem since_childFor (node : Node) : Preserves (Since a₀) (childFor ptr node) :=
  .bind (since_deref _) fun _ => .bind (since_getNode _) fun _ => .ite (fun _ => .pure _) fun _ => since_deref _

theorem since_privateDeallocate : Preserves (Since a₀) (privateDeallocate fuel ptr i) := by
  induction fuel generalizing i with
  | zero => exact .throw _
  | succ fuel ih =>
    refine .bind (since_getNode i) fun node => .ite ?_ fun _ => .ite (fun _ => .pure _) fun _ => ?_
    · exact fun _ => .bind (since_modifyNode i (interval_set _)) fun _ => .pure _
    · refine .bind (since_childFor ptr node) fun child => .bind (ih child) fun _ => .ite ?_ fun _ => .pure _
      exact fun _ => .bind (since_markDeallocated i) fun _ => .pure _

theorem since_deallocate : Preserves (Since a₀) (deallocate ptr) :=
  .bind .get fun _ => .ite (fun _ => .pure _) fun _ => .bind (since_privateDeallocate _ _ _) fun _ => .pure _

/-- However the client goes on, and whatever it asks for. -/
theorem since_step (s : Client) (call : Call) (s' : Client) (hs : Since a₀ s.allocator)
    (next : s.step call = some s') : Since a₀ s'.allocator := by
  cases call with
  | allocate size =>
    have hkp := since_allocate size s.allocator hs
    simp only [Client.step] at next
    simp only [wp] at hkp
    cases hres : allocate size s.allocator with
    | ok ptr a =>
      rw [hres] at hkp next
      cases next
      exact hkp
    | error e a =>
      rw [hres] at hkp next
      cases e with
      | badAlloc =>
        cases next
        exact hkp
      | runtimeError | failFast | nullDereference | overrun | unbounded => cases next
  | deallocate ptr =>
    have hkp := since_deallocate ptr s.allocator hs
    simp only [Client.step] at next
    simp only [wp] at hkp
    split at next
    · cases hres : deallocate ptr s.allocator with
      | ok done a =>
        rw [hres] at hkp next
        cases next
        exact hkp
      | error e a =>
        rw [hres] at next
        cases next
    · cases next

end BuddyAllocator

end Gevisor.MemoryManager
