import Gevisor.MemoryManager.NodeStore
import Gevisor.Verified.BuddyAllocation

/-! # The node store does not overflow

The allocator's own bounds check takes the bytes of the node tree for nodes. What keeps it inside the tree is that no
block of the buffer ever gets a second node.
-/

namespace Gevisor.Verified.NodeStore

open Lib MemoryManager MemoryManager.BuddyAllocator MemoryManager.Client BuddyAllocation

variable {s : Client} {b k : Nat} {t : Buddy k}

variable {a : BuddyAllocator}

/-- The nodes are inside the tree, each one for a block of its own. -/
structure Stored (b k : Nat) (s : Client) : Prop where
  index : s.allocator.nodeIndex ≤ 2 ^ (k + 1) - 1
  /-- No call ends in an access past the end. -/
  answered : ∀ call, (∀ ptr, call = .deallocate ptr → ptr ∈ s.live.map Grant.ptr) → ∃ s', s.step call = some s'
  dyadic : ∀ i < s.allocator.nodeIndex, Dyadic b k (s.allocator.nodes i).interval
  distinct : ∀ i < s.allocator.nodeIndex, ∀ j < s.allocator.nodeIndex,
    (s.allocator.nodes i).interval = (s.allocator.nodes j).interval → i = j
  /-- The next nodes have not been written to. -/
  fresh : ∀ i, s.allocator.nodeIndex ≤ i → s.allocator.nodes i = .zero
  /-- Those that have been initialised are not initialised again, and no index is taken again. -/
  once : ∀ calls s', run Client.step s calls = some s' → Since s.allocator s'.allocator

theorem nodeTreeSize_eq (hbo : b + pageSize * 2 ^ k < 2 ^ 64) : nodeTreeSize k = (2 ^ (k + 1) - 1) * nodeSize := by
  have hs : (2 ^ (k + 1) - 1) * nodeSize < 2 ^ 64 := by
    rw [show pageSize = 4096 from rfl] at hbo
    rw [show nodeSize = 32 from rfl, Nat.two_pow_succ]
    omega
  rw [nodeTreeSize, ← Nat.pow_succ', Nat.mod_eq_of_lt hs]

theorem room_boot (hbo : b + pageSize * 2 ^ k < 2 ^ 64) : (boot b k).allocator.room = 2 ^ (k + 1) - 1 := by
  show nodeTreeSize k / nodeSize = _
  rw [nodeTreeSize_eq hbo, Nat.mul_div_cancel _ (by decide)]

theorem stored_of_follows (hfl : Follows s b k t) (room : s.allocator.room = 2 ^ (k + 1) - 1) : Stored b k s := by
  obtain ⟨lay, -, hh⟩ := hfl.tracks.holds
  have hc (i : Nat) (htk : i < s.allocator.nodeIndex) : i ∈ lay.nodes := hh.covers room htk
  refine ⟨?_, ?_, ?_, ?_, hh.fresh, ?_⟩
  · have := hh.room
    omega
  · intro call hpp
    obtain ⟨s', -, next, -⟩ := hfl.step call hpp
    exact ⟨s', next⟩
  · exact fun i htk => hh.rep.dyadic i (hc i htk)
  · exact fun i htk j htk' => hh.rep.distinct i (hc i htk) j (hc j htk')
  · intro calls s' hre
    exact run_preserves (I := fun t => s.allocator.Since t.allocator) since_step (.refl _) hre

/-- The node store is safe in every state that calls lead to exactly if the buffer is smaller than 2⁶⁰ bytes. -/
theorem node_store_iff (b k : Nat) (pos : 0 < b) (bound : b + pageSize * 2 ^ k < 2 ^ 64) :
    (nodeTreeSize k = (2 ^ (k + 1) - 1) * nodeSize ∧
      ∀ (calls : List Call) (s : Client), run Client.step (boot b k) calls = some s → Stored b k s) ↔ k < 48 := by
  constructor
  · rintro ⟨-, stored⟩
    by_contra large
    -- The size of the whole buffer reads back as zero.
    have root := (stored [] (boot b k) rfl).dyadic 0 Nat.one_pos
    have size : ((boot b k).allocator.nodes 0).interval.2 = 0 := (construct_blank bound (Nat.le_of_not_lt large)).size 0
    exact Nat.ne_of_gt root.bounds.1 size
  · intro small
    refine ⟨nodeTreeSize_eq bound, fun calls s reach => ?_⟩
    have room := (run_preserves since_step (.refl (boot b k).allocator) reach).room
    cases follows_or_idle pos bound reach with
    | inl follows =>
      obtain ⟨-, t, follows⟩ := follows
      exact stored_of_follows follows (room.trans (room_boot bound))
    | inr large => omega

/-- Two pages of a buffer of four, and the first of them given back. -/
theorem node_store_16k : ∃ s, run Client.step (boot 4096 2) [.allocate 1, .allocate 1, .deallocate 4096] = some s ∧
      s.allocator.nodeIndex = 5 ∧ Stored 4096 2 s := by
  have taken : (run Client.step (boot 4096 2) [.allocate 1, .allocate 1, .deallocate 4096]).map
      (fun s => s.allocator.nodeIndex) = some 5 := by decide +kernel
  obtain ⟨s, reach, index⟩ := Option.map_eq_some_iff.mp taken
  exact ⟨s, reach, index, ((node_store_iff 4096 2 (by decide) (by decide)).mpr (by decide)).2 _ s reach⟩

/-! ## Sizes that do not fit -/

/-- A node without a size that is not taken, and zeroed nodes after those in use. -/
structure Sinking (a : BuddyAllocator) (i : Nat) : Prop where
  size : (a.nodes i).getSize = 0
  untaken : ((a.nodes i).isLeaf || (a.nodes i).isFull) = false
  child : (a.nodes i).child0 = none
  taken : i < a.nodeIndex
  fresh : ∀ j, a.nodeIndex ≤ j → a.nodes j = .zero
  view : a.room + 1 < a.nodesView

theorem wp_nextNode_overrun {Q : Nat → BuddyAllocator → Prop} {X : Failure → BuddyAllocator → Prop}
    (full : a.room ≤ a.nodeIndex) (view : a.nodeIndex < a.nodesView) :
    wp nextNode Q X a ↔ X .overrun { a with nodeIndex := a.nodeIndex + 1 } := by
  simp only [nextNode, wp_bind, wp_get, wp_modify]
  rw [if_neg (by omega), if_pos full, wp_throw]

variable {i size : Nat}

/-- The halves of nothing: the next two nodes, which again have no size. -/
theorem sinking_getNodes (hs : Sinking a i) (hw : a.nodeIndex ≤ a.room) : wp (getNodes i)
      (fun _ b => (b.nodes i).child0 = some a.nodeIndex ∧ Sinking b a.nodeIndex ∧ b.room = a.room ∧
        b.nodeIndex = a.nodeIndex + 2 ∧ b.nodeIndex ≤ b.room)
      (fun e b => e = .overrun ∧ a.room < b.nodeIndex) a := by
  have view := hs.view
  simp only [getNodes, wp_bind]
  by_cases last : a.room ≤ a.nodeIndex
  · rw [wp_nextNode_overrun last (by omega)]
    exact ⟨rfl, Nat.lt_succ_of_le last⟩
  · rw [wp_nextNode (by omega) (by omega)]
    by_cases hse : a.room ≤ a.nodeIndex + 1
    · rw [wp_nextNode_overrun (a := { a with nodeIndex := a.nodeIndex + 1 }) hse
        (show a.nodeIndex + 1 < a.nodesView by omega)]
      exact ⟨rfl, Nat.lt_succ_of_le hse⟩
    · rw [wp_nextNode (a := { a with nodeIndex := a.nodeIndex + 1 }) (show a.nodeIndex + 1 < a.room by omega)
        (show a.room ≤ a.nodesView by omega)]
      have htk := hs.taken
      simp only [wp_getNode, wp_modifyNode, hs.size]
      refine ⟨by rw [writeNode_same], ⟨?_, ?_, ?_, ?_, ?_, view⟩, rfl, rfl, ?_⟩
      · rw [writeNode_other (by omega), writeNode_other (by omega), writeNode_same]
        exact getSize_ofNat rfl (by decide)
      · rw [writeNode_other (by omega), writeNode_other (by omega), writeNode_same, Node.isLeaf, Node.isFull,
          is_ofNat rfl (by decide), is_ofNat rfl (by decide)]
        rfl
      · rw [writeNode_other (by omega), writeNode_other (by omega), writeNode_same, hs.fresh _ (Nat.le_refl _)]
        rfl
      · exact Nat.lt_succ_of_lt (Nat.lt_succ_self _)
      · intro j hb
        have hb : a.nodeIndex + 1 + 1 ≤ j := hb
        rw [writeNode_other (by omega), writeNode_other (by omega), writeNode_other (by omega)]
        exact hs.fresh j (by omega)
      · show a.nodeIndex + 1 + 1 ≤ a.room
        omega

/-- No node has the size that is asked for: the search goes down without end, and takes two nodes each time. -/
theorem privateAllocate_overruns (pos : size ≠ 0) (fuel : Nat)
    (hs : Sinking a i) (hw : a.nodeIndex ≤ a.room) (he : a.room < a.nodeIndex + 2 * fuel) :
    wp (privateAllocate fuel size i) (fun _ _ => False) (fun e b => e = .overrun ∧ a.room < b.nodeIndex) a := by
  induction fuel generalizing a i with
  | zero => omega
  | succ fuel ih =>
    rw [privateAllocate, wp_bind, wp_getNode, wp_ite, if_neg (by rw [hs.untaken]; simp), wp_ite,
      if_neg (by rw [hs.size]; exact pos)]
    dsimp only
    rw [wp_ite, if_pos (by rw [hs.child]; rfl), wp_bind]
    refine wp_mono ?_ (fun _ _ htn => htn) (sinking_getNodes hs hw)
    rintro _ b ⟨hc, hb, room, hi, hw⟩
    have hse : searches size (b.nodes a.nodeIndex) = true := by
      have hu := hb.untaken
      rw [Bool.or_eq_false_iff] at hu
      rw [searches, if_neg (by rw [hb.size]; exact pos), hu.1, hu.2]
      rfl
    simp only [wp_bind, wp_getNode, hc, wp_deref, tryChild, wp_ite, hse, if_true, privateAllocateNext]
    refine wp_mono (fun _ _ hr => hr.elim) ?_ (ih hb hw (by omega))
    intro e c htn
    rw [← room]
    exact htn

theorem allocate_overruns (hs : Sinking a a.root) (hw : a.nodeIndex ≤ a.room)
    (hacc : ¬ (a.bufferSize < size ∨ size = 0)) (pos : nextPower2 (max size pageSize) ≠ 0) :
    ∃ b, allocate size a = .error .overrun b ∧ a.room < b.nodeIndex := by
  have htk := hs.taken
  have hse := privateAllocate_overruns pos a.room hs hw (by omega)
  obtain ⟨e, b, hth, rfl, hb⟩ := exists_error_of_wp hse
  refine ⟨b, ?_, hb⟩
  rw [allocate, get_bind, if_neg hacc, bind_of_error hth]

/-- A buffer of 2⁶⁰ bytes: the first request for a byte runs past the end of the node tree. -/
theorem node_store_overruns :
    (∃ a, allocate 1 (boot 4096 48).allocator = .error .overrun a ∧ 2 ^ (48 + 1) - 1 < a.nodeIndex) ∧
      ¬ Stored 4096 48 (boot 4096 48) := by
  have room : (boot 4096 48).allocator.room = 2 ^ (48 + 1) - 1 := room_boot (by decide)
  have sinking : Sinking (boot 4096 48).allocator (boot 4096 48).allocator.root := by
    refine ⟨by decide +kernel, by decide +kernel, rfl, Nat.one_pos, ?_, by decide +kernel⟩
    intro j beyond
    exact writeNode_other (Nat.ne_of_gt beyond) _
  obtain ⟨a, throws, beyond⟩ := allocate_overruns sinking (by decide +kernel)
    (by decide +kernel : ¬ (_ < 1 ∨ 1 = 0)) (by decide +kernel)
  refine ⟨⟨a, throws, by rw [← room]; exact beyond⟩, fun stored => ?_⟩
  obtain ⟨s', next⟩ := stored.answered (.allocate 1) (by simp)
  rw [Client.step, throws] at next
  cases next

end Gevisor.Verified.NodeStore
