import Gevisor.MemoryManager.BuddyTree

/-! # The allocator's functions on the tree

Each of the recursive functions, run on the node of a subtree, does what the buddy system does on it, and
leaves all other nodes alone. A search that fails changes nothing.
-/

namespace Gevisor.MemoryManager

open Lib

namespace BuddyAllocator

variable {a b : BuddyAllocator} {n : Nat}

/-! ## Access to the nodes -/

@[simp] theorem writeNode_same (i : Nat) (node : Node) : (writeNode i node a).nodes i = node := if_pos rfl

variable {i o : Nat} {lay : Layout n}

theorem writeNode_other {j : Nat} (ho : j ≠ i) (node : Node) : (writeNode i node a).nodes j = a.nodes j := if_neg ho

@[simp] theorem writeNode_writeNode (i : Nat) (node node' : Node) :
    writeNode i node' (writeNode i node a) = writeNode i node' a := by
  simp only [writeNode, mk.injEq, true_and, and_true]
  funext j
  split <;> rfl

section

variable {Q : Unit → BuddyAllocator → Prop} {X : Failure → BuddyAllocator → Prop}

@[simp] theorem wp_getNode {Q : Node → BuddyAllocator → Prop} (i : Nat) : wp (getNode i) Q X a ↔ Q (a.nodes i) a :=
  Iff.rfl

@[simp] theorem wp_modifyNode (i : Nat) (f : Node → Node) :
    wp (modifyNode i f) Q X a ↔ Q () (writeNode i (f (a.nodes i)) a) :=
  Iff.rfl

@[simp] theorem wp_deref {Q : Nat → BuddyAllocator → Prop} (i : Nat) : wp (deref (some i)) Q X a ↔ Q i a := Iff.rfl

theorem wp_nextNode {Q : Nat → BuddyAllocator → Prop} (room : a.nodeIndex < a.room) (view : a.room ≤ a.nodesView) :
    wp nextNode Q X a ↔ Q a.nodeIndex { a with nodeIndex := a.nodeIndex + 1 } := by
  simp only [nextNode, wp_bind, wp_get, wp_modify]
  rw [if_neg (by omega), if_neg (by omega), wp_pure]

end

/-! ## Subtrees of the store -/

/-- `a` keeps the tree `t` in the nodes of `lay`, and has zeroed nodes for those that the tree can still get. -/
structure Holds (a : BuddyAllocator) (lay : Layout n) (t : Buddy n) (o : Nat) : Prop where
  rep : Rep a.nodes lay t o
  nodup : lay.nodes.Nodup
  below : ∀ i ∈ lay.nodes, i < a.nodeIndex
  fresh : ∀ i, a.nodeIndex ≤ i → a.nodes i = .zero
  room : a.nodeIndex + lay.missing ≤ a.room
  view : a.room ≤ a.nodesView

/-- From `a` to `b` only nodes of the subtree have changed, and it has got the nodes in between. -/
structure Grows (a b : BuddyAllocator) (lay lay' : Layout n) : Prop where
  same : b = { a with nodes := b.nodes, nodeIndex := b.nodeIndex }
  node : lay'.node = lay.node
  index : a.nodeIndex ≤ b.nodeIndex
  mem : ∀ i, i ∈ lay'.nodes ↔ i ∈ lay.nodes ∨ a.nodeIndex ≤ i ∧ i < b.nodeIndex
  total : b.nodeIndex + lay'.missing = a.nodeIndex + lay.missing
  frame : ∀ i < a.nodeIndex, i ∉ lay.nodes → b.nodes i = a.nodes i

theorem Grows.room (hgw : Grows a b lay lay') : b.room = a.room := by rw [hgw.same]

theorem Grows.view (hgw : Grows a b lay lay') : b.nodesView = a.nodesView := by rw [hgw.same]

/-- The nodes that a subtree has got were in no other one. -/
theorem Grows.outside (hgw : Grows a b lay lay') (hb : i < a.nodeIndex) (hout : i ∉ lay.nodes) :
    i ∉ lay'.nodes := by
  intro mem
  cases (hgw.mem i).mp mem with
  | inl old => exact hout old
  | inr new => exact Nat.not_lt_of_le new.1 hb

theorem Grows.trans {c : BuddyAllocator} {lay' lay'' : Layout n} (first : Grows a b lay lay')
    (hs : Grows b c lay' lay'') : Grows a c lay lay'' where
  same := by rw [hs.same, first.same]
  node := hs.node.trans first.node
  index := Nat.le_trans first.index hs.index
  mem i := by
    have := first.index
    have := hs.index
    rw [hs.mem, first.mem, or_assoc]
    exact or_congr_right (by omega)
  total := hs.total.trans first.total
  frame i hb ho := by
    rw [hs.frame i (Nat.lt_of_lt_of_le hb first.index) (first.outside hb ho), first.frame i hb ho]

/-- A change of a node of the subtree alone. -/
theorem grows_writeNode (mem : i ∈ lay.nodes) (node : Node) : Grows a (writeNode i node a) lay lay where
  same := rfl
  node := rfl
  index := Nat.le_refl _
  mem _ := (or_iff_left fun hb => absurd hb.2 (Nat.not_lt_of_le hb.1)).symm
  total := rfl
  frame _ _ ho := writeNode_other (ne_of_mem_of_not_mem mem ho).symm node

section Fork

variable {i o : Nat} {l r l' r' : Layout n} {t t' : Buddy (n + 1)}

theorem Holds.left (hh : Holds a (.fork i l r) t o) : Holds a l t.left o where
  rep := hh.rep.2.2.2.1
  nodup := (List.nodup_append.mp (List.nodup_cons.mp hh.nodup).2).1
  below j mem := hh.below j (List.mem_cons_of_mem _ (List.mem_append_left _ mem))
  fresh := hh.fresh
  room := by
    have := hh.room
    simp only [Layout.missing] at this
    omega
  view := hh.view

theorem Holds.right (hh : Holds a (.fork i l r) t o) : Holds a r t.right (o + pageSize * 2 ^ n) where
  rep := hh.rep.2.2.2.2
  nodup := (List.nodup_append.mp (List.nodup_cons.mp hh.nodup).2).2.1
  below j mem := hh.below j (List.mem_cons_of_mem _ (List.mem_append_right _ mem))
  fresh := hh.fresh
  room := by
    have := hh.room
    simp only [Layout.missing] at this
    omega
  view := hh.view

theorem Grows.fork_left (hgw : Grows a b l l') (i : Nat) (r : Layout n) :
    Grows a b (.fork i l r) (.fork i l' r) where
  same := hgw.same
  node := rfl
  index := hgw.index
  mem j := by
    simp only [Layout.nodes, List.mem_cons, List.mem_append, hgw.mem]
    tauto
  total := by
    have := hgw.total
    simp only [Layout.missing]
    omega
  frame j hb ho := by
    simp only [Layout.nodes, List.mem_cons, List.mem_append, not_or] at ho
    exact hgw.frame j hb ho.2.1

theorem Grows.fork_right (hgw : Grows a b r r') (i : Nat) (l : Layout n) :
    Grows a b (.fork i l r) (.fork i l r') where
  same := hgw.same
  node := rfl
  index := hgw.index
  mem j := by
    simp only [Layout.nodes, List.mem_cons, List.mem_append, hgw.mem]
    tauto
  total := by
    have := hgw.total
    simp only [Layout.missing]
    omega
  frame j hb ho := by
    simp only [Layout.nodes, List.mem_cons, List.mem_append, not_or] at ho
    exact hgw.frame j hb ho.2.2

/-- The halves of a fork are in place, whatever its own node. -/
structure Halves (a : BuddyAllocator) (i : Nat) (l r : Layout n) (tl tr : Buddy n) (o : Nat) : Prop where
  left : Holds a l tl o
  right : Holds a r tr (o + pageSize * 2 ^ n)
  nodup : (Layout.fork i l r).nodes.Nodup
  below : i < a.nodeIndex
  room : a.nodeIndex + (Layout.fork i l r).missing ≤ a.room

/-- Only the type of its own node may be that of another fork. -/
structure Forked (a : BuddyAllocator) (i : Nat) (l r : Layout n) (tl tr : Buddy n) (o : Nat) : Prop
    extends Halves a i l r tl tr o where
  describes : ∃ kind, Describes (a.nodes i) (n + 1) o kind
  child0 : (a.nodes i).child0 = some l.node
  child1 : (a.nodes i).child1 = some r.node

theorem Holds.forked (hh : Holds a (.fork i l r) t o) : Forked a i l r t.left t.right o where
  left := hh.left
  right := hh.right
  nodup := hh.nodup
  below := hh.below i List.mem_cons_self
  room := hh.room
  describes := ⟨_, hh.rep.1⟩
  child0 := hh.rep.2.1
  child1 := hh.rep.2.2.1

section Forked

variable {tl tr tl' tr' : Buddy n}

/-- The three parts of a fork have no node in common. -/
theorem Halves.apart (hh : Halves a i l r tl tr o) : i ∉ l.nodes ∧ i ∉ r.nodes ∧ ∀ j ∈ l.nodes, j ∉ r.nodes := by
  obtain ⟨hout, hn⟩ := List.nodup_cons.mp hh.nodup
  simp only [List.mem_append, not_or] at hout
  exact ⟨hout.1, hout.2, fun j hil hir => (List.nodup_append.mp hn).2.2 j hil j hir rfl⟩

/-- With the type of its own node the fork is complete. -/
theorem Halves.holds (halves : Halves a i l r t.left t.right o) {node : Node}
    (describes : Describes node (n + 1) o (kindOf t)) (child0 : node.child0 = some l.node)
    (child1 : node.child1 = some r.node) : Holds (writeNode i node a) (.fork i l r) t o where
  rep := by
    obtain ⟨notLeft, notRight, -⟩ := halves.apart
    refine ⟨?_, ?_, ?_, ?_, ?_⟩
    · rw [writeNode_same]; exact describes
    · rw [writeNode_same]; exact child0
    · rw [writeNode_same]; exact child1
    · exact halves.left.rep.congr fun j mem => writeNode_other (ne_of_mem_of_not_mem mem notLeft) node
    · exact halves.right.rep.congr fun j mem => writeNode_other (ne_of_mem_of_not_mem mem notRight) node
  nodup := halves.nodup
  below j mem := by
    simp only [Layout.nodes, List.mem_cons, List.mem_append] at mem
    obtain rfl | inLeft | inRight := mem
    · exact halves.below
    · exact halves.left.below j inLeft
    · exact halves.right.below j inRight
  fresh j beyond := by
    rw [writeNode_other (Nat.ne_of_gt (Nat.lt_of_lt_of_le halves.below beyond))]
    exact halves.left.fresh j beyond
  room := halves.room
  view := halves.left.view

/-- What a subtree has been left alone by the growth of another one. -/
theorem Holds.frame {m : Nat} {lay : Layout n} {grown grown' : Layout m} {u : Buddy n} (hh : Holds a lay u o)
    (hgw : Grows a b grown grown') (hfr : ∀ j, b.nodeIndex ≤ j → b.nodes j = .zero)
    (hap : ∀ j ∈ lay.nodes, j ∉ grown.nodes) (room : b.nodeIndex + lay.missing ≤ b.room) :
    Holds b lay u o where
  rep := hh.rep.congr fun j mem => hgw.frame j (hh.below j mem) (hap j mem)
  nodup := hh.nodup
  below j mem := Nat.lt_of_lt_of_le (hh.below j mem) hgw.index
  fresh := hfr
  room := room
  view := by rw [hgw.room, hgw.view]; exact hh.view

theorem Forked.grow_left (hfk : Forked a i l r tl tr o) (hgw : Grows a b l l') (hh : Holds b l' tl' o) :
    Forked b i l' r tl' tr o := by
  obtain ⟨hn, hno, hap⟩ := hfk.toHalves.apart
  have room : b.nodeIndex + (Layout.fork i l' r).missing ≤ b.room := by
    rw [(hgw.fork_left i r).total, hgw.room]
    exact hfk.room
  have kept : b.nodes i = a.nodes i := hgw.frame i hfk.below hn
  have hap' : ∀ j ∈ l'.nodes, j ∉ r.nodes := fun j hil hir =>
    hgw.outside (hfk.right.below j hir) (fun old => hap j old hir) hil
  refine ⟨⟨hh, ?_, ?_, Nat.lt_of_lt_of_le hfk.below hgw.index, room⟩, ?_, ?_, ?_⟩
  · refine hfk.right.frame hgw hh.fresh (fun j hir hil => hap j hil hir) ?_
    simp only [Layout.missing] at room
    omega
  · exact Layout.nodup_fork (hgw.outside hfk.below hn) hno hh.nodup hfk.right.nodup hap'
  · rw [kept]; exact hfk.describes
  · rw [kept, hgw.node]; exact hfk.child0
  · rw [kept]; exact hfk.child1

theorem Forked.grow_right (hfk : Forked a i l r tl tr o) (hgw : Grows a b r r')
    (hh : Holds b r' tr' (o + pageSize * 2 ^ n)) : Forked b i l r' tl tr' o := by
  obtain ⟨hno, hn, hap⟩ := hfk.toHalves.apart
  have room : b.nodeIndex + (Layout.fork i l r').missing ≤ b.room := by
    rw [(hgw.fork_right i l).total, hgw.room]
    exact hfk.room
  have kept : b.nodes i = a.nodes i := hgw.frame i hfk.below hn
  have hap' : ∀ j ∈ l.nodes, j ∉ r'.nodes := fun j hil =>
    hgw.outside (hfk.left.below j hil) (hap j hil)
  refine ⟨⟨?_, hh, ?_, Nat.lt_of_lt_of_le hfk.below hgw.index, room⟩, ?_, ?_, ?_⟩
  · refine hfk.left.frame hgw hh.fresh hap ?_
    simp only [Layout.missing] at room
    omega
  · exact Layout.nodup_fork hno (hgw.outside hfk.below hn) hfk.left.nodup hh.nodup hap'
  · rw [kept]; exact hfk.describes
  · rw [kept]; exact hfk.child0
  · rw [kept, hgw.node]; exact hfk.child1

end Forked

end Fork

/-! ## Allocation -/

/-- The block of a subtree has a size that leaves the bits for the type free, and an address that does not wrap. -/
def Addressable (n o : Nat) : Prop := pageSize * 2 ^ n < 2 ^ 60 ∧ o + pageSize * 2 ^ n < 2 ^ 64

theorem double_size (n : Nat) : pageSize * 2 ^ (n + 1) = pageSize * 2 ^ n + pageSize * 2 ^ n := by
  rw [Nat.two_pow_succ, Nat.mul_add]

theorem Addressable.left (had : Addressable (n + 1) o) : Addressable n o := by
  have := double_size n
  simp only [Addressable] at had ⊢
  omega

theorem Addressable.right (had : Addressable (n + 1) o) : Addressable n (o + pageSize * 2 ^ n) := by
  have := double_size n
  simp only [Addressable] at had ⊢
  omega

theorem holds_tip (hd : Describes (a.nodes i) n o .unused) (hc : (a.nodes i).child0 = none)
    (hb : i < a.nodeIndex) (hfr : ∀ j, a.nodeIndex ≤ j → a.nodes j = .zero)
    (room : a.nodeIndex + (2 ^ (n + 1) - 2) ≤ a.room) (view : a.room ≤ a.nodesView) :
    Holds a (.tip i : Layout n) .free o where
  rep := ⟨hd, hc, .inl rfl⟩
  nodup := List.nodup_singleton i
  below j mem := by rw [List.mem_singleton.mp mem]; exact hb
  fresh := hfr
  room := room
  view := view

/-- A node gets its children. -/
theorem getNodes_spec (had : Addressable (n + 1) o) (hh : Holds a (.tip i : Layout (n + 1)) .free o) :
    wp (getNodes i) (fun _ b => ∃ l r : Layout n, Grows a b (.tip i) (.fork i l r) ∧ Holds b (.fork i l r) .free o)
      (fun _ _ => False) a := by
  obtain ⟨hd, hc, -⟩ := hh.rep
  have room := hh.room
  have view := hh.view
  have hk : i < a.nodeIndex := hh.below i (List.mem_singleton_self i)
  have two : 2 ≤ (Layout.tip i : Layout (n + 1)).missing := by
    have := Nat.two_pow_pos n
    simp only [Layout.missing, Nat.two_pow_succ]
    omega
  have half : (a.nodes i).getSize >>> 1 = pageSize * 2 ^ n := by
    rw [hd.size, double_size, Nat.shiftRight_one]
    omega
  simp only [getNodes, wp_bind]
  rw [wp_nextNode (by omega) view,
    wp_nextNode (a := { a with nodeIndex := a.nodeIndex + 1 }) (show a.nodeIndex + 1 < a.room by omega) view]
  simp only [wp_getNode, wp_modifyNode, half, hd.ptr]
  rw [Nat.mod_eq_of_lt (had.left.2)]
  -- The two nodes are the next ones of zeroed memory.
  have hz : a.nodes a.nodeIndex = .zero := hh.fresh _ (Nat.le_refl _)
  have hze : a.nodes (a.nodeIndex + 1) = .zero := hh.fresh _ (Nat.le_succ _)
  have ho0 : i ≠ a.nodeIndex := Nat.ne_of_lt hk
  have ho1 : i ≠ a.nodeIndex + 1 := by omega
  have hap : a.nodeIndex ≠ a.nodeIndex + 1 := by omega
  have kept : ∀ x y : Node, (writeNode (a.nodeIndex + 1) y (writeNode a.nodeIndex x
      { a with nodeIndex := a.nodeIndex + 1 + 1 })).nodes i = a.nodes i := by
    intro x y
    rw [writeNode_other ho1, writeNode_other ho0]
  refine ⟨.tip a.nodeIndex, .tip (a.nodeIndex + 1), ?_, ?_⟩
  · refine ⟨rfl, rfl, by simp only [writeNode]; omega, ?_, ?_, ?_⟩
    · intro j
      simp only [Layout.nodes, List.mem_cons, List.mem_append, List.not_mem_nil, or_false, writeNode]
      omega
    · have := Nat.two_pow_pos n
      simp only [Layout.missing, writeNode, Nat.two_pow_succ]
      omega
    · intro j hb hout
      rw [writeNode_other (by simpa [Layout.nodes] using hout), writeNode_other (by omega), writeNode_other (by omega)]
  · simp only [kept]
    have hfr : ∀ x y : Node, ∀ j, a.nodeIndex + 1 + 1 ≤ j → (writeNode (a.nodeIndex + 1) y (writeNode a.nodeIndex x
        { a with nodeIndex := a.nodeIndex + 1 + 1 })).nodes j = .zero := by
      intro x y j hbe
      rw [writeNode_other (by omega), writeNode_other (by omega)]
      exact hh.fresh j (by omega)
    have hs : a.nodeIndex + 1 + 1 + (2 ^ (n + 1) - 2 + (2 ^ (n + 1) - 2)) ≤ a.room := by
      simp only [Layout.missing, Nat.two_pow_succ (n + 1)] at room
      have := Nat.two_pow_pos n
      have := Nat.two_pow_succ n
      omega
    refine Halves.holds ⟨holds_tip ?_ ?_ ?_ (hfr _ _) ?_ (by exact view),
      holds_tip ?_ ?_ ?_ (hfr _ _) ?_ (by exact view), ?_, ?_, hs⟩ ?_ rfl rfl
    · rw [writeNode_other hap, writeNode_same]
      exact describes_ofNat rfl rfl had.left.1
    · rw [writeNode_other hap, writeNode_same]
      exact congrArg Node.child0 hz
    · exact Nat.lt_succ_of_lt (Nat.lt_succ_self _)
    · exact Nat.le_trans (Nat.add_le_add_left (Nat.le_add_right _ _) _) hs
    · rw [writeNode_same]
      exact describes_ofNat rfl rfl had.right.1
    · rw [writeNode_same, writeNode_other hap.symm]
      exact congrArg Node.child0 hze
    · exact Nat.lt_succ_self _
    · exact Nat.le_trans (Nat.add_le_add_left (Nat.le_add_left _ _) _) hs
    · simp [Layout.nodes, ho0, ho1]
    · exact Nat.lt_succ_of_lt (Nat.lt_succ_of_lt hk)
    · exact ⟨hd.ptr, hd.size, hd.is⟩

section Marking

variable {i o : Nat} {l r : Layout n} {tl tr : Buddy n}

theorem Halves.other0 (hh : Halves a i l r tl tr o) : l.node ≠ i := ne_of_mem_of_not_mem l.node_mem hh.apart.1

theorem Halves.other1 (hh : Halves a i l r tl tr o) : r.node ≠ i := ne_of_mem_of_not_mem r.node_mem hh.apart.2.1

/-- The type that a node gets after an allocation below it is that of a block with these halves. -/
theorem markAllocated_spec (hfk : Forked a i l r tl tr o) :
    wp (markAllocated i)
      (fun _ b => (∃ node, b = writeNode i node a) ∧ Holds b (.fork i l r) (.split tl tr) o) (fun _ _ => False) a := by
  obtain ⟨kind, hd⟩ := hfk.describes
  have hc : (a.nodes i).setParent.child0 = some l.node := hfk.child0
  have hch : (a.nodes i).setParent.child1 = some r.node := hfk.child1
  simp only [markAllocated, wp_bind, wp_modifyNode, wp_getNode, writeNode_same, hc, hch, wp_deref,
    writeNode_other hfk.toHalves.other0, writeNode_other hfk.toHalves.other1, hfk.left.rep.describes.taken,
    hfk.right.rep.describes.taken]
  rw [wp_ite]
  split
  · next full =>
    rw [wp_modifyNode, writeNode_same, writeNode_writeNode]
    refine ⟨⟨_, rfl⟩, Halves.holds (t := .split tl tr) hfk.toHalves ?_ hfk.child0 hfk.child1⟩
    rw [kindOf, if_pos full]
    exact (hd.set .parent).set .full
  · next room =>
    refine ⟨⟨_, rfl⟩, Halves.holds (t := .split tl tr) hfk.toHalves ?_ hfk.child0 hfk.child1⟩
    rw [kindOf, if_neg room]
    exact hd.set .parent

theorem markDeallocated_spec (hfk : Forked a i l r tl tr o) (room : (tl.isFull && tr.isFull) = false) :
    wp (markDeallocated i)
      (fun _ b => (∃ node, b = writeNode i node a) ∧ Holds b (.fork i l r) (tl.join tr) o) (fun _ _ => False) a := by
  obtain ⟨kind, hd⟩ := hfk.describes
  have hc : (a.nodes i).setParent.child0 = some l.node := hfk.child0
  have hch : (a.nodes i).setParent.child1 = some r.node := hfk.child1
  have hh : Halves a i l r (tl.join tr).left (tl.join tr).right o := by
    rw [Buddy.left_join, Buddy.right_join]
    exact hfk.toHalves
  simp only [markDeallocated, wp_bind, wp_modifyNode, wp_getNode, writeNode_same, hc, hch, wp_deref,
    writeNode_other hfk.toHalves.other0, writeNode_other hfk.toHalves.other1, hfk.left.rep.describes.unused,
    hfk.right.rep.describes.unused]
  rw [wp_ite]
  split
  · next both =>
    rw [wp_modifyNode, writeNode_same, writeNode_writeNode]
    refine ⟨⟨_, rfl⟩, hh.holds ?_ hfk.child0 hfk.child1⟩
    have hj : kindOf (tl.join tr) = .unused := by
      cases tl <;> cases tr <;> first | rfl | cases both
    rw [hj]
    exact (hd.set .parent).set .unused
  · next hn =>
    refine ⟨⟨_, rfl⟩, hh.holds ?_ hfk.child0 hfk.child1⟩
    have hj : kindOf (tl.join tr) = .parent := by
      cases tl <;> cases tr <;> first | exact absurd rfl hn | simp only [Buddy.join, kindOf, room]; rfl
    rw [hj]
    exact hd.set .parent

/-- A block that is not divided is taken or given back as a whole. -/
theorem Holds.set_whole {lay : Layout n} {u : Buddy n} (hh : Holds a lay u o) (hwh : u = .free ∨ u = .used)
    (u' : Buddy n) (hwh' : u' = .free ∨ u' = .used) :
    Holds (writeNode lay.node ((a.nodes lay.node).set (kindOf u')) a) lay u' o := by
  cases lay with
  | tip i =>
    obtain ⟨hd, hc, -⟩ := hh.rep
    have hk : i < a.nodeIndex := hh.below i (List.mem_singleton_self i)
    refine ⟨⟨?_, ?_, hwh'⟩, hh.nodup, hh.below, ?_, hh.room, hh.view⟩
    · rw [Layout.node, writeNode_same]
      exact hd.set _
    · rw [Layout.node, writeNode_same]
      exact hc
    · intro j hb
      rw [Layout.node, writeNode_other (Nat.ne_of_gt (Nat.lt_of_lt_of_le hk hb))]
      exact hh.fresh j hb
  | @fork n i l r =>
    obtain ⟨kind, hd⟩ := hh.forked.describes
    have hha : Halves a i l r u'.left u'.right o := by
      have := hh.forked.toHalves
      obtain rfl | rfl := hwh <;> obtain rfl | rfl := hwh' <;> exact this
    exact hha.holds (hd.set _) hh.forked.child0 hh.forked.child1

end Marking

section Searching

variable {i j o : Nat}

/-- What a search for `2 ^ j` pages in a subtree ends with. -/
def Allocated (a : BuddyAllocator) (lay : Layout n) (t : Buddy n) (o j p : Nat) (b : BuddyAllocator) : Prop :=
  match t.take j with
  | none => p = 0 ∧ b = a
  | some (q, t') => p = o + pageSize * q ∧ ∃ lay' : Layout n, Grows a b lay lay' ∧ Holds b lay' t' o

theorem size_injective {j n : Nat} (same : pageSize * 2 ^ j = pageSize * 2 ^ n) : j = n :=
  Nat.pow_right_injective (Nat.le_refl 2) (Nat.eq_of_mul_eq_mul_left (by decide) same)

variable {u : Buddy n} {next : Nat → Nat → BuddyM Nat}

/-- The search leaves out a child only if there is nothing to find in it. -/
theorem take_of_not_searches {node : Node} (hd : Describes node n o (kindOf u))
    (hl : ¬ searches (pageSize * 2 ^ j) node = true) : u.take j = none := by
  rw [searches, hd.size] at hl
  split at hl
  · next same =>
    rw [hd.unused, Bool.not_eq_true] at hl
    rw [size_injective same]
    exact Buddy.take_whole hl
  · rw [← Bool.not_or, Bool.or_comm, hd.taken, Bool.not_eq_true, Bool.not_eq_false'] at hl
    exact Buddy.take_full hl j

theorem tryChild_spec {c : Layout n} (pos : 0 < o) (hd : Describes (a.nodes c.node) n o (kindOf u))
    (hs : wp (next (pageSize * 2 ^ j) c.node) (Allocated a c u o j) (fun _ _ => False) a)
    {Q : Nat → BuddyAllocator → Prop} (hfa : u.take j = none → Q 0 a)
    (hfd : ∀ q u' c' b, u.take j = some (q, u') → Grows a b c c' → Holds b c' u' o →
      wp (markAllocated i) (fun _ d => Q (o + pageSize * q) d) (fun _ _ => False) b) :
    wp (tryChild next (pageSize * 2 ^ j) i c.node) Q (fun _ _ => False) a := by
  simp only [tryChild, wp_bind, wp_getNode]
  rw [wp_ite]
  split
  · simp only [privateAllocateNext, wp_bind]
    refine wp_mono ?_ (fun _ _ htn => htn) hs
    intro p b ha
    cases htk : u.take j with
    | none =>
      simp only [Allocated, htk] at ha
      obtain ⟨rfl, rfl⟩ := ha
      exact hfa htk
    | some hf =>
      simp only [Allocated, htk] at ha
      obtain ⟨rfl, c', hgw, hh⟩ := ha
      rw [wp_ite, if_pos (by omega), wp_bind]
      exact hfd _ _ c' b htk hgw hh
  · next hl => exact hfa (take_of_not_searches hd hl)

/-- The search in the two children of a node. -/
theorem tryChildren_spec {l r : Layout n} {t : Buddy (n + 1)} (pos : 0 < o)
    (fits : j ≤ n) (room : t.isFull = false) (hh : Holds a (.fork i l r) t o)
    (left : wp (next (pageSize * 2 ^ j) l.node) (Allocated a l t.left o j) (fun _ _ => False) a)
    (right : wp (next (pageSize * 2 ^ j) r.node) (Allocated a r t.right (o + pageSize * 2 ^ n) j)
      (fun _ _ => False) a) :
    wp (do
        let node ← getNode i
        let ptr ← tryChild next (pageSize * 2 ^ j) i (← deref node.child0)
        if ptr ≠ 0 then pure ptr
        else tryChild next (pageSize * 2 ^ j) i (← deref node.child1))
      (Allocated a (.fork i l r) t o j) (fun _ _ => False) a := by
  have hfk := hh.forked
  simp only [wp_bind, wp_getNode, hfk.child0, hfk.child1, wp_deref]
  refine tryChild_spec pos hfk.left.rep.describes left ?_ ?_
  · intro hn
    rw [wp_ite, if_neg (by simp), wp_bind, wp_deref]
    refine tryChild_spec (by omega) hfk.right.rep.describes right ?_ ?_
    · intro hno
      rw [Allocated, Buddy.take_halves fits room, hn, hno]
      exact ⟨rfl, rfl⟩
    · intro q tr r' b htk hgw hg
      refine wp_mono ?_ (fun _ _ htn => htn) (markAllocated_spec (hfk.grow_right hgw hg))
      rintro _ _ ⟨⟨node, rfl⟩, hm⟩
      rw [Allocated, Buddy.take_halves fits room, hn, htk]
      exact ⟨by rw [Nat.mul_add, Nat.add_assoc], _,
        (hgw.fork_right i l).trans (grows_writeNode List.mem_cons_self node), hm⟩
  · intro q tl l' b htk hgw hg
    refine wp_mono ?_ (fun _ _ htn => htn) (markAllocated_spec (hfk.grow_left hgw hg))
    rintro _ _ ⟨⟨node, rfl⟩, hm⟩
    rw [wp_ite, if_pos (by omega), wp_pure, Allocated, Buddy.take_halves fits room, htk]
    exact ⟨rfl, _, (hgw.fork_left i r).trans (grows_writeNode List.mem_cons_self node), hm⟩

/-- A search takes the leftmost aligned block that is free, or finds that there is none and changes nothing. -/
theorem privateAllocate_spec {fuel : Nat} {lay : Layout n} {t : Buddy n} (he : n < fuel) (fits : j ≤ n)
    (pos : 0 < o) (had : Addressable n o) (hh : Holds a lay t o) :
    wp (privateAllocate fuel (pageSize * 2 ^ j) lay.node) (Allocated a lay t o j) (fun _ _ => False) a := by
  induction fuel generalizing n o a with
  | zero => omega
  | succ fuel ih =>
    have hd := hh.rep.describes
    rw [privateAllocate, wp_bind, wp_getNode, wp_ite, hd.taken]
    split
    · next full =>
      rw [wp_pure, Allocated, Buddy.take_full full]
      exact ⟨rfl, rfl⟩
    · next room =>
    rw [wp_ite, hd.size]
    split
    · next same =>
      -- The block has the right size: it is taken as a whole or not at all.
      cases size_injective same
      rw [wp_ite, hd.unused]
      split
      · next free =>
        have hwh : t = .free := by
          cases t <;> first | rfl | cases free
        subst hwh
        have htk : (Buddy.free : Buddy j).take j = some (0, .used) := by
          cases j <;> simp [Buddy.take, Buddy.carve]
        have leaf : Holds (writeNode lay.node (a.nodes lay.node).setLeaf a) lay .used o :=
          hh.set_whole (.inl rfl) .used (.inr rfl)
        rw [wp_bind, wp_modifyNode, wp_pure, Allocated, htk, hd.ptr]
        exact ⟨by rw [Nat.mul_zero, Nat.add_zero], lay, grows_writeNode lay.node_mem _, leaf⟩
      · next hdi =>
        rw [wp_pure, Allocated, Buddy.take_whole (Bool.eq_false_of_not_eq_true hdi)]
        exact ⟨rfl, rfl⟩
    · next hl =>
      -- The block is larger than asked for, so that it has halves, or gets them now.
      have hs : j ≠ n := fun same => hl (same ▸ rfl)
      obtain ⟨m, rfl⟩ : ∃ m, n = m + 1 := ⟨n - 1, by omega⟩
      have hha {b : BuddyAllocator} {i : Nat} {l r : Layout m} (hh : Holds b (.fork i l r) t o) :=
        tryChildren_spec pos (Nat.le_of_lt_succ (Nat.lt_of_le_of_ne fits hs)) (Bool.eq_false_of_not_eq_true room) hh
          (ih (by omega) (by omega) pos had.left hh.left)
          (ih (by omega) (by omega) (by omega) had.right hh.right)
      dsimp only
      cases lay with
      | tip i =>
        obtain ⟨-, hc, hwh⟩ := hh.rep
        have free : t = .free := hwh.resolve_right fun used => room (used ▸ rfl)
        subst free
        have htk : (Buddy.free : Buddy (m + 1)).take j = some (0, .carve j (m + 1)) := by
          rw [Buddy.take, if_pos fits]
        rw [Layout.node, hc, wp_ite, if_pos Option.isNone_none, wp_bind]
        refine wp_mono ?_ (fun _ _ htn => htn) (getNodes_spec had hh)
        rintro _ b ⟨l, r, hgw, hfk⟩
        refine wp_mono ?_ (fun _ _ htn => htn) (hha hfk)
        intro p c ha
        rw [Allocated, htk] at ha ⊢
        obtain ⟨hst, lay', hgw', hg⟩ := ha
        exact ⟨hst, lay', hgw.trans hgw', hg⟩
      | fork i l r =>
        rw [Layout.node, hh.forked.child0, wp_ite, if_neg (by simp)]
        exact hha hh

end Searching

/-! ## Deallocation and sizes -/

section Descending

variable {i o ptr : Nat}

/-- The page that an address is in, counted from the start of the subtree; addresses before it count as its start. -/
def pageAt (o ptr : Nat) : Nat := (ptr - o) / pageSize

theorem lt_half_iff (n o ptr : Nat) : ptr < o + pageSize * 2 ^ n ↔ pageAt o ptr < 2 ^ n := by
  have := Nat.mul_pos (show 0 < pageSize by decide) (Nat.two_pow_pos n)
  rw [pageAt, Nat.div_lt_iff_lt_mul (by decide), Nat.mul_comm (2 ^ n)]
  omega

theorem pageAt_right (n o ptr : Nat) : pageAt (o + pageSize * 2 ^ n) ptr = pageAt o ptr - 2 ^ n := by
  rw [pageAt, pageAt, ← Nat.sub_sub]
  exact Nat.sub_mul_div _ _ _

/-- The child for an address, by the page it is in. -/
theorem wp_childFor {l r : Layout n} {t : Buddy (n + 1)} {Q : Nat → BuddyAllocator → Prop}
    {X : Failure → BuddyAllocator → Prop} (had : Addressable (n + 1) o)
    (hh : Holds a (.fork i l r) t o) :
    wp (childFor ptr (a.nodes i)) Q X a ↔ if pageAt o ptr < 2 ^ n then Q l.node a else Q r.node a := by
  have hd := hh.left.rep.describes
  simp only [childFor, wp_bind, hh.forked.child0, hh.forked.child1, wp_deref, wp_getNode]
  rw [hd.ptr, hd.size, Nat.mod_eq_of_lt had.left.2, wp_ite, wp_pure, wp_deref]
  simp only [lt_half_iff]

/-- What giving back the block around `ptr` ends with. -/
def Deallocated (a : BuddyAllocator) (lay : Layout n) (t : Buddy n) (o ptr : Nat) (res : Bool) (b : BuddyAllocator) :
    Prop :=
  match t.give (pageAt o ptr) with
  | none => res = false ∧ b = a
  | some t' => res = true ∧ Grows a b lay lay ∧ Holds b lay t' o

theorem privateDeallocateNext_spec {next : Nat → Nat → BuddyM Bool} {c : Layout n} {u : Buddy n}
    (hg : wp (next ptr c.node) (Deallocated a c u o ptr) (fun _ _ => False) a)
    {Q : Bool → BuddyAllocator → Prop} (hf : u.give (pageAt o ptr) = none → Q false a)
    (done : ∀ u' b, u.give (pageAt o ptr) = some u' → Grows a b c c → Holds b c u' o →
      wp (markDeallocated i) (fun _ d => Q true d) (fun _ _ => False) b) :
    wp (privateDeallocateNext next ptr i c.node) Q (fun _ _ => False) a := by
  simp only [privateDeallocateNext, wp_bind]
  refine wp_mono ?_ (fun _ _ htn => htn) hg
  intro res b hd
  cases hgi : u.give (pageAt o ptr) with
  | none =>
    simp only [Deallocated, hgi] at hd
    obtain ⟨rfl, rfl⟩ := hd
    exact hf hgi
  | some u' =>
    simp only [Deallocated, hgi] at hd
    obtain ⟨rfl, hgw, hh⟩ := hd
    rw [wp_ite, if_pos rfl, wp_bind]
    exact done u' b hgi hgw hh

variable {fuel : Nat} {lay : Layout n} {t : Buddy n}

/-- A block is given back by any address in it. -/
theorem privateDeallocate_spec (he : n < fuel) (had : Addressable n o) (hh : Holds a lay t o) :
    wp (privateDeallocate fuel ptr lay.node) (Deallocated a lay t o ptr) (fun _ _ => False) a := by
  induction fuel generalizing n o a with
  | zero => omega
  | succ fuel ih =>
    have hd := hh.rep.describes
    rw [privateDeallocate, wp_bind, wp_getNode, wp_ite]
    split
    · next leaf =>
      cases hd.leaf.mp leaf
      rw [wp_bind, wp_modifyNode, wp_pure, Deallocated]
      simp only [Buddy.give]
      exact ⟨trivial, grows_writeNode lay.node_mem _, hh.set_whole (.inr rfl) .free (.inl rfl)⟩
    · next hno =>
    have hdi : t ≠ .used := fun used => hno (hd.leaf.mpr used)
    rw [wp_ite]
    cases lay with
    | tip i =>
      obtain ⟨-, hc, hwh⟩ := hh.rep
      have free : t = .free := hwh.resolve_right hdi
      subst free
      rw [Layout.node, hc, if_pos Option.isNone_none, wp_pure, Deallocated]
      simp only [Buddy.give]
      exact ⟨trivial, trivial⟩
    | @fork m i l r =>
      have hfk := hh.forked
      rw [Layout.node, hfk.child0, if_neg (by simp), wp_bind, wp_childFor had hh]
      split
      · next hil =>
        refine privateDeallocateNext_spec (ih (by omega) had.left hfk.left) ?_ ?_
        · intro hn
          simp only [Deallocated, Buddy.give_halves hdi, if_pos hil, hn, Option.map_none]
          exact ⟨trivial, trivial⟩
        · intro l' b hgi hgw hg
          have room : (l'.isFull && t.right.isFull) = false := by rw [Buddy.not_full_give hgi, Bool.false_and]
          refine wp_mono ?_ (fun _ _ htn => htn) (markDeallocated_spec (hfk.grow_left hgw hg) room)
          rintro _ _ ⟨⟨node, rfl⟩, hm⟩
          simp only [Deallocated, Buddy.give_halves hdi, if_pos hil, hgi, Option.map_some]
          exact ⟨trivial, (hgw.fork_left i r).trans (grows_writeNode List.mem_cons_self node), hm⟩
      · next hir =>
        have page := pageAt_right m o ptr
        refine privateDeallocateNext_spec (ih (by omega) had.right hfk.right) ?_ ?_
        · intro hn
          simp only [Deallocated, Buddy.give_halves hdi, if_neg hir, ← page, hn, Option.map_none]
          exact ⟨trivial, trivial⟩
        · intro r' b hgi hgw hg
          have room : (t.left.isFull && r'.isFull) = false := by rw [Buddy.not_full_give hgi, Bool.and_false]
          refine wp_mono ?_ (fun _ _ htn => htn) (markDeallocated_spec (hfk.grow_right hgw hg) room)
          rintro _ _ ⟨⟨node, rfl⟩, hm⟩
          simp only [Deallocated, Buddy.give_halves hdi, if_neg hir, ← page, hgi, Option.map_some]
          exact ⟨trivial, (hgw.fork_right i l).trans (grows_writeNode List.mem_cons_self node), hm⟩

/-- The size of a block of a level, or zero. -/
def levelSize : Option Nat → Nat
  | none => 0
  | some j => pageSize * 2 ^ j

theorem privateSize_spec (he : n < fuel) (had : Addressable n o) (hh : Holds a lay t o) :
    wp (privateSize fuel ptr lay.node) (fun size b => b = a ∧ size = levelSize (t.levelAt (pageAt o ptr)))
      (fun _ _ => False) a := by
  induction fuel generalizing n o with
  | zero => omega
  | succ fuel ih =>
    have hd := hh.rep.describes
    rw [privateSize, wp_bind, wp_getNode, wp_ite]
    split
    · next leaf =>
      cases hd.leaf.mp leaf
      rw [wp_pure, hd.size]
      simp only [Buddy.levelAt]
      exact ⟨trivial, rfl⟩
    · next hn =>
    have hdi : t ≠ .used := fun used => hn (hd.leaf.mpr used)
    rw [wp_ite]
    cases lay with
    | tip i =>
      obtain ⟨-, hc, hwh⟩ := hh.rep
      have free : t = .free := hwh.resolve_right hdi
      subst free
      rw [Layout.node, hc, if_pos Option.isNone_none, wp_pure]
      simp only [Buddy.levelAt]
      exact ⟨trivial, rfl⟩
    | @fork m i l r =>
      rw [Layout.node, hh.forked.child0, if_neg (by simp), wp_bind, wp_childFor had hh]
      simp only [Buddy.levelAt_halves hdi]
      split
      · exact ih (by omega) had.left hh.left
      · next hir =>
        rw [← pageAt_right]
        exact ih (by omega) had.right hh.right

end Descending

end BuddyAllocator

end Gevisor.MemoryManager
