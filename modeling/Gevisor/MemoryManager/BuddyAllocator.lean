import Gevisor.Ept.Entry
import Gevisor.Lib.Exec

/-! # The buddy allocator

`buddy_allocator`: blocks of a power of two pages are tracked in a binary tree whose nodes live in memory
that the caller provides. Nodes are never given back: the two topmost bits of a node's size say whether
its block is unused, handed out as a whole, divided, or divided and full.
-/

namespace Gevisor.MemoryManager

open Ept (getBits setBits)

/-- What stops a function of the memory manager early: one of the exceptions, or behaviour the language
leaves undefined. -/
inductive Failure
  | badAlloc
  | runtimeError (what : String)
  | failFast
  | nullDereference
  /-- An access past the end of the memory that was provided. -/
  | overrun
  /-- More nested calls than there are nodes. -/
  | unbounded
  deriving DecidableEq, Repr

/-- `BAREFLANK_PAGE_SIZE`. -/
def pageSize : Nat := 4096

def nextPower2 (size : Nat) : Nat :=
  let size := (size + (2 ^ 64 - 1)) % 2 ^ 64
  let size := size ||| size >>> 1
  let size := size ||| size >>> 2
  let size := size ||| size >>> 4
  let size := size ||| size >>> 8
  let size := size ||| size >>> 16
  let size := size ||| size >>> 32
  (size + 1) % 2 ^ 64

/-- `node_t`; a pointer to a node is its index in the node tree, or null. -/
structure Node where
  child0 : Option Nat
  child1 : Option Nat
  ptr : Nat
  size : BitVec 64
  deriving DecidableEq, Repr

/-- A node in zeroed memory. -/
def Node.zero : Node := ⟨none, none, 0, 0⟩

/-- The type of a node. -/
inductive Kind
  | unused
  | leaf
  | parent
  | full
  deriving DecidableEq, Repr

def Kind.bits : Kind → BitVec 64
  | .unused => 0x0000000000000000#64
  | .leaf => 0x4000000000000000#64
  | .parent => 0x8000000000000000#64
  | .full => 0xC000000000000000#64

def kindMask : BitVec 64 := 0xC000000000000000#64

def sizeMask : BitVec 64 := 0x0FFFFFFFFFFFFFFF#64

namespace Node

def getSize (node : Node) : Nat := (getBits node.size sizeMask).toNat

def is (kind : Kind) (node : Node) : Bool := getBits node.size kindMask == kind.bits

def isUnused (node : Node) : Bool := node.is .unused

def isLeaf (node : Node) : Bool := node.is .leaf

def isFull (node : Node) : Bool := node.is .full

def set (kind : Kind) (node : Node) : Node := { node with size := setBits node.size kindMask kind.bits }

def setUnused (node : Node) : Node := node.set .unused

def setLeaf (node : Node) : Node := node.set .leaf

def setParent (node : Node) : Node := node.set .parent

def setFull (node : Node) : Node := node.set .full

end Node

/-- `buddy_allocator`. The view spans `nodesView` nodes, the memory behind it has room for `room`. -/
structure BuddyAllocator where
  buffer : Nat
  bufferSize : Nat
  nodes : Nat → Node
  nodesView : Nat
  room : Nat
  root : Nat
  nodeIndex : Nat

abbrev BuddyM := EStateM Failure BuddyAllocator

namespace BuddyAllocator

def bufferSizeOf (k : Nat) : Nat := 2 ^ k * pageSize % 2 ^ 64

/-- `sizeof(node_t)`. -/
def nodeSize : Nat := 32

def nodeTreeSize (k : Nat) : Nat := (2 * 2 ^ k - 1) * nodeSize % 2 ^ 64

def writeNode (i : Nat) (node : Node) (a : BuddyAllocator) : BuddyAllocator :=
  { a with nodes := fun j => if j = i then node else a.nodes j }

/-- The constructor, on a zeroed node tree of `node_tree_size(k)` bytes. The view counts its bytes as nodes. -/
def construct (buffer k : Nat) : BuddyAllocator :=
  writeNode 0 { Node.zero with ptr := buffer, size := BitVec.ofNat 64 (bufferSizeOf k) }
    { buffer := buffer
      bufferSize := bufferSizeOf k
      nodes := fun _ => Node.zero
      nodesView := nodeTreeSize k
      room := nodeTreeSize k / nodeSize
      root := 0
      nodeIndex := 1 }

def getNode (i : Nat) : BuddyM Node := fun a => .ok (a.nodes i) a

def modifyNode (i : Nat) (f : Node → Node) : BuddyM Unit := fun a => .ok () (writeNode i (f (a.nodes i)) a)

def deref : Option Nat → BuddyM Nat
  | some i => pure i
  | none => throw .nullDereference

/-- `&m_nodes_view[m_node_index++]`, to be written to. -/
def nextNode : BuddyM Nat := do
  let a ← get
  modify fun a => { a with nodeIndex := a.nodeIndex + 1 }
  if a.nodesView ≤ a.nodeIndex then throw .failFast
  else if a.room ≤ a.nodeIndex then throw .overrun
  else pure a.nodeIndex

def getNodes (parent : Nat) : BuddyM Unit := do
  let child0 ← nextNode
  let child1 ← nextNode
  let node ← getNode parent
  let half := node.getSize >>> 1
  modifyNode child0 fun c => { c with size := BitVec.ofNat 64 half, ptr := node.ptr }
  modifyNode child1 fun c => { c with size := BitVec.ofNat 64 half, ptr := (node.ptr + half) % 2 ^ 64 }
  modifyNode parent fun p => { p with child0 := some child0, child1 := some child1 }

/-- The type of a node after an allocation below it. -/
def markAllocated (parent : Nat) : BuddyM Unit := do
  modifyNode parent Node.setParent
  let node ← getNode parent
  let child0 ← getNode (← deref node.child0)
  let child1 ← getNode (← deref node.child1)
  if (child0.isLeaf || child0.isFull) && (child1.isLeaf || child1.isFull) then
    modifyNode parent Node.setFull
  else pure ()

/-- The call for a child; a null pointer is zero. -/
def privateAllocateNext (privateAllocate : Nat → Nat → BuddyM Nat) (size parent node : Nat) : BuddyM Nat := do
  let ptr ← privateAllocate size node
  if ptr ≠ 0 then
    markAllocated parent
    pure ptr
  else pure 0

/-- Whether the search goes on in a child: one of the right size has to be unused, a larger one must not be taken
or full. -/
def searches (size : Nat) (child : Node) : Bool :=
  if size = child.getSize then child.isUnused else !child.isFull && !child.isLeaf

def tryChild (privateAllocate : Nat → Nat → BuddyM Nat) (size node child : Nat) : BuddyM Nat := do
  let c ← getNode child
  if searches size c then privateAllocateNext privateAllocate size node child else pure 0

/-- Every call goes one node down, so the nodes bound the nesting (`fuel`). -/
def privateAllocate : Nat → Nat → Nat → BuddyM Nat
  | 0, _, _ => throw .unbounded
  | fuel + 1, size, i => do
    let node ← getNode i
    if node.isLeaf || node.isFull then pure 0
    else if size = node.getSize then
      if node.isUnused then
        modifyNode i Node.setLeaf
        pure node.ptr
      else pure 0
    else
      if node.child0.isNone then getNodes i else pure ()
      let node ← getNode i
      let ptr ← tryChild (privateAllocate fuel) size i (← deref node.child0)
      if ptr ≠ 0 then pure ptr
      else tryChild (privateAllocate fuel) size i (← deref node.child1)

def allocate (size : Nat) : BuddyM Nat := do
  let a ← get
  if a.bufferSize < size ∨ size = 0 then throw .badAlloc
  else
    let ptr ← privateAllocate a.room (nextPower2 (max size pageSize)) a.root
    if ptr ≠ 0 then pure ptr else throw .badAlloc

/-- The type of a node after a deallocation below it. -/
def markDeallocated (parent : Nat) : BuddyM Unit := do
  modifyNode parent Node.setParent
  let node ← getNode parent
  let child0 ← getNode (← deref node.child0)
  let child1 ← getNode (← deref node.child1)
  if child0.isUnused && child1.isUnused then modifyNode parent Node.setUnused else pure ()

def privateDeallocateNext (privateDeallocate : Nat → Nat → BuddyM Bool) (ptr parent node : Nat) : BuddyM Bool := do
  let res ← privateDeallocate ptr node
  if res then
    markDeallocated parent
    pure true
  else pure false

/-- The child whose block `ptr` is in, if it is in one of them. -/
def childFor (ptr : Nat) (node : Node) : BuddyM Nat := do
  let i ← deref node.child0
  let child0 ← getNode i
  if ptr < (child0.ptr + child0.getSize) % 2 ^ 64 then pure i else deref node.child1

def privateDeallocate : Nat → Nat → Nat → BuddyM Bool
  | 0, _, _ => throw .unbounded
  | fuel + 1, ptr, i => do
    let node ← getNode i
    if node.isLeaf then
      modifyNode i Node.setUnused
      pure true
    else if node.child0.isNone then pure false
    else privateDeallocateNext (privateDeallocate fuel) ptr i (← childFor ptr node)

def deallocate (ptr : Nat) : BuddyM Unit := do
  let a ← get
  if ptr = 0 then pure ()
  else
    let _ ← privateDeallocate a.room ptr a.root
    pure ()

def privateSize : Nat → Nat → Nat → BuddyM Nat
  | 0, _, _ => throw .unbounded
  | fuel + 1, ptr, i => do
    let node ← getNode i
    if node.isLeaf then pure node.getSize
    else if node.child0.isNone then pure 0
    else privateSize fuel ptr (← childFor ptr node)

def size (ptr : Nat) : BuddyM Nat := do
  let a ← get
  if ptr = 0 then pure 0 else privateSize a.room ptr a.root

def contains (a : BuddyAllocator) (ptr : Nat) : Bool :=
  decide (a.buffer ≤ ptr ∧ ptr < (a.buffer + a.bufferSize) % 2 ^ 64)

end BuddyAllocator

end Gevisor.MemoryManager
