import Gevisor.MemoryManager.ObjectAllocator

/-! # The memory manager's pools

`memory_manager::alloc`, `alloc_page`, `free` and `size`, and the C functions on top of them. Nine object allocators
serve small requests and take their pages from the page pool, which serves pages, too. Everything larger than a page
comes from the huge pool. `free` and `size` find the owner of a pointer by asking one allocator after the other.
-/

namespace Gevisor.MemoryManager

open Lib

/-- `g_page_pool_k` and `g_huge_pool_k`. -/
def poolK : Nat := 15

inductive SlabId
  | slab010
  | slab020
  | slab030
  | slab040
  | slab080
  | slab100
  | slab200
  | slab400
  | slab800
  deriving DecidableEq, Repr

namespace SlabId

def objectSize : SlabId → Nat
  | slab010 => 0x010
  | slab020 => 0x020
  | slab030 => 0x030
  | slab040 => 0x040
  | slab080 => 0x080
  | slab100 => 0x100
  | slab200 => 0x200
  | slab400 => 0x400
  | slab800 => 0x800

/-- The slabs in the order in which they are asked. -/
def all : List SlabId := [slab010, slab020, slab030, slab040, slab080, slab100, slab200, slab400, slab800]

end SlabId

/-- The page pool, and memory as clients see it. What the allocators keep in their own pages is in their stacks. -/
structure PageMemory where
  pool : BuddyAllocator
  memory : Nat → BitVec 8

structure Heap where
  pages : PageMemory
  hugePool : BuddyAllocator
  slabs : SlabId → ObjectAllocator

abbrev HeapM := EStateM Failure Heap

/-- `catch (...)`: the null pointer takes the place of an exception. -/
def orNull {σ : Type} (c : EStateM Failure σ Nat) : EStateM Failure σ Nat := fun s => match c s with
  | .ok p t => .ok p t
  | .error e t => if e.isExn then .ok 0 t else .error e t

def memset (p len : Nat) (val : BitVec 8) (memory : Nat → BitVec 8) : Nat → BitVec 8 := fun a =>
  if p ≤ a ∧ a < p + len then val else memory a

def memcpy (dst src len : Nat) (memory : Nat → BitVec 8) : Nat → BitVec 8 := fun a =>
  if dst ≤ a ∧ a < dst + len then memory (src + (a - dst)) else memory a

namespace PageMemory

def onPool {α : Type} (c : BuddyM α) : EStateM Failure PageMemory α := zoom pool (fun a s => { s with pool := a }) c

/-- `memory_manager::alloc_page`. -/
def allocPage : EStateM Failure PageMemory Nat := orNull (onPool (BuddyAllocator.allocate pageSize))

/-- The C function `alloc_page`. The page is cleared without a look at the pointer. -/
def allocPageCleared : EStateM Failure PageMemory Nat := do
  let p ← allocPage
  if p = 0 then throw .nullDereference
  else do
    modify fun s => { s with memory := memset p pageSize 0 s.memory }
    pure p

end PageMemory

namespace Heap

def onPages {α : Type} (c : EStateM Failure PageMemory α) : HeapM α := zoom pages (fun p h => { h with pages := p }) c

def onHugePool {α : Type} (c : BuddyM α) : HeapM α := zoom hugePool (fun a h => { h with hugePool := a }) c

def onSlab {α : Type} (id : SlabId) (c : SlabM PageMemory α) : HeapM α :=
  zoom (fun h => ⟨h.slabs id, h.pages⟩)
    (fun s h => { h with pages := s.source, slabs := Function.update h.slabs id s.allocator }) c

/-- The slab for requests of `size` bytes. -/
def slabFor (size : Nat) : Option SlabId := SlabId.all.find? fun id => size ≤ id.objectSize

def allocFrom (size : Nat) : HeapM Nat := match slabFor size with
  | some id => onSlab id (ObjectAllocator.allocate PageMemory.allocPageCleared)
  | none => if pageSize < size then onHugePool (BuddyAllocator.allocate size) else onPages PageMemory.allocPage

def alloc (size : Nat) : HeapM Nat := if size = 0 then pure 0 else orNull (allocFrom size)

def allocPage : HeapM Nat := onPages PageMemory.allocPage

/-- The slab that contains a pointer. -/
def slabOf (h : Heap) (ptr : Nat) : Option SlabId := SlabId.all.find? fun id => (h.slabs id).contains ptr

def freePage (ptr : Nat) : HeapM Unit := onPages (PageMemory.onPool (BuddyAllocator.deallocate ptr))

def free (ptr : Nat) : HeapM Unit := do
  let h ← get
  match h.slabOf ptr with
  | some id => onSlab id (ObjectAllocator.deallocate PageMemory.allocPageCleared ptr)
  | none => if h.hugePool.contains ptr then onHugePool (BuddyAllocator.deallocate ptr) else freePage ptr

def sizePage (ptr : Nat) : HeapM Nat := do
  let h ← get
  if h.pages.pool.contains ptr then onPages (PageMemory.onPool (BuddyAllocator.size ptr)) else pure 0

def size (ptr : Nat) : HeapM Nat := do
  let h ← get
  match h.slabOf ptr with
  | some id => pure (h.slabs id).size
  | none => if h.hugePool.contains ptr then onHugePool (BuddyAllocator.size ptr) else sizePage ptr

/-- What `_realloc_r` does once it has a new block. -/
def moveTo (newPtr ptr len : Nat) : HeapM Unit := do
  modify fun h => { h with pages := { h.pages with memory := memcpy newPtr ptr len h.pages.memory } }
  free ptr

/-- `_realloc_r`. -/
def reallocR (ptr size : Nat) : HeapM Nat := do
  let oldSze ← Heap.size ptr
  let newPtr ← alloc size
  if newPtr = 0 ∨ oldSze = 0 then pure 0
  else if ptr ≠ 0 then do
    moveTo newPtr ptr (if oldSze < size then oldSze else size)
    pure newPtr
  else pure newPtr

/-- The constructor, with buffers at `page` and `huge`. Slabs without a page budget start without pages. -/
def boot (page huge : Nat) (memory : Nat → BitVec 8) : Heap where
  pages := ⟨BuddyAllocator.construct page poolK, memory⟩
  hugePool := BuddyAllocator.construct huge poolK
  slabs id := ObjectAllocator.empty id.objectSize 0

end Heap

end Gevisor.MemoryManager
