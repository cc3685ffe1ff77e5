import Gevisor.Host.Mmap
import Gevisor.MemoryManager.BuddySystem

/-! # Temporary maps

`unique_map_ptr`: a range of the map pool whose pages are mapped in the page tables of the hypervisor while
the object lives. The walks through a guest's page tables map the tables that they read in this way.
-/

namespace Gevisor.Host

open Lib Ept MemoryManager

/-- The page tables and the pool of virtual ranges. -/
structure Host where
  mmap : Mmap
  pool : BuddyAllocator

abbrev HostM := EStateM Err Host

/-- What is in the guest's pages, as 64-bit words. -/
abbrev Memory := Nat → Fin 512 → Entry

def onMmap (c : MapM α) : HostM α := zoom Host.mmap (fun m s => { s with mmap := m }) c

def expects (p : Prop) [Decidable p] : HostM Unit := if p then pure () else throw failFast

/-! ## The pool -/

def memMapPoolStart : Nat := 0x200000

def memMapPoolK : Nat := 15

/-- New page tables and a pool from which nothing has been taken. -/
def Host.init (mm : PagePool) (word : Nat → Fin 512 → Entry) : Host where
  mmap := Mmap.init mm word
  pool := BuddyAllocator.construct memMapPoolStart memMapPoolK

/-- `alloc_map`. Exceptions become the null pointer; what is no exception cannot be caught. -/
def allocMap (size : Nat) : HostM Nat := fun s =>
  match BuddyAllocator.allocate size s.pool with
  | .ok ptr a => .ok ptr { s with pool := a }
  | .error .badAlloc a => .ok 0 { s with pool := a }
  | .error (.runtimeError _) a => .ok 0 { s with pool := a }
  | .error .failFast a => .ok 0 { s with pool := a }
  | .error _ a => .error (.fault .nullDereference) { s with pool := a }

/-- `free_map`, which is `noexcept`. -/
def freeMap (ptr : Nat) : HostM Unit := fun s =>
  match BuddyAllocator.deallocate ptr s.pool with
  | .ok _ a => .ok () { s with pool := a }
  | .error _ a => .error (.fault .nullDereference) { s with pool := a }

/-! ## The object -/

/-- The members of `unique_map_ptr`. -/
structure UniqueMap where
  virt : Nat
  size : Nat
  unalignedSize : Nat
  deriving DecidableEq, Repr

/-- How often a loop runs that goes over `size` bytes page by page. -/
def pages (size : Nat) : Nat := (size + (pageSize - 1)) / pageSize

section Maps

variable (mm : PagePool)

def cleanup (virt size : Nat) : HostM Unit :=
  if virt ≠ 0 ∧ size ≠ 0 then do
    let vmap := upper virt 12
    forFrom (fun i => onMmap (unmap mm (vmap + pageSize * i))) 0 (pages ((vmap + size) % 2 ^ 64 - vmap))
    freeMap vmap
  else pure ()

/-- `~unique_map_ptr`. -/
def UniqueMap.destroy (map : UniqueMap) : HostM Unit := cleanup mm map.virt map.unalignedSize

/-- The lifetime of a local map: it is destroyed when its scope is left, by an exception or not. -/
def withMap (make : HostM UniqueMap) (scope : UniqueMap → HostM α) : HostM α := do
  let map ← make
  ensuring Err.isExn (scope map) (map.destroy mm)

/-- `get()[i]`, read through the page tables of the hypervisor. -/
def load (mem : Memory) (map : UniqueMap) (i : Fin 512) : HostM Entry := fun s =>
  match leafAt mm s.mmap map.virt with
  | some leaf => .ok (mem (Pte.physAddr leaf.entry) i) s
  | none => .error (.fault .nullDereference) s

/-- The constructor for a single page. -/
def mapPage (vmap phys : Nat) (cache : MemoryType) : HostM UniqueMap := do
  expects (vmap ≠ 0)
  expects (lower vmap 12 = 0)
  expects (phys ≠ 0)
  expects (lower phys 12 = 0)
  let _ ← onMmap (map4k mm vmap (upper phys 12) .readWrite cache)
  pure ⟨vmap, pageSize, pageSize⟩

/-- `make_unique_map` for a single page. -/
def makeUniqueMap (phys : Nat) (cache : MemoryType) : HostM UniqueMap := do
  let vmap ← allocMap pageSize
  onThrow Err.isExn (mapPage mm vmap phys cache) (freeMap vmap)

end Maps

end Gevisor.Host
