import Gevisor.Lib.Exec
import Gevisor.Lib.PageTree
import Gevisor.Memory
import Gevisor.Ept.Entry

/-! # The EPT memory map

`ept::mmap` as a state machine on page memory. The object keeps one pair per table level, which is the
table the last walk went through; a walk that finds no table allocates one, also when it only looks an
address up. Entries are handed out as references into table pages.
-/

namespace Gevisor.Ept

open Gevisor.Lib

/-- The table levels of a walk, each with its member `m_pml4`, `m_pdpt`, `m_pd` or `m_pt`. -/
inductive Level
  | pml4
  | pdpt
  | pd
  | pt
  deriving DecidableEq, Repr

namespace Level

/-- `from`: the lowest address bit that the level's index is taken from. -/
def fromBit : Level → Nat
  | .pml4 => 39
  | .pdpt => 30
  | .pd => 21
  | .pt => 12

def index (l : Level) (virt : Nat) : Fin 512 := Fin.ofNat 512 (virt / 2 ^ l.fromBit)

end Level

/-- `pair`: a table by its virtual and its physical address. -/
structure Pair where
  virtAddr : Option Nat
  physAddr : Nat
  deriving DecidableEq, Repr

/-- The members of `mmap`, with the memory behind the table pointers and the pages in use. -/
structure Mmap where
  word : Nat → Fin 512 → Entry
  live : List Nat
  calls : Nat
  pairs : Level → Pair

abbrev MapM := EStateM Err Mmap

/-- `entry_type &`: a word of a table page. -/
structure EntryRef where
  page : Nat
  index : Fin 512
  deriving DecidableEq, Repr

/-- `m_….virt_addr.at(i)`. -/
def spanAt (l : Level) (i : Fin 512) : MapM EntryRef := fun m =>
  match (m.pairs l).virtAddr with
  | some p => .ok ⟨p, i⟩ m
  | none => .error failFast m

def deref (r : EntryRef) : MapM Entry := fun m => .ok (m.word r.page r.index) m

def assign (r : EntryRef) (entry : Entry) : MapM Unit :=
  modify fun m => { m with word := writeWord m.word r.page r.index entry }

def setPair (l : Level) (pair : Pair) : MapM Unit :=
  modify fun m => { m with pairs := Function.update m.pairs l pair }

section Tables

variable (mm : PagePool)

/-- `alloc_page` returns a zeroed page. -/
def allocate : MapM Pair := fun m =>
  let p := mm.allocPage m.calls m.live
  let m := { m with
    word := Function.update m.word p fun _ => 0
    live := p :: m.live
    calls := m.calls + 1 }
  match mm.virtptrToPhysint p with
  | some phys => .ok ⟨some p, phys⟩ m
  | none => .error (.exn ("virtint_to_physint failed: " ++ toHex p)) m

/-- The page goes back to the pool; the pair that names it is not reset. -/
def free (virtAddr : Option Nat) : MapM Unit := fun m =>
  match virtAddr with
  | some p => if p ∈ m.live then .ok () { m with live := m.live.erase p } else .error (.fault .doubleFree) m
  | none => .ok () m

def physToPair (physAddr : Nat) : MapM Pair := fun m =>
  match mm.physintToVirtptr physAddr with
  | some p => .ok ⟨some p, physAddr⟩ m
  | none => .error (.exn ("physint_to_virtint failed: " ++ toHex physAddr)) m

/-- The common body of `map_pdpt`, `map_pd` and `map_pt`: makes the table that `parent`'s entry `i`
names the current one of its level, and allocates it where the entry is zero. -/
def mapTable (parent child : Level) (i : Fin 512) : MapM Unit := do
  let ref ← spanAt parent i
  let entry ← deref ref
  if entry ≠ 0 then
    let m ← get
    if (m.pairs child).physAddr = entry.physAddr then
      pure ()
    else
      let pair ← physToPair mm entry.physAddr
      setPair child pair
  else
    let pair ← allocate mm
    setPair child pair
    assign ref (tableEntry pair.physAddr)

def mapPdpt (pml4i : Fin 512) : MapM Unit := mapTable mm .pml4 .pdpt pml4i

def mapPd (pdpti : Fin 512) : MapM Unit := mapTable mm .pdpt .pd pdpti

def mapPt (pdi : Fin 512) : MapM Unit := mapTable mm .pd .pt pdi

/-- The common body of `map_pdpte`, `map_pde` and `map_pte`. Only the first two set `ps`. -/
def mapLeaf (name : String) (l : Level) (virt phys : Nat) (attr : AttrType) (cache : MemoryType) :
    MapM EntryRef := do
  let ref ← spanAt l (l.index virt)
  let entry ← deref ref
  if entry ≠ 0 then
    throw (.exn (name ++ ": map failed, virt / phys map already exists: " ++ toHex phys))
  else
    assign ref (leafEntry phys attr cache (l ≠ .pt))
    pure ref

def mapPdpte := mapLeaf "map_pdpte" .pdpt

def mapPde := mapLeaf "map_pde" .pd

def mapPte := mapLeaf "map_pte" .pt

def map1g (virt phys : Nat) (attr : AttrType) (cache : MemoryType) : MapM EntryRef := do
  mapPdpt mm (Level.pml4.index virt)
  mapPdpte virt phys attr cache

def map2m (virt phys : Nat) (attr : AttrType) (cache : MemoryType) : MapM EntryRef := do
  mapPdpt mm (Level.pml4.index virt)
  mapPd mm (Level.pdpt.index virt)
  mapPde virt phys attr cache

def map4k (virt phys : Nat) (attr : AttrType) (cache : MemoryType) : MapM EntryRef := do
  mapPdpt mm (Level.pml4.index virt)
  mapPd mm (Level.pdpt.index virt)
  mapPt mm (Level.pd.index virt)
  mapPte virt phys attr cache

def unmap (virt : Nat) : MapM Unit := do
  mapPdpt mm (Level.pml4.index virt)
  let pdpte ← spanAt .pdpt (Level.pdpt.index virt)
  let e ← deref pdpte
  if e = 0 then pure ()
  else if e.ps then assign pdpte 0
  else
    mapPd mm (Level.pdpt.index virt)
    let pde ← spanAt .pd (Level.pd.index virt)
    let e ← deref pde
    if e = 0 then pure ()
    else if e.ps then assign pde 0
    else
      mapPt mm (Level.pd.index virt)
      let pte ← spanAt .pt (Level.pt.index virt)
      assign pte 0

/-- The common walk of `entry`, `virt_to_phys` and `from`: the leaf entry of `virt` and its level. -/
def findLeaf (name : String) (virt : Nat) : MapM (EntryRef × Level) := do
  mapPdpt mm (Level.pml4.index virt)
  let pdpte ← spanAt .pdpt (Level.pdpt.index virt)
  let e ← deref pdpte
  if e = 0 then throw (.exn (name ++ ": pdpte not mapped"))
  else if e.ps then pure (pdpte, .pdpt)
  else
    mapPd mm (Level.pdpt.index virt)
    let pde ← spanAt .pd (Level.pd.index virt)
    let e ← deref pde
    if e = 0 then throw (.exn (name ++ ": pde not mapped"))
    else if e.ps then pure (pde, .pd)
    else
      mapPt mm (Level.pd.index virt)
      let pte ← spanAt .pt (Level.pt.index virt)
      let e ← deref pte
      if e = 0 then throw (.exn (name ++ ": pte not mapped"))
      else pure (pte, .pt)

def entry (virt : Nat) : MapM EntryRef := do
  let leaf ← findLeaf mm "entry" virt
  pure leaf.1

def virtToPhys (virt : Nat) : MapM Nat := do
  let leaf ← findLeaf mm "virt_to_phys" virt
  let e ← deref leaf.1
  pure e.physAddr

/-- `from`. -/
def leafFrom (virt : Nat) : MapM Nat := do
  let leaf ← findLeaf mm "from" virt
  pure leaf.2.fromBit

def is4k (virt : Nat) : MapM Bool := do
  let fromBit ← leafFrom mm virt
  pure (fromBit = Level.pt.fromBit)

/-- The end of the three `release_…` functions: gives the level's current table back if no entry is
left in it, and tells the caller so. -/
def freeIfEmpty (l : Level) : MapM Bool := do
  let m ← get
  match (m.pairs l).virtAddr with
  | none => throw failFast
  | some p =>
    if ∀ i, m.word p i = 0 then
      free (some p)
      pure true
    else
      pure false

def releasePte (virt : Nat) : MapM Bool := do
  mapPt mm (Level.pd.index virt)
  let ref ← spanAt .pt (Level.pt.index virt)
  assign ref 0
  freeIfEmpty .pt

/-- The common body of `release_pdpte` and `release_pde`, once the table of level `l` is the current
one: an entry that is no leaf goes only when the table below it went. -/
def releaseEntry (l : Level) (virt : Nat) (below : MapM Bool) : MapM Bool := do
  let ref ← spanAt l (l.index virt)
  let e ← deref ref
  let gone ← if e.ps then pure true else below
  if gone then
    assign ref 0
    freeIfEmpty l
  else
    pure false

def releasePde (virt : Nat) : MapM Bool := do
  mapPd mm (Level.pdpt.index virt)
  releaseEntry .pd virt (releasePte mm virt)

def releasePdpte (virt : Nat) : MapM Bool := do
  mapPdpt mm (Level.pml4.index virt)
  releaseEntry .pdpt virt (releasePde mm virt)

def release (virt : Nat) : MapM Unit := do
  let gone ← releasePdpte mm virt
  if gone then
    let ref ← spanAt .pml4 (Level.pml4.index virt)
    assign ref 0
  else
    pure ()

/-- A loop over the entries of a table. -/
def forEntries (body : Fin 512 → MapM Unit) : MapM Unit := forFrom (fun i => body (Fin.ofNat 512 i)) 0 512

/-- The end of the three `clear_…` functions: the current table of the level is given back, and its pair
is reset. -/
def freeTable (l : Level) : MapM Unit := do
  let m ← get
  free (m.pairs l).virtAddr
  setPair l ⟨none, 0⟩

/-- The common loop of `clear_pdpt` and `clear_pd`. The reference to the entry is taken before the table
below it goes. -/
def clearEntries (l : Level) (clear : Fin 512 → MapM Unit) : MapM Unit :=
  forEntries fun i => do
    let ref ← spanAt l i
    let e ← deref ref
    if e = 0 then pure ()
    else
      if e.ps then pure () else clear i
      assign ref 0

def clearPt (pdi : Fin 512) : MapM Unit := do
  mapPt mm pdi
  freeTable .pt

def clearPd (pdpti : Fin 512) : MapM Unit := do
  mapPd mm pdpti
  clearEntries .pd (clearPt mm)
  freeTable .pd

def clearPdpt (pml4i : Fin 512) : MapM Unit := do
  mapPdpt mm pml4i
  clearEntries .pdpt (clearPd mm)
  freeTable .pdpt

/-- `~mmap`. The entries of the PML4 are not cleared before its page goes. -/
def destroy : MapM Unit := do
  forEntries fun pml4i => do
    let ref ← spanAt .pml4 pml4i
    let e ← deref ref
    if e = 0 then pure () else clearPdpt mm pml4i
  let m ← get
  free (m.pairs .pml4).virtAddr

/-- The map after its constructor: one zeroed page for the PML4, whose physical address is not yet
looked up. -/
def Mmap.init (word : Nat → Fin 512 → Entry) : Mmap :=
  let p := mm.allocPage 0 []
  { word := Function.update word p fun _ => 0
    live := [p]
    calls := 1
    pairs := fun l => if l = .pml4 then ⟨some p, 0⟩ else ⟨none, 0⟩ }

end Tables

end Gevisor.Ept
