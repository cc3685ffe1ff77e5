import Gevisor.Host.UniqueMap

/-! # Walks through a guest's page tables

The walks of `unique_map.h` and `paging_utils.h`, which map every table they read for as long as the walk
lasts, and the constructors that map guest memory page by page.
-/

namespace Gevisor.Host

open Lib Ept MemoryManager

section Walks

variable (mm : PagePool) (mem : Memory)

def virtToPhysWithCr3 (virt cr3 : Nat) : HostM Nat := do
  expects (cr3 ≠ 0)
  expects (virt ≠ 0)
  withMap mm (makeUniqueMap mm (upper cr3 12) .writeBack) fun pml4Map => do
    let pml4Pte ← load mm mem pml4Map (Level.pml4.index virt)
    expects (Pte.physAddr pml4Pte ≠ 0)
    expects (Pte.present pml4Pte = true)
    withMap mm (makeUniqueMap mm (Pte.physAddr pml4Pte) .writeBack) fun pdptMap => do
      let pdptPte ← load mm mem pdptMap (Level.pdpt.index virt)
      expects (Pte.physAddr pdptPte ≠ 0)
      expects (Pte.present pdptPte = true)
      if Pte.ps pdptPte then
        pure (upper (Pte.physAddr pdptPte) Level.pdpt.fromBit ||| lower virt Level.pdpt.fromBit)
      else
        withMap mm (makeUniqueMap mm (Pte.physAddr pdptPte) .writeBack) fun pdMap => do
          let pdPte ← load mm mem pdMap (Level.pd.index virt)
          expects (Pte.physAddr pdPte ≠ 0)
          expects (Pte.present pdPte = true)
          if Pte.ps pdPte then
            pure (upper (Pte.physAddr pdPte) Level.pd.fromBit ||| lower virt Level.pd.fromBit)
          else
            withMap mm (makeUniqueMap mm (Pte.physAddr pdPte) .writeBack) fun ptMap => do
              let ptPte ← load mm mem ptMap (Level.pt.index virt)
              expects (Pte.physAddr ptPte ≠ 0)
              expects (Pte.present ptPte = true)
              pure (upper (Pte.physAddr ptPte) Level.pt.fromBit ||| lower virt Level.pt.fromBit)

def customVirtToPhysWithCr3 (virt cr3 : Nat) : HostM Nat := do
  expects (cr3 ≠ 0)
  expects (virt ≠ 0)
  withMap mm (makeUniqueMap mm (upper cr3 12) .writeBack) fun pml4Map => do
    let pml4Pte ← load mm mem pml4Map (Level.pml4.index virt)
    if Pte.physAddr pml4Pte = 0 ∨ Pte.present pml4Pte = false then pure 0
    else
      withMap mm (makeUniqueMap mm (Pte.physAddr pml4Pte) .writeBack) fun pdptMap => do
        let pdptPte ← load mm mem pdptMap (Level.pdpt.index virt)
        if Pte.physAddr pdptPte = 0 ∨ Pte.present pdptPte = false then pure 0
        else if Pte.ps pdptPte then
          pure (upper (Pte.physAddr pdptPte) Level.pdpt.fromBit ||| lower virt Level.pdpt.fromBit)
        else
          withMap mm (makeUniqueMap mm (Pte.physAddr pdptPte) .writeBack) fun pdMap => do
            let pdPte ← load mm mem pdMap (Level.pd.index virt)
            if Pte.physAddr pdPte = 0 ∨ Pte.present pdPte = false then pure 0
            else if Pte.ps pdPte then
              pure (upper (Pte.physAddr pdPte) Level.pd.fromBit ||| lower virt Level.pd.fromBit)
            else
              withMap mm (makeUniqueMap mm (Pte.physAddr pdPte) .writeBack) fun ptMap => do
                let ptPte ← load mm mem ptMap (Level.pt.index virt)
                if Pte.physAddr ptPte = 0 ∨ Pte.present ptPte = false then pure 0
                else pure (upper (Pte.physAddr ptPte) Level.pt.fromBit ||| lower virt Level.pt.fromBit)

/-- The walk in `map_with_cr3`: the address in the entry that maps `virt`, and the level it was found on. -/
def findFrame (pml4Addr virt : Nat) : HostM (Nat × Level) :=
  withMap mm (makeUniqueMap mm pml4Addr .writeBack) fun pml4Map => do
    let pml4Pte ← load mm mem pml4Map (Level.pml4.index virt)
    expects (Pte.physAddr pml4Pte ≠ 0)
    expects (Pte.present pml4Pte = true)
    withMap mm (makeUniqueMap mm (Pte.physAddr pml4Pte) .writeBack) fun pdptMap => do
      let pdptPte ← load mm mem pdptMap (Level.pdpt.index virt)
      expects (Pte.physAddr pdptPte ≠ 0)
      expects (Pte.present pdptPte = true)
      if Pte.ps pdptPte then pure (Pte.physAddr pdptPte, .pdpt)
      else
        withMap mm (makeUniqueMap mm (Pte.physAddr pdptPte) .writeBack) fun pdMap => do
          let pdPte ← load mm mem pdMap (Level.pd.index virt)
          expects (Pte.physAddr pdPte ≠ 0)
          expects (Pte.present pdPte = true)
          if Pte.ps pdPte then pure (Pte.physAddr pdPte, .pd)
          else
            withMap mm (makeUniqueMap mm (Pte.physAddr pdPte) .writeBack) fun ptMap => do
              let ptPte ← load mm mem ptMap (Level.pt.index virt)
              expects (Pte.physAddr ptPte ≠ 0)
              expects (Pte.present ptPte = true)
              pure (Pte.physAddr ptPte, .pt)

/-! ## Mapping guest memory -/

/-- One round of the loop of `map_with_cr3`. -/
def mapGuestPage (vmap virt pml4Addr offset : Nat) : HostM Unit := do
  let currentVirt := (virt + offset) % 2 ^ 64
  let found ← findFrame mm mem pml4Addr currentVirt
  let padr := upper found.1 found.2.fromBit ||| lower currentVirt found.2.fromBit
  let _ ← onMmap (map4k mm (vmap + offset) (upper padr 12) .readWrite .writeBack)

def mapWithCr3 (vmap virt cr3 size : Nat) : HostM Unit := do
  let pml4Addr := upper cr3 12
  expects (vmap ≠ 0)
  expects (lower vmap 12 = 0)
  expects (virt ≠ 0)
  expects (pml4Addr ≠ 0)
  expects (size ≠ 0)
  forFrom (fun i => mapGuestPage mm mem vmap virt pml4Addr (pageSize * i)) 0 (pages size)

/-- The constructor for a range of guest memory. -/
def mapGuest (vmap virt cr3 size : Nat) : HostM UniqueMap := do
  let unalignedSize := (size + lower virt 12) % 2 ^ 64
  mapWithCr3 mm mem vmap virt cr3 unalignedSize
  pure ⟨lower virt 12 ||| upper vmap 12, size, unalignedSize⟩

/-- `make_unique_map(virt, cr3, size)`. -/
def makeUniqueMapGuest (virt cr3 size : Nat) : HostM UniqueMap := do
  let vmap ← allocMap ((size + lower virt 12) % 2 ^ 64)
  onThrow Err.isExn (mapGuest mm mem vmap virt cr3 size) (freeMap vmap)

/-- The checks on the ranges of a list. -/
def expectRanges : List (Nat × Nat) → HostM Unit
  | [] => pure ()
  | range :: rest => do
    expects (range.1 ≠ 0)
    expects (range.2 ≠ 0)
    expects (lower range.2 12 = 0)
    expectRanges rest

/-- The two loops that map the ranges of a list, from `vmap + voff` on. -/
def mapRanges (vmap : Nat) : Nat → List (Nat × Nat) → HostM Unit
  | _, [] => pure ()
  | voff, range :: rest => do
    forFrom (fun i => do
      let _ ← onMmap (map4k mm ((vmap + voff + pageSize * i) % 2 ^ 64) ((upper range.1 12 + pageSize * i) % 2 ^ 64)
        .readWrite .writeBack)) 0 (pages range.2)
    mapRanges vmap (voff + range.2) rest

/-- The sum of the sizes, a 64-bit number. -/
def totalSize (list : List (Nat × Nat)) : Nat := (list.map Prod.snd).sum % 2 ^ 64

/-- The constructor for a list of physical ranges. -/
def mapList (vmap : Nat) (list : List (Nat × Nat)) : HostM UniqueMap := do
  expects (vmap ≠ 0)
  expects (lower vmap 12 = 0)
  expects (list ≠ [])
  expectRanges list
  mapRanges mm vmap 0 list
  pure ⟨lower (list.head?.getD (0, 0)).1 12 ||| upper vmap 12, totalSize list, totalSize list⟩

/-- `make_unique_map` for a list of physical ranges. -/
def makeUniqueMapList (list : List (Nat × Nat)) : HostM UniqueMap := do
  let vmap ← allocMap (totalSize list)
  onThrow Err.isExn (mapList mm vmap list) (freeMap vmap)

end Walks

end Gevisor.Host
