import Gevisor.Vmm.State

/-! # Guest page tables

`paging_utils.h`: where the EPC is, the scan of a guest's page tables for EPC pages, and the translation
of a guest address. The functions work on copies of guest entries, so guest memory stays as it is.
-/

namespace Gevisor.Vmm

open Gevisor.Lib
open Gevisor.Ept

/-- What CPUID leaf 12H, sub-leaf 2 answers, and the MTRRs. -/
structure Platform where
  eax : BitVec 32
  ebx : BitVec 32
  ecx : BitVec 32
  edx : BitVec 32
  mtrrs : Mtrrs

/-- The EPC is the 2M frame at 2M. -/
instance : Inhabited Platform where
  default := { eax := 0x200000, ebx := 0, ecx := 0x200000, edx := 0, mtrrs := default }

/-- An address or size that CPUID splits over two registers. -/
def cpuidAddress (high low : BitVec 32) : Nat :=
  (high &&& 0xfffff#32).toNat * 2 ^ 32 + (low &&& 0xfffff000#32).toNat

def locateEpc (platform : Platform) (g : Globals) : Globals :=
  { g with
    epcBaseAddress := cpuidAddress platform.ebx platform.eax
    epcSize := cpuidAddress platform.edx platform.ecx }

namespace GuestPte

def physAddr (pte : BitVec 64) : Nat := (getBits pte 0x000FFFFFFFFFF000#64).toNat

def present (pte : BitVec 64) : Bool := isBitSet pte 0

def ps (pte : BitVec 64) : Bool := isBitSet pte 7

end GuestPte

/-- `make_unique_map` accepts a non-zero page address. -/
def mapsPage (phys : Nat) : Bool := phys ≠ 0 && lower phys 12 = 0

/-- `custom_virt_to_phys_with_cr3`: zero stands for an address that is not mapped. -/
def customVirtToPhysWithCr3 (mem : GuestMem) (virt cr3 : Nat) : Except Err Nat :=
  if cr3 = 0 then .error failFast
  else if virt = 0 then .error failFast
  else if !mapsPage (upper cr3 12) then .error failFast
  else
    let pml4Pte := mem (upper cr3 12) (Level.pml4.index virt)
    if GuestPte.physAddr pml4Pte = 0 || !GuestPte.present pml4Pte then .ok 0
    else
      let pdptPte := mem (GuestPte.physAddr pml4Pte) (Level.pdpt.index virt)
      if GuestPte.physAddr pdptPte = 0 || !GuestPte.present pdptPte then .ok 0
      else if GuestPte.ps pdptPte then
        .ok (upper (GuestPte.physAddr pdptPte) Level.pdpt.fromBit ||| lower virt Level.pdpt.fromBit)
      else
        let pdPte := mem (GuestPte.physAddr pdptPte) (Level.pd.index virt)
        if GuestPte.physAddr pdPte = 0 || !GuestPte.present pdPte then .ok 0
        else if GuestPte.ps pdPte then
          .ok (upper (GuestPte.physAddr pdPte) Level.pd.fromBit ||| lower virt Level.pd.fromBit)
        else
          let ptPte := mem (GuestPte.physAddr pdPte) (Level.pt.index virt)
          if GuestPte.physAddr ptPte = 0 || !GuestPte.present ptPte then .ok 0
          else .ok (upper (GuestPte.physAddr ptPte) Level.pt.fromBit ||| lower virt Level.pt.fromBit)

/-! ## The scan for EPC pages -/

/-- A page counts as an EPC page up to and including the address where the EPC ends. -/
def isEpcPage (g : Globals) (paddr : Nat) : Prop :=
  paddr ≠ 0 ∧ g.epcBaseAddress ≤ paddr ∧ paddr ≤ g.epcBaseAddress + g.epcSize

instance (g : Globals) (paddr : Nat) : Decidable (isEpcPage g paddr) := inferInstanceAs (Decidable (_ ∧ _))

/-- The page is noted while there is room and counted in any case. -/
def recordEpcPage (paddr : Nat) (g : Globals) : Globals :=
  { g with
    sgxPaddrs :=
      if g.modifiedPages < sgxPages then Function.update g.sgxPaddrs g.modifiedPages paddr else g.sgxPaddrs
    modifiedPages := (g.modifiedPages + 1) % 2 ^ 64 }

section Scan

variable {E : Type}

/-- Visits the 512 entries of a guest table. -/
def forEntries (page : Nat) (visit : BitVec 64 → VmmM E Unit) : VmmM E Unit :=
  if mapsPage page then
    forFrom (fun i => do
      let g ← getG
      visit (g.mem page (Fin.ofNat 512 i))) 0 512
  else throw failFast

/-- The entries are not required to be present. -/
def accessAllPt (pdPte : BitVec 64) : VmmM E Unit :=
  forEntries (GuestPte.physAddr pdPte) fun ptPte => do
    let g ← getG
    if isEpcPage g (GuestPte.physAddr ptPte) then modifyG (recordEpcPage (GuestPte.physAddr ptPte))
    else pure ()

def accessAllPdt (pdptPte : BitVec 64) : VmmM E Unit :=
  forEntries (GuestPte.physAddr pdptPte) fun pdPte =>
    if GuestPte.physAddr pdPte ≠ 0 ∧ GuestPte.present pdPte ∧ ¬ GuestPte.ps pdPte then accessAllPt pdPte
    else pure ()

def accessAllPdpt (pml4Pte : BitVec 64) : VmmM E Unit :=
  forEntries (GuestPte.physAddr pml4Pte) fun pdptPte =>
    if GuestPte.physAddr pdptPte ≠ 0 ∧ GuestPte.present pdptPte ∧ ¬ GuestPte.ps pdptPte then
      accessAllPdt pdptPte
    else pure ()

def accessAllPml4 (cr3 : Nat) : VmmM E Unit :=
  if cr3 = 0 then throw failFast
  else
    forEntries (upper cr3 12) fun pml4Pte =>
      if GuestPte.physAddr pml4Pte ≠ 0 ∧ GuestPte.present pml4Pte then accessAllPdpt pml4Pte
      else pure ()

end Scan

end Gevisor.Vmm
