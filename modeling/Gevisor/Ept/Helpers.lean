import Gevisor.Ept.Mmap

/-! # Identity maps -/

namespace Gevisor.Ept

open Gevisor.Lib

def pageSize2m : Nat := 2 ^ 21

def pageSize4k : Nat := 2 ^ 12

/-- `mtrrs::range_t`. -/
structure Range where
  type : MemoryType
  base : Nat
  size : Nat
  deriving DecidableEq, Repr

namespace Range

/-- The end address belongs to the range as well. -/
def contains (r : Range) (addr : Nat) : Bool := r.base ≤ addr && addr ≤ r.base + r.size

def distance (r : Range) (addr : Nat) : Nat := r.size - (addr - r.base)

end Range

/-- The ranges lie one after another from `start` to the last address. -/
def Contiguous : Nat → List Range → Prop
  | start, [] => start = 2 ^ 64 - 1
  | start, r :: rest => r.base = start ∧ 0 < r.size ∧ Contiguous (start + r.size) rest

/-- `g_mtrrs`: the memory types of the machine, as ranges that partition the address space. -/
structure Mtrrs where
  ranges : List Range
  contiguous : Contiguous 0 ranges

/-- One range over all addresses. -/
instance : Inhabited Mtrrs where
  default := { ranges := [⟨.writeBack, 0, 2 ^ 64 - 1⟩], contiguous := ⟨rfl, by decide, Nat.zero_add _⟩ }

section Helpers

variable (mm : PagePool)

def identityRelease4k (saddr eaddr : Nat) : MapM Unit := do
  if lower saddr Level.pt.fromBit ≠ 0 then throw failFast
  else if lower eaddr Level.pt.fromBit ≠ 0 then throw failFast
  else forFrom (fun k => release mm (saddr + k * pageSize4k)) 0 ((eaddr - saddr) / pageSize4k)

def identityMapConvert4kTo2m (addr : Nat) (attr : AttrType) (cache : MemoryType) : MapM Unit := do
  if lower addr Level.pd.fromBit ≠ 0 then throw failFast
  else
    let small ← is4k mm addr
    if !small then throw failFast
    else
      identityRelease4k mm addr ((addr + pageSize2m) % 2 ^ 64)
      let _ ← map2m mm addr addr attr cache
      pure ()

/-- The loop of `identity_map`: `ranges` is what the range iterator has left. -/
def identityMapFrom (attr : AttrType) (eaddr : Nat) (ranges : List Range) (saddr : Nat) : MapM Unit := do
  if saddr < eaddr then
    match ranges.dropWhile fun r => !r.contains saddr with
    | [] => throw (.fault .iteratorPastEnd)
    | range :: rest =>
      if lower saddr Level.pd.fromBit = 0 ∧ pageSize2m ≤ min (range.distance saddr) (eaddr - saddr) then
        let _ ← map2m mm saddr saddr attr range.type
        identityMapFrom attr eaddr (range :: rest) (saddr + pageSize2m)
      else
        let _ ← map4k mm saddr saddr attr range.type
        identityMapFrom attr eaddr (range :: rest) (saddr + pageSize4k)
  else
    pure ()
termination_by eaddr - saddr
decreasing_by all_goals simp only [pageSize2m, pageSize4k]; omega

def identityMap (mtrrs : Mtrrs) (saddr eaddr : Nat) (attr : AttrType) : MapM Unit := do
  if mtrrs.ranges.length = 0 then throw failFast
  else if lower saddr Level.pd.fromBit ≠ 0 then throw failFast
  else if lower eaddr Level.pd.fromBit ≠ 0 then throw failFast
  else identityMapFrom mm attr eaddr mtrrs.ranges saddr

end Helpers

end Gevisor.Ept
