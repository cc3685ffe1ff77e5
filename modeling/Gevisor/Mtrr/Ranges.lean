import Gevisor.Lib.Loop
import Gevisor.Ept.Helpers

/-! # The MTRRs of the machine

`mtrrs.cpp`: the constructor registers the fixed and the variable ranges, flattens them, adds a range
with the default type over all addresses, and flattens again. `std::sort` is a parameter: it may leave
ranges that compare equal in any order.
-/

namespace Gevisor.Mtrr

open Gevisor.Lib
open Gevisor.Ept

/-- `mtrrs::invalid`, which is also the last address. -/
def invalid : Nat := 0xFFFFFFFFFFFFFFFF

/-- `range_t{}`. -/
def emptyRange : Range := ⟨.uncacheable, invalid, invalid⟩

/-- `m_num` and `m_ranges`. -/
structure State where
  num : Nat
  ranges : List Range
  deriving DecidableEq

def State.empty : State := ⟨0, List.replicate 256 emptyRange⟩

abbrev MtrrM := EStateM Err State

def add64 (a b : Nat) : Nat := (a + b) % 2 ^ 64

def sub64 (a b : Nat) : Nat := (a + 2 ^ 64 - b) % 2 ^ 64

def isSubset (range1 range2 : Range) : Bool :=
  range2.base ≥ range1.base && add64 range2.base range2.size ≤ add64 range1.base range1.size

def isIntersecting (range1 range2 : Range) : Bool :=
  range2.base > range1.base && range2.base < add64 range1.base range1.size

def compare (range1 range2 : Range) : Bool :=
  if range1.base = range2.base then range1.size > range2.size else range1.base < range2.base

/-- A `std::sort` with `compare`. No run sorts an array twice, since the sizes in it change from call to
call; so a function of the array is as general as an order chosen at each call. -/
structure Sorter where
  sort : List Range → List Range
  perm : ∀ l, (sort l).Perm l
  sorted : ∀ l, (sort l).Pairwise fun a b => compare b a = false

/-- `std::array::at` with an index that is too large. -/
def outOfRange : Err := .exn "array::at"

def notExclusive : Err := .exn "Unable to create mutually exclusive MTRRs"

def addRange (range : Range) : MtrrM Unit := do
  let s ← get
  if ¬ s.num < 255 then throw failFast
  else if ¬ range.size ≥ pageSize4k then throw failFast
  else if s.ranges.length ≤ s.num then throw outOfRange
  else set { s with num := (s.num + 1) % 2 ^ 8, ranges := s.ranges.set s.num range }

/-- `add_range` under `if (size != 0)`. -/
def addPiece (type : MemoryType) (base size : Nat) : MtrrM Unit :=
  if size ≠ 0 then addRange ⟨type, base, size⟩ else pure ()

/-- The branch of `make_continuous` for a range `r2` inside the range `r1` at index `i`. -/
def splitRange (i : Nat) (r1 r2 : Range) : MtrrM Unit := do
  let size1 := sub64 r2.base r1.base
  let size2 := sub64 (sub64 (add64 r1.base r1.size) r2.base) r2.size
  addPiece r1.type r1.base size1
  addPiece r1.type (add64 r2.base r2.size) size2
  modify fun s => { s with num := (s.num + 2 ^ 8 - 1) % 2 ^ 8, ranges := s.ranges.set i emptyRange }

/-- The loop of `make_continuous` from index `i`, with this many iterations left. -/
def scan : Nat → Nat → MtrrM Bool
  | 0, _ => pure true
  | n + 1, i => do
    let s ← get
    match s.ranges[i]?, s.ranges[i + 1]? with
    | some r1, some r2 =>
      if isSubset r1 r2 then
        splitRange i r1 r2
        pure false
      else if isIntersecting r1 r2 then throw notExclusive
      else scan n ((i + 1) % 2 ^ 8)
    | _, _ => throw outOfRange

/-- `m_num - 1U`, an unsigned 32-bit value. -/
@[irreducible] def scanBound (num : Nat) : Nat := (num + 2 ^ 32 - 1) % 2 ^ 32

def makeContinuous (sorter : Sorter) : MtrrM Bool := do
  modify fun s => { s with ranges := sorter.sort s.ranges }
  let s ← get
  scan (scanBound s.num) 0

/-- The calls of `add_range` for the registered ranges. -/
def addRanges : List Range → MtrrM Unit
  | [] => pure ()
  | range :: ranges => do
    addRange range
    addRanges ranges

/-- A range over all addresses but the last one. -/
def defaultRange (type : MemoryType) : Range := ⟨type, 0, 0xFFFFFFFFFFFFFFFF⟩

/-- The constructor's body for the ranges the two `get_` functions register. -/
def flatten (sorter : Sorter) (registered : List Range) (type : MemoryType) (fuel : Nat) :
    EStateM (Option Err) State Unit := do
  fueled (addRanges registered)
  repeatUntil (makeContinuous sorter) fuel
  fueled (addRange (defaultRange type))
  repeatUntil (makeContinuous sorter) fuel

/-- What `guard_exceptions` leaves: every exception clears the list. -/
def guarded : EStateM.Result (Option Err) State Unit → Option State
  | .ok _ s => some s
  | .error none _ => none
  | .error (some _) _ => some State.empty

/-! ## What the machine registers -/

/-- The registers and the CPUID leaf the constructor reads. -/
structure Registers where
  defType : BitVec 64
  vcnt : BitVec 8
  physbase : Nat → BitVec 64
  physmask : Nat → BitVec 64
  addrSize : BitVec 8

/-- The `switch` on a type field. -/
def memoryType (field : BitVec 64) : MemoryType :=
  if field = 6 then .writeBack
  else if field = 5 then .writeProtected
  else if field = 4 then .writeThrough
  else if field = 1 then .writeCombining
  else .uncacheable

def physbaseToBase (physbase : BitVec 64) : BitVec 64 := physbase <<< 12

def physmaskToSize (addrSize : BitVec 8) (physmask : BitVec 64) : BitVec 64 :=
  ((~~~(physmask <<< 12)) &&& (((1 : BitVec 64) <<< addrSize.toNat) - 1)) + 1

/-- `add_range(ia32_mtrr_physbase, ia32_mtrr_physmask)`. -/
def variableRange (addrSize : BitVec 8) (physbase physmask : BitVec 64) : Range where
  type := memoryType (physbase &&& 0xFF)
  base := (physbaseToBase ((physbase &&& 0x000FFFFFFFFFF000) >>> 12)).toNat
  size := (physmaskToSize addrSize ((physmask &&& 0x000FFFFFFFFFF000) >>> 12)).toNat

/-- `get_fixed_ranges`. -/
def fixedRange : Range := ⟨.uncacheable, 0, 0x100000⟩

/-- `get_variable_ranges`: the pairs whose valid bit is set. -/
def variableRanges (msrs : Registers) : List Range :=
  (List.range msrs.vcnt.toNat).filterMap fun i =>
    if (msrs.physmask i).getLsbD 11 then some (variableRange msrs.addrSize (msrs.physbase i) (msrs.physmask i))
    else none

/-- `mtrrs::mtrrs`. -/
def construct (sorter : Sorter) (msrs : Registers) (fuel : Nat) : Option State :=
  if msrs.defType.getLsbD 11 = false then
    guarded (fueled (addRange (defaultRange .writeBack)) State.empty)
  else
    guarded (flatten sorter (fixedRange :: variableRanges msrs) (memoryType (msrs.defType &&& 7)) fuel State.empty)

end Gevisor.Mtrr
