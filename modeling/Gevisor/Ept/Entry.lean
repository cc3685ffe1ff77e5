import Gevisor.Lib.Masks
import Mathlib.Data.BitVec
import Mathlib.Algebra.Order.Ring.Nat
import Mathlib.Data.Nat.Bitwise

/-! # EPT entries

The 64-bit words of the four table levels. All levels keep the access bits, the memory type and the
physical address at the same place; bit 7 marks a leaf of the PDPT or of a page directory.
-/

namespace Gevisor.Ept

variable {m : BitVec 64} {b : Nat}

/-- `entry_type`. -/
abbrev Entry := BitVec 64

def setBit (t : BitVec 64) (b : Nat) : BitVec 64 := t ||| 1#64 <<< b

def clearBit (t : BitVec 64) (b : Nat) : BitVec 64 := t &&& ~~~(1#64 <<< b)

def isBitSet (t : BitVec 64) (b : Nat) : Bool := t.getLsbD b

def getBits (t m : BitVec 64) : BitVec 64 := t &&& m

def setBits (t m v : BitVec 64) : BitVec 64 := (t &&& ~~~m) ||| (v &&& m)

/-- The fields `read_access`, `write_access` and `execute_access`. -/
inductive Access
  | read
  | write
  | execute
  deriving DecidableEq, Repr

def Access.bit : Access → Nat
  | .read => 0
  | .write => 1
  | .execute => 2

def Entry.enable (a : Access) (entry : Entry) : Entry := setBit entry a.bit

def Entry.disable (a : Access) (entry : Entry) : Entry := clearBit entry a.bit

def Entry.isEnabled (a : Access) (entry : Entry) : Bool := isBitSet entry a.bit

namespace Entry

/-- `ps`: the entry maps memory rather than naming a table. -/
def ps (entry : Entry) : Bool := isBitSet entry 7

def enablePs (entry : Entry) : Entry := setBit entry 7

def physAddrMask : BitVec 64 := 0x0000FFFFFFFFF000#64

def physAddr (entry : Entry) : Nat := (getBits entry physAddrMask).toNat

def setPhysAddr (entry : Entry) (val : Nat) : Entry := setBits entry physAddrMask (BitVec.ofNat 64 val)

end Entry

/-- `memory_type`. -/
inductive MemoryType
  | uncacheable
  | writeCombining
  | writeThrough
  | writeProtected
  | writeBack
  deriving DecidableEq, Repr

def MemoryType.val : MemoryType → Nat
  | .uncacheable => 0
  | .writeCombining => 1
  | .writeThrough => 4
  | .writeProtected => 5
  | .writeBack => 6

namespace Entry

def memoryTypeMask : BitVec 64 := 0x0000000000000038#64

def memoryType (entry : Entry) : Nat := (getBits entry memoryTypeMask >>> 3).toNat

def setMemoryType (entry : Entry) (cache : MemoryType) : Entry :=
  setBits entry memoryTypeMask (BitVec.ofNat 64 cache.val <<< 3)

end Entry

/-- `attr_type`. -/
inductive AttrType
  | none
  | readOnly
  | writeOnly
  | executeOnly
  | readWrite
  | readExecute
  | readWriteExecute
  deriving DecidableEq, Repr

/-- The access bits that mapping with the attribute enables. -/
def AttrType.accesses : AttrType → List Access
  | .none => []
  | .readOnly => [.read]
  | .writeOnly => [.write]
  | .executeOnly => [.execute]
  | .readWrite => [.read, .write]
  | .readExecute => [.read, .execute]
  | .readWriteExecute => [.read, .write, .execute]

/-- The word `map_pdpt`, `map_pd` and `map_pt` put into a zero entry for a new table. -/
def tableEntry (phys : Nat) : Entry :=
  (((0 : Entry).setPhysAddr phys).enable .read).enable .write |>.enable .execute

/-- The word `map_pdpte`, `map_pde` (`large`) and `map_pte` put into a zero entry. -/
def leafEntry (phys : Nat) (attr : AttrType) (cache : MemoryType) (large : Bool) : Entry :=
  let entry := attr.accesses.foldl (fun e a => e.enable a) ((0 : Entry).setPhysAddr phys)
  let entry := entry.setMemoryType cache
  if large then entry.enablePs else entry

/-- One statement on an entry obtained from `entry()`: an access bit is switched on or off. -/
inductive Change
  | enable (a : Access)
  | disable (a : Access)
  deriving DecidableEq, Repr

def Change.apply (entry : Entry) : Change → Entry
  | .enable a => entry.enable a
  | .disable a => entry.disable a

def applyChanges (changes : List Change) (entry : Entry) : Entry := changes.foldl Change.apply entry

/-! ## What the operations do to the fields -/

theorem getLsbD_setBit (hbo : b < 64) (t : BitVec 64) (i : Nat) :
    (setBit t b).getLsbD i = (t.getLsbD i || decide (i = b)) := by
  rw [setBit, BitVec.getLsbD_or, ← BitVec.twoPow_eq, BitVec.getLsbD_twoPow]
  by_cases same : i = b
  · simp [same, hbo]
  · simp [same, Ne.symm same]

theorem getLsbD_clearBit (t : BitVec 64) (i : Nat) :
    (clearBit t b).getLsbD i = (t.getLsbD i && decide (i ≠ b)) := by
  rw [clearBit, BitVec.getLsbD_and, BitVec.getLsbD_not, ← BitVec.twoPow_eq, BitVec.getLsbD_twoPow]
  by_cases hi : i < 64
  · by_cases same : i = b
    · simp [same, same ▸ hi]
    · simp [same, Ne.symm same, hi]
  · simp [hi, BitVec.getLsbD_of_ge t i (by omega)]

theorem getBits_setBit (hout : 1#64 <<< b &&& m = 0) (t : BitVec 64) : getBits (setBit t b) m = getBits t m := by
  rw [getBits, setBit, BitVec.and_or_distrib_right, hout]
  exact BitVec.or_zero

theorem getBits_clearBit (hout : ~~~(1#64 <<< b) &&& m = m) (t : BitVec 64) :
    getBits (clearBit t b) m = getBits t m := by
  rw [getBits, clearBit, BitVec.and_assoc, hout, getBits]

theorem getBits_setBits_same (t m v : BitVec 64) : getBits (setBits t m v) m = v &&& m := by
  rw [getBits, setBits, BitVec.and_or_distrib_right, BitVec.and_assoc, BitVec.and_assoc, BitVec.and_self,
    BitVec.and_comm (~~~m) m, BitVec.and_not_self]
  simp

theorem getBits_setBits {m m' : BitVec 64} (hout : m &&& m' = 0) (t v : BitVec 64) :
    getBits (setBits t m v) m' = getBits t m' := by
  have kept : ~~~m &&& m' = m' := by
    ext i hb
    have hap : (m[i] && m'[i]) = false := by
      rw [← BitVec.getElem_and, hout]
      simp
    rw [BitVec.getElem_and, BitVec.getElem_not]
    cases hi : m[i] <;> simp_all
  rw [getBits, setBits, BitVec.and_or_distrib_right, BitVec.and_assoc, BitVec.and_assoc, hout, kept, getBits]
  simp

theorem getLsbD_setBits {i : Nat} (hout : m.getLsbD i = false) (t v : BitVec 64) :
    (setBits t m v).getLsbD i = t.getLsbD i := by
  rw [setBits, BitVec.getLsbD_or, BitVec.getLsbD_and, BitVec.getLsbD_and, BitVec.getLsbD_not, hout]
  by_cases hi : i < 64
  · simp [hi]
  · simp [BitVec.getLsbD_of_ge t i (by omega)]

variable (phys : Nat) (attr : AttrType) (cache : MemoryType) (large : Bool) (a : Access)

theorem Access.bit_lt : a.bit < 3 := by cases a <;> decide

theorem Access.bit_injective {a b : Access} : a.bit = b.bit ↔ a = b := by
  cases a <;> cases b <;> decide

namespace Entry

variable (a : Access) (entry : Entry) (cache : MemoryType)

@[simp] theorem isEnabled_zero : Entry.isEnabled a 0#64 = false := by cases a <;> decide

@[simp] theorem ps_zero : Entry.ps 0#64 = false := by decide

@[simp] theorem isEnabled_enable (b : Access) (entry : Entry) :
    (entry.enable b).isEnabled a = (entry.isEnabled a || decide (a = b)) := by
  simp [isEnabled, enable, isBitSet, getLsbD_setBit (by have := b.bit_lt; omega : b.bit < 64), Access.bit_injective]

@[simp] theorem isEnabled_disable (b : Access) (entry : Entry) :
    (entry.disable b).isEnabled a = (entry.isEnabled a && decide (a ≠ b)) := by
  simp [isEnabled, disable, isBitSet, getLsbD_clearBit, Access.bit_injective]

@[simp] theorem ps_enable : (entry.enable a).ps = entry.ps := by
  have := a.bit_lt
  rw [ps, enable, isBitSet, getLsbD_setBit (by omega), decide_eq_false (by omega), Bool.or_false, ps, isBitSet]

@[simp] theorem ps_disable : (entry.disable a).ps = entry.ps := by
  have := a.bit_lt
  rw [ps, disable, isBitSet, getLsbD_clearBit, decide_eq_true (by omega), Bool.and_true, ps, isBitSet]

@[simp] theorem physAddr_enable : (entry.enable a).physAddr = entry.physAddr := by
  rw [physAddr, enable, getBits_setBit (by cases a <;> decide), physAddr]

@[simp] theorem physAddr_disable : (entry.disable a).physAddr = entry.physAddr := by
  rw [physAddr, disable, getBits_clearBit (by cases a <;> decide), physAddr]

theorem physAddr_setPhysAddr (val : Nat) :
    (entry.setPhysAddr val).physAddr = val % 2 ^ 48 / 4096 * 4096 := by
  rw [physAddr, setPhysAddr, getBits_setBits_same]
  exact Lib.toNat_and_field (n := 36) (by decide) (by decide) val

@[simp] theorem ps_setPhysAddr (val : Nat) : (entry.setPhysAddr val).ps = entry.ps :=
  getLsbD_setBits (by decide) entry _

@[simp] theorem isEnabled_setPhysAddr (val : Nat) :
    (entry.setPhysAddr val).isEnabled a = entry.isEnabled a :=
  getLsbD_setBits (by cases a <;> decide) entry _

@[simp] theorem ps_setMemoryType : (entry.setMemoryType cache).ps = entry.ps :=
  getLsbD_setBits (by decide) entry _

@[simp] theorem isEnabled_setMemoryType :
    (entry.setMemoryType cache).isEnabled a = entry.isEnabled a :=
  getLsbD_setBits (by cases a <;> decide) entry _

@[simp] theorem physAddr_setMemoryType :
    (entry.setMemoryType cache).physAddr = entry.physAddr := by
  rw [physAddr, setMemoryType, getBits_setBits (by decide), physAddr]

@[simp] theorem memoryType_disable : (entry.disable a).memoryType = entry.memoryType := by
  rw [memoryType, disable, getBits_clearBit (by cases a <;> decide), memoryType]

@[simp] theorem memoryType_enablePs : entry.enablePs.memoryType = entry.memoryType := by
  rw [memoryType, enablePs, getBits_setBit (by decide), memoryType]

@[simp] theorem memoryType_setMemoryType :
    (entry.setMemoryType cache).memoryType = cache.val := by
  rw [memoryType, setMemoryType, getBits_setBits_same]
  cases cache <;> decide

@[simp] theorem ps_enablePs : entry.enablePs.ps = true := by
  rw [ps, enablePs, isBitSet, getLsbD_setBit (by decide)]
  simp

@[simp] theorem isEnabled_enablePs : entry.enablePs.isEnabled a = entry.isEnabled a := by
  have := a.bit_lt
  rw [isEnabled, enablePs, isBitSet, getLsbD_setBit (by decide), decide_eq_false (by omega), Bool.or_false,
    isEnabled, isBitSet]

@[simp] theorem physAddr_enablePs : entry.enablePs.physAddr = entry.physAddr := by
  rw [physAddr, enablePs, getBits_setBit (by decide), physAddr]

end Entry

/-! ## The words that mapping writes -/

section Accesses

variable (accesses : List Access) (entry : Entry)

private theorem isEnabled_foldl_enable (a : Access) : (accesses.foldl (fun e b => e.enable b) entry).isEnabled a =
      (entry.isEnabled a || decide (a ∈ accesses)) := by
  induction accesses generalizing entry with
  | nil => simp
  | cons b rest ih => simp [ih, Bool.or_assoc]

private theorem ps_foldl_enable : (accesses.foldl (fun e b => e.enable b) entry).ps = entry.ps := by
  induction accesses generalizing entry with
  | nil => rfl
  | cons b rest ih => simp [ih]

private theorem physAddr_foldl_enable : (accesses.foldl (fun e b => e.enable b) entry).physAddr = entry.physAddr := by
  induction accesses generalizing entry with
  | nil => rfl
  | cons b rest ih => simp [ih]

end Accesses

@[simp] theorem leafEntry_isEnabled : (leafEntry phys attr cache large).isEnabled a = decide (a ∈ attr.accesses) := by
  unfold leafEntry
  split <;> simp [isEnabled_foldl_enable]

@[simp] theorem leafEntry_ps :
    (leafEntry phys attr cache large).ps = large := by
  cases large <;> simp [leafEntry, ps_foldl_enable]

theorem leafEntry_physAddr :
    (leafEntry phys attr cache large).physAddr = phys % 2 ^ 48 / 4096 * 4096 := by
  unfold leafEntry
  split <;> simp [physAddr_foldl_enable, Entry.physAddr_setPhysAddr]

@[simp] theorem leafEntry_memoryType :
    (leafEntry phys attr cache large).memoryType = cache.val := by
  cases large <;> simp [leafEntry]

@[simp] theorem tableEntry_ps : (tableEntry phys).ps = false := by
  simp [tableEntry]

theorem tableEntry_physAddr {phys : Nat} (hbo : phys < 2 ^ 48) (hal : phys % 4096 = 0) :
    (tableEntry phys).physAddr = phys := by
  simp only [tableEntry, Entry.physAddr_enable, Entry.physAddr_setPhysAddr]
  omega

theorem ne_zero_of_isEnabled {entry : Entry} {a : Access} (he : entry.isEnabled a = true) : entry ≠ 0 := by
  rintro rfl
  simp at he

theorem ne_zero_of_ps {entry : Entry} (hl : entry.ps = true) : entry ≠ 0 := by
  rintro rfl
  simp at hl

theorem tableEntry_ne_zero : tableEntry phys ≠ 0 :=
  ne_zero_of_isEnabled (a := .execute) (by simp [tableEntry])

theorem ps_applyChanges (changes : List Change) (entry : Entry) : (applyChanges changes entry).ps = entry.ps := by
  induction changes generalizing entry with
  | nil => rfl
  | cons c rest ih =>
    refine (ih (c.apply entry)).trans ?_
    cases c <;> simp [Change.apply]

theorem physAddr_applyChanges (changes : List Change) (entry : Entry) :
    (applyChanges changes entry).physAddr = entry.physAddr := by
  induction changes generalizing entry with
  | nil => rfl
  | cons c rest ih =>
    refine (ih (c.apply entry)).trans ?_
    cases c <;> simp [Change.apply]

end Gevisor.Ept
