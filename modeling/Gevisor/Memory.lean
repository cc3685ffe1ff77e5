import Mathlib.Algebra.CharZero.Defs
import Mathlib.Data.BitVec
import Mathlib.Algebra.Order.Ring.Nat
import Mathlib.Data.List.Nodup
import Mathlib.Data.List.Perm.Subperm
import Mathlib.Data.Nat.Find

/-! # Exceptions, address helpers and the memory manager -/

namespace Gevisor

/-- A table has entries. -/
instance neZeroEntries : NeZero 512 := ⟨by decide⟩

/-- The fixed-size arrays in which frames and buffers are tracked. -/
inductive TrackingArray
  | sgxPaddrs
  | sgxVaddrs
  | sgxGuestPteShadow
  | gpuBuffers
  | gpuPaddrs
  deriving DecidableEq, Repr

/-- Behaviour the language leaves undefined. Nothing the hypervisor does afterwards is accounted for. -/
inductive Fault
  | outOfBounds (array : TrackingArray) (index : Nat)
  | nullDereference
  | emptyVector
  | doubleFree
  | iteratorPastEnd
  deriving DecidableEq, Repr

/-- What stops a function early: a C++ exception, or a fault. -/
inductive Err
  | exn (what : String)
  | fault (f : Fault)
  deriving DecidableEq, Repr

def Err.isExn : Err → Bool
  | .exn _ => true
  | .fault _ => false

/-- A violated `expects`, or an index outside a `gsl::span`, throws `gsl::fail_fast`. -/
def failFast : Err := .exn "GSL: Precondition failure"

def lower (val nbits : Nat) : Nat := val % 2 ^ nbits

def upper (val nbits : Nat) : Nat := val / 2 ^ nbits * 2 ^ nbits

/-- `bfn::to_string(val, 16)`: eighteen columns, filled with zeros after the base, which the stream
leaves out for zero. -/
def toHex (val : Nat) : String :=
  let digits := String.ofList (Nat.toDigits 16 val)
  let start := if val = 0 then "" else "0x"
  start ++ String.ofList (List.replicate (18 - start.length - digits.length) '0') ++ digits

/-- How many tables a map can have: the PML4 and 512, 512² and 512³ tables below it. -/
def maxTables : Nat := 1 + 512 + 512 ^ 2 + 512 ^ 3

/-- The part of the memory manager that a memory map uses. Allocation may depend on how many calls
came before (`calls`) and on the pages in use; it hands out an unused page as long as a map can need
one. The two translations are inverse to each other on pages. -/
structure PagePool where
  IsPage : Nat → Prop
  allocPage : (calls : Nat) → (live : List Nat) → Nat
  virtptrToPhysint : Nat → Option Nat
  physintToVirtptr : Nat → Option Nat
  alloc_isPage : ∀ calls live, live.Nodup → (∀ p ∈ live, IsPage p) → live.length < maxTables →
    IsPage (allocPage calls live)
  alloc_fresh : ∀ calls live, live.Nodup → (∀ p ∈ live, IsPage p) → live.length < maxTables →
    allocPage calls live ∉ live
  translate : ∀ p, IsPage p → ∃ phys, virtptrToPhysint p = some phys ∧ physintToVirtptr phys = some p ∧
    0 < phys ∧ phys < 2 ^ 48 ∧ phys % 4096 = 0

namespace PagePool

variable {mm : PagePool}

/-- The physical address of a page; zero for what is not a page. -/
def phys (mm : PagePool) (p : Nat) : Nat := (mm.virtptrToPhysint p).getD 0

variable {p : Nat}

theorem virtptrToPhysint_page (page : mm.IsPage p) : mm.virtptrToPhysint p = some (mm.phys p) := by
  obtain ⟨_, hf, -⟩ := mm.translate p page
  simp [phys, hf]

theorem physintToVirtptr_phys (page : mm.IsPage p) : mm.physintToVirtptr (mm.phys p) = some p := by
  obtain ⟨_, hf, back, -⟩ := mm.translate p page
  simpa [phys, hf] using back

theorem phys_pos (page : mm.IsPage p) : 0 < mm.phys p := by
  obtain ⟨_, hf, -, hpos, -⟩ := mm.translate p page
  simpa [phys, hf] using hpos

theorem phys_lt (page : mm.IsPage p) : mm.phys p < 2 ^ 48 := by
  obtain ⟨_, hf, -, -, hbo, -⟩ := mm.translate p page
  simpa [phys, hf] using hbo

theorem phys_aligned (page : mm.IsPage p) : mm.phys p % 4096 = 0 := by
  obtain ⟨_, hf, -, -, -, hal⟩ := mm.translate p page
  simpa [phys, hf] using hal

/-- Among the first pages there is one that is not in use. -/
theorem exists_unused (live : List Nat) : ∃ k, k ≤ live.length ∧ 4096 * (k + 1) ∉ live := by
  by_contra all
  push Not at all
  let candidates := (List.range (live.length + 1)).map fun k => 4096 * (k + 1)
  have hd : candidates.Nodup :=
    List.Nodup.map (fun a b (same : 4096 * (a + 1) = 4096 * (b + 1)) => by omega) List.nodup_range
  have hi : candidates ⊆ live := by
    intro p hm
    obtain ⟨k, hb, rfl⟩ := List.mem_map.mp hm
    exact all k (by have := List.mem_range.mp hb; omega)
  have hs := (hd.subperm hi).length_le
  simp only [candidates, List.length_map, List.length_range] at hs
  omega

/-- The pages of physical memory from the second on, handed out from below. -/
instance : Inhabited PagePool where
  default := {
    IsPage := fun p => 0 < p ∧ p < 2 ^ 48 ∧ p % 4096 = 0
    allocPage := fun _ live => 4096 * (Nat.find (exists_unused live) + 1)
    virtptrToPhysint := some
    physintToVirtptr := some
    alloc_isPage := fun _ live _ _ room => by
      have low := (Nat.find_spec (exists_unused live)).1
      simp only [maxTables] at room
      omega
    alloc_fresh := fun _ live _ _ _ => (Nat.find_spec (exists_unused live)).2
    translate := fun p page => ⟨p, rfl, rfl, page.1, page.2.1, page.2.2⟩ }

end PagePool

end Gevisor
