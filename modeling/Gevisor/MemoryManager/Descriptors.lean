import Gevisor.Lib.Exec
import Gevisor.Lib.Transition
import Gevisor.Memory
import Mathlib.Logic.Function.Basic

/-! # Memory descriptors

The part of the memory manager that knows which virtual page lies at which physical address
(`add_md`, `remove_md` and the conversions between the two, in `memory_manager.cpp`).
-/

namespace Gevisor.MemoryManager

open Lib

structure VirtT where
  phys : Nat
  attr : Nat
  deriving DecidableEq, Repr

structure PhysT where
  virt : Nat
  attr : Nat
  deriving DecidableEq, Repr

structure DescriptorMaps where
  virtMap : Nat → Option VirtT := fun _ => none
  physMap : Nat → Option PhysT := fun _ => none

abbrev DescriptorM := EStateM Err DescriptorMaps

/-- The guard of `gsl::on_failure`. -/
def onFailure {ε σ α : Type} (cleanup : σ → σ) (c : EStateM ε σ α) : EStateM ε σ α := fun s =>
  match c s with
  | .ok a t => .ok a t
  | .error e t => .error e (cleanup t)

@[simp] theorem wp_onFailure {ε σ α : Type} {cleanup : σ → σ} {c : EStateM ε σ α} {Q : α → σ → Prop}
    {X : ε → σ → Prop} {s : σ} : wp (onFailure cleanup c) Q X s ↔ wp c Q (fun e t => X e (cleanup t)) s := by
  simp only [wp, onFailure]
  cases c s <;> rfl

def DescriptorMaps.erase (virt phys : Nat) (d : DescriptorMaps) : DescriptorMaps where
  virtMap := Function.update d.virtMap virt none
  physMap := Function.update d.physMap phys none

def expects (p : Prop) [Decidable p] : DescriptorM Unit := if p then pure () else throw failFast

/-- `m_virt_map[virt] = {phys, attr}`; there may be no memory for the new entry. -/
def insertVirt (virt phys attr : Nat) (room : Bool) : DescriptorM Unit := do
  if !room then throw (.exn "std::bad_alloc")
  modify fun d => { d with virtMap := Function.update d.virtMap virt (some ⟨phys, attr⟩) }

/-- `m_phys_map[phys] = {virt, attr}` -/
def insertPhys (virt phys attr : Nat) (room : Bool) : DescriptorM Unit := do
  if !room then throw (.exn "std::bad_alloc")
  modify fun d => { d with physMap := Function.update d.physMap phys (some ⟨virt, attr⟩) }

/-- `virtRoom` and `physRoom` are whether the two maps find memory for a new entry. -/
def addMd (virt phys attr : Nat) (virtRoom physRoom : Bool) : DescriptorM Unit :=
  onFailure (DescriptorMaps.erase virt phys) do
    expects (lower virt 12 = 0)
    expects (lower phys 12 = 0)
    let d ← get
    if (d.virtMap virt).isSome then throw (.exn ("memory_manager::add_md: virt already added: " ++ toHex virt))
    if (d.physMap phys).isSome then throw (.exn ("memory_manager::add_md: phys already added: " ++ toHex phys))
    insertVirt virt phys attr virtRoom
    insertPhys virt phys attr physRoom

def removeMd (virt phys : Nat) : DescriptorM Unit := do
  expects (lower virt 12 = 0)
  expects (lower phys 12 = 0)
  modify (DescriptorMaps.erase virt phys)

def virtintToPhysint (virt : Nat) : DescriptorM Nat := do
  let d ← get
  match d.virtMap (upper virt 12) with
  | some entry => pure (entry.phys ||| lower virt 12)
  | none => throw (.exn ("virtint_to_physint failed: " ++ toHex virt))

def physintToVirtint (phys : Nat) : DescriptorM Nat := do
  let d ← get
  match d.physMap (upper phys 12) with
  | some entry => pure (entry.virt ||| lower phys 12)
  | none => throw (.exn ("physint_to_virtint failed: " ++ toHex phys))

/-! ## Runs -/

inductive DescriptorCall
  | addMd (virt phys attr : Nat) (virtRoom physRoom : Bool)
  | removeMd (virt phys : Nat)
  deriving DecidableEq, Repr

def DescriptorCall.run : DescriptorCall → DescriptorM Unit
  | .addMd virt phys attr virtRoom physRoom => MemoryManager.addMd virt phys attr virtRoom physRoom
  | .removeMd virt phys => MemoryManager.removeMd virt phys

/-- A call that throws leaves the maps as it has made them. -/
def DescriptorMaps.step (d : DescriptorMaps) (call : DescriptorCall) : Option DescriptorMaps :=
  match call.run d with
  | .ok _ t => some t
  | .error _ t => some t

namespace DescriptorMaps

variable {d : DescriptorMaps}

/-- `m_virt_map` maps `virt` to `phys`. -/
def MapsVirt (d : DescriptorMaps) (virt phys : Nat) : Prop := (d.virtMap virt).map VirtT.phys = some phys

/-- `m_phys_map` maps `phys` to `virt`. -/
def MapsPhys (d : DescriptorMaps) (phys virt : Nat) : Prop := (d.physMap phys).map PhysT.virt = some virt

def Inverse (d : DescriptorMaps) : Prop := ∀ virt phys, d.MapsVirt virt phys ↔ d.MapsPhys phys virt

/-- The maps know pages only. -/
def Aligned (d : DescriptorMaps) : Prop := ∀ virt phys, d.MapsVirt virt phys → lower virt 12 = 0 ∧ lower phys 12 = 0

/-! ### The two updates -/

/-- Both entries of a descriptor. -/
def add (virt phys attr : Nat) (d : DescriptorMaps) : DescriptorMaps where
  virtMap := Function.update d.virtMap virt (some ⟨phys, attr⟩)
  physMap := Function.update d.physMap phys (some ⟨virt, attr⟩)

variable {virt phys attr v p : Nat}

theorem mapsVirt_add : (d.add virt phys attr).MapsVirt v p ↔ if v = virt then phys = p else d.MapsVirt v p := by
  by_cases same : v = virt
  · simp [MapsVirt, add, same]
  · simp [MapsVirt, add, same]

theorem mapsPhys_add : (d.add virt phys attr).MapsPhys p v ↔ if p = phys then virt = v else d.MapsPhys p v := by
  by_cases same : p = phys
  · simp [MapsPhys, add, same]
  · simp [MapsPhys, add, same]

theorem mapsVirt_erase : (d.erase virt phys).MapsVirt v p ↔ v ≠ virt ∧ d.MapsVirt v p := by
  by_cases same : v = virt
  · simp [MapsVirt, erase, same]
  · simp [MapsVirt, erase, same]

theorem mapsPhys_erase : (d.erase virt phys).MapsPhys p v ↔ p ≠ phys ∧ d.MapsPhys p v := by
  by_cases same : p = phys
  · simp [MapsPhys, erase, same]
  · simp [MapsPhys, erase, same]

theorem erase_of_fresh (hfr : d.virtMap virt = none) (hf : d.physMap phys = none) : d.erase virt phys = d := by
  have hsa : Function.update d.virtMap virt none = d.virtMap := Function.update_eq_self_iff.mpr hfr.symm
  have hs : Function.update d.physMap phys none = d.physMap := Function.update_eq_self_iff.mpr hf.symm
  rw [erase, hsa, hs]

theorem fresh_of_erase (same : d.erase virt phys = d) : d.virtMap virt = none ∧ d.physMap phys = none := by
  constructor
  · rw [← same]
    exact Function.update_self _ _ _
  · rw [← same]
    exact Function.update_self _ _ _

theorem Inverse.add (hi : d.Inverse) (hfr : d.virtMap virt = none) (hf : d.physMap phys = none) :
    (d.add virt phys attr).Inverse := by
  intro v p
  rw [mapsVirt_add, mapsPhys_add]
  by_cases hsa : v = virt
  · subst hsa
    rw [if_pos rfl]
    by_cases hs : p = phys
    · rw [if_pos hs]
      exact ⟨fun _ => rfl, fun _ => hs.symm⟩
    · rw [if_neg hs]
      exact ⟨fun same => absurd same.symm hs, fun maps => absurd ((hi v p).mpr maps) (by simp [MapsVirt, hfr])⟩
  · rw [if_neg hsa]
    by_cases hs : p = phys
    · subst hs
      rw [if_pos rfl]
      exact ⟨fun maps => absurd ((hi v p).mp maps) (by simp [MapsPhys, hf]), fun same => absurd same.symm hsa⟩
    · rw [if_neg hs]
      exact hi v p

/-- Both entries of a registered pair go at once. -/
theorem Inverse.erase (hi : d.Inverse) (hreg : d.MapsVirt virt phys) : (d.erase virt phys).Inverse := by
  intro v p
  rw [mapsVirt_erase, mapsPhys_erase, hi v p]
  refine and_congr_left fun maps => not_congr ⟨fun hsa => ?_, fun hs => ?_⟩
  · have hm : d.MapsVirt v p := (hi v p).mpr maps
    rw [hsa] at hm
    exact Option.some.inj (hm.symm.trans hreg)
  · have hma : d.MapsPhys phys virt := (hi virt phys).mp hreg
    rw [hs] at maps
    exact Option.some.inj (maps.symm.trans hma)

theorem Aligned.add (hal : d.Aligned) (hv : lower virt 12 = 0) (hp : lower phys 12 = 0) :
    (d.add virt phys attr).Aligned := by
  intro v p maps
  rw [mapsVirt_add] at maps
  split at maps
  · next same =>
    rw [same, ← maps]
    exact ⟨hv, hp⟩
  · exact hal v p maps

theorem Aligned.erase (hal : d.Aligned) : (d.erase virt phys).Aligned := fun v p maps =>
  hal v p (mapsVirt_erase.mp maps).2

end DescriptorMaps

/-! ## Pages and offsets -/

/-- The address at an offset in a page determines both. -/
theorem page_or_lower_eq_iff {page x y : Nat} (hal : lower page 12 = 0) :
    page ||| lower x 12 = y ↔ page = upper y 12 ∧ lower x 12 = lower y 12 := by
  have ho : lower x 12 < 2 ^ 12 := Nat.mod_lt _ (by decide)
  have hv : page ||| lower x 12 = page + lower x 12 := by
    obtain ⟨q, rfl⟩ : 2 ^ 12 ∣ page := Nat.dvd_of_mod_eq_zero hal
    exact (Nat.two_pow_add_eq_or_of_lt ho q).symm
  rw [hv]
  rw [lower] at hal
  simp only [upper, lower] at ho ⊢
  omega

/-! ## What the calls do -/

variable {d : DescriptorMaps} {virt phys attr : Nat} {virtRoom physRoom : Bool}

theorem wp_expects {p : Prop} [Decidable p] {Q : Unit → DescriptorMaps → Prop} {X : Err → DescriptorMaps → Prop}
    (hh : p → Q () d) (hf : ¬ p → X failFast d) : wp (expects p) Q X d := by
  rw [expects, wp_ite]
  split
  · next met => exact hh met
  · next hu => exact hf hu

/-- A registration adds both entries or erases both keys. -/
theorem addMd_spec : wp (addMd virt phys attr virtRoom physRoom)
    (fun _ t => (d.virtMap virt = none ∧ d.physMap phys = none) ∧ (lower virt 12 = 0 ∧ lower phys 12 = 0) ∧
      t = d.add virt phys attr)
    (fun _ t => t = d.erase virt phys) d := by
  rw [addMd, wp_onFailure, wp_bind]
  refine wp_expects (fun hv => ?_) fun _ => rfl
  rw [wp_bind]
  refine wp_expects (fun hp => ?_) fun _ => rfl
  rw [wp_bind, wp_get]
  cases hfo : d.virtMap virt with
  | some entry => exact rfl
  | none =>
    cases hf : d.physMap phys with
    | some entry => exact rfl
    | none =>
      cases virtRoom with
      | false => exact rfl
      | true =>
        cases physRoom with
        | true => exact ⟨⟨rfl, rfl⟩, ⟨hv, hp⟩, rfl⟩
        | false =>
          -- The entry for `virt` has been made already.
          have hu : Function.update (Function.update d.virtMap virt (some ⟨phys, attr⟩)) virt none =
              Function.update d.virtMap virt none := Function.update_idem _ _ _
          show DescriptorMaps.erase virt phys _ = _
          rw [DescriptorMaps.erase, DescriptorMaps.erase, hu]

theorem removeMd_spec : wp (removeMd virt phys) (fun _ t => t = d.erase virt phys)
    (fun _ t => ¬ (lower virt 12 = 0 ∧ lower phys 12 = 0) ∧ t = d) d := by
  rw [removeMd, wp_bind]
  refine wp_expects (fun _ => ?_) fun hu => ⟨fun both => hu both.1, rfl⟩
  rw [wp_bind]
  exact wp_expects (fun _ => rfl) fun hu => ⟨fun both => hu both.2, rfl⟩

end Gevisor.MemoryManager
