import Gevisor.Ept.AddrMap
import Gevisor.Ept.Helpers

/-! # The run-time operations refine the partial function

GEVisor looks leaves up, changes their access bits and converts 4K pages to a 2M page. Each of these is
given on `AddrMap` here, and shown to be simulated there by the code's version.
-/

namespace Gevisor.Ept

open Gevisor.Lib

/-! ## Mapping a page -/

section Mapping

variable {mm : PagePool} {m : Mmap} {virt phys : Nat} {attr : AttrType} {cache : MemoryType}

/-- `m'` comes from `m` by a change of the words on the way of `virt`, after which it means `A`. -/
structure Reaches (mm : PagePool) (virt : Nat) (m m' : Mmap) (A : AddrMap) : Prop where
  refines : Refines mm m' A
  frame : ∀ q i, ¬ OnPath virt q i → m'.slot mm q i = m.slot mm q i

theorem mapLeaf_spec {l : Level} {m₁ : Mmap} {d : Nat} (name : String) (hi : l ≠ .pml4)
    (hg : Grown mm virt d m m₁) (here : AtTable mm m₁ l virt)
    (zero : m₁.slot mm (pathTo l virt) (l.index virt) = 0)
    (hu : ∀ l' : Level, l'.depth < l.depth → m₁.view mm (pathTo l' virt) (l'.index virt) = 0) :
    ∃ r m', mapLeaf name l virt phys attr cache m₁ = .ok r m' ∧
      Reaches mm virt m m' ((leafAt mm m).set l virt (asLeaf l (leafEntry phys attr cache (l ≠ .pt)))) := by
  obtain ⟨r, span, hrf⟩ := here.spanAt
  have new : ¬ IsTable l.depth (leafEntry phys attr cache (l ≠ .pt)) := by
    intro ht
    cases l with
    | pml4 => exact hi rfl
    | pdpt => exact not_isTable_of_ps (by decide) (leafEntry_ps _ _ _ _) ht
    | pd => exact not_isTable_of_ps (by decide) (leafEntry_ps _ _ _ _) ht
    | pt => exact absurd ht.2.1 (by decide)
  obtain ⟨href, hf⟩ := leafAt_write hg.coherent hrf hi (by rw [zero]; exact not_isTable_zero _) new hu
  refine ⟨r, _, ?_, ⟨href.1, ?_⟩, fun q i off =>
    (hf q i off).trans (hg.frame q i fun on => off on.1)⟩
  · rw [mapLeaf, bind_of_ok span, bind_of_ok hrf.deref, if_neg (not_not.mpr zero), bind_of_ok (assign_eq r _ m₁)]
    rfl
  · rw [href.2, hg.leafAt_eq]

theorem map4k_spec (phys : Nat) (attr : AttrType) (cache : MemoryType) (hc : Coherent mm m.live m)
    (hab : leafAt mm m virt = none) :
    ∃ r m', map4k mm virt phys attr cache m = .ok r m' ∧
      Reaches mm virt m m' ((leafAt mm m).set .pt virt (asLeaf .pt (leafEntry phys attr cache false))) := by
  obtain ⟨m₁, hret₁, hg₁, here₁⟩ := mapPdpt_spec virt hc
  have hem₁ := leafAt_none (hg₁.leafAt_eq ▸ hab : leafAt mm m₁ virt = none)
  obtain ⟨m₂, hret₂, hg₂, here₂, -⟩ := mapPd_spec hg₁.coherent here₁ (hem₁ .pdpt)
  have hem₂ := leafAt_none (hg₂.leafAt_eq ▸ hg₁.leafAt_eq ▸ hab : leafAt mm m₂ virt = none)
  obtain ⟨m₃, hret₃, hg₃, here₃, -⟩ := mapPt_spec hg₂.coherent here₂ (hem₂ .pd)
  have hg := (hg₁.trans hg₂ (by decide)).trans hg₃ (by decide)
  have hem₃ := leafAt_none (hg.leafAt_eq ▸ hab : leafAt mm m₃ virt = none)
  have zero : m₃.slot mm (pathTo .pt virt) (Level.pt.index virt) = 0 := by
    rw [← view_pt _ (length_pathTo .pt virt)]
    exact hem₃ .pt
  obtain ⟨r, m', hret, hrch⟩ := mapLeaf_spec "map_pte" (by decide) hg here₃ zero fun l' _ => hem₃ l'
  refine ⟨r, m', ?_, hrch⟩
  rw [map4k, bind_of_ok hret₁, bind_of_ok hret₂, bind_of_ok hret₃]
  exact hret

/-- The way to the page directory of `virt`, where no 1G page is. -/
theorem walkToPd (phys : Nat) (attr : AttrType) (cache : MemoryType) (hc : Coherent mm m.live m)
    (hu : m.view mm (pathTo .pdpt virt) (Level.pdpt.index virt) = 0) :
    ∃ m', Grown mm virt 2 m m' ∧ AtTable mm m' .pd virt ∧
      map2m mm virt phys attr cache m = mapPde virt phys attr cache m' := by
  obtain ⟨m₁, hret₁, hg₁, here₁⟩ := mapPdpt_spec virt hc
  obtain ⟨m₂, hret₂, hg₂, here₂, -⟩ := mapPd_spec hg₁.coherent here₁ ((hg₁.view _ _).trans hu)
  refine ⟨m₂, hg₁.trans hg₂ (by decide), here₂, ?_⟩
  rw [map2m, bind_of_ok hret₁, bind_of_ok hret₂]

theorem map2m_spec (phys : Nat) (attr : AttrType) (cache : MemoryType) (hc : Coherent mm m.live m)
    (hu : m.view mm (pathTo .pdpt virt) (Level.pdpt.index virt) = 0)
    (zero : m.slot mm (pathTo .pd virt) (Level.pd.index virt) = 0) :
    ∃ r m', map2m mm virt phys attr cache m = .ok r m' ∧
      Reaches mm virt m m' ((leafAt mm m).set .pd virt (asLeaf .pd (leafEntry phys attr cache true))) := by
  obtain ⟨m₁, hg, here, hp⟩ := walkToPd phys attr cache hc hu
  have zero₁ : m₁.slot mm (pathTo .pd virt) (Level.pd.index virt) = 0 := by
    rw [hg.frame, zero]
    intro on
    have := on.2
    rw [length_pathTo] at this
    exact absurd this (by decide)
  rw [hp]
  refine mapLeaf_spec "map_pde" (by decide) hg here zero₁ fun l' habv => ?_
  rw [hg.view]
  cases l' with
  | pml4 => exact view_pml4 _
  | pdpt => exact hu
  | pd => exact absurd habv (by decide)
  | pt => exact absurd habv (by decide)

/-- A page directory entry that is in use is not replaced. -/
theorem map2m_exists (phys : Nat) (attr : AttrType) (cache : MemoryType) (hc : Coherent mm m.live m)
    (hu : m.view mm (pathTo .pdpt virt) (Level.pdpt.index virt) = 0)
    (hp : m.slot mm (pathTo .pd virt) (Level.pd.index virt) ≠ 0) :
    ∃ e m', map2m mm virt phys attr cache m = .error e m' ∧ e.isExn = true ∧ Refines mm m' (leafAt mm m) := by
  obtain ⟨m₁, hg, here, hpr⟩ := walkToPd phys attr cache hc hu
  obtain ⟨r, span, hrf⟩ := here.spanAt
  have hp₁ : m₁.slot mm (pathTo .pd virt) (Level.pd.index virt) ≠ 0 := by
    rw [hg.kept _ _ hp]
    exact hp
  refine ⟨.exn ("map_pde" ++ ": map failed, virt / phys map already exists: " ++ toHex phys), m₁, ?_, rfl,
    hg.coherent, hg.leafAt_eq⟩
  rw [hpr, mapPde, mapLeaf, bind_of_ok span, bind_of_ok hrf.deref, if_pos hp₁]
  rfl

end Mapping

/-! ## Looking up and changing a leaf -/

/-- Both stop the function in the same way; the texts of exceptions may differ. -/
def SameErr (e f : Err) : Prop := e = f ∨ e.isExn = true ∧ f.isExn = true

/-- `entry(virt)`, read. -/
def entryValue (mm : PagePool) (virt : Nat) : MapM Entry := do
  let ref ← entry mm virt
  deref ref

/-- Statements that enable and disable access bits of the reference `entry(virt)`. -/
def updateEntry (mm : PagePool) (virt : Nat) (changes : List Change) : MapM Unit := do
  let ref ← entry mm virt
  let e ← deref ref
  assign ref (applyChanges changes e)

namespace AddrMap

def lookup (name : String) (virt : Nat) : EStateM Err AddrMap Leaf := fun A =>
  match A virt with
  | some leaf => .ok leaf A
  | none => .error (.exn (name ++ ": not mapped")) A

variable {A : AddrMap} {virt : Nat}

theorem lookup_some {leaf : Leaf} (hf : A virt = some leaf) (name : String) : lookup name virt A = .ok leaf A := by
  simp only [lookup, hf]

theorem lookup_none (hab : A virt = none) (name : String) :
    lookup name virt A = .error (.exn (name ++ ": not mapped")) A := by
  simp only [lookup, hab]

def leafFrom (virt : Nat) : EStateM Err AddrMap Nat := do
  let leaf ← lookup "from" virt
  pure leaf.level.fromBit

def entryValue (virt : Nat) : EStateM Err AddrMap Entry := do
  let leaf ← lookup "entry" virt
  pure leaf.entry

def virtToPhys (virt : Nat) : EStateM Err AddrMap Nat := do
  let leaf ← lookup "virt_to_phys" virt
  pure leaf.entry.physAddr

/-- The leaf with its access bits changed; a word that becomes zero maps nothing any more. -/
def change (changes : List Change) (leaf : Leaf) : Option Leaf :=
  asLeaf leaf.level (applyChanges changes leaf.entry)

def updateEntry (virt : Nat) (changes : List Change) : EStateM Err AddrMap Unit := do
  let leaf ← lookup "entry" virt
  modify fun A => A.set leaf.level virt (change changes leaf)

end AddrMap

section Simulation

variable {mm : PagePool} {virt : Nat}

/-- What follows a look-up need only be simulated where there is a leaf. -/
theorem lookup_simulates {α : Type} (name : String) {k : EntryRef × Level → MapM α}
    {k' : Leaf → EStateM Err AddrMap α} (rest : ∀ m r l, Coherent mm m.live m → RefTo mm m l virt r → l ≠ .pml4 →
      leafAt mm m virt = some ⟨l, m.slot mm (pathTo l virt) (l.index virt)⟩ →
      Agree SameErr (Refines mm) (k (r, l) m) (k' ⟨l, m.slot mm (pathTo l virt) (l.index virt)⟩ (leafAt mm m))) :
    Simulates SameErr (Refines mm) (findLeaf mm name virt >>= k) (AddrMap.lookup name virt >>= k') := by
  intro m A href
  obtain ⟨hc, rfl⟩ := href
  have hfd := findLeaf_spec virt hc name
  simp only [AddrMap.lookup, bind, EStateM.bind]
  cases hres : findLeaf mm name virt m with
  | ok hf m' =>
    obtain ⟨r, l⟩ := hf
    rw [hres] at hfd
    obtain ⟨hg, hrf, hi, leaf⟩ := hfd
    rw [leaf, ← hg.leafAt_eq]
    exact rest m' r l hg.coherent hrf hi (hg.leafAt_eq ▸ leaf)
  | error e m' =>
    rw [hres] at hfd
    obtain ⟨hg, leaf, exn⟩ := hfd
    rw [leaf]
    exact .error (.inr ⟨exn, rfl⟩) ⟨hg.coherent, hg.leafAt_eq⟩

theorem leafFrom_simulates : Simulates SameErr (Refines mm) (leafFrom mm virt) (AddrMap.leafFrom virt) :=
  lookup_simulates "from" fun _ _ _ hc _ _ _ => .ok _ ⟨hc, rfl⟩

theorem entryValue_simulates : Simulates SameErr (Refines mm) (entryValue mm virt) (AddrMap.entryValue virt) := by
  simp only [entryValue, entry, bind_assoc, pure_bind]
  refine lookup_simulates "entry" fun m r l hc hrf _ _ => ?_
  rw [hrf.deref]
  exact .ok _ ⟨hc, rfl⟩

theorem virtToPhys_simulates : Simulates SameErr (Refines mm) (virtToPhys mm virt) (AddrMap.virtToPhys virt) := by
  refine lookup_simulates "virt_to_phys" fun m r l hc hrf _ _ => ?_
  rw [bind_of_ok hrf.deref]
  exact .ok _ ⟨hc, rfl⟩

/-- Changing access bits turns no leaf into a table. -/
theorem not_isTable_applyChanges {d : Nat} {w : Entry} (old : ¬ IsTable d w) (hp : w ≠ 0)
    (changes : List Change) : ¬ IsTable d (applyChanges changes w) := by
  intro ht
  refine old ⟨hp, ht.2.1, ?_⟩
  rw [← ps_applyChanges changes w]
  exact ht.2.2

theorem updateEntry_simulates (changes : List Change) :
    Simulates SameErr (Refines mm) (updateEntry mm virt changes) (AddrMap.updateEntry virt changes) := by
  simp only [updateEntry, entry, bind_assoc, pure_bind]
  refine lookup_simulates "entry" fun m r l hc hrf hi leaf => ?_
  obtain ⟨-, hp, view, hu⟩ := leafAt_some leaf
  have old := (slot_of_view view hp).2
  rw [length_pathTo] at old
  obtain ⟨href, -⟩ := leafAt_write hc hrf hi old (not_isTable_applyChanges old hp changes) hu
  rw [bind_of_ok hrf.deref, assign_eq]
  exact .ok () href

end Simulation

end Gevisor.Ept
