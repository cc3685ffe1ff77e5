import Gevisor.Ept.Refinement

/-! # The page tables of the hypervisor

`cr3::mmap`, in which the hypervisor maps its own memory. The class has the shape of `ept::mmap`: the same
members, the same walk with tables allocated on the way. What differs is the format of the entries.
-/

namespace Gevisor.Host

open Lib Ept

/-! ## Entries -/

namespace Pte

def physAddrMask : BitVec 64 := 0x000FFFFFFFFFF000#64

def physAddr (entry : Entry) : Nat := (getBits entry physAddrMask).toNat

def setPhysAddr (entry : Entry) (val : Nat) : Entry := setBits entry physAddrMask (BitVec.ofNat 64 val)

def present (entry : Entry) : Bool := isBitSet entry 0

def ps (entry : Entry) : Bool := isBitSet entry 7

end Pte

inductive AttrType
  | readWrite
  | readExecute
  deriving DecidableEq, Repr

inductive MemoryType
  | uncacheable
  | writeBack
  deriving DecidableEq, Repr

/-- The word that is put into a zero entry for a new table: with PAT index 1, present and writable. -/
def tableEntry (phys : Nat) : Entry :=
  let entry := Pte.setPhysAddr 0 phys
  let entry := clearBit (setBit entry 3) 4
  setBit (setBit entry 0) 1

/-- The word `map_pte` puts into a zero entry. -/
def leafEntry (phys : Nat) (attr : AttrType) (cache : MemoryType) : Entry :=
  let entry := setBit (Pte.setPhysAddr 0 phys) 0
  let entry := match attr with
    | .readWrite => setBit (setBit entry 1) 63
    | .readExecute => clearBit (clearBit entry 1) 63
  match cache with
  | .uncacheable => clearBit (clearBit (clearBit entry 3) 4) 7
  | .writeBack => clearBit (clearBit (setBit entry 3) 4) 7

theorem toNat_and_physAddrMask (val : Nat) :
    (BitVec.ofNat 64 val &&& Pte.physAddrMask).toNat = val % 2 ^ 52 / 4096 * 4096 :=
  Lib.toNat_and_field (n := 40) (by decide) (by decide) val

variable (phys : Nat) (attr : AttrType) (cache : MemoryType)

theorem leafEntry_physAddr :
    Pte.physAddr (leafEntry phys attr cache) = phys % 2 ^ 52 / 4096 * 4096 := by
  rw [← toNat_and_physAddrMask, ← getBits_setBits_same 0, Pte.physAddr]
  cases attr <;> cases cache <;>
    simp only [leafEntry, Pte.setPhysAddr, getBits_setBit (m := Pte.physAddrMask) (b := 0) (by decide),
      getBits_setBit (m := Pte.physAddrMask) (b := 1) (by decide),
      getBits_setBit (m := Pte.physAddrMask) (b := 3) (by decide),
      getBits_setBit (m := Pte.physAddrMask) (b := 63) (by decide),
      getBits_clearBit (m := Pte.physAddrMask) (b := 1) (by decide),
      getBits_clearBit (m := Pte.physAddrMask) (b := 3) (by decide),
      getBits_clearBit (m := Pte.physAddrMask) (b := 4) (by decide),
      getBits_clearBit (m := Pte.physAddrMask) (b := 7) (by decide),
      getBits_clearBit (m := Pte.physAddrMask) (b := 63) (by decide)]

theorem ne_zero_of_bit {entry : Entry} (bit : entry.getLsbD 0 = true) : entry ≠ 0 := by
  rintro rfl
  simp at bit

theorem leafEntry_ne_zero : leafEntry phys attr cache ≠ 0 := by
  apply ne_zero_of_bit
  cases attr <;> cases cache <;>
    simp only [leafEntry, getLsbD_clearBit, getLsbD_setBit, Nat.reduceLT, decide_true, Bool.or_true, Bool.true_or,
      Bool.true_and, ne_eq, not_false_eq_true, OfNat.zero_ne_ofNat, zero_ne_one]

theorem getBits_tableEntry :
    getBits (tableEntry phys) Pte.physAddrMask = BitVec.ofNat 64 phys &&& Pte.physAddrMask := by
  rw [tableEntry, getBits_setBit (by decide), getBits_setBit (by decide), getBits_clearBit (by decide),
    getBits_setBit (by decide), Pte.setPhysAddr, getBits_setBits_same]

theorem tableEntry_ps : (tableEntry phys).ps = false := by
  have clear : (Pte.setPhysAddr 0 phys).getLsbD 7 = false := by
    rw [Pte.setPhysAddr, getLsbD_setBits (by decide)]
    rfl
  simp only [tableEntry, Entry.ps, isBitSet, getLsbD_clearBit, getLsbD_setBit, Nat.reduceLT, clear, Nat.reduceEqDiff,
    decide_false, Bool.or_false, Bool.false_and]

theorem isTable_tableEntry {d : Nat} (deep : d < 3) (phys : Nat) : IsTable d (tableEntry phys) := by
  refine ⟨ne_zero_of_bit ?_, deep, .inr (tableEntry_ps phys)⟩
  simp only [tableEntry, getLsbD_clearBit, getLsbD_setBit, Nat.reduceLT, decide_true, Bool.or_true, Bool.true_or]

theorem tableEntry_physAddr {phys : Nat} (hbo : phys < 2 ^ 48) (hal : phys % 4096 = 0) :
    Pte.physAddr (tableEntry phys) = phys := by
  rw [Pte.physAddr, getBits_tableEntry, toNat_and_physAddrMask]
  omega

/-- Tables are below the addresses in which the two formats differ. -/
theorem tableEntry_entryPhysAddr {phys : Nat} (hbo : phys < 2 ^ 48) (hal : phys % 4096 = 0) :
    (tableEntry phys).physAddr = phys := by
  have hn : Entry.physAddrMask = Pte.physAddrMask &&& Entry.physAddrMask := by decide
  have wide : BitVec.ofNat 64 phys &&& Pte.physAddrMask = BitVec.ofNat 64 phys := by
    apply BitVec.eq_of_toNat_eq
    rw [toNat_and_physAddrMask, BitVec.toNat_ofNat]
    omega
  have hv := Entry.physAddr_setPhysAddr 0 phys
  rw [Entry.physAddr, Entry.setPhysAddr, getBits_setBits_same] at hv
  have bits := getBits_tableEntry phys
  rw [getBits] at bits
  rw [Entry.physAddr, getBits, hn, ← BitVec.and_assoc, bits, wide, hv]
  omega

theorem format_cr3 (mm : PagePool) : Format mm Pte.physAddr tableEntry where
  table _ p deep := isTable_tableEntry deep p
  named _ page := tableEntry_entryPhysAddr (mm.phys_lt page) (mm.phys_aligned page)
  read _ page := tableEntry_physAddr (mm.phys_lt page) (mm.phys_aligned page)

/-! ## Mapping and unmapping -/

section Functions

variable (mm : PagePool)

/-- The common body of `map_pdpt`, `map_pd` and `map_pt`. -/
def mapTable (parent child : Level) (i : Fin 512) : MapM Unit := do
  let ref ← spanAt parent i
  let entry ← deref ref
  if entry ≠ 0 then
    let m ← get
    if (m.pairs child).physAddr = Pte.physAddr entry then
      pure ()
    else
      let pair ← physToPair mm (Pte.physAddr entry)
      setPair child pair
  else
    let pair ← allocate mm
    setPair child pair
    assign ref (tableEntry pair.physAddr)

def mapPdpt (pml4i : Fin 512) : MapM Unit := mapTable mm .pml4 .pdpt pml4i

def mapPd (pdpti : Fin 512) : MapM Unit := mapTable mm .pdpt .pd pdpti

def mapPt (pdi : Fin 512) : MapM Unit := mapTable mm .pd .pt pdi

def mapPte (virt phys : Nat) (attr : AttrType) (cache : MemoryType) : MapM EntryRef := do
  let ref ← spanAt .pt (Level.pt.index virt)
  let entry ← deref ref
  if entry ≠ 0 then
    throw (.exn ("map_pte: map failed, virt / phys map already exists: " ++ toHex phys))
  else
    assign ref (leafEntry phys attr cache)
    pure ref

def map4k (virt phys : Nat) (attr : AttrType) (cache : MemoryType) : MapM EntryRef := do
  mapPdpt mm (Level.pml4.index virt)
  mapPd mm (Level.pdpt.index virt)
  mapPt mm (Level.pd.index virt)
  mapPte virt phys attr cache

def unmap (virt : Nat) : MapM Unit := do
  mapPdpt mm (Level.pml4.index virt)
  let pdpte ← spanAt .pdpt (Level.pdpt.index virt)
  let e ← deref pdpte
  if e = 0 then pure ()
  else if Pte.ps e then assign pdpte 0
  else
    mapPd mm (Level.pdpt.index virt)
    let pde ← spanAt .pd (Level.pd.index virt)
    let e ← deref pde
    if e = 0 then pure ()
    else if Pte.ps e then assign pde 0
    else
      mapPt mm (Level.pd.index virt)
      let pte ← spanAt .pt (Level.pt.index virt)
      assign pte 0

end Functions

/-! ## What they do to the translations -/

/-- `m` is coherent in its own format, and its meaning is `A`. -/
structure Maps (mm : PagePool) (m : Mmap) (A : AddrMap) : Prop where
  refines : Refines mm m A
  reads : Reads mm Pte.physAddr m

section Specs

variable {mm : PagePool} {m : Mmap} {A : AddrMap} {virt : Nat}

/-- The way down to the page table of `virt`, where no large page is. -/
structure Descends (mm : PagePool) (virt : Nat) (m m₁ m₂ m₃ : Mmap) : Prop where
  first : mapPdpt mm (Level.pml4.index virt) m = .ok () m₁
  second : mapPd mm (Level.pdpt.index virt) m₁ = .ok () m₂
  third : mapPt mm (Level.pd.index virt) m₂ = .ok () m₃
  grown₁ : Grown mm virt 1 m m₁
  grown₂ : Grown mm virt 2 m m₂
  grown₃ : Grown mm virt 3 m m₃
  reads : Reads mm Pte.physAddr m₃
  pdpt : AtTable mm m₁ .pdpt virt
  pd : AtTable mm m₂ .pd virt
  pt : AtTable mm m₃ .pt virt

theorem descends (maps : Maps mm m A) (hu : m.view mm (pathTo .pdpt virt) (Level.pdpt.index virt) = 0)
    (hm : m.view mm (pathTo .pd virt) (Level.pd.index virt) = 0) :
    ∃ m₁ m₂ m₃, Descends mm virt m m₁ m₂ m₃ := by
  have hc := maps.refines.1
  obtain ⟨m₁, first, hg₁, hr₁, pdpt, -⟩ := tableStep_spec (format_cr3 mm) .pdpt hc maps.reads
    (hc.atTable_pml4 virt) (view_pml4 _)
  obtain ⟨m₂, hs, hg₂, hr₂, pd, -⟩ := tableStep_spec (format_cr3 mm) .pd hg₁.coherent hr₁ pdpt ((hg₁.view _ _).trans hu)
  have hb := hg₁.trans hg₂ (by decide)
  obtain ⟨m₃, ht, hg₃, hr₃, pt, -⟩ := tableStep_spec (format_cr3 mm) .pt hg₂.coherent hr₂ pd ((hb.view _ _).trans hm)
  exact ⟨m₁, m₂, m₃, first, hs, ht, hg₁, hb, hb.trans hg₃ (by decide), hr₃, pdpt, pd, pt⟩

/-- The last level names no tables. -/
theorem not_isTable_pt (virt : Nat) (w : Entry) : ¬ IsTable (pathTo .pt virt).length w := by
  intro ht
  have deep := ht.2.1
  rw [length_pathTo] at deep
  exact absurd deep (by decide)

/-- A word of a page table is replaced. -/
theorem maps_write (hc : Coherent mm m.live m) (hr : Reads mm Pte.physAddr m) {r : EntryRef}
    (hrf : RefTo mm m .pt virt r)
    (hu : ∀ l' : Level, l'.depth < Level.pt.depth → m.view mm (pathTo l' virt) (l'.index virt) = 0) (w : Entry) :
    Maps mm (m.write r.page r.index w) ((leafAt mm m).set .pt virt (asLeaf .pt w)) := by
  have hn (w : Entry) : ¬ IsTable Level.pt.depth w := fun ht => absurd ht.2.1 (by decide)
  obtain ⟨href, -⟩ := leafAt_write hc hrf (by decide) (hn _) (hn w) hu
  refine ⟨href, ?_⟩
  have slot := (hc.write_leaf (i := r.index) hrf.1 (not_isTable_pt virt _) (not_isTable_pt virt w)).2.2
  intro q i ht
  rw [slot] at ht ⊢
  by_cases here : q = pathTo .pt virt ∧ i = r.index
  · rw [if_pos here, here.1] at ht
    exact absurd ht (not_isTable_pt virt w)
  · rw [if_neg here] at ht ⊢
    exact hr q i ht

theorem map4k_spec (maps : Maps mm m A) (hab : A virt = none) (phys : Nat) (attr : AttrType) (cache : MemoryType) :
    ∃ r m', map4k mm virt phys attr cache m = .ok r m' ∧
      Maps mm m' (A.set .pt virt (some ⟨.pt, leafEntry phys attr cache⟩)) := by
  obtain ⟨⟨hc, rfl⟩, hr⟩ := maps
  have hem := leafAt_none hab
  obtain ⟨m₁, m₂, m₃, way⟩ := descends ⟨⟨hc, rfl⟩, hr⟩ (hem .pdpt) (hem .pd)
  have hem₃ := leafAt_none (way.grown₃.leafAt_eq ▸ hab : leafAt mm m₃ virt = none)
  have zero : m₃.slot mm (pathTo .pt virt) (Level.pt.index virt) = 0 := by
    rw [← view_pt _ (length_pathTo .pt virt)]
    exact hem₃ .pt
  obtain ⟨r, span, hrf⟩ := way.pt.spanAt
  have hwr := maps_write way.grown₃.coherent way.reads hrf (fun l' _ => hem₃ l') (leafEntry phys attr cache)
  rw [way.grown₃.leafAt_eq, asLeaf, if_neg (leafEntry_ne_zero phys attr cache)] at hwr
  refine ⟨r, m₃.write r.page r.index (leafEntry phys attr cache), ?_, hwr⟩
  rw [map4k, bind_of_ok way.first, bind_of_ok way.second, bind_of_ok way.third, mapPte, bind_of_ok span,
    bind_of_ok hrf.deref, if_neg (not_not.mpr zero), bind_of_ok (assign_eq r _ m₃)]
  rfl

variable {w : Entry}

/-- A page that is mapped is not mapped again. -/
theorem map4k_exists (maps : Maps mm m A) (hmap : A virt = some ⟨.pt, w⟩) (phys : Nat) (attr : AttrType)
    (cache : MemoryType) :
    ∃ m', map4k mm virt phys attr cache m =
      .error (.exn ("map_pte: map failed, virt / phys map already exists: " ++ toHex phys)) m' ∧ Maps mm m' A := by
  obtain ⟨⟨hc, rfl⟩, hr⟩ := maps
  obtain ⟨-, hp, word, hu⟩ := leafAt_some hmap
  obtain ⟨m₁, m₂, m₃, way⟩ := descends ⟨⟨hc, rfl⟩, hr⟩ (hu .pdpt (by decide)) (hu .pd (by decide))
  obtain ⟨r, span, hrf⟩ := way.pt.spanAt
  have here : m₃.slot mm (pathTo .pt virt) (Level.pt.index virt) ≠ 0 := by
    rw [← view_pt _ (length_pathTo .pt virt), way.grown₃.view, word]
    exact hp
  refine ⟨m₃, ?_, ⟨way.grown₃.coherent, way.grown₃.leafAt_eq⟩, way.reads⟩
  rw [map4k, bind_of_ok way.first, bind_of_ok way.second, bind_of_ok way.third, mapPte, bind_of_ok span,
    bind_of_ok hrf.deref, if_pos here]
  rfl

/-- On the way of a mapped page the upper levels name tables. -/
theorem isTable_above {l : Level} (hmap : leafAt mm m virt = some ⟨.pt, w⟩)
    (habv : l.depth < 3) : IsTable l.depth (m.slot mm (pathTo l virt) (l.index virt)) := by
  obtain ⟨-, hp, word, hu⟩ := leafAt_some hmap
  by_contra hn
  rw [view_pt _ (length_pathTo .pt virt), slot_deeper (show l.depth < Level.pt.depth from habv) hn] at word
  exact hp word.symm

theorem unmap_spec (maps : Maps mm m A) (hmap : A virt = some ⟨.pt, w⟩) :
    ∃ m', unmap mm virt m = .ok () m' ∧ Maps mm m' (A.set .pt virt none) := by
  obtain ⟨⟨hc, rfl⟩, hr⟩ := maps
  obtain ⟨-, -, -, hu⟩ := leafAt_some hmap
  obtain ⟨m₁, m₂, m₃, way⟩ := descends ⟨⟨hc, rfl⟩, hr⟩ (hu .pdpt (by decide)) (hu .pd (by decide))
  have pdpt := isTable_above (way.grown₁.leafAt_eq ▸ hmap : leafAt mm m₁ virt = _) (l := .pdpt) (by decide)
  have pd := isTable_above (way.grown₂.leafAt_eq ▸ hmap : leafAt mm m₂ virt = _) (l := .pd) (by decide)
  obtain ⟨r₁, span₁, hrf₁⟩ := way.pdpt.spanAt
  obtain ⟨r₂, span₂, hrf₂⟩ := way.pd.spanAt
  obtain ⟨r₃, span₃, hrf₃⟩ := way.pt.spanAt
  have hs {d : Nat} {e : Entry} (hi : d ≠ 0) (ht : IsTable d e) : ¬ Pte.ps e = true := by
    have := ht.2.2.resolve_left hi
    rw [show Pte.ps e = e.ps from rfl, this]
    decide
  have hwr := maps_write way.grown₃.coherent way.reads hrf₃ (fun l' habv => (way.grown₃.view _ _).trans (hu l' habv)) 0
  rw [way.grown₃.leafAt_eq, asLeaf, if_pos rfl] at hwr
  refine ⟨_, ?_, hwr⟩
  rw [unmap, bind_of_ok way.first, bind_of_ok span₁, bind_of_ok hrf₁.deref, if_neg pdpt.1,
    if_neg (hs (by decide) pdpt), bind_of_ok way.second, bind_of_ok span₂, bind_of_ok hrf₂.deref, if_neg pd.1,
    if_neg (hs (by decide) pd), bind_of_ok way.third, bind_of_ok span₃, assign_eq]

end Specs

end Gevisor.Host
