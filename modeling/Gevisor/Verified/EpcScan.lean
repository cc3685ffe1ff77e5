import Gevisor.Vmm.System

/-! # The scan for EPC pages

`access_all_pml4` visits the entries of a guest's page tables level by level and notes the EPC pages among
them. What it appends is a list that the page tables and the place of the EPC determine; the walk of
`custom_virt_to_phys_with_cr3` for one address takes one way through the same tables.
-/

namespace Gevisor.Verified

open Gevisor.Lib Gevisor.Ept Gevisor.Vmm

/-! ## Recording pages -/

/-- The pages are noted one after another. -/
def recordAll (pages : List Nat) (g : Globals) : Globals := pages.foldl (fun g page => recordEpcPage page g) g

/-- What the scan reads of the globals. -/
structure SameTables (g g' : Globals) : Prop where
  mem : g'.mem = g.mem
  base : g'.epcBaseAddress = g.epcBaseAddress
  size : g'.epcSize = g.epcSize

variable {g g' : Globals}

theorem SameTables.record (same : SameTables g g') (pages : List Nat) : SameTables g (recordAll pages g') := by
  induction pages generalizing g' with
  | nil => exact same
  | cons page rest ih => exact ih ⟨same.mem, same.base, same.size⟩

theorem SameTables.isEpcPage_iff (same : SameTables g g') (page : Nat) : isEpcPage g' page ↔ isEpcPage g page := by
  rw [isEpcPage, isEpcPage, same.base, same.size]

theorem recordAll_append (first rest : List Nat) (g : Globals) :
    recordAll (first ++ rest) g = recordAll rest (recordAll first g) :=
  List.foldl_append

/-- As long as there is room, each page gets its place. -/
theorem recordAll_spec (pages : List Nat) (g : Globals) (room : g.modifiedPages + pages.length ≤ sgxPages) :
    (recordAll pages g).modifiedPages = g.modifiedPages + pages.length ∧
      (∀ i (hb : i < pages.length), (recordAll pages g).sgxPaddrs (g.modifiedPages + i) = pages[i]) ∧
      ∀ k, k < g.modifiedPages → (recordAll pages g).sgxPaddrs k = g.sgxPaddrs k := by
  induction pages generalizing g with
  | nil => exact ⟨rfl, fun i hb => absurd hb (Nat.not_lt_zero i), fun _ _ => rfl⟩
  | cons page rest ih =>
    rw [List.length_cons] at room
    have free : g.modifiedPages < sgxPages := by omega
    have next : (recordEpcPage page g).modifiedPages = g.modifiedPages + 1 := by
      simp only [recordEpcPage, sgxPages] at free ⊢
      omega
    have hn : (recordEpcPage page g).sgxPaddrs = Function.update g.sgxPaddrs g.modifiedPages page := by
      simp only [recordEpcPage, if_pos free]
    obtain ⟨hc, hp, kept⟩ := ih (recordEpcPage page g) (by rw [next]; omega)
    rw [next] at hc hp kept
    refine ⟨?_, fun i hb => ?_, fun k less => ?_⟩
    · rw [List.length_cons]
      exact hc.trans (by omega)
    · cases i with
      | zero => exact (kept _ (by omega)).trans (by rw [hn]; exact Function.update_self ..)
      | succ i =>
        have ht := hp i (Nat.lt_of_succ_lt_succ hb)
        rwa [show g.modifiedPages + 1 + i = g.modifiedPages + (i + 1) by omega] at ht
    · exact (kept k (by omega)).trans (by rw [hn]; exact Function.update_of_ne (by omega) ..)

/-! ## What the scan appends -/

/-- The code's test for an entry that is present. -/
def IsPresent (pte : BitVec 64) : Prop := GuestPte.physAddr pte ≠ 0 ∧ GuestPte.present pte = true

/-- What the 512 entries of a table contribute, in order. -/
def pagesOfEntries (g : Globals) (page : Nat) (f : BitVec 64 → List Nat) : List Nat :=
  (List.range' 0 512).flatMap fun i => f (g.mem page (Fin.ofNat 512 i))

def epcOfPt (g : Globals) (pdPte : BitVec 64) : List Nat :=
  pagesOfEntries g (GuestPte.physAddr pdPte) fun ptPte =>
    if isEpcPage g (GuestPte.physAddr ptPte) then [GuestPte.physAddr ptPte] else []

def epcOfPdt (g : Globals) (pdptPte : BitVec 64) : List Nat :=
  pagesOfEntries g (GuestPte.physAddr pdptPte) fun pdPte =>
    if GuestPte.physAddr pdPte ≠ 0 ∧ GuestPte.present pdPte ∧ ¬ GuestPte.ps pdPte then epcOfPt g pdPte else []

def epcOfPdpt (g : Globals) (pml4Pte : BitVec 64) : List Nat :=
  pagesOfEntries g (GuestPte.physAddr pml4Pte) fun pdptPte =>
    if GuestPte.physAddr pdptPte ≠ 0 ∧ GuestPte.present pdptPte ∧ ¬ GuestPte.ps pdptPte then epcOfPdt g pdptPte
    else []

/-- The EPC pages that the tables below `cr3` name, as often as they name them. -/
def epcOfPml4 (g : Globals) (cr3 : Nat) : List Nat :=
  pagesOfEntries g (upper cr3 12) fun pml4Pte =>
    if GuestPte.physAddr pml4Pte ≠ 0 ∧ GuestPte.present pml4Pte then epcOfPdpt g pml4Pte else []

theorem mem_pagesOfEntries {page : Nat} {f : BitVec 64 → List Nat} {p : Nat} (i : Fin 512)
    (here : p ∈ f (g.mem page i)) : p ∈ pagesOfEntries g page f := by
  refine List.mem_flatMap.mpr ⟨i, ?_, ?_⟩
  · rw [List.mem_range'_1]
    omega
  · rwa [Fin.ofNat_val_eq_self]

section Scan

variable {E : Type} {g : Globals}

/-- Run over the tables of `g`, `c` appends `pages` and does nothing else. -/
def Scans (g : Globals) (c : VmmM E Unit) (pages : List Nat) : Prop :=
  ∀ m g', SameTables g g' → c ⟨m, g'⟩ = .ok () ⟨m, recordAll pages g'⟩

theorem Scans.forFrom {body : Nat → VmmM E Unit} {f : Nat → List Nat} (each : ∀ i, Scans g (body i) (f i))
    (i n : Nat) : Scans g (Lib.forFrom body i n) ((List.range' i n).flatMap f) := by
  induction n generalizing i with
  | zero => exact fun m g' _ => rfl
  | succ n ih =>
    intro m g' same
    rw [Lib.forFrom, bind_of_ok (each i m g' same), ih (i + 1) m _ (same.record _), List.range'_succ,
      List.flatMap_cons, recordAll_append]

theorem Scans.forEntries {page : Nat} (maps : mapsPage page = true) {visit : BitVec 64 → VmmM E Unit}
    {f : BitVec 64 → List Nat} (each : ∀ pte, Scans g (visit pte) (f pte)) :
    Scans g (Vmm.forEntries page visit) (pagesOfEntries g page f) := by
  rw [Vmm.forEntries, if_pos maps]
  refine .forFrom (fun i m g' same => ?_) 0 512
  rw [bind_of_ok (show getG ⟨m, g'⟩ = .ok g' ⟨m, g'⟩ from rfl), same.mem]
  exact each _ m g' same

theorem Scans.ite {p : Prop} [Decidable p] {c : VmmM E Unit} {pages : List Nat} (hi : p → Scans g c pages) :
    Scans g (if p then c else pure ()) (if p then pages else []) := by
  split
  · next hh => exact hi hh
  · exact fun _ _ _ => rfl

theorem physAddr_aligned (pte : BitVec 64) : GuestPte.physAddr pte % 2 ^ 12 = 0 := by
  have mask : (0x000FFFFFFFFFF000#64).toNat % 2 ^ 12 = 0 := by decide
  rw [GuestPte.physAddr, getBits, BitVec.toNat_and, Nat.and_mod_two_pow, mask, Nat.and_zero]

theorem mapsPage_of_ne_zero {page : Nat} (hnz : page ≠ 0) (hal : page % 2 ^ 12 = 0) : mapsPage page = true := by
  rw [mapsPage, Bool.and_eq_true]
  exact ⟨decide_eq_true hnz, decide_eq_true hal⟩

theorem mapsPage_physAddr {pte : BitVec 64} (hp : GuestPte.physAddr pte ≠ 0) :
    mapsPage (GuestPte.physAddr pte) = true :=
  mapsPage_of_ne_zero hp (physAddr_aligned pte)

theorem scans_pt {pdPte : BitVec 64} (hp : GuestPte.physAddr pdPte ≠ 0) :
    Scans g (accessAllPt pdPte : VmmM E Unit) (epcOfPt g pdPte) := by
  refine .forEntries (mapsPage_physAddr hp) fun ptPte m g' same => ?_
  rw [bind_of_ok (show getG ⟨m, g'⟩ = .ok g' ⟨m, g'⟩ from rfl)]
  simp only [same.isEpcPage_iff]
  split
  · rfl
  · rfl

theorem scans_pdt {pdptPte : BitVec 64} (hp : GuestPte.physAddr pdptPte ≠ 0) :
    Scans g (accessAllPdt pdptPte : VmmM E Unit) (epcOfPdt g pdptPte) :=
  .forEntries (mapsPage_physAddr hp) fun _ => .ite fun hh => scans_pt hh.1

theorem scans_pdpt {pml4Pte : BitVec 64} (hp : GuestPte.physAddr pml4Pte ≠ 0) :
    Scans g (accessAllPdpt pml4Pte : VmmM E Unit) (epcOfPdpt g pml4Pte) :=
  .forEntries (mapsPage_physAddr hp) fun _ => .ite fun hh => scans_pdt hh.1

theorem scans_pml4 {cr3 : Nat} (root : upper cr3 12 ≠ 0) :
    Scans g (accessAllPml4 cr3 : VmmM E Unit) (epcOfPml4 g cr3) := by
  have hnz : cr3 ≠ 0 := by
    intro zero
    rw [zero] at root
    exact root rfl
  have maps : mapsPage (upper cr3 12) = true := mapsPage_of_ne_zero root (Nat.mul_mod_left _ _)
  rw [accessAllPml4, if_neg hnz]
  exact .forEntries maps fun _ => .ite fun hh => scans_pdpt hh.1

end Scan

/-! ## The walk for one address -/

/-- `virt` is mapped by a present entry of each level, the last of them `ptPte`, with none of them large. -/
structure SmallChain (mem : GuestMem) (cr3 virt : Nat) (pml4Pte pdptPte pdPte ptPte : BitVec 64) : Prop where
  pml4 : mem (upper cr3 12) (Level.pml4.index virt) = pml4Pte
  pml4Present : IsPresent pml4Pte
  pdpt : mem (GuestPte.physAddr pml4Pte) (Level.pdpt.index virt) = pdptPte
  pdptPresent : IsPresent pdptPte
  pdptTable : GuestPte.ps pdptPte = false
  pd : mem (GuestPte.physAddr pdptPte) (Level.pd.index virt) = pdPte
  pdPresent : IsPresent pdPte
  pdTable : GuestPte.ps pdPte = false
  pt : mem (GuestPte.physAddr pdPte) (Level.pt.index virt) = ptPte
  ptPresent : IsPresent ptPte

section Walk

variable {g : Globals} {cr3 virt : Nat} {pml4Pte pdptPte pdPte ptPte : BitVec 64}

theorem IsPresent.goes_on {pte : BitVec 64} (hp : IsPresent pte) :
    ¬ (decide (GuestPte.physAddr pte = 0) || !GuestPte.present pte) = true := by
  simp [hp.1, hp.2]

/-- The walk follows the chain to its end. -/
theorem SmallChain.walk {mem : GuestMem} (hc : SmallChain mem cr3 virt pml4Pte pdptPte pdPte ptPte)
    {pa : Nat} (walk : customVirtToPhysWithCr3 mem virt cr3 = .ok pa) :
    pa = GuestPte.physAddr ptPte + virt % 2 ^ 12 := by
  simp only [customVirtToPhysWithCr3, hc.pml4, hc.pdpt, hc.pd, hc.pt, if_neg hc.pml4Present.goes_on,
    if_neg hc.pdptPresent.goes_on, if_neg hc.pdPresent.goes_on, if_neg hc.ptPresent.goes_on, hc.pdptTable,
    hc.pdTable, Bool.false_eq_true, if_false] at walk
  split_ifs at walk
  rw [← Except.ok.inj walk, upper, lower, Level.fromBit, Nat.mul_comm,
    ← Nat.two_pow_add_eq_or_of_lt (Nat.mod_lt virt (Nat.two_pow_pos 12)), Nat.mul_comm]
  have hal := physAddr_aligned ptPte
  omega

/-- Its last page, if in the EPC, is one of those the scan finds. -/
theorem SmallChain.found (hc : SmallChain g.mem cr3 virt pml4Pte pdptPte pdPte ptPte)
    (epc : isEpcPage g (GuestPte.physAddr ptPte)) : GuestPte.physAddr ptPte ∈ epcOfPml4 g cr3 := by
  refine mem_pagesOfEntries (Level.pml4.index virt) ?_
  rw [hc.pml4, if_pos ⟨hc.pml4Present.1, hc.pml4Present.2⟩]
  refine mem_pagesOfEntries (Level.pdpt.index virt) ?_
  rw [hc.pdpt, if_pos ⟨hc.pdptPresent.1, hc.pdptPresent.2, by simp [hc.pdptTable]⟩]
  refine mem_pagesOfEntries (Level.pd.index virt) ?_
  rw [hc.pd, if_pos ⟨hc.pdPresent.1, hc.pdPresent.2, by simp [hc.pdTable]⟩]
  refine mem_pagesOfEntries (Level.pt.index virt) ?_
  rw [hc.pt, if_pos epc]
  exact List.mem_singleton_self _

end Walk

/-- The scan returns wherever a walk can start, and appends every EPC page that a walk of small entries ends in. -/
theorem scan_finds_mapped_pages {E : Type} (m : E) (g : Globals) (cr3 : Nat)
    (room : g.modifiedPages + (epcOfPml4 g cr3).length ≤ sgxPages) :
    (upper cr3 12 = 0 ∧ ∀ virt pa, customVirtToPhysWithCr3 g.mem virt cr3 ≠ .ok pa) ∨
      ∃ t : Machine E, accessAllPml4 cr3 ⟨m, g⟩ = .ok () t ∧
        t.g.modifiedPages = g.modifiedPages + (epcOfPml4 g cr3).length ∧
        (∀ i (below : i < (epcOfPml4 g cr3).length), t.g.sgxPaddrs (g.modifiedPages + i) = (epcOfPml4 g cr3)[i]) ∧
        (∀ k, k < g.modifiedPages → t.g.sgxPaddrs k = g.sgxPaddrs k) ∧
        ∀ virt pml4Pte pdptPte pdPte ptPte pa, SmallChain g.mem cr3 virt pml4Pte pdptPte pdPte ptPte →
          customVirtToPhysWithCr3 g.mem virt cr3 = .ok pa →
          g.epcBaseAddress ≤ upper pa 12 → upper pa 12 < g.epcBaseAddress + g.epcSize →
          ∃ k, g.modifiedPages ≤ k ∧ k < t.g.modifiedPages ∧ t.g.sgxPaddrs k = upper pa 12 := by
  by_cases root : upper cr3 12 = 0
  · refine .inl ⟨root, fun virt pa walk => ?_⟩
    rw [customVirtToPhysWithCr3, root] at walk
    split_ifs at walk
    exact absurd rfl ‹_›
  · obtain ⟨count, places, kept⟩ := recordAll_spec (epcOfPml4 g cr3) g room
    refine .inr ⟨_, scans_pml4 root m g ⟨rfl, rfl, rfl⟩, count, places, kept, ?_⟩
    intro virt pml4Pte pdptPte pdPte ptPte pa chain walk lower upper'
    have page : upper pa 12 = GuestPte.physAddr ptPte := by
      have aligned := physAddr_aligned ptPte
      rw [chain.walk walk, upper]
      omega
    rw [page] at lower upper' ⊢
    obtain ⟨i, below, here⟩ := List.mem_iff_getElem.mp (chain.found ⟨chain.ptPresent.1, lower, Nat.le_of_lt upper'⟩)
    exact ⟨g.modifiedPages + i, Nat.le_add_right _ _, by rw [count]; omega, (places i below).trans here⟩

/-- Four tables that map 0x1000 to the first page of an EPC at 2M. -/
def oneEpcPage : Globals :=
  { initialGlobals none fun page i =>
      if page = 0x1000 ∧ i = 0 then 0x2001 else if page = 0x2000 ∧ i = 0 then 0x3001
      else if page = 0x3000 ∧ i = 0 then 0x4001 else if page = 0x4000 ∧ i = 1 then 0x200001 else 0 with
    epcBaseAddress := 0x200000
    epcSize := 0x200000 }

theorem scan_finds_one_page :
    ∃ t : Machine Unit, accessAllPml4 0x1000 ⟨(), oneEpcPage⟩ = .ok () t ∧ t.g.modifiedPages = 1 ∧
      t.g.sgxPaddrs 0 = 0x200000 := by
  have pages : epcOfPml4 oneEpcPage 0x1000 = [0x200000] := by decide +kernel
  cases scan_finds_mapped_pages () oneEpcPage 0x1000 (by rw [pages]; decide) with
  | inl unrooted => exact absurd unrooted.1 (by decide)
  | inr scanned =>
    obtain ⟨t, returns, count, places, -, -⟩ := scanned
    rw [pages] at count
    have first := places 0 (by rw [pages]; decide)
    simp only [pages] at first
    exact ⟨t, returns, count, first⟩

end Gevisor.Verified
