import Gevisor.Host.Temporary

/-! # What a walk finds

The meaning of a guest's page tables, `guestWalk`, and the walks of the hypervisor in terms of it. A walk with
the tables it maps on its way gives what `guestWalk` finds if those maps can be made, throws if one of them
cannot, and restores the state of the host in any case.
-/

namespace Gevisor.Host

open Lib Ept MemoryManager

/-! ## Guest page tables -/

/-- How a walk ends: after how many tables, and with the address in the last entry and its level, if all
entries on the way are present. -/
structure Outcome where
  tables : Nat
  frame : Option (Nat × Level)
  deriving DecidableEq, Repr

/-- A word of the guest's page at `page`, an address of 52 bits. -/
def tableWord (mem : Memory) (page : Nat) (i : Fin 512) : Entry := mem (upper page 12 % 2 ^ 52 / 4096 * 4096) i

/-- An entry that the walks take for missing. -/
def Missing (pte : Entry) : Prop := Pte.physAddr pte = 0 ∨ Pte.present pte = false

instance decidableMissing (pte : Entry) : Decidable (Missing pte) := inferInstanceAs (Decidable (_ ∨ _))

section Meaning

variable (mem : Memory) (virt : Nat)

/-- Reads one table and goes on from its entry. -/
def look (l : Level) (page : Nat) (next : Entry → Outcome) : Outcome :=
  let pte := tableWord mem page (l.index virt)
  let rest := if Missing pte then ⟨0, none⟩ else next pte
  ⟨rest.tables + 1, rest.frame⟩

def guestWalk (pml4Addr : Nat) : Outcome :=
  look mem virt .pml4 pml4Addr fun pml4Pte =>
    look mem virt .pdpt (Pte.physAddr pml4Pte) fun pdptPte =>
      if Pte.ps pdptPte then ⟨0, some (Pte.physAddr pdptPte, .pdpt)⟩
      else look mem virt .pd (Pte.physAddr pdptPte) fun pdPte =>
        if Pte.ps pdPte then ⟨0, some (Pte.physAddr pdPte, .pd)⟩
        else look mem virt .pt (Pte.physAddr pdPte) fun ptPte => ⟨0, some (Pte.physAddr ptPte, .pt)⟩

/-- The address that `virt` is translated to by an entry. -/
def translated (frame : Nat × Level) : Nat := upper frame.1 frame.2.fromBit ||| lower virt frame.2.fromBit

end Meaning

/-! ## The maps of a walk -/

/-- Maps of `n` pages can be made one after the other. -/
def Ready (A : AddrMap) : Nat → Buddy memMapPoolK → Prop
  | 0, _ => True
  | n + 1, t => ∃ q t', Available A t q t' ∧ Ready A n t'

/-- The pool can hand out `n` pages one after the other. -/
def Supplies : Nat → Buddy memMapPoolK → Prop
  | 0, _ => True
  | n + 1, t => ∃ q t', t.take 0 = some (q, t') ∧ Supplies n t'

/-- The next `n` pages that the pool hands out have no translation. -/
def Clear (A : AddrMap) : Nat → Buddy memMapPoolK → Prop
  | 0, _ => True
  | n + 1, t => ∀ q t', t.take 0 = some (q, t') → A (poolPage q) = none ∧ Clear A n t'

/-- The page is part of a block that has been handed out. -/
def Used (t : Buddy memMapPoolK) (q : Nat) : Prop := ∃ u ∈ t.blocks 0, u.1 ≤ q ∧ q < u.1 + 2 ^ u.2

section

variable {mm : PagePool} {mem : Memory} {A B : AddrMap} {t t' : Buddy memMapPoolK} {q : Nat} {α : Type}

variable {j p n virt : Nat}

theorem used_take (htk : t.take j = some (q, t')) : Used t' p ↔ (q ≤ p ∧ p < q + 2 ^ j) ∨ Used t p := by
  have perm := Buddy.blocks_take htk 0
  rw [Nat.zero_add] at perm
  simp only [Used, perm.mem_iff, List.mem_cons, exists_eq_or_imp]

theorem not_used_of_take (htk : t.take j = some (q, t')) (first : q ≤ p) (last : p < q + 2 ^ j) : ¬ Used t p := by
  rintro ⟨u, hm, hs, stop⟩
  refine Buddy.not_overlap_of_take htk hm ⟨?_, ?_⟩
  · simp only [Nat.zero_add]
    omega
  · simp only [Nat.zero_add]
    omega

/-- Translations of pages in use do not matter. -/
theorem ready_congr (same : ∀ q < 2 ^ memMapPoolK, ¬ Used t q → B (poolPage q) = A (poolPage q)) (n : Nat) :
    Ready B n t ↔ Ready A n t := by
  induction n generalizing t with
  | zero => rfl
  | succ n ih =>
    have next {q : Nat} {t' : Buddy memMapPoolK} (htk : t.take 0 = some (q, t')) :
        B (poolPage q) = A (poolPage q) ∧ (Ready B n t' ↔ Ready A n t') := by
      have hi := (Buddy.take_inside htk).1
      refine ⟨same q (by omega) (not_used_of_take htk (Nat.le_refl q) (by omega)), ih ?_⟩
      intro p hs free
      exact same p hs fun used => free ((used_take htk).mpr (.inr used))
    constructor
    · rintro ⟨q, t', ⟨htk, absent⟩, rest⟩
      obtain ⟨here, hde⟩ := next htk
      exact ⟨q, t', ⟨htk, here ▸ absent⟩, hde.mp rest⟩
    · rintro ⟨q, t', ⟨htk, absent⟩, rest⟩
      obtain ⟨here, hde⟩ := next htk
      exact ⟨q, t', ⟨htk, here.trans absent⟩, hde.mpr rest⟩

theorem sameLeaf_poolPage {q : Nat} (first : p < 2 ^ memMapPoolK) (hs : q < 2 ^ memMapPoolK)
    (same : SameLeaf .pt (poolPage p) (poolPage q)) : p = q := by
  simp only [SameLeaf, poolPage, memMapPoolK, memMapPoolStart, pageSize, Level.fromBit] at first hs same
  omega

/-- The page of a map is in use, so it does not matter for the maps after it. -/
theorem Available.ready_set (hav : Available A t q t') (leaf : Option Leaf) (n : Nat) :
    Ready (A.set .pt (poolPage q) leaf) n t' ↔ Ready A n t' := by
  have hi := (Buddy.take_inside hav.taken).1
  apply ready_congr
  intro p hs free
  apply AddrMap.set_other
  intro same
  obtain rfl := sameLeaf_poolPage hs (by omega) same
  exact free ((used_take hav.taken).mpr (.inl ⟨Nat.le_refl p, by omega⟩))

theorem Supplies.rest (hs : Supplies (n + 1) t) (htk : t.take 0 = some (q, t')) : Supplies n t' := by
  obtain ⟨_, _, first, rest⟩ := hs
  have same := first.symm.trans htk
  cases same
  exact rest

theorem Supplies.mono {m : Nat} (less : m ≤ n) (hs : Supplies n t) : Supplies m t := by
  induction m generalizing n t with
  | zero => trivial
  | succ m ih =>
    cases n with
    | zero => omega
    | succ n =>
      obtain ⟨q, t', htk, rest⟩ := hs
      exact ⟨q, t', htk, ih (by omega) rest⟩

theorem ready_iff : Ready A n t ↔ Supplies n t ∧ Clear A n t := by
  induction n generalizing t with
  | zero => exact ⟨fun _ => ⟨trivial, trivial⟩, fun _ => trivial⟩
  | succ n ih =>
    constructor
    · rintro ⟨q, t', ⟨htk, absent⟩, rest⟩
      obtain ⟨hs, clear⟩ := ih.mp rest
      refine ⟨⟨q, t', htk, hs⟩, fun q' t'' ha => ?_⟩
      have same := ha.symm.trans htk
      cases same
      exact ⟨absent, clear⟩
    · rintro ⟨⟨q, t', htk, hs⟩, clear⟩
      obtain ⟨absent, rest⟩ := clear q t' htk
      exact ⟨q, t', ⟨htk, absent⟩, ih.mpr ⟨hs, rest⟩⟩

theorem clear_empty (n : Nat) (t : Buddy memMapPoolK) : Clear (fun _ => none) n t := by
  induction n generalizing t with
  | zero => trivial
  | succ n ih => exact fun _ t' _ => ⟨rfl, ih t'⟩

/-! ## The walks -/

/-- Maps one table, reads its entry and goes on from there. -/
def visit (mm : PagePool) (mem : Memory) (virt : Nat) (absent : HostM α) (l : Level) (page : Nat)
    (next : Entry → HostM α) : HostM α :=
  withMap mm (makeUniqueMap mm page .writeBack) fun map => do
    let pte ← load mm mem map (l.index virt)
    if Missing pte then absent else next pte

/-- The common shape of the walks: what they do where an entry is missing, and with the entry they end at. -/
def throughTables (mm : PagePool) (mem : Memory) (virt : Nat) (absent : HostM α) (found : Nat × Level → HostM α)
    (pml4Addr : Nat) : HostM α :=
  visit mm mem virt absent .pml4 pml4Addr fun pml4Pte =>
    visit mm mem virt absent .pdpt (Pte.physAddr pml4Pte) fun pdptPte =>
      if Pte.ps pdptPte then found (Pte.physAddr pdptPte, .pdpt)
      else visit mm mem virt absent .pd (Pte.physAddr pdptPte) fun pdPte =>
        if Pte.ps pdPte then found (Pte.physAddr pdPte, .pd)
        else visit mm mem virt absent .pt (Pte.physAddr pdPte) fun ptPte => found (Pte.physAddr ptPte, .pt)

/-- Both presence checks of an entry. -/
theorem expects_present (pte : Entry) (rest : HostM α) :
    (do expects (Pte.physAddr pte ≠ 0); expects (Pte.present pte = true); rest) =
      if Missing pte then throw failFast else rest := by
  funext s
  by_cases zero : Pte.physAddr pte = 0
  · rw [if_pos (.inl zero), expects, if_neg (not_not.mpr zero)]
    rfl
  · rw [expects, if_pos zero]
    by_cases hp : Pte.present pte = true
    · have ht : ¬ Missing pte := by
        rintro (h | h)
        · exact zero h
        · rw [hp] at h
          cases h
      rw [if_neg ht, expects, if_pos hp]
      rfl
    · rw [if_pos (.inr (Bool.eq_false_iff.mpr hp)), expects, if_neg hp]
      rfl

theorem virtToPhysWithCr3_eq (virt cr3 : Nat) : virtToPhysWithCr3 mm mem virt cr3 = (do
      expects (cr3 ≠ 0)
      expects (virt ≠ 0)
      throughTables mm mem virt (throw failFast) (fun frame => pure (translated virt frame)) (upper cr3 12)) := by
  simp only [virtToPhysWithCr3, expects_present]
  rfl

theorem customVirtToPhysWithCr3_eq (virt cr3 : Nat) : customVirtToPhysWithCr3 mm mem virt cr3 = (do
      expects (cr3 ≠ 0)
      expects (virt ≠ 0)
      throughTables mm mem virt (pure 0) (fun frame => pure (translated virt frame)) (upper cr3 12)) := rfl

theorem findFrame_eq (pml4Addr virt : Nat) :
    findFrame mm mem pml4Addr virt = throughTables mm mem virt (throw failFast) pure pml4Addr := by
  simp only [findFrame, expects_present]
  rfl

/-- From every state of the host, `c` ends like the outcome says if the maps for that can be made. If not, it
throws, and it is not a check that fails unless the pool is exhausted. -/
structure Realizes (mm : PagePool) (c : HostM α) (o : Outcome) (Q : Option (Nat × Level) → α → Prop)
    (X : Option (Nat × Level) → Err → Prop) : Prop where
  ready : ∀ A t, Ready A o.tables t → Restoring mm A t c (Q o.frame) (X o.frame)
  fails : ∀ A t, ¬ Ready A o.tables t →
    Restoring mm A t c (fun _ => False) (fun e => e = failFast → ¬ Supplies o.tables t)

section Realize

variable {virt page : Nat} {absent : HostM α} {Q : Option (Nat × Level) → α → Prop}
  {X : Option (Nat × Level) → Err → Prop}

theorem Realizes.leaf {c : HostM α} {frame : Option (Nat × Level)}
    (ends : ∀ A t, Restoring mm A t c (Q frame) (X frame)) : Realizes mm c ⟨0, frame⟩ Q X where
  ready A t _ := ends A t
  fails _ _ hu := absurd trivial hu

/-- One level of a walk. -/
theorem Realizes.visit {l : Level} {next : Entry → HostM α} {next' : Entry → Outcome} (hnn : page ≠ 0)
    (hal : lower page 12 = 0) (hmis : Realizes mm absent ⟨0, none⟩ Q X)
    (hp : ∀ pte, ¬ Missing pte → Realizes mm (next pte) (next' pte) Q X) :
    Realizes mm (Host.visit mm mem virt absent l page next) (look mem virt l page next') Q X := by
  have rest : Realizes mm (if Missing (tableWord mem page (l.index virt)) then absent
      else next (tableWord mem page (l.index virt)))
      (if Missing (tableWord mem page (l.index virt)) then ⟨0, none⟩ else next' (tableWord mem page (l.index virt)))
      Q X := by
    by_cases gone : Missing (tableWord mem page (l.index virt))
    · rw [if_pos gone, if_pos gone]
      exact hmis
    · rw [if_neg gone, if_neg gone]
      exact hp _ gone
  -- What the map of the table shows is the guest's page.
  have reads {A : AddrMap} {t t' : Buddy memMapPoolK} {q : Nat} {Q' : α → Prop} {X' : Err → Prop}
      (inner : Restoring mm (A.set .pt (poolPage q) (some (hostLeaf (upper page 12) .writeBack))) t'
        (if Missing (tableWord mem page (l.index virt)) then absent else next (tableWord mem page (l.index virt))) Q' X')
      (hav : Available A t q t') : Restoring mm A t (Host.visit mm mem virt absent l page next) Q' X' := by
    have hmap : (A.set .pt (poolPage q) (some (hostLeaf (upper page 12) .writeBack)))
        (UniqueMap.mk (poolPage q) pageSize pageSize).virt = some (hostLeaf (upper page 12) .writeBack) :=
      AddrMap.set_same (SameLeaf.refl _ _) _ _
    refine .withMap hav hnn hal (.bind (.load hmap mem (l.index virt)) ?_)
    intro pte value
    rw [hostLeaf, leafEntry_physAddr] at value
    rw [value]
    exact inner
  constructor
  · rintro A t ⟨q, t', hav, hde⟩
    exact reads (rest.ready _ t' ((hav.ready_set _ _).mpr hde)) hav
  · intro A t unready
    by_cases first : ∃ q t', Available A t q t'
    · obtain ⟨q, t', hav⟩ := first
      have inner := rest.fails _ t' fun hde =>
        unready ⟨q, t', hav, (hav.ready_set (some (hostLeaf (upper page 12) .writeBack)) _).mp hde⟩
      refine (reads inner hav).mono (fun _ none => none) fun e cause check supply => ?_
      exact cause check (supply.rest hav.taken)
    · have inner : Restoring mm A t (Host.visit mm mem virt absent l page next) _ _ :=
        .withMap_fails (.inr (.inr fun q t' hav => first ⟨q, t', hav⟩))
      refine inner.mono (fun _ none => none) ?_
      rintro e cause check ⟨q, t', htk, -⟩
      obtain null | unaligned | exhausted := cause check
      · exact hnn null
      · exact unaligned hal
      · rw [exhausted] at htk
        cases htk

theorem Pte.physAddr_eq (pte : Entry) : Pte.physAddr pte = pte.toNat % 2 ^ 52 / 4096 * 4096 := by
  have hv := toNat_and_physAddrMask pte.toNat
  rw [BitVec.ofNat_toNat, BitVec.setWidth_eq] at hv
  exact hv

theorem Pte.lower_physAddr (pte : Entry) : lower (Pte.physAddr pte) 12 = 0 := by
  rw [Pte.physAddr_eq, lower]
  omega

theorem Pte.physAddr_lt (pte : Entry) : Pte.physAddr pte < 2 ^ 52 := by
  rw [Pte.physAddr_eq]
  omega

theorem realizes_throughTables {hf : Nat × Level → HostM α} {pml4Addr : Nat} (hnn : pml4Addr ≠ 0)
    (hal : lower pml4Addr 12 = 0) (hmis : ∀ A t, Restoring mm A t absent (Q none) (X none))
    (ends : ∀ frame A t, Restoring mm A t (hf frame) (Q (some frame)) (X (some frame))) :
    Realizes mm (throughTables mm mem virt absent hf pml4Addr) (guestWalk mem virt pml4Addr) Q X := by
  have gone : Realizes mm absent ⟨0, none⟩ Q X := .leaf hmis
  have hta {pte : Entry} (hp : ¬ Missing pte) : Pte.physAddr pte ≠ 0 := fun zero => hp (.inl zero)
  refine .visit hnn hal gone fun pml4Pte ht => ?_
  refine .visit (hta ht) (Pte.lower_physAddr _) gone fun pdptPte ht => ?_
  by_cases huge : Pte.ps pdptPte = true
  · rw [if_pos huge, if_pos huge]
    exact .leaf (ends _)
  rw [if_neg huge, if_neg huge]
  refine .visit (hta ht) (Pte.lower_physAddr _) gone fun pdPte ht => ?_
  by_cases hl : Pte.ps pdPte = true
  · rw [if_pos hl, if_pos hl]
    exact .leaf (ends _)
  rw [if_neg hl, if_neg hl]
  refine .visit (hta ht) (Pte.lower_physAddr _) gone fun ptPte _ => ?_
  exact .leaf (ends _)

end Realize

/-! ## What the walks give -/

theorem look_tables_le {l : Level} {page : Nat} {next : Entry → Outcome} (hbo : ∀ pte, (next pte).tables ≤ n) :
    (look mem virt l page next).tables ≤ n + 1 := by
  simp only [look]
  split
  · exact Nat.le_add_left 1 n
  · exact Nat.succ_le_succ (hbo _)

theorem guestWalk_tables_le (mem : Memory) (virt page : Nat) : (guestWalk mem virt page).tables ≤ 4 := by
  refine look_tables_le (n := 3) fun pml4Pte => look_tables_le (n := 2) fun pdptPte => ?_
  split
  · exact Nat.zero_le 2
  · refine look_tables_le (n := 1) fun pdPte => ?_
    split
    · exact Nat.zero_le 1
    · exact look_tables_le (n := 0) fun _ => Nat.le_refl 0

/-- What the base hypervisor's walk gives: the address, or a failed check. -/
def Strict (virt : Nat) : Option (Nat × Level) → Nat → Prop
  | some frame, p => p = translated virt frame
  | none, _ => False

/-- What the walk of the paging utilities gives: the address or zero. -/
def Lenient (virt : Nat) : Option (Nat × Level) → Nat → Prop
  | some frame, p => p = translated virt frame
  | none, p => p = 0

theorem realizes_strict {virt pml4Addr : Nat} (hnn : pml4Addr ≠ 0) (hal : lower pml4Addr 12 = 0) :
    Realizes mm (throughTables mm mem virt (throw failFast) (fun frame => pure (translated virt frame)) pml4Addr)
      (guestWalk mem virt pml4Addr) (Strict virt) (fun frame _ => frame = none) :=
  realizes_throughTables hnn hal (fun _ _ => .throw rfl rfl) fun _ _ _ => .pure rfl

theorem realizes_lenient {virt pml4Addr : Nat} (hnn : pml4Addr ≠ 0) (hal : lower pml4Addr 12 = 0) :
    Realizes mm (throughTables mm mem virt (pure 0) (fun frame => pure (translated virt frame)) pml4Addr)
      (guestWalk mem virt pml4Addr) (Lenient virt) (fun _ _ => False) :=
  realizes_throughTables hnn hal (fun _ _ => .pure rfl) fun _ _ _ => .pure rfl

/-- Below the first page `cr3` names no table that can be mapped. -/
theorem throughTables_null {absent : HostM α} {hf : Nat × Level → HostM α} :
    Restoring mm A t (throughTables mm mem virt absent hf 0) (fun _ => False) (fun _ => True) :=
  (Restoring.withMap_fails (.inl rfl)).mono (fun _ none => none) fun _ _ => trivial

end

end Gevisor.Host
