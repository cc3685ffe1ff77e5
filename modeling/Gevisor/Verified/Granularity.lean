import Gevisor.Ept.Conversions
import Gevisor.Verified.PartialMap

/-! # Conversions are exact

What the six conversions do to the look-ups of every address, for a region that is identity-mapped with pages
of the source size.
-/

namespace Gevisor.Verified

open Gevisor.Lib Gevisor.Ept

/-- The `identity_map_convert` functions, by their names. -/
inductive Conversion
  | from1gTo2m
  | from1gTo4k
  | from2mTo1g
  | from4kTo1g
  | from2mTo4k
  | from4kTo2m
  deriving DecidableEq, Repr

namespace Conversion

def exec (mm : PagePool) : Conversion → Nat → AttrType → MemoryType → MapM Unit
  | from1gTo2m => identityMapConvert1gTo2m mm
  | from1gTo4k => identityMapConvert1gTo4k mm
  | from2mTo1g => identityMapConvert2mTo1g mm
  | from4kTo1g => identityMapConvert4kTo1g mm
  | from2mTo4k => identityMapConvert2mTo4k mm
  | from4kTo2m => identityMapConvert4kTo2m mm

def source : Conversion → PageSize
  | from1gTo2m | from1gTo4k => .size1g
  | from2mTo1g | from2mTo4k => .size2m
  | from4kTo1g | from4kTo2m => .size4k

def target : Conversion → PageSize
  | from2mTo1g | from4kTo1g => .size1g
  | from1gTo2m | from4kTo2m => .size2m
  | from1gTo4k | from2mTo4k => .size4k

/-- The larger of the two page sizes: the region that is converted. -/
def larger : Conversion → PageSize
  | from1gTo2m | from1gTo4k | from2mTo1g | from4kTo1g => .size1g
  | from2mTo4k | from4kTo2m => .size2m

end Conversion

/-- Every address of the region is mapped to itself, by pages of this size. -/
def IdentityMapped (mm : PagePool) (m : Mmap) (size : PageSize) (addr length : Nat) : Prop :=
  ∀ a, addr ≤ a → a < addr + length →
    (report mm m a).bits = some size.bits ∧ (report mm m a).phys = some (upper a size.bits)

/-- The call returns, the region is identity-mapped with the target's pages, and the look-ups of all other
addresses answer as before. -/
def ConvertsExactly (mm : PagePool) (m : Mmap) (c : Conversion) (addr : Nat) (attr : AttrType) (cache : MemoryType) :
    Prop :=
  ∃ m', c.exec mm addr attr cache m = .ok () m' ∧
    (∀ a, addr ≤ a → a < addr + 2 ^ c.larger.bits →
      ReportsPage c.target (upper a c.target.bits) attr cache (report mm m' a)) ∧
    ∀ a, ¬ SamePage c.larger.bits a addr → report mm m' a = report mm m a

section Words

theorem physAddr_lt (e : Entry) : e.physAddr < 2 ^ 48 := by
  rw [Entry.physAddr, getBits, BitVec.toNat_and]
  exact Nat.lt_of_le_of_lt Nat.and_le_right (by decide)

/-- The only leaf whose word is zero. -/
theorem leafEntry_eq_zero_iff {phys : Nat} (hbo : phys < 2 ^ 48) (page : phys % 2 ^ 12 = 0) {attr : AttrType}
    {cache : MemoryType} {large : Bool} :
    leafEntry phys attr cache large = 0 ↔ large = false ∧ phys = 0 ∧ attr = .none ∧ cache = .uncacheable := by
  constructor
  · intro zero
    have small := leafEntry_ps phys attr cache large
    have base := leafEntry_physAddr phys attr cache large
    have type := leafEntry_memoryType phys attr cache large
    simp only [zero] at small base type
    refine ⟨by simpa using small.symm, ?_, ?_, ?_⟩
    · rw [show Entry.physAddr 0 = 0 by decide] at base
      omega
    · by_contra hg
      exact leafEntry_ne_zero hg zero
    · cases cache with
      | uncacheable => rfl
      | _ => exact absurd type (by decide)
  · intro all
    obtain ⟨rfl, rfl, rfl, rfl⟩ := all
    decide

end Words

section Conversions

variable {mm : PagePool} {m : Mmap} {A : AddrMap} {addr : Nat} {attr : AttrType} {cache : MemoryType}

variable {small large : PageSize} {a : Nat}

/-- The source's pages, and that the region ends within the addresses that a walk distinguishes. -/
theorem identityMapped_pages {size : PageSize} {length : Nat} (href : Refines mm m A)
    (hid : IdentityMapped mm m size addr length) (habv : addr ≤ a) (hb : a < addr + length) :
    (∃ e, A a = some ⟨size.level, e⟩) ∧ upper a size.bits < 2 ^ 48 := by
  obtain ⟨bits, phys⟩ := hid a habv hb
  rw [report_eq href.1, href.2] at bits phys
  cases hf : A a with
  | none =>
    rw [hf] at bits
    cases bits
  | some leaf =>
    obtain ⟨l, e⟩ := leaf
    rw [hf] at bits phys
    refine ⟨⟨e, ?_⟩, ?_⟩
    · rw [Level.fromBit_injective (show l.fromBit = size.level.fromBit from Option.some.inj bits)]
    · rw [← Option.some.inj phys]
      exact physAddr_lt e

/-- `B` is `A` with the region filled with new pages of size `target`. -/
structure Converted (A : AddrMap) (large target : PageSize) (addr : Nat) (attr : AttrType) (cache : MemoryType)
    (B : AddrMap) : Prop where
  inside : ∀ a, addr ≤ a → a < addr + 2 ^ large.bits →
    B a = asLeaf target.level (leafEntry (upper a target.bits) attr cache (target ≠ .size4k))
  outside : ∀ a, ¬ SamePage large.bits a addr → B a = A a

theorem page_aligned {size : PageSize} {phys : Nat} (hal : phys % 2 ^ size.bits = 0) : phys % 2 ^ 12 = 0 := by
  cases size <;> simp only [PageSize.bits, PageSize.level, Level.fromBit] at hal <;> omega

theorem addr_zero_of_first_page (c : Conversion) (hal : addr % 2 ^ c.larger.bits = 0) (habv : addr ≤ a)
    (first : upper a PageSize.size4k.bits = 0) : addr = 0 := by
  cases c <;>
    simp only [upper, Conversion.larger, PageSize.bits, PageSize.level, Level.fromBit] at hal first <;>
    omega

theorem region_page (hfn : Finer small large) (hal : addr % 2 ^ large.bits = 0)
    (hbo : addr + 2 ^ large.bits ≤ 2 ^ 48) (habv : addr ≤ a) (hb : a < addr + 2 ^ large.bits) :
    SameLeaf large.level a addr ∧ upper a large.bits = addr ∧
      addr + pageNumber small large a * 2 ^ small.bits = upper a small.bits := by
  cases hfn <;>
    simp only [SameLeaf, upper, pageNumber, PageSize.bits, PageSize.level, Level.fromBit] at * <;>
    omega

theorem convertUp_converted (attr : AttrType) (cache : MemoryType)
    (hfn : Finer small large) (hal : addr % 2 ^ large.bits = 0) (hbo : addr + 2 ^ large.bits ≤ 2 ^ 48)
    (href : Refines mm m A)
    (hp : ∀ a, addr ≤ a → a < addr + 2 ^ large.bits → ∃ e, A a = some ⟨small.level, e⟩) :
    ∃ m' B, convertUp mm small large addr attr cache m = .ok () m' ∧ Refines mm m' B ∧
      Converted A large large addr attr cache B := by
  have hi (j : Nat) (less : j < pagesIn small large) : addr + j * 2 ^ small.bits < addr + 2 ^ large.bits := by
    cases hfn <;> simp only [pagesIn, PageSize.bits, PageSize.level, Level.fromBit] at less ⊢ <;> omega
  obtain ⟨m', hret, href'⟩ := convertUp_spec attr cache hfn hal hbo href
    fun j less => hp _ (Nat.le_add_right _ _) (hi j less)
  refine ⟨m', _, hret, href', fun a habv hb => ?_, fun a hout => AddrMap.set_other hout A _⟩
  obtain ⟨hr, page, -⟩ := region_page hfn hal hbo habv hb
  rw [AddrMap.set_same hr, page]

theorem convertDown_converted (attr : AttrType) (cache : MemoryType)
    (hfn : Finer small large) (hal : addr % 2 ^ large.bits = 0) (hbo : addr + 2 ^ large.bits ≤ 2 ^ 48)
    (href : Refines mm m A) {e : Entry} (page : A addr = some ⟨large.level, e⟩) :
    ∃ m' B, convertDown mm large small addr attr cache m = .ok () m' ∧ Refines mm m' B ∧
      Converted A large small addr attr cache B := by
  obtain ⟨m', hret, href'⟩ := convertDown_spec attr cache hfn hal hbo href page
  refine ⟨m', _, hret, href', fun a habv hb => ?_, fun a hout => paint_outside hout⟩
  obtain ⟨hr, -, hn⟩ := region_page hfn hal hbo habv hb
  rw [paint_inside hfn hr, pageLeaf, hn]

/-- All six. -/
theorem exec_converted (c : Conversion) (attr : AttrType) (cache : MemoryType) (hc : Coherent mm m.live m)
    (hal : addr % 2 ^ c.larger.bits = 0) (hid : IdentityMapped mm m c.source addr (2 ^ c.larger.bits)) :
    addr + 2 ^ c.larger.bits ≤ 2 ^ 48 ∧ ∃ m' B, c.exec mm addr attr cache m = .ok () m' ∧ Refines mm m' B ∧
      Converted (leafAt mm m) c.larger c.target addr attr cache B := by
  have href : Refines mm m (leafAt mm m) := ⟨hc, rfl⟩
  have hp {a : Nat} (habv : addr ≤ a) (hb : a < addr + 2 ^ c.larger.bits) := identityMapped_pages href hid habv hb
  have size := Nat.two_pow_pos c.larger.bits
  have hbo : addr + 2 ^ c.larger.bits ≤ 2 ^ 48 := by
    have last := (hp (a := addr + 2 ^ c.larger.bits - 1) (by omega) (by omega)).2
    cases c <;>
      simp only [upper, Conversion.larger, Conversion.source, PageSize.bits, PageSize.level, Level.fromBit]
        at hal last ⊢ <;>
      omega
  refine ⟨hbo, ?_⟩
  obtain ⟨e, first⟩ := (hp (Nat.le_refl addr) (by omega)).1
  cases c with
  | from1gTo2m => exact convertDown_converted attr cache .twoIn1g hal hbo href first
  | from1gTo4k => exact convertDown_converted attr cache .fourIn1g hal hbo href first
  | from2mTo4k => exact convertDown_converted attr cache .fourIn2m hal hbo href first
  | from2mTo1g =>
    exact convertUp_converted attr cache .twoIn1g hal hbo href fun a habv hb => (hp habv hb).1
  | from4kTo1g =>
    exact convertUp_converted attr cache .fourIn1g hal hbo href fun a habv hb => (hp habv hb).1
  | from4kTo2m =>
    exact convertUp_converted attr cache .fourIn2m hal hbo href fun a habv hb => (hp habv hb).1

/-- The conversions are exact, but for one argument: a 4K leaf of frame 0 without access, uncacheable, is the
zero word, so that page 0 is not mapped afterwards. -/
theorem conversion_exact_iff (c : Conversion) (attr : AttrType) (cache : MemoryType)
    (coherent : Coherent mm m.live m) (aligned : addr % 2 ^ c.larger.bits = 0)
    (identity : IdentityMapped mm m c.source addr (2 ^ c.larger.bits)) :
    ConvertsExactly mm m c addr attr cache ↔
      ¬ (c.target = .size4k ∧ addr = 0 ∧ attr = .none ∧ cache = .uncacheable) := by
  obtain ⟨bound, m', B, returns, refines, converted⟩ := exec_converted c attr cache coherent aligned identity
  have size := Nat.two_pow_pos c.larger.bits
  constructor
  · intro exactly zero
    obtain ⟨target, rfl, rfl, rfl⟩ := zero
    obtain ⟨m'', returns', inside, -⟩ := exactly
    cases returns.symm.trans returns'
    have first := (inside 0 (Nat.le_refl 0) (by omega)).bits
    rw [report_eq refines.1, refines.2, converted.inside 0 (Nat.le_refl 0) (by omega), target] at first
    cases first
  · intro other
    refine ⟨m', returns, fun a above below => ?_, fun a outside => ?_⟩
    · have page : upper a c.target.bits % 2 ^ c.target.bits = 0 := Nat.mul_mod_left _ _
      have within : upper a c.target.bits < 2 ^ 48 :=
        Nat.lt_of_le_of_lt (Nat.div_mul_le_self _ _) (Nat.lt_of_lt_of_le below bound)
      have word : leafEntry (upper a c.target.bits) attr cache (c.target ≠ .size4k) ≠ 0 := by
        intro zero
        obtain ⟨small, base, access, type⟩ := (leafEntry_eq_zero_iff within (page_aligned page)).mp zero
        have target : c.target = .size4k := by simpa using small
        refine other ⟨target, ?_, access, type⟩
        rw [target] at base
        exact addr_zero_of_first_page c aligned above base
      rw [report_eq refines.1, refines.2, converted.inside a above below, asLeaf, if_neg word]
      exact reportsPage_ofLeaf c.target attr cache within page
    · rw [report_eq refines.1, refines.2, converted.outside a outside, report_eq coherent]

end Conversions

/-- A new map with one 2M page, at zero. -/
theorem exists_first_large_page :
    ∃ r m, map2m default 0 0 .readWriteExecute .writeBack (Mmap.init default fun _ _ => 0) = .ok r m ∧
      Coherent default m.live m ∧ IdentityMapped default m .size2m 0 (2 ^ 21) := by
  have bare : Bare default (Mmap.init default fun _ _ => 0) := init_bare _
  obtain ⟨r, m, hret, hrch⟩ := @map2m_spec default _ 0 0 .readWriteExecute .writeBack bare.1
    (view_of_slot_zero (bare.2 _ _)) (bare.2 _ _)
  refine ⟨r, m, hret, hrch.refines.1, fun a _ hb => ?_⟩
  have same : SameLeaf .pd a 0 := by
    simp only [SameLeaf, Level.fromBit]
    omega
  have page : upper a PageSize.size2m.bits = 0 := by
    simp only [upper, PageSize.bits, PageSize.level, Level.fromBit]
    omega
  rw [report_eq hrch.refines.1, hrch.refines.2, AddrMap.set_same same, page]
  decide

/-- Page 0 of the region is not mapped any more. -/
theorem conversion_unmaps_page_zero :
    ∃ r m m', map2m default 0 0 .readWriteExecute .writeBack (Mmap.init default fun _ _ => 0) = .ok r m ∧
      (report default m 0).bits = some 21 ∧
      identityMapConvert2mTo4k default 0 .none .uncacheable m = .ok () m' ∧
      report default m' 0 = .unmapped ∧ (report default m' 0x1000).bits = some 12 := by
  obtain ⟨r, m, returns, coherent, identity⟩ := exists_first_large_page
  obtain ⟨-, m', B, converts, refines, converted⟩ := exec_converted .from2mTo4k .none .uncacheable coherent
    (by decide) identity
  refine ⟨r, m, m', returns, (identity 0 (by decide) (by decide)).1, converts, ?_, ?_⟩
  · rw [report_eq refines.1, refines.2, converted.inside 0 (by decide) (by decide)]
    decide
  · rw [report_eq refines.1, refines.2, converted.inside 0x1000 (by decide) (by decide)]
    decide

theorem conversion_exact_first_large_page :
    ∃ r m, map2m default 0 0 .readWriteExecute .writeBack (Mmap.init default fun _ _ => 0) = .ok r m ∧
      ConvertsExactly default m .from2mTo4k 0 .readWrite .uncacheable := by
  obtain ⟨r, m, returns, coherent, identity⟩ := exists_first_large_page
  exact ⟨r, m, returns, (conversion_exact_iff .from2mTo4k .readWrite .uncacheable coherent (by decide) identity).mpr
    (by decide)⟩

end Gevisor.Verified
