import Gevisor.Ept.Calls

/-! # Conversions between page sizes

The six `identity_map_convert` functions. Downwards the large leaf is cleared and the region filled with
small ones; upwards the small leaves are released one after another, by which the tables between the two
levels go away, and the large leaf takes their place. `AddrMap.paint` is the map part way through either
loop.
-/

namespace Gevisor.Ept

open Gevisor.Lib

/-! ## The functions -/

section Functions

variable (mm : PagePool)

/-- The common body of `is_1g`, `is_2m` and `is_4k`. -/
def PageSize.is (size : PageSize) (virt : Nat) : MapM Bool := do
  let fromBit ← leafFrom mm virt
  pure (fromBit = size.bits)

def is1g := PageSize.is mm .size1g

def is2m := PageSize.is mm .size2m

/-- The common body of `identity_release_2m` and `identity_release_4k`. -/
def identityRelease (size : PageSize) (saddr eaddr : Nat) : MapM Unit := do
  if lower saddr size.bits ≠ 0 then throw failFast
  else if lower eaddr size.bits ≠ 0 then throw failFast
  else forFrom (fun k => release mm (saddr + k * 2 ^ size.bits)) 0 ((eaddr - saddr) / 2 ^ size.bits)

def identityRelease2m := identityRelease mm .size2m

/-- The common body of `identity_map_2m` and `identity_map_4k`. -/
def identityMapPages (size : PageSize) (saddr eaddr : Nat) (attr : AttrType) (cache : MemoryType) : MapM Unit := do
  if lower saddr size.bits ≠ 0 then throw failFast
  else if lower eaddr size.bits ≠ 0 then throw failFast
  else
    forFrom (fun k => do
      let gpa := saddr + k * 2 ^ size.bits
      let _ ← size.map mm gpa gpa attr cache) 0 ((eaddr - saddr) / 2 ^ size.bits)

def identityMap2m := identityMapPages mm .size2m

def identityMap4k := identityMapPages mm .size4k

/-- The common body of the conversions to smaller pages. -/
def convertDown (large small : PageSize) (addr : Nat) (attr : AttrType) (cache : MemoryType) : MapM Unit := do
  if lower addr large.bits ≠ 0 then throw failFast
  else
    let isLarge ← large.is mm addr
    if !isLarge then throw failFast
    else
      unmap mm addr
      identityMapPages mm small addr ((addr + 2 ^ large.bits) % 2 ^ 64) attr cache

def identityMapConvert1gTo2m := convertDown mm .size1g .size2m

def identityMapConvert1gTo4k := convertDown mm .size1g .size4k

def identityMapConvert2mTo4k := convertDown mm .size2m .size4k

/-- The common body of the conversions to larger pages. -/
def convertUp (small large : PageSize) (addr : Nat) (attr : AttrType) (cache : MemoryType) : MapM Unit := do
  if lower addr large.bits ≠ 0 then throw failFast
  else
    let isSmall ← small.is mm addr
    if !isSmall then throw failFast
    else
      identityRelease mm small addr ((addr + 2 ^ large.bits) % 2 ^ 64)
      let _ ← large.map mm addr addr attr cache
      pure ()

def identityMapConvert2mTo1g := convertUp mm .size2m .size1g

def identityMapConvert4kTo1g := convertUp mm .size4k .size1g

end Functions

/-! ## Part of a region -/

theorem Level.fromBit_injective {l l' : Level} (same : l.fromBit = l'.fromBit) : l = l' := by
  cases l <;> cases l' <;> first | rfl | cases same

inductive Finer : PageSize → PageSize → Prop
  | twoIn1g : Finer .size2m .size1g
  | fourIn1g : Finer .size4k .size1g
  | fourIn2m : Finer .size4k .size2m

/-- How many pages of one size make one of the other. -/
def pagesIn (small large : PageSize) : Nat := 2 ^ (large.bits - small.bits)

/-- The number of `a`'s page in its region. -/
def pageNumber (small large : PageSize) (a : Nat) : Nat := a % 2 ^ large.bits / 2 ^ small.bits

/-- The first `k` pages of `addr`'s region have the leaves that `f` gives them. -/
def AddrMap.paint (A : AddrMap) (small large : PageSize) (addr k : Nat) (f : Nat → Option Leaf) : AddrMap := fun a =>
  if SameLeaf large.level a addr ∧ pageNumber small large a < k then f (pageNumber small large a) else A a

section Paint

variable {A : AddrMap} {small large : PageSize} {addr a k : Nat} {f : Nat → Option Leaf}

theorem pageNumber_lt (hfn : Finer small large) (a : Nat) : pageNumber small large a < pagesIn small large := by
  cases hfn <;> simp only [pageNumber, pagesIn, PageSize.bits, PageSize.level, Level.fromBit] <;> omega

theorem sameLeaf_page (hfn : Finer small large) (hal : addr % 2 ^ large.bits = 0) (hb : k < pagesIn small large) :
    SameLeaf small.level a (addr + k * 2 ^ small.bits) ↔
      SameLeaf large.level a addr ∧ pageNumber small large a = k := by
  cases hfn <;>
    simp only [pageNumber, pagesIn, SameLeaf, PageSize.bits, PageSize.level, Level.fromBit] at hal hb ⊢ <;>
    omega

theorem paint_zero : A.paint small large addr 0 f = A := by
  funext a
  exact if_neg fun h => absurd h.2 (Nat.not_lt_zero _)

theorem paint_succ (hfn : Finer small large) (hal : addr % 2 ^ large.bits = 0) (hb : k < pagesIn small large) :
    (A.paint small large addr k f).set small.level (addr + k * 2 ^ small.bits) (f k) =
      A.paint small large addr (k + 1) f := by
  funext a
  have page := sameLeaf_page (a := a) hfn hal hb
  by_cases here : SameLeaf small.level a (addr + k * 2 ^ small.bits)
  · obtain ⟨hr, hn⟩ := page.mp here
    rw [AddrMap.set_same here, AddrMap.paint, if_pos ⟨hr, by omega⟩, hn]
  · rw [AddrMap.set_other here]
    have hgw : (SameLeaf large.level a addr ∧ pageNumber small large a < k + 1) ↔
        SameLeaf large.level a addr ∧ pageNumber small large a < k := by
      refine and_congr_right fun hr => ⟨fun less => ?_, fun less => by omega⟩
      have ho : pageNumber small large a ≠ k := fun hn => here (page.mpr ⟨hr, hn⟩)
      omega
    simp only [AddrMap.paint, hgw]

/-- The next page is as it was. -/
theorem paint_next (hfn : Finer small large) (hal : addr % 2 ^ large.bits = 0) (hb : k < pagesIn small large) :
    A.paint small large addr k f (addr + k * 2 ^ small.bits) = A (addr + k * 2 ^ small.bits) := by
  have hn := ((sameLeaf_page hfn hal hb).mp (.refl small.level (addr + k * 2 ^ small.bits))).2
  exact if_neg fun h => absurd h.2 (by omega)

theorem paint_inside (hfn : Finer small large) (hr : SameLeaf large.level a addr) :
    A.paint small large addr (pagesIn small large) f a = f (pageNumber small large a) :=
  if_pos ⟨hr, pageNumber_lt hfn a⟩

theorem paint_outside (hout : ¬ SameLeaf large.level a addr) : A.paint small large addr k f a = A a :=
  if_neg fun h => hout h.1

end Paint

/-! ## Releasing a region -/

section Release

variable {mm : PagePool} {m m' : Mmap} {A : AddrMap} {small large : PageSize} {addr a v k : Nat}

/-- No table on the way of `v` stands empty. -/
def Tidy (mm : PagePool) (m : Mmap) (v : Nat) : Prop :=
  ∀ parent child : Level, Below parent child → 0 < parent.depth →
    m.slot mm (pathTo parent v) (parent.index v) = 0 ∨ ∃ i, m.slot mm (pathTo child v) i ≠ 0

variable {parent child : Level}

theorem Below.sameLeaf_iff (hb : Below parent child) : SameLeaf parent a v ↔ pathTo child a = pathTo child v := by
  rw [Ept.sameLeaf_iff, hb.pathTo_eq, hb.pathTo_eq, List.cons.injEq, and_comm]

theorem Tidy.congr (tidy : Tidy mm m v) (same : SameLeaf .pd a v) : Tidy mm m a := by
  intro parent child hb hin
  have hs : SameLeaf parent a v := same.upper (by cases hb <;> decide)
  obtain ⟨path, hi⟩ := (sameLeaf_iff parent a v).mp hs
  rw [path, hi, hb.sameLeaf_iff.mp hs]
  exact tidy _ _ hb hin

/-- A release elsewhere leaves the tables of `a` as they are, or takes part of the way of `a` itself. -/
theorem Freed.tidy_other (hfre : Freed mm v m m') (tidy : Tidy mm m a) : Tidy mm m' a := by
  intro parent child hb hin
  by_cases hs : SameLeaf parent a v
  · obtain ⟨path, hi⟩ := (sameLeaf_iff parent a v).mp hs
    rw [path, hi, hb.sameLeaf_iff.mp hs]
    exact hfre.tidy hb hin
  · have he : ¬ OnPath v (pathTo parent a) (parent.index a) := by
      intro on
      obtain ⟨l, path, hi⟩ := on
      obtain rfl := pathTo_level path
      exact hs ((sameLeaf_iff _ a v).mpr ⟨path, hi⟩)
    have hw (i : Fin 512) : ¬ OnPath v (pathTo child a) i := by
      intro on
      obtain ⟨l, path, -⟩ := on
      obtain rfl := pathTo_level path
      exact hs (hb.sameLeaf_iff.mpr path)
    rw [hfre.frame _ _ he]
    simp only [hfre.frame _ _ (hw _)]
    exact tidy _ _ hb hin

/-- Some address below `parent`'s entry has the given index. -/
theorem Below.exists_index (hb : Below parent child) (a : Nat) (i : Fin 512) :
    ∃ b, SameLeaf parent b a ∧ child.index b = i := by
  have hbo := i.isLt
  refine ⟨upper (a % 2 ^ 48) parent.fromBit + i * 2 ^ child.fromBit, ?_, Fin.ext ?_⟩
  · cases hb <;> simp only [SameLeaf, upper, Level.fromBit] <;> omega
  · cases hb <;> simp only [Level.index, Fin.ofNat, upper, Level.fromBit] <;> omega

/-- Where a table between two levels is tidy and nothing is mapped below it, it is gone. -/
theorem slot_pd_zero (tidy : Tidy mm m a) (hem : ∀ b, SameLeaf .pd b a → leafAt mm m b = none) :
    m.slot mm (pathTo .pd a) (Level.pd.index a) = 0 := by
  cases tidy .pd .pt .pt (by decide) with
  | inl zero => exact zero
  | inr used =>
    obtain ⟨i, hp⟩ := used
    obtain ⟨b, hs, hi⟩ := Below.pt.exists_index a i
    have view := leafAt_none (hem b hs) .pt
    rw [view_pt _ (length_pathTo .pt _), hi, Below.pt.sameLeaf_iff.mp hs] at view
    exact absurd view hp

theorem slot_pdpt_zero (tidy : ∀ b, SameLeaf .pdpt b a → Tidy mm m b)
    (hem : ∀ b, SameLeaf .pdpt b a → leafAt mm m b = none) :
    m.slot mm (pathTo .pdpt a) (Level.pdpt.index a) = 0 := by
  cases tidy a (.refl .pdpt a) .pdpt .pd .pd (by decide) with
  | inl zero => exact zero
  | inr used =>
    obtain ⟨i, hp⟩ := used
    obtain ⟨b, hs, hi⟩ := Below.pd.exists_index a i
    have gone := slot_pd_zero (tidy b hs) fun c same =>
      hem c ((same.upper (by decide : Level.pdpt.depth ≤ Level.pd.depth)).trans hs)
    rw [hi, Below.pd.sameLeaf_iff.mp hs] at gone
    exact absurd gone hp

/-- After `k` releases. -/
structure Emptying (mm : PagePool) (A : AddrMap) (small large : PageSize) (addr k : Nat) (m : Mmap) : Prop where
  refines : Refines mm m (A.paint small large addr k fun _ => none)
  tidy : ∀ j, j < k → Tidy mm m (addr + j * 2 ^ small.bits)

theorem Emptying.step (hfn : Finer small large) (hal : addr % 2 ^ large.bits = 0)
    (hp : ∀ j, j < pagesIn small large → ∃ e, A (addr + j * 2 ^ small.bits) = some ⟨small.level, e⟩)
    (hb : k < pagesIn small large) (hbe : Emptying mm A small large addr k m) :
    ∃ m', release mm (addr + k * 2 ^ small.bits) m = .ok () m' ∧ Emptying mm A small large addr (k + 1) m' := by
  obtain ⟨m', hret, hfre⟩ := release_spec (addr + k * 2 ^ small.bits) hbe.refines.1
  refine ⟨m', hret, ⟨hfre.coherent, ?_⟩, fun j upto => ?_⟩
  · obtain ⟨e, hf⟩ := hp k hb
    rw [← paint_next (A := A) (f := fun _ => none) hfn hal hb] at hf
    rw [hfre.leafAt_eq, hbe.refines.2, AddrMap.release, hf]
    exact paint_succ hfn hal hb
  · cases Nat.lt_succ_iff_lt_or_eq.mp upto with
    | inl hea => exact hfre.tidy_other (hbe.tidy j hea)
    | inr last =>
      rw [last]
      exact fun _ _ hb hi => hfre.tidy hb hi

theorem release_region (hfn : Finer small large) (hal : addr % 2 ^ large.bits = 0) (href : Refines mm m A)
    (hp : ∀ j, j < pagesIn small large → ∃ e, A (addr + j * 2 ^ small.bits) = some ⟨small.level, e⟩) :
    ∃ m', forFrom (fun k => release mm (addr + k * 2 ^ small.bits)) 0 (pagesIn small large) m = .ok () m' ∧
      Emptying mm A small large addr (pagesIn small large) m' := by
  have loop : wp (forFrom (fun k => release mm (addr + k * 2 ^ small.bits)) 0 (pagesIn small large))
      (fun _ => Emptying mm A small large addr (pagesIn small large)) (fun _ _ => False) m := by
    refine wp_loop (Emptying mm A small large addr) ⟨?_, fun j none => absurd none (Nat.not_lt_zero j)⟩
      (fun k t hb hbe => ?_) fun _ ha => ha
    · rwa [paint_zero]
    · obtain ⟨m', hret, ha⟩ := hbe.step hfn hal hp hb
      rw [wp_of_ok hret]
      exact ha
  obtain ⟨_, m', hret, he⟩ := exists_of_wp loop
  exact ⟨m', hret, he⟩

/-- The tables of the region have collapsed up to the entry for a large page. -/
theorem Emptying.slot_zero (hfn : Finer small large) (hal : addr % 2 ^ large.bits = 0)
    (he : Emptying mm A small large addr (pagesIn small large) m) :
    m.slot mm (pathTo large.level addr) (large.level.index addr) = 0 := by
  have hem (b : Nat) (hr : SameLeaf large.level b addr) : leafAt mm m b = none := by
    rw [he.refines.2]
    exact paint_inside hfn hr
  have tidy (b : Nat) (hr : SameLeaf large.level b addr) : Tidy mm m b := by
    have hn := pageNumber_lt hfn b
    have page := (sameLeaf_page hfn hal hn).mpr ⟨hr, rfl⟩
    refine (he.tidy _ hn).congr (page.upper ?_)
    cases hfn <;> decide
  cases hfn with
  | twoIn1g => exact slot_pdpt_zero tidy hem
  | fourIn1g => exact slot_pdpt_zero tidy hem
  | fourIn2m => exact slot_pd_zero (tidy addr (.refl _ _)) hem

end Release

/-! ## Filling a region -/

section Fill

variable {mm : PagePool} {m : Mmap} {A : AddrMap} {small large : PageSize} {virt addr k : Nat}

/-- Where the entry is free and nothing larger is in the way, a map call returns. -/
theorem PageSize.map_returns (size : PageSize) (phys : Nat) (attr : AttrType) (cache : MemoryType)
    (hc : Coherent mm m.live m) (hab : leafAt mm m virt = none)
    (zero : m.slot mm (pathTo size.level virt) (size.level.index virt) = 0) :
    ∃ r m', size.map mm virt phys attr cache m = .ok r m' ∧ Reaches mm virt m m' ((leafAt mm m).set size.level virt
        (asLeaf size.level (leafEntry phys attr cache (size ≠ .size4k)))) := by
  cases size with
  | size1g =>
    obtain ⟨m₁, hret₁, hg, here⟩ := mapPdpt_spec virt hc
    have zero₁ : m₁.slot mm (pathTo .pdpt virt) (Level.pdpt.index virt) = 0 := by
      rw [hg.frame _ _ fun on => absurd on.2 (by simp [Level.depth])]
      exact zero
    obtain ⟨r, m', hret, hrch⟩ := mapLeaf_spec "map_pdpte" (by decide) hg here zero₁ fun l' _ =>
      (hg.view _ _).trans (leafAt_none hab l')
    refine ⟨r, m', ?_, hrch⟩
    rw [PageSize.map, map1g, bind_of_ok hret₁]
    exact hret
  | size2m => exact map2m_spec phys attr cache hc (leafAt_none hab .pdpt) zero
  | size4k => exact map4k_spec phys attr cache hc hab

/-- Clearing a leaf leaves a zero entry behind. -/
theorem unmap_leaf {leaf : Leaf} (href : Refines mm m A) (hf : A virt = some leaf) :
    ∃ m', unmap mm virt m = .ok () m' ∧ Refines mm m' (A.set leaf.level virt none) ∧
      m'.slot mm (pathTo leaf.level virt) (leaf.level.index virt) = 0 := by
  obtain ⟨hc, rfl⟩ := href
  obtain ⟨l, r, m₁, harr⟩ := arrives virt hc
  have here := harr.leaf
  have old : ¬ IsTable l.depth (m₁.slot mm (pathTo l virt) (l.index virt)) := by
    rw [← harr.refers.word]
    exact harr.stops
  rw [hf] at here
  split at here
  case isTrue => cases here
  case isFalse =>
  cases here
  obtain ⟨href, -⟩ := leafAt_write harr.grown.coherent harr.refers harr.inner old (not_isTable_zero _) harr.upper
  obtain ⟨-, -, slot⟩ := harr.grown.coherent.write_leaf (i := l.index virt) harr.refers.1
    (by rw [length_pathTo]; exact old) (not_isTable_zero _)
  rw [harr.grown.leafAt_eq] at href
  refine ⟨_, harr.walk.unmap_eq, href, ?_⟩
  rw [harr.refers.2, slot, if_pos ⟨rfl, rfl⟩]

/-- The leaf of page `k` of the region. -/
def pageLeaf (small : PageSize) (addr : Nat) (attr : AttrType) (cache : MemoryType) (k : Nat) : Option Leaf :=
  asLeaf small.level (leafEntry (addr + k * 2 ^ small.bits) attr cache (small ≠ .size4k))

/-- After `k` map calls: the entries of the later pages are still free. -/
structure Filling (mm : PagePool) (A : AddrMap) (small large : PageSize) (addr : Nat) (attr : AttrType)
    (cache : MemoryType) (k : Nat) (m : Mmap) : Prop where
  refines : Refines mm m (A.paint small large addr k (pageLeaf small addr attr cache))
  free : ∀ j, k ≤ j → j < pagesIn small large →
    m.slot mm (pathTo small.level (addr + j * 2 ^ small.bits)) (small.level.index (addr + j * 2 ^ small.bits)) = 0

variable {attr : AttrType} {cache : MemoryType}

theorem Filling.step (hfn : Finer small large) (hal : addr % 2 ^ large.bits = 0)
    (hv : ∀ a, SameLeaf large.level a addr → A a = none) (hb : k < pagesIn small large)
    (hbe : Filling mm A small large addr attr cache k m) :
    ∃ r m', small.map mm (addr + k * 2 ^ small.bits) (addr + k * 2 ^ small.bits) attr cache m = .ok r m' ∧
      Filling mm A small large addr attr cache (k + 1) m' := by
  have page {j : Nat} (less : j < pagesIn small large) :=
    (sameLeaf_page hfn hal less).mp (.refl small.level (addr + j * 2 ^ small.bits))
  have hab : leafAt mm m (addr + k * 2 ^ small.bits) = none := by
    rw [hbe.refines.2, paint_next hfn hal hb, hv _ (page hb).1]
  obtain ⟨r, m', hret, hrch⟩ := small.map_returns (addr + k * 2 ^ small.bits) attr cache hbe.refines.1 hab
    (hbe.free k (Nat.le_refl k) hb)
  refine ⟨r, m', hret, ⟨hrch.refines.1, ?_⟩, fun j ha less => ?_⟩
  · rw [hrch.refines.2, hbe.refines.2]
    exact paint_succ hfn hal hb
  · rw [hrch.frame, hbe.free j (by omega) less]
    -- Only page `k` itself has its entry on the way of this call.
    intro on
    obtain ⟨l, path, hi⟩ := on
    obtain rfl := pathTo_level path
    have same := (sameLeaf_page hfn hal hb).mp ((sameLeaf_iff _ _ _).mpr ⟨path, hi⟩)
    have hn := (page less).2
    omega

theorem fill_region (attr : AttrType) (cache : MemoryType) (hfn : Finer small large)
    (hal : addr % 2 ^ large.bits = 0) (href : Refines mm m A) (hv : ∀ a, SameLeaf large.level a addr → A a = none)
    (free : ∀ j, j < pagesIn small large →
      m.slot mm (pathTo small.level (addr + j * 2 ^ small.bits)) (small.level.index (addr + j * 2 ^ small.bits)) = 0) :
    ∃ m', forFrom (fun k => do
        let gpa := addr + k * 2 ^ small.bits
        let _ ← small.map mm gpa gpa attr cache) 0 (pagesIn small large) m = .ok () m' ∧
      Refines mm m' (A.paint small large addr (pagesIn small large) (pageLeaf small addr attr cache)) := by
  have loop : wp (forFrom (fun k => do
        let gpa := addr + k * 2 ^ small.bits
        let _ ← small.map mm gpa gpa attr cache) 0 (pagesIn small large))
      (fun _ m' => Refines mm m' (A.paint small large addr (pagesIn small large) (pageLeaf small addr attr cache)))
      (fun _ _ => False) m := by
    refine wp_loop (Filling mm A small large addr attr cache) ⟨?_, fun j _ less => free j less⟩
      (fun k t hb hbe => ?_) fun _ ha => ha.refines
    · rwa [paint_zero]
    · obtain ⟨r, m', hret, ha⟩ := hbe.step hfn hal hv hb
      rw [wp_bind, wp_of_ok hret]
      exact ha
  obtain ⟨_, m', hret, hfi⟩ := exists_of_wp loop
  exact ⟨m', hret, hfi⟩

end Fill

/-! ## The conversions -/

section Conversions

variable {mm : PagePool} {m : Mmap} {A : AddrMap} {small large : PageSize} {addr : Nat}

theorem is_returns {size : PageSize} {e : Entry} (href : Refines mm m A) (hf : A addr = some ⟨size.level, e⟩) :
    ∃ m', size.is mm addr m = .ok true m' ∧ Refines mm m' A := by
  have hl : wp (AddrMap.leafFrom addr) (fun bits B => bits = size.bits ∧ B = A) (fun _ _ => False) A := by
    rw [AddrMap.leafFrom, wp_bind, wp_of_ok (AddrMap.lookup_some hf "from")]
    exact ⟨rfl, rfl⟩
  obtain ⟨bits, m', hret, _, href', rfl, rfl⟩ := exists_of_wp (wp_mono (fun _ _ ends => ends)
    (fun _ _ hth => by obtain ⟨_, _, _, _, hi⟩ := hth; exact hi)
    (leafFrom_simulates.wp href hl))
  refine ⟨m', ?_, href'⟩
  rw [PageSize.is, bind_of_ok hret, decide_eq_true rfl]
  rfl

/-- What the two loops run over: the region does not end above the address space. -/
theorem region_loop (hfn : Finer small large) (hal : addr % 2 ^ large.bits = 0)
    (hbo : addr + 2 ^ large.bits ≤ 2 ^ 48) :
    lower addr large.bits = 0 ∧ lower addr small.bits = 0 ∧ lower ((addr + 2 ^ large.bits) % 2 ^ 64) small.bits = 0 ∧
      ((addr + 2 ^ large.bits) % 2 ^ 64 - addr) / 2 ^ small.bits = pagesIn small large := by
  cases hfn <;> simp only [lower, pagesIn, PageSize.bits, PageSize.level, Level.fromBit] at hal hbo ⊢ <;> omega

variable (attr : AttrType) (cache : MemoryType)

theorem convertUp_spec (hfn : Finer small large) (hal : addr % 2 ^ large.bits = 0)
    (hbo : addr + 2 ^ large.bits ≤ 2 ^ 48) (href : Refines mm m A)
    (hp : ∀ j, j < pagesIn small large → ∃ e, A (addr + j * 2 ^ small.bits) = some ⟨small.level, e⟩) :
    ∃ m', convertUp mm small large addr attr cache m = .ok () m' ∧
      Refines mm m' (A.set large.level addr (asLeaf large.level (leafEntry addr attr cache (large ≠ .size4k)))) := by
  obtain ⟨hal₁, hal₂, hal₃, hc⟩ := region_loop hfn hal hbo
  obtain ⟨e, first⟩ := hp 0 (Nat.two_pow_pos _)
  rw [Nat.zero_mul, Nat.add_zero] at first
  obtain ⟨m₁, hl, href₁⟩ := is_returns href first
  obtain ⟨m₂, hre, he⟩ := release_region hfn hal href₁ hp
  have hab : leafAt mm m₂ addr = none := by
    rw [he.refines.2]
    exact paint_inside hfn (.refl _ _)
  obtain ⟨r, m₃, maps, hrch⟩ := large.map_returns addr attr cache he.refines.1 hab (he.slot_zero hfn hal)
  refine ⟨m₃, ?_, hrch.refines.1, ?_⟩
  · rw [convertUp, if_neg (not_not.mpr hal₁), bind_of_ok hl]
    simp only [Bool.not_true, Bool.false_eq_true, if_false]
    rw [identityRelease, if_neg (not_not.mpr hal₂), if_neg (not_not.mpr hal₃), hc, bind_of_ok hre, bind_of_ok maps]
    rfl
  · rw [hrch.refines.2, he.refines.2]
    funext a
    by_cases hr : SameLeaf large.level a addr
    · rw [AddrMap.set_same hr, AddrMap.set_same hr]
    · rw [AddrMap.set_other hr, AddrMap.set_other hr, paint_outside hr]

theorem convertDown_spec (hfn : Finer small large) (hal : addr % 2 ^ large.bits = 0)
    (hbo : addr + 2 ^ large.bits ≤ 2 ^ 48) (href : Refines mm m A) {e : Entry}
    (page : A addr = some ⟨large.level, e⟩) :
    ∃ m', convertDown mm large small addr attr cache m = .ok () m' ∧
      Refines mm m' (A.paint small large addr (pagesIn small large) (pageLeaf small addr attr cache)) := by
  obtain ⟨hal₁, hal₂, hal₃, hc⟩ := region_loop hfn hal hbo
  obtain ⟨m₁, hl, href₁⟩ := is_returns href page
  obtain ⟨m₂, hu, href₂, zero⟩ := unmap_leaf href₁ page
  have free (j : Nat) (less : j < pagesIn small large) : m₂.slot mm (pathTo small.level (addr + j * 2 ^ small.bits))
        (small.level.index (addr + j * 2 ^ small.bits)) = 0 := by
    have hr := ((sameLeaf_page hfn hal less).mp (.refl small.level (addr + j * 2 ^ small.bits))).1
    obtain ⟨path, hi⟩ := (sameLeaf_iff _ _ _).mp hr
    refine slot_deeper (l := large.level) (by cases hfn <;> decide) ?_ _
    rw [path, hi, zero]
    exact not_isTable_zero _
  obtain ⟨m₃, maps, href₃⟩ := fill_region attr cache hfn hal href₂ (fun a hr => AddrMap.set_same hr A none) free
  refine ⟨m₃, ?_, href₃.1, ?_⟩
  · rw [convertDown, if_neg (not_not.mpr hal₁), bind_of_ok hl]
    simp only [Bool.not_true, Bool.false_eq_true, if_false]
    rw [bind_of_ok hu, identityMapPages, if_neg (not_not.mpr hal₂), if_neg (not_not.mpr hal₃), hc]
    exact maps
  · rw [href₃.2]
    funext a
    by_cases hr : SameLeaf large.level a addr
    · rw [paint_inside hfn hr, paint_inside hfn hr]
    · rw [paint_outside hr, paint_outside hr, AddrMap.set_other hr]

end Conversions

end Gevisor.Ept
