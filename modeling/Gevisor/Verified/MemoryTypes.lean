import Gevisor.Ept.Calls
import Gevisor.Ept.Identity

/-! # What `identity_map` builds

Every address of the range is mapped to itself. Its memory type is that of its MTRR range, except on the
first page of a range: `contains` counts the end of a range as part of it, so that this page still gets
the type of the range before.
-/

namespace Gevisor.Verified

open Gevisor.Lib Gevisor.Ept

variable {mm : PagePool} {m : Mmap}

section Leaf

variable {ranges : List Range} {attr : AttrType} {a : Nat}

/-- The word of the leaf, which is zero only for page zero without access bits. -/
theorem leafEntry_visible {phys : Nat} {type : MemoryType} {large : Bool} (hbo : phys < 2 ^ 48)
    (hal : phys % 2 ^ 12 = 0) (hv : attr ≠ .none ∨ 0 < phys) : leafEntry phys attr type large ≠ 0 := by
  rcases hv with hg | positive
  · exact leafEntry_ne_zero hg
  · intro zero
    have phys' := leafEntry_physAddr phys attr type large
    rw [zero, show (0 : Entry).physAddr = 0 by decide] at phys'
    omega

/-- Either the frame fits into its range, and is one large page, or the page gets a leaf of its own. -/
theorem identityLeaf_eq (attr : AttrType) (hct : Contiguous 0 ranges) (hbo : a < 2 ^ 48) :
    ∃ frame page, ranges.find? (·.contains (upper a 21)) = some frame ∧
      ranges.find? (·.contains (upper a 12)) = some page ∧
      identityLeaf ranges attr a = if pageSize2m ≤ frame.distance (upper a 21) then
          some ⟨.pd, leafEntry (upper a 21) attr frame.type true⟩
        else asLeaf .pt (leafEntry (upper a 12) attr page.type false) := by
  obtain ⟨frame, hi⟩ := exists_range hct (s := upper a 21) (by simp only [upper]; omega)
  obtain ⟨page, hin⟩ := exists_range hct (s := upper a 12) (by simp only [upper]; omega)
  refine ⟨frame, page, hi, hin, ?_⟩
  rw [identityLeaf, hi, Option.bind_some, hin, Option.bind_some]
  split
  · rw [asLeaf, if_neg (ne_zero_of_ps (leafEntry_ps _ _ _ _))]
  · rfl

end Leaf

/-- The report of an address after `identity_map`. -/
theorem report_identity {ranges : List Range} {attr : AttrType} {saddr eaddr : Nat}
    (href : Refines mm m (AddrMap.identityFrom ranges attr saddr eaddr)) {a : Nat} (hbo : a < 2 ^ 48) :
    report mm m a = if saddr ≤ a ∧ a < eaddr then .ofLeaf (identityLeaf ranges attr a) else .unmapped := by
  rw [report_eq href.1, href.2, AddrMap.identityFrom, Nat.mod_eq_of_lt hbo]
  split <;> rfl

/-- Two ranges that meet at an address from `saddr` to `eaddr` have one memory type. -/
def TypesAgree (ranges : List Range) (saddr eaddr : Nat) : Prop :=
  ∀ earlier r next later, ranges = earlier ++ r :: next :: later → saddr ≤ next.base → next.base < eaddr →
    r.type = next.type

theorem MemoryType.val_injective {s t : MemoryType} (same : s.val = t.val) : s = t := by
  cases s <;> cases t <;> first | rfl | cases same

section Types

variable {ranges : List Range} {attr : AttrType} {a : Nat}

/-- Where the types agree at boundaries, a leaf has the type of the range around its address. -/
theorem type_of_leaf (hct : Contiguous 0 ranges) (hp : ∀ r ∈ ranges, r.base % 2 ^ 12 = 0) {saddr eaddr : Nat}
    (hag : TypesAgree ranges saddr eaddr) (hs : saddr % 2 ^ 21 = 0) (ha : saddr ≤ a) (hbe : a < eaddr)
    (hbo : a < 2 ^ 48) {leaf : Leaf} (hf : identityLeaf ranges attr a = some leaf) {r : Range} (hm : r ∈ ranges)
    (hi : Inside r a) : leaf.entry.memoryType = r.type.val := by
  obtain ⟨frame, page, hin, hip, hbt⟩ := identityLeaf_eq attr hct hbo
  have hpa : upper a 12 ≤ a ∧ a < upper a 12 + 2 ^ 12 ∧ upper a 12 % 2 ^ 12 = 0 ∧ saddr ≤ upper a 12 := by
    simp only [upper]
    omega
  rw [hbt] at hf
  split at hf
  · next hl =>
    -- The frame fits into the range it starts in, hence the address lies there as well.
    obtain rfl := Option.some.inj hf
    rw [leafEntry_memoryType]
    have hfr : upper a 21 ≤ a ∧ a < upper a 21 + 2 ^ 21 := by
      simp only [upper]
      omega
    have hc := List.find?_some hin
    simp only [Range.contains, Bool.and_eq_true, decide_eq_true_eq] at hc
    simp only [Range.distance, pageSize2m] at hl
    have here : Inside frame a := ⟨by omega, by omega⟩
    rw [hct.inside_unique hm hi (List.mem_of_find?_eq_some hin) here]
  · rw [asLeaf] at hf
    split at hf
    · cases hf
    · obtain rfl := Option.some.inj hf
      rw [leafEntry_memoryType]
      rcases hct.contains_cases (Nat.zero_le _) (by omega) hip with
        ⟨hm', hi'⟩ | ⟨earlier, next, hla, split, hme⟩
      · -- The page lies in one range, whose end is the end of a page.
        have here : Inside page a := by
          refine ⟨Nat.le_trans hi'.1 hpa.1, ?_⟩
          have := hi'.2
          rcases hct.end_cases hm' with ⟨s, hm'', ends⟩ | ends
          · have := hp s hm''
            omega
          · omega
        rw [hct.inside_unique hm hi hm' here]
      · -- The first page of a range: the type is that of the range before.
        have here : Inside next a := by
          have hm'' : next ∈ ranges := by rw [split]; simp
          have hpos := (split ▸ hct : Contiguous 0 _).meets.2.2
          refine ⟨by omega, ?_⟩
          rcases hct.end_cases hm'' with ⟨s, hm', ends⟩ | ends
          · have := hp s hm'
            omega
          · omega
        rw [hag earlier page next hla split (by omega) (by omega), hct.inside_unique hm hi (by rw [split]; simp) here]

/-- At a boundary the page has a leaf of its own, with the type of the range before it. -/
theorem leaf_at_boundary (attr : AttrType) {earlier later : List Range} {r next : Range}
    (hct : Contiguous 0 (earlier ++ r :: next :: later)) (page : next.base % 2 ^ 12 = 0)
    (hbo : next.base < 2 ^ 48) :
    identityLeaf (earlier ++ r :: next :: later) attr next.base =
      some ⟨.pt, leafEntry next.base attr r.type false⟩ := by
  obtain ⟨hm, hpos, -⟩ := hct.meets
  obtain ⟨frame, small, hi, hin, hbt⟩ := identityLeaf_eq attr hct hbo
  have first : upper next.base 12 = next.base := by
    simp only [upper]
    omega
  have hf : upper next.base 21 ≤ next.base ∧ next.base < upper next.base 21 + 2 ^ 21 := by
    simp only [upper]
    omega
  have ends := (hct.contains_before (Nat.zero_le _) hf.1 hi).1
  have hc := List.find?_some hi
  simp only [Range.contains, Bool.and_eq_true, decide_eq_true_eq] at hc
  rw [first] at hin
  obtain rfl := (hct.contains_before (Nat.zero_le _) (Nat.le_refl _) hin).2 rfl
  have hn : ¬ pageSize2m ≤ frame.distance (upper next.base 21) := by
    simp only [Range.distance, pageSize2m]
    omega
  rw [hbt, if_neg hn, first, asLeaf, if_neg (leafEntry_visible hbo page (.inr (by omega)))]

end Types

/-- After `identity_map` the mapped addresses have the types of their MTRR ranges exactly if ranges that
meet inside the map have one type. -/
theorem identity_map_types_iff (mtrrs : Mtrrs) (pages : ∀ r ∈ mtrrs.ranges, r.base % 2 ^ 12 = 0) (attr : AttrType)
    {saddr eaddr : Nat} (order : saddr < eaddr) (bound : eaddr ≤ 2 ^ 48) (starts : saddr % 2 ^ 21 = 0)
    (ends : eaddr % 2 ^ 21 = 0) (vacant : Vacant mm m) :
    ∃ m', identityMap mm mtrrs saddr eaddr attr m = .ok () m' ∧
      ((∀ a e r, a < 2 ^ 48 → (report mm m' a).entry = some e → r ∈ mtrrs.ranges → Inside r a →
        e.memoryType = r.type.val) ↔ TypesAgree mtrrs.ranges saddr eaddr) := by
  obtain ⟨m', returns, refines⟩ := identityMap_from mtrrs attr (Nat.le_of_lt order) bound starts ends vacant
  refine ⟨m', returns, fun honoured => ?_, fun agree a e r inside found member around => ?_⟩
  · intro earlier r next later split after before
    have contiguous := mtrrs.contiguous
    have member : next ∈ mtrrs.ranges := by rw [split]; simp
    have page := pages next member
    rw [split] at contiguous
    have positive := contiguous.meets.2.2
    have leaf := leaf_at_boundary attr contiguous page (by omega)
    have type := honoured next.base (leafEntry next.base attr r.type false) next (by omega) ?_ member
      ⟨Nat.le_refl _, by omega⟩
    · rw [leafEntry_memoryType] at type
      exact MemoryType.val_injective type
    · rw [report_identity refines (by omega), if_pos ⟨after, before⟩, split, leaf]
      rfl
  · rw [report_identity refines inside] at found
    split at found
    · next within =>
      cases built : identityLeaf mtrrs.ranges attr a with
      | none =>
        rw [built] at found
        cases found
      | some leaf =>
        rw [built] at found
        obtain rfl := Option.some.inj found
        exact type_of_leaf mtrrs.contiguous pages agree starts within.1 within.2 inside built member around
    · cases found

/-- With one range there is no boundary. -/
theorem identity_map_types_single :
    ∃ m', identityMap default default 0 (2 ^ 30) .readWrite (Mmap.init default fun _ _ => 0) = .ok () m' ∧
      ((∀ a e r, a < 2 ^ 48 → (report default m' a).entry = some e → r ∈ (default : Mtrrs).ranges → Inside r a →
        e.memoryType = r.type.val) ↔ TypesAgree (default : Mtrrs).ranges 0 (2 ^ 30)) :=
  identity_map_types_iff default (fun r member => by rw [List.mem_singleton.mp member]; rfl) .readWrite (by decide)
    (by decide) rfl rfl (init_bare _).vacant

/-- The first 2M are uncacheable, the rest is write-back. -/
def uncacheableFrame : Mtrrs where
  ranges := [⟨.uncacheable, 0, 0x200000⟩, ⟨.writeBack, 0x200000, 2 ^ 64 - 1 - 0x200000⟩]
  contiguous := ⟨rfl, by decide, rfl, by decide, by simp [Contiguous]⟩

/-- The page at 2M lies in the write-back range and is mapped uncacheable. -/
theorem identity_map_wrong_type :
    ∃ m' e, identityMap default uncacheableFrame 0 (2 ^ 22) .readWriteExecute (Mmap.init default fun _ _ => 0) =
        .ok () m' ∧ (report default m' 0x200000).entry = some e ∧ e.memoryType = MemoryType.uncacheable.val ∧
      Inside ⟨.writeBack, 0x200000, 2 ^ 64 - 1 - 0x200000⟩ 0x200000 := by
  have bare : Bare default (Mmap.init default fun _ _ => 0) := init_bare _
  obtain ⟨m', returns, refines⟩ := @identityMap_from default _ uncacheableFrame .readWriteExecute 0 (2 ^ 22)
    (by decide) (by decide) rfl rfl bare.vacant
  have leaf : identityLeaf uncacheableFrame.ranges .readWriteExecute 0x200000 =
      some ⟨.pt, leafEntry 0x200000 .readWriteExecute .uncacheable false⟩ := by decide
  refine ⟨m', leafEntry 0x200000 .readWriteExecute .uncacheable false, returns, ?_, by simp, by decide, by decide⟩
  rw [report_identity refines (by decide), if_pos (by decide), leaf]
  rfl

end Gevisor.Verified
