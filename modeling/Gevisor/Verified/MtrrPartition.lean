import Gevisor.Mtrr.Flatten

/-! # Flattening the MTRRs gives a partition

Both loops of the constructor end. Unless it runs out of room for ranges, or two registered ranges
cross, it leaves ranges that lie one after another from the first address to the last.
-/

namespace Gevisor.Verified.MtrrPartition

open Gevisor.Lib
open Gevisor.Ept
open Gevisor.Mtrr

/-- A range of whole pages within 52-bit physical addresses. -/
structure Physical (r : Range) : Prop where
  base : 4096 ∣ r.base
  size : 4096 ∣ r.size
  nonempty : 0 < r.size
  ends : r.base + r.size ≤ 2 ^ 52

theorem Physical.sound {r : Range} (hp : Physical r) : Sound r := by
  obtain ⟨base, size, hne, ends⟩ := hp
  exact {
    base_dvd := base
    base_le := by simp only [limit]; omega
    nonempty := hne
    ends := .inl ⟨Nat.dvd_add base size, by simp only [limit, fin]; omega⟩ }

/-- The ranges are pairwise disjoint, cover `[0, 2 ^ 64 - 1)` one after another, and none is smaller than
a page. -/
structure Partition (ranges : List Range) : Prop where
  disjoint : ranges.Pairwise fun a b => ∀ x, ¬ (Mem x a ∧ Mem x b)
  contiguous : Contiguous 0 ranges
  page : ∀ r ∈ ranges, 4096 ≤ r.size

theorem partition_of_flattens {first t : List Range} (hf : Flattens first t) (hap : t.Pairwise Left)
    (all : ∀ x, x < 2 ^ 64 - 1 → Covers first x) : Partition t where
  disjoint := by
    apply hap.imp
    intro a b left x both
    simp only [Left, Mem] at *
    omega
  contiguous := contiguous_of_covers hap hf.usable.sound (fun _ _ => Nat.zero_le _) (Nat.zero_le _)
    fun x _ hs => (hf.covers x).mpr (all x hs)
  page r hm := (hf.usable.sound r hm).page_le_size

/-- How the constructor ends. -/
theorem flatten_spec (sorter : Sorter) {registered : List Range} (hu : Usable registered)
    (type : MemoryType) (fuel : Nat) :
    wp (flatten sorter registered type fuel) (fun _ s => Partition s.inUse)
      (Thrown (fuel ≤ total registered + 2 ^ 64) fun e s =>
        Full e s ∨ e = notExclusive ∧ Crossing registered) State.empty := by
  have hs : ∀ t, Flattens registered t → t.Pairwise Left →
      Flattens (t ++ [defaultRange type]) (t ++ [defaultRange type]) := fun t hf _ =>
    .refl (usable_with_default hf.usable type)
  refine wp_mono ?_ ?_ (wp_flatten (Flattens.stable registered fun _ _ => True)
    (fun t _ _ => Flattens.stable (t ++ [defaultRange type]) _)
    (fun a => List.pairwise_of_forall fun _ _ => trivial) (.refl hu) hs fuel)
  · rintro _ s ⟨t, _, _, u, hf, hap, rfl⟩
    exact partition_of_flattens hf hap fun x hsm => covers_with_default t type hsm
  · intro e s htn
    cases e with
    | none => exact htn
    | some e =>
      refine htn.imp id ?_
      rintro ⟨rfl, t, hf, hc⟩
      refine ⟨rfl, ?_⟩
      by_contra hap
      -- Registered ranges that do not cross stay nested in both loops.
      have hl : Laminar registered := by
        intro a hm b hme
        exact nested_of_not_crosses (fun hcr => hap ⟨a, hm, b, hme, hcr⟩) fun hcr => hap ⟨b, hme, a, hm, hcr⟩
      rcases hc with hc | ⟨hap, u, hf', hc⟩
      · exact (hf.laminar hl).not_crossing hc
      · have ha := laminar_with_default hap hf.usable.sound type
        exact (hf'.laminar ha).not_crossing hc

section Constructor

theorem and_mod_page {v m : Nat} (low : v % 4096 = 4095) (mask : m % 4096 = 4095) : (v &&& m) % 4096 = 4095 := by
  have both : (v &&& m) % 2 ^ 12 = (v % 2 ^ 12) &&& (m % 2 ^ 12) := Nat.and_mod_two_pow
  simp only [Nat.reducePow] at both
  rw [both, low, mask, Nat.and_self]

theorem physbaseToBase_dvd (physbase : BitVec 64) : 4096 ∣ (physbaseToBase physbase).toNat := by
  rw [physbaseToBase, BitVec.toNat_shiftLeft, Nat.shiftLeft_eq]
  omega

theorem addressMask_toNat {n : Nat} (hs : n ≤ 52) : (((1 : BitVec 64) <<< n) - 1).toNat = 2 ^ n - 1 := by
  have hbo : 2 ^ n ≤ 2 ^ 52 := Nat.pow_le_pow_right (by decide) hs
  have one : ((1 : BitVec 64) <<< n).toNat = 2 ^ n := by
    rw [BitVec.toNat_shiftLeft, Nat.shiftLeft_eq]
    change 1 * 2 ^ n % 2 ^ 64 = 2 ^ n
    omega
  rw [BitVec.toNat_sub, one]
  have hpos : 0 < 2 ^ n := Nat.two_pow_pos n
  change (2 ^ 64 - 1 + 2 ^ n) % 2 ^ 64 = 2 ^ n - 1
  omega

variable {addrSize : BitVec 8} {s0 : State}

/-- The mask is shifted by a page, so its complement ends in ones, and one more is a whole page. -/
theorem physmaskToSize_spec (hl : 12 ≤ addrSize.toNat) (hu : addrSize.toNat ≤ 52) (physmask : BitVec 64) :
    4096 ∣ (physmaskToSize addrSize physmask).toNat ∧ 0 < (physmaskToSize addrSize physmask).toNat ∧
      (physmaskToSize addrSize physmask).toNat ≤ 2 ^ 52 := by
  have mask := addressMask_toNat hu
  unfold physmaskToSize
  generalize addrSize.toNat = n at *
  have page : 4096 ∣ 2 ^ n := pow_dvd_pow 2 hl
  have hbo : 2 ^ n ≤ 2 ^ 52 := Nat.pow_le_pow_right (by decide) hu
  have hpos : 0 < 2 ^ n := Nat.two_pow_pos n
  have hc : (~~~(physmask <<< 12)).toNat % 4096 = 4095 := by
    rw [BitVec.toNat_not, BitVec.toNat_shiftLeft, Nat.shiftLeft_eq]
    omega
  have low := and_mod_page hc (show (2 ^ n - 1) % 4096 = 4095 by omega)
  have hs : (~~~(physmask <<< 12)).toNat &&& (2 ^ n - 1) ≤ 2 ^ n - 1 := Nat.and_le_right
  have hv : (((~~~(physmask <<< 12)) &&& (((1 : BitVec 64) <<< n) - 1)) + 1).toNat =
      ((~~~(physmask <<< 12)).toNat &&& (2 ^ n - 1)) + 1 := by
    rw [BitVec.toNat_add, BitVec.toNat_and, mask]
    change (_ + 1) % 2 ^ 64 = _
    omega
  rw [hv]
  omega

theorem sound_variableRange (hl : 12 ≤ addrSize.toNat) (hu : addrSize.toNat ≤ 52)
    (physbase physmask : BitVec 64) : Sound (variableRange addrSize physbase physmask) := by
  obtain ⟨size, hpos, hbo⟩ := physmaskToSize_spec hl hu ((physmask &&& 0x000FFFFFFFFFF000) >>> 12)
  have base := physbaseToBase_dvd ((physbase &&& 0x000FFFFFFFFFF000) >>> 12)
  have hs : (physbaseToBase ((physbase &&& 0x000FFFFFFFFFF000) >>> 12)).toNat ≤ 2 ^ 52 := by
    have hm : (physbase &&& 0x000FFFFFFFFFF000).toNat ≤ 2 ^ 52 - 4096 := by
      rw [BitVec.toNat_and]
      exact Nat.and_le_right
    rw [physbaseToBase, BitVec.toNat_shiftLeft, BitVec.toNat_ushiftRight, Nat.shiftLeft_eq, Nat.shiftRight_eq_div_pow]
    omega
  exact {
    base_dvd := base
    base_le := by simp only [variableRange, limit]; omega
    nonempty := hpos
    ends := .inl ⟨Nat.dvd_add base size, by simp only [variableRange, limit, fin]; omega⟩ }

theorem usable_registered {msrs : Registers} (lower : 12 ≤ msrs.addrSize.toNat) (upper : msrs.addrSize.toNat ≤ 52) :
    Usable (fixedRange :: variableRanges msrs) where
  nonempty := by simp
  sound r member := by
    rcases List.mem_cons.mp member with rfl | valid
    · exact ⟨⟨0, rfl⟩, by decide, by decide, .inl ⟨⟨256, rfl⟩, by decide⟩⟩
    · obtain ⟨i, _, hreg⟩ := List.mem_filterMap.mp valid
      split at hreg
      · rw [← Option.some.inj hreg]
        exact sound_variableRange lower upper _ _
      · cases hreg

/-- What is left when the exceptions are caught. -/
theorem guarded_spec {c : EStateM (Option Err) State Unit} {short : Prop} {X : Err → State → Prop}
    (ends : wp c (fun _ s => Partition s.inUse) (Thrown short X) s0) (he : ¬ short) :
    ∃ s, guarded (c s0) = some s ∧ (s = State.empty ∨ Partition s.inUse) := by
  simp only [wp] at ends
  cases hres : c s0 with
  | ok _ s =>
    rw [hres] at ends
    exact ⟨s, rfl, .inr ends⟩
  | error e s =>
    rw [hres] at ends
    cases e with
    | none => exact absurd ends he
    | some e => exact ⟨State.empty, rfl, .inl rfl⟩

theorem partition_default (type : MemoryType) : Partition [defaultRange type] where
  disjoint := List.pairwise_singleton _ _
  contiguous := ⟨rfl, (sound_defaultRange type).nonempty, by
    simp only [Contiguous, defaultRange]
    omega⟩
  page r hm := by
    rw [List.mem_singleton.mp hm]
    exact (sound_defaultRange type).page_le_size

/-- The only range there is with the MTRRs off. -/
theorem guarded_default (hem : Filled s0 []) (type : MemoryType) :
    ∃ s, guarded (fueled (addRange (defaultRange type)) s0) = some s ∧ (s = State.empty ∨ Partition s.inUse) := by
  have ha := addRange_spec hem (sound_defaultRange type).page_le_size
  have ends : wp (fueled (addRange (defaultRange type))) (fun _ s => Partition s.inUse) (Thrown False Full) s0 := by
    rw [wp_fueled]
    refine wp_mono ?_ (fun _ _ full => full) ha
    intro _ s hfi
    rw [hfi.inUse_eq]
    exact partition_default type
  exact guarded_spec ends id

/-- Whatever the registers hold, the constructor ends, and it leaves no range at all or a partition. -/
theorem construct_partitions (sorter : Sorter) (msrs : Registers) (hl : 12 ≤ msrs.addrSize.toNat)
    (hu : msrs.addrSize.toNat ≤ 52) :
    ∃ bound, ∀ fuel, bound ≤ fuel → ∃ s, construct sorter msrs fuel = some s ∧
      (s = State.empty ∨ Partition s.inUse) := by
  have hus := usable_registered hl hu
  unfold construct
  generalize fixedRange :: variableRanges msrs = registered at *
  refine ⟨total registered + 2 ^ 64 + 1, ?_⟩
  intro fuel he
  split
  · exact guarded_default filled_empty .writeBack
  · exact guarded_spec (flatten_spec sorter hus _ fuel) (by omega)

end Constructor

end Gevisor.Verified.MtrrPartition
