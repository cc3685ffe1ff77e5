import Gevisor.Ept.IdentityMap

/-! # Maps that remain the identity

On an identity map the operations used at run time have a simple reading. Changing access bits changes
them in one leaf, and a conversion to 2M replaces the small leaves of one frame. Neither changes what an
address is mapped to.
-/

namespace Gevisor.Ept

open Gevisor.Lib

variable {l : Level} {a v : Nat}

theorem SameLeaf.symm (same : SameLeaf l a v) : SameLeaf l v a := Eq.symm same

theorem SameLeaf.trans {b c : Nat} (first : SameLeaf l a b) (hs : SameLeaf l b c) :
    SameLeaf l a c := Eq.trans first hs

/-- Addresses of one page lie in one 2M frame. -/
theorem SameLeaf.frame (same : SameLeaf .pt a v) : SameLeaf .pd a v := same.upper (by decide)

theorem sameLeaf_upper (v : Nat) : SameLeaf .pd (upper v Level.pd.fromBit) v := by
  simp only [SameLeaf, upper, Level.fromBit]
  omega

/-- The leaf maps `a` to itself. A 2M page has its page-size bit and a 4K page is executable, so that the
word of neither is zero. -/
structure IdentityLeaf (a : Nat) (leaf : Leaf) : Prop where
  shape : leaf.level = .pd ∧ leaf.entry.ps = true ∨
    leaf.level = .pt ∧ leaf.entry.isEnabled .execute = true
  base : leaf.entry.physAddr = upper (a % 2 ^ 48) leaf.level.fromBit

/-- The addresses below `eaddr`, and no others, are mapped, each to itself. -/
structure IsIdentity (eaddr : Nat) (A : AddrMap) : Prop where
  domain : ∀ a, (∃ leaf, A a = some leaf) ↔ a % 2 ^ 48 < eaddr
  leaf : ∀ {a leaf}, A a = some leaf → IdentityLeaf a leaf
  uniform : ∀ {a v leaf}, A v = some leaf → SameLeaf leaf.level a v → A a = some leaf

namespace IdentityLeaf

variable {a v : Nat} {leaf : Leaf}

theorem entry_ne_zero (hid : IdentityLeaf a leaf) : leaf.entry ≠ 0 := by
  rcases hid.shape with ⟨-, hl⟩ | ⟨-, he⟩
  · exact ne_zero_of_ps hl
  · exact ne_zero_of_isEnabled he

theorem level_cases (hid : IdentityLeaf a leaf) :
    leaf.level = .pd ∨ leaf.level = .pt := hid.shape.imp And.left And.left

/-- Where a frame is shared at the leaf's level, it is shared at 2M. -/
theorem frame (hid : IdentityLeaf a leaf) (same : SameLeaf leaf.level a v) : SameLeaf .pd a v := by
  rcases hid.level_cases with level | level
  · rwa [level] at same
  · rw [level] at same
    exact same.frame

end IdentityLeaf

/-! ## The map at the start -/

theorem upper_of_sameLeaf (same : SameLeaf l a v) : upper (a % 2 ^ 48) l.fromBit = upper (v % 2 ^ 48) l.fromBit :=
  congrArg (· * 2 ^ l.fromBit) same

theorem upper_upper {j k : Nat} (le : j ≤ k) (same : upper a j = upper v j) : upper a k = upper v k := by
  have hq : a / 2 ^ j = v / 2 ^ j := Nat.eq_of_mul_eq_mul_right (Nat.two_pow_pos j) same
  obtain ⟨d, rfl⟩ := Nat.exists_eq_add_of_le le
  rw [upper, upper, Nat.pow_add, ← Nat.div_div_eq_div_mul, ← Nat.div_div_eq_div_mul, hq]

section Start

variable {ranges : List Range} {eaddr : Nat}

/-- The leaf that building the map gives an address: a large one if the range leaves room. -/
theorem identityLeaf_cases (hct : Contiguous 0 ranges) {a : Nat} (hbo : a < 2 ^ 48) :
    ∃ level type, identityLeaf ranges .readWriteExecute a =
        some ⟨level, leafEntry (upper a level.fromBit) .readWriteExecute type (level = .pd)⟩ ∧
      (level = .pd ∨ level = .pt) := by
  have hnz (phys : Nat) (type : MemoryType) (large : Bool) : leafEntry phys .readWriteExecute type large ≠ 0 :=
    ne_zero_of_isEnabled (a := .read) (by simp [AttrType.accesses])
  obtain ⟨frame, hi⟩ := exists_range hct (s := upper a 21) (by simp only [upper]; omega)
  obtain ⟨page, hin⟩ := exists_range hct (s := upper a 12) (by simp only [upper]; omega)
  by_cases large : pageSize2m ≤ frame.distance (upper a 21)
  · refine ⟨.pd, frame.type, ?_, .inl rfl⟩
    rw [identityLeaf, hi, Option.bind_some, if_pos large, asLeaf, if_neg (hnz _ _ _)]
    rfl
  · refine ⟨.pt, page.type, ?_, .inr rfl⟩
    rw [identityLeaf, hi, Option.bind_some, if_neg large, hin, Option.bind_some, asLeaf, if_neg (hnz _ _ _)]
    rfl

theorem asLeaf_level {l : Level} {w : Entry} {leaf : Leaf} (hf : asLeaf l w = some leaf) : leaf.level = l := by
  rw [asLeaf] at hf
  split at hf
  · cases hf
  · exact congrArg Leaf.level (Option.some.inj hf).symm

/-- Addresses that share their leaf's frame get one leaf. -/
theorem identityLeaf_congr {a v : Nat} {leaf : Leaf} (hf : identityLeaf ranges .readWriteExecute v = some leaf)
    (shape : leaf.level = .pd ∨ leaf.level = .pt)
    (same : upper a leaf.level.fromBit = upper v leaf.level.fromBit) :
    identityLeaf ranges .readWriteExecute a = some leaf := by
  rcases shape with level | level
  · -- A large leaf depends on the frame alone.
    have frame : upper a 21 = upper v 21 := by rwa [level] at same
    rw [identityLeaf, frame]
    rw [identityLeaf] at hf
    obtain ⟨range, inFrame, chosen⟩ := Option.bind_eq_some_iff.mp hf
    rw [inFrame, Option.bind_some]
    split at chosen
    · next large => rw [if_pos large, chosen]
    · obtain ⟨page, -, small⟩ := Option.bind_eq_some_iff.mp chosen
      rw [asLeaf_level small] at level
      cases level
  · have page : upper a 12 = upper v 12 := by rwa [level] at same
    have frame : upper a 21 = upper v 21 := upper_upper (by decide) page
    rw [← hf, identityLeaf, identityLeaf, page, frame]

theorem identity_isIdentity (hct : Contiguous 0 ranges) (hal : eaddr % 2 ^ 21 = 0) :
    IsIdentity eaddr (AddrMap.identity ranges .readWriteExecute eaddr) where
  domain a := by
    constructor
    · rintro ⟨leaf, hf⟩
      by_contra ho
      rw [AddrMap.identity, if_neg ho] at hf
      cases hf
    · intro hi
      obtain ⟨level, type, hf, -⟩ := identityLeaf_cases hct (a := a % 2 ^ 48) (by omega)
      exact ⟨_, (if_pos hi).trans hf⟩
  leaf {a leaf} hf := by
    obtain ⟨hi, hf⟩ := Option.ite_none_right_eq_some.mp hf
    obtain ⟨level, type, hbt, hs⟩ := identityLeaf_cases hct (a := a % 2 ^ 48) (by omega)
    obtain rfl := Option.some.inj (hbt.symm.trans hf)
    constructor
    · rcases hs with rfl | rfl
      · exact .inl ⟨rfl, by simp⟩
      · exact .inr ⟨rfl, by simp [AttrType.accesses]⟩
    · rw [leafEntry_physAddr]
      rcases hs with rfl | rfl <;> simp only [upper, Level.fromBit] <;> omega
  uniform {a v leaf} hf same := by
    obtain ⟨hi, hf⟩ := Option.ite_none_right_eq_some.mp hf
    obtain ⟨level, type, hbt, hs⟩ := identityLeaf_cases hct (a := v % 2 ^ 48) (by omega)
    obtain rfl := Option.some.inj (hbt.symm.trans hf)
    have hi' : a % 2 ^ 48 < eaddr := by
      rcases hs with rfl | rfl <;> simp only [SameLeaf, Level.fromBit] at same <;> omega
    exact (if_pos hi').trans (identityLeaf_congr hf hs (upper_of_sameLeaf same))

end Start

/-! ## Changing access bits -/

def Leaf.change (changes : List Change) (leaf : Leaf) : Leaf :=
  { leaf with entry := applyChanges changes leaf.entry }

/-- `leaf` with `changes` is still executable if it is small. -/
def KeepsSmall (changes : List Change) (leaf : Leaf) : Prop :=
  leaf.level = .pt → (applyChanges changes leaf.entry).isEnabled .execute = true

namespace AddrMap

/-- The changes are made in the leaf that covers `v`. -/
def updated (A : AddrMap) (v : Nat) (changes : List Change) : AddrMap := fun a =>
  (A a).map fun leaf => if SameLeaf leaf.level a v then leaf.change changes else leaf

variable {A : AddrMap} {a v : Nat} {changes : List Change}

theorem updated_some {leaf' : Leaf} : A.updated v changes a = some leaf' ↔
      ∃ leaf, A a = some leaf ∧ (if SameLeaf leaf.level a v then leaf.change changes else leaf) = leaf' :=
  Option.map_eq_some_iff

theorem updated_level {l : Level} {e : Entry} (hf : A a = some ⟨l, e⟩) :
    A.updated v changes a = some ⟨l, if SameLeaf l a v then applyChanges changes e else e⟩ := by
  rw [updated, hf, Option.map_some]
  by_cases same : SameLeaf l a v
  · rw [if_pos same, if_pos same]
    rfl
  · rw [if_neg same, if_neg same]

end AddrMap

section Update

variable {eaddr : Nat} {A : AddrMap} {v : Nat} {changes : List Change} {leaf : Leaf}

theorem IdentityLeaf.change {a : Nat} (hid : IdentityLeaf a leaf) (hkp : KeepsSmall changes leaf) :
    IdentityLeaf a (leaf.change changes) where
  shape := by
    rcases hid.shape with ⟨hl, hla⟩ | ⟨hl, -⟩
    · exact .inl ⟨hl, (ps_applyChanges changes leaf.entry).trans hla⟩
    · exact .inr ⟨hl, hkp hl⟩
  base := (physAddr_applyChanges changes leaf.entry).trans hid.base

/-- The leaf is the same at both addresses, so each can say where it is shared. -/
theorem IsIdentity.share_iff (hid : IsIdentity eaddr A) {a : Nat} {leaf' : Leaf}
    (hf : A v = some leaf) (hf' : A a = some leaf') :
    SameLeaf leaf'.level a v ↔ SameLeaf leaf.level a v := by
  constructor
  · intro same
    obtain rfl := Option.some.inj ((hid.uniform hf' same.symm).symm.trans hf)
    exact same
  · intro same
    obtain rfl := Option.some.inj ((hid.uniform hf same).symm.trans hf')
    exact same

theorem IsIdentity.updateEntry (hid : IsIdentity eaddr A) (hf : A v = some leaf)
    (hkp : KeepsSmall changes leaf) : AddrMap.updateEntry v changes A = .ok () (A.updated v changes) := by
  have hnz : applyChanges changes leaf.entry ≠ 0 := ((hid.leaf hf).change hkp).entry_ne_zero
  have set : A.set leaf.level v (some (leaf.change changes)) = A.updated v changes := by
    funext a
    by_cases same : SameLeaf leaf.level a v
    · rw [AddrMap.set_same same, AddrMap.updated, hid.uniform hf same, Option.map_some, if_pos same]
    · rw [AddrMap.set_other same]
      cases here : A a with
      | none => rw [AddrMap.updated, here, Option.map_none]
      | some leaf' =>
        rw [AddrMap.updated, here, Option.map_some, if_neg fun same' => same ((hid.share_iff hf here).mp same')]
  rw [AddrMap.updateEntry, bind_of_ok (AddrMap.lookup_some hf _), ← set]
  show EStateM.Result.ok () (A.set leaf.level v (asLeaf leaf.level (applyChanges changes leaf.entry))) = _
  rw [asLeaf, if_neg hnz]
  rfl

theorem IsIdentity.updated (hid : IsIdentity eaddr A)
    (hkp : ∀ leaf, A v = some leaf → KeepsSmall changes leaf) : IsIdentity eaddr (A.updated v changes) where
  domain a := by
    rw [← hid.domain a]
    constructor
    · rintro ⟨_, hf⟩
      obtain ⟨leaf, hf, -⟩ := AddrMap.updated_some.mp hf
      exact ⟨leaf, hf⟩
    · rintro ⟨leaf, hf⟩
      exact ⟨_, AddrMap.updated_some.mpr ⟨leaf, hf, rfl⟩⟩
  leaf {a _} ha := by
    obtain ⟨leaf, hf, rfl⟩ := AddrMap.updated_some.mp ha
    by_cases same : SameLeaf leaf.level a v
    · rw [if_pos same]
      exact (hid.leaf hf).change (hkp leaf (hid.uniform hf same.symm))
    · rw [if_neg same]
      exact hid.leaf hf
  uniform {a u _} ha same := by
    obtain ⟨leaf, hf, rfl⟩ := AddrMap.updated_some.mp ha
    have hl : (if SameLeaf leaf.level u v then leaf.change changes else leaf).level = leaf.level := by
      split <;> rfl
    rw [hl] at same
    refine AddrMap.updated_some.mpr ⟨leaf, hid.uniform hf same, ?_⟩
    have hs : SameLeaf leaf.level a v ↔ SameLeaf leaf.level u v := ⟨fun h => same.symm.trans h, fun h => same.trans h⟩
    simp only [hs]

end Update

/-! ## Conversion to 2M -/

/-- The leaf that a conversion puts into the frame of `v`. -/
def convertedLeaf (v : Nat) : Leaf :=
  ⟨.pd, leafEntry (upper v Level.pd.fromBit) .readWriteExecute .writeBack true⟩

namespace AddrMap

/-- The small leaves in the 2M frame of `v`, if it has any, give way to a large one. -/
def merged (A : AddrMap) (v : Nat) : AddrMap := fun a =>
  (A a).map fun leaf => if leaf.level = .pt ∧ SameLeaf .pd a v then convertedLeaf v else leaf

variable {A : AddrMap} {a v : Nat}

theorem merged_some {leaf' : Leaf} : A.merged v a = some leaf' ↔
      ∃ leaf, A a = some leaf ∧ (if leaf.level = .pt ∧ SameLeaf .pd a v then convertedLeaf v else leaf) = leaf' :=
  Option.map_eq_some_iff

/-- Large leaves stay. -/
theorem merged_large {e : Entry} (hf : A a = some ⟨.pd, e⟩) : A.merged v a = some ⟨.pd, e⟩ := by
  rw [merged, hf, Option.map_some, if_neg fun h => nomatch h.1]

end AddrMap

section Convert

variable {eaddr : Nat} {A : AddrMap} {v : Nat} {leaf : Leaf}

/-- In a frame with a small leaf all leaves are small. -/
theorem IsIdentity.small (hid : IsIdentity eaddr A) {a : Nat} {leaf' : Leaf} (hf : A v = some leaf)
    (small : leaf.level = .pt) (hf' : A a = some leaf') (same : SameLeaf .pd a v) : leaf'.level = .pt := by
  rcases (hid.leaf hf').level_cases with level | level
  · have shared : A v = some leaf' := hid.uniform hf' (level ▸ same.symm)
    obtain rfl := Option.some.inj (shared.symm.trans hf)
    exact small
  · exact level

theorem IsIdentity.merged_of_large (hid : IsIdentity eaddr A) (hf : A v = some leaf)
    (hl : leaf.level = .pd) : A.merged v = A := by
  funext a
  cases here : A a with
  | none => rw [AddrMap.merged, here, Option.map_none]
  | some leaf' =>
    rw [AddrMap.merged, here, Option.map_some, if_neg]
    rintro ⟨hs, same⟩
    rw [hid.small here hs hf same.symm] at hl
    cases hl

theorem IsIdentity.convert4kTo2m (hid : IsIdentity eaddr A) (hal : eaddr % 2 ^ 21 = 0)
    (hbo : eaddr ≤ 2 ^ 48 - 2 ^ 21) (word : v < 2 ^ 64)
    (hf : A (upper v Level.pd.fromBit) = some leaf) (hs : leaf.level = .pt) :
    AddrMap.convert4kTo2m (upper v Level.pd.fromBit) A = .ok () (A.merged v) := by
  have hi := (hid.domain _).mp ⟨leaf, hf⟩
  have set : A.set .pd (upper v Level.pd.fromBit) (some (convertedLeaf v)) = A.merged v := by
    funext a
    by_cases same : SameLeaf .pd a v
    · have near : SameLeaf .pd a (upper v Level.pd.fromBit) := same.trans (sameLeaf_upper v).symm
      obtain ⟨leaf', here⟩ := (hid.domain a).mpr (by
        simp only [SameLeaf, upper, Level.fromBit] at near hi
        omega)
      rw [AddrMap.set_same near, AddrMap.merged, here, Option.map_some, if_pos ⟨hid.small hf hs here near, same⟩]
    · rw [AddrMap.set_other fun near => same (near.trans (sameLeaf_upper v)), AddrMap.merged]
      cases A a with
      | none => rw [Option.map_none]
      | some leaf' => rw [Option.map_some, if_neg fun h => same h.2]
  have even : ¬ lower (upper v Level.pd.fromBit) Level.pd.fromBit ≠ 0 := by
    simp only [lower, upper, Level.fromBit]
    omega
  have hb : upper v Level.pd.fromBit + pageSize2m < 2 ^ 64 := by
    simp only [upper, Level.fromBit, pageSize2m] at hi ⊢
    omega
  have hnz : leafEntry (upper v Level.pd.fromBit) .readWriteExecute .writeBack true ≠ 0 :=
    ne_zero_of_ps (leafEntry_ps _ _ _ _)
  rw [AddrMap.convert4kTo2m, if_neg even, bind_of_ok (AddrMap.lookup_some hf _), if_neg (not_not.mpr hs),
    if_pos hb, ← set, asLeaf, if_neg hnz]
  rfl

theorem convertedLeaf_identity {a : Nat} (same : SameLeaf .pd a v) : IdentityLeaf a (convertedLeaf v) where
  shape := .inl ⟨rfl, leafEntry_ps _ _ _ _⟩
  base := by
    rw [show upper (a % 2 ^ 48) (convertedLeaf v).level.fromBit = upper (v % 2 ^ 48) Level.pd.fromBit from
      upper_of_sameLeaf same]
    simp only [convertedLeaf, leafEntry_physAddr, upper, Level.fromBit]
    omega

theorem IsIdentity.merged (hid : IsIdentity eaddr A) (hal : eaddr % 2 ^ 21 = 0) :
    IsIdentity eaddr (A.merged v) where
  domain a := by
    rw [← hid.domain a]
    constructor
    · rintro ⟨_, hf⟩
      obtain ⟨leaf, hf, -⟩ := AddrMap.merged_some.mp hf
      exact ⟨leaf, hf⟩
    · rintro ⟨leaf, hf⟩
      exact ⟨_, AddrMap.merged_some.mpr ⟨leaf, hf, rfl⟩⟩
  leaf {a _} ha := by
    obtain ⟨leaf, hf, rfl⟩ := AddrMap.merged_some.mp ha
    split
    · next hm => exact convertedLeaf_identity hm.2
    · exact hid.leaf hf
  uniform {a u _} ha same := by
    obtain ⟨leaf, hf, rfl⟩ := AddrMap.merged_some.mp ha
    by_cases hm : leaf.level = .pt ∧ SameLeaf .pd u v
    · rw [if_pos hm] at same ⊢
      have near : SameLeaf .pd a u := same
      have hi := (hid.domain u).mp ⟨leaf, hf⟩
      obtain ⟨leaf', here⟩ := (hid.domain a).mpr (by
        simp only [SameLeaf, Level.fromBit] at near
        omega)
      exact AddrMap.merged_some.mpr ⟨leaf', here, if_pos ⟨hid.small hf hm.1 here near, near.trans hm.2⟩⟩
    · rw [if_neg hm] at same ⊢
      refine AddrMap.merged_some.mpr ⟨leaf, hid.uniform hf same, if_neg fun h => hm ⟨h.1, ?_⟩⟩
      exact ((hid.leaf hf).frame same.symm).trans h.2

/-- The leaf of the frame after the conversion. -/
theorem IsIdentity.merged_self (hid : IsIdentity eaddr A) (hf : A v = some leaf) :
    ∃ e, A.merged v v = some ⟨.pd, e⟩ := by
  rcases (hid.leaf hf).level_cases with level | level
  · exact ⟨leaf.entry, by rw [hid.merged_of_large hf level, hf, ← level]⟩
  · exact ⟨_, AddrMap.merged_some.mpr ⟨leaf, hf, if_pos ⟨level, .refl _ _⟩⟩⟩

end Convert

end Gevisor.Ept
