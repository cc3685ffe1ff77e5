import Gevisor.Ept.Convert

/-! # The identity map

`identity_map` walks through the MTRR ranges and decides at each 2M boundary whether one large page
will do. `AddrMap.identity` says which leaf an address gets in the end; it refers to an address by the
48 bits that a walk uses.
-/

namespace Gevisor.Ept

open Gevisor.Lib

/-- The leaf that covers `a` when the identity map is built. The range is the first that contains the
address, which for the first address of a range is still the range before it. -/
def identityLeaf (ranges : List Range) (attr : AttrType) (a : Nat) : Option Leaf :=
  (ranges.find? (·.contains (upper a 21))).bind fun frame =>
    if pageSize2m ≤ frame.distance (upper a 21) then
      asLeaf .pd (leafEntry (upper a 21) attr frame.type true)
    else
      (ranges.find? (·.contains (upper a 12))).bind fun page =>
        asLeaf .pt (leafEntry (upper a 12) attr page.type false)

def AddrMap.identity (ranges : List Range) (attr : AttrType) (eaddr : Nat) : AddrMap := fun a =>
  if a % 2 ^ 48 < eaddr then identityLeaf ranges attr (a % 2 ^ 48) else none

/-- The same for a map that starts at `first`. -/
def AddrMap.identityFrom (ranges : List Range) (attr : AttrType) (first eaddr : Nat) : AddrMap := fun a =>
  if first ≤ a % 2 ^ 48 ∧ a % 2 ^ 48 < eaddr then identityLeaf ranges attr (a % 2 ^ 48) else none

theorem AddrMap.identityFrom_zero (ranges : List Range) (attr : AttrType) (eaddr : Nat) :
    AddrMap.identityFrom ranges attr 0 eaddr = AddrMap.identity ranges attr eaddr := by
  funext a
  simp only [AddrMap.identityFrom, Nat.zero_le, true_and, AddrMap.identity]

section Ranges

variable {start s : Nat} {ranges : List Range}

/-- Moving the iterator on finds a range, and skips only ranges that end before `s`. -/
theorem dropWhile_contains (hct : Contiguous start ranges) (hst : start ≤ s) (hi : s < 2 ^ 64 - 1) :
    ∃ r rest, (ranges.dropWhile fun r => !r.contains s) = r :: rest ∧ r.contains s = true ∧
      Contiguous r.base (r :: rest) ∧ r.base ≤ s ∧
      ∀ a, s ≤ a → (r :: rest).find? (·.contains a) = ranges.find? (·.contains a) := by
  induction ranges generalizing start with
  | nil =>
    have : start = 2 ^ 64 - 1 := hct
    omega
  | cons r rest ih =>
    obtain ⟨base, hpos, next⟩ := hct
    by_cases here : r.contains s = true
    · refine ⟨r, rest, ?_, here, ⟨rfl, hpos, base ▸ next⟩, by omega, fun _ _ => rfl⟩
      rw [List.dropWhile_cons_of_neg (by simp [here])]
    · have he : r.base + r.size < s := by
        simp only [Range.contains, Bool.and_eq_true, decide_eq_true_eq, not_and] at here
        have := here (by omega)
        omega
      obtain ⟨r', rest', drop, hf, hct', hbe, same⟩ := ih next (by omega)
      refine ⟨r', rest', ?_, hf, hct', hbe, fun a hla => ?_⟩
      · rw [List.dropWhile_cons_of_pos (by simp [here]), drop]
      · have hs : r.contains a = false := by
          simp only [Range.contains, Bool.and_eq_false_iff, decide_eq_false_iff_not]
          omega
        rw [same a hla, List.find?_cons]
        simp only [hs]

theorem exists_range (hct : Contiguous 0 ranges) (hi : s < 2 ^ 64 - 1) :
    ∃ r, ranges.find? (·.contains s) = some r := by
  obtain ⟨r, rest, -, here, -, -, same⟩ := dropWhile_contains hct (Nat.zero_le s) hi
  exact ⟨r, (same s (Nat.le_refl s)).symm.trans (List.find?_cons_of_pos here)⟩

end Ranges

/-! ## Where ranges meet -/

/-- The address lies in the range; the end does not belong to it. -/
def Inside (r : Range) (a : Nat) : Prop := r.base ≤ a ∧ a < r.base + r.size

section Boundaries

variable {start a p : Nat} {ranges : List Range} {r next : Range}

theorem Contiguous.start_le (contiguous : Contiguous start ranges) (member : r ∈ ranges) : start ≤ r.base := by
  induction ranges generalizing start with
  | nil => cases member
  | cons first rest ih =>
    obtain ⟨base, -, contiguous'⟩ := contiguous
    rcases List.mem_cons.mp member with rfl | member
    · omega
    · have := ih contiguous' member
      omega

theorem Contiguous.inside_unique (hct : Contiguous start ranges) (hm : r ∈ ranges) (hi : Inside r a)
    (hm' : next ∈ ranges) (hi' : Inside next a) : r = next := by
  induction ranges generalizing start with
  | nil => cases hm
  | cons first rest ih =>
    obtain ⟨base, -, hct'⟩ := hct
    have hb {s : Range} (hla : s ∈ rest) : first.base + first.size ≤ s.base := by
      have := hct'.start_le hla
      omega
    rcases List.mem_cons.mp hm with same | tail
    · rcases List.mem_cons.mp hm' with same' | tail'
      · rw [same, same']
      · have := hb tail'
        rw [same] at hi
        have := hi.2
        have := hi'.1
        omega
    · rcases List.mem_cons.mp hm' with same' | tail'
      · have := hb tail
        rw [same'] at hi'
        have := hi.1
        have := hi'.2
        omega
      · exact ih hct' tail tail'

/-- A range ends where the next one starts, or at the last address. -/
theorem Contiguous.end_cases (contiguous : Contiguous start ranges) (member : r ∈ ranges) :
    (∃ s ∈ ranges, s.base = r.base + r.size) ∨ r.base + r.size = 2 ^ 64 - 1 := by
  induction ranges generalizing start with
  | nil => cases member
  | cons first rest ih =>
    obtain ⟨base, -, contiguous'⟩ := contiguous
    rcases List.mem_cons.mp member with rfl | member
    · cases rest with
      | nil =>
        right
        have ends : start + r.size = 2 ^ 64 - 1 := contiguous'
        omega
      | cons second rest =>
        refine .inl ⟨second, by simp, ?_⟩
        have := contiguous'.1
        omega
    · rcases ih contiguous' member with ⟨s, later, meets⟩ | ends
      · exact .inl ⟨s, List.mem_cons_of_mem first later, meets⟩
      · exact .inr ends

variable {earlier later : List Range}

theorem Contiguous.meets (hct : Contiguous start (earlier ++ r :: next :: later)) :
    next.base = r.base + r.size ∧ 0 < r.size ∧ 0 < next.size := by
  induction earlier generalizing start with
  | nil =>
    obtain ⟨base, hpos, base', hpos', -⟩ := hct
    exact ⟨by omega, hpos, hpos'⟩
  | cons first earlier ih => exact ih hct.2.2

/-- The first range that `contains` the address has it inside, or ends there and is followed by the one
that has. -/
theorem Contiguous.contains_cases (hct : Contiguous start ranges) (hs : start ≤ a)
    (hbo : a < 2 ^ 64 - 1) (hf : ranges.find? (·.contains a) = some r) :
    r ∈ ranges ∧ Inside r a ∨ ∃ earlier next hla, ranges = earlier ++ r :: next :: hla ∧ next.base = a := by
  induction ranges generalizing start with
  | nil => cases hf
  | cons first rest ih =>
    obtain ⟨base, hpos, hct'⟩ := hct
    rw [List.find?_cons] at hf
    split at hf
    · next hc =>
      obtain rfl := Option.some.inj hf
      simp only [Range.contains, Bool.and_eq_true, decide_eq_true_eq] at hc
      rcases Nat.lt_or_eq_of_le hc.2 with hb | ends
      · exact .inl ⟨List.mem_cons_self, hc.1, hb⟩
      · cases rest with
        | nil =>
          have last : start + first.size = 2 ^ 64 - 1 := hct'
          omega
        | cons second rest =>
          refine .inr ⟨[], second, rest, rfl, ?_⟩
          have := hct'.1
          omega
    · next hmi =>
      have hbe : first.base + first.size < a := by
        simp only [Range.contains, Bool.and_eq_false_iff, decide_eq_false_iff_not] at hmi
        omega
      rcases ih hct' (by omega) hf with ⟨hme, hi⟩ | ⟨earlier, next, hla, split, hm⟩
      · exact .inl ⟨List.mem_cons_of_mem first hme, hi⟩
      · exact .inr ⟨first :: earlier, next, hla, by rw [split, List.cons_append], hm⟩

/-- At a boundary the iterator is still on the range before it, and for addresses before the boundary on
no later one. -/
theorem Contiguous.contains_before
    (hct : Contiguous start (earlier ++ r :: next :: later)) (hs : start ≤ a) (hbe : a ≤ next.base)
    {s : Range} (hf : (earlier ++ r :: next :: later).find? (·.contains a) = some s) :
    s.base + s.size ≤ next.base ∧ (a = next.base → s = r) := by
  induction earlier generalizing start with
  | nil =>
    obtain ⟨base, hpos, base', -⟩ := hct
    have hc : r.contains a = true := by
      simp only [Range.contains, Bool.and_eq_true, decide_eq_true_eq]
      omega
    rw [List.nil_append, List.find?_cons] at hf
    simp only [hc, Option.some.injEq] at hf
    subst hf
    exact ⟨by omega, fun _ => rfl⟩
  | cons first earlier ih =>
    have hme : next.base = r.base + r.size ∧ 0 < r.size ∧ 0 < next.size := hct.meets
    obtain ⟨base, hpos, hct'⟩ := hct
    rw [List.cons_append, List.find?_cons] at hf
    have hb : first.base + first.size ≤ r.base := by
      have := hct'.start_le (r := r) (by simp)
      omega
    split at hf
    · next hc =>
      obtain rfl := Option.some.inj hf
      simp only [Range.contains, Bool.and_eq_true, decide_eq_true_eq] at hc
      exact ⟨by omega, fun same => by omega⟩
    · next hm =>
      have after : first.base + first.size < a := by
        simp only [Range.contains, Bool.and_eq_false_iff, decide_eq_false_iff_not] at hm
        omega
      exact ih hct' (by omega) hf

end Boundaries

section Steps

variable {ranges : List Range} {attr : AttrType} {first saddr : Nat} {r : Range}

theorem identityLeaf_2m (hbo : saddr < 2 ^ 48) (hal : saddr % 2 ^ 21 = 0)
    (hf : ranges.find? (·.contains saddr) = some r) (hl : pageSize2m ≤ r.distance saddr) {a : Nat}
    (same : SameLeaf .pd a saddr) :
    identityLeaf ranges attr (a % 2 ^ 48) = asLeaf .pd (leafEntry saddr attr r.type true) := by
  have hfr : upper (a % 2 ^ 48) 21 = saddr := by
    simp only [SameLeaf, Level.fromBit] at same
    simp only [upper]
    omega
  simp only [identityLeaf, hfr, hf, Option.bind_some, if_pos hl]

theorem identityLeaf_4k (hbo : saddr < 2 ^ 48) (hal : saddr % 2 ^ 12 = 0)
    (hf : ranges.find? (·.contains saddr) = some r) {frame : Range}
    (hi : ranges.find? (·.contains (upper saddr 21)) = some frame)
    (hs : ¬ pageSize2m ≤ frame.distance (upper saddr 21)) {a : Nat} (same : SameLeaf .pt a saddr) :
    identityLeaf ranges attr (a % 2 ^ 48) = asLeaf .pt (leafEntry saddr attr r.type false) := by
  have page : upper (a % 2 ^ 48) 12 = saddr := by
    simp only [SameLeaf, Level.fromBit] at same
    simp only [upper]
    omega
  have hbl : upper (a % 2 ^ 48) 21 = upper saddr 21 := by
    simp only [SameLeaf, Level.fromBit] at same
    simp only [upper]
    omega
  rw [identityLeaf, hbl, hi, Option.bind_some, if_neg hs, page, hf, Option.bind_some]

theorem identity_step {l : Level} {leaf : Option Leaf} {size : Nat} (hsz : size = 2 ^ l.fromBit)
    (after : first ≤ saddr) (hbo : saddr < 2 ^ 48) (hal : saddr % 2 ^ l.fromBit = 0)
    (hlf : ∀ a, SameLeaf l a saddr → identityLeaf ranges attr (a % 2 ^ 48) = leaf) :
    AddrMap.identityFrom ranges attr first (saddr + size) =
      (AddrMap.identityFrom ranges attr first saddr).set l saddr leaf := by
  funext a
  have pos : 0 < size := hsz ▸ Nat.two_pow_pos _
  have hiff : SameLeaf l a saddr ↔ saddr ≤ a % 2 ^ 48 ∧ a % 2 ^ 48 < saddr + size := by
    have hs : saddr / size * size = saddr := Nat.div_mul_cancel (Nat.dvd_of_mod_eq_zero (hsz ▸ hal))
    rw [SameLeaf, Nat.mod_eq_of_lt hbo, ← hsz, Nat.div_eq_iff pos, hs]
    omega
  by_cases same : SameLeaf l a saddr
  · have hin := hiff.mp same
    rw [AddrMap.set_same same, AddrMap.identityFrom, if_pos ⟨by omega, hin.2⟩, hlf a same]
  · have hout : a % 2 ^ 48 < saddr + size ↔ a % 2 ^ 48 < saddr := by
      rw [hiff] at same
      omega
    simp only [AddrMap.set_other same, AddrMap.identityFrom, hout]

end Steps

section Loop

variable {mm : PagePool} {m m' : Mmap} {ranges : List Range} {attr : AttrType} {first saddr : Nat}

/-- The state of the loop at `saddr`: everything below is mapped, and the page directory entries of the
frames from there on are still zero. -/
structure MappedTo (mm : PagePool) (ranges : List Range) (attr : AttrType) (first saddr : Nat) (m : Mmap) :
    Prop where
  refines : Refines mm m (AddrMap.identityFrom ranges attr first saddr)
  free : ∀ v, saddr ≤ upper (v % 2 ^ 48) 21 → m.slot mm (pathTo .pd v) (Level.pd.index v) = 0

namespace MappedTo

theorem absent (hmap : MappedTo mm ranges attr first saddr m) (hbo : saddr < 2 ^ 48) :
    leafAt mm m saddr = none := by
  rw [hmap.refines.2]
  exact if_neg fun hi => absurd hi.2 (by omega)

/-- A step at `saddr` leaves the later frames alone. -/
theorem step (hmap : MappedTo mm ranges attr first saddr m) (hbo : saddr < 2 ^ 48) {next : Nat}
    (hla : saddr < next) (hrch : Reaches mm saddr m m' (AddrMap.identityFrom ranges attr first next)) :
    MappedTo mm ranges attr first next m' where
  refines := hrch.refines
  free v after := by
    rw [hrch.frame, hmap.free v (by omega)]
    rintro ⟨l, path, hi⟩
    obtain rfl := pathTo_level path
    have same := (sameLeaf_iff .pd v saddr).mpr ⟨path, hi⟩
    simp only [SameLeaf, Level.fromBit] at same
    simp only [upper] at after
    omega

end MappedTo

/-- The loop of `identity_map`, from the ranges that contain no address below `saddr` only. -/
theorem identityMapFrom_spec {eaddr : Nat} (hct : Contiguous 0 ranges) (hbo : eaddr ≤ 2 ^ 48)
    (hal : eaddr % 2 ^ 21 = 0) (rem : List Range) {start : Nat} (left : Contiguous start rem)
    (hst : start ≤ saddr) (same : ∀ a, saddr ≤ a → rem.find? (·.contains a) = ranges.find? (·.contains a))
    (page : saddr % 2 ^ 12 = 0) (after : first ≤ saddr) (hi : saddr ≤ eaddr)
    (hs : saddr % 2 ^ 21 ≠ 0 → ∀ r, ranges.find? (·.contains (upper saddr 21)) = some r →
      ¬ pageSize2m ≤ r.distance (upper saddr 21))
    (hmap : MappedTo mm ranges attr first saddr m) :
    ∃ m', identityMapFrom mm attr eaddr rem saddr m = .ok () m' ∧
      Refines mm m' (AddrMap.identityFrom ranges attr first eaddr) := by
  induction distance : eaddr - saddr using Nat.strong_induction_on generalizing saddr rem start m with
  | _ n ih =>
    rw [identityMapFrom]
    by_cases done : saddr < eaddr
    · rw [if_pos done]
      obtain ⟨range, rest, drop, here, left', hbe, same'⟩ := dropWhile_contains left hst (by omega)
      have hf : ranges.find? (·.contains saddr) = some range := by
        rw [← same saddr (Nat.le_refl _), ← same' saddr (Nat.le_refl _)]
        exact List.find?_cons_of_pos here
      have hla : ∀ a, saddr ≤ a → (range :: rest).find? (·.contains a) = ranges.find? (·.contains a) :=
        fun a after => (same' a after).trans (same a after)
      simp only [drop]
      by_cases hl : lower saddr Level.pd.fromBit = 0 ∧ pageSize2m ≤ min (range.distance saddr) (eaddr - saddr)
      · -- One large page.
        have hb : saddr % 2 ^ 21 = 0 := hl.1
        have far : pageSize2m ≤ range.distance saddr := le_trans hl.2 (Nat.min_le_left _ _)
        have room : saddr + pageSize2m ≤ eaddr := by
          have := le_trans hl.2 (Nat.min_le_right _ _)
          simp only [pageSize2m] at this ⊢
          omega
        have zero := hmap.free saddr (by simp only [upper]; omega)
        obtain ⟨_, m₁, hret, hrch⟩ := map2m_spec saddr attr range.type
          hmap.refines.1 (leafAt_none (hmap.absent (by omega)) .pdpt) zero
        rw [hmap.refines.2, ← identity_step (show pageSize2m = 2 ^ Level.pd.fromBit from rfl) after (by omega) hb
          fun _ => identityLeaf_2m (by omega) hb hf far] at hrch
        have hmap₁ := hmap.step (by omega) (by simp only [pageSize2m]; omega) hrch
        rw [if_pos hl, bind_of_ok hret]
        refine ih (eaddr - (saddr + pageSize2m)) ?_ (range :: rest) left' ?_ ?_ ?_ (by omega) room ?_ hmap₁ rfl
        · simp only [pageSize2m] at room ⊢
          omega
        · omega
        · exact fun a after => hla a (by omega)
        · simp only [pageSize2m]
          omega
        · intro off
          simp only [pageSize2m] at off
          omega
      · -- One small page: the frame lacks room, or was found to lack it at its first page.
        obtain ⟨frame, hin⟩ := exists_range (s := upper saddr 21) hct (by
          simp only [upper]
          omega)
        have hn : ¬ pageSize2m ≤ frame.distance (upper saddr 21) := by
          by_cases hb : saddr % 2 ^ 21 = 0
          · have first : upper saddr 21 = saddr := by
              simp only [upper]
              omega
            rw [first] at hin ⊢
            obtain rfl : range = frame := Option.some.inj (hf.symm.trans hin)
            intro far
            refine hl ⟨hb, le_min far ?_⟩
            simp only [pageSize2m]
            omega
          · exact hs hb frame hin
        obtain ⟨_, m₁, hret, hrch⟩ := map4k_spec saddr attr range.type hmap.refines.1 (hmap.absent (by omega))
        rw [hmap.refines.2, ← identity_step (show pageSize4k = 2 ^ Level.pt.fromBit from rfl) after (by omega) page
          fun _ => identityLeaf_4k (by omega) page hf hin hn] at hrch
        have hmap₁ := hmap.step (by omega) (by simp only [pageSize4k]; omega) hrch
        rw [if_neg hl, bind_of_ok hret]
        refine ih (eaddr - (saddr + pageSize4k)) ?_ (range :: rest) left' ?_ ?_ ?_ (by omega) ?_ ?_ hmap₁ rfl
        · simp only [pageSize4k]
          omega
        · omega
        · exact fun a after => hla a (by omega)
        · simp only [pageSize4k]
          omega
        · simp only [pageSize4k]
          omega
        · intro off r' hf'
          have first : upper (saddr + pageSize4k) 21 = upper saddr 21 := by
            simp only [pageSize4k] at off
            simp only [upper, pageSize4k]
            omega
          rw [first] at hf' ⊢
          obtain rfl : frame = r' := Option.some.inj (hin.symm.trans hf')
          exact hn
    · rw [if_neg done]
      obtain rfl : saddr = eaddr := by omega
      exact ⟨m, rfl, hmap.refines⟩

/-- A map without a word in any table. -/
def Bare (mm : PagePool) (m : Mmap) : Prop := Coherent mm m.live m ∧ ∀ q i, m.slot mm q i = 0

theorem Bare.leafAt_eq (bare : Bare mm m) : leafAt mm m = fun _ => none := by
  funext v
  exact leafAt_of_slot_pdpt_zero (bare.2 _ _)

theorem init_bare (word : Nat → Fin 512 → Entry) : Bare mm (Mmap.init mm word) := by
  have room : ([] : List Nat).length < maxTables := by decide
  have page := mm.alloc_isPage 0 [] List.nodup_nil (fun _ h => absurd h List.not_mem_nil) room
  have hbl (i : Fin 512) : (Mmap.init mm word).word (mm.allocPage 0 []) i = 0 := by
    show Function.update word _ (fun _ => 0) _ i = 0
    rw [Function.update_self]
  have hi : ∀ q i, (Mmap.init mm word).node mm (i :: q) = none ∧ (Mmap.init mm word).slot mm q i = 0 := by
    intro q
    induction q with
    | nil =>
      intro i
      have zero : (Mmap.init mm word).slot mm [] i = 0 := (slot_of_node rfl i).trans (hbl i)
      exact ⟨by rw [node_cons, zero, if_neg (not_isTable_zero _)], zero⟩
    | cons j q ih =>
      intro i
      have zero : (Mmap.init mm word).slot mm (j :: q) i = 0 := slot_of_missing (ih j).1 i
      exact ⟨by rw [node_cons, zero, if_neg (not_isTable_zero _)], zero⟩
  have only : ∀ q p, (Mmap.init mm word).node mm q = some p → q = [] ∧ p = mm.allocPage 0 [] := by
    intro q p at_q
    cases q with
    | nil => exact ⟨rfl, (Option.some.inj at_q).symm⟩
    | cons i q =>
      rw [(hi q i).1] at at_q
      cases at_q
  refine ⟨?_, fun q i => (hi q i).2⟩
  exact {
    root := rfl
    separated := fun q q' p at_q at_q' => (only q p at_q).1.trans (only q' p at_q').1.symm
    linked := fun q i ht => by
      rw [(hi q i).2] at ht
      exact absurd ht (not_isTable_zero _)
    nodes := fun p => by
      constructor
      · intro hm
        exact ⟨[], congrArg some (List.mem_singleton.mp hm).symm⟩
      · rintro ⟨q, at_q⟩
        exact List.mem_singleton.mpr (only q p at_q).2
    nodup := List.nodup_singleton _
    pages := fun p hm => (List.mem_singleton.mp hm) ▸ page
    cached := fun l hl => .inl (if_neg hl) }

/-- Nothing is mapped, and no page directory names a page table: a new map, or one whose pages have all
been released. -/
structure Vacant (mm : PagePool) (m : Mmap) : Prop where
  coherent : Coherent mm m.live m
  empty : leafAt mm m = fun _ => none
  free : ∀ v, m.slot mm (pathTo .pd v) (Level.pd.index v) = 0

theorem Bare.vacant (bare : Bare mm m) : Vacant mm m := ⟨bare.1, bare.leafAt_eq, fun _ => bare.2 _ _⟩

/-- On such a map `identity_map` returns and maps what it is asked to. -/
theorem identityMap_from (mtrrs : Mtrrs) (attr : AttrType) {saddr eaddr : Nat} (ho : saddr ≤ eaddr)
    (hbo : eaddr ≤ 2 ^ 48) (hs : saddr % 2 ^ 21 = 0) (hal : eaddr % 2 ^ 21 = 0) (hv : Vacant mm m) :
    ∃ m', identityMap mm mtrrs saddr eaddr attr m = .ok () m' ∧
      Refines mm m' (AddrMap.identityFrom mtrrs.ranges attr saddr eaddr) := by
  have start : MappedTo mm mtrrs.ranges attr saddr saddr m := by
    refine ⟨⟨hv.coherent, ?_⟩, fun v _ => hv.free v⟩
    rw [hv.empty]
    funext a
    exact (if_neg fun hi => absurd hi.2 (by omega)).symm
  have hne : ¬ mtrrs.ranges.length = 0 := by
    intro none
    have hct := mtrrs.contiguous
    rw [List.length_eq_zero_iff.mp none] at hct
    have ends : (0 : Nat) = 2 ^ 64 - 1 := hct
    omega
  obtain ⟨m', hret, href⟩ := identityMapFrom_spec mtrrs.contiguous hbo hal
    mtrrs.ranges mtrrs.contiguous (Nat.zero_le saddr) (fun _ _ => rfl) (by omega) (Nat.le_refl _) ho
    (fun off => absurd hs off) start
  refine ⟨m', ?_, href⟩
  have even₁ : ¬ lower saddr Level.pd.fromBit ≠ 0 := not_not.mpr hs
  have even₂ : ¬ lower eaddr Level.pd.fromBit ≠ 0 := not_not.mpr hal
  rw [identityMap, if_neg hne, if_neg even₁, if_neg even₂]
  exact hret

/-- On an empty map, `identity_map` from zero returns and leaves the identity map. -/
theorem identityMap_spec (mtrrs : Mtrrs) (attr : AttrType) {eaddr : Nat} (hbo : eaddr ≤ 2 ^ 48)
    (hal : eaddr % 2 ^ 21 = 0) (bare : Bare mm m) :
    ∃ m', identityMap mm mtrrs 0 eaddr attr m = .ok () m' ∧
      Refines mm m' (AddrMap.identity mtrrs.ranges attr eaddr) := by
  rw [← AddrMap.identityFrom_zero]
  exact identityMap_from mtrrs attr (Nat.zero_le eaddr) hbo rfl hal bare.vacant

end Loop

end Gevisor.Ept
