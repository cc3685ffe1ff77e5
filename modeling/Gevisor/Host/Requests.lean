import Gevisor.Host.GuestWalk

/-! # Ranges mapped page by page

The two calls that map more than a page, a range of guest memory and a list of physical ranges. Both take a
range from the pool and map its pages one after the other. The first page that cannot be mapped ends the call.
-/

namespace Gevisor.Host

open Lib Ept MemoryManager

inductive Request
  | guest (virt cr3 size : Nat)
  | ranges (list : List (Nat × Nat))
  deriving DecidableEq, Repr

namespace Request

def make (mm : PagePool) (mem : Memory) : Request → HostM UniqueMap
  | guest virt cr3 size => makeUniqueMapGuest mm mem virt cr3 size
  | ranges list => makeUniqueMapList mm list

/-- How many bytes the pool is asked for. -/
def size : Request → Nat
  | guest virt _ size => (size + lower virt 12) % 2 ^ 64
  | ranges list => totalSize list

/-- The constructor's checks on its arguments. -/
def Accepted : Request → Prop
  | guest virt cr3 _ => virt ≠ 0 ∧ upper cr3 12 ≠ 0
  | ranges list => list ≠ [] ∧ ∀ range ∈ list, range.1 ≠ 0 ∧ range.2 ≠ 0 ∧ lower range.2 12 = 0

instance decidableAccepted : (r : Request) → Decidable r.Accepted
  | guest _ _ _ => inferInstanceAs (Decidable (_ ∧ _))
  | ranges _ => inferInstanceAs (Decidable (_ ∧ _))

/-- How many pages are to be mapped. -/
def count : Request → Nat
  | guest virt _ size => pages ((size + lower virt 12) % 2 ^ 64)
  | ranges list => (list.map fun range => pages range.2).sum

/-- The guest's address for page `i`. -/
def current (virt i : Nat) : Nat := (virt + pageSize * i) % 2 ^ 64

/-- The physical page `i` of a list of ranges. -/
def pageOf : List (Nat × Nat) → Nat → Nat
  | [], _ => 0
  | range :: rest, i =>
    if i < pages range.2 then (upper range.1 12 + pageSize * i) % 2 ^ 64 else pageOf rest (i - pages range.2)

/-- The physical page `i`, if there is one. -/
def frame (mem : Memory) : Request → Nat → Option Nat
  | guest virt cr3 _, i =>
    (guestWalk mem (current virt i) (upper cr3 12)).frame.map fun found => upper (translated (current virt i) found) 12
  | ranges list, i => some (pageOf list i)

/-- The tables that are mapped on the way to page `i`. -/
def tables (mem : Memory) : Request → Nat → Nat
  | guest virt cr3 _, i => (guestWalk mem (current virt i) (upper cr3 12)).tables
  | ranges _, _ => 0

/-- The object for the range that begins at page `q` of the pool. -/
def object (q : Nat) : Request → UniqueMap
  | guest virt cr3 size =>
    ⟨lower virt 12 ||| upper (poolPage q) 12, size, (guest virt cr3 size).size⟩
  | ranges list => ⟨lower (list.head?.getD (0, 0)).1 12 ||| upper (poolPage q) 12, totalSize list, totalSize list⟩

end Request

/-- The address of page `i` of the range that begins at page `q` of the pool. -/
def place (q i : Nat) : Nat := (poolPage q + pageSize * i) % 2 ^ 64

/-- The leaf for page `i`. -/
def Request.leaf (mem : Memory) (r : Request) (i : Nat) : Leaf := hostLeaf ((r.frame mem i).getD 0) .writeBack

/-- The translations after the first `n` pages have been mapped. -/
def painted (mem : Memory) (r : Request) (A : AddrMap) (q : Nat) : Nat → AddrMap
  | 0 => A
  | n + 1 => (painted mem r A q n).set .pt (place q n) (some (r.leaf mem n))

/-- Page `i` can be mapped after the pages before it: the guest has one, the tables on the way to it can be
mapped, and there is no translation in its place yet. -/
structure Mappable (mem : Memory) (r : Request) (A : AddrMap) (t' : Buddy memMapPoolK) (q i : Nat) : Prop where
  present : r.frame mem i ≠ none
  ready : Ready A (r.tables mem i) t'
  absent : A (place q i) = none
  apart : ∀ j < i, ¬ SameLeaf .pt (place q i) (place q j)

section

variable {mm : PagePool} {mem : Memory} {r : Request} {A : AddrMap} {t t' : Buddy memMapPoolK} {s : Host} {q : Nat}

/-! ## Pages that have been mapped -/

variable {n a j i : Nat} {list : List (Nat × Nat)} {X : Err → Host → Prop}

theorem painted_other (ho : ∀ j < n, ¬ SameLeaf .pt a (place q j)) : painted mem r A q n a = A a := by
  induction n with
  | zero => rfl
  | succ n ih =>
    rw [painted, AddrMap.set_other (ho n (by omega))]
    exact ih fun j less => ho j (by omega)

theorem painted_ne_none (less : j < n) (same : SameLeaf .pt a (place q j)) : painted mem r A q n a ≠ none := by
  induction n with
  | zero => omega
  | succ n ih =>
    rw [painted]
    by_cases last : SameLeaf .pt a (place q n)
    · rw [AddrMap.set_same last]
      exact Option.some_ne_none _
    · rw [AddrMap.set_other last]
      obtain hea | rfl := Nat.lt_succ_iff_lt_or_eq.mp less
      · exact ih hea
      · exact absurd same last

theorem painted_eq_none_iff : painted mem r A q i a = none ↔ A a = none ∧ ∀ j < i, ¬ SameLeaf .pt a (place q j) := by
  constructor
  · intro hab
    have hap : ∀ j < i, ¬ SameLeaf .pt a (place q j) := fun j less same => painted_ne_none less same hab
    exact ⟨(painted_other hap).symm.trans hab, hap⟩
  · rintro ⟨hab, hap⟩
    exact (painted_other hap).trans hab

/-! ## The range -/

theorem granted_size {size : Nat} (hgr : granted t size = some (q, t')) :
    size ≠ 0 ∧ t.take (levelFor size) = some (q, t') := by
  rw [granted] at hgr
  split at hgr
  · cases hgr
  · next fits => exact ⟨fun zero => fits (.inl zero), hgr⟩

/-- All pages of the range that a guest's pages are mapped to have been handed out for it. -/
theorem granted_pages {size : Nat} (hgr : granted t size = some (q, t')) (less : i < pages size) :
    q + i < q + 2 ^ levelFor size ∧ q + i < 2 ^ memMapPoolK := by
  have hi := (Buddy.take_inside (granted_size hgr).2).1
  have hc := le_levelFor size
  have last : i < 2 ^ levelFor size := by
    simp only [pages, pageSize] at less hc
    omega
  omega

theorem poolPage_add (q i : Nat) : poolPage (q + i) = poolPage q + pageSize * i := by
  rw [poolPage, poolPage, Nat.mul_add, Nat.add_assoc]

theorem place_eq {size : Nat} (hgr : granted t size = some (q, t')) (less : i < pages size) :
    place q i = poolPage (q + i) := by
  have hbo := poolPage_lt (granted_pages hgr less).2
  rw [place, ← poolPage_add]
  exact Nat.mod_eq_of_lt (by omega)

/-- The pages of the range are in use, so they do not matter for the maps of the walks. -/
theorem ready_painted (hgr : granted t r.size = some (q, t')) (less : i ≤ r.count) :
    Ready (painted mem r A q i) (r.tables mem j) t' ↔ Ready A (r.tables mem j) t' := by
  cases r with
  | ranges list => rfl
  | guest virt cr3 size =>
    apply ready_congr
    intro p hs free
    apply painted_other
    intro k hea same
    have hi := granted_pages hgr (Nat.lt_of_lt_of_le hea less)
    rw [place_eq hgr (Nat.lt_of_lt_of_le hea less)] at same
    obtain rfl := sameLeaf_poolPage hs hi.2 same
    exact free ((used_take (granted_size hgr).2).mpr (.inl ⟨by omega, hi.1⟩))

/-! ## One page -/

/-- One round of the loop of a request. -/
def Request.mapOne (mm : PagePool) (mem : Memory) (q : Nat) : Request → Nat → HostM Unit
  | guest virt cr3 _, i => mapGuestPage mm mem (poolPage q) virt (upper cr3 12) (pageSize * i)
  | ranges list, i => do
    let _ ← onMmap (map4k mm (place q i) (pageOf list i) .readWrite .writeBack)

theorem realizes_findFrame {virt pml4Addr : Nat} (hnn : pml4Addr ≠ 0) (hal : lower pml4Addr 12 = 0) :
    Realizes mm (findFrame mm mem pml4Addr virt) (guestWalk mem virt pml4Addr) (fun frame hf => frame = some hf)
      (fun frame _ => frame = none) := by
  rw [findFrame_eq]
  exact realizes_throughTables hnn hal (fun _ _ => .throw rfl rfl) fun _ _ _ => .pure rfl

/-- Mapping a page where there is none yet, and the attempt where there is one. -/
theorem wp_mapPlace (hh : Holds mm (painted mem r A q i) t' s) {frame : Nat} (hk : r.frame mem i = some frame)
    (hab : painted mem r A q i (place q i) = none) :
    wp (do let _ ← onMmap (map4k mm (place q i) frame .readWrite .writeBack) : HostM Unit)
      (fun _ s' => Holds mm (painted mem r A q (i + 1)) t' s') (fun _ _ => False) s := by
  rw [wp_bind, painted, Request.leaf, hk]
  exact wp_map4k hh hab frame .writeBack

theorem wp_mapPlace_exists {B : AddrMap} (hh : Holds mm B t' s) (hmap : B (place q i) ≠ none) (frame : Nat) :
    wp (do let _ ← onMmap (map4k mm (place q i) frame .readWrite .writeBack) : HostM Unit) (fun _ _ => False)
      (fun e s' => Holds mm B t' s' ∧ e.isExn = true) s := by
  rw [wp_bind]
  exact wp_mono (fun _ _ none => none) (fun _ _ ends => ⟨ends.1, ends.2.1⟩) (wp_map4k_exists hh hmap frame .writeBack)

theorem mapOne_guest {virt cr3 size : Nat} (hg : granted t (Request.guest virt cr3 size).size = some (q, t'))
    (less : i < (Request.guest virt cr3 size).count) :
    (Request.guest virt cr3 size).mapOne mm mem q i = (do
      let found ← findFrame mm mem (upper cr3 12) (Request.current virt i)
      let _ ← onMmap (map4k mm (place q i) (upper (translated (Request.current virt i) found) 12) .readWrite .writeBack)) := by
  rw [Request.mapOne, mapGuestPage, place_eq hg less, poolPage_add]
  rfl

theorem wp_mapOne (hg : granted t r.size = some (q, t')) (hac : r.Accepted) (less : i < r.count)
    (hm : Mappable mem r A t' q i) (hh : Holds mm (painted mem r A q i) t' s) :
    wp (r.mapOne mm mem q i) (fun _ s' => Holds mm (painted mem r A q (i + 1)) t' s') (fun _ _ => False) s := by
  have ha : painted mem r A q i (place q i) = none := painted_eq_none_iff.mpr ⟨hm.absent, hm.apart⟩
  cases r with
  | ranges list => exact wp_mapPlace hh rfl ha
  | guest virt cr3 size =>
    have hr := (ready_painted hg (Nat.le_of_lt less)).mpr hm.ready
    have walk := (realizes_findFrame hac.2 (lower_upper cr3)).ready _ t' hr s hh
    rw [mapOne_guest hg less, wp_bind]
    refine wp_mono ?_ ?_ walk
    · rintro found s' ⟨hh', hf⟩
      refine wp_mapPlace hh' ?_ ha
      rw [Request.frame, hf]
      rfl
    · rintro e s' ⟨-, -, hmi⟩
      refine hm.present ?_
      rw [Request.frame, hmi]
      rfl

theorem wp_mapOne_fails (hg : granted t r.size = some (q, t')) (hac : r.Accepted) (less : i < r.count)
    (hu : ¬ Mappable mem r A t' q i) (hh : Holds mm (painted mem r A q i) t' s) :
    wp (r.mapOne mm mem q i) (fun _ _ => False) (fun e s' => Holds mm (painted mem r A q i) t' s' ∧ e.isExn = true) s := by
  have hm (hp : r.frame mem i ≠ none) (hr : Ready A (r.tables mem i) t') : painted mem r A q i (place q i) ≠ none := by
    intro ha
    obtain ⟨none, hap⟩ := painted_eq_none_iff.mp ha
    exact hu ⟨hp, hr, none, hap⟩
  cases r with
  | ranges list => exact wp_mapPlace_exists hh (hm (Option.some_ne_none _) trivial) _
  | guest virt cr3 size =>
    have hre := @realizes_findFrame mm mem (Request.current virt i) _ hac.2 (lower_upper cr3)
    rw [mapOne_guest hg less, wp_bind]
    by_cases hr : Ready A ((Request.guest virt cr3 size).tables mem i) t'
    · have walk := hre.ready _ t' ((ready_painted hg (Nat.le_of_lt less)).mpr hr) s hh
      refine wp_mono ?_ (fun _ _ ends => ⟨ends.1, ends.2.1⟩) walk
      rintro found s' ⟨hh', hf⟩
      refine wp_mapPlace_exists hh' (hm ?_ hr) _
      rw [Request.frame, hf]
      exact Option.some_ne_none _
    · have walk := hre.fails _ t' (mt (ready_painted hg (Nat.le_of_lt less)).mp hr) s hh
      exact wp_mono (fun _ _ ends => ends.2.elim) (fun _ _ ends => ⟨ends.1, ends.2.1⟩) walk

/-! ## The constructors -/

def Request.build (mm : PagePool) (mem : Memory) (vmap : Nat) : Request → HostM UniqueMap
  | guest virt cr3 size => mapGuest mm mem vmap virt cr3 size
  | ranges list => mapList mm vmap list

theorem Request.make_eq (r : Request) : r.make mm mem = (do
      let vmap ← allocMap r.size
      onThrow Err.isExn (r.build mm mem vmap) (freeMap vmap)) := by
  cases r <;> rfl

theorem wp_expectRanges {Q : Unit → Host → Prop} : wp (expectRanges list) Q X s ↔
      if ∀ range ∈ list, range.1 ≠ 0 ∧ range.2 ≠ 0 ∧ lower range.2 12 = 0 then Q () s else X failFast s := by
  induction list with
  | nil =>
    rw [if_pos fun _ none => absurd none List.not_mem_nil]
    rfl
  | cons range rest ih =>
    simp only [expectRanges, wp_bind, wp_expects, ih]
    by_cases hpp : range.1 ≠ 0 ∧ range.2 ≠ 0 ∧ lower range.2 12 = 0
    · rw [if_pos hpp.1, if_pos hpp.2.1, if_pos hpp.2.2]
      refine Iff.of_eq (if_congr ?_ rfl rfl)
      rw [List.forall_mem_cons]
      exact (and_iff_right hpp).symm
    · have some : ¬ ∀ range' ∈ range :: rest, range'.1 ≠ 0 ∧ range'.2 ≠ 0 ∧ lower range'.2 12 = 0 := fun all =>
        hpp (all range List.mem_cons_self)
      rw [if_neg some]
      by_cases first : range.1 ≠ 0
      · rw [if_pos first]
        by_cases hs : range.2 ≠ 0
        · rw [if_pos hs, if_neg fun ht => hpp ⟨first, hs, ht⟩]
        · rw [if_neg hs]
      · rw [if_neg first]

theorem pages_mul {size : Nat} (hal : lower size 12 = 0) : pageSize * pages size = size := by
  simp only [lower, pages, pageSize] at hal ⊢
  omega

/-- The two loops over a list are one loop over its pages. -/
theorem mapRanges_eq (hal : ∀ range ∈ list, lower range.2 12 = 0) (vmap start : Nat) :
    mapRanges mm vmap (pageSize * start) list = forFrom (fun i => do
      let _ ← onMmap (map4k mm ((vmap + pageSize * i) % 2 ^ 64) (Request.pageOf list (i - start)) .readWrite .writeBack))
      start (list.map fun range => pages range.2).sum := by
  induction list generalizing start with
  | nil => rfl
  | cons range rest ih =>
    obtain ⟨here, hot⟩ := List.forall_mem_cons.mp hal
    have next : pageSize * start + range.2 = pageSize * (start + pages range.2) := by
      rw [Nat.mul_add, pages_mul here]
    have first : forFrom (fun i => do
          let _ ← onMmap (map4k mm ((vmap + pageSize * start + pageSize * i) % 2 ^ 64)
            ((upper range.1 12 + pageSize * i) % 2 ^ 64) .readWrite .writeBack)) 0 (pages range.2) =
        forFrom (fun i => do
          let _ ← onMmap (map4k mm ((vmap + pageSize * i) % 2 ^ 64) (Request.pageOf (range :: rest) (i - start))
            .readWrite .writeBack)) start (pages range.2) := by
      rw [← Nat.add_zero start, ← forFrom_shift, Nat.add_zero]
      refine forFrom_congr fun j less => ?_
      rw [Nat.zero_add, Nat.add_sub_cancel_left, Request.pageOf, if_pos less, Nat.mul_add, Nat.add_assoc]
    have hs : forFrom (fun i => do
          let _ ← onMmap (map4k mm ((vmap + pageSize * i) % 2 ^ 64)
            (Request.pageOf rest (i - (start + pages range.2))) .readWrite .writeBack)) (start + pages range.2)
          (rest.map fun range => pages range.2).sum =
        forFrom (fun i => do
          let _ ← onMmap (map4k mm ((vmap + pageSize * i) % 2 ^ 64) (Request.pageOf (range :: rest) (i - start))
            .readWrite .writeBack)) (start + pages range.2) (rest.map fun range => pages range.2).sum := by
      refine forFrom_congr fun j _ => ?_
      rw [Nat.add_sub_cancel_left, Request.pageOf, Nat.add_assoc start, Nat.add_sub_cancel_left,
        if_neg (by omega), Nat.add_sub_cancel_left]
    rw [mapRanges, next, ih hot, List.map_cons, List.sum_cons, forFrom_add, first, hs]

/-- After the checks a constructor is a loop. -/
theorem wp_build_of_accepted (hacc : r.Accepted) (hs : r.size ≠ 0) {Q : UniqueMap → Host → Prop} :
    wp (r.build mm mem (poolPage q)) Q X s ↔
      wp (forFrom (r.mapOne mm mem q) 0 r.count) (fun _ s' => Q (r.object q) s') X s := by
  cases r with
  | guest virt cr3 size =>
    simp only [Request.build, mapGuest, mapWithCr3, wp_bind, wp_expects, if_pos (poolPage_ne_zero q),
      if_pos (lower_poolPage q), if_pos hacc.1, if_pos hacc.2]
    rw [if_pos (show (size + lower virt 12) % 2 ^ 64 ≠ 0 from hs)]
    rfl
  | ranges list =>
    have hal : ∀ range ∈ list, lower range.2 12 = 0 := fun range hm => (hacc.2 range hm).2.2
    simp only [Request.build, mapList, wp_bind, wp_expects, wp_expectRanges, if_pos (poolPage_ne_zero q),
      if_pos (lower_poolPage q), if_pos hacc.1]
    rw [if_pos hacc.2, show (0 : Nat) = pageSize * 0 from rfl, mapRanges_eq hal]
    rfl

theorem wp_build_refused (hrfd : ¬ r.Accepted) (hh : Holds mm A t s) (q : Nat) :
    wp (r.build mm mem (poolPage q)) (fun _ _ => False) (fun e s' => Holds mm A t s' ∧ e.isExn = true) s := by
  cases r with
  | guest virt cr3 size =>
    simp only [Request.build, mapGuest, mapWithCr3, wp_bind, wp_expects, if_pos (poolPage_ne_zero q),
      if_pos (lower_poolPage q)]
    by_cases hna : virt ≠ 0
    · rw [if_pos hna, if_neg fun ht => hrfd ⟨hna, ht⟩]
      exact ⟨hh, rfl⟩
    · rw [if_neg hna]
      exact ⟨hh, rfl⟩
  | ranges list =>
    simp only [Request.build, mapList, wp_bind, wp_expects, wp_expectRanges, if_pos (poolPage_ne_zero q),
      if_pos (lower_poolPage q)]
    by_cases hfi : list ≠ []
    · rw [if_pos hfi, if_neg fun hpp => hrfd ⟨hfi, hpp⟩]
      exact ⟨hh, rfl⟩
    · rw [if_neg hfi]
      exact ⟨hh, rfl⟩

theorem wp_build_null (hh : Holds mm A t s) :
    wp (r.build mm mem 0) (fun _ _ => False) (fun e s' => Holds mm A t s' ∧ e.isExn = true) s := by
  cases r with
  | guest virt cr3 size =>
    simp only [Request.build, mapGuest, mapWithCr3, wp_bind, wp_expects, ne_eq, not_true_eq_false, if_false]
    exact ⟨hh, rfl⟩
  | ranges list =>
    simp only [Request.build, mapList, wp_bind, wp_expects, ne_eq, not_true_eq_false, if_false]
    exact ⟨hh, rfl⟩

/-! ## The calls -/

/-- A call that gets a range and passes the checks maps its pages up to the first that cannot be mapped. The range
goes back to the pool if there is one, the pages before it stay mapped. -/
theorem wp_make (hh : Holds mm A t s) (hgr : granted t r.size = some (q, t')) (hacc : r.Accepted) :
    wp (r.make mm mem)
      (fun map s' => map = r.object q ∧ Holds mm (painted mem r A q r.count) t' s' ∧
        ∀ i < r.count, Mappable mem r A t' q i)
      (fun e s' => e.isExn = true ∧ ∃ k < r.count, (∀ i < k, Mappable mem r A t' q i) ∧ ¬ Mappable mem r A t' q k ∧
        Holds mm (painted mem r A q k) t s') s := by
  have hal := wp_allocMap hh r.size
  rw [hgr] at hal
  rw [Request.make_eq, wp_bind]
  refine wp_mono ?_ (fun _ _ none => none.elim) hal
  rintro vmap s₁ ⟨rfl, hh₁⟩
  rw [wp_onThrow, wp_build_of_accepted hacc (granted_size hgr).1]
  have loop := wp_loop_first (fun i s => Holds mm (painted mem r A q i) t' s) (Mappable mem r A t' q) hh₁
    (fun i less hm _ inv => wp_mapOne hgr hacc less hm inv)
    (fun i less hu _ inv => wp_mapOne_fails hgr hacc less hu inv)
  refine wp_mono (fun _ _ ends => ⟨rfl, ends⟩) ?_ loop
  rintro e s₂ ⟨k, less, hea, stop, hh₂, exn⟩
  rw [if_pos exn]
  exact wp_mono (fun _ _ ha => ⟨exn, k, less, hea, stop, ha⟩) (fun _ _ none => none.elim)
    (wp_freeMap hh₂ (granted_give hh hgr))

/-- A call that gets no range or fails a check leaves no trace. -/
theorem wp_make_refused (hh : Holds mm A t s) (hrfd : granted t r.size = none ∨ ¬ r.Accepted) :
    wp (r.make mm mem) (fun _ _ => False) (fun e s' => Holds mm A t s' ∧ e.isExn = true) s := by
  have hal := wp_allocMap hh r.size
  rw [Request.make_eq, wp_bind]
  refine wp_mono ?_ (fun _ _ none => none.elim) hal
  intro vmap s₁ hres
  rw [wp_onThrow]
  cases hgr : granted t r.size with
  | none =>
    rw [hgr] at hres
    obtain ⟨rfl, hh₁⟩ := hres
    refine wp_mono (fun _ _ none => none) ?_ (wp_build_null hh₁)
    rintro e s₂ ⟨hh₂, exn⟩
    rw [if_pos exn, wp_of_ok (freeMap_null s₂)]
    exact ⟨hh₂, exn⟩
  | some hf =>
    obtain ⟨q, t'⟩ := hf
    rw [hgr] at hres
    obtain ⟨rfl, hh₁⟩ := hres
    have hfa : ¬ r.Accepted := by
      cases hrfd with
      | inl none =>
        rw [none] at hgr
        cases hgr
      | inr hfa => exact hfa
    refine wp_mono (fun _ _ none => none) ?_ (wp_build_refused hfa hh₁ q)
    rintro e s₂ ⟨hh₂, exn⟩
    rw [if_pos exn]
    exact wp_mono (fun _ _ ha => ⟨ha, exn⟩) (fun _ _ none => none.elim) (wp_freeMap hh₂ (granted_give hh hgr))

end

end Gevisor.Host
