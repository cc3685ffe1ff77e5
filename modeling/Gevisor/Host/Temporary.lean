import Gevisor.Ept.IdentityMap
import Gevisor.Host.Walks

/-! # What temporary maps leave behind

The state of the host as a pair: the translations `A` and the tree `t` of the map pool. A map that is made and
destroyed again leaves both as they were, whether its scope returned or threw.
-/

namespace Gevisor.Host

open Lib Ept MemoryManager
open BuddyAllocator (Tracks allocate_spec deallocate_spec)

/-- The page tables mean `A` and the pool is divided like `t`. The hypervisor maps 4K pages only. -/
structure Holds (mm : PagePool) (A : AddrMap) (t : Buddy memMapPoolK) (s : Host) : Prop where
  maps : Maps mm s.mmap A
  tracks : Tracks s.pool memMapPoolStart memMapPoolK t
  small : ∀ v leaf, A v = some leaf → leaf.level = .pt

theorem holds_init (mm : PagePool) (word : Nat → Fin 512 → Entry) :
    Holds mm (fun _ => none) .free (Host.init mm word) where
  maps := by
    have bare := @init_bare mm word
    refine ⟨⟨bare.1, bare.leafAt_eq⟩, fun q i ht => ?_⟩
    rw [Host.init, bare.2] at ht
    exact absurd ht (not_isTable_zero _)
  tracks := BuddyAllocator.construct_tracks (by decide) (by decide) (by decide)
  small _ _ hf := by cases hf

def poolPage (q : Nat) : Nat := memMapPoolStart + pageSize * q

/-- What the pool hands out for `size` bytes: a page number and the tree afterwards. -/
def granted (t : Buddy memMapPoolK) (size : Nat) : Option (Nat × Buddy memMapPoolK) :=
  if size = 0 ∨ pageSize * 2 ^ memMapPoolK < size then none else t.take (levelFor size)

theorem granted_page (t : Buddy memMapPoolK) : granted t pageSize = t.take 0 := by
  rw [granted, if_neg (by decide)]
  rfl

section

variable {mm : PagePool} {A : AddrMap} {t t' : Buddy memMapPoolK} {s : Host} {q : Nat} {α : Type}

/-! ## The pool -/

theorem wp_allocMap (hh : Holds mm A t s) (size : Nat) : wp (allocMap size) (fun p s' => match granted t size with
      | none => p = 0 ∧ Holds mm A t s'
      | some (q, t') => p = poolPage q ∧ Holds mm A t' s') (fun _ _ => False) s := by
  have spec := allocate_spec hh.tracks size
  rw [wp, allocMap, granted]
  split at spec
  · next hrfd =>
    rw [spec, if_pos hrfd]
    exact ⟨rfl, hh⟩
  · next hacc =>
    rw [if_neg hacc]
    cases htk : t.take (levelFor size) with
    | none =>
      rw [htk] at spec
      simp only at spec
      rw [spec]
      exact ⟨rfl, hh⟩
    | some hf =>
      rw [htk] at spec
      obtain ⟨a, hret, htr⟩ := spec
      rw [hret]
      exact ⟨rfl, hh.maps, htr, hh.small⟩

theorem freeMap_null (s : Host) : freeMap 0 s = .ok () s := rfl

theorem wp_freeMap (hh : Holds mm A t' s) (hg : t'.give q = some t) :
    wp (freeMap (poolPage q)) (fun _ s' => Holds mm A t s') (fun _ _ => False) s := by
  have pos : poolPage q ≠ 0 := by
    rw [poolPage, memMapPoolStart]
    omega
  have spec := deallocate_spec hh.tracks pos
  rw [poolPage, Client.pageAt_place, hg] at spec
  obtain ⟨a, hret, htr⟩ := spec
  rw [wp, freeMap, poolPage, hret]
  exact ⟨hh.maps, htr, hh.small⟩

theorem granted_give {size : Nat} (hh : Holds mm A t s) (hgr : granted t size = some (q, t')) :
    t'.give q = some t := by
  rw [granted] at hgr
  split at hgr
  · cases hgr
  · exact Buddy.give_take hh.tracks.normal hgr

/-! ## The page tables -/

/-- The leaf by which the hypervisor maps guest memory. -/
def hostLeaf (phys : Nat) (cache : MemoryType) : Leaf := ⟨.pt, leafEntry phys .readWrite cache⟩

theorem small_set {leaf : Option Leaf} (hs : ∀ v l, A v = some l → l.level = .pt)
    (flat : ∀ l, leaf = some l → l.level = .pt) (v : Nat) : ∀ w l, A.set .pt v leaf w = some l → l.level = .pt := by
  intro w l hf
  by_cases same : SameLeaf .pt w v
  · rw [AddrMap.set_same same] at hf
    exact flat l hf
  · rw [AddrMap.set_other same] at hf
    exact hs w l hf

variable {virt v phys : Nat}

theorem wp_map4k (hh : Holds mm A t s) (hab : A virt = none) (phys : Nat) (cache : MemoryType) :
    wp (onMmap (map4k mm virt phys .readWrite cache))
      (fun _ s' => Holds mm (A.set .pt virt (some (hostLeaf phys cache))) t s') (fun _ _ => False) s := by
  obtain ⟨r, m', hret, maps⟩ := map4k_spec hh.maps hab phys .readWrite cache
  rw [onMmap, wp_zoom, wp_of_ok hret]
  refine ⟨maps, hh.tracks, small_set hh.small ?_ virt⟩
  intro l leaf
  cases leaf
  rfl

/-- The error of `map_pte` is not that of a failed check. -/
theorem exists_ne_failFast (phys : Nat) :
    Err.exn ("map_pte: map failed, virt / phys map already exists: " ++ toHex phys) ≠ failFast := by
  intro same
  injection same with text
  have first := congrArg (fun text => text.toList.head?) text
  rw [String.toList_append, String.toList_ofList] at first
  cases first

theorem wp_map4k_exists (hh : Holds mm A t s) (hmap : A virt ≠ none) (phys : Nat) (cache : MemoryType) :
    wp (onMmap (map4k mm virt phys .readWrite cache)) (fun _ _ => False)
      (fun e s' => Holds mm A t s' ∧ e.isExn = true ∧ e ≠ failFast) s := by
  obtain ⟨⟨l, w⟩, hf⟩ := Option.ne_none_iff_exists'.mp hmap
  obtain rfl : l = .pt := hh.small virt _ hf
  obtain ⟨m', hth, maps⟩ := map4k_exists hh.maps hf phys .readWrite cache
  rw [onMmap, wp_zoom, wp_of_error hth]
  exact ⟨⟨maps, hh.tracks, hh.small⟩, rfl, exists_ne_failFast phys⟩

theorem wp_unmap (hh : Holds mm A t s) (hmap : A virt ≠ none) :
    wp (onMmap (unmap mm virt)) (fun _ s' => Holds mm (A.set .pt virt none) t s') (fun _ _ => False) s := by
  obtain ⟨⟨l, w⟩, hf⟩ := Option.ne_none_iff_exists'.mp hmap
  obtain rfl : l = .pt := hh.small virt _ hf
  obtain ⟨m', hret, maps⟩ := unmap_spec hh.maps hf
  rw [onMmap, wp_zoom, wp_of_ok hret]
  refine ⟨maps, hh.tracks, small_set hh.small ?_ virt⟩
  intro l none
  cases none

/-- Addresses in one page have one leaf. -/
theorem Holds.same (hh : Holds mm A t s) {a : Nat} (same : SameLeaf .pt a v) : A a = A v := by
  obtain ⟨-, rfl⟩ := hh.maps.refines
  have word (l : Level) (habv : l.depth ≤ Level.pt.depth) :
      s.mmap.view mm (pathTo l a) (l.index a) = s.mmap.view mm (pathTo l v) (l.index v) := by
    obtain ⟨path, hi⟩ := (sameLeaf_iff l a v).mp (same.upper habv)
    rw [path, hi]
  simp only [leafAt, leafOf, word .pdpt (by decide), word .pd (by decide), word .pt (by decide)]

theorem Holds.set_set (hh : Holds mm A t s) (hab : A v = none) (leaf : Option Leaf) :
    (A.set .pt v leaf).set .pt v none = A := by
  funext a
  by_cases same : SameLeaf .pt a v
  · rw [AddrMap.set_same same, hh.same same, hab]
  · rw [AddrMap.set_other same, AddrMap.set_other same]

/-! ## One map -/

@[simp] theorem wp_expects {p : Prop} [Decidable p] {Q : Unit → Host → Prop} {X : Err → Host → Prop} :
    wp (expects p) Q X s ↔ if p then Q () s else X failFast s := by
  rw [expects, wp_ite]
  rfl

theorem poolPage_ne_zero (q : Nat) : poolPage q ≠ 0 := by
  rw [poolPage, memMapPoolStart]
  omega

theorem lower_upper (addr : Nat) : lower (upper addr 12) 12 = 0 := by
  simp only [lower, upper]
  omega

theorem lower_poolPage (q : Nat) : lower (poolPage q) 12 = 0 := by
  simp only [lower, poolPage, memMapPoolStart, pageSize]
  omega

theorem upper_poolPage (q : Nat) : upper (poolPage q) 12 = poolPage q := by
  simp only [upper, poolPage, memMapPoolStart, pageSize]
  omega

theorem poolPage_lt {q : Nat} (hi : q < 2 ^ memMapPoolK) : poolPage q + pageSize < 2 ^ 48 := by
  simp only [memMapPoolK, poolPage, memMapPoolStart, pageSize] at hi ⊢
  omega

/-- A map of one page can be made: the pool has one, and no translation is in its way. -/
structure Available (A : AddrMap) (t : Buddy memMapPoolK) (q : Nat) (t' : Buddy memMapPoolK) : Prop where
  taken : t.take 0 = some (q, t')
  absent : A (poolPage q) = none

theorem wp_makeUniqueMap (hh : Holds mm A t s) (hav : Available A t q t') (hnn : phys ≠ 0)
    (hal : lower phys 12 = 0) (cache : MemoryType) :
    wp (makeUniqueMap mm phys cache) (fun map s' => map = ⟨poolPage q, pageSize, pageSize⟩ ∧
      Holds mm (A.set .pt (poolPage q) (some (hostLeaf (upper phys 12) cache))) t' s') (fun _ _ => False) s := by
  have ha := wp_allocMap hh pageSize
  rw [granted_page, hav.taken] at ha
  rw [makeUniqueMap, wp_bind]
  refine wp_mono ?_ (fun _ _ none => none) ha
  rintro p s₁ ⟨rfl, hh₁⟩
  simp only [mapPage, wp_onThrow, wp_bind, wp_expects, if_pos (poolPage_ne_zero q), if_pos (lower_poolPage q),
    if_pos hnn, if_pos hal, wp_pure]
  exact wp_mono (fun _ _ hmap => ⟨trivial, hmap⟩) (fun _ _ none => none.elim)
    (wp_map4k hh₁ hav.absent (upper phys 12) cache)

/-- Where no map can be made, the attempt leaves nothing behind. A check fails only if the frame is not one, or if
the pool is exhausted. -/
theorem wp_makeUniqueMap_fails (hh : Holds mm A t s) (cache : MemoryType)
    (unavailable : phys = 0 ∨ lower phys 12 ≠ 0 ∨ ∀ q t', ¬ Available A t q t') :
    wp (makeUniqueMap mm phys cache) (fun _ _ => False) (fun e s' => Holds mm A t s' ∧ e.isExn = true ∧
      (e = failFast → phys = 0 ∨ lower phys 12 ≠ 0 ∨ t.take 0 = none)) s := by
  have alloc := wp_allocMap hh pageSize
  rw [granted_page] at alloc
  rw [makeUniqueMap, wp_bind]
  refine wp_mono ?_ (fun _ _ none => none.elim) alloc
  intro p s₁ hres
  cases htk : t.take 0 with
  | none =>
    rw [htk] at hres
    obtain ⟨rfl, hh₁⟩ := hres
    simp only [mapPage, wp_onThrow, wp_bind, wp_expects, ne_eq, not_true_eq_false, if_false]
    rw [if_pos (show failFast.isExn = true from rfl), wp_of_ok (freeMap_null s₁)]
    exact ⟨hh₁, rfl, fun _ => .inr (.inr trivial)⟩
  | some hf =>
    obtain ⟨q, t'⟩ := hf
    rw [htk] at hres
    obtain ⟨rfl, hh₁⟩ := hres
    -- Whatever stops the constructor, the range goes back.
    have back {e : Err} {s₂ : Host} {P : Prop} (exn : e.isExn = true) (cause : P) (hh₂ : Holds mm A t' s₂) :
        if e.isExn = true then wp (freeMap (poolPage q)) (fun _ s' => Holds mm A t s' ∧ e.isExn = true ∧ P)
          (fun e' s' => Holds mm A t s' ∧ e'.isExn = true ∧
            (e' = failFast → phys = 0 ∨ lower phys 12 ≠ 0 ∨ some (q, t') = none)) s₂
        else Holds mm A t s₂ ∧ e.isExn = true ∧ P := by
      rw [if_pos exn]
      exact wp_mono (fun _ _ ha => ⟨ha, exn, cause⟩) (fun _ _ none => none.elim)
        (wp_freeMap hh₂ (Buddy.give_take hh.tracks.normal htk))
    simp only [mapPage, wp_onThrow, wp_bind, wp_expects, if_pos (poolPage_ne_zero q), if_pos (lower_poolPage q), wp_pure]
    by_cases hnn : phys ≠ 0
    · by_cases hal : lower phys 12 = 0
      · rw [if_pos hnn, if_pos hal]
        have hmap : A (poolPage q) ≠ none := by
          intro hab
          obtain null | unaligned | none := unavailable
          · exact hnn null
          · exact unaligned hal
          · exact none q t' ⟨htk, hab⟩
        refine wp_mono (fun _ _ none => none) ?_ (wp_map4k_exists hh₁ hmap (upper phys 12) cache)
        rintro e s₂ ⟨hh₂, exn, ho⟩
        exact back exn (fun check => absurd check ho) hh₂
      · rw [if_pos hnn, if_neg hal]
        exact back rfl (fun _ => .inr (.inl hal)) hh₁
    · rw [if_neg hnn]
      exact back rfl (fun _ => .inl (not_not.mp hnn)) hh₁

theorem forFrom_one {ε σ : Type} (body : Nat → EStateM ε σ Unit) (i : Nat) : forFrom body i 1 = body i := by
  rw [forFrom, forFrom]
  exact bind_pure_unit

theorem wp_destroy_page {B : AddrMap} (hh : Holds mm B t' s) (hi : q < 2 ^ memMapPoolK)
    (hg : t'.give q = some t) (hmap : B (poolPage q) ≠ none) :
    wp (UniqueMap.destroy mm ⟨poolPage q, pageSize, pageSize⟩)
      (fun _ s' => Holds mm (B.set .pt (poolPage q) none) t s') (fun _ _ => False) s := by
  have size : pages ((poolPage q + pageSize) % 2 ^ 64 - poolPage q) = 1 := by
    have hbo := poolPage_lt hi
    rw [Nat.mod_eq_of_lt (by omega), Nat.add_sub_cancel_left]
    decide
  simp only [UniqueMap.destroy, cleanup]
  rw [if_pos ⟨poolPage_ne_zero q, by decide⟩, upper_poolPage, size, forFrom_one, wp_bind]
  exact wp_mono (fun _ _ hcr => wp_freeMap hcr hg) (fun _ _ none => none) (wp_unmap hh hmap)

/-! ## Scopes -/

/-- `c` leaves translations and pool as they are, and returns into `Q` or throws into `X`. -/
def Restoring (mm : PagePool) (A : AddrMap) (t : Buddy memMapPoolK) (c : HostM α) (Q : α → Prop) (X : Err → Prop) : Prop :=
  ∀ s, Holds mm A t s →
    wp c (fun a s' => Holds mm A t s' ∧ Q a) (fun e s' => Holds mm A t s' ∧ e.isExn = true ∧ X e) s

namespace Restoring

variable {β : Type} {Q : α → Prop} {X : Err → Prop} {c : HostM α}

theorem pure {a : α} (hres : Q a) : Restoring mm A t (pure a) Q X := fun _ hh => ⟨hh, hres⟩

theorem throw {e : Err} (exn : e.isExn = true) (hres : X e) : Restoring mm A t (throw e : HostM α) Q X :=
  fun _ hh => ⟨hh, exn, hres⟩

theorem mono {Q' : α → Prop} {X' : Err → Prop} (hr : Restoring mm A t c Q X) (hre : ∀ a, Q a → Q' a)
    (ht : ∀ e, X e → X' e) : Restoring mm A t c Q' X' := fun s hh =>
  wp_mono (fun a _ ends => ⟨ends.1, hre a ends.2⟩) (fun e _ ends => ⟨ends.1, ends.2.1, ht e ends.2.2⟩) (hr s hh)

theorem bind {Q' : β → Prop} {k : α → HostM β} (first : Restoring mm A t c Q X)
    (rest : ∀ a, Q a → Restoring mm A t (k a) Q' X) : Restoring mm A t (c >>= k) Q' X := by
  intro s hh
  rw [wp_bind]
  exact wp_mono (fun a s' ends => rest a ends.2 s' ends.1) (fun _ _ ends => ends) (first s hh)

theorem load {map : UniqueMap} {leaf : Leaf} (hmap : A map.virt = some leaf) (mem : Memory) (i : Fin 512) :
    Restoring mm A t (load mm mem map i) (fun e => e = mem (Pte.physAddr leaf.entry) i) X := by
  intro s hh
  have hf : leafAt mm s.mmap map.virt = some leaf := by rw [hh.maps.refines.2, hmap]
  have hret : Host.load mm mem map i s = .ok (mem (Pte.physAddr leaf.entry) i) s := by
    rw [Host.load, hf]
  rw [wp_of_ok hret]
  exact ⟨hh, rfl⟩

variable {phys : Nat} {cache : MemoryType} {scope : UniqueMap → HostM α}

/-- A scope with a map of its own. -/
theorem withMap (hav : Available A t q t') (hnn : phys ≠ 0) (hal : lower phys 12 = 0)
    (hin : Restoring mm (A.set .pt (poolPage q) (some (hostLeaf (upper phys 12) cache))) t'
      (scope ⟨poolPage q, pageSize, pageSize⟩) Q X) :
    Restoring mm A t (withMap mm (makeUniqueMap mm phys cache) scope) Q X := by
  intro s hh
  rw [Host.withMap, wp_bind]
  refine wp_mono ?_ (fun _ _ none => none.elim) (wp_makeUniqueMap hh hav hnn hal cache)
  rintro map s₁ ⟨rfl, hh₁⟩
  have hi : q < 2 ^ memMapPoolK := by
    have := (Buddy.take_inside hav.taken).1
    omega
  have hg := Buddy.give_take hh.tracks.normal hav.taken
  have hd {s₂ : Host} (hh₂ : Holds mm (A.set .pt (poolPage q) (some (hostLeaf (upper phys 12) cache))) t' s₂) :
      wp (UniqueMap.destroy mm ⟨poolPage q, pageSize, pageSize⟩) (fun _ s' => Holds mm A t s') (fun _ _ => False) s₂ := by
    have hmap : (A.set .pt (poolPage q) (some (hostLeaf (upper phys 12) cache))) (poolPage q) ≠ none := by
      rw [AddrMap.set_same (SameLeaf.refl _ _)]
      exact Option.some_ne_none _
    have ha := wp_destroy_page hh₂ hi hg hmap
    rw [hh.set_set hav.absent] at ha
    exact ha
  rw [wp_ensuring]
  refine wp_mono ?_ ?_ (hin s₁ hh₁)
  · rintro a s₂ ⟨hh₂, hres⟩
    exact wp_mono (fun _ _ ha => ⟨ha, hres⟩) (fun _ _ none => none.elim) (hd hh₂)
  · rintro e s₂ ⟨hh₂, exn, hres⟩
    rw [if_pos exn]
    exact wp_mono (fun _ _ ha => ⟨ha, exn, hres⟩) (fun _ _ none => none.elim) (hd hh₂)

theorem withMap_fails (hu : phys = 0 ∨ lower phys 12 ≠ 0 ∨ ∀ q t', ¬ Available A t q t') :
    Restoring mm A t (Host.withMap mm (makeUniqueMap mm phys cache) scope) (fun _ => False)
      (fun e => e = failFast → phys = 0 ∨ lower phys 12 ≠ 0 ∨ t.take 0 = none) := by
  intro s hh
  rw [Host.withMap, wp_bind]
  exact wp_mono (fun _ _ none => none.elim) (fun _ _ ends => ends) (wp_makeUniqueMap_fails hh cache hu)

end Restoring

end

end Gevisor.Host
