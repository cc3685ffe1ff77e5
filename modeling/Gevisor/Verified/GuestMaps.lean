import Gevisor.Host.GuestMap
import Gevisor.Verified.FailedMaps

/-! # Guest memory in the hypervisor's address space -/

namespace Gevisor.Verified.GuestMaps

open Lib Ept Host
open MemoryManager (pageSize)
open FailedMaps (onePage)

variable {mm : PagePool} {mem : Memory} {A : AddrMap} {t t' : Buddy memMapPoolK} {s s' : Host} {q virt cr3 size : Nat}

/-- A map of guest memory, for a range that begins at page `q` of the pool. Every byte is translated like the
guest translates it. The destructor takes away the pages of the range and nothing else, whatever has been mapped
or unmapped meanwhile, and right after the call it restores the host. -/
structure Exact (mm : PagePool) (mem : Memory) (A : AddrMap) (t : Buddy memMapPoolK) (q virt cr3 size : Nat)
    (map : UniqueMap) (s : Host) : Prop where
  translates : ∀ i < size, (virt + i) % 2 ^ 64 ≠ 0 →
    wp (virtToPhysWithCr3 mm mem ((virt + i) % 2 ^ 64) cr3)
      (fun p _ => hostTranslation mm s.mmap (map.virt + i) = some p) (fun _ _ => False) s
  undone : ∀ B t₂ t₃ s₂, Holds mm B t₂ s₂ → (∀ i < pages (size + lower virt 12), B (place q i) ≠ none) →
    t₂.give q = some t₃ → wp (map.destroy mm)
      (fun _ s₃ => Holds mm (without B q (pages (size + lower virt 12))) t₃ s₃) (fun _ _ => False) s₂
  restored : wp (map.destroy mm) (fun _ s' => Holds mm A t s') (fun _ _ => False) s

/-- No page that the call takes from the pool has a translation already. -/
def Untouched (mem : Memory) (A : AddrMap) (t' : Buddy memMapPoolK) (q virt cr3 size : Nat) : Prop :=
  ∀ i < pages (size + lower virt 12),
    A (place q i) = none ∧ Clear A (guestWalk mem (Request.current virt i) cr3).tables t'

/-- The byte is translated to the address that the base hypervisor's walk gives. -/
theorem translates_byte (hgr : granted t (size + lower virt 12) = some (q, t')) (hal : lower cr3 12 = 0)
    (hna : cr3 ≠ 0)
    (hh : Holds mm (painted mem (.guest virt cr3 size) A q (Request.guest virt cr3 size).count) t' s)
    (all : ∀ i < (Request.guest virt cr3 size).count, Mappable mem (.guest virt cr3 size) A t' q i) {i : Nat}
    (less : i < size) (hnn : (virt + i) % 2 ^ 64 ≠ 0) :
    wp (virtToPhysWithCr3 mm mem ((virt + i) % 2 ^ 64) cr3)
      (fun p _ => hostTranslation mm s.mmap (poolPage q + lower virt 12 + i) = some p) (fun _ _ => False) s := by
  have hs : (Request.guest virt cr3 size).size = size + lower virt 12 := size_eq hgr
  have hg' : granted t (Request.guest virt cr3 size).size = some (q, t') := by rw [hs, hgr]
  have root : upper cr3 12 = cr3 := by
    simp only [upper, lower] at hal ⊢
    omega
  have hi : (lower virt 12 + i) / pageSize < (Request.guest virt cr3 size).count := by
    rw [show (Request.guest virt cr3 size).count = pages (size + lower virt 12) from congrArg pages hs]
    simp only [pages, pageSize]
    omega
  obtain ⟨hp, hrd, -, -⟩ := all _ hi
  -- The walk for the byte is the walk for its page.
  have walk : guestWalk mem (Request.current virt ((lower virt 12 + i) / pageSize)) cr3 =
    guestWalk mem ((virt + i) % 2 ^ 64) cr3 := guestWalk_congr (page_of_byte virt i) cr3
  simp only [Request.frame, root, walk, ne_eq, Option.map_eq_none_iff] at hp
  obtain ⟨hf, hfr⟩ := Option.ne_none_iff_exists'.mp hp
  have ha := (ready_painted hg' (Nat.le_refl _)).mpr hrd
  simp only [Request.tables, root, walk] at ha
  rw [virtToPhysWithCr3_eq]
  simp only [wp_bind, wp_expects, if_pos hna, if_pos hnn, root]
  refine wp_mono ?_ ?_ ((realizes_strict hna hal).ready _ t' ha s hh)
  · rintro p s' ⟨-, hres⟩
    rw [hfr] at hres
    rw [hres]
    exact hostTranslation_painted hg' hh hi (root.symm ▸ hfr)
  · rintro e s' ⟨-, -, hmis⟩
    rw [hfr] at hmis
    cases hmis

/-- A map is exact once all of its pages are mapped. -/
theorem exact_of_mapped (hbe : Holds mm A t s) (hgr : granted t (size + lower virt 12) = some (q, t'))
    (hal : lower cr3 12 = 0) (hna : cr3 ≠ 0)
    (hh : Holds mm (painted mem (.guest virt cr3 size) A q (Request.guest virt cr3 size).count) t' s')
    (all : ∀ i < (Request.guest virt cr3 size).count, Mappable mem (.guest virt cr3 size) A t' q i) :
    Exact mm mem A t q virt cr3 size ((Request.guest virt cr3 size).object q) s' := by
  have hs : (Request.guest virt cr3 size).size = size + lower virt 12 := size_eq hgr
  have hcn : (Request.guest virt cr3 size).count = pages (size + lower virt 12) := congrArg pages hs
  have hg' : granted t (Request.guest virt cr3 size).size = some (q, t') := by rw [hs, hgr]
  constructor
  · intro i less hnn
    rw [show ((Request.guest virt cr3 size).object q).virt = poolPage q + lower virt 12 from object_virt virt q]
    exact translates_byte hgr hal hna hh all less hnn
  · intro B t₂ t₃ s₂ hla hmap hg
    rw [← hcn] at hmap ⊢
    exact wp_destroy hg' hla hmap hg
  · have hr := wp_destroy hg' hh (fun i less => painted_ne_none less (SameLeaf.refl _ _)) (granted_give hbe hgr)
    rw [without_painted hbe fun i less => (all i less).absent] at hr
    exact hr

/-- With all guest pages there and enough pages in the pool, a map is made and is exact if and only if the pages
that the call takes from the pool have no translations. -/
theorem guest_map_exact_iff (holds : Holds mm A t s) (aligned : lower cr3 12 = 0) (named : cr3 ≠ 0)
    (nonNull : virt ≠ 0) (grants : granted t (size + lower virt 12) = some (q, t')) (supply : Supplies 4 t')
    (present : ∀ i < pages (size + lower virt 12), (guestWalk mem (Request.current virt i) cr3).frame ≠ none) :
    wp (makeUniqueMapGuest mm mem virt cr3 size) (Exact mm mem A t q virt cr3 size) (fun _ _ => False) s ↔
      Untouched mem A t' q virt cr3 size := by
  have sized : (Request.guest virt cr3 size).size = size + lower virt 12 := size_eq grants
  have counted : (Request.guest virt cr3 size).count = pages (size + lower virt 12) := congrArg pages sized
  have granted' : granted t (Request.guest virt cr3 size).size = some (q, t') := by rw [sized, grants]
  have root : upper cr3 12 = cr3 := by
    simp only [upper, lower] at aligned ⊢
    omega
  have accepted : (Request.guest virt cr3 size).Accepted := ⟨nonNull, root.symm ▸ named⟩
  have ends := @wp_make mm mem (.guest virt cr3 size) A t t' s q holds granted' accepted
  have mappable {i : Nat} (less : i < (Request.guest virt cr3 size).count) :
      Mappable mem (.guest virt cr3 size) A t' q i ↔
        A (place q i) = none ∧ Clear A (guestWalk mem (Request.current virt i) cr3).tables t' := by
    have exact_ := @mappable_iff mem A t t' q virt cr3 size i granted' supply less (root.symm ▸ present i (counted ▸ less))
    rwa [root] at exact_
  constructor
  · intro exact_ i less
    obtain ⟨_, _, _, _, _, _, all⟩ := exists_of_wp (wp_mono (fun _ _ end_ => end_) (fun _ _ end_ => end_.1) (wp_and exact_ ends))
    exact (mappable (counted ▸ less)).mp (all i (counted ▸ less))
  · intro untouched
    refine wp_mono ?_ ?_ ends
    · rintro map s' ⟨rfl, after, all⟩
      exact exact_of_mapped holds grants aligned named after all
    · rintro e s' ⟨-, k, less, -, stop, -⟩
      exact stop ((mappable less).mpr (untouched k (counted ▸ less)))

theorem one_page_exact : Untouched onePage (fun _ => none) (Buddy.carve 0 memMapPoolK) 0 0x1234 0x1000 0x10 ∧
    wp (makeUniqueMapGuest default onePage 0x1234 0x1000 0x10)
      (Exact default onePage (fun _ => none) .free 0 0x1234 0x1000 0x10) (fun _ _ => False)
      (Host.init default fun _ _ => 0) := by
  have untouched : Untouched onePage (fun _ => none) (Buddy.carve 0 memMapPoolK) 0 0x1234 0x1000 0x10 := fun _ _ =>
    ⟨rfl, clear_empty _ _⟩
  have grants : granted (.free : Buddy memMapPoolK) (0x10 + lower 0x1234 12) = some (0, Buddy.carve 0 memMapPoolK) := by
    rw [granted, if_neg (by decide)]
    rfl
  refine ⟨untouched, ?_⟩
  rw [guest_map_exact_iff (holds_init default fun _ _ => 0) (by decide) (by decide) (by decide) grants
    ⟨_, _, rfl, _, _, rfl, _, _, rfl, _, _, rfl, trivial⟩ (by decide)]
  exact untouched

/-- After a call that failed at its second page, the map of a page that is there fails, too. -/
theorem map_of_present_page_fails : (guestWalk onePage 0x1000 0x1000).frame = some (0x5000, .pt) ∧
    ∃ e s', makeUniqueMapGuest default onePage 0x1000 0x1000 0x2000 (Host.init default fun _ _ => 0) = .error e s' ∧
      ∃ e' s'', makeUniqueMapGuest default onePage 0x1000 0x1000 0x1000 s' = .error e' s'' := by
  refine ⟨by decide, ?_⟩
  obtain ⟨e, s', throws, left⟩ := FailedMaps.fails_at_second
  have mapped : painted onePage (.guest 0x1000 0x1000 0x2000) (fun _ => none) 0 1 (place 0 0) ≠ none :=
    painted_ne_none Nat.one_pos (SameLeaf.refl _ _)
  have grants : granted (.free : Buddy memMapPoolK) 0x1000 = some (0, Buddy.carve 0 memMapPoolK) := granted_page _
  have fails := @FailedMaps.fails_at_first default onePage (.guest 0x1000 0x1000 0x1000) _ _ _ _ _ left grants
    (by decide) (by decide) mapped
  exact ⟨e, s', throws, fails⟩

end Gevisor.Verified.GuestMaps
