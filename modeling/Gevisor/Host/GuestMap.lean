import Gevisor.Host.Requests

/-! # Maps of guest memory

What the host's page tables say about a range of guest memory once it is mapped, and what the destructor of the
map does to them.
-/

namespace Gevisor.Host

open Lib Ept MemoryManager

variable {mm : PagePool} {mem : Memory} {A B : AddrMap} {t t' : Buddy memMapPoolK} {s : Host} {q : Nat}

/-- Where the page tables of the hypervisor translate `v` to. -/
def hostTranslation (mm : PagePool) (m : Mmap) (v : Nat) : Option Nat :=
  (leafAt mm m v).map fun leaf => translated v (Pte.physAddr leaf.entry, leaf.level)

/-- The translations without those of the first `n` pages of a range. -/
def without (B : AddrMap) (q n : Nat) : AddrMap := fun a => if ∃ i < n, SameLeaf .pt a (place q i) then none else B a

variable {size i n virt cr3 a v page : Nat} {found : Nat × Level}

theorem place_apart {j : Nat} (hgr : granted t size = some (q, t')) (first : i < pages size)
    (hs : j < pages size) (same : SameLeaf .pt (place q i) (place q j)) : i = j := by
  rw [place_eq hgr first, place_eq hgr hs] at same
  have := sameLeaf_poolPage (granted_pages hgr first).2 (granted_pages hgr hs).2 same
  omega

/-! ## Destruction -/

theorem without_zero (B : AddrMap) (q : Nat) : without B q 0 = B := by
  funext a
  refine if_neg ?_
  rintro ⟨i, less, -⟩
  exact Nat.not_lt_zero i less

theorem without_succ (B : AddrMap) (q n : Nat) :
    (without B q n).set .pt (place q n) none = without B q (n + 1) := by
  funext a
  by_cases last : SameLeaf .pt a (place q n)
  · rw [AddrMap.set_same last, without, if_pos ⟨n, Nat.lt_succ_self n, last⟩]
  · rw [AddrMap.set_other last]
    refine if_congr ⟨?_, ?_⟩ rfl rfl
    · rintro ⟨i, less, same⟩
      exact ⟨i, by omega, same⟩
    · rintro ⟨i, less, same⟩
      obtain hea | rfl := Nat.lt_succ_iff_lt_or_eq.mp less
      · exact ⟨i, hea, same⟩
      · exact absurd same last

/-- A range can be unmapped page by page while all of its pages are mapped. -/
theorem wp_unmapPages (hh : Holds mm B t s) (hmap : ∀ i < n, B (place q i) ≠ none)
    (hap : ∀ i < n, ∀ j < n, SameLeaf .pt (place q i) (place q j) → i = j) :
    wp (forFrom (fun i => onMmap (unmap mm (place q i))) 0 n) (fun _ s' => Holds mm (without B q n) t s')
      (fun _ _ => False) s := by
  refine wp_loop (fun i s => Holds mm (without B q i) t s) ?_ ?_ fun _ ends => ends
  · rw [without_zero]
    exact hh
  · intro i s less inv
    have ht : without B q i (place q i) ≠ none := by
      rw [without, if_neg]
      · exact hmap i less
      · rintro ⟨j, hea, same⟩
        have := hap i less j (by omega) same
        omega
    rw [← without_succ]
    exact wp_unmap inv ht

theorem upper_or_lower (a v b : Nat) : upper a b ||| lower v b = upper a b + lower v b := by
  have low : lower v b < 2 ^ b := Nat.mod_lt _ (Nat.two_pow_pos b)
  rw [upper, Nat.mul_comm, ← Nat.two_pow_add_eq_or_of_lt low]

/-- The address of the object: the start of the range, with the offset in the page. -/
theorem object_virt (virt q : Nat) : lower virt 12 ||| upper (poolPage q) 12 = poolPage q + lower virt 12 := by
  rw [Nat.or_comm, upper_or_lower, upper_poolPage]

theorem upper_object (virt q : Nat) : upper (lower virt 12 ||| upper (poolPage q) 12) 12 = poolPage q := by
  have hal := lower_poolPage q
  rw [object_virt]
  simp only [lower, upper] at hal ⊢
  omega

/-- The destructor, in any state in which the pages are mapped and the range is in use. -/
theorem wp_destroy (hgr : granted t (Request.guest virt cr3 size).size = some (q, t'))
    {t₂ t₃ : Buddy memMapPoolK} (hh : Holds mm B t₂ s)
    (hmap : ∀ i < (Request.guest virt cr3 size).count, B (place q i) ≠ none) (hg : t₂.give q = some t₃) :
    wp (((Request.guest virt cr3 size).object q).destroy mm)
      (fun _ s' => Holds mm (without B q (Request.guest virt cr3 size).count) t₃ s') (fun _ _ => False) s := by
  have hsi := (granted_size hgr).1
  have hc := le_levelFor (Request.guest virt cr3 size).size
  have hi := (Buddy.take_inside (granted_size hgr).2).1
  have hnn : lower virt 12 ||| upper (poolPage q) 12 ≠ 0 := by
    have := poolPage_ne_zero q
    rw [object_virt]
    omega
  have hl : (poolPage q + (Request.guest virt cr3 size).size) % 2 ^ 64 - poolPage q =
      (Request.guest virt cr3 size).size := by
    rw [Nat.mod_eq_of_lt, Nat.add_sub_cancel_left]
    simp only [poolPage, memMapPoolStart, memMapPoolK, pageSize] at hc hi ⊢
    omega
  have hp : forFrom (fun i => onMmap (unmap mm (poolPage q + pageSize * i))) 0 (Request.guest virt cr3 size).count =
      forFrom (fun i => onMmap (unmap mm (place q i))) 0 (Request.guest virt cr3 size).count := by
    refine forFrom_congr fun i less => ?_
    rw [Nat.zero_add, place_eq hgr less, poolPage_add]
  show wp (cleanup mm (lower virt 12 ||| upper (poolPage q) 12) (Request.guest virt cr3 size).size) _ _ s
  simp only [cleanup]
  rw [if_pos ⟨hnn, hsi⟩, upper_object, hl, wp_bind]
  refine wp_mono (fun _ _ hcr => wp_freeMap hcr hg) (fun _ _ none => none) ?_
  rw [show pages (Request.guest virt cr3 size).size = (Request.guest virt cr3 size).count from rfl, hp]
  exact wp_unmapPages hh hmap fun i first j hs same => place_apart hgr first hs same

/-! ## Translation -/

theorem painted_place {r : Request} {k : Nat} (less : k < n)
    (hap : ∀ i < n, ∀ j < n, SameLeaf .pt (place q i) (place q j) → i = j) (same : SameLeaf .pt a (place q k)) :
    painted mem r A q n a = some (r.leaf mem k) := by
  induction n with
  | zero => omega
  | succ n ih =>
    rw [painted]
    by_cases last : SameLeaf .pt a (place q n)
    · obtain rfl := hap k less n (Nat.lt_succ_self n) (same.symm.trans last)
      exact AddrMap.set_same last _ _
    · rw [AddrMap.set_other last]
      obtain hea | rfl := Nat.lt_succ_iff_lt_or_eq.mp less
      · exact ih hea fun i first j hs => hap i (by omega) j (by omega)
      · exact absurd same last

/-- Addresses in one page have one walk. -/
theorem guestWalk_congr (same : SameLeaf .pt a v) (page : Nat) : guestWalk mem a page = guestWalk mem v page := by
  have hi (l : Level) (habv : l.depth ≤ Level.pt.depth) : l.index a = l.index v :=
    ((sameLeaf_iff l a v).mp (same.upper habv)).2
  simp only [guestWalk, look, hi .pml4 (by decide), hi .pdpt (by decide), hi .pd (by decide), hi .pt (by decide)]

theorem look_frame {l : Level} {next : Entry → Outcome}
    (ends : (look mem virt l page next).frame = some found) : ∃ pte, (next pte).frame = some found := by
  simp only [look] at ends
  split at ends
  · cases ends
  · exact ⟨_, ends⟩

theorem guestWalk_frame_lt (ends : (guestWalk mem virt page).frame = some found) : found.1 < 2 ^ 52 := by
  obtain ⟨_, ends⟩ := look_frame ends
  obtain ⟨_, ends⟩ := look_frame ends
  split at ends
  · cases ends
    exact Pte.physAddr_lt _
  obtain ⟨_, ends⟩ := look_frame ends
  split at ends
  · cases ends
    exact Pte.physAddr_lt _
  obtain ⟨_, ends⟩ := look_frame ends
  cases ends
  exact Pte.physAddr_lt _

/-- An address in a page that is mapped to a page of a larger frame is translated like the guest's. -/
theorem translated_of_page {frame : Nat × Level} (hbo : frame.1 < 2 ^ 52) {current addr : Nat}
    (same : SameLeaf .pt current addr) (ho : v % 4096 = addr % 4096) :
    translated v (upper (translated current frame) 12 % 2 ^ 52 / 4096 * 4096, .pt) = translated addr frame := by
  obtain ⟨phys, l⟩ := frame
  simp only [translated, upper_or_lower, SameLeaf] at hbo same ⊢
  cases l <;> simp only [upper, lower, Level.fromBit] at same ⊢ <;> omega

/-- The pool grants only sizes that do not wrap around. -/
theorem granted_lt (hgr : granted t n = some (q, t')) : n % 2 ^ 64 = n := by
  rw [granted] at hgr
  split at hgr
  · cases hgr
  · next fits =>
    simp only [pageSize, memMapPoolK] at fits
    omega

theorem size_eq (hgr : granted t (size + lower virt 12) = some (q, t')) :
    (Request.guest virt cr3 size).size = size + lower virt 12 :=
  granted_lt hgr

theorem without_painted {r : Request} {n : Nat} (hh : Holds mm A t s) (hab : ∀ i < n, A (place q i) = none) :
    without (painted mem r A q n) q n = A := by
  funext a
  rw [without]
  split
  · next hi =>
    obtain ⟨i, less, same⟩ := hi
    rw [hh.same same, hab i less]
  · next hout => exact painted_other fun i less same => hout ⟨i, less, same⟩

/-- The page of byte `i` of a range. -/
theorem page_of_byte (virt i : Nat) :
    SameLeaf .pt (Request.current virt ((lower virt 12 + i) / pageSize)) ((virt + i) % 2 ^ 64) := by
  simp only [SameLeaf, Request.current, lower, pageSize, Level.fromBit]
  omega

/-- Once the page of a byte is mapped, the byte is translated like the guest translates it. -/
theorem hostTranslation_painted (hgr : granted t (Request.guest virt cr3 size).size = some (q, t'))
    (hh : Holds mm (painted mem (.guest virt cr3 size) A q (Request.guest virt cr3 size).count) t' s)
    (hi : (lower virt 12 + i) / pageSize < (Request.guest virt cr3 size).count)
    (hf : (guestWalk mem ((virt + i) % 2 ^ 64) (upper cr3 12)).frame = some found) :
    hostTranslation mm s.mmap (poolPage q + lower virt 12 + i) = some (translated ((virt + i) % 2 ^ 64) found) := by
  have same : SameLeaf .pt (poolPage q + lower virt 12 + i) (place q ((lower virt 12 + i) / pageSize)) := by
    have hbo := (granted_pages hgr hi).2
    rw [place_eq hgr hi]
    simp only [SameLeaf, poolPage, memMapPoolStart, memMapPoolK, pageSize, Level.fromBit] at hbo ⊢
    omega
  have ho : (poolPage q + lower virt 12 + i) % 4096 = (virt + i) % 2 ^ 64 % 4096 := by
    simp only [poolPage, memMapPoolStart, pageSize, lower]
    omega
  have walk : guestWalk mem (Request.current virt ((lower virt 12 + i) / pageSize)) (upper cr3 12) =
    guestWalk mem ((virt + i) % 2 ^ 64) (upper cr3 12) := guestWalk_congr (page_of_byte virt i) _
  have hsh : leafAt mm s.mmap (poolPage q + lower virt 12 + i) =
      some (hostLeaf (upper (translated (Request.current virt ((lower virt 12 + i) / pageSize)) found) 12) .writeBack) := by
    rw [hh.maps.refines.2, painted_place hi (fun i first j hs => place_apart hgr first hs) same,
      Request.leaf, Request.frame, walk, hf]
    rfl
  rw [hostTranslation, hsh]
  refine congrArg some ?_
  simp only [hostLeaf, leafEntry_physAddr]
  exact translated_of_page (guestWalk_frame_lt hf) (page_of_byte virt i) ho

/-- With the guest's page there and enough pages in the pool, what can keep a page from being mapped is a translation
that is there already. -/
theorem mappable_iff {virt cr3 size i : Nat} (hgr : granted t (Request.guest virt cr3 size).size = some (q, t'))
    (hs : Supplies 4 t') (less : i < (Request.guest virt cr3 size).count)
    (hp : (guestWalk mem (Request.current virt i) (upper cr3 12)).frame ≠ none) :
    Mappable mem (.guest virt cr3 size) A t' q i ↔
      A (place q i) = none ∧ Clear A (guestWalk mem (Request.current virt i) (upper cr3 12)).tables t' := by
  constructor
  · rintro ⟨-, hrd, hab, -⟩
    exact ⟨hab, (ready_iff.mp hrd).2⟩
  · rintro ⟨hab, clear⟩
    refine ⟨?_, ?_, hab, fun j hea same => ?_⟩
    · simp only [Request.frame, ne_eq, Option.map_eq_none_iff]
      exact hp
    · exact ready_iff.mpr ⟨hs.mono (guestWalk_tables_le _ _ _), clear⟩
    · have := place_apart hgr less (Nat.lt_trans hea less) same
      omega

end Gevisor.Host
