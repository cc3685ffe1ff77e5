import Gevisor.Verified.MemoryPools

/-! # Reallocation -/

namespace Gevisor.Verified.Reallocation

open Lib MemoryManager MemoryManager.BuddyAllocator MemoryPools
open MemoryManager.Heap (Keeps Buffers Answered giveBack)

variable {b c : Nat} {s : System} {t u : Buddy poolK} {ptr size : Nat}

variable {h : Heap} {g : HeapGrant} {p : Nat}

/-- The pointer is null or live. -/
def Valid (s : System) (ptr : Nat) : Prop := ptr = 0 ∨ ∃ g ∈ s.live, g.ptr = ptr

/-- The grants that do not start at `ptr`. -/
def others (s : System) (ptr : Nat) : List HeapGrant := match s.live.find? fun g => g.ptr = ptr with
  | some g => s.live.erase g
  | none => s.live

/-- The length of the block at `ptr`. -/
def oldSize (s : System) (ptr : Nat) : Nat := match s.live.find? fun g => g.ptr = ptr with
  | some g => g.block.length
  | none => 0

/-- The blocks of `live` have the same contents as before. -/
def Unchanged (s : System) (live : List HeapGrant) (h : Heap) : Prop :=
  ∀ g ∈ live, ∀ x, g.block.Has x → h.pages.memory x = s.heap.pages.memory x

/-- Nothing has happened. -/
def Kept (b c : Nat) (s : System) (h : Heap) : Prop := Followed b c ⟨h, s.live⟩ ∧ Unchanged s s.live h

/-- The block at `ptr` has been replaced by one of `size` bytes at `p`, with its contents. -/
structure Moved (b c : Nat) (s : System) (ptr size p : Nat) (h : Heap) : Prop where
  followed : Followed b c ⟨h, ⟨p, .alloc size⟩ :: others s ptr⟩
  large : size ≤ (⟨p, .alloc size⟩ : HeapGrant).block.length
  contents : ∀ i, i < size → i < oldSize s ptr → h.pages.memory (p + i) = s.heap.pages.memory (ptr + i)
  unchanged : Unchanged s (others s ptr) h

/-- What `_realloc_r` is expected to do. -/
def Correct (b c : Nat) (s : System) (ptr size : Nat) : Prop :=
  ∃ p h, Heap.reallocR ptr size s.heap = .ok p h ∧
    (p = 0 ∧ Kept b c s h ∨ p ≠ 0 ∧ Moved b c s ptr size p h) ∧
    (ptr = 0 → (p ≠ 0 ↔ ∃ q h', Heap.alloc size s.heap = .ok q h' ∧ q ≠ 0))

/-- The null pointer gets nothing, whether there is memory or not. -/
theorem realloc_null (hfw : Followed b c s) (hret : Heap.alloc size s.heap = .ok p h) :
    Heap.reallocR 0 size s.heap = .ok 0 h := by
  obtain ⟨t, u, hkp⟩ := hfw
  rw [Heap.reallocR, bind_of_ok (Heap.size_null hkp), bind_of_ok hret, if_pos (.inr rfl)]
  rfl

theorem realloc_refused (hbu : Buffers b c) (hkp : Keeps s.heap b c t u s.live) (hm : g ∈ s.live)
    (hret : Heap.alloc size s.heap = .ok 0 h) : Heap.reallocR g.ptr size s.heap = .ok 0 h := by
  rw [Heap.reallocR, bind_of_ok (Heap.size_eq hbu hkp hm), bind_of_ok hret, if_pos (.inl rfl)]
  rfl

theorem realloc_moves (hbu : Buffers b c) (hkp : Keeps s.heap b c t u s.live) (hm : g ∈ s.live)
    (hf : (s.live.find? fun g' => g'.ptr = g.ptr) = some g)
    (hret : Heap.alloc size s.heap = .ok p h) (hnn : p ≠ 0) {t' u' : Buddy poolK}
    (hkp' : Keeps h b c t' u' (⟨p, .alloc size⟩ :: s.live)) (hu : Unchanged s s.live h) :
    ∃ h', Heap.reallocR g.ptr size s.heap = .ok p h' ∧ Moved b c s g.ptr size p h' := by
  have hfi := Heap.block_filled hkp hm
  have hl : size ≤ (⟨p, .alloc size⟩ : HeapGrant).block.length := hkp'.usable _ List.mem_cons_self
  have hap := Heap.live_apart hbu hkp'
  rw [List.map_cons] at hap
  have away {g' : HeapGrant} (old : g' ∈ s.live) : Block.Apart (⟨p, .alloc size⟩ : HeapGrant).block g'.block :=
    (List.pairwise_cons.mp hap).1 _ (List.mem_map_of_mem old)
  have ho : (⟨p, .alloc size⟩ : HeapGrant) ≠ g := by
    intro same
    have self := away hm
    rw [same] at self
    simp only [Block.Apart] at self
    omega
  -- The copy, and then the old block is given back.
  have hc := Heap.keeps_memory hkp'
    (memcpy p g.ptr (if g.block.length < size then g.block.length else size) h.pages.memory)
  have hm' : g ∈ (⟨p, .alloc size⟩ : HeapGrant) :: s.live := List.mem_cons_of_mem _ hm
  obtain ⟨h', hg, ⟨t'', u'', hkp''⟩, hme⟩ := Heap.giveBack_spec hc hm'
  rw [← Heap.free_eq hbu hc hm'] at hg
  rw [List.erase_cons_tail (by simpa using ho)] at hkp''
  refine ⟨h', ?_, ?_⟩
  · have hmo : Heap.moveTo p g.ptr (if g.block.length < size then g.block.length else size) h = .ok () h' := by
      rw [Heap.moveTo]
      exact hg
    rw [Heap.reallocR, bind_of_ok (Heap.size_eq hbu hkp hm), bind_of_ok hret, if_neg (by omega),
      if_pos (Heap.ptr_ne_zero hkp hm), bind_of_ok hmo]
    rfl
  · refine ⟨?_, hl, fun i hinn hin => ?_, ?_⟩
    · rw [others, hf]
      exact ⟨t'', u'', hkp''⟩
    · rw [oldSize, hf] at hin
      have hi : p ≤ p + i ∧ p + i < p + (if g.block.length < size then g.block.length else size) := by
        simp only at hin
        split <;> omega
      rw [hme]
      simp only [memcpy, if_pos hi, Nat.add_sub_cancel_left]
      refine hu g hm _ ⟨Nat.le_add_right _ _, ?_⟩
      exact Nat.add_lt_add_left hin _
    · rw [others, hf]
      intro g' rest x has
      have old := List.mem_of_mem_erase rest
      have hout : ¬ (p ≤ x ∧ x < p + (if g.block.length < size then g.block.length else size)) := by
        intro hi
        refine (away old).symm.not_has has ⟨hi.1, ?_⟩
        have hs : (if g.block.length < size then g.block.length else size) ≤ size := by split <;> omega
        simp only [HeapGrant.block] at hl ⊢
        omega
      rw [hme]
      simp only [memcpy, if_neg hout]
      exact hu g' old x has

theorem kept_of_same (hfw : Followed b c s) (same : h = s.heap) : Kept b c s h := by
  rw [same]
  exact ⟨hfw, fun _ _ _ _ => rfl⟩

/-- Live pointers are treated correctly. -/
theorem correct_of_live (hbu : Buffers b c) (hfw : Followed b c s) (hm : g ∈ s.live)
    (hf : (s.live.find? fun g' => g'.ptr = g.ptr) = some g)
    (hret : Heap.alloc size s.heap = .ok p h) (ha : Answered s.heap b c s.live (.alloc size) p h) :
    Correct b c s g.ptr size := by
  have hfw' := hfw
  obtain ⟨t, u, hkp⟩ := hfw'
  have hnn := Heap.ptr_ne_zero hkp hm
  obtain ⟨rfl, same⟩ | ⟨new, ⟨t', u', hkp'⟩, hu⟩ := ha
  · exact ⟨0, h, realloc_refused hbu hkp hm hret, .inl ⟨rfl, kept_of_same hfw same⟩, fun null => absurd null hnn⟩
  · obtain ⟨h', hmv, hmo⟩ := realloc_moves hbu hkp hm hf hret new hkp' hu
    exact ⟨p, h', hmv, .inr ⟨new, hmo⟩, fun null => absurd null hnn⟩

/-- For the null pointer nothing but a failed allocation is treated correctly. -/
theorem correct_null_iff (hfw : Followed b c s) (hret : Heap.alloc size s.heap = .ok p h)
    (ha : Answered s.heap b c s.live (.alloc size) p h) : Correct b c s 0 size ↔ p = 0 := by
  have hres := realloc_null hfw hret
  constructor
  · rintro ⟨p', h', hret', -, exact_⟩
    rw [hres] at hret'
    cases hret'
    by_contra hs
    exact (exact_ rfl).mpr ⟨p, h, hret, hs⟩ rfl
  · rintro rfl
    obtain ⟨-, same⟩ | ⟨new, -⟩ := ha
    · refine ⟨0, h, hres, .inl ⟨rfl, kept_of_same hfw same⟩, fun _ => ?_⟩
      refine iff_of_false (fun ho => ho rfl) ?_
      rintro ⟨q, h', hret', hs⟩
      rw [hret] at hret'
      cases hret'
      exact hs rfl
    · exact absurd rfl new

/-- Reallocation is correct if and only if the slab gets the pages it needs and the pointer is not null, or there is no
memory for it. -/
theorem realloc_correct_iff (buffers : Buffers b c) {memory : Nat → BitVec 8} {calls : List MemoryPools.Call}
    (reach : run step (boot b c memory) calls = some s) (valid : Valid s ptr) (size : Nat) :
    Correct b c s ptr size ↔ Supplies (s.heap.demand size) s.heap.pages.pool ∧
      (ptr ≠ 0 ∨ ∃ h, Heap.alloc size s.heap = .ok 0 h) := by
  have followed := followed_of_run buffers reach
  have followed' := followed
  obtain ⟨t, u, keeps⟩ := followed'
  by_cases enough : Supplies (s.heap.demand size) s.heap.pages.pool
  · have room := (supplies_iff keeps.pagePool _).mp enough
    have never (e : Failure) (h : Heap) (fault : e = .nullDereference ∧ 2 ^ poolK < t.inUse + s.heap.demand size) : False :=
      Nat.not_lt.mpr room fault.2
    obtain ⟨p, h, returns, answered, -⟩ := exists_of_wp (wp_mono (fun _ _ post => post) never
      (Heap.wp_alloc keeps buffers size))
    obtain rfl | ⟨g, member, same⟩ := valid
    · rw [correct_null_iff followed returns answered]
      constructor
      · rintro rfl
        exact ⟨enough, .inr ⟨h, returns⟩⟩
      · rintro ⟨-, other | ⟨h', returns'⟩⟩
        · exact absurd rfl other
        · rw [returns] at returns'
          cases returns'
          rfl
    · cases found : s.live.find? fun g' => g'.ptr = ptr with
      | none => exact absurd (decide_eq_true same) (List.find?_eq_none.mp found g member)
      | some g' =>
        have start : g'.ptr = ptr := of_decide_eq_true
          (List.find?_some (p := fun g : HeapGrant => decide (g.ptr = ptr)) found)
        have member' := List.mem_of_find?_eq_some found
        rw [← start] at found ⊢
        refine iff_of_true (correct_of_live buffers followed member' found returns answered) ⟨enough, .inl ?_⟩
        exact Heap.ptr_ne_zero keeps member'
  · obtain ⟨h, faults⟩ := alloc_faults buffers followed enough
    refine iff_of_false ?_ fun both => enough both.1
    rintro ⟨p, h', returns, -⟩
    have known : ∃ n, Heap.size ptr s.heap = .ok n s.heap := by
      obtain rfl | ⟨g, member, rfl⟩ := valid
      · exact ⟨0, Heap.size_null keeps⟩
      · exact ⟨_, Heap.size_eq buffers keeps member⟩
    obtain ⟨n, sized⟩ := known
    rw [Heap.reallocR, bind_of_ok sized, bind_of_error faults] at returns
    cases returns

theorem demand_huge (h : Heap) : h.demand 0x3000 = 0 := by
  rw [Heap.demand, if_neg (by decide), show Heap.slabFor 0x3000 = none from rfl]

/-- A page becomes three pages. -/
theorem realloc_grows : ∃ s p, run step (boot 0x10000000 0x20000000 fun _ => 0) [.allocPage] = some s ∧
    Valid s p ∧ p ≠ 0 ∧ Correct 0x10000000 0x20000000 s p 0x3000 := by
  have start : Drained 0x10000000 0x20000000 0 (boot 0x10000000 0x20000000 fun _ => 0) :=
    ⟨⟨_, _, Heap.boot_keeps buffers_apart fun _ => 0⟩, rfl, fun _ => rfl⟩
  obtain ⟨s, reach, drained⟩ := start.run 1 (by decide)
  obtain ⟨t, u, keeps⟩ := drained.followed
  obtain ⟨p, held⟩ := List.exists_mem_of_length_pos (show 0 < (ptrs s.live .page).length by rw [drained.pages]; decide)
  obtain ⟨g, member, same⟩ := List.mem_map.mp held
  have live := (mem_grants.mp member).1
  have nonNull : p ≠ 0 := same ▸ Heap.ptr_ne_zero keeps live
  have valid : Valid s p := .inr ⟨g, live, same⟩
  refine ⟨s, p, reach, valid, nonNull, ?_⟩
  rw [realloc_correct_iff buffers_apart reach valid]
  exact ⟨supplies_of_keeps keeps (by rw [demand_huge]; exact t.inUse_le), .inl nonNull⟩

theorem realloc_null_wrong (hbu : Buffers b c) (hkp : Keeps s.heap b c t u s.live) (hfi : size ≠ 0)
    (slab : Heap.slabFor size ≠ none) (room : t.inUse + s.heap.demand size ≤ 2 ^ poolK) :
    ∃ q h, q ≠ 0 ∧ Heap.alloc size s.heap = .ok q h ∧ Heap.reallocR 0 size s.heap = .ok 0 h ∧ ¬ Correct b c s 0 size := by
  have hn (e : Failure) (h : Heap) (hf : e = .nullDereference ∧ 2 ^ poolK < t.inUse + s.heap.demand size) : False :=
    Nat.not_lt.mpr room hf.2
  obtain ⟨q, h, hret, ha, -, hs⟩ := exists_of_wp (wp_mono (fun _ _ post => post) hn (Heap.wp_alloc hkp hbu size))
  have hfw : Followed b c s := ⟨t, u, hkp⟩
  refine ⟨q, h, hs hfi slab, hret, realloc_null hfw hret, ?_⟩
  rw [correct_null_iff hfw hret ha]
  exact hs hfi slab

/-- `realloc(NULL, n)` returns the null pointer although there is memory, and a block is lost. -/
theorem realloc_of_null_fails : ∃ s, run step (boot 0x10000000 0x20000000 fun _ => 0) [] = some s ∧
    ∃ q h, q ≠ 0 ∧ Heap.alloc 0x20 s.heap = .ok q h ∧ Heap.reallocR 0 0x20 s.heap = .ok 0 h ∧
      ¬ Correct 0x10000000 0x20000000 s 0 0x20 := by
  have keeps := Heap.boot_keeps buffers_apart fun _ => 0
  have room : (Buddy.free : Buddy poolK).inUse + (Heap.boot 0x10000000 0x20000000 fun _ => 0).demand 0x20 ≤ 2 ^ poolK := by
    decide
  have fails := realloc_null_wrong (s := boot 0x10000000 0x20000000 fun _ => 0) buffers_apart keeps (by decide) (by decide) room
  exact ⟨_, rfl, fails⟩

end Gevisor.Verified.Reallocation
