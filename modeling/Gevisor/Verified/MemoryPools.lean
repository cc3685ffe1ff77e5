import Gevisor.MemoryManager.HeapCalls

/-! # What clients of the memory manager can rely on -/

namespace Gevisor.Verified.MemoryPools

open Lib MemoryManager MemoryManager.BuddyAllocator
open MemoryManager.Heap (Keeps Buffers Answered giveBack)

/-- The memory manager, and the grants whose pointers have not been given back. -/
structure System where
  heap : Heap
  live : List HeapGrant

inductive Call
  | alloc (size : Nat)
  | allocPage
  | free (ptr : Nat)
  deriving DecidableEq, Repr

/-- The state after an answer; null pointers are no grants. -/
def System.answered (s : System) (r : Request) (ptr : Nat) (h : Heap) : System :=
  ⟨h, if ptr = 0 then s.live else ⟨ptr, r⟩ :: s.live⟩

/-- One call; only live pointers are given back. No state follows undefined behaviour. -/
def step (s : System) : Call → Option System
  | .alloc size => match Heap.alloc size s.heap with
    | .ok ptr h => some (s.answered (.alloc size) ptr h)
    | .error _ _ => none
  | .allocPage => match Heap.allocPage s.heap with
    | .ok ptr h => some (s.answered .allocPage ptr h)
    | .error _ _ => none
  | .free ptr => match s.live.find? fun g => g.ptr = ptr with
    | none => none
    | some g => match Heap.free ptr s.heap with
      | .ok _ h => some ⟨h, s.live.erase g⟩
      | .error _ _ => none

def boot (b c : Nat) (memory : Nat → BitVec 8) : System := ⟨Heap.boot b c memory, []⟩

/-- Only live pointers are given back, and the page pool has the pages that slabs need. -/
def Proper (s : System) : Call → Prop
  | .alloc size => Supplies (s.heap.demand size) s.heap.pages.pool
  | .allocPage => True
  | .free ptr => ptr ∈ s.live.map HeapGrant.ptr

/-- The live blocks are sound. -/
structure Sound (b c : Nat) (s : System) : Prop where
  apart : (s.live.map HeapGrant.block).Pairwise Block.Apart
  usable : ∀ g ∈ s.live, g.request.size ≤ g.block.length ∧ g.block.Inside (g.origin.buffer b c)
  size : ∀ g ∈ s.live, ∃ n, Heap.size g.ptr s.heap = .ok n s.heap ∧ g.request.size ≤ n
  home : ∀ g ∈ s.live, Heap.free g.ptr s.heap = giveBack g.origin g.ptr s.heap ∧
    ∃ h, giveBack g.origin g.ptr s.heap = .ok () h

variable {b c : Nat} {s s' : System} {t u : Buddy poolK}

/-- The pools follow the live grants. -/
def Followed (b c : Nat) (s : System) : Prop := ∃ t u, Keeps s.heap b c t u s.live

theorem sound_of_followed (hbu : Buffers b c) (hfw : Followed b c s) : Sound b c s := by
  obtain ⟨t, u, hkp⟩ := hfw
  refine ⟨Heap.live_apart hbu hkp, fun g hm => ?_, fun g hm => ?_, fun g hm => ?_⟩
  · exact ⟨hkp.usable g hm, Heap.block_inside_buffer hkp hm⟩
  · exact ⟨_, Heap.size_eq hbu hkp hm, hkp.usable g hm⟩
  · obtain ⟨h, hret, -⟩ := Heap.giveBack_spec hkp hm
    exact ⟨Heap.free_eq hbu hkp hm, h, hret⟩

theorem followed_answered (hfw : Followed b c s) {r : Request} {ptr : Nat} {h : Heap}
    (ha : Answered s.heap b c s.live r ptr h) : Followed b c (s.answered r ptr h) := by
  obtain ⟨null, same⟩ | ⟨hnn, ⟨t', u', hkp'⟩, -⟩ := ha
  · rw [System.answered, if_pos null, same]
    exact hfw
  · rw [System.answered, if_neg hnn]
    exact ⟨t', u', hkp'⟩

variable {call : Call} {size n : Nat}

/-- Proper calls return, and the pools follow. -/
theorem step_followed (hbu : Buffers b c) (hfw : Followed b c s) (hpp : Proper s call) :
    ∃ s', step s call = some s' ∧ Followed b c s' := by
  have hfw' := hfw
  obtain ⟨t, u, hkp⟩ := hfw'
  cases call with
  | alloc size =>
    have he := (supplies_iff hkp.pagePool _).mp hpp
    have hn (e : Failure) (h : Heap) (hfa : e = .nullDereference ∧ 2 ^ poolK < t.inUse + s.heap.demand size) : False :=
      Nat.not_lt.mpr he hfa.2
    obtain ⟨ptr, h, hret, ha, -⟩ := exists_of_wp (wp_mono (fun _ _ post => post) hn (Heap.wp_alloc hkp hbu size))
    refine ⟨_, ?_, followed_answered hfw ha⟩
    simp only [step, hret]
  | allocPage =>
    obtain ⟨ptr, h, hret, ha⟩ := exists_of_wp (Heap.wp_alloc_page hkp (r := .allocPage) rfl)
    refine ⟨_, ?_, followed_answered hfw ha⟩
    have hret' : Heap.allocPage s.heap = .ok ptr h := hret
    simp only [step, hret']
  | free ptr =>
    cases hf : s.live.find? fun g => g.ptr = ptr with
    | none =>
      obtain ⟨g, hm, same⟩ := List.mem_map.mp hpp
      exact absurd (decide_eq_true same) (List.find?_eq_none.mp hf g hm)
    | some g =>
      have hm := List.mem_of_find?_eq_some hf
      have same : g.ptr = ptr := of_decide_eq_true (List.find?_some (p := fun g : HeapGrant => decide (g.ptr = ptr)) hf)
      obtain ⟨h, hret, kept, -⟩ := Heap.giveBack_spec hkp hm
      rw [← Heap.free_eq hbu hkp hm, same] at hret
      refine ⟨⟨h, s.live.erase g⟩, ?_, kept⟩
      simp only [step, hf, hret]

/-- Every sequence of proper calls gets to its end, and the live blocks are sound there. -/
theorem pools_sound (buffers : Buffers b c) (memory : Nat → BitVec 8) {calls : List Call}
    (proper : AllSteps step Proper (boot b c memory) calls) :
    ∃ s, run step (boot b c memory) calls = some s ∧ Sound b c s := by
  obtain ⟨s, reach, followed⟩ := exists_run_of_progress (I := Followed b c)
    (fun _ _ followed proper => step_followed buffers followed proper) ⟨_, _, Heap.boot_keeps buffers memory⟩ proper
  exact ⟨s, reach, sound_of_followed buffers followed⟩

theorem buffers_apart : Buffers 0x10000000 0x20000000 := by
  refine ⟨by decide, by decide, by decide, by decide, .inl ?_⟩
  decide

theorem supplies_of_keeps (hkp : Keeps s.heap b c t u s.live)
    (room : t.inUse + s.heap.demand size ≤ 2 ^ poolK) : Supplies (s.heap.demand size) s.heap.pages.pool := by
  rw [supplies_iff hkp.pagePool]
  exact room

theorem proper_pair (hkp : Keeps s.heap b c t u s.live) (room : t.inUse + s.heap.demand 0x20 ≤ 2 ^ poolK) :
    AllSteps step Proper s [.alloc 0x20, .allocPage] :=
  ⟨supplies_of_keeps hkp room, fun _ _ => ⟨trivial, fun _ _ => trivial⟩⟩

theorem pools_sound_pair : ∃ s, run step (boot 0x10000000 0x20000000 fun _ => 0) [.alloc 0x20, .allocPage] = some s ∧
      Sound 0x10000000 0x20000000 s := by
  have proper : AllSteps step Proper (boot 0x10000000 0x20000000 fun _ => 0) [.alloc 0x20, .allocPage] :=
    proper_pair (Heap.boot_keeps buffers_apart fun _ => 0) (by decide)
  exact pools_sound buffers_apart (fun _ => 0) proper

/-! ## Exhaustion -/

/-- `alloc` takes a page that is not there if and only if it faults. -/
theorem alloc_faults (hbu : Buffers b c) (hfw : Followed b c s)
    (hs : ¬ Supplies (s.heap.demand size) s.heap.pages.pool) :
    ∃ h, Heap.alloc size s.heap = .error .nullDereference h := by
  obtain ⟨t, u, hkp⟩ := hfw
  rw [supplies_iff hkp.pagePool] at hs
  have ends := Heap.wp_alloc hkp hbu size
  rw [wp] at ends
  cases hres : Heap.alloc size s.heap with
  | ok ptr h =>
    rw [hres] at ends
    exact absurd ends.2.1 hs
  | error e h =>
    rw [hres] at ends
    rw [ends.1]
    exact ⟨h, rfl⟩

/-- Steps are calls that are proper. -/
theorem proper_of_step (hbu : Buffers b c) (hfw : Followed b c s) (next : step s call = some s') :
    Proper s call := by
  cases call with
  | alloc size =>
    by_contra hs
    obtain ⟨h, hfa⟩ := alloc_faults hbu hfw hs
    simp only [step, hfa] at next
    cases next
  | allocPage => trivial
  | free ptr =>
    simp only [step] at next
    cases hf : s.live.find? fun g => g.ptr = ptr with
    | none =>
      rw [hf] at next
      cases next
    | some g =>
      have same : g.ptr = ptr := of_decide_eq_true (List.find?_some (p := fun g : HeapGrant => decide (g.ptr = ptr)) hf)
      exact List.mem_map.mpr ⟨g, List.mem_of_find?_eq_some hf, same⟩

theorem followed_of_run (hbu : Buffers b c) {memory : Nat → BitVec 8} {calls : List Call}
    (hre : run step (boot b c memory) calls = some s) : Followed b c s := by
  refine run_preserves (I := Followed b c) (fun s call s' hfw next => ?_) ⟨_, _, Heap.boot_keeps hbu memory⟩ hre
  obtain ⟨s'', same, hfw'⟩ := step_followed hbu hfw (proper_of_step hbu hfw next)
  cases next.symm.trans same
  exact hfw'

/-- A request is refused with the null pointer: nothing outside of the pools is written, and the live blocks keep their
contents and can be given back. -/
def Refused (b c : Nat) (s : System) (size : Nat) : Prop :=
  ∃ h, Heap.alloc size s.heap = .ok 0 h ∧
    (∀ x, ¬ (Origin.page.buffer b c).Has x → ¬ (Origin.huge.buffer b c).Has x → h.pages.memory x = s.heap.pages.memory x) ∧
    ∀ g ∈ s.live, (∀ x, g.block.Has x → h.pages.memory x = s.heap.pages.memory x) ∧
      ∃ h', Heap.free g.ptr h = .ok () h'

/-- Requests for which the slab needs pages that the page pool does not have are never refused. -/
theorem exhaustion_reported_iff (buffers : Buffers b c) {memory : Nat → BitVec 8} {calls : List Call}
    (reach : run step (boot b c memory) calls = some s) (size : Nat) :
    (¬ Supplies (s.heap.demand size) s.heap.pages.pool → Refused b c s size) ↔
      Supplies (s.heap.demand size) s.heap.pages.pool := by
  constructor
  · intro refused
    by_contra short
    obtain ⟨h, returns, -⟩ := refused short
    obtain ⟨h', faults⟩ := alloc_faults buffers (followed_of_run buffers reach) short
    rw [faults] at returns
    cases returns
  · exact fun enough short => absurd enough short

theorem boot_reports : Supplies ((boot 0x10000000 0x20000000 fun _ => 0).heap.demand 0x20)
      (boot 0x10000000 0x20000000 fun _ => 0).heap.pages.pool ∧
    (¬ Supplies ((boot 0x10000000 0x20000000 fun _ => 0).heap.demand 0x20)
      (boot 0x10000000 0x20000000 fun _ => 0).heap.pages.pool →
      Refused 0x10000000 0x20000000 (boot 0x10000000 0x20000000 fun _ => 0) 0x20) := by
  have start : run step (boot 0x10000000 0x20000000 fun _ => 0) [] = some (boot 0x10000000 0x20000000 fun _ => 0) := rfl
  have room : (Buddy.free : Buddy poolK).inUse + (boot 0x10000000 0x20000000 fun _ => 0).heap.demand 0x20 ≤ 2 ^ poolK := by
    decide
  have enough := supplies_of_keeps (Heap.boot_keeps buffers_apart fun _ => 0) room
  rw [exhaustion_reported_iff buffers_apart start]
  exact ⟨enough, enough⟩

/-- `n` pages have been handed out, and none to a slab. -/
structure Drained (b c n : Nat) (s : System) : Prop where
  followed : Followed b c s
  pages : (ptrs s.live .page).length = n
  slabs : ∀ id, s.heap.slabs id = ObjectAllocator.empty id.objectSize 0

theorem Drained.inUse (hd : Drained b c n s) (hkp : Keeps s.heap b c t u s.live) : t.inUse = n := by
  have none : s.heap.slabPages = [] := by
    refine List.flatMap_eq_nil_iff.mpr fun id _ => ?_
    rw [hd.slabs id]
    rfl
  have hc := inUse_of_pages hkp.pages
  rw [none, List.append_nil, hd.pages] at hc
  exact hc

/-- Pages are handed out until there are none left. -/
theorem Drained.page (hd : Drained b c n s) (room : n < 2 ^ poolK) :
    ∃ s', step s .allocPage = some s' ∧ Drained b c (n + 1) s' := by
  obtain ⟨t, u, hkp⟩ := hd.followed
  have hc := hd.inUse hkp
  have spec := PageMemory.allocPage_spec hkp.pagePool
  obtain ⟨ptr, h, hret, ha⟩ := exists_of_wp (Heap.wp_alloc_page hkp (r := .allocPage) rfl)
  have hret' : Heap.allocPage s.heap = .ok ptr h := hret
  cases htk : t.take 0 with
  | none =>
    have full := t.take_zero_eq_none_iff.mp htk
    omega
  | some hf =>
    rw [htk] at spec
    obtain ⟨a, page, -⟩ := spec
    have pos := hkp.pagePool.pos
    simp only [Heap.onPages, zoom, page] at hret
    cases hret
    have hnn : b + pageSize * hf.1 ≠ 0 := by omega
    refine ⟨_, ?_, followed_answered hd.followed ha, ?_, hd.slabs⟩
    · simp only [step, hret']
    · have ho : (⟨b + pageSize * hf.1, .allocPage⟩ : HeapGrant).origin = .page := rfl
      rw [System.answered, if_neg hnn, ptrs, grants_cons_same ho, List.map_cons, List.length_cons]
      exact congrArg (· + 1) hd.pages

theorem Drained.run (m : Nat) (hd : Drained b c n s) (room : n + m ≤ 2 ^ poolK) :
    ∃ s', run step s (List.replicate m .allocPage) = some s' ∧ Drained b c (n + m) s' := by
  induction m generalizing n s with
  | zero => exact ⟨s, rfl, hd⟩
  | succ m ih =>
    obtain ⟨s₁, first, hd₁⟩ := hd.page (by omega)
    obtain ⟨s₂, rest, hd₂⟩ := ih hd₁ (by omega)
    rw [show n + 1 + m = n + (m + 1) by omega] at hd₂
    exact ⟨s₂, run_cons.mpr ⟨s₁, first, rest⟩, hd₂⟩

/-- With all pages handed out, a request for sixteen bytes clears a page at address zero. -/
theorem exhausted_alloc_faults :
    ∃ s, run step (boot 0x10000000 0x20000000 fun _ => 0) (List.replicate (2 ^ poolK) .allocPage) = some s ∧
      ¬ Supplies (s.heap.demand 0x10) s.heap.pages.pool ∧
      ∃ h, Heap.alloc 0x10 s.heap = .error .nullDereference h := by
  have start : Drained 0x10000000 0x20000000 0 (boot 0x10000000 0x20000000 fun _ => 0) :=
    ⟨⟨_, _, Heap.boot_keeps buffers_apart fun _ => 0⟩, rfl, fun _ => rfl⟩
  obtain ⟨s, reach, drained⟩ := start.run (2 ^ poolK) (by rw [Nat.zero_add])
  obtain ⟨t, u, keeps⟩ := drained.followed
  have needs : s.heap.demand 0x10 = 4 := by
    rw [Heap.demand, if_neg (by decide), show Heap.slabFor 0x10 = some .slab010 from rfl]
    simp only [drained.slabs]
    rfl
  have short : ¬ Supplies (s.heap.demand 0x10) s.heap.pages.pool := by
    rw [supplies_iff keeps.pagePool, drained.inUse keeps, needs]
    omega
  exact ⟨s, reach, short, alloc_faults buffers_apart drained.followed short⟩

end Gevisor.Verified.MemoryPools
