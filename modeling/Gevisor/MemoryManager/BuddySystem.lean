import Gevisor.Lib.Transition
import Gevisor.MemoryManager.BuddyRefinement

/-! # Clients of the buddy allocator

The public functions in terms of the buddy system, and the allocator together with the blocks that its
client holds.
-/

namespace Gevisor.MemoryManager

open Lib

namespace BuddyAllocator

/-- `a` manages `2 ^ k` pages from `b` on, divided like `t`. -/
structure Tracks (a : BuddyAllocator) (b k : Nat) (t : Buddy k) : Prop where
  holds : ∃ lay : Layout k, lay.node = a.root ∧ Holds a lay t b
  buffer : a.buffer = b
  size : a.bufferSize = pageSize * 2 ^ k
  deep : k < a.room
  normal : t.Normal
  pos : 0 < b
  addressable : Addressable k b

variable {a : BuddyAllocator} {b k : Nat} {t : Buddy k}

theorem bufferSizeOf_eq {k : Nat} (hbo : b + pageSize * 2 ^ k < 2 ^ 64) : bufferSizeOf k = pageSize * 2 ^ k := by
  rw [bufferSizeOf, Nat.mul_comm, Nat.mod_eq_of_lt (by omega)]

/-- From 2⁶⁰ bytes on the size does not fit next to the type. -/
theorem small_iff (k : Nat) : pageSize * 2 ^ k < 2 ^ 60 ↔ k < 48 := by
  rw [show pageSize = 2 ^ 12 from rfl, ← Nat.pow_add, Nat.pow_lt_pow_iff_right (by decide)]
  omega

theorem construct_tracks (pos : 0 < b) (hbo : b + pageSize * 2 ^ k < 2 ^ 64) (hs : k < 48) :
    Tracks (construct b k) b k .free := by
  have size := bufferSizeOf_eq hbo
  have fits := (small_iff k).mpr hs
  have many : k < 2 ^ k := Nat.lt_two_pow_self
  have hc : nodeTreeSize k = (2 * 2 ^ k - 1) * nodeSize := by
    have : 2 ^ k ≤ 2 ^ 47 := Nat.pow_le_pow_right (by decide) (Nat.le_of_lt_succ hs)
    rw [nodeTreeSize, Nat.mod_eq_of_lt]
    show (2 * 2 ^ k - 1) * 32 < 2 ^ 64
    omega
  have room : nodeTreeSize k / nodeSize = 2 * 2 ^ k - 1 := by rw [hc, Nat.mul_div_cancel _ (by decide)]
  refine ⟨⟨.tip 0, rfl, holds_tip ?_ ?_ ?_ ?_ ?_ ?_⟩, rfl, size, ?_, trivial, pos, fits, hbo⟩
  · rw [construct, writeNode_same]
    exact describes_ofNat rfl (by rw [size]) fits
  · rw [construct, writeNode_same]
    rfl
  · exact Nat.one_pos
  · intro j hb
    exact writeNode_other (Nat.ne_of_gt hb) _
  · show 1 + (2 ^ (k + 1) - 2) ≤ nodeTreeSize k / nodeSize
    rw [room, Nat.two_pow_succ]
    omega
  · exact Nat.div_le_self _ _
  · show k < nodeTreeSize k / nodeSize
    omega

/-- The length of the block for `size` bytes. -/
def blockLength (size : Nat) : Nat := nextPower2 (max size pageSize)

/-- The allocator keeps to its buffer size: `take` is asked for at most the whole. -/
theorem Tracks.blockLength_eq (htr : Tracks a b k t) {size : Nat} (fits : size ≤ pageSize * 2 ^ k) :
    blockLength size = pageSize * 2 ^ levelFor size ∧ levelFor size ≤ k :=
  nextPower2_page fits (by have := htr.addressable.1; omega)

theorem allocate_spec (htr : Tracks a b k t) (size : Nat) :
    if size = 0 ∨ pageSize * 2 ^ k < size then allocate size a = .error .badAlloc a
    else match t.take (levelFor size) with
      | none => allocate size a = .error .badAlloc a
      | some (q, t') => ∃ a', allocate size a = .ok (b + pageSize * q) a' ∧ Tracks a' b k t' := by
  have hst : allocate size a = (if a.bufferSize < size ∨ size = 0 then throw .badAlloc else do
      let ptr ← privateAllocate a.room (nextPower2 (max size pageSize)) a.root
      if ptr ≠ 0 then pure ptr else throw .badAlloc : BuddyM Nat) a := rfl
  rw [hst, htr.size]
  split
  · next hrfd =>
    rw [if_pos hrfd.symm]
    rfl
  · next hacc =>
    rw [not_or, Nat.not_lt] at hacc
    rw [if_neg (by omega)]
    obtain ⟨lay, root, hh⟩ := htr.holds
    obtain ⟨hl, hle⟩ := htr.blockLength_eq hacc.2
    have hs := privateAllocate_spec htr.deep hle htr.pos htr.addressable hh
    rw [root, ← hl, blockLength] at hs
    obtain ⟨p, a', hret, ha⟩ := exists_of_wp hs
    rw [bind_of_ok hret]
    have pos := htr.pos
    rw [Allocated] at ha
    cases htk : t.take (levelFor size) with
    | none =>
      rw [htk] at ha
      obtain ⟨rfl, rfl⟩ := ha
      rfl
    | some hf =>
      rw [htk] at ha
      obtain ⟨rfl, lay', hgw, hg⟩ := ha
      refine ⟨a', by rw [if_pos (by omega)]; rfl, ⟨lay', ?_, hg⟩, ?_, ?_, ?_, ?_, pos, htr.addressable⟩
      · rw [hgw.node, root, hgw.same]
      · rw [hgw.same]; exact htr.buffer
      · rw [hgw.same]; exact htr.size
      · rw [hgw.same]; exact htr.deep
      · exact (Buddy.normal_take htr.normal htk).1

theorem deallocate_spec (htr : Tracks a b k t) {ptr : Nat} (hnn : ptr ≠ 0) : match t.give (pageAt b ptr) with
    | none => deallocate ptr a = .ok () a
    | some t' => ∃ a', deallocate ptr a = .ok () a' ∧ Tracks a' b k t' := by
  have hs : deallocate ptr a = (if ptr = 0 then pure () else do
      let _ ← privateDeallocate a.room ptr a.root
      pure () : BuddyM Unit) a := rfl
  obtain ⟨lay, root, hh⟩ := htr.holds
  have hgv : wp (privateDeallocate a.room ptr lay.node) _ _ a := privateDeallocate_spec htr.deep htr.addressable hh
  rw [root] at hgv
  obtain ⟨res, a', hret, hd⟩ := exists_of_wp hgv
  rw [hs, if_neg hnn, bind_of_ok hret]
  rw [Deallocated] at hd
  cases hgi : t.give (pageAt b ptr) with
  | none =>
    rw [hgi] at hd
    obtain ⟨-, rfl⟩ := hd
    rfl
  | some t' =>
    rw [hgi] at hd
    obtain ⟨-, hgw, hg⟩ := hd
    refine ⟨a', rfl, ⟨lay, ?_, hg⟩, ?_, ?_, ?_, ?_, htr.pos, htr.addressable⟩
    · rw [root, hgw.same]
    · rw [hgw.same]; exact htr.buffer
    · rw [hgw.same]; exact htr.size
    · rw [hgw.same]; exact htr.deep
    · exact Buddy.normal_give htr.normal hgi

theorem size_spec (htr : Tracks a b k t) {ptr : Nat} (hnn : ptr ≠ 0) :
    size ptr a = .ok (levelSize (t.levelAt (pageAt b ptr))) a := by
  have hs : size ptr a = (if ptr = 0 then pure 0 else privateSize a.room ptr a.root : BuddyM Nat) a := rfl
  obtain ⟨lay, root, hh⟩ := htr.holds
  have hr : wp (privateSize a.room ptr lay.node) _ _ a := privateSize_spec htr.deep htr.addressable hh
  rw [root] at hr
  obtain ⟨size, a', hret, rfl, rfl⟩ := exists_of_wp hr
  rw [hs, if_neg hnn, hret]

end BuddyAllocator

/-! ## The blocks a client holds -/

open BuddyAllocator

/-- A request for `size` bytes that `ptr` has been handed out for. -/
structure Grant where
  ptr : Nat
  size : Nat
  deriving DecidableEq, Repr

/-- Start and length of the block. -/
def Grant.block (grant : Grant) : Nat × Nat := (grant.ptr, blockLength grant.size)

/-- The allocator, and the grants whose blocks have not been given back. -/
structure Client where
  allocator : BuddyAllocator
  live : List Grant

inductive Call
  | allocate (size : Nat)
  | deallocate (ptr : Nat)
  deriving DecidableEq, Repr

namespace Client

def boot (b k : Nat) : Client := ⟨construct b k, []⟩

/-- One call; pointers are given back only if they are live. No state follows undefined behaviour. -/
def step (s : Client) : Call → Option Client
  | .allocate size => match allocate size s.allocator with
    | .ok ptr a => some ⟨a, ⟨ptr, size⟩ :: s.live⟩
    | .error .badAlloc a => some { s with allocator := a }
    | .error _ _ => none
  | .deallocate ptr => if ptr ∈ s.live.map Grant.ptr then
      match deallocate ptr s.allocator with
      | .ok _ a => some ⟨a, s.live.filter fun grant => grant.ptr ≠ ptr⟩
      | .error _ _ => none
    else none

/-- Where a block of the buddy system is in a buffer at `b`. -/
def place (b : Nat) (unit : Nat × Nat) : Nat × Nat := (b + pageSize * unit.1, pageSize * 2 ^ unit.2)

/-- The live blocks are those in use in the tree `t`. -/
structure Follows (s : Client) (b k : Nat) (t : Buddy k) : Prop where
  tracks : Tracks s.allocator b k t
  blocks : (s.live.map Grant.block).Perm ((t.blocks 0).map (place b))

variable {s s' : Client} {b k : Nat} {t : Buddy k}

/-- Every live block is one of the tree. -/
theorem Follows.unit (hfl : Follows s b k t) {grant : Grant} (live : grant ∈ s.live) :
    ∃ i j, (i, j) ∈ t.blocks 0 ∧ grant.ptr = b + pageSize * i ∧ blockLength grant.size = pageSize * 2 ^ j := by
  have mem := hfl.blocks.mem_iff.mp (List.mem_map_of_mem live)
  obtain ⟨⟨i, j⟩, unit, same⟩ := List.mem_map.mp mem
  have hp := Prod.mk.inj same
  exact ⟨i, j, unit, hp.1.symm, hp.2.symm⟩

theorem pageAt_place (b i : Nat) : pageAt b (b + pageSize * i) = i := by
  rw [pageAt, Nat.add_sub_cancel_left, Nat.mul_div_cancel_left _ (by decide)]

/-- What taking a block means for the client. -/
theorem Follows.taken (hfl : Follows s b k t) {size : Nat} (fits : size ≤ pageSize * 2 ^ k) {q : Nat}
    {t' : Buddy k} (htk : t.take (levelFor size) = some (q, t')) {a : BuddyAllocator} (htr : Tracks a b k t') :
    Follows ⟨a, ⟨b + pageSize * q, size⟩ :: s.live⟩ b k t' := by
  refine ⟨htr, ?_⟩
  have here : Grant.block ⟨b + pageSize * q, size⟩ = place b (0 + q, levelFor size) := by
    rw [Grant.block, place, (hfl.tracks.blockLength_eq fits).1, Nat.zero_add]
  have perm := (Buddy.blocks_take htk 0).map (place b)
  rw [List.map_cons] at perm ⊢
  rw [here]
  exact (hfl.blocks.cons _).trans perm.symm

/-- What giving a live block back means for the client. -/
theorem Follows.given (hfl : Follows s b k t) {grant : Grant} (live : grant ∈ s.live) :
    ∃ t', t.give (pageAt b grant.ptr) = some t' ∧ ∀ a, Tracks a b k t' →
      Follows ⟨a, s.live.filter fun x => x.ptr ≠ grant.ptr⟩ b k t' := by
  obtain ⟨i, j, unit, hs, hl⟩ := hfl.unit live
  obtain ⟨t', hgi, perm⟩ := Buddy.give_block (o := 0) (i := i) (by rw [Nat.zero_add]; exact unit)
  rw [Nat.zero_add] at perm
  rw [hs, pageAt_place]
  refine ⟨t', hgi, fun a htr => ⟨htr, ?_⟩⟩
  -- No other block starts at the same place.
  have hot : ∀ u ∈ t'.blocks 0, (place b u).1 ≠ b + pageSize * i := by
    intro u mem same
    have hap := (perm.pairwise_iff fun hap hov => hap (Buddy.Overlap.symm hov)).mp
      ((Buddy.blocks_ordered t 0).imp Buddy.Before.not_overlap)
    have hi : u.1 = i := Nat.eq_of_mul_eq_mul_left (show 0 < pageSize by decide) (Nat.add_left_cancel same)
    refine (List.pairwise_cons.mp hap).1 u mem ⟨?_, ?_⟩
    · have := Nat.two_pow_pos u.2
      simp only
      omega
    · have := Nat.two_pow_pos j
      simp only
      omega
  have kept : ((t'.blocks 0).map (place b)).filter (fun x => x.1 ≠ b + pageSize * i) = (t'.blocks 0).map (place b) := by
    refine List.filter_eq_self.mpr fun x mem => ?_
    obtain ⟨u, ho, rfl⟩ := List.mem_map.mp mem
    exact decide_eq_true (hot u ho)
  have rest := (hfl.blocks.trans (perm.map (place b))).filter fun x => x.1 ≠ b + pageSize * i
  have gone : ¬ decide ((place b (i, j)).1 ≠ b + pageSize * i) = true := by
    rw [decide_eq_true_eq, place]
    exact fun ho => ho rfl
  rw [List.filter_map, List.map_cons,
    List.filter_cons_of_neg (p := fun x : Nat × Nat => decide (x.1 ≠ b + pageSize * i)) gone, kept] at rest
  exact rest

/-- Every call that is made as it should be returns or throws `std::bad_alloc`, and the tree follows. -/
theorem Follows.step (hfl : Follows s b k t) (call : Call)
    (hpp : ∀ ptr, call = .deallocate ptr → ptr ∈ s.live.map Grant.ptr) :
    ∃ s' t', s.step call = some s' ∧ Follows s' b k t' := by
  cases call with
  | allocate size =>
    have spec := allocate_spec hfl.tracks size
    simp only [Client.step]
    split at spec
    · rw [spec]
      exact ⟨s, t, rfl, hfl⟩
    · next hacc =>
      cases htk : t.take (levelFor size) with
      | none =>
        rw [htk] at spec
        simp only at spec
        rw [spec]
        exact ⟨s, t, rfl, hfl⟩
      | some hf =>
        rw [htk] at spec
        obtain ⟨a, hret, htr⟩ := spec
        rw [hret]
        exact ⟨_, hf.2, rfl, hfl.taken (by omega) htk htr⟩
  | deallocate ptr =>
    have mem := hpp ptr rfl
    obtain ⟨grant, live, rfl⟩ := List.mem_map.mp mem
    obtain ⟨t', hgi, ha⟩ := hfl.given live
    obtain ⟨i, -, -, hs, -⟩ := hfl.unit live
    have pos := hfl.tracks.pos
    have spec := deallocate_spec hfl.tracks (show grant.ptr ≠ 0 by omega)
    rw [hgi] at spec
    obtain ⟨a, hret, htr⟩ := spec
    simp only [Client.step, if_pos mem, hret]
    exact ⟨_, t', rfl, ha a htr⟩

theorem Follows.next (hfl : Follows s b k t) {call : Call} (next : s.step call = some s') :
    ∃ t', Follows s' b k t' := by
  obtain ⟨s'', t', same, hfl'⟩ := hfl.step call (by
    rintro ptr rfl
    simp only [Client.step] at next
    split at next
    · assumption
    · cases next)
  cases next.symm.trans same
  exact ⟨t', hfl'⟩

end Client

end Gevisor.MemoryManager
