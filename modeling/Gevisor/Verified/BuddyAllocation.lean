import Gevisor.MemoryManager.BuddySystem

/-! # What clients of the buddy allocator can rely on -/

namespace Gevisor.Verified.BuddyAllocation

open Lib MemoryManager MemoryManager.BuddyAllocator MemoryManager.Client

variable {s s' : Client} {b k : Nat} {t : Buddy k}

/-- Blocks (start and length) without a common byte. -/
def Apart (x y : Nat × Nat) : Prop := x.1 + x.2 ≤ y.1 ∨ y.1 + y.2 ≤ x.1

/-- The live blocks are sound. -/
structure Sound (b k : Nat) (s : Client) : Prop where
  apart : s.live.Pairwise fun x y => Apart x.block y.block
  inside : ∀ grant ∈ s.live, b ≤ grant.ptr ∧ grant.ptr + blockLength grant.size ≤ b + pageSize * 2 ^ k
  aligned : ∀ grant ∈ s.live, ∃ m, grant.ptr = b + m * blockLength grant.size
  size : ∀ grant ∈ s.live, size grant.ptr s.allocator = .ok (blockLength grant.size) s.allocator

theorem apart_place_iff (b : Nat) (x y : Nat × Nat) : Apart (place b x) (place b y) ↔ ¬ Buddy.Overlap x y := by
  have hs (u v w : Nat) : b + pageSize * u + pageSize * v ≤ b + pageSize * w ↔ u + v ≤ w := by
    rw [Nat.add_assoc, Nat.add_le_add_iff_left, ← Nat.mul_add, Nat.mul_le_mul_left_iff (by decide)]
  simp only [Apart, place, Buddy.Overlap, hs]
  omega

theorem Apart.symm {x y : Nat × Nat} (hap : Apart x y) : Apart y x := Or.symm hap

theorem sound_of_follows (hfl : Follows s b k t) : Sound b k s where
  apart := by
    have ho : ((t.blocks 0).map (place b)).Pairwise Apart :=
      List.pairwise_map.mpr ((Buddy.blocks_ordered t 0).imp fun hbe =>
        (apart_place_iff b _ _).mpr hbe.not_overlap)
    exact List.pairwise_map.mp ((hfl.blocks.pairwise_iff Apart.symm).mpr ho)
  inside grant live := by
    obtain ⟨i, j, unit, hs, hl⟩ := hfl.unit live
    have hi := Nat.mul_le_mul_left pageSize (Buddy.block_inside t unit).2.1
    rw [Nat.mul_add, Nat.zero_add] at hi
    rw [hs, hl]
    simp only at hi
    omega
  aligned grant live := by
    obtain ⟨i, j, unit, hs, hl⟩ := hfl.unit live
    obtain ⟨-, -, -, m, hm⟩ := Buddy.block_inside t unit
    simp only [Nat.zero_add] at hm
    exact ⟨m, by rw [hs, hl, hm, Nat.mul_left_comm]⟩
  size grant live := by
    obtain ⟨i, j, unit, hs, hl⟩ := hfl.unit live
    have pos := hfl.tracks.pos
    have hle : t.levelAt i = some j := Buddy.levelAt_block (o := 0) (by rw [Nat.zero_add]; exact unit)
    rw [size_spec hfl.tracks (by omega), hs, pageAt_place, hle, hl]
    rfl

/-! ## Sizes that do not fit -/

/-- Every node says that its block has no bytes. -/
structure Blank (a : BuddyAllocator) : Prop where
  size : ∀ i, (a.nodes i).getSize = 0
  bound : a.bufferSize ≤ 2 ^ 63

theorem Blank.write {a : BuddyAllocator} (hbl : Blank a) (i : Nat) {node : Node} (none : node.getSize = 0) :
    Blank (writeNode i node a) where
  size j := by
    by_cases same : j = i
    · rw [same, writeNode_same]
      exact none
    · rw [writeNode_other same]
      exact hbl.size j
  bound := hbl.bound

theorem blank_modifyNode {f : Node → Node} (hkp : ∀ node, node.getSize = 0 → (f node).getSize = 0) (i : Nat) :
    Preserves Blank (modifyNode i f) := by
  intro a hbl
  rw [wp_modifyNode]
  exact hbl.write i (hkp _ (hbl.size i))

theorem blank_nextNode : Preserves Blank nextNode := by
  refine .bind .get fun _ => .bind (.modify ?_) fun _ =>
    .ite (fun _ => .throw _) fun _ => .ite (fun _ => .throw _) fun _ => .pure _
  exact fun a hbl => ⟨hbl.size, hbl.bound⟩

/-- Half of nothing is nothing. -/
theorem blank_getNodes (i : Nat) : Preserves Blank (getNodes i) := by
  refine .bind blank_nextNode fun child0 => .bind blank_nextNode fun child1 => ?_
  intro a hbl
  rw [wp_bind, wp_getNode, hbl.size i]
  refine Preserves.bind (blank_modifyNode ?_ child0) (fun _ => .bind (blank_modifyNode ?_ child1) fun _ =>
    blank_modifyNode ?_ i) a hbl
  · exact fun _ _ => getSize_ofNat rfl (by decide)
  · exact fun _ _ => getSize_ofNat rfl (by decide)
  · exact fun _ none => none

theorem blank_deref (child : Option Nat) : Preserves Blank (deref child) := by
  cases child with
  | none => exact .throw _
  | some i => exact .pure i

/-- A search that can find nothing. -/
def Barren (c : BuddyM Nat) : Prop := ∀ a, Blank a → wp c (fun ptr b => ptr = 0 ∧ Blank b) (fun _ b => Blank b) a

theorem barren_tryChild {next : Nat → Nat → BuddyM Nat} {size : Nat} (hb : ∀ i, Barren (next size i))
    (node child : Nat) : Barren (tryChild next size node child) := by
  intro a hbl
  simp only [tryChild, wp_bind, wp_getNode]
  rw [wp_ite]
  split
  · simp only [privateAllocateNext, wp_bind]
    refine wp_mono ?_ (fun _ _ htn => htn) (hb child a hbl)
    rintro _ b ⟨rfl, hbl⟩
    exact ⟨rfl, hbl⟩
  · exact ⟨rfl, hbl⟩

theorem barren_privateAllocate {size : Nat} (pos : size ≠ 0) (fuel i : Nat) :
    Barren (privateAllocate fuel size i) := by
  induction fuel generalizing i with
  | zero => exact fun a hbl => hbl
  | succ fuel ih =>
    intro a hbl
    rw [privateAllocate, wp_bind, wp_getNode, wp_ite]
    split
    · exact ⟨rfl, hbl⟩
    · rw [wp_ite, if_neg (by rw [hbl.size]; exact pos)]
      have rest : Barren (do
          let node ← getNode i
          let ptr ← tryChild (privateAllocate fuel) size i (← deref node.child0)
          if ptr ≠ 0 then pure ptr
          else tryChild (privateAllocate fuel) size i (← deref node.child1)) := by
        intro b hbl
        simp only [wp_bind, wp_getNode]
        refine wp_mono ?_ (fun _ _ htn => htn) (blank_deref _ b hbl)
        intro child0 c hbl
        refine wp_mono ?_ (fun _ _ htn => htn) (barren_tryChild ih i child0 c hbl)
        rintro _ d ⟨rfl, hbl⟩
        rw [wp_ite, if_neg (by simp), wp_bind]
        refine wp_mono ?_ (fun _ _ htn => htn) (blank_deref _ d hbl)
        exact fun child1 e hbl => barren_tryChild ih i child1 e hbl
      dsimp only
      rw [wp_ite]
      split
      · rw [wp_bind]
        exact wp_mono (fun _ b hbl => rest b hbl) (fun _ _ htn => htn) (blank_getNodes i a hbl)
      · exact rest a hbl

/-- With no size in the nodes nothing is ever handed out. -/
theorem blank_allocate {a : BuddyAllocator} (hbl : Blank a) (size : Nat) :
    wp (allocate size) (fun _ _ => False) (fun _ b => Blank b) a := by
  rw [allocate, wp_bind, wp_get, wp_ite]
  split
  · exact hbl
  · next hacc =>
    have hbo := hbl.bound
    have pos : nextPower2 (max size pageSize) ≠ 0 := by
      have : pageSize = 4096 := rfl
      rw [nextPower2_eq (by omega) (by omega)]
      exact Nat.ne_of_gt (Nat.two_pow_pos _)
    rw [wp_bind]
    refine wp_mono ?_ (fun _ _ htn => htn) (barren_privateAllocate pos a.room a.root a hbl)
    rintro _ b ⟨rfl, hbl⟩
    exact hbl

theorem construct_blank (hbo : b + pageSize * 2 ^ k < 2 ^ 64) (hl : 48 ≤ k) : Blank (construct b k) where
  size i := by
    have size := bufferSizeOf_eq hbo
    by_cases root : i = 0
    · have mask : sizeMask.toNat = 2 ^ 60 - 1 := by decide
      have hm : pageSize * 2 ^ k = 2 ^ (k - 48) * 2 ^ 60 := by
        rw [show pageSize = 2 ^ 12 from rfl, ← Nat.pow_add, ← Nat.pow_add]
        exact congrArg (2 ^ ·) (by omega)
      rw [root, construct, writeNode_same, Node.getSize, Ept.getBits, BitVec.toNat_and, BitVec.toNat_ofNat, mask,
        Nat.and_two_pow_sub_one_eq_mod, size, Nat.mod_eq_of_lt (show pageSize * 2 ^ k < 2 ^ 64 by omega), hm,
        Nat.mul_mod_left]
    · rw [construct, writeNode_other root]
      exact getSize_ofNat (show Node.zero.size = BitVec.ofNat 64 0 from rfl) (by decide)
  bound := by
    have hle : 12 + k < 64 := by
      refine (Nat.pow_lt_pow_iff_right (show 1 < 2 by decide)).mp ?_
      rw [Nat.pow_add]
      exact Nat.lt_of_le_of_lt (Nat.le_add_left _ _) hbo
    show bufferSizeOf k ≤ 2 ^ 63
    rw [bufferSizeOf_eq hbo, show pageSize = 2 ^ 12 from rfl, ← Nat.pow_add]
    exact Nat.pow_le_pow_right (by decide) (by omega)

/-- Nothing has been handed out, and nothing will be. -/
def Idle (s : Client) : Prop := Blank s.allocator ∧ s.live = []

theorem idle_step (s : Client) (call : Call) (s' : Client) (idle : Idle s) (next : s.step call = some s') :
    Idle s' := by
  obtain ⟨hbl, none⟩ := idle
  cases call with
  | allocate size =>
    have ha := blank_allocate hbl size
    simp only [wp] at ha
    simp only [Client.step] at next
    cases hres : allocate size s.allocator with
    | ok ptr a =>
      rw [hres] at ha
      exact ha.elim
    | error e a =>
      rw [hres] at ha next
      cases e with
      | badAlloc =>
        cases next
        exact ⟨ha, none⟩
      | runtimeError | failFast | nullDereference | overrun | unbounded => cases next
  | deallocate ptr => simp [Client.step, none] at next

/-- The tree behind a client, or the lack of one, in every state of every run. -/
theorem follows_or_idle (pos : 0 < b) (hbo : b + pageSize * 2 ^ k < 2 ^ 64) {calls : List Call}
    (hre : run Client.step (boot b k) calls = some s) :
    k < 48 ∧ (∃ t : Buddy k, Follows s b k t) ∨ 48 ≤ k ∧ Idle s := by
  cases Nat.lt_or_ge k 48 with
  | inl hs =>
    have hfl : ∃ t : Buddy k, Follows s b k t := by
      refine run_preserves (I := fun s => ∃ t : Buddy k, Follows s b k t) ?_ ⟨.free, construct_tracks pos hbo hs, .refl _⟩ hre
      rintro s call s' ⟨t, hfl⟩ next
      exact hfl.next next
    exact .inl ⟨hs, hfl⟩
  | inr hl => exact .inr ⟨hl, run_preserves idle_step ⟨construct_blank hbo hl, rfl⟩ hre⟩

/-- In every state that allocations and deallocations lead to, the live blocks are sound. Below 2⁶⁰ bytes every
call is answered; a larger buffer never hands out a block. -/
theorem live_blocks_sound (b k : Nat) (pos : 0 < b) (bound : b + pageSize * 2 ^ k < 2 ^ 64) (calls : List Call)
    (s : Client) (reach : run Client.step (boot b k) calls = some s) :
    Sound b k s ∧ (k < 48 → ∀ call, (∀ ptr, call = .deallocate ptr → ptr ∈ s.live.map Grant.ptr) →
      ∃ s', s.step call = some s') := by
  cases follows_or_idle pos bound reach with
  | inl small =>
    obtain ⟨-, t, follows⟩ := small
    refine ⟨sound_of_follows follows, fun _ call proper => ?_⟩
    obtain ⟨s', -, next, -⟩ := follows.step call proper
    exact ⟨s', next⟩
  | inr large =>
    obtain ⟨large, -, none⟩ := large
    exact ⟨⟨by rw [none]; exact .nil, by simp [none], by simp [none], by simp [none]⟩, fun small => by omega⟩

/-- Two blocks of a buffer of sixteen pages, of which the first is given back. -/
theorem live_blocks_sound_64k :
    ∃ s, run Client.step (boot 4096 4) [.allocate 5000, .allocate 1, .deallocate 4096] = some s ∧
      s.live = [⟨12288, 1⟩] ∧ Sound 4096 4 s := by
  have lives : (run Client.step (boot 4096 4) [.allocate 5000, .allocate 1, .deallocate 4096]).map Client.live =
      some [⟨12288, 1⟩] := by decide +kernel
  obtain ⟨s, reach, live⟩ := Option.map_eq_some_iff.mp lives
  exact ⟨s, reach, live, (live_blocks_sound 4096 4 (by decide) (by decide) _ s reach).1⟩

/-! ## When allocation fails -/

/-- A call without regard to what is live. -/
inductive Request
  | allocate (size : Nat)
  | deallocate (ptr : Nat)
  | size (ptr : Nat)

def answer : Request → BuddyM Nat
  | .allocate size => allocate size
  | .deallocate ptr => do
    deallocate ptr
    pure 0
  | .size ptr => size ptr

/-- The results of one call after the other. -/
def answers (a : BuddyAllocator) : List Request → List (Except Failure Nat)
  | [] => []
  | request :: rest => match answer request a with
    | .ok value a' => .ok value :: answers a' rest
    | .error e a' => .error e :: answers a' rest

/-- Some aligned place for a block of `length` bytes is free of live blocks. -/
def HasRoom (b k : Nat) (s : Client) (length : Nat) : Prop :=
  ∃ i, (i + 1) * length ≤ pageSize * 2 ^ k ∧ ∀ grant ∈ s.live, Apart (b + i * length, length) grant.block

/-- Allocation fails only when it must. -/
structure Exact (b k : Nat) (s : Client) : Prop where
  throws : ∀ size, (∃ a, allocate size s.allocator = .error .badAlloc a) ↔
    size = 0 ∨ pageSize * 2 ^ k < size ∨ ¬ HasRoom b k s (blockLength size)
  unchanged : ∀ size a, allocate size s.allocator = .error .badAlloc a →
    ∀ requests, answers a requests = answers s.allocator requests
  whole : s.live = [] → ∃ ptr a, allocate (pageSize * 2 ^ k) s.allocator = .ok ptr a

/-- The search fails exactly if there is no room. -/
theorem hasRoom_iff (hfl : Follows s b k t) {size : Nat} (fits : size ≤ pageSize * 2 ^ k) :
    HasRoom b k s (blockLength size) ↔ t.take (levelFor size) ≠ none := by
  obtain ⟨hl, hle⟩ := hfl.tracks.blockLength_eq fits
  have unit (m : Nat) : b + m * (pageSize * 2 ^ levelFor size) = b + pageSize * (m * 2 ^ levelFor size) := by
    rw [Nat.mul_left_comm]
  rw [HasRoom, hl]
  constructor
  · rintro ⟨m, hi, free⟩ none
    rw [Nat.mul_left_comm, Nat.mul_le_mul_left_iff (by decide)] at hi
    obtain ⟨u, mem, ho⟩ := Buddy.overlap_of_take_none hfl.tracks.normal hle none 0 m hi
    obtain ⟨grant, live, same⟩ := List.mem_map.mp (hfl.blocks.mem_iff.mpr (List.mem_map_of_mem mem))
    have hap := free grant live
    rw [same, unit] at hap
    rw [Nat.zero_add] at ho
    exact (apart_place_iff b (m * 2 ^ levelFor size, levelFor size) u).mp hap ho
  · intro hf
    obtain ⟨⟨q, t'⟩, htk⟩ := Option.ne_none_iff_exists'.mp hf
    obtain ⟨hi, -, m, rfl⟩ := Buddy.take_inside htk
    refine ⟨m, ?_, fun grant live => ?_⟩
    · rw [Nat.mul_left_comm, Nat.mul_le_mul_left_iff (by decide), Nat.add_mul, Nat.one_mul]
      exact hi
    · obtain ⟨u, mem, same⟩ := List.mem_map.mp (hfl.blocks.mem_iff.mp (List.mem_map_of_mem live))
      have hap := Buddy.not_overlap_of_take htk mem
      rw [Nat.zero_add] at hap
      rw [← same, unit]
      exact (apart_place_iff b (m * 2 ^ levelFor size, levelFor size) u).mpr hap

theorem exact_of_follows (hfl : Follows s b k t) : Exact b k s where
  throws size := by
    have spec := allocate_spec hfl.tracks size
    split at spec
    · next hrfd =>
      rw [spec]
      exact ⟨fun _ => hrfd.elim .inl fun hl => .inr (.inl hl), fun _ => ⟨_, rfl⟩⟩
    · next hacc =>
      rw [not_or, Nat.not_lt] at hacc
      have room := hasRoom_iff hfl hacc.2
      cases htk : t.take (levelFor size) with
      | none =>
        rw [htk] at spec room
        simp only at spec
        rw [spec]
        exact ⟨fun _ => .inr (.inr fun free => room.mp free rfl), fun _ => ⟨_, rfl⟩⟩
      | some hf =>
        rw [htk] at spec room
        obtain ⟨a, hret, -⟩ := spec
        rw [hret]
        constructor
        · rintro ⟨_, hth⟩
          cases hth
        · rintro (zero | large | full)
          · exact absurd zero hacc.1
          · omega
          · exact absurd (room.mpr (Option.some_ne_none _)) full
  unchanged size a hth requests := by
    have spec := allocate_spec hfl.tracks size
    split at spec
    · cases spec.symm.trans hth
      rfl
    · cases htk : t.take (levelFor size) with
      | none =>
        rw [htk] at spec
        cases spec.symm.trans hth
        rfl
      | some hf =>
        rw [htk] at spec
        obtain ⟨a', hret, -⟩ := spec
        cases hret.symm.trans hth
  whole none := by
    have free : t = .free := by
      have hb := hfl.blocks
      rw [none, List.map_nil] at hb
      exact Buddy.eq_free_of_blocks_nil hfl.tracks.normal (List.map_eq_nil_iff.mp hb.symm.eq_nil)
    have hle := (hfl.tracks.blockLength_eq (Nat.le_refl (pageSize * 2 ^ k))).2
    have pos : 0 < pageSize * 2 ^ k := Nat.mul_pos (by decide) (Nat.two_pow_pos k)
    have spec := allocate_spec hfl.tracks (pageSize * 2 ^ k)
    rw [if_neg (by omega), free, Buddy.take, if_pos hle] at spec
    obtain ⟨a, hret, -⟩ := spec
    exact ⟨_, a, hret⟩

/-- Allocation fails only when it must, in every state that allocations and deallocations lead to, exactly if
the buffer is smaller than 2⁶⁰ bytes. -/
theorem allocation_exact_iff (b k : Nat) (pos : 0 < b) (bound : b + pageSize * 2 ^ k < 2 ^ 64) :
    (∀ (calls : List Call) (s : Client), run Client.step (boot b k) calls = some s → Exact b k s) ↔ k < 48 := by
  constructor
  · intro exact
    by_contra large
    -- Nothing is live at the start, yet the whole buffer cannot be had.
    obtain ⟨ptr, a, returns⟩ := (exact [] (boot b k) rfl).whole rfl
    have allocated := blank_allocate (construct_blank bound (Nat.le_of_not_lt large)) (pageSize * 2 ^ k)
    exact (wp_of_ok returns).mp allocated
  · intro small calls s reach
    cases follows_or_idle pos bound reach with
    | inl follows =>
      obtain ⟨-, t, follows⟩ := follows
      exact exact_of_follows follows
    | inr large => omega

/-- With the only page of a buffer handed out. -/
theorem allocation_exact_page :
    ∃ s, run Client.step (boot 4096 0) [.allocate 1] = some s ∧ s.live = [⟨4096, 1⟩] ∧ Exact 4096 0 s := by
  have lives : (run Client.step (boot 4096 0) [.allocate 1]).map Client.live = some [⟨4096, 1⟩] := by decide +kernel
  obtain ⟨s, reach, live⟩ := Option.map_eq_some_iff.mp lives
  exact ⟨s, reach, live, (allocation_exact_iff 4096 0 (by decide) (by decide)).mpr (by decide) _ s reach⟩

/-- A root that looks taken answers every request with `std::bad_alloc`. -/
theorem allocate_of_leaf {a : BuddyAllocator} (leaf : (a.nodes a.root).isLeaf = true) (room : 0 < a.room)
    (size : Nat) : allocate size a = .error .badAlloc a := by
  obtain ⟨fuel, deep⟩ := Nat.exists_eq_add_of_lt room
  have hs (size : Nat) : privateAllocate a.room size a.root a = .ok 0 a := by
    rw [deep, privateAllocate, bind_of_ok (show getNode a.root a = .ok _ _ from rfl), leaf]
    rfl
  rw [allocate, get_bind]
  split
  · rfl
  · rw [bind_of_ok (hs _)]
    rfl

/-- The size of 2⁶² bytes makes the root look taken: with nothing live, not even one byte can be had. -/
theorem large_buffer_refuses :
    (boot 4096 50).live = [] ∧ (∃ a, allocate 1 (boot 4096 50).allocator = .error .badAlloc a) ∧
      ¬ Exact 4096 50 (boot 4096 50) := by
  have refuses (size : Nat) : allocate size (construct 4096 50) = .error .badAlloc (construct 4096 50) :=
    allocate_of_leaf (by decide +kernel) (by decide +kernel) size
  refine ⟨rfl, ⟨_, refuses 1⟩, fun exact => ?_⟩
  obtain ⟨ptr, a, returns⟩ := exact.whole rfl
  cases (refuses _).symm.trans returns

end Gevisor.Verified.BuddyAllocation
