import Gevisor.Lib.Transition
import Gevisor.MemoryManager.ObjectStacks

/-! # What clients of an object allocator can rely on -/

namespace Gevisor.Verified.ObjectAllocation

open Lib MemoryManager MemoryManager.ObjectAllocator

/-- An allocator, and the addresses that have not been given back. -/
structure System (P : Type) where
  slab : Slab P
  live : List Nat

inductive Call
  | allocate
  | deallocate (p : Nat)
  deriving DecidableEq, Repr

section

variable {P : Type} (allocPage : EStateM Failure P Nat)

/-- A new allocator. No state follows undefined behaviour. -/
def boot (size maxPages : Nat) (p : P) : Option (System P) := match construct allocPage ⟨empty size maxPages, p⟩ with
  | .ok _ slab => some ⟨slab, []⟩
  | .error _ _ => none

/-- One call; addresses are given back only if they are live. -/
def step (s : System P) : Call → Option (System P)
  | .allocate => match allocate allocPage s.slab with
    | .ok p slab => some ⟨slab, p :: s.live⟩
    | .error e slab => if e.isExn then some { s with slab := slab } else none
  | .deallocate p => if p ∈ s.live then
      match deallocate allocPage p s.slab with
      | .ok _ slab => some ⟨slab, s.live.erase p⟩
      | .error e slab => if e.isExn then some { s with slab := slab } else none
    else none

end

/-- The objects are sound. -/
structure Sound {P : Type} (size : Nat) (s : System P) : Prop where
  distinct : s.live.Nodup
  apart : ((s.live ++ s.slab.allocator.free).map fun addr => (⟨addr, size⟩ : Block)).Pairwise Block.Apart
  inside : ∀ addr ∈ s.live ++ s.slab.allocator.free, ∃ page, Block.Inside ⟨addr, size⟩ (pageBlock page) ∧
    ∀ a, (pageBlock page).Has a → s.slab.allocator.contains a = true
  count : s.slab.allocator.numFree + s.slab.allocator.numUsed = s.slab.allocator.numPage * (pageSize / size)
  used : s.slab.allocator.numUsed = s.live.length

/-! ## Calls -/

section

variable {P : Type} {allocPage : EStateM Failure P Nat} {Owns : P → List Nat → Prop} {Dry : Nat → Prop}
  (source : PageSource allocPage Owns Dry) {size : Nat} {s s' : System P}

/-- What every call preserves. -/
structure Kept (Owns : P → List Nat → Prop) (size : Nat) (s : System P) : Prop where
  tidy : s.slab.allocator.Tidy s.live
  size : s.slab.allocator.size = size
  owns : Owns s.slab.source s.slab.allocator.owned

include source

theorem sound_of_kept (hfi : 0 < size) (kept : Kept Owns size s) : Sound size s := by
  have hap := source.apart kept.owns
  rw [owned, List.map_append] at hap
  have ho := objects_apart kept.tidy (List.pairwise_append.mp hap).1
  rw [kept.size] at ho
  refine ⟨?_, ho, ?_, ?_, kept.tidy.used⟩
  · -- Two objects at one address would have all their bytes in common.
    refine (List.pairwise_append.mp (List.pairwise_map.mp ho)).1.imp ?_
    intro x y hap same
    simp only [Block.Apart] at hap
    omega
  · intro addr hm
    obtain ⟨page, hsd, hi⟩ := object_inside kept.tidy hm
    rw [kept.size] at hi
    exact ⟨page, hi, fun a has => (contains_iff _ a).mpr ⟨page, hsd, has⟩⟩
  · have hl := kept.tidy.objects.length_eq
    rw [carved_length, kept.size, List.length_append, free, List.length_map, ← kept.tidy.used, ← numPage_eq] at hl
    rw [← hl, numFree, numUsed, Nat.add_comm]

theorem boot_kept {maxPages : Nat} {p : P} (owns : Owns p []) (hfi : 0 < size)
    (hb : boot allocPage size maxPages p = some s) : Kept Owns size s := by
  have hs := @wp_construct P allocPage Owns Dry source size maxPages p owns
  rw [boot] at hb
  rw [wp] at hs
  split at hb
  · next ends =>
    rw [ends] at hs
    cases hb
    obtain ⟨tidy, size', owns'⟩ := hs
    rw [empty, if_neg (by omega)] at size'
    exact ⟨tidy, size', owns'⟩
  · cases hb

theorem step_kept (fits : 0 < size ∧ size ≤ pageSize) (kept : Kept Owns size s) {call : Call}
    (next : step allocPage s call = some s') : Kept Owns size s' := by
  cases call with
  | allocate =>
    simp only [step] at next
    by_cases hs : s.slab.allocator.freeStack = [] ∧ s.slab.allocator.Spent
    · rw [allocate_spent hs.1 hs.2] at next
      cases next
      exact kept
    · have hb (hem : s.slab.allocator.freeStack = []) : ¬ s.slab.allocator.Spent := fun hsp => hs ⟨hem, hsp⟩
      have ends := takes_allocate source kept.tidy hb (kept.size.symm ▸ fits) kept.owns
      rw [wp] at ends
      split at next
      · next hret =>
        rw [hret] at ends
        cases next
        obtain ⟨⟨tidy, same, -⟩, owns, -⟩ := ends
        exact ⟨tidy, same.trans kept.size, owns⟩
      · next hth =>
        rw [hth] at ends
        rw [ends.1] at next
        cases next
  | deallocate p =>
    simp only [step] at next
    split at next
    · next hm =>
      have ends := takes_deallocate source kept.tidy hm kept.owns
      rw [wp] at ends
      split at next
      · next hret =>
        rw [hret] at ends
        cases next
        obtain ⟨⟨tidy, same⟩, owns, -⟩ := ends
        refine ⟨tidy, ?_, owns⟩
        rw [same]
        exact kept.size
      · next hth =>
        rw [hth] at ends
        rw [ends.1] at next
        cases next
    · cases next

/-- Objects are sound after every sequence of calls. -/
theorem objects_sound {maxPages : Nat} {p : P} (owns : Owns p []) (fits : 0 < size ∧ size ≤ pageSize)
    {calls : List Call} {s₀ : System P} (boots : boot allocPage size maxPages p = some s₀)
    (reach : run (step allocPage) s₀ calls = some s) : Sound size s :=
  sound_of_kept source fits.1 (run_preserves (I := Kept Owns size) (fun _ _ _ kept next => step_kept source fits kept next)
    (boot_kept source owns fits.1 boots) reach)

end

/-! ## A stream of pages -/

/-- `alloc_page` over a stream of pages. -/
def nextPage (pages : Nat → Nat) : EStateM Failure Nat Nat := fun n => .ok (pages n) (n + 1)

/-- The client owns some of the first pages of the stream, none of them twice. -/
def Drawn (pages : Nat → Nat) (n : Nat) (ps : List Nat) : Prop :=
  (ps.map pageBlock).Pairwise Block.Apart ∧ ∀ p ∈ ps, ∃ i < n, p = pages i

theorem stream_source {pages : Nat → Nat} (nonNull : ∀ i, pages i ≠ 0)
    (apart : ∀ i j, i ≠ j → Block.Apart (pageBlock (pages i)) (pageBlock (pages j))) :
    PageSource (nextPage pages) (Drawn pages) fun _ => False where
  alloc {n ps} drawn := by
    refine ⟨nonNull n, id, ?_, ?_⟩
    · rw [List.map_cons]
      refine List.pairwise_cons.mpr ⟨?_, drawn.1⟩
      intro block member
      obtain ⟨p, owned, rfl⟩ := List.mem_map.mp member
      obtain ⟨i, earlier, rfl⟩ := drawn.2 p owned
      exact apart n i (by omega)
    · intro p member
      obtain rfl | member := List.mem_cons.mp member
      · exact ⟨n, Nat.lt_succ_self n, rfl⟩
      · obtain ⟨i, less, same⟩ := drawn.2 p member
        exact ⟨i, Nat.lt_succ_of_lt less, same⟩
  perm same drawn := ⟨((same.map _).pairwise_iff Block.Apart.symm).mp drawn.1, fun p member =>
    drawn.2 p (same.mem_iff.mpr member)⟩
  apart drawn := drawn.1

/-- The third of three objects is on a second page; the first one is given back. -/
theorem objects_sound_three : ∃ s₀ s, boot (nextPage fun i => 0x1000 * (i + 1)) 0x800 0 0 = some s₀ ∧
    run (step (nextPage fun i => 0x1000 * (i + 1))) s₀ [.allocate, .allocate, .allocate, .deallocate 0x2800] = some s ∧
    s.live = [0x4800, 0x2000] ∧ Sound 0x800 s := by
  have pages : PageSource (nextPage fun i => 0x1000 * (i + 1)) (Drawn fun i => 0x1000 * (i + 1)) fun _ => False := by
    refine stream_source (fun i => by omega) fun i j other => ?_
    simp only [Block.Apart, pageBlock, pageSize]
    omega
  have run : ∃ s₀ s, boot (nextPage fun i => 0x1000 * (i + 1)) 0x800 0 0 = some s₀ ∧
      run (step (nextPage fun i => 0x1000 * (i + 1))) s₀ [.allocate, .allocate, .allocate, .deallocate 0x2800] = some s ∧
      s.live = [0x4800, 0x2000] := ⟨_, _, rfl, rfl, rfl⟩
  obtain ⟨s₀, s, boots, reach, live⟩ := run
  refine ⟨s₀, s, boots, reach, live, ?_⟩
  exact objects_sound pages ⟨.nil, fun _ none => absurd none List.not_mem_nil⟩ (by decide) boots reach

end Gevisor.Verified.ObjectAllocation
