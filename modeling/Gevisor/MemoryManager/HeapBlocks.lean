import Gevisor.MemoryManager.HeapPages

/-! # The blocks that clients of the memory manager hold

Which pool a block is from follows from the request. The pages of the page pool are those that were asked for as pages
and those that the slabs own.
-/

namespace Gevisor.MemoryManager

open Lib BuddyAllocator

variable {g : HeapGrant} {o : Origin}

/-- The pool that a block comes from. -/
inductive Origin
  | slab (id : SlabId)
  | page
  | huge
  deriving DecidableEq, Repr

/-- Where the blocks of a pool are. -/
def Origin.buffer (b c : Nat) : Origin → Block
  | .huge => ⟨c, pageSize * 2 ^ poolK⟩
  | _ => ⟨b, pageSize * 2 ^ poolK⟩

inductive Request
  | alloc (size : Nat)
  | allocPage
  deriving DecidableEq, Repr

namespace Request

/-- The bytes asked for. -/
def size : Request → Nat
  | alloc size => size
  | allocPage => pageSize

def origin : Request → Origin
  | alloc size => match Heap.slabFor size with
    | some id => .slab id
    | none => if pageSize < size then .huge else .page
  | allocPage => .page

end Request

/-- A request and the pointer it was answered with. -/
structure HeapGrant where
  ptr : Nat
  request : Request
  deriving DecidableEq, Repr

namespace HeapGrant

def origin (g : HeapGrant) : Origin := g.request.origin

/-- The bytes that the client may use. -/
def block (g : HeapGrant) : Block := ⟨g.ptr, match g.origin with
  | .slab id => id.objectSize
  | .page => pageSize
  | .huge => blockLength g.request.size⟩

theorem length_slab {id : SlabId} (ho : g.origin = .slab id) : g.block.length = id.objectSize := by
  rw [block, ho]

theorem length_page (ho : g.origin = .page) : g.block.length = pageSize := by
  rw [block, ho]

/-- Requests go to a slab whose objects are large enough, or get a whole page. -/
theorem size_le_of_small (small : g.origin ≠ .huge) : g.request.size ≤ g.block.length := by
  cases request : g.request with
  | alloc size =>
    cases slab : Heap.slabFor size with
    | some id =>
      have origin : g.origin = .slab id := by simp only [origin, request, Request.origin, slab]
      have fits := List.find?_some (p := fun id : SlabId => decide (size ≤ id.objectSize)) slab
      rw [length_slab origin]
      exact of_decide_eq_true fits
    | none =>
      have origin : g.origin = if pageSize < size then .huge else .page := by
        simp only [origin, request, Request.origin, slab]
      by_cases large : pageSize < size
      · rw [if_pos large] at origin
        exact absurd origin small
      · rw [if_neg large] at origin
        rw [length_page origin]
        exact Nat.le_of_not_lt large
  | allocPage =>
    have origin : g.origin = .page := by simp only [origin, request, Request.origin]
    rw [length_page origin]
    exact Nat.le_refl _

end HeapGrant

/-- The live grants of one pool. -/
def grants (live : List HeapGrant) (o : Origin) : List HeapGrant := live.filter fun g => g.origin = o

def ptrs (live : List HeapGrant) (o : Origin) : List Nat := (grants live o).map HeapGrant.ptr

/-- A relation holds in a list if it holds inside of each class and between the classes. -/
theorem pairwise_of_classes {α κ : Type} [DecidableEq κ] {R : α → α → Prop} (f : α → κ) {l : List α}
    (hi : ∀ o, (l.filter fun x => f x = o).Pairwise R)
    (ha : ∀ x ∈ l, ∀ y ∈ l, f x ≠ f y → R x y) : l.Pairwise R := by
  induction l with
  | nil => exact .nil
  | cons x l ih =>
    refine List.pairwise_cons.mpr ⟨fun y hm => ?_, ih (fun o => ?_) fun y hm z hm' =>
      ha y (List.mem_cons_of_mem x hm) z (List.mem_cons_of_mem x hm')⟩
    · by_cases same : f x = f y
      · have class_ := hi (f y)
        rw [List.filter_cons, if_pos (decide_eq_true same)] at class_
        exact (List.pairwise_cons.mp class_).1 y (List.mem_filter.mpr ⟨hm, decide_eq_true rfl⟩)
      · exact ha x List.mem_cons_self y (List.mem_cons_of_mem x hm) same
    · exact (hi o).sublist ((List.sublist_cons_self x l).filter _)

variable {live : List HeapGrant}

theorem grants_cons_same (same : g.origin = o) :
    grants (g :: live) o = g :: grants live o := List.filter_cons_of_pos (decide_eq_true same)

theorem grants_cons_other (ho : g.origin ≠ o) :
    grants (g :: live) o = grants live o := List.filter_cons_of_neg (by rw [decide_eq_true_eq]; exact ho)

theorem mem_grants : g ∈ grants live o ↔ g ∈ live ∧ g.origin = o := by
  rw [grants, List.mem_filter, decide_eq_true_eq]

theorem grants_erase_same (hm : g ∈ live) : (grants live g.origin).Perm (g :: grants (live.erase g) g.origin) := by
  have split : (grants live g.origin).Perm (grants (g :: live.erase g) g.origin) := (List.perm_cons_erase hm).filter _
  rw [grants_cons_same rfl] at split
  exact split

theorem grants_erase_other (hm : g ∈ live) (ho : g.origin ≠ o) :
    (grants live o).Perm (grants (live.erase g) o) := by
  have split : (grants live o).Perm (grants (g :: live.erase g) o) := (List.perm_cons_erase hm).filter _
  rw [grants_cons_other ho] at split
  exact split

theorem page_block (hm : g ∈ live) (ho : g.origin = .page) :
    g.block = pageBlock g.ptr ∧ g.ptr ∈ ptrs live .page := by
  refine ⟨?_, List.mem_map_of_mem (mem_grants.mpr ⟨hm, ho⟩)⟩
  rw [HeapGrant.block, ho]
  rfl

namespace Heap

/-- The pages that all slabs own. -/
def slabPages (h : Heap) : List Nat := SlabId.all.flatMap fun id => (h.slabs id).owned

/-- The pages that the slabs other than `id` own. -/
def otherPages (h : Heap) (id : SlabId) : List Nat := (SlabId.all.erase id).flatMap fun id' => (h.slabs id').owned

variable (h : Heap) (id : SlabId) (a : ObjectAllocator) (pm : PageMemory)

theorem mem_all : id ∈ SlabId.all := by cases id <;> decide

theorem mem_all_erase {id id' : SlabId} : id' ∈ SlabId.all.erase id ↔ id' ≠ id := by
  rw [List.Nodup.mem_erase_iff (by decide)]
  exact ⟨And.left, fun ho => ⟨ho, mem_all id'⟩⟩

theorem mem_slabPages {h : Heap} {id : SlabId} {p : Nat} (hm : p ∈ (h.slabs id).owned) : p ∈ h.slabPages :=
  List.mem_flatMap.mpr ⟨id, mem_all id, hm⟩

theorem slabPages_perm : h.slabPages.Perm (h.otherPages id ++ (h.slabs id).owned) := by
  have split := (List.perm_cons_erase (mem_all id)).flatMap_right fun id' => (h.slabs id').owned
  rw [List.flatMap_cons] at split
  exact split.trans List.perm_append_comm

theorem otherPages_update :
    ({ h with pages := pm, slabs := Function.update h.slabs id a } : Heap).otherPages id = h.otherPages id := by
  refine List.flatMap_congr fun id' hm => ?_
  simp only [Function.update_of_ne (mem_all_erase.mp hm)]

/-- The pools and the live grants: `t` and `u` divide the page pool and the huge pool. -/
structure Keeps (h : Heap) (b c : Nat) (t u : Buddy poolK) (live : List HeapGrant) : Prop where
  pagePool : Tracks h.pages.pool b poolK t
  hugePool : Tracks h.hugePool c poolK u
  slabs : ∀ id, (h.slabs id).Tidy (ptrs live (.slab id)) ∧ (h.slabs id).size = id.objectSize ∧ (h.slabs id).maxPages = 0
  pages : (blocksAt b t).Perm ((ptrs live .page ++ h.slabPages).map pageBlock)
  huge : (blocksAt c u).Perm ((grants live .huge).map HeapGrant.block)
  usable : ∀ g ∈ live, g.request.size ≤ g.block.length

/-- Where the buffers of the pools are. -/
structure Buffers (b c : Nat) : Prop where
  pagePos : 0 < b
  hugePos : 0 < c
  pageEnd : b + pageSize * 2 ^ poolK < 2 ^ 64
  hugeEnd : c + pageSize * 2 ^ poolK < 2 ^ 64
  apart : Block.Apart ⟨b, pageSize * 2 ^ poolK⟩ ⟨c, pageSize * 2 ^ poolK⟩

theorem boot_keeps {b c : Nat} (buffers : Buffers b c) (memory : Nat → BitVec 8) :
    Keeps (boot b c memory) b c .free .free [] where
  pagePool := construct_tracks buffers.pagePos buffers.pageEnd (by decide)
  hugePool := construct_tracks buffers.hugePos buffers.hugeEnd (by decide)
  slabs id := by
    refine ⟨⟨.refl _, .refl _, rfl, rfl⟩, ?_, rfl⟩
    cases id <;> rfl
  pages := .refl _
  huge := .refl _
  usable _ hm := absurd hm List.not_mem_nil

section

variable {h h' : Heap} {b c : Nat} {t u : Buddy poolK} {live : List HeapGrant} (buffers : Buffers b c)
  (keeps : Keeps h b c t u live)

include keeps

/-! ## Where blocks are -/

theorem pages_apart : ((ptrs live .page ++ h.slabPages).map pageBlock).Pairwise Block.Apart :=
  (keeps.pages.pairwise_iff Block.Apart.symm).mp (blocksAt_apart b t)

variable {p p' : Nat} {id : SlabId}

theorem page_inside (hm : p ∈ ptrs live .page ++ h.slabPages) : (pageBlock p).Inside ⟨b, pageSize * 2 ^ poolK⟩ :=
  blocksAt_inside (keeps.pages.mem_iff.mpr (List.mem_map_of_mem hm))

/-- Pages of different slabs have no common byte. -/
theorem slabs_apart {id' : SlabId} (ho : id' ≠ id) (hm : p ∈ (h.slabs id).owned)
    (hm' : p' ∈ (h.slabs id').owned) : Block.Apart (pageBlock p') (pageBlock p) := by
  have hap := pages_apart keeps
  rw [List.map_append] at hap
  have hs := (List.pairwise_append.mp hap).2.1
  have split := (((slabPages_perm h id).map pageBlock).pairwise_iff Block.Apart.symm).mp hs
  rw [List.map_append] at split
  refine (List.pairwise_append.mp split).2.2 _ (List.mem_map_of_mem ?_) _ (List.mem_map_of_mem hm)
  exact List.mem_flatMap.mpr ⟨id', mem_all_erase.mpr ho, hm'⟩

/-- Pages of clients and pages of slabs have no common byte. -/
theorem page_slab_apart (hm : p ∈ ptrs live .page) (hm' : p' ∈ (h.slabs id).owned) :
    Block.Apart (pageBlock p) (pageBlock p') := by
  have hap := pages_apart keeps
  rw [List.map_append] at hap
  refine (List.pairwise_append.mp hap).2.2 _ (List.mem_map_of_mem hm) _ (List.mem_map_of_mem ?_)
  exact mem_slabPages hm'

/-- The block of a slab lies in one of its pages. -/
theorem slab_block (hm : g ∈ live) (ho : g.origin = .slab id) :
    ∃ p ∈ (h.slabs id).pages, g.block.Inside (pageBlock p) := by
  obtain ⟨tidy, size, -⟩ := keeps.slabs id
  have ptr : g.ptr ∈ ptrs live (.slab id) ++ (h.slabs id).free :=
    List.mem_append_left _ (List.mem_map_of_mem (mem_grants.mpr ⟨hm, ho⟩))
  obtain ⟨p, hsd, hi⟩ := ObjectAllocator.object_inside tidy ptr
  rw [size] at hi
  refine ⟨p, hsd, ?_⟩
  rw [HeapGrant.block, ho]
  exact hi

theorem huge_block (hm : g ∈ live) (ho : g.origin = .huge) : g.block ∈ blocksAt c u :=
  keeps.huge.mem_iff.mpr (List.mem_map_of_mem (mem_grants.mpr ⟨hm, ho⟩))

theorem block_inside_buffer (hm : g ∈ live) : g.block.Inside (g.origin.buffer b c) := by
  cases ho : g.origin with
  | slab id =>
    obtain ⟨p, hsd, hi⟩ := slab_block keeps hm ho
    have how : p ∈ (h.slabs id).owned := List.mem_append_left _ hsd
    exact hi.trans (page_inside keeps (List.mem_append_right _ (mem_slabPages how)))
  | page =>
    obtain ⟨same, ptr⟩ := page_block hm ho
    rw [same]
    exact page_inside keeps (List.mem_append_left _ ptr)
  | huge => exact blocksAt_inside (huge_block keeps hm ho)

/-- Blocks of one pool have no common byte. -/
theorem grants_apart (o : Origin) : ((grants live o).map HeapGrant.block).Pairwise Block.Apart := by
  cases o with
  | slab id =>
    obtain ⟨tidy, size, -⟩ := keeps.slabs id
    have hp : ((h.slabs id).pages.map pageBlock).Pairwise Block.Apart := by
      have hap := pages_apart keeps
      rw [List.map_append] at hap
      have split := (((slabPages_perm h id).map pageBlock).pairwise_iff Block.Apart.symm).mp (List.pairwise_append.mp hap).2.1
      rw [ObjectAllocator.owned, List.map_append, List.map_append] at split
      exact (List.pairwise_append.mp (List.pairwise_append.mp split).2.1).1
    have ho := ObjectAllocator.objects_apart tidy hp
    rw [List.map_append, size, ptrs, List.map_map] at ho
    have same : (grants live (.slab id)).map HeapGrant.block =
        (grants live (.slab id)).map ((fun addr => (⟨addr, id.objectSize⟩ : Block)) ∘ HeapGrant.ptr) := by
      refine List.map_congr_left fun g hm => ?_
      rw [HeapGrant.block, (mem_grants.mp hm).2]
      rfl
    rw [same]
    exact (List.pairwise_append.mp ho).1
  | page =>
    have hap := pages_apart keeps
    rw [List.map_append, ptrs, List.map_map] at hap
    have same : (grants live .page).map HeapGrant.block = (grants live .page).map (pageBlock ∘ HeapGrant.ptr) := by
      refine List.map_congr_left fun g hm => ?_
      rw [HeapGrant.block, (mem_grants.mp hm).2]
      rfl
    rw [same]
    exact (List.pairwise_append.mp hap).1
  | huge => exact (keeps.huge.pairwise_iff Block.Apart.symm).mp (blocksAt_apart c u)

include buffers

/-- Blocks of different pools have no common byte. -/
theorem origins_apart {g' : HeapGrant} (hm : g ∈ live) (hm' : g' ∈ live) (ho : g.origin ≠ g'.origin) :
    Block.Apart g.block g'.block := by
  have hi := block_inside_buffer keeps hm
  have hi' := block_inside_buffer keeps hm'
  cases hor : g.origin with
  | slab id =>
    obtain ⟨p, hsd, hb⟩ := slab_block keeps hm hor
    have how : p ∈ (h.slabs id).owned := List.mem_append_left _ hsd
    cases ho' : g'.origin with
    | slab id' =>
      obtain ⟨p', hsd', hb'⟩ := slab_block keeps hm' ho'
      have how' : p' ∈ (h.slabs id').owned := List.mem_append_left _ hsd'
      refine (slabs_apart keeps (fun same => ho ?_) how' how).inside hb hb'
      rw [hor, ho', same]
    | page =>
      obtain ⟨same, ptr⟩ := page_block hm' ho'
      rw [same]
      exact (page_slab_apart keeps ptr how).symm.inside hb (Block.Inside.refl _)
    | huge =>
      rw [hor] at hi
      rw [ho'] at hi'
      exact buffers.apart.inside hi hi'
  | page =>
    obtain ⟨same, ptr⟩ := page_block hm hor
    cases ho' : g'.origin with
    | slab id' =>
      obtain ⟨p', hsd', hb'⟩ := slab_block keeps hm' ho'
      rw [same]
      exact (page_slab_apart keeps ptr (List.mem_append_left _ hsd')).inside (Block.Inside.refl _) hb'
    | page => exact absurd (hor.trans ho'.symm) ho
    | huge =>
      rw [hor] at hi
      rw [ho'] at hi'
      exact buffers.apart.inside hi hi'
  | huge =>
    rw [hor] at hi
    cases ho' : g'.origin with
    | huge => exact absurd (hor.trans ho'.symm) ho
    | slab id' =>
      rw [ho'] at hi'
      exact buffers.apart.symm.inside hi hi'
    | page =>
      rw [ho'] at hi'
      exact buffers.apart.symm.inside hi hi'

/-- Live blocks have no common byte. -/
theorem live_apart : (live.map HeapGrant.block).Pairwise Block.Apart :=
  List.pairwise_map.mpr (pairwise_of_classes HeapGrant.origin (fun o => List.pairwise_map.mp (grants_apart keeps o))
    fun _ hm _ hm' ho => origins_apart buffers keeps hm hm' ho)

end

end Heap

end Gevisor.MemoryManager
