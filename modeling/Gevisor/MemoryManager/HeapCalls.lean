import Gevisor.MemoryManager.HeapBlocks

/-! # What the functions of the memory manager do to the blocks

A pointer that is given back is recognised by the pool that it came from, and every call keeps the pools and the live
grants in step.
-/

namespace Gevisor.MemoryManager.Heap

open Lib BuddyAllocator

variable {h h' : Heap} {b c : Nat} {t u : Buddy poolK} {live live' : List HeapGrant} {id : SlabId} {g : HeapGrant}

variable {a : BuddyAllocator} {k : Nat}

theorem contains_iff {v : Buddy k} (htr : Tracks a b k v) (p : Nat) :
    a.contains p = true ↔ Block.Has ⟨b, pageSize * 2 ^ k⟩ p := by
  rw [BuddyAllocator.contains, decide_eq_true_eq, htr.buffer, htr.size, Nat.mod_eq_of_lt htr.addressable.2]
  rfl

theorem objectSize_pos (id : SlabId) : 0 < id.objectSize ∧ id.objectSize ≤ pageSize := by cases id <;> decide

/-- `deallocate` of one pool. -/
def giveBack (o : Origin) (ptr : Nat) : HeapM Unit := match o with
  | .slab id => onSlab id (ObjectAllocator.deallocate PageMemory.allocPageCleared ptr)
  | .page => freePage ptr
  | .huge => onHugePool (BuddyAllocator.deallocate ptr)

/-- The size of a block in use. -/
theorem size_of_block {v : Buddy k} (htr : Tracks a b k v) {x : Block}
    (hm : x ∈ blocksAt b v) : BuddyAllocator.size x.start a = .ok x.length a := by
  obtain ⟨⟨i, j⟩, unit, rfl⟩ := List.mem_map.mp hm
  have pos := htr.pos
  have hl : v.levelAt i = some j := Buddy.levelAt_block (o := 0) (by rw [Nat.zero_add]; exact unit)
  rw [size_spec htr (show b + pageSize * i ≠ 0 by omega), Client.pageAt_place, hl]
  rfl

/-! ## Finding the owner -/

theorem slabOf_eq_none {p : Nat} (hout : ∀ id, ∀ page ∈ (h.slabs id).pages, ¬ (pageBlock page).Has p) :
    h.slabOf p = none := by
  refine List.find?_eq_none.mpr fun id _ hc => ?_
  obtain ⟨page, hsd, has⟩ := (ObjectAllocator.contains_iff _ p).mp hc
  exact hout id page hsd has

section

variable (buffers : Buffers b c) (keeps : Keeps h b c t u live)

include keeps

theorem block_filled (hm : g ∈ live) : 0 < g.block.length := by
  cases ho : g.origin with
  | slab id =>
    rw [HeapGrant.block, ho]
    exact (objectSize_pos id).1
  | page =>
    rw [HeapGrant.block, ho]
    exact (show 0 < pageSize by decide)
  | huge =>
    obtain ⟨unit, -, same⟩ := List.mem_map.mp (huge_block keeps hm ho)
    rw [← same]
    exact Nat.mul_pos (by decide) (Nat.two_pow_pos _)

theorem ptr_ne_zero (hm : g ∈ live) : g.ptr ≠ 0 := by
  have hs := (block_inside_buffer keeps hm).1
  have page := keeps.pagePool.pos
  have huge := keeps.hugePool.pos
  simp only [HeapGrant.block] at hs
  cases ho : g.origin with
  | slab id =>
    simp only [ho, Origin.buffer] at hs
    omega
  | page =>
    simp only [ho, Origin.buffer] at hs
    omega
  | huge =>
    simp only [ho, Origin.buffer] at hs
    omega

theorem slabOf_slab (hm : g ∈ live) (ho : g.origin = .slab id) : h.slabOf g.ptr = some id := by
  obtain ⟨page, hsd, hi⟩ := slab_block keeps hm ho
  have has : (pageBlock page).Has g.ptr := hi.has (Block.Has.start (block_filled keeps hm))
  have only (id' : SlabId) (hc : (h.slabs id').contains g.ptr = true) : id' = id := by
    obtain ⟨page', hsd', has'⟩ := (ObjectAllocator.contains_iff _ _).mp hc
    by_contra hot
    have hap := slabs_apart keeps hot (List.mem_append_left _ hsd) (List.mem_append_left _ hsd')
    exact hap.not_has has' has
  cases hf : h.slabOf g.ptr with
  | none =>
    have none := List.find?_eq_none.mp hf id (mem_all id)
    exact absurd ((ObjectAllocator.contains_iff _ _).mpr ⟨page, hsd, has⟩) none
  | some id' =>
    have hc := List.find?_some (p := fun id => (h.slabs id).contains g.ptr) hf
    rw [only id' hc]

theorem slabOf_page (hm : g ∈ live) (ho : g.origin = .page) : h.slabOf g.ptr = none := by
  obtain ⟨same, ptr⟩ := page_block hm ho
  have has := Block.Has.start (block_filled keeps hm)
  rw [same] at has
  exact slabOf_eq_none fun id page hsd => (page_slab_apart keeps ptr (List.mem_append_left _ hsd)).not_has has

include buffers

theorem slabOf_huge (hm : g ∈ live) (ho : g.origin = .huge) : h.slabOf g.ptr = none := by
  have hi := block_inside_buffer keeps hm
  rw [ho] at hi
  have has : Block.Has ⟨c, pageSize * 2 ^ poolK⟩ g.ptr := hi.has (Block.Has.start (block_filled keeps hm))
  refine slabOf_eq_none fun id page hsd has' => ?_
  have how : page ∈ (h.slabs id).owned := List.mem_append_left _ hsd
  have hi' := page_inside keeps (List.mem_append_right _ (mem_slabPages how))
  exact buffers.apart.not_has (hi'.has has') has

/-- The huge pool recognises its own blocks. -/
theorem hugePool_contains (hm : g ∈ live) : h.hugePool.contains g.ptr = true ↔ g.origin = .huge := by
  have hi := block_inside_buffer keeps hm
  have has := hi.has (Block.Has.start (block_filled keeps hm))
  rw [contains_iff keeps.hugePool]
  cases hor : g.origin with
  | slab id =>
    rw [hor] at has
    exact iff_of_false (buffers.apart.not_has has) (fun ho => by cases ho)
  | page =>
    rw [hor] at has
    exact iff_of_false (buffers.apart.not_has has) (fun ho => by cases ho)
  | huge =>
    rw [hor] at has
    exact iff_of_true has rfl

/-- `size` of a live pointer is the length of its block. -/
theorem size_eq (hm : g ∈ live) : size g.ptr h = .ok g.block.length h := by
  rw [size, get_bind]
  cases hor : g.origin with
  | slab id =>
    rw [slabOf_slab keeps hm hor, HeapGrant.length_slab hor, ← (keeps.slabs id).2.1]
    rfl
  | page =>
    obtain ⟨same, ptr⟩ := page_block hm hor
    have hi := block_inside_buffer keeps hm
    rw [hor] at hi
    have here := (contains_iff keeps.pagePool g.ptr).mpr (hi.has (Block.Has.start (block_filled keeps hm)))
    have he : ¬ h.hugePool.contains g.ptr = true := by
      rw [hugePool_contains buffers keeps hm, hor]
      exact fun ho => by cases ho
    have used : pageBlock g.ptr ∈ blocksAt b t :=
      keeps.pages.mem_iff.mpr (List.mem_map_of_mem (List.mem_append_left _ ptr))
    have spec : BuddyAllocator.size g.ptr h.pages.pool = .ok pageSize h.pages.pool := size_of_block keeps.pagePool used
    rw [slabOf_page keeps hm hor, same]
    simp only [if_neg he, sizePage, get_bind, if_pos here, onPages, PageMemory.onPool, zoom, spec]
    rfl
  | huge =>
    have here := (hugePool_contains buffers keeps hm).mpr hor
    have spec : BuddyAllocator.size g.ptr h.hugePool = .ok g.block.length h.hugePool :=
      size_of_block keeps.hugePool (huge_block keeps hm hor)
    rw [slabOf_huge buffers keeps hm hor]
    simp only [if_pos here, onHugePool, zoom, spec]

/-- `free` of a live pointer gives it back to the pool that it came from. -/
theorem free_eq (hm : g ∈ live) : free g.ptr h = giveBack g.origin g.ptr h := by
  rw [free, get_bind]
  have huge := hugePool_contains buffers keeps hm
  cases ho : g.origin with
  | slab id => rw [slabOf_slab keeps hm ho, giveBack]
  | page =>
    rw [slabOf_page keeps hm ho, giveBack]
    simp only [huge, ho]
    rfl
  | huge =>
    rw [slabOf_huge buffers keeps hm ho, giveBack]
    simp only [huge, ho]
    rfl

end

theorem wp_orNull {σ : Type} {call : EStateM Failure σ Nat} {Q : Nat → σ → Prop} {X : Failure → σ → Prop} {s : σ} :
    wp (orNull call) Q X s ↔ wp call Q (fun e s' => if e.isExn then Q 0 s' else X e s') s := by
  simp only [wp, orNull]
  cases call s with
  | ok p s' => rfl
  | error e s' => by_cases exn : e.isExn <;> simp [exn]

/-! ## Calls of a slab -/

/-- What a slab can count on while the others keep their pages. -/
abbrev ServesSlab (h : Heap) (b : Nat) (live : List HeapGrant) (id : SlabId) : PageMemory → List Nat → Prop :=
  PageMemory.Serves b (ptrs live .page ++ h.otherPages id) (h.slabs id).owned h.pages.memory

abbrev DrySlab (h : Heap) (live : List HeapGrant) (id : SlabId) (n : Nat) : Prop :=
  (ptrs live .page ++ h.otherPages id).length + n = 2 ^ poolK

section

variable (keeps : Keeps h b c t u live)

include keeps

theorem usable_cons (fits : g.request.size ≤ g.block.length) :
    ∀ g' ∈ g :: live, g'.request.size ≤ g'.block.length := by
  intro g' member
  obtain rfl | member := List.mem_cons.mp member
  · exact fits
  · exact keeps.usable g' member

/-- The pages in use, with those of one slab at the end. -/
theorem pages_split (id : SlabId) :
    (blocksAt b t).Perm ((ptrs live .page ++ h.otherPages id ++ (h.slabs id).owned).map pageBlock) := by
  refine keeps.pages.trans (.map _ ?_)
  rw [List.append_assoc]
  exact (slabPages_perm h id).append_left _

theorem wp_onSlab {α : Type} {call : SlabM PageMemory α} {n : Nat} {Q : α → ObjectAllocator → Prop}
    (ht : ObjectAllocator.Takes (ServesSlab h b live id) (DrySlab h live id) call n Q ⟨h.slabs id, h.pages⟩) :
    wp (onSlab id call) (fun r h' => ∃ a pm, h' = { h with pages := pm, slabs := Function.update h.slabs id a } ∧ Q r a ∧
        ServesSlab h b live id pm a.owned ∧ t.inUse + n ≤ 2 ^ poolK)
      (fun e _ => e = .nullDereference ∧ 2 ^ poolK < t.inUse + n) h := by
  have split := pages_split keeps id
  have hc := inUse_of_pages split
  have hbo := t.inUse_le
  have owns : ServesSlab h b live id h.pages (h.slabs id).owned :=
    ⟨t, [], keeps.pagePool, split, .refl _, fun _ _ => rfl⟩
  rw [List.length_append] at hc
  rw [onSlab, wp_zoom]
  refine wp_mono ?_ ?_ (ht owns)
  · rintro r s ⟨post, hs, -, wet⟩
    refine ⟨s.allocator, s.source, rfl, post, hs, ?_⟩
    by_contra hsh
    exact wet (2 ^ poolK - t.inUse) (by omega) (by simp only; omega)
  · rintro e s ⟨hf, m, less, dry⟩
    refine ⟨hf, ?_⟩
    simp only at dry
    omega

variable {pm : PageMemory} {r : Request}

/-- The pools after a call of a slab that changed its own grants. -/
theorem keeps_of_slab {a : ObjectAllocator} (hs : ServesSlab h b live id pm a.owned)
    (tidy : a.Tidy (ptrs live' (.slab id))) (size : a.size = id.objectSize) (hl : a.maxPages = 0)
    (hot : ∀ o, o ≠ .slab id → (grants live o).Perm (grants live' o))
    (hu : ∀ g ∈ live', g.request.size ≤ g.block.length) :
    ∃ t', Keeps { h with pages := pm, slabs := Function.update h.slabs id a } b c t' u live' := by
  obtain ⟨t', -, htr, hb, -⟩ := hs
  refine ⟨t', htr, keeps.hugePool, fun id' => ?_, ?_, ?_, hu⟩
  · by_cases same : id' = id
    · rw [same]
      simp only [Function.update_self]
      exact ⟨tidy, size, hl⟩
    · simp only [Function.update_of_ne same]
      obtain ⟨tidy', rest⟩ := keeps.slabs id'
      refine ⟨tidy'.perm ((hot _ fun heq => same ?_).map _), rest⟩
      cases heq
      rfl
  · have hp := (slabPages_perm { h with pages := pm, slabs := Function.update h.slabs id a } id).symm
    rw [otherPages_update] at hp
    simp only [Function.update_self] at hp
    refine hb.trans (.map _ ?_)
    rw [List.append_assoc]
    have ptrs_ : (ptrs live .page).Perm (ptrs live' .page) := (hot .page fun ho => by cases ho).map _
    exact ptrs_.append hp
  · exact keeps.huge.trans ((hot .huge fun ho => by cases ho).map _)

/-- A call of a slab leaves the memory of all live blocks alone. -/
theorem memory_of_slab (buffers : Buffers b c) {ps : List Nat} (hs : ServesSlab h b live id pm ps)
    (hm : g ∈ live) {x : Nat} (has : g.block.Has x) : pm.memory x = h.pages.memory x := by
  have hap := PageMemory.serves_apart hs
  obtain ⟨t', hfr, -, hb, split, kept⟩ := hs
  -- The pages that the slab has got lie apart from all others.
  have hor : ((ptrs live .page ++ h.otherPages id ++ ps).map pageBlock).Perm
      (((ptrs live .page ++ h.otherPages id ++ (h.slabs id).owned) ++ hfr).map pageBlock) := by
    rw [List.append_assoc _ (h.slabs id).owned]
    exact ((split.trans List.perm_append_comm).append_left _).map _
  have hn := (hor.pairwise_iff Block.Apart.symm).mp hap
  rw [List.map_append] at hn
  have away {p : Nat} (old : p ∈ ptrs live .page ++ h.otherPages id ++ (h.slabs id).owned) {p' : Nat} (new : p' ∈ hfr) :
      Block.Apart (pageBlock p) (pageBlock p') :=
    (List.pairwise_append.mp hn).2.2 _ (List.mem_map_of_mem old) _ (List.mem_map_of_mem new)
  refine kept x fun p new => ?_
  cases ho : g.origin with
  | slab id' =>
    obtain ⟨page, hsd, hi⟩ := slab_block keeps hm ho
    have how : page ∈ (h.slabs id').owned := List.mem_append_left _ hsd
    refine (away ?_ new).not_has (hi.has has)
    have old := (slabPages_perm h id).mem_iff.mp (mem_slabPages how)
    rw [List.append_assoc]
    exact List.mem_append_right _ old
  | page =>
    obtain ⟨same, ptr⟩ := page_block hm ho
    rw [same] at has
    exact (away (List.mem_append_left _ (List.mem_append_left _ ptr)) new).not_has has
  | huge =>
    have hi := block_inside_buffer keeps hm
    rw [ho] at hi
    have page : pageBlock p ∈ blocksAt b t' := hb.mem_iff.mpr (List.mem_map_of_mem
      (List.mem_append_right _ (split.mem_iff.mpr (List.mem_append_left _ new))))
    exact fun hin => buffers.apart.not_has ((blocksAt_inside page).has hin) (hi.has has)

/-- A slab gives an object, unless it needs more pages than there are. -/
theorem wp_alloc_slab (buffers : Buffers b c) {size : Nat} (slab : slabFor size = some id) :
    wp (onSlab id (ObjectAllocator.allocate PageMemory.allocPageCleared))
      (fun p h' => p ≠ 0 ∧ (∃ t', Keeps h' b c t' u (⟨p, .alloc size⟩ :: live)) ∧
        (∀ g ∈ live, ∀ x, g.block.Has x → h'.pages.memory x = h.pages.memory x) ∧
        t.inUse + (h.slabs id).demand ≤ 2 ^ poolK)
      (fun e _ => e = .nullDereference ∧ 2 ^ poolK < t.inUse + (h.slabs id).demand) h := by
  obtain ⟨tidy, hf, hl⟩ := keeps.slabs id
  have hb : (h.slabs id).freeStack = [] → ¬ (h.slabs id).Spent := fun _ hsp => hsp.1 hl
  have ht := @ObjectAllocator.takes_allocate _ _ _ _
    (PageMemory.pool_source b (ptrs live .page ++ h.otherPages id) (h.slabs id).owned h.pages.memory)
    ⟨h.slabs id, h.pages⟩ _ tidy hb (hf ▸ objectSize_pos id)
  refine wp_mono ?_ (fun _ _ hfa => hfa) (wp_onSlab keeps ht)
  rintro p h' ⟨a, pm, rfl, ⟨tidy', hf', hl'⟩, hs, fits⟩
  have hor : (⟨p, .alloc size⟩ : HeapGrant).origin = .slab id := by
    simp only [HeapGrant.origin, Request.origin, slab]
  have more : ptrs (⟨p, .alloc size⟩ :: live) (.slab id) = p :: ptrs live (.slab id) := by
    rw [ptrs, grants_cons_same hor]
    rfl
  rw [← more] at tidy'
  have hot (o : Origin) (ho : o ≠ .slab id) : (grants live o).Perm (grants (⟨p, .alloc size⟩ :: live) o) := by
    rw [grants_cons_other (by rw [hor]; exact ho.symm)]
  obtain ⟨t', hkp'⟩ := keeps_of_slab keeps hs tidy' (hf'.trans hf) (hl'.trans hl) hot
    (usable_cons keeps (HeapGrant.size_le_of_small (by rw [hor]; exact fun ho => by cases ho)))
  have hi := block_inside_buffer hkp' List.mem_cons_self
  rw [hor] at hi
  have hst := hi.1
  have pos := keeps.pagePool.pos
  simp only [HeapGrant.block, Origin.buffer] at hst
  exact ⟨by omega, ⟨t', hkp'⟩, fun g hm x has => memory_of_slab keeps buffers hs hm has, fits⟩

/-! ## Calls of the pools -/

/-- What a request gets: the null pointer and nothing changes, or a new block. -/
def Answered (h : Heap) (b c : Nat) (live : List HeapGrant) (r : Request) (p : Nat) (h' : Heap) : Prop :=
  (p = 0 ∧ h' = h) ∨ (p ≠ 0 ∧ (∃ t u, Keeps h' b c t u (⟨p, r⟩ :: live)) ∧
    ∀ g ∈ live, ∀ x, g.block.Has x → h'.pages.memory x = h.pages.memory x)

theorem wp_alloc_page (page : r.origin = .page) :
    wp (onPages PageMemory.allocPage) (Answered h b c live r) (fun _ _ => False) h := by
  have spec := PageMemory.allocPage_spec keeps.pagePool
  rw [onPages, wp_zoom]
  cases htk : t.take 0 with
  | none =>
    rw [htk] at spec
    rw [wp_of_ok spec]
    exact .inl ⟨rfl, rfl⟩
  | some hf =>
    rw [htk] at spec
    obtain ⟨a, hret, htr⟩ := spec
    have pos := keeps.pagePool.pos
    have hor : (⟨b + pageSize * hf.1, r⟩ : HeapGrant).origin = .page := page
    rw [wp_of_ok hret]
    have fits := HeapGrant.size_le_of_small (by rw [hor]; exact fun ho => by cases ho)
    refine .inr ⟨by omega, ⟨hf.2, u, htr, keeps.hugePool, fun id => ?_, ?_, ?_, usable_cons keeps fits⟩,
      fun _ _ _ _ => rfl⟩
    · rw [ptrs, grants_cons_other (by rw [hor]; exact fun ho => by cases ho)]
      exact keeps.slabs id
    · rw [ptrs, grants_cons_same hor]
      exact (blocksAt_take htk).trans (keeps.pages.cons _)
    · rw [grants_cons_other (by rw [hor]; exact fun ho => by cases ho)]
      exact keeps.huge

theorem wp_alloc_huge (huge : r.origin = .huge) :
    wp (orNull (onHugePool (BuddyAllocator.allocate r.size))) (Answered h b c live r) (fun _ _ => False) h := by
  have spec := allocate_spec keeps.hugePool r.size
  rw [wp_orNull, onHugePool, wp_zoom]
  split at spec
  · rw [wp_of_error spec, if_pos (show Failure.badAlloc.isExn = true from rfl)]
    exact .inl ⟨rfl, rfl⟩
  · next hacc =>
    cases htk : u.take (levelFor r.size) with
    | none =>
      rw [htk] at spec
      rw [wp_of_error spec, if_pos (show Failure.badAlloc.isExn = true from rfl)]
      exact .inl ⟨rfl, rfl⟩
    | some hf =>
      rw [htk] at spec
      obtain ⟨a, hret, htr⟩ := spec
      have pos := keeps.hugePool.pos
      have fits : r.size ≤ pageSize * 2 ^ poolK := by omega
      have hor : (⟨c + pageSize * hf.1, r⟩ : HeapGrant).origin = .huge := huge
      have hb : (⟨c + pageSize * hf.1, r⟩ : HeapGrant).block =
          ⟨c + pageSize * hf.1, pageSize * 2 ^ levelFor r.size⟩ := by
        rw [HeapGrant.block, hor]
        exact congrArg (Block.mk _) (keeps.hugePool.blockLength_eq fits).1
      rw [wp_of_ok hret]
      have hu : r.size ≤ (⟨c + pageSize * hf.1, r⟩ : HeapGrant).block.length := by
        rw [hb]
        exact le_levelFor r.size
      refine .inr ⟨by omega, ⟨t, hf.2, keeps.pagePool, htr, fun id => ?_, ?_, ?_, usable_cons keeps hu⟩,
        fun _ _ _ _ => rfl⟩
      · rw [ptrs, grants_cons_other (by rw [hor]; exact fun ho => by cases ho)]
        exact keeps.slabs id
      · rw [ptrs, grants_cons_other (by rw [hor]; exact fun ho => by cases ho)]
        exact keeps.pages
      · rw [grants_cons_same hor, List.map_cons, hb]
        exact (blocksAt_take htk).trans (keeps.huge.cons _)

/-- The pages that a request takes for a slab. -/
def demand (h : Heap) (size : Nat) : Nat := if size = 0 then 0 else match slabFor size with
  | some id => (h.slabs id).demand
  | none => 0

/-- `alloc` answers every request for which the slab gets the pages it needs, and faults otherwise. -/
theorem wp_alloc (buffers : Buffers b c) (size : Nat) :
    wp (alloc size) (fun p h' => Answered h b c live (.alloc size) p h' ∧ t.inUse + h.demand size ≤ 2 ^ poolK ∧
        (size ≠ 0 → slabFor size ≠ none → p ≠ 0))
      (fun e _ => e = .nullDereference ∧ 2 ^ poolK < t.inUse + h.demand size) h := by
  have hbo := t.inUse_le
  rw [alloc]
  split
  · next zero =>
    rw [demand, if_pos zero]
    exact ⟨.inl ⟨rfl, rfl⟩, hbo, fun hfi => absurd zero hfi⟩
  · next hfi =>
    rw [allocFrom, demand, if_neg hfi]
    cases slab : slabFor size with
    | some id =>
      rw [wp_orNull]
      refine wp_mono ?_ ?_ (wp_alloc_slab keeps buffers slab)
      · rintro p h' ⟨hnn, ⟨t', hkp'⟩, hm, fits⟩
        exact ⟨.inr ⟨hnn, ⟨t', u, hkp'⟩, hm⟩, fits, fun _ _ => hnn⟩
      · rintro e h' ⟨rfl, hs⟩
        exact ⟨rfl, hs⟩
    | none =>
      simp only
      have hor : (Request.alloc size).origin = if pageSize < size then .huge else .page := by
        simp only [Request.origin, slab]
      split
      · next hl =>
        rw [if_pos hl] at hor
        refine wp_mono ?_ (fun _ _ none => none.elim) (wp_alloc_huge keeps hor)
        exact fun p h' ha => ⟨ha, hbo, fun _ ho => absurd rfl ho⟩
      · next hsm =>
        rw [if_neg hsm] at hor
        rw [wp_orNull]
        refine wp_mono ?_ (fun _ _ none => none.elim) (wp_alloc_page keeps hor)
        exact fun p h' ha => ⟨ha, hbo, fun _ ho => absurd rfl ho⟩

/-- A live block becomes free in its pool. -/
theorem giveBack_spec (hm : g ∈ live) : ∃ h', giveBack g.origin g.ptr h = .ok () h' ∧
    (∃ t' u', Keeps h' b c t' u' (live.erase g)) ∧ h'.pages.memory = h.pages.memory := by
  have ho {o : Origin} (hd : o ≠ g.origin) : (grants live o).Perm (grants (live.erase g) o) :=
    grants_erase_other hm hd.symm
  have gone := grants_erase_same hm
  have hu : ∀ g' ∈ live.erase g, g'.request.size ≤ g'.block.length := fun g' rest =>
    keeps.usable g' (List.mem_of_mem_erase rest)
  cases hor : g.origin with
  | slab id =>
    rw [hor] at gone ho
    obtain ⟨tidy, hf, hli⟩ := keeps.slabs id
    have ptr : g.ptr ∈ ptrs live (.slab id) := List.mem_map_of_mem (mem_grants.mpr ⟨hm, hor⟩)
    have ht := @ObjectAllocator.takes_deallocate _ _ _ _
      (PageMemory.pool_source b (ptrs live .page ++ h.otherPages id) (h.slabs id).owned h.pages.memory)
      ⟨h.slabs id, h.pages⟩ _ tidy g.ptr ptr
    have hn (e : Failure) (h' : Heap) (hfa : e = .nullDereference ∧ 2 ^ poolK < t.inUse + 0) : False :=
      Nat.not_lt.mpr t.inUse_le hfa.2
    have ends := wp_mono (fun _ _ post => post) hn (wp_onSlab keeps ht)
    obtain ⟨_, h', hret, a, pm, rfl, ⟨tidy', same⟩, hs, -⟩ := exists_of_wp ends
    have gone' : ((ptrs live (.slab id)).erase g.ptr).Perm (ptrs (live.erase g) (.slab id)) := by
      have he := (gone.map HeapGrant.ptr).erase g.ptr
      rw [List.map_cons, List.erase_cons_head] at he
      exact he
    obtain ⟨t', hkp'⟩ := keeps_of_slab keeps hs (tidy'.perm gone') (by rw [same]; exact hf) (by rw [same]; exact hli)
      (fun o hd => ho hd) hu
    refine ⟨_, hret, ⟨t', u, hkp'⟩, funext fun x => ?_⟩
    -- No page has been taken.
    obtain ⟨-, hfr, -, -, split, kept⟩ := hs
    have hl := split.length_eq
    rw [same, List.length_append] at hl
    have none : hfr = [] := List.length_eq_zero_iff.mp (by
      have : (h.slabs id).owned.length = hfr.length + (h.slabs id).owned.length := hl
      omega)
    exact kept x fun p new => by rw [none] at new; cases new
  | page =>
    rw [hor] at gone ho
    have gone' : (ptrs live .page).Perm (g.ptr :: ptrs (live.erase g) .page) := gone.map _
    have hb : (blocksAt b t).Perm (pageBlock g.ptr :: (ptrs (live.erase g) .page ++ h.slabPages).map pageBlock) :=
      keeps.pages.trans ((gone'.append_right _).map _)
    obtain ⟨t', hgi, rest⟩ := blocksAt_give hb
    have hnn := ptr_ne_zero keeps hm
    have spec := deallocate_spec keeps.pagePool hnn
    rw [show pageAt b g.ptr = pageAt b (pageBlock g.ptr).start from rfl, hgi] at spec
    obtain ⟨a, hret, htr⟩ := spec
    refine ⟨{ h with pages := { h.pages with pool := a } }, ?_, ⟨t', u, htr, keeps.hugePool, fun id => ?_, rest, ?_, hu⟩, rfl⟩
    · simp only [giveBack, freePage, onPages, PageMemory.onPool, zoom, hret]
    · obtain ⟨tidy, hf⟩ := keeps.slabs id
      exact ⟨tidy.perm ((ho fun ho => by cases ho).map _), hf⟩
    · exact keeps.huge.trans ((ho fun ho => by cases ho).map _)
  | huge =>
    rw [hor] at gone ho
    obtain ⟨u', hgi, rest⟩ := blocksAt_give (keeps.huge.trans (gone.map HeapGrant.block))
    have hnn := ptr_ne_zero keeps hm
    have spec := deallocate_spec keeps.hugePool hnn
    rw [show pageAt c g.ptr = pageAt c g.block.start from rfl, hgi] at spec
    obtain ⟨a, hret, htr⟩ := spec
    refine ⟨{ h with hugePool := a }, ?_, ⟨t, u', keeps.pagePool, htr, fun id => ?_, ?_, rest, hu⟩, rfl⟩
    · simp only [giveBack, onHugePool, zoom, hret]
    · obtain ⟨tidy, hf⟩ := keeps.slabs id
      exact ⟨tidy.perm ((ho fun ho => by cases ho).map _), hf⟩
    · have hp : (ptrs live .page).Perm (ptrs (live.erase g) .page) := (ho fun ho => by cases ho).map _
      exact keeps.pages.trans ((hp.append_right _).map _)

/-- Copies between blocks do not concern the pools. -/
theorem keeps_memory (memory : Nat → BitVec 8) :
    Keeps { h with pages := { h.pages with memory := memory } } b c t u live :=
  ⟨keeps.pagePool, keeps.hugePool, keeps.slabs, keeps.pages, keeps.huge, keeps.usable⟩

/-- The null pointer has no size. -/
theorem size_null : size 0 h = .ok 0 h := by
  have page := keeps.pagePool.pos
  have huge := keeps.hugePool.pos
  have none : h.slabOf 0 = none := by
    refine slabOf_eq_none fun id page hsd has => ?_
    have ho : page ∈ (h.slabs id).owned := List.mem_append_left _ hsd
    have hi := (page_inside keeps (List.mem_append_right _ (mem_slabPages ho))).has has
    simp only [Block.Has] at hi
    omega
  have hn : ¬ h.hugePool.contains 0 = true := by
    rw [contains_iff keeps.hugePool]
    simp only [Block.Has]
    omega
  have hno : ¬ h.pages.pool.contains 0 = true := by
    rw [contains_iff keeps.pagePool]
    simp only [Block.Has]
    omega
  rw [size, get_bind, none]
  simp only [if_neg hn, sizePage, get_bind, if_neg hno]
  rfl

end

end Gevisor.MemoryManager.Heap
