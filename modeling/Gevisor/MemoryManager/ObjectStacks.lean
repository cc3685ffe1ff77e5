import Gevisor.Lib.Blocks
import Gevisor.MemoryManager.ObjectAllocator

/-! # What the stacks of an object allocator hold

Every function is described by how many pages it takes and by what it does to the stacks. Where the pages come from
is left open: `PageSource` says what is needed of `alloc_page`.
-/

namespace Gevisor.MemoryManager

open Lib

/-- The page at an address. -/
def pageBlock (p : Nat) : Block := ⟨p, pageSize⟩

/-- What `alloc_page` guarantees to a client that owns some pages: the page it returns is a new one, until there are
none left for a client with so many, and then it faults. -/
structure PageSource {P : Type} (allocPage : EStateM Failure P Nat) (Owns : P → List Nat → Prop) (Dry : Nat → Prop) :
    Prop where
  alloc : ∀ {s ps}, Owns s ps → wp allocPage (fun p s' => p ≠ 0 ∧ ¬ Dry ps.length ∧ Owns s' (p :: ps))
    (fun e _ => e = .nullDereference ∧ Dry ps.length) s
  perm : ∀ {s ps ps'}, ps.Perm ps' → Owns s ps → Owns s ps'
  apart : ∀ {s ps}, Owns s ps → (ps.map pageBlock).Pairwise Block.Apart

namespace ObjectAllocator

/-! ## Contents of the stacks -/

/-- The pages that objects are cut from. -/
def pages (a : ObjectAllocator) : List Nat := a.pageStack.flatMap PageStack.pool

/-- All pages that have been taken from the source. -/
def owned (a : ObjectAllocator) : List Nat :=
  a.pages ++ (a.pageStack.map PageStack.base ++ a.objtStack.map ObjectStack.base)

/-- The records that have been handed out. -/
def records (a : ObjectAllocator) : List Nat :=
  a.objtStack.flatMap fun stack => (List.range stack.index).map fun i => stack.base + objectSize * i

/-- The addresses of the first `n` objects of a page. -/
def objectsOf (size page n : Nat) : List Nat := (List.range n).map fun i => page + size * i

/-- The addresses of the objects that can be handed out next. -/
def free (a : ObjectAllocator) : List Nat := a.freeStack.map Object.addr

/-- Pages that are taken for `n` records. -/
def recordPages (room n : Nat) : Nat := (n - room + (poolSize - 1)) / poolSize

/-- Pages that are taken for one more page of objects. -/
def growth (a : ObjectAllocator) : Nat :=
  (if a.pageRoom = 0 then 1 else 0) + 1 + recordPages a.objtRoom (pageSize / a.size)

/-- Pages that `allocate` takes. -/
def demand (a : ObjectAllocator) : Nat := if a.freeStack = [] then a.growth else 0

/-- The stacks, with `live` the objects in the hands of clients and `carved` all objects. -/
structure Holds (a : ObjectAllocator) (live carved : List Nat) : Prop where
  objects : (live ++ a.free).Perm carved
  records : ((a.freeStack ++ a.usedStack).map Object.loc).Perm a.records
  used : a.usedStack.length = live.length
  consumed : a.pagesConsumed = a.pages.length

/-- The objects of all pages. -/
def carved (a : ObjectAllocator) : List Nat := a.pages.flatMap fun page => objectsOf a.size page (pageSize / a.size)

/-- All objects of all pages are either free or live. -/
def Tidy (a : ObjectAllocator) (live : List Nat) : Prop := a.Holds live a.carved

theorem Holds.perm {a : ObjectAllocator} {live carved carved' : List Nat} (hh : a.Holds live carved)
    (same : carved.Perm carved') : a.Holds live carved' :=
  ⟨hh.objects.trans same, hh.records, hh.used, hh.consumed⟩

theorem Tidy.perm {a : ObjectAllocator} {live live' : List Nat} (tidy : a.Tidy live) (same : live.Perm live') :
    a.Tidy live' :=
  ⟨(same.symm.append_right _).trans tidy.objects, tidy.records, tidy.used.trans same.length_eq, tidy.consumed⟩

theorem carved_length (a : ObjectAllocator) : a.carved.length = a.pages.length * (pageSize / a.size) := by
  simp only [carved, objectsOf, List.length_flatMap, List.length_map, List.length_range, List.map_const',
    List.sum_replicate_nat]

/-- The objects of one more page. -/
theorem carved_push {a a' : ObjectAllocator} {page : Nat} (hp : a'.pages.Perm (page :: a.pages))
    (size : a'.size = a.size) :
    (((List.range' 0 (pageSize / a.size)).map fun j => page + a.size * j).reverse ++ a.carved).Perm a'.carved := by
  have each := hp.flatMap_right fun page => objectsOf a.size page (pageSize / a.size)
  rw [carved, carved, size]
  refine .trans ?_ each.symm
  rw [List.flatMap_cons, objectsOf, List.range_eq_range']
  exact (List.reverse_perm _).append_right _

section

variable {P : Type} {allocPage : EStateM Failure P Nat} {Owns : P → List Nat → Prop} {Dry : Nat → Prop}
  (source : PageSource allocPage Owns Dry)

/-- The source is asked for `n` pages: either all of them are there, or one of them is not. -/
def Takes (Owns : P → List Nat → Prop) (Dry : Nat → Prop) {α : Type} (c : SlabM P α) (n : Nat)
    (Q : α → ObjectAllocator → Prop) (s : Slab P) : Prop :=
  Owns s.source s.allocator.owned → wp c
    (fun r s' => Q r s'.allocator ∧ Owns s'.source s'.allocator.owned ∧
      s'.allocator.owned.length = s.allocator.owned.length + n ∧ ∀ m < n, ¬ Dry (s.allocator.owned.length + m))
    (fun e _ => e = .nullDereference ∧ ∃ m < n, Dry (s.allocator.owned.length + m)) s

variable {α β : Type} {c : SlabM P α} {s : Slab P} {n : Nat} {Q : α → ObjectAllocator → Prop}

variable {Q' : β → ObjectAllocator → Prop} {live : List Nat}

theorem Takes.bind {k : α → SlabM P β} {n' N : Nat} (first : Takes Owns Dry c n Q s)
    (hs : ∀ r s', Q r s'.allocator → Takes Owns Dry (k r) n' Q' s') (ht : n + n' = N) :
    Takes Owns Dry (c >>= k) N Q' s := by
  intro owns
  rw [wp_bind]
  refine wp_mono ?_ ?_ (first owns)
  · rintro r s' ⟨post, owns', hl, wet⟩
    refine wp_mono ?_ ?_ (hs r s' post owns')
    · rintro r' s'' ⟨post', owns'', hl', wet'⟩
      refine ⟨post', owns'', by omega, fun m less => ?_⟩
      by_cases he : m < n
      · exact wet m he
      · have hla := wet' (m - n) (by omega)
        rw [hl, show s.allocator.owned.length + n + (m - n) = s.allocator.owned.length + m by omega] at hla
        exact hla
    · rintro e _ ⟨hf, m, less, dry⟩
      refine ⟨hf, n + m, by omega, ?_⟩
      rw [← Nat.add_assoc, ← hl]
      exact dry
  · rintro e _ ⟨hf, m, less, dry⟩
    exact ⟨hf, m, by omega, dry⟩

theorem Takes.mono {Q' : α → ObjectAllocator → Prop} (ht : Takes Owns Dry c n Q s) (hw : ∀ r a, Q r a → Q' r a) :
    Takes Owns Dry c n Q' s := fun owns =>
  wp_mono (fun _ _ ends => ⟨hw _ _ ends.1, ends.2⟩) (fun _ _ hf => hf) (ht owns)

theorem Takes.pure {r : α} (post : Q r s.allocator) : Takes Owns Dry (pure r) 0 Q s := fun owns =>
  ⟨post, owns, rfl, fun _ less => absurd less (Nat.not_lt_zero _)⟩

/-- Changes that take no page. -/
theorem Takes.modify {f : ObjectAllocator → ObjectAllocator} {Q : Unit → ObjectAllocator → Prop}
    (same : (f s.allocator).owned = s.allocator.owned) (post : Q () (f s.allocator)) :
    Takes Owns Dry (modifyAllocator f) 0 Q s := by
  intro owns
  rw [modifyAllocator, wp_modify]
  refine ⟨post, ?_, by rw [same]; rfl, fun _ less => absurd less (Nat.not_lt_zero _)⟩
  simp only [same]
  exact owns

theorem Takes.get {k : Slab P → SlabM P α} (rest : Takes Owns Dry (k s) n Q s) :
    Takes Owns Dry (get >>= k) n Q s := by
  intro owns
  rw [wp_bind, wp_get]
  exact rest owns

/-! ## Records -/

/-- The records of the topmost part. -/
theorem records_push (a : ObjectAllocator) (top : ObjectStack) (rest : List ObjectStack) :
    ({ a with objtStack := { top with index := top.index + 1 } :: rest } : ObjectAllocator).records.Perm
      ((top.base + objectSize * top.index) :: ({ a with objtStack := top :: rest } : ObjectAllocator).records) := by
  simp only [records, List.flatMap_cons, List.range_succ, List.map_append, List.map_cons, List.map_nil, List.append_assoc]
  exact List.perm_middle

theorem takes_nextRecord {top : ObjectStack} {rest : List ObjectStack} (hs : s.allocator.objtStack = top :: rest) :
    Takes Owns Dry nextRecord 0 (fun loc a => loc = top.base + objectSize * top.index ∧
      a = { s.allocator with objtStack := { top with index := top.index + 1 } :: rest }) s := by
  refine .get ?_
  rw [hs]
  have ha : Takes Owns Dry
      (modifyAllocator fun a => { a with objtStack := { top with index := top.index + 1 } :: rest }) 0
      (fun _ a => a = { s.allocator with objtStack := { top with index := top.index + 1 } :: rest }) s := by
    refine .modify ?_ rfl
    simp only [owned, pages, hs, List.map_cons]
  exact ha.bind (fun _ _ same => .pure ⟨rfl, same⟩) rfl

/-- The pages for one record and then for `n` more. -/
theorem recordPages_succ (room n : Nat) : (if room = 0 then 1 else 0) +
    recordPages ((if room = 0 then poolSize else room) - 1) n = recordPages room (n + 1) := by
  simp only [recordPages, poolSize]
  split <;> omega

/-- Storing a page adds it to those that objects are cut from. -/
theorem pages_storePage (p : Nat) (top : PageStack) (rest : List PageStack) :
    ((storePage p (top :: rest)).flatMap PageStack.pool).Perm (p :: (top :: rest).flatMap PageStack.pool) := by
  simp only [storePage, List.flatMap_cons, List.append_assoc, List.singleton_append]
  exact List.perm_middle

/-! ## Taking pages -/

include source

/-- A page that is taken belongs to the allocator once it is stored. -/
theorem wp_onSource_page (owns : Owns s.source s.allocator.owned) :
    wp (onSource allocPage) (fun p s' => p ≠ 0 ∧ ¬ Dry s.allocator.owned.length ∧ s'.allocator = s.allocator ∧
        Owns s'.source (p :: s.allocator.owned))
      (fun e _ => e = .nullDereference ∧ Dry s.allocator.owned.length) s := by
  rw [onSource, wp_zoom]
  refine wp_mono ?_ (fun _ _ hf => hf) (source.alloc owns)
  rintro p p' ⟨hnn, wet, owns'⟩
  exact ⟨hnn, wet, rfl, owns'⟩

theorem wp_oaAlloc (owns : Owns s.source s.allocator.owned) :
    wp (oaAlloc allocPage) (fun p s' => p ≠ 0 ∧ ¬ Dry s.allocator.owned.length ∧ s'.allocator = s.allocator ∧
        Owns s'.source (p :: s.allocator.owned))
      (fun e _ => e = .nullDereference ∧ Dry s.allocator.owned.length) s := by
  rw [oaAlloc, wp_bind]
  refine wp_mono ?_ (fun _ _ hf => hf) (wp_onSource_page source owns)
  rintro p s' page
  rw [if_pos page.1]
  exact page

theorem takes_of_page {c : SlabM P Nat} {k : Nat → SlabM P β}
    (page : Owns s.source s.allocator.owned → wp c (fun p s' => p ≠ 0 ∧ ¬ Dry s.allocator.owned.length ∧
      s'.allocator = s.allocator ∧ Owns s'.source (p :: s.allocator.owned))
      (fun e _ => e = .nullDereference ∧ Dry s.allocator.owned.length) s)
    (hs : ∀ p s', s'.allocator = s.allocator → wp (k p) (fun r s'' => Q' r s''.allocator ∧ s''.source = s'.source ∧
      s''.allocator.owned.Perm (p :: s.allocator.owned)) (fun _ _ => False) s') :
    Takes Owns Dry (c >>= k) 1 Q' s := by
  intro owns
  rw [wp_bind]
  refine wp_mono ?_ ?_ (page owns)
  · rintro p s' ⟨-, wet, same, owns'⟩
    refine wp_mono ?_ (fun _ _ none => none.elim) (hs p s' same)
    rintro r s'' ⟨post, hu, hsd⟩
    rw [hu]
    refine ⟨post, source.perm hsd.symm owns', by rw [hsd.length_eq, List.length_cons], fun m less => ?_⟩
    obtain rfl : m = 0 := by omega
    exact wet
  · rintro e s' ⟨hf, dry⟩
    exact ⟨hf, 0, Nat.one_pos, dry⟩

theorem takes_expandPageStack : Takes Owns Dry (expandPageStack allocPage) 1
    (fun _ a => ∃ next, a = { s.allocator with pageStack := ⟨next, []⟩ :: s.allocator.pageStack }) s := by
  refine takes_of_page source (wp_oaAlloc source) fun p s' same => ?_
  rw [modifyAllocator, wp_modify]
  refine ⟨⟨p, by rw [same]⟩, rfl, ?_⟩
  simp only [same, owned, pages, List.flatMap_cons, List.nil_append, List.map_cons, List.cons_append]
  exact List.perm_middle

theorem takes_expandObjectStack : Takes Owns Dry (expandObjectStack allocPage) 1
    (fun _ a => ∃ next, a = { s.allocator with objtStack := ⟨next, 0⟩ :: s.allocator.objtStack }) s := by
  refine takes_of_page source (wp_oaAlloc source) fun p s' same => ?_
  rw [modifyAllocator, wp_modify]
  refine ⟨⟨p, by rw [same]⟩, rfl, ?_⟩
  simp only [same, owned, pages, List.map_cons]
  rw [← List.append_assoc, ← List.append_assoc]
  exact List.perm_middle

/-- A new record, and nothing else changes. -/
theorem takes_getNextObject : Takes Owns Dry (getNextObject allocPage) (if s.allocator.objtRoom = 0 then 1 else 0)
    (fun loc a => a.records.Perm (loc :: s.allocator.records) ∧ a = { s.allocator with objtStack := a.objtStack } ∧
      a.objtRoom = (if s.allocator.objtRoom = 0 then poolSize else s.allocator.objtRoom) - 1) s := by
  by_cases full : s.allocator.objtRoom = 0
  · have he : Takes Owns Dry (ensureObjectStack allocPage) 1 (fun _ a => ∃ next, a =
        { s.allocator with objtStack := ⟨next, 0⟩ :: s.allocator.objtStack }) s := by
      refine .get ?_
      rw [if_pos full]
      exact takes_expandObjectStack source
    rw [if_pos full, if_pos full]
    refine he.bind ?_ (Nat.add_zero 1)
    rintro _ s' ⟨next, same⟩
    have hs : s'.allocator.objtStack = ⟨next, 0⟩ :: s.allocator.objtStack := by rw [same]
    refine (takes_nextRecord hs).mono ?_
    rintro loc a ⟨hp, rfl⟩
    rw [hp, same]
    exact ⟨records_push s.allocator ⟨next, 0⟩ s.allocator.objtStack, rfl, rfl⟩
  · have kept : Takes Owns Dry (ensureObjectStack allocPage) 0 (fun _ a => a = s.allocator) s := by
      refine .get ?_
      rw [if_neg full]
      exact .pure rfl
    rw [if_neg full, if_neg full]
    refine kept.bind ?_ (Nat.add_zero 0)
    intro _ s' same
    cases hs : s.allocator.objtStack with
    | nil =>
      rw [objtRoom, hs] at full
      exact absurd rfl full
    | cons top rest =>
      have hs' : s'.allocator.objtStack = top :: rest := by rw [same, hs]
      refine (takes_nextRecord hs').mono ?_
      rintro loc a ⟨rfl, rfl⟩
      have push := records_push s.allocator top rest
      rw [← hs] at push
      rw [same]
      refine ⟨push, rfl, ?_⟩
      simp only [objtRoom, hs]
      omega

theorem takes_stored (hst : s.allocator.pageStack ≠ []) : Takes Owns Dry (onSource allocPage >>= fun addr => do
        modifyAllocator fun a =>
          { a with pageStack := storePage addr a.pageStack, pagesConsumed := a.pagesConsumed + 1 }
        pure addr) 1
      (fun page a => a.pages.Perm (page :: s.allocator.pages) ∧
        a = { s.allocator with pageStack := a.pageStack, pagesConsumed := s.allocator.pagesConsumed + 1 }) s := by
  refine takes_of_page source (wp_onSource_page source) fun p s' same => ?_
  rw [wp_bind, modifyAllocator, wp_modify, wp_pure]
  cases hs : s.allocator.pageStack with
  | nil => exact absurd hs hst
  | cons top rest =>
    have hsd := pages_storePage p top rest
    simp only [same, owned, pages, hs]
    refine ⟨⟨hsd, trivial⟩, trivial, ?_⟩
    exact hsd.append_right _

theorem takes_takePage : Takes Owns Dry (takePage allocPage) ((if s.allocator.pageRoom = 0 then 1 else 0) + 1)
    (fun page a => a.pages.Perm (page :: s.allocator.pages) ∧
      a = { s.allocator with pageStack := a.pageStack, pagesConsumed := s.allocator.pagesConsumed + 1 }) s := by
  by_cases full : s.allocator.pageRoom = 0
  · have he : Takes Owns Dry (ensurePageStack allocPage) 1 (fun _ a => ∃ next, a =
        { s.allocator with pageStack := ⟨next, []⟩ :: s.allocator.pageStack }) s := by
      refine .get ?_
      rw [if_pos full]
      exact takes_expandPageStack source
    rw [if_pos full]
    refine he.bind ?_ rfl
    rintro _ s' ⟨next, same⟩
    refine (takes_stored source ?_).mono ?_
    · rw [same]
      exact List.cons_ne_nil _ _
    · rintro page a ⟨hsd, rest⟩
      rw [same] at hsd rest
      exact ⟨hsd, rest⟩
  · have kept : Takes Owns Dry (ensurePageStack allocPage) 0 (fun _ a => a = s.allocator) s := by
      refine .get ?_
      rw [if_neg full]
      exact .pure rfl
    rw [if_neg full]
    refine kept.bind ?_ rfl
    intro _ s' same
    refine (takes_stored source ?_).mono ?_
    · rw [same]
      intro none
      rw [pageRoom, none] at full
      exact full rfl
    · rintro page a ⟨hsd, rest⟩
      rw [same] at hsd rest
      exact ⟨hsd, rest⟩

/-! ## Cutting a page -/

theorem takes_push {carved : List Nat} (hh : s.allocator.Holds live carved) (addr : Nat) :
    Takes Owns Dry (getNextObject allocPage >>= fun object => freeStackPush ⟨object, addr⟩)
      (if s.allocator.objtRoom = 0 then 1 else 0)
      (fun _ a => a.Holds live (addr :: carved) ∧ a = { s.allocator with objtStack := a.objtStack, freeStack := a.freeStack } ∧
        a.objtRoom = (if s.allocator.objtRoom = 0 then poolSize else s.allocator.objtRoom) - 1) s := by
  refine (takes_getNextObject source).bind ?_ (Nat.add_zero _)
  rintro loc s' ⟨hr, same, room⟩
  refine .modify rfl ⟨?_, ?_, room⟩
  · rw [same]
    refine ⟨?_, ?_, hh.used, hh.consumed⟩
    · exact List.perm_middle.trans (hh.objects.cons addr)
    · rw [same] at hr
      exact (hh.records.cons loc).trans hr.symm
  · rw [same]

theorem takes_carve (page size i n : Nat) {s : Slab P} {carved : List Nat} (hh : s.allocator.Holds live carved) :
    Takes Owns Dry (forFrom (fun i => do
        let object ← getNextObject allocPage
        freeStackPush ⟨object, page + size * i⟩) i n) (recordPages s.allocator.objtRoom n)
      (fun _ a => a.Holds live (((List.range' i n).map fun j => page + size * j).reverse ++ carved) ∧
        a = { s.allocator with objtStack := a.objtStack, freeStack := a.freeStack }) s := by
  induction n generalizing i s carved with
  | zero =>
    have none : recordPages s.allocator.objtRoom 0 = 0 := by
      simp only [recordPages, poolSize]
      omega
    rw [none]
    exact .pure ⟨hh, rfl⟩
  | succ n ih =>
    refine (takes_push source hh (page + size * i)).bind ?_ (recordPages_succ _ n)
    rintro _ s' ⟨hh', same, room⟩
    rw [← room]
    refine (ih (i + 1) hh').mono ?_
    rintro _ a ⟨hh'', same'⟩
    refine ⟨?_, ?_⟩
    · rw [List.range'_succ, List.map_cons, List.reverse_cons, List.append_assoc]
      exact hh''
    · rw [same', same]

/-- One more page of objects. -/
theorem takes_addToFreeStack (tidy : s.allocator.Tidy live) (hb : ¬ s.allocator.Spent) :
    Takes Owns Dry (addToFreeStack allocPage) s.allocator.growth
      (fun _ a => a.Tidy live ∧ a.size = s.allocator.size ∧ a.maxPages = s.allocator.maxPages ∧
        a.pages.length = s.allocator.pages.length + 1) s := by
  have htk : Takes Owns Dry (getNextPage allocPage) ((if s.allocator.pageRoom = 0 then 1 else 0) + 1)
      (fun page a => a.pages.Perm (page :: s.allocator.pages) ∧
        a = { s.allocator with pageStack := a.pageStack, pagesConsumed := s.allocator.pagesConsumed + 1 }) s := by
    refine .get ?_
    rw [if_neg hb]
    exact takes_takePage source
  refine htk.bind ?_ rfl
  rintro page s' ⟨hsd, same⟩
  have size : s'.allocator.size = s.allocator.size := by rw [same]
  have room : s'.allocator.objtRoom = s.allocator.objtRoom := by rw [same]; rfl
  have hh : s'.allocator.Holds live s.allocator.carved := by
    have hl := hsd.length_eq
    rw [same] at hl ⊢
    refine ⟨tidy.objects, tidy.records, tidy.used, ?_⟩
    show s.allocator.pagesConsumed + 1 = _
    rw [hl, List.length_cons, tidy.consumed]
  refine .get ?_
  rw [carvePage, size, ← room]
  refine (takes_carve source page s.allocator.size 0 (pageSize / s.allocator.size) hh).mono ?_
  rintro _ a ⟨hh', same'⟩
  have hp : a.pages = s'.allocator.pages := by rw [same']; rfl
  have size' : a.size = s.allocator.size := by rw [same', ← size]
  refine ⟨hh'.perm (carved_push (hp ▸ hsd) size'), size', ?_, ?_⟩
  · rw [same', same]
  · rw [hp, hsd.length_eq, List.length_cons]

theorem takes_ensureFree (tidy : s.allocator.Tidy live) (hb : s.allocator.freeStack = [] → ¬ s.allocator.Spent)
    (fits : 0 < s.allocator.size ∧ s.allocator.size ≤ pageSize) :
    Takes Owns Dry (ensureFree allocPage) s.allocator.demand
      (fun _ a => a.Tidy live ∧ a.freeStack ≠ [] ∧ a.size = s.allocator.size ∧ a.maxPages = s.allocator.maxPages) s := by
  refine .get ?_
  by_cases none : s.allocator.freeStack = []
  · rw [if_pos none, demand, if_pos none]
    refine (takes_addToFreeStack source tidy (hb none)).mono ?_
    rintro _ a ⟨tidy', size, hl, hg⟩
    refine ⟨tidy', fun hem => ?_, size, hl⟩
    -- More objects have been cut than there are live ones.
    have hbe := tidy.objects.length_eq
    have ha := tidy'.objects.length_eq
    have hp := Nat.div_pos fits.2 fits.1
    simp only [List.length_append, free, List.length_map, none, hem, carved_length, size, hg, List.length_nil] at hbe ha
    rw [Nat.add_mul] at ha
    omega
  · rw [if_neg none, demand, if_neg none]
    exact .pure ⟨tidy, none, rfl, rfl⟩

/-- The address of an object that was free. -/
theorem takes_allocate {live : List Nat} (tidy : s.allocator.Tidy live)
    (hb : s.allocator.freeStack = [] → ¬ s.allocator.Spent)
    (fits : 0 < s.allocator.size ∧ s.allocator.size ≤ pageSize) :
    Takes Owns Dry (allocate allocPage) s.allocator.demand
      (fun p a => a.Tidy (p :: live) ∧ a.size = s.allocator.size ∧ a.maxPages = s.allocator.maxPages) s := by
  have hp : Takes Owns Dry (freeStackPop allocPage) s.allocator.demand (fun top a =>
      ({ a with freeStack := top :: a.freeStack } : ObjectAllocator).Tidy live ∧ a.size = s.allocator.size ∧
        a.maxPages = s.allocator.maxPages) s := by
    refine (takes_ensureFree source tidy hb fits).bind ?_ (Nat.add_zero _)
    rintro _ s' ⟨tidy', hfi, size, hl⟩
    refine .get ?_
    cases hs : s'.allocator.freeStack with
    | nil => exact absurd hs hfi
    | cons top rest =>
      have pop : Takes Owns Dry (modifyAllocator fun a => { a with freeStack := rest }) 0
          (fun _ a => a = { s'.allocator with freeStack := rest }) s' := .modify rfl rfl
      refine pop.bind ?_ (Nat.add_zero 0)
      intro _ s'' same
      refine .pure ⟨?_, ?_, ?_⟩
      · rw [same]
        have hwh : s'.allocator = { s'.allocator with freeStack := top :: rest } := by rw [← hs]
        rw [hwh] at tidy'
        exact tidy'
      · rw [same, size]
      · rw [same, hl]
  refine hp.bind ?_ (Nat.add_zero _)
  rintro top s' ⟨tidy', size, hl⟩
  have push : Takes Owns Dry (usedStackPush top) 0 (fun _ a => a =
      { s'.allocator with usedStack := top :: s'.allocator.usedStack }) s' := .modify rfl rfl
  refine push.bind ?_ (Nat.add_zero 0)
  intro _ s'' same
  refine .pure ⟨?_, ?_, ?_⟩
  · rw [same]
    refine ⟨?_, ?_, ?_, tidy'.consumed⟩
    · exact List.perm_middle.symm.trans tidy'.objects
    · refine .trans ?_ tidy'.records
      simp only [List.map_append, List.map_cons, List.cons_append]
      exact List.perm_middle
    · exact congrArg (· + 1) tidy'.used
  · rw [same, size]
  · rw [same, hl]

omit source in
theorem allocate_spent (hem : s.allocator.freeStack = []) (hs : s.allocator.Spent) :
    allocate allocPage s = .error (.runtimeError "object_allocator: out of memory") s := by
  have page : getNextPage allocPage s = .error (.runtimeError "object_allocator: out of memory") s := by
    rw [getNextPage, get_bind, if_pos hs]
    rfl
  have free : ensureFree allocPage s = .error (.runtimeError "object_allocator: out of memory") s := by
    rw [ensureFree, get_bind, if_pos hem, addToFreeStack, bind_of_error page]
  have pop : freeStackPop allocPage s = .error (.runtimeError "object_allocator: out of memory") s := by
    rw [freeStackPop, bind_of_error free]
  rw [allocate, bind_of_error pop]

/-- A live address becomes free. -/
theorem takes_deallocate {live : List Nat} (tidy : s.allocator.Tidy live) {p : Nat} (hm : p ∈ live) :
    Takes Owns Dry (deallocate allocPage p) 0
      (fun _ a => a.Tidy (live.erase p) ∧ a = { s.allocator with freeStack := a.freeStack, usedStack := a.usedStack }) s := by
  cases hs : s.allocator.usedStack with
  | nil =>
    have hl := tidy.used
    rw [hs] at hl
    exact absurd (List.length_pos_of_mem hm) (by rw [← hl]; exact Nat.lt_irrefl 0)
  | cons top rest =>
    have hp : Takes Owns Dry (usedStackPop allocPage) 0 (fun objt a => objt = top ∧
        a = { s.allocator with usedStack := rest }) s := by
      have kept : Takes Owns Dry (ensureUsed allocPage) 0 (fun _ a => a = s.allocator) s := by
        refine .get ?_
        rw [if_neg (by rw [hs]; exact List.cons_ne_nil _ _)]
        exact .pure rfl
      refine kept.bind ?_ (Nat.add_zero 0)
      intro _ s' same
      refine .get ?_
      rw [same, hs]
      have pop : Takes Owns Dry (modifyAllocator fun a => { a with usedStack := rest }) 0
          (fun _ a => a = { s'.allocator with usedStack := rest }) s' := .modify rfl rfl
      refine pop.bind ?_ (Nat.add_zero 0)
      intro _ s'' same'
      rw [same] at same'
      exact .pure ⟨rfl, same'⟩
    refine hp.bind ?_ (Nat.add_zero 0)
    rintro objt s' ⟨rfl, same⟩
    refine .modify rfl ?_
    rw [same]
    refine ⟨⟨?_, ?_, ?_, tidy.consumed⟩, rfl⟩
    · -- The address moves from the live ones to the free ones.
      have hmo : (live.erase p ++ p :: s.allocator.free).Perm (live ++ s.allocator.free) :=
        List.perm_middle.trans ((List.perm_cons_erase hm).symm.append_right _)
      exact hmo.trans tidy.objects
    · refine .trans ?_ tidy.records
      rw [hs]
      simp only [List.map_append, List.map_cons, List.cons_append]
      exact List.perm_middle.symm
    · have hl := tidy.used
      rw [hs, List.length_cons] at hl
      show rest.length = _
      rw [List.length_erase_of_mem hm]
      omega

/-- The constructor takes the pages of the budget. -/
theorem wp_construct {size maxPages : Nat} {p : P} (owns : Owns p []) :
    wp (construct allocPage) (fun _ s => s.allocator.Tidy [] ∧ s.allocator.size = (empty size maxPages).size ∧
      Owns s.source s.allocator.owned) (fun e _ => e = .nullDereference) ⟨empty size maxPages, p⟩ := by
  have loop : wp (forFrom (fun _ => addToFreeStack allocPage) 0 maxPages) (fun _ s => s.allocator.Tidy [] ∧
      s.allocator.size = (empty size maxPages).size ∧ Owns s.source s.allocator.owned)
      (fun e _ => e = .nullDereference) ⟨empty size maxPages, p⟩ := by
    refine wp_loop (fun i s => (s.allocator.Tidy [] ∧ s.allocator.size = (empty size maxPages).size ∧
      s.allocator.maxPages = maxPages ∧ s.allocator.pages.length = i) ∧ Owns s.source s.allocator.owned) ?_ ?_ ?_
    · exact ⟨⟨⟨.refl _, .refl _, rfl, rfl⟩, rfl, rfl, rfl⟩, owns⟩
    · rintro i s' less ⟨⟨tidy, size, hl, hco⟩, owns'⟩
      have hb : ¬ s'.allocator.Spent := by
        rintro ⟨-, hs⟩
        have hc := tidy.consumed
        omega
      refine wp_mono ?_ (fun _ _ hf => hf.1) (takes_addToFreeStack source tidy hb owns')
      rintro _ s'' ⟨⟨tidy', size', hl', hc'⟩, owns'', -⟩
      exact ⟨⟨tidy', by rw [size', size], by rw [hl', hl], by omega⟩, owns''⟩
    · rintro s' ⟨⟨tidy, size, -⟩, owns'⟩
      exact ⟨tidy, size, owns'⟩
  rw [construct, wp_bind, wp_get, wp_swallow]
  refine wp_mono (fun _ _ ends => ends) ?_ loop
  intro e s' hf
  cases hf
  exact rfl

end

/-! ## Objects of tidy stacks -/

section

variable {a : ObjectAllocator} {live : List Nat}

theorem contains_iff (a : ObjectAllocator) (p : Nat) :
    a.contains p = true ↔ ∃ page ∈ a.pages, (pageBlock page).Has p := by
  simp only [contains, pages, List.any_eq_true, decide_eq_true_eq, List.mem_flatMap]
  constructor
  · rintro ⟨stack, hm, page, hsd, has⟩
    exact ⟨page, ⟨stack, hm, hsd⟩, has⟩
  · rintro ⟨page, ⟨stack, hm, hsd⟩, has⟩
    exact ⟨stack, hm, page, hsd, has⟩

theorem numPage_eq (a : ObjectAllocator) : a.numPage = a.pages.length := by
  rw [numPage, pages, List.length_flatMap]

/-- All objects, as parts of the pages. -/
theorem carved_blocks (a : ObjectAllocator) : (a.carved.map fun addr => (⟨addr, a.size⟩ : Block)) =
    (a.pages.map pageBlock).flatMap (Block.cut a.size) := by
  rw [carved, List.map_flatMap, List.flatMap_map]
  refine List.flatMap_congr fun page _ => ?_
  rw [objectsOf, List.map_map]
  rfl

theorem objects_apart (tidy : a.Tidy live) (hp : (a.pages.map pageBlock).Pairwise Block.Apart) :
    ((live ++ a.free).map fun addr => (⟨addr, a.size⟩ : Block)).Pairwise Block.Apart := by
  have hwh : (a.carved.map fun addr => (⟨addr, a.size⟩ : Block)).Pairwise Block.Apart := by
    rw [carved_blocks]
    exact Block.flatMap_apart hp (fun _ _ => Block.inside_of_mem_cut) (Block.cut_apart a.size)
  exact ((tidy.objects.map _).pairwise_iff Block.Apart.symm).mpr hwh

theorem object_inside (tidy : a.Tidy live) {addr : Nat} (hm : addr ∈ live ++ a.free) :
    ∃ page ∈ a.pages, Block.Inside ⟨addr, a.size⟩ (pageBlock page) := by
  have ht := List.mem_map_of_mem (f := fun addr => (⟨addr, a.size⟩ : Block)) (tidy.objects.mem_iff.mp hm)
  rw [carved_blocks] at ht
  obtain ⟨block, hsd, part⟩ := List.mem_flatMap.mp ht
  obtain ⟨page, hm', rfl⟩ := List.mem_map.mp hsd
  exact ⟨page, hm', Block.inside_of_mem_cut part⟩

end

end ObjectAllocator

end Gevisor.MemoryManager
