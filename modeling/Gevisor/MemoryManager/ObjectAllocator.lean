import Gevisor.MemoryManager.BuddyAllocator

/-! # The object allocator

`basic_object_allocator`: objects of one size are cut from pages. A free and a used stack link records that each hold
the address of an object; the records live in pages of their own, and so does the list of the pages that objects are
cut from. A record that has been popped from the used stack takes the address that is given back, whichever address
it was pushed with.
-/

namespace Gevisor.MemoryManager

/-- What `catch (...)` catches. -/
def Failure.isExn : Failure → Bool
  | .badAlloc => true
  | .runtimeError _ => true
  | .failFast => true
  | _ => false

/-- `pagepool_size` and `objtpool_size`. -/
def poolSize : Nat := 255

/-- `object_t`, with its own location. The stacks are lists instead of `next` pointers. -/
structure Object where
  loc : Nat
  addr : Nat
  deriving DecidableEq, Repr

/-- `sizeof(object_t)`. -/
def objectSize : Nat := 16

/-- `page_stack_t`: the part of `pool` below `index`. -/
structure PageStack where
  base : Nat
  pool : List Nat
  deriving DecidableEq, Repr

/-- `object_stack_t`: the records below `index` are in use. -/
structure ObjectStack where
  base : Nat
  index : Nat
  deriving DecidableEq, Repr

structure ObjectAllocator where
  freeStack : List Object
  usedStack : List Object
  pageStack : List PageStack
  objtStack : List ObjectStack
  size : Nat
  maxPages : Nat
  pagesConsumed : Nat
  deriving DecidableEq, Repr

/-- An allocator and what `alloc_page` works on. -/
structure Slab (P : Type) where
  allocator : ObjectAllocator
  source : P

abbrev SlabM (P : Type) := EStateM Failure (Slab P)

namespace ObjectAllocator

section

variable {P : Type} (allocPage : EStateM Failure P Nat)

def onSource {α : Type} (c : EStateM Failure P α) : SlabM P α := Lib.zoom Slab.source (fun p s => { s with source := p }) c

def modifyAllocator (f : ObjectAllocator → ObjectAllocator) : SlabM P Unit :=
  modify fun s => { s with allocator := f s.allocator }

/-- `__oa_alloc`. -/
def oaAlloc : SlabM P Nat := do
  let addr ← onSource allocPage
  if addr ≠ 0 then pure addr else throw (.runtimeError "__oa_alloc: out of memory")

def expandPageStack : SlabM P Unit := do
  let next ← oaAlloc allocPage
  modifyAllocator fun a => { a with pageStack := ⟨next, []⟩ :: a.pageStack }

def expandObjectStack : SlabM P Unit := do
  let next ← oaAlloc allocPage
  modifyAllocator fun a => { a with objtStack := ⟨next, 0⟩ :: a.objtStack }

/-- Entries left in the topmost part of the page stack. -/
def pageRoom (a : ObjectAllocator) : Nat := match a.pageStack with
  | [] => 0
  | top :: _ => poolSize - top.pool.length

/-- Records left in the topmost part of the object stack. -/
def objtRoom (a : ObjectAllocator) : Nat := match a.objtStack with
  | [] => 0
  | top :: _ => poolSize - top.index

def ensurePageStack : SlabM P Unit := do
  let s ← get
  if s.allocator.pageRoom = 0 then expandPageStack allocPage else pure ()

def ensureObjectStack : SlabM P Unit := do
  let s ← get
  if s.allocator.objtRoom = 0 then expandObjectStack allocPage else pure ()

/-- `m_page_stack_top->pool[m_page_stack_top->index++] = addr`. -/
def storePage (addr : Nat) : List PageStack → List PageStack
  | [] => []
  | top :: rest => { top with pool := top.pool ++ [addr] } :: rest

/-- The page budget has been used up. -/
def Spent (a : ObjectAllocator) : Prop := a.maxPages ≠ 0 ∧ a.maxPages ≤ a.pagesConsumed

instance decidableSpent (a : ObjectAllocator) : Decidable a.Spent := inferInstanceAs (Decidable (_ ∧ _))

def takePage : SlabM P Nat := do
  ensurePageStack allocPage
  let addr ← onSource allocPage
  modifyAllocator fun a =>
    { a with pageStack := storePage addr a.pageStack, pagesConsumed := a.pagesConsumed + 1 }
  pure addr

def getNextPage : SlabM P Nat := do
  let s ← get
  if s.allocator.Spent then throw (.runtimeError "object_allocator: out of memory") else takePage allocPage

/-- `&m_objt_stack_top->pool[m_objt_stack_top->index++]`. -/
def nextRecord : SlabM P Nat := do
  let s ← get
  match s.allocator.objtStack with
  | [] => throw .nullDereference
  | top :: rest => do
    modifyAllocator fun a => { a with objtStack := { top with index := top.index + 1 } :: rest }
    pure (top.base + objectSize * top.index)

def getNextObject : SlabM P Nat := do
  ensureObjectStack allocPage
  nextRecord

def freeStackPush (next : Object) : SlabM P Unit :=
  modifyAllocator fun a => { a with freeStack := next :: a.freeStack }

def usedStackPush (next : Object) : SlabM P Unit :=
  modifyAllocator fun a => { a with usedStack := next :: a.usedStack }

/-- The rounds of the loop are those with `i * size + size <= BAREFLANK_PAGE_SIZE`. -/
def carvePage (page size : Nat) : SlabM P Unit :=
  Lib.forFrom (fun i => do
    let object ← getNextObject allocPage
    freeStackPush ⟨object, page + size * i⟩) 0 (pageSize / size)

def addToFreeStack : SlabM P Unit := do
  let page ← getNextPage allocPage
  let s ← get
  carvePage allocPage page s.allocator.size

def ensureFree : SlabM P Unit := do
  let s ← get
  if s.allocator.freeStack = [] then addToFreeStack allocPage else pure ()

def freeStackPop : SlabM P Object := do
  ensureFree allocPage
  let s ← get
  match s.allocator.freeStack with
  | [] => throw .nullDereference
  | top :: rest => do
    modifyAllocator fun a => { a with freeStack := rest }
    pure top

/-- An empty used stack gets a record that has never been used. -/
def ensureUsed : SlabM P Unit := do
  let s ← get
  if s.allocator.usedStack = [] then do
    let object ← getNextObject allocPage
    usedStackPush ⟨object, 0⟩
  else pure ()

def usedStackPop : SlabM P Object := do
  ensureUsed allocPage
  let s ← get
  match s.allocator.usedStack with
  | [] => throw .nullDereference
  | top :: rest => do
    modifyAllocator fun a => { a with usedStack := rest }
    pure top

def allocate : SlabM P Nat := do
  let objt ← freeStackPop allocPage
  usedStackPush objt
  pure objt.addr

def deallocate (p : Nat) : SlabM P Unit := do
  let objt ← usedStackPop allocPage
  freeStackPush { objt with addr := p }

/-- An allocator that has no pages yet. -/
def empty (size maxPages : Nat) : ObjectAllocator :=
  ⟨[], [], [], [], if size = 0 then 1 else size, maxPages, 0⟩

/-- The constructor. With a page budget all pages are taken at once. -/
def construct : SlabM P Unit := do
  let s ← get
  -- The counter has 32 bits; for larger budgets the loop ends with the exception of `get_next_page`.
  Lib.swallow Failure.isExn (Lib.forFrom (fun _ => addToFreeStack allocPage) 0 s.allocator.maxPages)

end

def contains (a : ObjectAllocator) (p : Nat) : Bool :=
  a.pageStack.any fun stack => stack.pool.any fun s => decide (s ≤ p ∧ p < s + pageSize)

def numPage (a : ObjectAllocator) : Nat := (a.pageStack.map fun stack => stack.pool.length).sum

def numFree (a : ObjectAllocator) : Nat := a.freeStack.length

def numUsed (a : ObjectAllocator) : Nat := a.usedStack.length

end ObjectAllocator

end Gevisor.MemoryManager
