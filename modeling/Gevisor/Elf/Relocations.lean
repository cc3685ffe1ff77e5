import Gevisor.Elf.Lookups
import Gevisor.Elf.Relocate

/-! # Relocation entries

The relocations of all files as one list, the word each of them is to write, and what writing them in turn
amounts to. The words are those that the look-ups give in the memory before the first of them is written.
-/

namespace Gevisor.Elf

open Lib

/-! ## The entries -/

/-- `bfelf_rela`. -/
structure Rela where
  offset : Word
  info : Word
  addend : Word
  deriving DecidableEq, Repr

def relaAt (memory : Bytes) (p : Word) : Rela :=
  ⟨field memory p rOffset, field memory p rInfo, field memory p rAddend⟩

/-- An entry of the file with the given number. -/
structure Place where
  number : Nat
  file : AddedFile
  entry : Word

structure Relocation where
  number : Nat
  file : AddedFile
  rela : Rela
  deriving DecidableEq, Repr

def Place.read (memory : Bytes) (x : Place) : Relocation := ⟨x.number, x.file, relaAt memory x.entry⟩

def tableEntries (num tab : Word) : List Word := (List.range num.toNat).map fun i => tab + relaSize * BitVec.ofNat 64 i

def entries (ef : AddedFile) : List Word :=
  tableEntries ef.relanumDyn ef.relatabDyn ++ tableEntries ef.relanumPlt ef.relatabPlt

def placesFrom : List AddedFile → Nat → List Place
  | [], _ => []
  | ef :: rest, k => (entries ef).map (fun p => ⟨k, ef, p⟩) ++ placesFrom rest (k + 1)

/-- The entries of all files in the order in which they are gone through. -/
def places (efs : List AddedFile) : List Place := placesFrom efs 0

def relocations (memory : Bytes) (efs : List AddedFile) : List Relocation := (places efs).map (Place.read memory)

/-- The bytes of the relocation tables of a file. -/
def InRelocations (ef : AddedFile) (a : Word) : Prop :=
  Has ef.relatabDyn (relaSize.toNat * ef.relanumDyn.toNat) a ∨
    Has ef.relatabPlt (relaSize.toNat * ef.relanumPlt.toNat) a

/-! ## What they write -/

namespace Relocation

def type (x : Relocation) : Word := relType x.rela.info

def target (x : Relocation) : Word := x.file.execAddr + x.rela.offset - x.file.startAddr

/-- The types that the x64 loader knows. -/
def Supported (x : Relocation) : Prop :=
  x.type = rX8664 ∨ x.type = rX8664GlobDat ∨ x.type = rX8664JumpSlot ∨ x.type = rX8664Relative

instance decidableSupported (x : Relocation) : Decidable x.Supported := inferInstanceAs (Decidable (_ ∨ _))

/-- The symbol that the entry names, in its own file. -/
def ownSymbol (x : Relocation) : Word := symbol x.file (relSym x.rela.info)

/-- The address of the symbol: that of the file's own symbol if it is defined and not weak, and otherwise what
the search over all files gives. The search leaves out the file itself unless the symbol is weak. -/
def symbolAddress (limit : Nat) (efs : List AddedFile) (memory : Bytes) (x : Relocation) : Except RelocError Word :=
  if isWeak memory x.ownSymbol = false ∧ field memory x.ownSymbol stValue ≠ 0 then
    .ok (x.file.execVirt + field memory x.ownSymbol stValue)
  else do
    let found ← privateGetSymGlobal memory limit efs (symbolName memory x.file x.ownSymbol)
      (if isWeak memory x.ownSymbol then none else some x.number)
    pure (found.1.execVirt + field memory found.2 stValue)

def value (limit : Nat) (efs : List AddedFile) (memory : Bytes) (x : Relocation) : Except RelocError Word :=
  if x.type = rX8664Relative then .ok (x.file.execVirt + x.rela.addend)
  else do
    let s ← x.symbolAddress limit efs memory
    pure (if x.type = rX8664 then s + x.rela.addend else s)

/-- The address and the word, for a relocation that succeeds. -/
def write (limit : Nat) (efs : List AddedFile) (memory : Bytes) (x : Relocation) : Word × Word :=
  (x.target, (x.value limit efs memory).toOption.getD 0)

end Relocation

/-- The tables are well formed, no entry is of another type or names a symbol that is not there, and the target
words are apart from one another and from every table. -/
structure Relocatable (extent : AddedFile → Extent) (efs : List AddedFile) (memory : Bytes) : Prop where
  formed : ∀ ef ∈ efs, WellFormed extent memory ef
  supported : ∀ x ∈ relocations memory efs, x.Supported
  indexed : ∀ x ∈ relocations memory efs, x.type ≠ rX8664Relative → IsSymbol extent x.file x.ownSymbol
  apart : (relocations memory efs).Pairwise fun x y => Apart x.target y.target
  clear : ∀ x ∈ relocations memory efs, ∀ ef ∈ efs, ∀ a, InTables extent ef a ∨ InRelocations ef a →
    ¬ Has x.target 8 a

/-! ## One entry -/

variable {f : Bytes → Except RelocError α} {memory : Bytes}

theorem lookUp_of_ok {a : α} (hf : f memory = .ok a) : lookUp f memory = .ok a memory := by
  rw [lookUp, get_bind, hf]
  rfl

theorem lookUp_of_error {e : RelocError} (hfa : f memory = .error e) : lookUp f memory = .error e memory := by
  rw [lookUp, get_bind, hfa]
  rfl

section

variable {extent : AddedFile → Extent} {efs : List AddedFile} {memory memory' : Bytes} {limit : Nat}

variable {ef : AddedFile} {rest : List AddedFile} {x : Relocation} {place : Place} {k : Nat}

variable {info num tab p : Word} {f : Field} {j n : Nat} {after : Bytes}

theorem findSymbol_congr (hfo : ∀ ef ∈ efs, WellFormed extent memory ef)
    (same : SameTables extent efs memory memory') (hm : ef ∈ efs)
    (hk : IsSymbol extent ef (symbol ef (relSym info))) (k : Nat) :
    findSymbol limit efs k ef info memory' = findSymbol limit efs k ef info memory := by
  have hs := privateGetSymGlobal_congr hfo same limit (name_inStrings hfo hm hk)
  simp only [findSymbol, same.field hm hk (f := stValue) (by decide), same.weak hm hk, same.name hm hk, hs]

theorem findSymbol_isSymbol (hfo : ∀ ef ∈ efs, WellFormed extent memory ef)
    (hm : ef ∈ efs) (hk : IsSymbol extent ef (symbol ef (relSym info)))
    {hf : AddedFile × Word} (hfd : findSymbol limit efs k ef info memory = .ok hf) :
    hf.1 ∈ efs ∧ IsSymbol extent hf.1 hf.2 := by
  rw [findSymbol] at hfd
  split at hfd
  · exact privateGetSymGlobal_isSymbol hfo hfd
  · cases hfd
    exact ⟨hm, hk⟩

/-- The address of the symbol is that of the one found. -/
theorem symbolAddress_eq (x : Relocation) : x.symbolAddress limit efs memory = (do
      let hf ← findSymbol limit efs x.number x.file x.rela.info memory
      pure (hf.1.execVirt + field memory hf.2 stValue)) := by
  rw [Relocation.symbolAddress, findSymbol]
  change (if isWeak memory x.ownSymbol = false ∧ field memory x.ownSymbol stValue ≠ 0 then _ else _) =
    (if field memory x.ownSymbol stValue = 0 ∨ isWeak memory x.ownSymbol = true then _ else _) >>= _
  by_cases own : isWeak memory x.ownSymbol = false ∧ field memory x.ownSymbol stValue ≠ 0
  · have hd : ¬ (field memory x.ownSymbol stValue = 0 ∨ isWeak memory x.ownSymbol = true) := by
      rw [not_or, Bool.not_eq_true]
      exact ⟨own.2, own.1⟩
    rw [if_pos own, if_neg hd]
    rfl
  · have hs : field memory x.ownSymbol stValue = 0 ∨ isWeak memory x.ownSymbol = true := by
      by_contra hd
      rw [not_or, Bool.not_eq_true] at hd
      exact own ⟨hd.2, hd.1⟩
    rw [if_neg own, if_pos hs]
    rfl

/-- The switch at the end of `private_relocate_symbol`, after the address of the symbol has been written. -/
def applyType (place : Place) (ptr : Word) : Relocating Unit := do
  let memory ← get
  let x := place.read memory
  if x.type = rX8664 then Elf.write ptr (fetch memory ptr 8 + x.rela.addend)
  else if x.type = rX8664GlobDat ∨ x.type = rX8664JumpSlot then pure ()
  else throw .unsupportedRela

theorem privateRelocateSymbol_read (place : Place) (read : place.read memory = x) :
    privateRelocateSymbol limit efs place.number place.file place.entry memory =
      (if x.type = rX8664Relative then Elf.write x.target (x.file.execVirt + x.rela.addend)
      else do
        let hf ← lookUp (findSymbol limit efs x.number x.file x.rela.info)
        Elf.write x.target (hf.1.execVirt + field memory hf.2 stValue)
        applyType place x.target) memory := by
  subst read
  rfl

theorem applyType_eq {s : Word}
    (kept : place.read (store memory x.target s) = x) (hs : x.Supported) (ha : x.type ≠ rX8664Relative) :
    applyType place x.target (store memory x.target s) =
      .ok () (store memory x.target (if x.type = rX8664 then s + x.rela.addend else s)) := by
  rw [applyType, get_bind, kept, fetch_store]
  by_cases full : x.type = rX8664
  · rw [if_pos full, if_pos full]
    exact congrArg (EStateM.Result.ok ()) (store_store memory x.target s _)
  · have slot : x.type = rX8664GlobDat ∨ x.type = rX8664JumpSlot := by
      obtain h | h | h | h := hs
      · exact absurd h full
      · exact .inl h
      · exact .inr h
      · exact absurd h ha
    rw [if_neg full, if_neg full, if_pos slot]
    rfl

/-- An entry that the memory still holds writes its word to its target, and nothing if there is no such word. -/
theorem privateRelocateSymbol_eq (limit : Nat) (hfo : ∀ ef ∈ efs, WellFormed extent memory ef)
    (same : SameTables extent efs memory memory') (hm : x.file ∈ efs) (kept : place.read memory' = x)
    (hsu : x.Supported) (hi : x.type ≠ rX8664Relative → IsSymbol extent x.file x.ownSymbol)
    (clear : ∀ s, place.read (store memory' x.target s) = x) :
    privateRelocateSymbol limit efs place.number place.file place.entry memory' = match x.value limit efs memory with
      | .ok v => .ok () (store memory' x.target v)
      | .error e => .error e memory' := by
  rw [privateRelocateSymbol_read place kept, Relocation.value]
  by_cases hr : x.type = rX8664Relative
  · rw [if_pos hr, if_pos hr]
    rfl
  · have hk := hi hr
    have look : findSymbol limit efs x.number x.file x.rela.info memory' =
        findSymbol limit efs x.number x.file x.rela.info memory :=
      findSymbol_congr hfo same hm hk x.number
    rw [if_neg hr, if_neg hr, symbolAddress_eq, ← look]
    cases hfd : findSymbol limit efs x.number x.file x.rela.info memory' with
    | error e => exact bind_of_error (lookUp_of_error hfd) _
    | ok hf =>
      obtain ⟨hs, hsy⟩ := findSymbol_isSymbol hfo hm hk (look ▸ hfd)
      rw [bind_of_ok (lookUp_of_ok hfd), same.field hs hsy (f := stValue) (by decide)]
      exact applyType_eq (clear _) hsu hr

/-! ## All entries -/

theorem mem_placesFrom (hm : place ∈ placesFrom rest k) : place.file ∈ rest ∧ place.entry ∈ entries place.file := by
  induction rest generalizing k with
  | nil => simp [placesFrom] at hm
  | cons ef rest ih =>
    rw [placesFrom, List.mem_append] at hm
    cases hm with
    | inl here =>
      obtain ⟨p, he, rfl⟩ := List.mem_map.mp here
      exact ⟨List.mem_cons_self, he⟩
    | inr hla =>
      obtain ⟨file, he⟩ := ih hla
      exact ⟨List.mem_cons_of_mem _ file, he⟩

theorem field_in_table (he : p ∈ tableEntries num tab)
    (fits : f.offset.toNat + f.size ≤ relaSize.toNat) (hb : j < f.size) :
    Has tab (relaSize.toNat * num.toNat) (p + f.offset + BitVec.ofNat 64 j) := by
  obtain ⟨i, hi, rfl⟩ := List.mem_map.mp he
  refine has_field ?_ fits hb
  rw [BitVec.toNat_ofNat]
  exact Nat.lt_of_le_of_lt (Nat.mod_le _ _) (List.mem_range.mp hi)

theorem field_in_relocations (he : p ∈ entries ef) (fits : f.offset.toNat + f.size ≤ relaSize.toNat)
    (hb : j < f.size) : InRelocations ef (p + f.offset + BitVec.ofNat 64 j) := by
  cases List.mem_append.mp he with
  | inl dyn => exact .inl (field_in_table dyn fits hb)
  | inr plt => exact .inr (field_in_table plt fits hb)

theorem read_congr (he : place.entry ∈ entries place.file)
    (same : ∀ a, InRelocations place.file a → memory' a = memory a) : place.read memory' = place.read memory := by
  have hf (f : Field) (fits : f.offset.toNat + f.size ≤ relaSize.toNat) :
      field memory' place.entry f = field memory place.entry f :=
    fetch_congr fun j hb => same _ (field_in_relocations he fits hb)
  rw [Place.read, Place.read, relaAt, relaAt, hf rOffset (by decide), hf rInfo (by decide), hf rAddend (by decide)]

/-- Both memories have the same tables, those with the relocations included. -/
def Untouched (extent : AddedFile → Extent) (efs : List AddedFile) (memory memory' : Bytes) : Prop :=
  ∀ ef ∈ efs, ∀ a, InTables extent ef a ∨ InRelocations ef a → memory' a = memory a

theorem Untouched.store (hu : Untouched extent efs memory memory')
    (clear : ∀ ef ∈ efs, ∀ a, InTables extent ef a ∨ InRelocations ef a → ¬ Has p 8 a) (v : Word) :
    Untouched extent efs memory (store memory' p v) := by
  intro ef hm a hi
  rw [store_of_not_has (clear ef hm a hi)]
  exact hu ef hm a hi

theorem Untouched.read (hu : Untouched extent efs memory memory')
    (hm : place ∈ places efs) : place.read memory' = place.read memory := by
  obtain ⟨file, he⟩ := mem_placesFrom hm
  exact read_congr he fun a hi => hu place.file file a (.inr hi)

def relocatePlaces (limit : Nat) (efs : List AddedFile) : List Place → Relocating Unit
  | [] => pure ()
  | place :: rest => do
    privateRelocateSymbol limit efs place.number place.file place.entry
    relocatePlaces limit efs rest

theorem relocatePlaces_append (left right : List Place) : relocatePlaces limit efs (left ++ right) = (do
      relocatePlaces limit efs left
      relocatePlaces limit efs right) := by
  induction left with
  | nil => rfl
  | cons place left ih => simp only [List.cons_append, relocatePlaces, ih, bind_assoc]

/-- Going through the entries succeeds if all of them have a word to write, and then it has written them. -/
theorem relocatePlaces_ok_iff (hrd : Relocatable extent efs memory)
    (hu : Untouched extent efs memory memory') {list : List Place} (part : ∀ place ∈ list, place ∈ places efs) :
    relocatePlaces limit efs list memory' = .ok () after ↔
      (∀ place ∈ list, ∃ v, (place.read memory).value limit efs memory = .ok v) ∧
        after = storeAll memory' (list.map fun place => (place.read memory).write limit efs memory) := by
  induction list generalizing memory' with
  | nil =>
    rw [relocatePlaces, pure_apply, EStateM.Result.ok.injEq]
    simp [storeAll, eq_comm]
  | cons place rest ih =>
    have hm := part place List.mem_cons_self
    have hl : place.read memory ∈ relocations memory efs := List.mem_map_of_mem hm
    have clear := hrd.clear _ hl
    have same : SameTables extent efs memory memory' := fun ef mem a hi => hu ef mem a (.inl hi)
    have step := privateRelocateSymbol_eq limit hrd.formed same (mem_placesFrom hm).1
      (hu.read hm) (hrd.supported _ hl) (hrd.indexed _ hl)
      (fun s => (hu.store clear s).read hm)
    rw [relocatePlaces, List.forall_mem_cons, List.map_cons, storeAll_cons]
    cases hv : (place.read memory).value limit efs memory with
    | error e =>
      rw [hv] at step
      rw [bind_of_error step]
      simp
    | ok v =>
      rw [hv] at step
      have hwr : ((place.read memory).write limit efs memory) = ((place.read memory).target, v) := by
        rw [Relocation.write, hv]
        rfl
      rw [bind_of_ok step, ih (hu.store clear v) (fun p hla => part p (List.mem_cons_of_mem _ hla)), hwr]
      simp

/-! ## The loops -/

/-- The loop over `num` entries ends: its counter can get that far. -/
def LoopEnds (limit : Nat) (num : Word) : Prop := num.toNat < 2 ^ 32 ∧ num.toNat < limit

theorem toNat_next (i : Word) : ((i + 1) &&& 0xffffffff).toNat = (i.toNat + 1) % 2 ^ 32 := by
  have mask : (0xffffffff : Word).toNat = 2 ^ 32 - 1 := rfl
  rw [BitVec.toNat_and, mask, Nat.and_two_pow_sub_one_eq_mod, BitVec.toNat_add]
  exact Nat.mod_mod_of_dvd _ (by decide)

theorem relocateFrom_ends {i : Word} (hs : i.toNat < 2 ^ 32)
    (hbe : i.toNat ≤ num.toNat) (ends : relocateFrom limit efs k ef num tab n i memory = .ok () memory') :
    num.toNat < 2 ^ 32 ∧ num.toNat < n + i.toNat := by
  induction n generalizing i memory with
  | zero => cases ends
  | succ n ih =>
    rw [relocateFrom] at ends
    by_cases hg : i < num
    · rw [if_pos hg] at ends
      obtain ⟨_, _, _, rest⟩ := ok_of_bind ends
      have hb : i.toNat < num.toNat := BitVec.lt_def.mp hg
      have next := toNat_next i
      -- A counter that wraps around has passed every number of entries that the loop can end with.
      have hla := ih (by omega) (by omega) rest
      omega
    · rw [BitVec.lt_def] at hg
      omega

theorem relocateFrom_eq {m : Nat} (hs : num.toNat < 2 ^ 32) (hbe : m ≤ num.toNat) (he : num.toNat < n + m) :
    relocateFrom limit efs k ef num tab n (BitVec.ofNat 64 m) =
      relocatePlaces limit efs ((List.range' m (num.toNat - m)).map fun i =>
        ⟨k, ef, tab + relaSize * BitVec.ofNat 64 i⟩) := by
  induction n generalizing m with
  | zero => omega
  | succ n ih =>
    have hc : (BitVec.ofNat 64 m).toNat = m := by rw [BitVec.toNat_ofNat, Nat.mod_eq_of_lt (by omega)]
    rw [relocateFrom]
    by_cases hg : BitVec.ofNat 64 m < num
    · have hb : m < num.toNat := by rwa [BitVec.lt_def, hc] at hg
      have next : (BitVec.ofNat 64 m + 1) &&& 0xffffffff = BitVec.ofNat 64 (m + 1) := by
        apply BitVec.eq_of_toNat_eq
        rw [toNat_next, hc, BitVec.toNat_ofNat, Nat.mod_eq_of_lt (by omega), Nat.mod_eq_of_lt (by omega)]
      have split : num.toNat - m = (num.toNat - (m + 1)) + 1 := by omega
      rw [if_pos hg, next, ih (by omega) (by omega), split, List.range'_succ, List.map_cons, relocatePlaces]
    · have done : num.toNat - m = 0 := by
        rw [BitVec.lt_def, hc] at hg
        omega
      rw [if_neg hg, done]
      rfl

theorem relocateTable_eq (ends : LoopEnds limit num) : relocateFrom limit efs k ef num tab limit 0 =
      relocatePlaces limit efs ((tableEntries num tab).map fun p => ⟨k, ef, p⟩) := by
  have hwh : relocateFrom limit efs k ef num tab limit 0 = _ :=
    relocateFrom_eq (m := 0) ends.1 (Nat.zero_le _) (by have := ends.2; omega)
  rw [tableEntries, List.range_eq_range', List.map_map]
  exact hwh

/-- Both loops over the entries of the file end. -/
def FileEnds (limit : Nat) (ef : AddedFile) : Prop := LoopEnds limit ef.relanumDyn ∧ LoopEnds limit ef.relanumPlt

theorem privateRelocateSymbols_eq (ends : FileEnds limit ef) : privateRelocateSymbols limit efs k ef =
      relocatePlaces limit efs ((entries ef).map fun p => ⟨k, ef, p⟩) := by
  rw [privateRelocateSymbols, relocateTable_eq ends.1, relocateTable_eq ends.2, entries, List.map_append,
    relocatePlaces_append]

theorem fileEnds_of_ok (ends : privateRelocateSymbols limit efs k ef memory = .ok () memory') :
    FileEnds limit ef := by
  rw [privateRelocateSymbols] at ends
  obtain ⟨_, middle, first, hs⟩ := ok_of_bind ends
  have zero : (0 : Word).toNat = 0 := rfl
  have dyn := relocateFrom_ends (by decide) (by omega) first
  have plt := relocateFrom_ends (by decide) (by omega) hs
  rw [zero] at dyn plt
  exact ⟨dyn, plt⟩

theorem relocateFiles_eq (ends : ∀ ef ∈ rest, FileEnds limit ef) (k : Nat) :
    relocateFiles limit efs rest k = relocatePlaces limit efs (placesFrom rest k) := by
  induction rest generalizing k with
  | nil => rfl
  | cons ef rest ih =>
    rw [relocateFiles, privateRelocateSymbols_eq (ends ef List.mem_cons_self),
      ih (fun f hla => ends f (List.mem_cons_of_mem _ hla)), placesFrom, relocatePlaces_append]

theorem filesEnd_of_ok
    (ends : relocateFiles limit efs rest k memory = .ok () memory') : ∀ ef ∈ rest, FileEnds limit ef := by
  induction rest generalizing k memory with
  | nil => simp
  | cons ef rest ih =>
    rw [relocateFiles] at ends
    obtain ⟨_, middle, first, hla⟩ := ok_of_bind ends
    rw [List.forall_mem_cons]
    exact ⟨fileEnds_of_ok first, ih hla⟩

/-- Relocating the files succeeds if all loops end and all relocations have a word to write, and then it has
written these words. -/
theorem relocateFiles_ok_iff (hrd : Relocatable extent efs memory) :
    relocateFiles limit efs efs 0 memory = .ok () after ↔ (∀ ef ∈ efs, FileEnds limit ef) ∧
        (∀ x ∈ relocations memory efs, ∃ v, x.value limit efs memory = .ok v) ∧
        after = storeAll memory ((relocations memory efs).map (Relocation.write limit efs memory)) := by
  have run : relocatePlaces limit efs (places efs) memory = .ok () after ↔ _ :=
    relocatePlaces_ok_iff hrd (fun _ _ _ _ => rfl) (fun _ hm => hm)
  rw [relocations, List.forall_mem_map, List.map_map]
  constructor
  · intro ends
    have hf := filesEnd_of_ok ends
    rw [relocateFiles_eq hf] at ends
    exact ⟨hf, run.mp ends⟩
  · rintro ⟨hf, hw⟩
    rw [relocateFiles_eq hf]
    exact run.mpr hw

/-! ## Other memories -/

/-- The word of a relocation is the same in every memory with the same tables. -/
theorem value_congr (hfo : ∀ ef ∈ efs, WellFormed extent memory ef) (same : SameTables extent efs memory memory')
    (hm : x.file ∈ efs) (hi : x.type ≠ rX8664Relative → IsSymbol extent x.file x.ownSymbol) :
    x.value limit efs memory' = x.value limit efs memory := by
  rw [Relocation.value, Relocation.value]
  by_cases hr : x.type = rX8664Relative
  · rw [if_pos hr, if_pos hr]
  · have hk := hi hr
    rw [if_neg hr, if_neg hr, symbolAddress_eq, symbolAddress_eq, findSymbol_congr hfo same hm hk]
    cases hfd : findSymbol limit efs x.number x.file x.rela.info memory with
    | error e => rfl
    | ok hf =>
      obtain ⟨hs, hsy⟩ := findSymbol_isSymbol hfo hm hk hfd
      dsimp only [bind, Except.bind]
      rw [same.field hs hsy (by decide)]

theorem WellFormed.congr (hfo : WellFormed extent memory ef) (hm : ef ∈ efs)
    (same : SameTables extent efs memory memory') : WellFormed extent memory' ef where
  chained := hfo.chained
  numbered := hfo.numbered
  named := by
    intro i hb
    rw [same.field hm ⟨i, hb, rfl⟩ (by decide)]
    exact hfo.named i hb
  ended := by
    intro offset last
    rw [same.strings ⟨ef, hm, has_add (by omega)⟩]
    exact hfo.ended offset last

theorem placesFrom_perm (k : Nat)
    (perm : ∀ ef ∈ rest, ((entries ef).map (relaAt memory')).Perm ((entries ef).map (relaAt memory))) :
    ((placesFrom rest k).map (Place.read memory')).Perm ((placesFrom rest k).map (Place.read memory)) := by
  induction rest generalizing k with
  | nil => exact .refl _
  | cons ef rest ih =>
    rw [List.forall_mem_cons] at perm
    rw [placesFrom, List.map_append, List.map_append]
    have here := perm.1.map fun r : Rela => (⟨k, ef, r⟩ : Relocation)
    rw [List.map_map, List.map_map] at here ⊢
    exact here.append (ih (k + 1) perm.2)

/-- The entries of each file may come in any order. -/
theorem Relocatable.congr (hrd : Relocatable extent efs memory) (same : SameTables extent efs memory memory')
    (perm : (relocations memory' efs).Perm (relocations memory efs)) : Relocatable extent efs memory' where
  formed ef hm := (hrd.formed ef hm).congr hm same
  supported x hm := hrd.supported x (perm.mem_iff.mp hm)
  indexed x hm := hrd.indexed x (perm.mem_iff.mp hm)
  apart := (perm.pairwise_iff fun far => far.symm).mpr hrd.apart
  clear x hm := hrd.clear x (perm.mem_iff.mp hm)

theorem mem_relocations (hm : x ∈ relocations memory efs) : x.file ∈ efs := by
  obtain ⟨place, hi, rfl⟩ := List.mem_map.mp hm
  exact (mem_placesFrom hi).1

end

end Gevisor.Elf
