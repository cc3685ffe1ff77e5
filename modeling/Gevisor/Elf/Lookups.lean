import Gevisor.Elf.Words
import Gevisor.Elf.Symbols

/-! # What look-ups read

In well-formed tables a look-up reads nothing but the tables, so it gives the same in every memory that has
the same tables.
-/

namespace Gevisor.Elf

/-- How many symbols and how many bytes of strings a file has. -/
structure Extent where
  symbols : Nat
  strings : Nat

variable (extent : AddedFile → Extent)

/-- The bytes of the symbol, string and hash tables of a file. -/
def InTables (ef : AddedFile) (a : Word) : Prop :=
  Has ef.symtab (symSize.toNat * (extent ef).symbols) a ∨ Has ef.strtab (extent ef).strings a ∨
    ef.hash ≠ 0 ∧ (Has ef.bucket (4 * ef.nbucket.toNat) a ∨ Has ef.chain (4 * ef.nchain.toNat) a)

/-- The symbols that a file is searched for are in its symbol table, their names begin in its string table, and
that table ends with a zero. -/
structure WellFormed (memory : Bytes) (ef : AddedFile) : Prop where
  chained : ef.hash ≠ 0 → ef.nchain.toNat ≤ (extent ef).symbols
  numbered : ef.hash = 0 → ef.symnum.toNat ≤ (extent ef).symbols
  named : ∀ i : Word, i.toNat < (extent ef).symbols →
    (field memory (symbol ef i) stName).toNat < (extent ef).strings
  ended : ∀ offset : Word, offset.toNat + 1 = (extent ef).strings → memory (ef.strtab + offset) = 0

/-- An address in one of the string tables. -/
def InStrings (efs : List AddedFile) (a : Word) : Prop := ∃ ef ∈ efs, Has ef.strtab (extent ef).strings a

/-- A symbol of one of the files. -/
def IsSymbol (ef : AddedFile) (sym : Word) : Prop := ∃ i : Word, i.toNat < (extent ef).symbols ∧ sym = symbol ef i

/-- Both memories have the same tables. -/
def SameTables (efs : List AddedFile) (memory memory' : Bytes) : Prop :=
  ∀ ef ∈ efs, ∀ a, InTables extent ef a → memory' a = memory a

section

variable {extent} {efs : List AddedFile} {memory memory' : Bytes}

/-! ## Single reads -/

section

variable (same : SameTables extent efs memory memory')

include same

theorem SameTables.strings {a : Word} (hi : InStrings extent efs a) : memory' a = memory a := by
  obtain ⟨ef, hm, has⟩ := hi
  exact same ef hm a (.inr (.inl has))

variable {ef : AddedFile} {sym : Word}

theorem SameTables.field (hm : ef ∈ efs) (hk : IsSymbol extent ef sym) {f : Field}
    (fits : f.offset.toNat + f.size ≤ 24) : field memory' sym f = field memory sym f := by
  obtain ⟨i, hb, rfl⟩ := hk
  apply fetch_congr
  intro j hi
  exact same ef hm _ (.inl (has_field hb fits hi))

theorem SameTables.name (hm : ef ∈ efs) (hk : IsSymbol extent ef sym) :
    symbolName memory' ef sym = symbolName memory ef sym := by
  rw [symbolName, symbolName, same.field hm hk (by decide)]

theorem SameTables.weak (hm : ef ∈ efs) (hk : IsSymbol extent ef sym) : isWeak memory' sym = isWeak memory sym := by
  rw [isWeak, isWeak, same.field hm hk (by decide)]

end

variable {i sym : Word} {n limit : Nat} {ef : AddedFile}

/-- An entry of a hash table, which is an array of 32-bit numbers. -/
theorem fetch_index {base : Word} (hb : i.toNat < n) (same : ∀ a, Has base (4 * n) a → memory' a = memory a) :
    fetch memory' (base + 4 * i) 4 = fetch memory (base + 4 * i) 4 := by
  apply fetch_congr
  intro j hi
  apply same
  apply @has_entry base 4 i _ n hb
  rw [BitVec.toNat_ofNat, Nat.mod_eq_of_lt (by omega)]
  exact hi

/-! ## Names -/

theorem name_inStrings (hfo : ∀ ef ∈ efs, WellFormed extent memory ef) (hm : ef ∈ efs)
    (hk : IsSymbol extent ef sym) : InStrings extent efs (symbolName memory ef sym) := by
  obtain ⟨i, hb, rfl⟩ := hk
  exact ⟨ef, hm, has_add ((hfo ef hm).named i hb)⟩

section

variable (hfo : ∀ ef ∈ efs, WellFormed extent memory ef)

include hfo

/-- A string goes on inside its table. -/
theorem inStrings_succ {a : Word} (hi : InStrings extent efs a) (hg : memory a ≠ 0) :
    InStrings extent efs (a + 1) := by
  obtain ⟨ef, hm, has⟩ := hi
  have hp : ef.strtab + (a - ef.strtab) = a := by rw [BitVec.add_comm, BitVec.sub_add_cancel]
  have more : (a - ef.strtab).toNat + 1 ≠ (extent ef).strings := by
    intro last
    have zero := (hfo ef hm).ended _ last
    rw [hp] at zero
    exact hg zero
  refine ⟨ef, hm, ?_⟩
  rw [← hp, BitVec.add_assoc]
  apply has_add
  have next := toNat_add_le (a - ef.strtab) 1
  have one : (1 : Word).toNat = 1 := rfl
  have hb : (a - ef.strtab).toNat < (extent ef).strings := has
  omega

theorem strcmpAt_congr
    (same : SameTables extent efs memory memory') (limit : Nat) {s1 s2 : Word} (first : InStrings extent efs s1)
    (hs : InStrings extent efs s2) : strcmpAt memory' limit s1 s2 = strcmpAt memory limit s1 s2 := by
  induction limit generalizing s1 s2 with
  | zero => rfl
  | succ limit ih =>
    rw [strcmpAt, strcmpAt, same.strings first, same.strings hs]
    by_cases hg : memory s1 ≠ 0 ∧ memory s1 = memory s2
    · rw [if_pos hg, if_pos hg]
      -- The second string goes on as well, as it has the same character.
      exact ih (inStrings_succ hfo first hg.1) (inStrings_succ hfo hs (hg.2 ▸ hg.1))
    · rw [if_neg hg, if_neg hg]

theorem privateHash_congr
    (same : SameTables extent efs memory memory') (limit : Nat) {name : Word} (hi : InStrings extent efs name)
    (h : Word) : privateHash memory' limit name h = privateHash memory limit name h := by
  induction limit generalizing name h with
  | zero => rfl
  | succ limit ih =>
    rw [privateHash, privateHash, same.strings hi]
    by_cases hg : memory name ≠ 0
    · rw [if_pos hg, if_pos hg]
      exact ih (inStrings_succ hfo hi hg) _
    · rw [if_neg hg, if_neg hg]

end

/-! ## Symbols by name -/

theorem strcmpAt_symbol (hfo : ∀ ef ∈ efs, WellFormed extent memory ef)
    (same : SameTables extent efs memory memory') (limit : Nat) {name : Word} (hi : InStrings extent efs name)
    (hm : ef ∈ efs) (hk : IsSymbol extent ef sym) :
    strcmpAt memory' limit name (symbolName memory' ef sym) = strcmpAt memory limit name (symbolName memory ef sym) := by
  rw [same.name hm hk]
  exact strcmpAt_congr hfo same limit hi (name_inStrings hfo hm hk)

theorem chainFrom_congr (hfo : ∀ ef ∈ efs, WellFormed extent memory ef)
    (same : SameTables extent efs memory memory') (limit : Nat) {name : Word} (hi : InStrings extent efs name)
    (hm : ef ∈ efs) (hh : ef.hash ≠ 0) (n : Nat) (i : Word) :
    chainFrom memory' ef limit name n i = chainFrom memory ef limit name n i := by
  induction n generalizing i with
  | zero => rfl
  | succ n ih =>
    rw [chainFrom, chainFrom]
    by_cases hg : 0 < i ∧ i < ef.nchain
    · have hb : i.toNat < ef.nchain.toNat := BitVec.lt_def.mp hg.2
      have hk : IsSymbol extent ef (symbol ef i) := ⟨i, Nat.lt_of_lt_of_le hb ((hfo ef hm).chained hh), rfl⟩
      have next : fetch memory' (ef.chain + 4 * i) 4 = fetch memory (ef.chain + 4 * i) 4 :=
        fetch_index hb fun a has => same ef hm a (.inr (.inr ⟨hh, .inr has⟩))
      rw [if_pos hg, if_pos hg, strcmpAt_symbol hfo same limit hi hm hk, next, ih]
    · rw [if_neg hg, if_neg hg]

theorem symbolsFrom_congr (hfo : ∀ ef ∈ efs, WellFormed extent memory ef)
    (same : SameTables extent efs memory memory') (limit : Nat) {name : Word} (hi : InStrings extent efs name)
    (hm : ef ∈ efs) (hl : ef.hash = 0) (n : Nat) (i : Word) :
    symbolsFrom memory' ef limit name n i = symbolsFrom memory ef limit name n i := by
  induction n generalizing i with
  | zero => rfl
  | succ n ih =>
    rw [symbolsFrom, symbolsFrom]
    by_cases hg : i < ef.symnum
    · have hk : IsSymbol extent ef (symbol ef i) :=
        ⟨i, Nat.lt_of_lt_of_le (BitVec.lt_def.mp hg) ((hfo ef hm).numbered hl), rfl⟩
      rw [if_pos hg, if_pos hg, strcmpAt_symbol hfo same limit hi hm hk, ih]
    · rw [if_neg hg, if_neg hg]

theorem privateGetSymByName_congr (hfo : ∀ ef ∈ efs, WellFormed extent memory ef)
    (same : SameTables extent efs memory memory') (limit : Nat) {name : Word} (hi : InStrings extent efs name)
    (hm : ef ∈ efs) : privateGetSymByName memory' ef limit name = privateGetSymByName memory ef limit name := by
  rw [privateGetSymByName, privateGetSymByName]
  by_cases hh : ef.hash ≠ 0
  · rw [if_pos hh, if_pos hh, privateGetSymByHash, privateGetSymByHash, privateHash_congr hfo same limit hi]
    congr 1
    funext x
    by_cases hem : ef.nbucket = 0
    · rw [if_pos hem, if_pos hem]
    · have hb : (x % ef.nbucket).toNat < ef.nbucket.toNat := by
        rw [BitVec.toNat_umod]
        exact Nat.mod_lt _ (Nat.pos_of_ne_zero fun zero => hem (BitVec.eq_of_toNat_eq zero))
      have first : fetch memory' (ef.bucket + 4 * (x % ef.nbucket)) 4 =
          fetch memory (ef.bucket + 4 * (x % ef.nbucket)) 4 :=
        fetch_index hb fun a has => same ef hm a (.inr (.inr ⟨hh, .inl has⟩))
      rw [if_neg hem, if_neg hem, first, chainFrom_congr hfo same limit hi hm hh]
  · rw [if_neg hh, if_neg hh]
    exact symbolsFrom_congr hfo same limit hi hm (not_not.mp hh) _ _

/-- What an `Except` computation that succeeds has gone through. -/
theorem bind_eq_ok {α β ε : Type} {x : Except ε α} {f : α → Except ε β} {b : β} (ends : x >>= f = .ok b) :
    ∃ a, x = .ok a ∧ f a = .ok b := by
  cases x with
  | error e => cases ends
  | ok a => exact ⟨a, rfl, ends⟩

theorem chainFrom_isSymbol (hfo : WellFormed extent memory ef) (hh : ef.hash ≠ 0) {name : Word}
    (hf : chainFrom memory ef limit name n i = .ok (some sym)) : IsSymbol extent ef sym := by
  induction n generalizing i with
  | zero => cases hf
  | succ n ih =>
    rw [chainFrom] at hf
    by_cases hg : 0 < i ∧ i < ef.nchain
    · rw [if_pos hg] at hf
      obtain ⟨heq, -, rest⟩ := bind_eq_ok hf
      cases heq with
      | true =>
        cases rest
        exact ⟨i, Nat.lt_of_lt_of_le (BitVec.lt_def.mp hg.2) (hfo.chained hh), rfl⟩
      | false => exact ih rest
    · rw [if_neg hg] at hf
      cases hf

theorem symbolsFrom_isSymbol (hfo : WellFormed extent memory ef) (hl : ef.hash = 0) {name : Word}
    (hf : symbolsFrom memory ef limit name n i = .ok (some sym)) : IsSymbol extent ef sym := by
  induction n generalizing i with
  | zero => cases hf
  | succ n ih =>
    rw [symbolsFrom] at hf
    by_cases hg : i < ef.symnum
    · rw [if_pos hg] at hf
      obtain ⟨heq, -, rest⟩ := bind_eq_ok hf
      cases heq with
      | true =>
        cases rest
        exact ⟨i, Nat.lt_of_lt_of_le (BitVec.lt_def.mp hg) (hfo.numbered hl), rfl⟩
      | false => exact ih rest
    · rw [if_neg hg] at hf
      cases hf

theorem privateGetSymByName_isSymbol (hfo : WellFormed extent memory ef)
    {name : Word} (hf : privateGetSymByName memory ef limit name = .ok (some sym)) :
    IsSymbol extent ef sym := by
  rw [privateGetSymByName] at hf
  by_cases hh : ef.hash ≠ 0
  · rw [if_pos hh, privateGetSymByHash] at hf
    obtain ⟨x, -, rest⟩ := bind_eq_ok hf
    by_cases hem : ef.nbucket = 0
    · rw [if_pos hem] at rest
      cases rest
    · rw [if_neg hem] at rest
      exact chainFrom_isSymbol hfo hh rest
  · rw [if_neg hh] at hf
    exact symbolsFrom_isSymbol hfo (not_not.mp hh) hf

/-! ## Symbols of all files -/

section

variable (hfo : ∀ ef ∈ efs, WellFormed extent memory ef)

include hfo

variable {rest : List AddedFile} {limit : Nat} {ignore : Option Nat}

theorem symGlobalFrom_congr
    (same : SameTables extent efs memory memory') (limit : Nat) {name : Word} (hi : InStrings extent efs name)
    (ignore : Option Nat) (part : ∀ ef ∈ rest, ef ∈ efs) (i : Nat)
    (hf : Option (AddedFile × Word)) :
    symGlobalFrom memory' limit name ignore rest i hf = symGlobalFrom memory limit name ignore rest i hf := by
  induction rest generalizing i hf with
  | nil => rfl
  | cons ef rest ih =>
    have hm := part ef List.mem_cons_self
    have step := ih (fun f hla => part f (List.mem_cons_of_mem _ hla)) (i + 1)
    rw [symGlobalFrom, symGlobalFrom, privateGetSymByName_congr hfo same limit hi hm]
    simp only [step]
    cases look : privateGetSymByName memory ef limit name with
    | error e => rfl
    | ok hres =>
      cases hres with
      | none => rfl
      | some sym =>
        have hk := privateGetSymByName_isSymbol (hfo ef hm) look
        dsimp only [bind, Except.bind]
        rw [same.field hm hk (by decide), same.weak hm hk]

/-- What the search over the files ends with is a symbol of one of them, if what it began with was. -/
theorem symGlobalFrom_isSymbol {name : Word} (part : ∀ ef ∈ rest, ef ∈ efs) {i : Nat}
    {hf : Option (AddedFile × Word)} (hbe : ∀ f ∈ hf, f.1 ∈ efs ∧ IsSymbol extent f.1 f.2)
    {hres : Option (AddedFile × Word)} (ends : symGlobalFrom memory limit name ignore rest i hf = .ok hres) :
    ∀ f ∈ hres, f.1 ∈ efs ∧ IsSymbol extent f.1 f.2 := by
  induction rest generalizing i hf with
  | nil =>
    cases ends
    exact hbe
  | cons ef rest ih =>
    have hm := part ef List.mem_cons_self
    have hla := fun f mem => part f (List.mem_cons_of_mem ef mem)
    rw [symGlobalFrom] at ends
    by_cases hs : some i = ignore
    · rw [if_pos hs] at ends
      exact ih hla hbe ends
    · rw [if_neg hs] at ends
      obtain ⟨look, hl, ends⟩ := bind_eq_ok ends
      cases look with
      | none => exact ih hla hbe ends
      | some sym =>
        have here : ∀ f ∈ some (ef, sym), f.1 ∈ efs ∧ IsSymbol extent f.1 f.2 := by
          intro f mem
          cases mem
          exact ⟨hm, privateGetSymByName_isSymbol (hfo ef hm) hl⟩
        dsimp only at ends
        by_cases hu : field memory sym stValue = 0
        · rw [if_pos hu] at ends
          exact ih hla hbe ends
        · rw [if_neg hu] at ends
          by_cases weak : isWeak memory sym = true
          · rw [if_pos weak] at ends
            exact ih hla here ends
          · rw [if_neg weak] at ends
            cases ends
            exact here

theorem privateGetSymGlobal_congr
    (same : SameTables extent efs memory memory') (limit : Nat) {name : Word} (hi : InStrings extent efs name)
    (ignore : Option Nat) :
    privateGetSymGlobal memory' limit efs name ignore = privateGetSymGlobal memory limit efs name ignore := by
  rw [privateGetSymGlobal, privateGetSymGlobal, symGlobalFrom_congr hfo same limit hi ignore (fun _ hm => hm)]

theorem privateGetSymGlobal_isSymbol {name : Word} {hf : AddedFile × Word}
    (ends : privateGetSymGlobal memory limit efs name ignore = .ok hf) :
    hf.1 ∈ efs ∧ IsSymbol extent hf.1 hf.2 := by
  rw [privateGetSymGlobal] at ends
  obtain ⟨hres, hs, ends⟩ := bind_eq_ok ends
  have hk := symGlobalFrom_isSymbol hfo (fun _ hm => hm) (fun f none => by cases none) hs
  cases hres with
  | none => cases ends
  | some f =>
    cases ends
    exact hk hf rfl

end

end

end Gevisor.Elf
