import Gevisor.Elf.Lookups

/-! # Strong definitions come first

`private_get_sym_global` keeps the last weak definition it has met and stops at the first strong one.
-/

namespace Gevisor.Verified.SymbolResolution

open Elf

/-! ## Definitions of a name -/

/-- The files that are searched, in load order; `i` is the number of the first one. -/
def searchedFrom (ignore : Option Nat) : List AddedFile → Nat → List AddedFile
  | [], _ => []
  | ef :: rest, i => if some i = ignore then searchedFrom ignore rest (i + 1) else ef :: searchedFrom ignore rest (i + 1)

def searched (efs : List AddedFile) (ignore : Option Nat) : List AddedFile := searchedFrom ignore efs 0

section

variable (memory : Bytes) (limit : Nat) (name : Word)

/-- The file has the symbol under the name, with a value. -/
def Defines (ef : AddedFile) (sym : Word) : Prop :=
  privateGetSymByName memory ef limit name = .ok (some sym) ∧ field memory sym stValue ≠ 0

def Strong (ef : AddedFile) (sym : Word) : Prop := Defines memory limit name ef sym ∧ isWeak memory sym = false

def Weak (ef : AddedFile) (sym : Word) : Prop := Defines memory limit name ef sym ∧ isWeak memory sym = true

/-- The search of `files` that has found `found` so far ends with `result`. -/
structure Resolves (files : List AddedFile) (found result : Option (AddedFile × Word)) : Prop where
  strong : ∀ before ef sym after, files = before ++ ef :: after → Strong memory limit name ef sym →
    (∀ f ∈ before, ∀ s, ¬ Strong memory limit name f s) → result = some (ef, sym)
  weak : (∀ f ∈ files, ∀ s, ¬ Strong memory limit name f s) →
    ∀ before ef sym after, files = before ++ ef :: after → Weak memory limit name ef sym →
      (∀ f ∈ after, ∀ s, ¬ Weak memory limit name f s) → result = some (ef, sym)
  none : (∀ f ∈ files, ∀ s, ¬ Defines memory limit name f s) → result = found

end

variable {memory : Bytes} {limit : Nat} {name : Word}

variable {ef : AddedFile} {sym : Word} {P : AddedFile → Word → Prop} {files : List AddedFile}

theorem Defines.unique {sym' : Word} (one : Defines memory limit name ef sym)
    (ho : Defines memory limit name ef sym') : sym = sym' := by
  have same := one.1.symm.trans ho.1
  simpa using same

theorem strong_or_weak (hd : Defines memory limit name ef sym) :
    Strong memory limit name ef sym ∨ Weak memory limit name ef sym := by
  cases weak : isWeak memory sym with
  | false => exact .inl ⟨hd, weak⟩
  | true => exact .inr ⟨hd, weak⟩

/-! ## One more file -/

namespace Resolves

variable {ef : AddedFile} {files : List AddedFile} {found result : Option (AddedFile × Word)}

/-- A file that is searched without a result. -/
theorem skip (hu : ∀ s, ¬ Defines memory limit name ef s) (rest : Resolves memory limit name files found result) :
    Resolves memory limit name (ef :: files) found result := by
  constructor
  · intro hbe f sym ha split hs first
    cases hbe with
    | nil =>
      cases split
      exact absurd hs.1 (hu sym)
    | cons g hbe =>
      cases split
      exact rest.strong hbe f sym ha rfl hs fun h mem => first h (List.mem_cons_of_mem _ mem)
  · intro hal hbe f sym ha split weak last
    cases hbe with
    | nil =>
      cases split
      exact absurd weak.1 (hu sym)
    | cons g hbe =>
      cases split
      exact rest.weak (fun h mem => hal h (List.mem_cons_of_mem _ mem)) hbe f sym ha rfl weak last
  · intro all
    exact rest.none fun h mem => all h (List.mem_cons_of_mem _ mem)

/-- A weak definition is kept until there is a better one. -/
theorem keep {sym : Word} (here : Weak memory limit name ef sym)
    (rest : Resolves memory limit name files (some (ef, sym)) result) :
    Resolves memory limit name (ef :: files) found result := by
  constructor
  · intro hbe f s ha split hs first
    cases hbe with
    | nil =>
      cases split
      have same := hs.1.unique here.1
      rw [same] at hs
      exact absurd (hs.2.symm.trans here.2) (by decide)
    | cons g hbe =>
      cases split
      exact rest.strong hbe f s ha rfl hs fun h mem => first h (List.mem_cons_of_mem _ mem)
  · intro hal hbe f s ha split weak last
    have hn : ∀ h ∈ files, ∀ s, ¬ Strong memory limit name h s := fun h mem => hal h (List.mem_cons_of_mem _ mem)
    cases hbe with
    | nil =>
      cases split
      rw [weak.1.unique here.1]
      apply rest.none
      -- No later file defines the name, neither strongly nor weakly.
      intro h mem s hd
      cases strong_or_weak hd with
      | inl hs => exact hn h mem s hs
      | inr hla => exact last h mem s hla
    | cons g hbe =>
      cases split
      exact rest.weak hn hbe f s ha rfl weak last
  · intro all
    exact absurd here.1 (all ef List.mem_cons_self sym)

/-- A strong definition ends the search. -/
theorem stop {sym : Word} (here : Strong memory limit name ef sym) :
    Resolves memory limit name (ef :: files) found (some (ef, sym)) := by
  constructor
  · intro hbe f s ha split hs first
    cases hbe with
    | nil =>
      cases split
      rw [hs.1.unique here.1]
    | cons g hbe =>
      cases split
      exact absurd here (first ef List.mem_cons_self sym)
  · intro hal
    exact absurd here (hal ef List.mem_cons_self sym)
  · intro all
    exact absurd here.1 (all ef List.mem_cons_self sym)

theorem nil : Resolves memory limit name [] found found := by
  constructor
  · intro hbe f s ha split
    cases hbe <;> cases split
  · intro _ hbe f s ha split
    cases hbe <;> cases split
  · intro _
    rfl

end Resolves

/-! ## The loop -/

theorem symGlobalFrom_resolves (ignore : Option Nat) (efs : List AddedFile) (i : Nat)
    (given : ∀ ef ∈ searchedFrom ignore efs i, ∃ look, privateGetSymByName memory ef limit name = .ok look)
    (found : Option (AddedFile × Word)) :
    ∃ result, symGlobalFrom memory limit name ignore efs i found = .ok result ∧
      Resolves memory limit name (searchedFrom ignore efs i) found result := by
  induction efs generalizing i found with
  | nil => exact ⟨found, rfl, .nil⟩
  | cons ef rest ih =>
    by_cases hs : some i = ignore
    · rw [searchedFrom, if_pos hs] at given ⊢
      rw [symGlobalFrom, if_pos hs]
      exact ih (i + 1) given found
    · rw [searchedFrom, if_neg hs] at given ⊢
      rw [symGlobalFrom, if_neg hs]
      have hla := ih (i + 1) fun f mem => given f (List.mem_cons_of_mem _ mem)
      obtain ⟨look, hl⟩ := given ef List.mem_cons_self
      rw [hl]
      cases look with
      | none =>
        obtain ⟨result, ends, hr⟩ := hla found
        refine ⟨result, ends, hr.skip fun s hd => ?_⟩
        have same := hl.symm.trans hd.1
        simp at same
      | some sym =>
        dsimp only [bind, Except.bind]
        by_cases hu : field memory sym stValue = 0
        · rw [if_pos hu]
          obtain ⟨result, ends, hr⟩ := hla found
          refine ⟨result, ends, hr.skip fun s hd => ?_⟩
          have same := hl.symm.trans hd.1
          simp only [Except.ok.injEq, Option.some.injEq] at same
          exact hd.2 (same ▸ hu)
        · rw [if_neg hu]
          cases weak : isWeak memory sym with
          | true =>
            obtain ⟨result, ends, hr⟩ := hla (some (ef, sym))
            exact ⟨result, ends, hr.keep ⟨⟨hl, hu⟩, weak⟩⟩
          | false => exact ⟨_, rfl, .stop ⟨⟨hl, hu⟩, weak⟩⟩

theorem exists_first (some : ∃ f ∈ files, ∃ s, P f s) :
    ∃ hbe ef sym ha, files = hbe ++ ef :: ha ∧ P ef sym ∧ ∀ f ∈ hbe, ∀ s, ¬ P f s := by
  induction files with
  | nil =>
    obtain ⟨f, mem, -⟩ := some
    cases mem
  | cons g files ih =>
    by_cases here : ∃ s, P g s
    · obtain ⟨s, hh⟩ := here
      exact ⟨[], g, s, files, rfl, hh, fun f mem => by cases mem⟩
    · have hla : ∃ f ∈ files, ∃ s, P f s := by
        obtain ⟨f, mem, s, hh⟩ := some
        cases mem with
        | head => exact absurd ⟨s, hh⟩ here
        | tail _ mem => exact ⟨f, mem, s, hh⟩
      obtain ⟨hbe, ef, sym, ha, split, hh, first⟩ := ih hla
      refine ⟨g :: hbe, ef, sym, ha, by rw [split, List.cons_append], hh, ?_⟩
      rw [List.forall_mem_cons]
      exact ⟨fun s hh => here ⟨s, hh⟩, first⟩

theorem exists_last (some : ∃ f ∈ files, ∃ s, P f s) :
    ∃ hbe ef sym ha, files = hbe ++ ef :: ha ∧ P ef sym ∧ ∀ f ∈ ha, ∀ s, ¬ P f s := by
  obtain ⟨f, mem, hh⟩ := some
  obtain ⟨ha, ef, sym, hbe, split, here, last⟩ := exists_first ⟨f, List.mem_reverse.mpr mem, hh⟩
  refine ⟨hbe.reverse, ef, sym, ha.reverse, ?_, here, ?_⟩
  · have hwh := congrArg List.reverse split
    simpa using hwh
  · intro g hla
    exact last g (List.mem_reverse.mp hla)

/-! ## The result -/

section

variable {efs : List AddedFile} {ignore : Option Nat}
  (given : ∀ ef ∈ searched efs ignore, ∃ look, privateGetSymByName memory ef limit name = .ok look)

include given

/-- What `private_get_sym_global` returns. -/
theorem privateGetSymGlobal_resolves : ∃ result, Resolves memory limit name (searched efs ignore) none result ∧
    privateGetSymGlobal memory limit efs name ignore = match result with
      | some found => .ok found
      | none => .error .noSuchSymbol := by
  obtain ⟨result, ends, hr⟩ := symGlobalFrom_resolves ignore efs 0 given none
  refine ⟨result, hr, ?_⟩
  rw [privateGetSymGlobal, ends]
  cases result with
  | none => rfl
  | some found => rfl

variable {before after : List AddedFile} {ef : AddedFile} {sym : Word}

theorem global_of_strong (split : searched efs ignore = before ++ ef :: after)
    (hs : Strong memory limit name ef sym) (first : ∀ f ∈ before, ∀ s, ¬ Strong memory limit name f s) :
    privateGetSymGlobal memory limit efs name ignore = .ok (ef, sym) := by
  obtain ⟨result, hr, ends⟩ := privateGetSymGlobal_resolves given
  rw [ends, hr.strong before ef sym after split hs first]

theorem global_of_weak (ha : ∀ f ∈ searched efs ignore, ∀ s, ¬ Strong memory limit name f s)
    (split : searched efs ignore = before ++ ef :: after) (weak : Weak memory limit name ef sym)
    (last : ∀ f ∈ after, ∀ s, ¬ Weak memory limit name f s) :
    privateGetSymGlobal memory limit efs name ignore = .ok (ef, sym) := by
  obtain ⟨result, hr, ends⟩ := privateGetSymGlobal_resolves given
  rw [ends, hr.weak ha before ef sym after split weak last]

/-- Wherever the strong definition is, it is a strong one that is chosen. -/
theorem global_strong (some : ∃ f ∈ searched efs ignore, ∃ s, Strong memory limit name f s) :
    ∃ ef sym, privateGetSymGlobal memory limit efs name ignore = .ok (ef, sym) ∧ Strong memory limit name ef sym := by
  obtain ⟨hbe, ef, sym, ha, split, hs, first⟩ := exists_first some
  exact ⟨ef, sym, global_of_strong given split hs first, hs⟩

theorem global_fails_iff : privateGetSymGlobal memory limit efs name ignore = .error .noSuchSymbol ↔
    ∀ f ∈ searched efs ignore, ∀ s, ¬ Defines memory limit name f s := by
  constructor
  · intro hf f mem s hd
    by_cases hs : ∃ f ∈ searched efs ignore, ∃ s, Strong memory limit name f s
    · obtain ⟨ef, sym, ends, -⟩ := global_strong given hs
      rw [hf] at ends
      cases ends
    · have hal : ∀ f ∈ searched efs ignore, ∀ s, ¬ Strong memory limit name f s := fun f mem s hh => hs ⟨f, mem, s, hh⟩
      have weak := (strong_or_weak hd).resolve_left (hal f mem s)
      obtain ⟨hbe, ef, sym, ha, split, here, last⟩ := exists_last ⟨f, mem, s, weak⟩
      rw [global_of_weak given hal split here last] at hf
      cases hf
  · intro hu
    obtain ⟨result, hr, ends⟩ := privateGetSymGlobal_resolves given
    rw [ends, hr.none hu]

end

/-- For all files whose look-ups return: the first strong definition of the searched files, or else the last weak one,
or else a failure. So no order of the files leads to a weak definition where there is a strong one. -/
theorem strong_before_weak (memory : Bytes) (limit : Nat) (name : Word) (efs : List AddedFile) (ignore : Option Nat)
    (given : ∀ ef ∈ searched efs ignore, ∃ look, privateGetSymByName memory ef limit name = .ok look) :
    (∀ before ef sym after, searched efs ignore = before ++ ef :: after → Strong memory limit name ef sym →
      (∀ f ∈ before, ∀ s, ¬ Strong memory limit name f s) →
      privateGetSymGlobal memory limit efs name ignore = .ok (ef, sym)) ∧
    ((∀ f ∈ searched efs ignore, ∀ s, ¬ Strong memory limit name f s) →
      ∀ before ef sym after, searched efs ignore = before ++ ef :: after → Weak memory limit name ef sym →
      (∀ f ∈ after, ∀ s, ¬ Weak memory limit name f s) →
      privateGetSymGlobal memory limit efs name ignore = .ok (ef, sym)) ∧
    (privateGetSymGlobal memory limit efs name ignore = .error .noSuchSymbol ↔
      ∀ f ∈ searched efs ignore, ∀ s, ¬ Defines memory limit name f s) ∧
    (∀ efs' ignore', (searched efs' ignore').Perm (searched efs ignore) →
      (∃ f ∈ searched efs ignore, ∃ s, Strong memory limit name f s) →
      ∃ ef sym, privateGetSymGlobal memory limit efs' name ignore' = .ok (ef, sym) ∧
        Strong memory limit name ef sym) := by
  refine ⟨fun before ef sym after split => global_of_strong given split,
    fun allWeak before ef sym after split => global_of_weak given allWeak split, global_fails_iff given, ?_⟩
  intro efs' ignore' perm some
  obtain ⟨f, mem, strong⟩ := some
  exact global_strong (fun ef mem => given ef (perm.mem_iff.mp mem)) ⟨f, perm.mem_iff.mpr mem, strong⟩

/-! ## A weak definition before a strong one -/

/-- The name `a` at `0x10`, and two files that define it, the first one weakly. -/
def twoDefinitions : Bytes := fun a =>
  (([(0x10, 0x61),
    (0x1018, 1), (0x101c, 0x20), (0x1020, 5), (0x1031, 0x61),
    (0x2018, 1), (0x201c, 0x10), (0x2020, 7), (0x2031, 0x61)] : List (Word × Byte)).lookup a).getD 0

/-- A file with two symbols and no hash table. -/
def fileAt (base : Word) : AddedFile where
  execAddr := base
  execVirt := base
  startAddr := 0
  hash := 0
  nbucket := 0
  nchain := 0
  bucket := 0
  chain := 0
  strtab := base + 0x30
  symtab := base
  symnum := 2
  relanumDyn := 0
  relatabDyn := 0
  relanumPlt := 0
  relatabPlt := 0

theorem weak_found : privateGetSymByName twoDefinitions (fileAt 0x1000) 4 0x10 = .ok (some 0x1018) := by decide +kernel

theorem strong_found : privateGetSymByName twoDefinitions (fileAt 0x2000) 4 0x10 = .ok (some 0x2018) := by decide +kernel

theorem strong_after_weak : privateGetSymGlobal twoDefinitions 4 [fileAt 0x1000, fileAt 0x2000] 0x10 none =
    .ok (fileAt 0x2000, 0x2018) := by
  have given : ∀ ef ∈ searched [fileAt 0x1000, fileAt 0x2000] none,
      ∃ look, privateGetSymByName twoDefinitions ef 4 0x10 = .ok look :=
    List.forall_mem_cons.mpr ⟨⟨_, weak_found⟩, List.forall_mem_singleton.mpr ⟨_, strong_found⟩⟩
  have strong : Strong twoDefinitions 4 0x10 (fileAt 0x2000) 0x2018 :=
    ⟨⟨strong_found, by decide +kernel⟩, by decide +kernel⟩
  have weak : isWeak twoDefinitions 0x1018 = true := by decide +kernel
  refine (strong_before_weak twoDefinitions 4 0x10 _ none given).1 [fileAt 0x1000] _ _ [] rfl strong ?_
  intro f mem sym other
  rw [List.mem_singleton.mp mem] at other
  have same := weak_found.symm.trans other.1.1
  simp only [Except.ok.injEq, Option.some.injEq] at same
  rw [← same] at other
  exact absurd (other.2.symm.trans weak) (by decide)

end Gevisor.Verified.SymbolResolution
