import Gevisor.Elf.Relocations

/-! # Relocation writes the right words

A loader that has not been relocated yet writes to every target the word of its entry and nothing else, and
the order of the entries plays no part. The flag that keeps a loader from being relocated twice also keeps
the files that are added later from being relocated at all.
-/

namespace Gevisor.Verified.ElfRelocation

open Elf

/-- The target of a relocation holds what its type asks for. -/
structure Holds (limit : Nat) (efs : List AddedFile) (memory memory' : Bytes) (x : Relocation) : Prop where
  relative : x.type = rX8664Relative → fetch memory' x.target 8 = x.file.execVirt + x.rela.addend
  full : x.type = rX8664 →
    ∃ s, x.symbolAddress limit efs memory = .ok s ∧ fetch memory' x.target 8 = s + x.rela.addend
  slot : x.type = rX8664GlobDat ∨ x.type = rX8664JumpSlot →
    ∃ s, x.symbolAddress limit efs memory = .ok s ∧ fetch memory' x.target 8 = s

/-- The same memory but for the order of the entries in the relocation tables of each file. -/
structure Reordered (extent : AddedFile → Extent) (efs : List AddedFile) (memory other : Bytes) : Prop where
  elsewhere : ∀ a, (∀ ef ∈ efs, ¬ InRelocations ef a) → other a = memory a
  tables : SameTables extent efs memory other
  entries : ∀ ef ∈ efs, ((entries ef).map (relaAt other)).Perm ((entries ef).map (relaAt memory))

structure Exact (limit : Nat) (extent : AddedFile → Extent) (loader : ElfLoader) (memory memory' : Bytes) : Prop where
  words : ∀ x ∈ relocations memory loader.efs, Holds limit loader.efs memory memory' x
  others : ∀ a, (∀ x ∈ relocations memory loader.efs, ¬ Has x.target 8 a) → memory' a = memory a
  order : ∀ other, Reordered extent loader.efs memory other →
    ∃ loader' after, bfelfLoaderRelocate limit loader other = .ok loader' after ∧
      ∀ a, (∀ ef ∈ loader.efs, ¬ InRelocations ef a) → after a = memory' a

section

variable {limit : Nat} {extent : AddedFile → Extent} {efs : List AddedFile} {memory memory' other : Bytes}

theorem holds_of_value {x : Relocation} {v : Word} (hv : x.value limit efs memory = .ok v)
    (hwr : fetch memory' x.target 8 = v) : Holds limit efs memory memory' x := by
  rw [Relocation.value] at hv
  by_cases hr : x.type = rX8664Relative
  · rw [if_pos hr] at hv
    cases hv
    refine ⟨fun _ => hwr, ?_, ?_⟩
    · intro full
      rw [hr] at full
      exact absurd full (by decide)
    · intro slot
      rw [hr] at slot
      exact absurd slot (by decide)
  · rw [if_neg hr] at hv
    obtain ⟨s, ha, hv⟩ := bind_eq_ok hv
    cases hv
    refine ⟨fun h => absurd h hr, ?_, ?_⟩
    · intro full
      rw [if_pos full] at hwr
      exact ⟨s, ha, hwr⟩
    · intro slot
      have hs : x.type ≠ rX8664 := by
        intro full
        rw [full] at slot
        exact absurd slot (by decide)
      rw [if_neg hs] at hwr
      exact ⟨s, ha, hwr⟩

theorem writes_apart (hrd : Relocatable extent efs memory) :
    ((relocations memory efs).map (Relocation.write limit efs memory)).Pairwise fun v w => Apart v.1 w.1 :=
  List.pairwise_map.mpr hrd.apart

/-- Relocating the reordered memory writes the same words. -/
theorem relocateFiles_reordered (hrd : Relocatable extent efs memory)
    (ends : relocateFiles limit efs efs 0 memory = .ok () memory') (hr : Reordered extent efs memory other) :
    ∃ after, relocateFiles limit efs efs 0 other = .ok () after ∧
      ∀ a, (∀ ef ∈ efs, ¬ InRelocations ef a) → after a = memory' a := by
  obtain ⟨hf, hva, hwr⟩ := (relocateFiles_ok_iff hrd).mp ends
  have perm : (relocations other efs).Perm (relocations memory efs) := placesFrom_perm 0 hr.entries
  have hv (x : Relocation) (hm : x ∈ relocations other efs) : x.value limit efs other = x.value limit efs memory :=
    value_congr hrd.formed hr.tables (mem_relocations hm) (hrd.indexed x (perm.mem_iff.mp hm))
  refine ⟨_, (relocateFiles_ok_iff (hrd.congr hr.tables perm)).mpr ⟨hf, ?_, rfl⟩, ?_⟩
  · intro x hm
    rw [hv x hm]
    exact hva x (perm.mem_iff.mp hm)
  · intro a hout
    have hw : (relocations other efs).map (Relocation.write limit efs other) =
        (relocations other efs).map (Relocation.write limit efs memory) := by
      apply List.map_congr_left
      intro x hm
      rw [Relocation.write, Relocation.write, hv x hm]
    rw [hw, ← storeAll_perm (perm.symm.map _) (writes_apart hrd), hwr]
    exact storeAll_congr (hr.elsewhere a hout) _

theorem exact_of_relocateFiles {loader : ElfLoader} (hfr : loader.relocated ≠ 1)
    (hrd : Relocatable extent loader.efs memory)
    (ends : relocateFiles limit loader.efs loader.efs 0 memory = .ok () memory') :
    Exact limit extent loader memory memory' := by
  obtain ⟨hf, hva, hwr⟩ := (relocateFiles_ok_iff hrd).mp ends
  refine ⟨?_, ?_, ?_⟩
  · intro x hm
    obtain ⟨v, hv⟩ := hva x hm
    apply holds_of_value hv
    have word := fetch_storeAll (writes_apart hrd)
      (List.mem_map_of_mem (f := Relocation.write limit loader.efs memory) hm) memory
    rw [Relocation.write, hv] at word
    rw [hwr]
    exact word
  · intro a hout
    rw [hwr]
    apply storeAll_of_not_has
    intro w hm
    obtain ⟨x, hl, rfl⟩ := List.mem_map.mp hm
    exact hout x hl
  · intro other hr
    obtain ⟨ha, hag, same⟩ := relocateFiles_reordered hrd ends hr
    refine ⟨{ loader with relocated := 1 }, ha, ?_, same⟩
    rw [bfelfLoaderRelocate, if_neg hfr, Lib.bind_of_ok hag]
    rfl

end

theorem relocation_exact_iff (limit : Nat) (extent : AddedFile → Extent) (loader : ElfLoader) (memory : Bytes)
    (ready : Relocatable extent loader.efs memory) :
    (∀ loader' memory', bfelfLoaderRelocate limit loader memory = .ok loader' memory' →
        Exact limit extent loader memory memory') ↔
      loader.relocated ≠ 1 ∨ ∀ x ∈ relocations memory loader.efs, Holds limit loader.efs memory memory x := by
  by_cases done : loader.relocated = 1
  · -- Nothing is written, so the words have to be there already.
    have skips (m : Bytes) : bfelfLoaderRelocate limit loader m = .ok loader m := by
      rw [bfelfLoaderRelocate, if_pos done]
      rfl
    constructor
    · intro right
      exact .inr (right loader memory (skips memory)).words
    · intro condition
      have held := condition.resolve_left (not_not.mpr done)
      intro loader' memory' ends
      rw [skips] at ends
      cases ends
      exact ⟨held, fun _ _ => rfl, fun other reordered => ⟨loader, other, skips other, reordered.elsewhere⟩⟩
  · constructor
    · intro _
      exact .inl done
    · intro _ loader' memory' ends
      rw [bfelfLoaderRelocate, if_neg done] at ends
      obtain ⟨_, after, files, last⟩ := Lib.ok_of_bind ends
      cases last
      exact exact_of_relocateFiles done ready files

/-! ## Two files -/

/-- A file with two symbols and a relocation of type `RELATIVE` and one of type `GLOB_DAT`, for the second symbol. -/
def sample : File :=
  { hash := 0x300, strtabOffset := 0x200, symtab := 0x100, relanumDyn := 2, relatabDyn := 0x400 }

def sampleWords (base : Word) : List (Word × Word) :=
  [(base + 0x118, 0x1000000000), (base + 0x120, 0x40), -- the second symbol
    (base + 0x300, 0x200000001), (base + 0x308, 1), -- one bucket, two symbols
    (base + 0x400, 0x10), (base + 0x408, 8), (base + 0x410, 0x20), -- RELATIVE
    (base + 0x418, 0x18), (base + 0x420, 0x100000006)] -- GLOB_DAT

def image : Bytes := storeAll (fun _ => 0) (sampleWords 0x1000 ++ sampleWords 0x2000)

/-- The first file has nothing to relocate. -/
def first : AddedFile := placed image { sample with relanumDyn := 0 } 0 0x1000 0x5000

def second : AddedFile := placed image sample 0 0x2000 0x6000

def sampleExtent (_ : AddedFile) : Extent := ⟨2, 1⟩

theorem relocations_sample : relocations image [first, second] =
    [⟨1, second, ⟨0x10, 8, 0x20⟩⟩, ⟨1, second, ⟨0x18, 0x100000006, 0⟩⟩] := by
  decide +kernel

/-- The tables of a file all lie off the target. -/
def Far (target : Word) (ef : AddedFile) : Prop :=
  ∀ table ∈ [(ef.symtab, 48), (ef.strtab, 1), (ef.bucket, 4 * ef.nbucket.toNat), (ef.chain, 4 * ef.nchain.toNat),
      (ef.relatabDyn, 24 * ef.relanumDyn.toNat), (ef.relatabPlt, 24 * ef.relanumPlt.toNat)],
    table.2 ≤ (target - table.1).toNat ∧ 8 ≤ (table.1 - target).toNat

instance decidableFar (target : Word) (ef : AddedFile) : Decidable (Far target ef) :=
  inferInstanceAs (Decidable (∀ _ ∈ _, _))

theorem clear_of_far {target : Word} {ef : AddedFile} (far : Far target ef) (a : Word)
    (hi : InTables sampleExtent ef a ∨ InRelocations ef a) : ¬ Has target 8 a := by
  simp only [Far, List.forall_mem_cons, List.not_mem_nil, false_implies, implies_true, and_true] at far
  obtain ⟨hsy, hs, hb, hc, dyn, plt⟩ := far
  rcases hi with (has | has | ⟨_, has | has⟩) | (has | has)
  · exact not_has_of_far hsy.1 hsy.2 has
  · exact not_has_of_far hs.1 hs.2 has
  · exact not_has_of_far hb.1 hb.2 has
  · exact not_has_of_far hc.1 hc.2 has
  · exact not_has_of_far dyn.1 dyn.2 has
  · exact not_has_of_far plt.1 plt.2 has

theorem wellFormed_sample : ∀ ef ∈ [first, second], WellFormed sampleExtent image ef := by
  intro ef hm
  have hs : ef.hash ≠ 0 ∧ ef.nchain.toNat ≤ 2 ∧ image (ef.strtab + 0) = 0 ∧
      (field image (symbol ef 0) stName).toNat < 1 ∧ (field image (symbol ef 1) stName).toNat < 1 := by
    revert ef
    decide +kernel
  obtain ⟨hh, hc, zero, null, hna⟩ := hs
  refine ⟨fun _ => hc, fun none => absurd none hh, ?_, ?_⟩
  · intro i hb
    have hi : i = 0 ∨ i = 1 := by
      have hsm : i.toNat < 2 := hb
      bv_omega
    cases hi with
    | inl h => exact h ▸ null
    | inr h => exact h ▸ hna
  · intro offset last
    have hst : offset = 0 := by
      have hsm : offset.toNat + 1 = 1 := last
      bv_omega
    exact hst ▸ zero

theorem relocatable_sample : Relocatable sampleExtent [first, second] image where
  formed := wellFormed_sample
  supported := by
    rw [relocations_sample]
    decide +kernel
  indexed := by
    rw [relocations_sample]
    intro x hm ha
    simp only [List.mem_cons, List.not_mem_nil, or_false] at hm
    cases hm with
    | inl hr =>
      subst hr
      exact absurd (by decide +kernel) ha
    | inr slot =>
      subst slot
      exact ⟨1, by decide, by decide +kernel⟩
  apart := by
    rw [relocations_sample, List.pairwise_pair]
    intro a both
    refine not_has_of_far ?_ ?_ both.1 both.2
    · decide +kernel
    · decide +kernel
  clear := by
    intro x hm ef file a hi
    have far : Far x.target ef := by
      rw [relocations_sample] at hm
      clear hi
      revert x ef
      decide +kernel
    exact clear_of_far far a hi

/-- A loader with both files that has not been relocated. -/
theorem relocation_exact_two_files :
    ∃ loader' memory', bfelfLoaderRelocate 4 ⟨[first, second], 0⟩ image = .ok loader' memory' ∧
      Exact 4 sampleExtent ⟨[first, second], 0⟩ image memory' := by
  have returns : Lib.wp (bfelfLoaderRelocate 4 ⟨[first, second], 0⟩) (fun _ _ => True) (fun _ _ => False) image := by
    decide +kernel
  obtain ⟨loader', memory', ends, -⟩ := Lib.exists_of_wp returns
  have right := (relocation_exact_iff 4 sampleExtent ⟨[first, second], 0⟩ image relocatable_sample).mpr
    (.inl (by decide))
  exact ⟨loader', memory', ends, right loader' memory' ends⟩

/-- From an empty loader: the first file is added and relocated, the second one is added, and relocating again
reports success without having written anything. -/
theorem later_file_not_relocated : ∃ added relocated loader : ElfLoader,
      bfelfLoaderAdd image {} { sample with relanumDyn := 0 } 0 0 0x1000 0x5000 = .ok added ∧
      bfelfLoaderRelocate 4 added image = .ok relocated image ∧
      bfelfLoaderAdd image relocated sample 0 0 0x2000 0x6000 = .ok loader ∧
      Relocatable sampleExtent loader.efs image ∧
      bfelfLoaderRelocate 4 loader image = .ok loader image ∧
      ¬ Exact 4 sampleExtent loader image image := by
  refine ⟨⟨[first], 0⟩, ⟨[first], 1⟩, ⟨[first, second], 1⟩, rfl, rfl, rfl, relocatable_sample, rfl, ?_⟩
  intro right
  have member : ⟨1, second, ⟨0x10, 8, 0x20⟩⟩ ∈ relocations image [first, second] := by
    rw [relocations_sample]
    exact List.mem_cons_self
  have word := (right.words _ member).relative (by decide +kernel)
  exact absurd word (by decide +kernel)

end Gevisor.Verified.ElfRelocation
