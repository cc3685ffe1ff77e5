import Gevisor.Elf.Bounds

/-! # Files without a hash table

What parsing leaves in `hash` when the dynamic section has no entry for it.
-/

namespace Gevisor.Elf

open Lib

/-- `bfdt_hash`. -/
def dtHash : Word := 4

/-- No entry up to the end of the dynamic section is a `DT_HASH`. -/
def NoHash (memory : Bytes) (file : Word) : Prop :=
  ∀ i < dynamicCount memory file, (∀ j < i, dynamicTag memory file j ≠ dtNull) → dynamicTag memory file i ≠ dtHash

/-- Nothing is stored in `hash`, and the memory is what it was. -/
def Unhashed (memory : Bytes) (s : Loader) : Prop := s.memory = memory ∧ s.binary.ef.hash = 0

variable {memory : Bytes} {file : Word} {s : Loader}

variable (p : Word) (f : Field)

theorem wp_readField {Q : Word → Loader → Prop} {X : Error → Loader → Prop} :
    wp (readField p f) Q X s ↔
      Q (field s.memory p f) { s with accesses := .read (p + f.offset) f.size :: s.accesses } := Iff.rfl

/-! ## What leaves `hash` alone -/

theorem unhashed_readField : Preserves (Unhashed memory) (readField p f) := fun _ hu => hu

theorem unhashed_getEf : Preserves (Unhashed memory) getEf := .bind .get fun _ => .pure _

theorem unhashed_modifyEf {f : File → File} (hkp : ∀ ef, (f ef).hash = ef.hash) :
    Preserves (Unhashed memory) (modifyEf f) :=
  .modify fun s hu => ⟨hu.1, (hkp s.binary.ef).trans hu.2⟩

theorem unhashed_readEhdr : Preserves (Unhashed memory) (readEhdr f) :=
  .bind unhashed_getEf fun _ => unhashed_readField _ f

theorem unhashed_expectField (value : Word) (e : Error) : Preserves (Unhashed memory) (expectField f value e) :=
  .bind (unhashed_readEhdr f) fun _ => .ite (fun _ => .throw _) fun _ => .pure _

theorem unhashed_privateCheckSignature : Preserves (Unhashed memory) privateCheckSignature :=
  .bind (unhashed_expectField _ _ _) fun _ => .bind (unhashed_expectField _ _ _) fun _ =>
    .bind (unhashed_expectField _ _ _) fun _ => unhashed_expectField _ _ _

theorem unhashed_privateCheckSupport : Preserves (Unhashed memory) privateCheckSupport := by
  refine .bind (unhashed_expectField _ _ _) fun _ => .bind (unhashed_expectField _ _ _) fun _ =>
    .bind (unhashed_expectField _ _ _) fun _ => .bind (unhashed_expectField _ _ _) fun _ =>
    .bind (unhashed_expectField _ _ _) fun _ => .bind (unhashed_readEhdr _) fun type => ?_
  have rest : Preserves (Unhashed memory) (do
      expectField eMachine 62 (.unsupportedFile "file must be compiled for x86_64")
      expectField eVersion 1 (.unsupportedFile "unsupported version")
      expectField eFlags 0 (.unsupportedFile "unsupported flags")) :=
    .bind (unhashed_expectField _ _ _) fun _ => .bind (unhashed_expectField _ _ _) fun _ => unhashed_expectField _ _ _
  exact .ite (fun _ => .bind (.throw _) fun _ => rest) fun _ => rest

theorem unhashed_checkFile (file size : Word) : Preserves (Unhashed memory) (checkFile file size) := by
  have rest : Preserves (Unhashed memory) (do
      modifyEf fun ef => { ef with file := file, filesz := size }
      let phoff ← readEhdr ePhoff
      let shoff ← readEhdr eShoff
      modifyEf fun ef => { ef with phdrtab := file + phoff, shdrtab := file + shoff }
      privateCheckSignature
      privateCheckSupport) :=
    .bind (unhashed_modifyEf fun _ => rfl) fun _ => .bind (unhashed_readEhdr _) fun _ =>
      .bind (unhashed_readEhdr _) fun _ => .bind (unhashed_modifyEf fun _ => rfl) fun _ =>
      .bind unhashed_privateCheckSignature fun _ => unhashed_privateCheckSupport
  have hl := Preserves.ite (p := size < ehdrSize)
    (fun _ => .bind (.throw (Error.invalidArgument "filesz invalid")) fun _ : PUnit => rest) fun _ => rest
  exact .ite (fun _ => .bind (.throw _) fun _ => hl) fun _ => hl

theorem unhashed_processSegment (i : Nat) : Preserves (Unhashed memory) (processSegment i) := by
  refine .bind unhashed_getEf fun ef => .bind (unhashed_readField _ _) fun type => .ite (fun _ => ?_) fun _ =>
    .ite (fun _ => ?_) fun _ => .ite (fun _ => ?_) fun _ => .ite (fun _ => ?_) fun _ => .pure _
  · exact .ite (fun _ => .bind (unhashed_readField _ _) fun _ => .bind (unhashed_readField _ _) fun _ =>
      unhashed_modifyEf fun _ => rfl) fun _ => .pure _
  · exact .bind (unhashed_readField _ _) fun _ => .bind (unhashed_readField _ _) fun _ => unhashed_modifyEf fun _ => rfl
  · exact .bind (unhashed_readField _ _) fun _ => unhashed_modifyEf fun _ => rfl
  · exact .bind (unhashed_readField _ _) fun _ => .bind (unhashed_readField _ _) fun _ => unhashed_modifyEf fun _ => rfl

theorem unhashed_addLoadInstr (i : Nat) : Preserves (Unhashed memory) (addLoadInstr i) :=
  .bind unhashed_getEf fun _ => .bind (unhashed_readField _ _) fun _ => .bind (unhashed_readField _ _) fun _ =>
    .bind (unhashed_readField _ _) fun _ => .bind (unhashed_readField _ _) fun _ => .bind (unhashed_readField _ _) fun _ =>
    unhashed_modifyEf fun _ => rfl

theorem unhashed_privateProcessSegments : Preserves (Unhashed memory) privateProcessSegments := by
  refine .bind (unhashed_readEhdr _) fun phnum => .bind (.forFrom unhashed_processSegment _ _) fun _ =>
    .bind unhashed_getEf fun ef => ?_
  exact .ite (fun _ => .bind (unhashed_readField _ _) fun _ => .bind (unhashed_modifyEf fun _ => rfl) fun _ =>
    .forFrom unhashed_addLoadInstr _ _) fun _ => .forFrom unhashed_addLoadInstr _ _

theorem unhashed_privateStrcmp (s1 : Word) (s2 : List Byte) :
    Preserves (Unhashed memory) (privateStrcmp s1 s2) := by
  induction s2 generalizing s1 with
  | nil => exact .bind (fun _ hu => hu) fun _ => .pure _
  | cons c s2 ih => exact .bind (fun _ hu => hu) fun _ => .ite (fun _ => ih _) fun _ => .pure _

theorem unhashed_findSection (shdr name : Word) {sections : List (List Byte × (Word → Word → File → File))}
    (hkp : ∀ x ∈ sections, ∀ addr size ef, (x.2 addr size ef).hash = ef.hash) :
    Preserves (Unhashed memory) (findSection shdr name sections) := by
  induction sections with
  | nil => exact .pure _
  | cons x rest ih =>
    obtain ⟨here, hla⟩ := List.forall_mem_cons.mp hkp
    exact .bind (unhashed_privateStrcmp _ _) fun _ => .ite (fun _ => .bind (unhashed_readField _ _) fun _ =>
      .bind (unhashed_readField _ _) fun _ => unhashed_modifyEf (here _ _)) fun _ => ih hla

theorem unhashed_processSection (i : Nat) : Preserves (Unhashed memory) (processSection i) := by
  refine .bind unhashed_getEf fun _ => .bind (unhashed_readField _ _) fun _ => unhashed_findSection _ _ ?_
  simp [namedSections]

/-! ## The dynamic section -/

theorem dynamicEntry_hash {tag : Word} {store : Word → File → File} (hk : dynamicEntry tag = some store)
    (ho : tag ≠ dtHash) (val : Word) (ef : File) : (store val ef).hash = ef.hash := by
  have hn : tag.toNat ≠ 4 := fun four => ho (BitVec.eq_of_toNat_eq four)
  simp only [dynamicEntry] at hk
  split at hk <;> simp only [Option.some.injEq, reduceCtorEq] at hk <;>
    first | (subst hk; rfl) | (exact absurd ‹tag.toNat = 4› hn)

theorem processDynamicEntry_unhashed (hu : Unhashed memory s) {i : Nat} (ho : dynamicTag memory file i ≠ dtHash) :
    wp (processDynamicEntry (dyn memory file i))
      (fun done t => done = decide (dynamicTag memory file i = dtNull) ∧ Unhashed memory t)
      (fun _ t => Unhashed memory t) s := by
  obtain ⟨rfl, zero⟩ := hu
  have next : Unhashed s.memory { s with accesses := .read (dyn s.memory file i + dTag.offset) dTag.size :: s.accesses } :=
    ⟨rfl, zero⟩
  rw [processDynamicEntry, wp_bind, wp_readField, ← dynamicTag]
  by_cases hi : dynamicTag s.memory file i = dtNull
  · rw [if_pos hi, wp_pure]
    exact ⟨(decide_eq_true hi).symm, next⟩
  · rw [if_neg hi, decide_eq_false hi]
    by_cases his : dynamicTag s.memory file i = dtNeeded
    · rw [if_pos his, wp_bind]
      refine wp_mono ?_ (fun _ _ kept => kept) (unhashed_getEf _ next)
      intro ef t kept
      rw [wp_ite]
      split
      · exact ⟨rfl, kept⟩
      · exact ⟨rfl, kept⟩
    · rw [if_neg his]
      cases hk : dynamicEntry (dynamicTag s.memory file i) with
      | none => exact ⟨rfl, next⟩
      | some store => exact ⟨rfl, rfl, (dynamicEntry_hash hk ho _ _).trans zero⟩

theorem processDynamicEntries_unhashed {n i : Nat} (hu : Unhashed memory s)
    (none : ∀ m < n, (∀ j < m, dynamicTag memory file (i + j) ≠ dtNull) → dynamicTag memory file (i + m) ≠ dtHash) :
    wp (processDynamicEntries n (dyn memory file i)) (fun _ t => Unhashed memory t) (fun _ t => Unhashed memory t) s := by
  induction n generalizing i s with
  | zero => exact hu
  | succ n ih =>
    have here : dynamicTag memory file i ≠ dtHash := none 0 (Nat.succ_pos n) (by simp)
    rw [processDynamicEntries, wp_bind]
    refine wp_mono ?_ (fun _ _ kept => kept) (processDynamicEntry_unhashed hu here)
    rintro done t ⟨rfl, kept⟩
    rw [wp_ite]
    split
    · exact kept
    · next hg =>
      rw [← dyn_succ]
      refine ih kept fun m hb hbe => ?_
      have hla := none (m + 1) (Nat.succ_lt_succ hb)
      rw [Nat.add_right_comm, Nat.add_assoc]
      refine hla fun j less => ?_
      cases j with
      | zero => simpa using hg
      | succ j =>
        have hea := hbe j (Nat.lt_of_succ_lt_succ less)
        rwa [Nat.add_right_comm, Nat.add_assoc] at hea

theorem privateProcessDynamicSection_unhashed {b : Binary} {ef : File} (hu : Unhashed memory s)
    (hh : s.Holds memory b ef) (hpa : Parsed memory file (loadSegments memory file).length ef)
    (none : NoHash memory file) :
    wp privateProcessDynamicSection (fun _ t => Unhashed memory t) (fun _ t => Unhashed memory t) s := by
  have first : file + dynamicOffset memory file = dyn memory file 0 := by
    rw [dyn]
    simp
  have same : s.binary.ef = ef := by rw [hh.binary]
  rw [privateProcessDynamicSection, wp_bind, getEf, wp_bind, wp_get, wp_pure, same, hpa.count, hpa.offset,
    hpa.base, wp_ite]
  split
  · exact hu
  · next hp =>
    rw [not_or] at hp
    rw [wp_bind, modifyEf, wp_modify, first]
    refine processDynamicEntries_unhashed ⟨hu.1, hu.2⟩ fun m hb hbe => ?_
    rw [Nat.zero_add]
    refine none m ?_ fun j less => ?_
    · rw [dynamicCount, if_neg hp.2]
      exact hb
    · have hea := hbe j less
      rwa [Nat.zero_add] at hea

/-! ## The whole of the initialisation -/

theorem fileInit_unhashed {size : Word} {t : Loader} (none : NoHash memory file)
    (hacc : fileInit file size (.fresh memory file size) = .ok () t) : t.binary.ef.hash = 0 := by
  have hst : Loader.Holds (.fresh memory file size) memory { file := file, fileSize := size } {} := ⟨rfl, rfl⟩
  have hbl : Unhashed memory (.fresh memory file size) := ⟨rfl, rfl⟩
  rw [fileInit] at hacc
  obtain ⟨⟨⟩, u, hc, hacc⟩ := ok_of_bind hacc
  obtain ⟨hl, -, ef, hsc, hh, -⟩ := (wp_of_ok hc).mp (checkFile_spec 0 0 hst)
  have hu := (wp_of_ok hc).mp (unhashed_checkFile file size _ hbl)
  rw [processFile] at hacc
  obtain ⟨⟨⟩, v, hs, hacc⟩ := ok_of_bind hacc
  have hse : Stays file size 0 0 privateProcessSegments u (SegmentsWithin memory file size) _ :=
    privateProcessSegments_stays hh hsc hl
  rw [Stays, Touches, wp_of_ok hs] at hse
  obtain ⟨⟨ef', hh, hpa⟩, -⟩ := hse
  have hu := (wp_of_ok hs).mp (unhashed_privateProcessSegments _ hu)
  obtain ⟨⟨⟩, w, done, hacc⟩ := ok_of_bind hacc
  have hu := (wp_of_ok done).mp (privateProcessDynamicSection_unhashed hu hh hpa none)
  have rest : Preserves (Unhashed memory) (do
      let entry ← readEhdr eEntry
      let shstrndx ← readEhdr eShstrndx
      let ef ← getEf
      let names ← readField (ef.shdrtab + shdrSize * shstrndx) shOffset
      modifyEf fun ef => { ef with entry := entry, shstrtab := file + names }
      let shnum ← readEhdr eShnum
      forFrom processSection 0 shnum.toNat
      modifyEf fun ef => { ef with strtab := ef.strtabOffset + file }) :=
    .bind (unhashed_readEhdr _) fun _ => .bind (unhashed_readEhdr _) fun _ => .bind unhashed_getEf fun _ =>
      .bind (unhashed_readField _ _) fun _ => .bind (unhashed_modifyEf fun _ => rfl) fun _ =>
      .bind (unhashed_readEhdr _) fun _ => .bind (.forFrom unhashed_processSection _ _) fun _ =>
      unhashed_modifyEf fun _ => rfl
  exact ((wp_of_ok hacc).mp (rest _ hu)).2

end Gevisor.Elf
