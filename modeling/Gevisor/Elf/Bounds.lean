import Gevisor.Elf.Accesses

/-! # What loading a file touches

The sections, the initialisation as a whole, and the copying of the segments.
-/

namespace Gevisor.Elf

open Lib

variable {memory : Bytes} {b : Binary} {ef : File} {s : Loader} {file size exec execSize : Word}

/-! ## Sections -/

variable {verdict : Prop} {f : Field}

theorem fetch_one_eq (a : Word) (c : Byte) : fetch memory a 1 = c.setWidth 64 ↔ memory a = c := by
  rw [fetch_one]
  constructor
  · intro same
    have hn := congrArg BitVec.toNat same
    have := (memory a).isLt
    have := c.isLt
    rw [BitVec.toNat_setWidth, BitVec.toNat_setWidth, Nat.mod_eq_of_lt (by omega), Nat.mod_eq_of_lt (by omega)] at hn
    exact BitVec.eq_of_toNat_eq hn
  · intro same
    rw [same]

theorem fetch_one_eq_zero (a : Word) : fetch memory a 1 = 0 ↔ memory a = 0 := fetch_one_eq a 0

theorem privateStrcmp_stays (hh : s.Holds memory b ef) (s1 : Word) (s2 : List Byte) :
    Stays file size exec execSize (privateStrcmp s1 s2) s (∀ a ∈ compared memory s1 s2, Fits (a - file) 1 size)
      fun same t => same = sameString memory s1 s2 ∧ t.Holds memory b ef := by
  induction s2 generalizing s s1 with
  | nil =>
    rw [privateStrcmp, compared, List.forall_mem_singleton]
    refine Touches.congr (Touches.bind (load_stays hh s1 1) ?_) (iff_of_eq (and_true _))
    rintro _ t ⟨rfl, hh⟩
    refine Touches.pure ⟨?_, hh⟩
    rw [sameString, decide_eq_decide]
    exact fetch_one_eq_zero s1
  | cons c s2 ih =>
    rw [privateStrcmp, compared, List.forall_mem_cons, sameString]
    refine Touches.bind (load_stays hh s1 1) ?_
    rintro _ t ⟨rfl, hh⟩
    have hg : (fetch memory s1 1 ≠ 0 ∧ fetch memory s1 1 = c.setWidth 64) ↔ memory s1 ≠ 0 ∧ memory s1 = c := by
      rw [ne_eq, fetch_one_eq_zero, fetch_one_eq]
    by_cases more : memory s1 ≠ 0 ∧ memory s1 = c
    · rw [if_pos (hg.mpr more), if_pos more, if_pos more]
      exact ih hh (s1 + 1)
    · rw [if_neg fun h => more (hg.mp h), if_neg more, if_neg more]
      refine Touches.congr (Touches.pure ⟨?_, hh⟩) (by simp)
      rw [decide_eq_decide]
      exact fetch_one_eq s1 c

theorem findSection_stays {P : File → Prop} (hh : s.Holds memory b ef) (post : P ef) (shdr name : Word)
    (wanted : List (List Byte × (Word → Word → File → File)))
    (hkp : ∀ w ∈ wanted, ∀ addr size ef, P ef → P (w.2 addr size ef)) :
    Stays file size exec execSize (findSection shdr name wanted) s
      ((∀ a ∈ comparedAll memory name (wanted.map Prod.fst), Fits (a - file) 1 size) ∧
        ((∃ s2 ∈ wanted.map Prod.fst, sameString memory name s2) →
          FieldWithin file size shdr shAddr ∧ FieldWithin file size shdr shSize))
      fun _ t => ∃ ef', t.Holds memory b ef' ∧ P ef' := by
  induction wanted generalizing s with
  | nil => exact Touches.congr (Touches.pure ⟨ef, hh, post⟩) (by simp [comparedAll])
  | cons w rest ih =>
    obtain ⟨s2, store⟩ := w
    rw [findSection, List.map_cons, comparedAll, List.forall_mem_append, and_assoc]
    refine Touches.bind (privateStrcmp_stays hh name s2) ?_
    rintro _ t ⟨rfl, hh⟩
    by_cases same : sameString memory name s2
    · have hf : ∃ s2' ∈ s2 :: rest.map Prod.fst, sameString memory name s2' := ⟨s2, List.mem_cons_self, same⟩
      rw [if_pos same, if_pos same]
      have hfi : (∀ f ∈ [shAddr, shSize], FieldWithin file size shdr f) ↔
          (∀ a ∈ ([] : List Word), Fits (a - file) 1 size) ∧ ((∃ s2' ∈ s2 :: rest.map Prod.fst, sameString memory name s2') →
            FieldWithin file size shdr shAddr ∧ FieldWithin file size shdr shSize) := by
        rw [List.forall_mem_cons, List.forall_mem_singleton]
        exact ⟨fun hw => ⟨by simp, fun _ => hw⟩, fun hw => hw.2 hf⟩
      exact Touches.congr (readTwo_stays hh shdr shAddr shSize store (hkp _ List.mem_cons_self _ _ _ post)) hfi
    · have hla : (∃ s2' ∈ s2 :: rest.map Prod.fst, sameString memory name s2') ↔
          ∃ s2' ∈ rest.map Prod.fst, sameString memory name s2' := by
        simp [same]
      rw [if_neg same, if_neg same, hla]
      exact ih hh fun w mem => hkp w (List.mem_cons_of_mem _ mem)

/-- What is looked at of section `i`. -/
def SectionWithin (memory : Bytes) (file size : Word) (i : Nat) : Prop :=
  FieldWithin file size (shdr memory file i) shName ∧
    (∀ a ∈ comparedAll memory (sectionName memory file i) (namedSections.map Prod.fst), Fits (a - file) 1 size) ∧
      ((∃ s2 ∈ namedSections.map Prod.fst, sameString memory (sectionName memory file i) s2) →
        FieldWithin file size (shdr memory file i) shAddr ∧ FieldWithin file size (shdr memory file i) shSize)

/-- What is known of a file when its sections are looked at. -/
structure Named (memory : Bytes) (file : Word) (ef : File) : Prop where
  ready : Ready memory file ef
  names : ef.shstrtab = file + field memory (namesHeader memory file) shOffset

theorem Named.store {w : List Byte × (Word → Word → File → File)} (mem : w ∈ namedSections) (addr size' : Word)
    {ef : File} (hna : Named memory file ef) : Named memory file (w.2 addr size' ef) := by
  simp only [namedSections, List.mem_cons, List.not_mem_nil, or_false] at mem
  obtain ⟨⟨base, hs, ht, hl⟩, hn⟩ := hna
  obtain rfl | rfl | rfl := mem
  · exact ⟨⟨base, hs, ht, hl⟩, hn⟩
  · exact ⟨⟨base, hs, ht, hl⟩, hn⟩
  · exact ⟨⟨base, hs, ht, hl⟩, hn⟩

variable {i : Nat} {t : Loader}

theorem processSection_stays (hh : s.Holds memory b ef) (hna : Named memory file ef) :
    Stays file size exec execSize (processSection i) s (SectionWithin memory file size i)
      fun _ t => ∃ ef', t.Holds memory b ef' ∧ Named memory file ef' := by
  rw [processSection]
  refine Touches.andThen (getEf_stays hh) ?_
  rintro _ t ⟨rfl, hh⟩
  dsimp only
  rw [hna.ready.shdrtab, hna.names, ← shdr]
  refine Touches.bind (readField_stays hh _ shName) ?_
  rintro _ t ⟨rfl, hh⟩
  rw [← sectionName]
  exact findSection_stays hh hna _ _ namedSections fun w mem addr size' ef => Named.store mem addr size'

/-! ## The header -/

/-- The state is as before, and so is the verdict on the accesses. -/
def Unmoved (memory : Bytes) (b : Binary) (ef : File) (file size exec execSize : Word) (verdict : Prop) (t : Loader) : Prop :=
  t.Holds memory b ef ∧ (Permitted Loader.accesses (Access.Inside file size exec execSize) t ↔ verdict)

section

variable (base : ef.file = file)

include base

theorem readEhdr_reads (hl : ehdrSize ≤ size)
    (hi : f.offset.toNat + f.size ≤ 64) (t : Loader) (hu : Unmoved memory b ef file size exec execSize verdict t) :
    wp (readEhdr f) (fun v u => v = header memory file f ∧ Unmoved memory b ef file size exec execSize verdict u)
      (fun _ _ => False) t := by
  obtain ⟨hh, same⟩ := hu
  have hr : Stays file size exec execSize (readEhdr f) t True fun v u => v = header memory file f ∧ u.Holds memory b ef :=
    readEhdr_stays hh base hl hi
  rw [Stays, Touches] at hr
  refine wp_mono (fun v u ends => ⟨ends.1.1, ends.1.2, ?_⟩) (fun _ _ absurd => absurd) hr
  rw [ends.2, same, and_true]

theorem readEhdr_keeps (hl : ehdrSize ≤ size) (hi : f.offset.toNat + f.size ≤ 64) :
    Preserves (Unmoved memory b ef file size exec execSize verdict) (readEhdr f) := fun t hu =>
  wp_mono (fun _ _ ends => ends.2) (fun _ _ absurd => absurd.elim) (readEhdr_reads base hl hi t hu)

theorem expectField_keeps (hl : ehdrSize ≤ size) (hi : f.offset.toNat + f.size ≤ 64) (value : Word) (e : Error) :
    Preserves (Unmoved memory b ef file size exec execSize verdict) (expectField f value e) := by
  rw [expectField]
  refine Preserves.bind (readEhdr_keeps base hl hi) fun hf => ?_
  exact Preserves.ite (fun _ => Preserves.throw e) fun _ => Preserves.pure ()

theorem privateCheckSignature_keeps (hl : ehdrSize ≤ size) :
    Preserves (Unmoved memory b ef file size exec execSize verdict) privateCheckSignature := by
  have hc {f : Field} (hi : f.offset.toNat + f.size ≤ 64) (value : Word) (e : Error) :
      Preserves (Unmoved memory b ef file size exec execSize verdict) (expectField f value e) :=
    expectField_keeps base hl hi value e
  rw [privateCheckSignature]
  refine Preserves.bind (hc (by decide) _ _) fun _ => ?_
  refine Preserves.bind (hc (by decide) _ _) fun _ => ?_
  refine Preserves.bind (hc (by decide) _ _) fun _ => ?_
  exact hc (by decide) _ _

theorem privateCheckSupport_keeps (hl : ehdrSize ≤ size) :
    Preserves (Unmoved memory b ef file size exec execSize verdict) privateCheckSupport := by
  have hc {f : Field} (hi : f.offset.toNat + f.size ≤ 64) (value : Word) (e : Error) :
      Preserves (Unmoved memory b ef file size exec execSize verdict) (expectField f value e) :=
    expectField_keeps base hl hi value e
  rw [privateCheckSupport]
  refine Preserves.bind (hc (by decide) _ _) fun _ => ?_
  refine Preserves.bind (hc (by decide) _ _) fun _ => ?_
  refine Preserves.bind (hc (by decide) _ _) fun _ => ?_
  refine Preserves.bind (hc (by decide) _ _) fun _ => ?_
  refine Preserves.bind (hc (by decide) _ _) fun _ => ?_
  refine Preserves.bind (readEhdr_keeps base hl (by decide)) fun type => ?_
  have rest : Preserves (Unmoved memory b ef file size exec execSize verdict) (do
      expectField eMachine 62 (.unsupportedFile "file must be compiled for x86_64")
      expectField eVersion 1 (.unsupportedFile "unsupported version")
      expectField eFlags 0 (.unsupportedFile "unsupported flags")) := by
    refine Preserves.bind (hc (by decide) _ _) fun _ => ?_
    refine Preserves.bind (hc (by decide) _ _) fun _ => ?_
    exact hc (by decide) _ _
  dsimp only
  exact Preserves.ite (fun _ => Preserves.bind (Preserves.throw _) fun _ => rest) fun _ => rest

end

theorem checkFile_spec (exec execSize : Word) (hh : s.Holds memory b {}) :
    wp (checkFile file size) (fun _ t => ehdrSize ≤ size ∧ file ≠ 0 ∧ ∃ ef, Scanned memory file 0 ef ∧
      Unmoved memory b ef file size exec execSize
        (Permitted Loader.accesses (Access.Inside file size exec execSize) s) t) (fun _ _ => True) s := by
  rw [checkFile]
  by_cases null : file = 0
  · rw [if_pos null]
    trivial
  · rw [if_neg null]
    by_cases hsm : size < ehdrSize
    · rw [if_pos hsm]
      trivial
    · have hl : ehdrSize ≤ size := BitVec.not_lt.mp hsm
      have hs : Unmoved memory b { file := file, filesz := size } file size exec execSize
          (Permitted Loader.accesses (Access.Inside file size exec execSize) s)
          { s with binary := { s.binary with ef := { s.binary.ef with file := file, filesz := size } } } :=
        ⟨⟨hh.memory, by simp only [hh.binary]⟩, Iff.rfl⟩
      rw [if_neg hsm, wp_bind, modifyEf, wp_modify, wp_bind]
      refine wp_mono ?_ (fun _ _ _ => trivial) (readEhdr_reads rfl hl (by decide) _ hs)
      intro _ t ⟨hp, hs⟩
      rw [hp, wp_bind]
      refine wp_mono ?_ (fun _ _ _ => trivial) (readEhdr_reads rfl hl (by decide) _ hs)
      intro _ t ⟨hsh, hs⟩
      rw [hsh, wp_bind, modifyEf, wp_modify, wp_bind]
      have hh : Loader.Holds { t with binary := { t.binary with ef := { t.binary.ef with
          phdrtab := file + header memory file ePhoff
          shdrtab := file + header memory file eShoff } } } memory b {
            file := file
            filesz := size
            phdrtab := file + header memory file ePhoff
            shdrtab := file + header memory file eShoff } :=
        ⟨hs.1.memory, by simp only [hs.1.binary]⟩
      refine wp_mono ?_ (fun _ _ _ => trivial) (privateCheckSignature_keeps rfl hl _ ⟨hh, hs.2⟩)
      intro _ t ho
      refine wp_mono ?_ (fun _ _ _ => trivial) (privateCheckSupport_keeps rfl hl _ ho)
      intro _ t ho
      exact ⟨hl, null, _, ⟨rfl, rfl, rfl, rfl, rfl, rfl, rfl, rfl, rfl, rfl⟩, ho⟩

/-! ## The initialisation -/

theorem contained_iff : (SegmentsWithin memory file size ∧
      (∀ i < dynamicCount memory file, (∀ j < i, dynamicTag memory file j ≠ dtNull) → EntryWithin memory file size i) ∧
        FieldWithin file size (namesHeader memory file) shOffset ∧
          ∀ i < (header memory file eShnum).toNat, SectionWithin memory file size i) ↔
      Contained memory file size := by
  constructor
  · intro ⟨⟨hse, hl⟩, hd, hn, hs⟩
    exact ⟨hse, hl, hd, hn, hs⟩
  · intro ⟨hse, hl, hd, hn, hs⟩
    exact ⟨⟨hse, hl⟩, hd, hn, hs⟩

theorem processFile_stays (exec execSize : Word) (hh : s.Holds memory b ef) (hsc : Scanned memory file 0 ef)
    (hl : ehdrSize ≤ size) :
    Stays file size exec execSize (processFile file) s (Contained memory file size)
      fun _ t => ∃ ef', t.Holds memory b ef' ∧ Ready memory file ef' := by
  rw [processFile]
  refine Touches.congr ?_ contained_iff
  refine Touches.bind (privateProcessSegments_stays hh hsc hl) ?_
  rintro _ t ⟨ef', hh, hpa⟩
  refine Touches.bind (privateProcessDynamicSection_stays hh hpa) ?_
  rintro _ t ⟨ef', hh, hrd⟩
  refine Touches.andThen (readEhdr_stays hh hrd.base hl (by decide)) ?_
  rintro _ t ⟨rfl, hh⟩
  refine Touches.andThen (readEhdr_stays hh hrd.base hl (by decide)) ?_
  rintro _ t ⟨rfl, hh⟩
  refine Touches.andThen (getEf_stays hh) ?_
  rintro _ t ⟨rfl, hh⟩
  rw [hrd.shdrtab, ← namesHeader]
  refine Touches.bind (readField_stays hh _ shOffset) ?_
  rintro _ t ⟨rfl, hh⟩
  refine Touches.andThen (modifyEf_stays hh _) ?_
  intro _ t hh
  refine Touches.andThen (readEhdr_stays hh hrd.base hl (by decide)) ?_
  rintro _ t ⟨rfl, hh⟩
  refine Touches.congr (Touches.bind (Touches.loop_zero
    (fun _ (t : Loader) => ∃ ef', t.Holds memory b ef' ∧ Named memory file ef')
      ⟨_, hh, ⟨hrd.base, hrd.shdrtab, hrd.totalMemsz, hrd.loadInstr⟩, rfl⟩
      fun i t _ ⟨ef', hh, hna⟩ => processSection_stays hh hna) ?_) (iff_of_eq (and_true _))
  rintro _ t ⟨ef', hh, hna⟩
  obtain ⟨base, hs, ht, hlo⟩ := hna.ready
  exact (modifyEf_stays hh _).mono fun _ _ hh => ⟨_, hh, base, hs, ht, hlo⟩

/-! ## Copying -/

theorem copySegment_stays {instr : LoadInstr} (hb : s.binary = b) (here : b.ef.loadInstr[i]? = some instr)
    (base : b.file = file) (hi : b.exec = exec) :
    Stays file size exec execSize (copySegment i) s
      (Fits instr.fileOffset instr.filesz.toNat size ∧ Fits instr.memOffset instr.filesz.toNat execSize)
      fun _ t => t.binary = b := by
  have hc : copySegment i s = memcpy (exec + instr.memOffset) (file + instr.fileOffset) instr.filesz s := by
    rw [copySegment, get_bind, hb, here, base, hi]
  have ho (a o : Word) : a + o - a = o := by rw [BitVec.add_comm, BitVec.add_sub_cancel]
  have ht : Stays file size exec execSize (copySegment i) s
      (∀ x ∈ [Access.write (exec + instr.memOffset) instr.filesz.toNat, .read (file + instr.fileOffset) instr.filesz.toNat],
        x.Inside file size exec execSize) fun _ t => t.binary = b := Touches.of_ok hc rfl hb
  refine ht.congr ?_
  rw [List.forall_mem_cons, List.forall_mem_singleton, And.comm, Access.Inside, Access.Inside, ho, ho,
    fits_iff, fits_iff]

/-- The second half of `private_load_binary`, for a file that is initialised. -/
theorem copy_stays (size exec execSize : Word) (hrd : Ready memory file b.ef) (hbi : s.binary = b)
    (base : b.file = file) (hi : b.exec = exec) (hl : execSize = imageSize memory file) :
    Stays file size exec execSize (do
        memset exec b.ef.totalMemsz
        forFrom copySegment 0 b.ef.loadInstr.length) s (SegmentsFit memory file size)
      fun _ t => t.binary = b := by
  have hcr : Stays file size exec execSize (memset exec b.ef.totalMemsz) s
      (∀ x ∈ [Access.write exec b.ef.totalMemsz.toNat], x.Inside file size exec execSize) fun _ t => t.binary = b :=
    Touches.of_ok rfl rfl hbi
  have clear : (∀ x ∈ [Access.write exec b.ef.totalMemsz.toNat], x.Inside file size exec execSize) ↔ True := by
    rw [List.forall_mem_singleton, Access.Inside, ← fits_iff, hrd.totalMemsz, hl, iff_true, Fits]
    simp
  have each : (∀ i < b.ef.loadInstr.length, ∀ instr, b.ef.loadInstr[i]? = some instr →
      Fits instr.fileOffset instr.filesz.toNat size ∧ Fits instr.memOffset instr.filesz.toNat execSize) ↔
        SegmentsFit memory file size := by
    have hm (P : LoadInstr → Prop) (l : List LoadInstr) :
        (∀ i < l.length, ∀ instr, l[i]? = some instr → P instr) ↔ ∀ instr ∈ l, P instr := by
      constructor
      · intro all instr mem
        obtain ⟨i, here⟩ := List.mem_iff_getElem?.mp mem
        exact all i (List.getElem?_eq_some_iff.mp here).1 instr here
      · intro all i _ instr here
        exact all instr (List.mem_iff_getElem?.mpr ⟨i, here⟩)
    rw [hm, hrd.loadInstr, List.forall_mem_map, hl]
    rfl
  refine Touches.andThen (hcr.congr clear) ?_
  intro _ t hbi
  refine Touches.congr (Touches.loop_zero (fun _ (t : Loader) => t.binary = b) hbi ?_) each
  intro i t hb hbi
  refine Touches.congr (copySegment_stays hbi (List.getElem?_eq_getElem hb) base hi) ?_
  rw [List.getElem?_eq_getElem hb]
  simp

/-! ## Accepted files -/

/-- The initialisation of an accepted file. -/
theorem fileInit_processes (exec execSize : Word) (hacc : fileInit file size (.fresh memory file size) = .ok () t) :
    (∃ ef, t.Holds memory { file := file, fileSize := size } ef ∧ Ready memory file ef) ∧ file ≠ 0 ∧
      (Permitted Loader.accesses (Access.Inside file size exec execSize) t ↔ Contained memory file size) := by
  have hs : Loader.Holds (.fresh memory file size) memory { file := file, fileSize := size } {} := ⟨rfl, rfl⟩
  have hbl : Permitted Loader.accesses (Access.Inside file size exec execSize) (.fresh memory file size) := by
    intro a mem
    cases mem
  rw [fileInit] at hacc
  cases hc : checkFile file size (.fresh memory file size) with
  | error e u =>
    rw [bind_of_error hc] at hacc
    cases hacc
  | ok _ u =>
    obtain ⟨hl, null, ef, hsc, hh, same⟩ := (wp_of_ok hc).mp (checkFile_spec exec execSize hs)
    have hp := processFile_stays exec execSize hh hsc hl
    rw [bind_of_ok hc] at hacc
    rw [Stays, Touches, wp_of_ok hacc, same] at hp
    exact ⟨hp.1, null, hp.2.trans ⟨fun both => both.2, fun hco => ⟨hbl, hco⟩⟩⟩

/-- A file that is initialised already is loaded in the same way. -/
theorem privateLoadBinary_initialised (alloc : Word → Word)
    (hacc : fileInit file size (.fresh memory file size) = .ok () t) :
    privateLoadBinary alloc t = privateLoadBinary alloc (.fresh memory file size) := by
  obtain ⟨⟨ef, hh, hrd⟩, null, -⟩ := fileInit_processes 0 0 hacc
  have hi : t.binary.ef.file ≠ 0 := by
    rw [hh.binary, hrd.base]
    exact null
  have hs : initBinary t = .ok () t := by
    rw [initBinary, get_bind, if_neg hi]
    rfl
  have init : initBinary (.fresh memory file size) = .ok () t := hacc
  rw [privateLoadBinary, bind_of_ok hs, bind_of_ok init]

end Gevisor.Elf
