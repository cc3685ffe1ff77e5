import Gevisor.Elf.Layout
import Gevisor.Lib.Footprint

/-! # What the loader touches

For every function of the loader the exact condition under which its accesses lie in the file and in the
image, next to what it finds out about the file.
-/

namespace Gevisor.Elf

open Lib

variable {n i : Nat}

/-- Reads are in the file, writes in the image. -/
def Access.Inside (file size exec execSize : Word) : Access → Prop
  | .read a n => ∀ j < n, (a - file + BitVec.ofNat 64 j).toNat < size.toNat
  | .write a n => ∀ j < n, (a - exec + BitVec.ofNat 64 j).toNat < execSize.toNat

instance decidableInside (file size exec execSize : Word) (a : Access) : Decidable (a.Inside file size exec execSize) :=
  match a with
  | .read _ _ => inferInstanceAs (Decidable (∀ _ < _, _))
  | .write _ _ => inferInstanceAs (Decidable (∀ _ < _, _))

def Loader.InBounds (s : Loader) : Prop :=
  ∀ a ∈ s.accesses, a.Inside s.binary.file s.binary.fileSize s.binary.exec s.binary.execSize

instance decidableInBounds (s : Loader) : Decidable s.InBounds :=
  inferInstanceAs (Decidable (∀ _ ∈ _, _))

/-- The memory is `memory`, and the binary is `b` apart from its file structure, which is `ef`. -/
structure Loader.Holds (s : Loader) (memory : Bytes) (b : Binary) (ef : File) : Prop where
  memory : s.memory = memory
  binary : s.binary = { b with ef := ef }

variable {memory : Bytes} {b : Binary} {ef : File} {s : Loader} {file size exec execSize : Word}

/-- `Touches` for the loader: `c` stays within bounds exactly if `C`. -/
abbrev Stays {α : Type} (file size exec execSize : Word) (c : LoaderM α) (s : Loader) (C : Prop)
    (Q : α → Loader → Prop) : Prop :=
  Touches Loader.accesses (Access.Inside file size exec execSize) c s C Q

section

variable (hh : s.Holds memory b ef)

include hh

theorem load_stays (a : Word) (n : Nat) : Stays file size exec execSize (load a n) s (Fits (a - file) n size)
      fun v t => v = fetch memory a n ∧ t.Holds memory b ef := by
  have ht : Stays file size exec execSize (load a n) s (∀ x ∈ [Access.read a n], x.Inside file size exec execSize)
      fun v t => v = fetch memory a n ∧ t.Holds memory b ef :=
    .of_ok rfl rfl ⟨by rw [hh.memory], hh.memory, hh.binary⟩
  refine ht.congr ?_
  rw [List.forall_mem_singleton, fits_iff]
  rfl

theorem readField_stays (p : Word) (f : Field) :
    Stays file size exec execSize (readField p f) s (FieldWithin file size p f)
      fun v t => v = field memory p f ∧ t.Holds memory b ef := load_stays hh _ _

theorem getEf_stays : Stays file size exec execSize getEf s True fun v t => v = ef ∧ t.Holds memory b ef :=
  .silent rfl rfl ⟨by rw [hh.binary], hh⟩

theorem modifyEf_stays (f : File → File) :
    Stays file size exec execSize (modifyEf f) s True fun _ t => t.Holds memory b (f ef) :=
  .silent rfl rfl ⟨hh.memory, by simp only [hh.binary]⟩

end

/-! ## The header -/

variable {f : Field}

/-- The fields of the header are in a file of at least its size. -/
theorem header_within (hl : ehdrSize ≤ size) (hi : f.offset.toNat + f.size ≤ 64) :
    FieldWithin file size file f := by
  have : 64 ≤ size.toNat := hl
  rw [FieldWithin, BitVec.add_comm, BitVec.add_sub_cancel]
  exact .inr (by omega)

theorem readEhdr_stays (hh : s.Holds memory b ef) (base : ef.file = file) (hl : ehdrSize ≤ size)
    (hi : f.offset.toNat + f.size ≤ 64) :
    Stays file size exec execSize (readEhdr f) s True fun v t => v = header memory file f ∧ t.Holds memory b ef := by
  refine Touches.andThen (getEf_stays hh) ?_
  intro ef' t ⟨same, hh⟩
  subst same
  rw [base]
  exact (readField_stays hh file f).congr ⟨fun _ => trivial, fun _ => header_within hl hi⟩

/-! ## Segments -/

theorem headersOf_succ (type : Word) (n : Nat) : headersOf memory file type (n + 1) =
      headersOf memory file type n ++ if segmentType memory file n = type then [phdr memory file n] else [] := by
  by_cases here : segmentType memory file n = type
  · simp [headersOf, List.range_succ, here]
  · simp [headersOf, List.range_succ, here]

theorem headersOf_other {type : Word} (ho : segmentType memory file n ≠ type) :
    headersOf memory file type (n + 1) = headersOf memory file type n := by
  rw [headersOf_succ, if_neg ho, List.append_nil]

theorem loadable_room (hi : segmentType memory file n = ptLoad)
    (room : (loadable memory file n).length < maxSegments) :
    loadable memory file (n + 1) = loadable memory file n ++ [phdr memory file n] := by
  have few : (headersOf memory file ptLoad n).length < maxSegments := by
    rw [loadable, List.length_take] at room
    omega
  rw [loadable, headersOf_succ, if_pos hi, List.take_append, loadable]
  rw [List.take_of_length_le (l := [_])]
  rw [List.length_singleton]
  omega

theorem loadable_full (full : ¬ (loadable memory file n).length < maxSegments) :
    loadable memory file (n + 1) = loadable memory file n := by
  have many : maxSegments ≤ (headersOf memory file ptLoad n).length := by
    rw [loadable, List.length_take] at full
    omega
  rw [loadable, headersOf_succ, List.take_append_of_le_length many, loadable]

theorem loadable_other (ho : segmentType memory file n ≠ ptLoad) :
    loadable memory file (n + 1) = loadable memory file n := by
  rw [loadable, headersOf_other ho, loadable]

/-- What is known after the first `n` program headers. -/
structure Scanned (memory : Bytes) (file : Word) (n : Nat) (ef : File) : Prop where
  base : ef.file = file
  phdrtab : ef.phdrtab = file + header memory file ePhoff
  shdrtab : ef.shdrtab = file + header memory file eShoff
  segments : ef.loadableSegments = loadable memory file n
  start : ef.startAddr = 0
  totalMemsz : ef.totalMemsz = imageEnd memory file n
  offset : ef.dynoff = dynoff memory file n
  count : ef.dynnum = dynnum memory file n
  loadInstr : ef.loadInstr = []
  needed : ef.needed = []

section

variable (hsc : Scanned memory file n ef)

include hsc

/-- A header that is neither a load segment nor a dynamic section changes nothing. -/
theorem Scanned.pass (hs : loadable memory file (n + 1) = loadable memory file n)
    (ho : segmentType memory file n ≠ ptDynamic) : Scanned memory file (n + 1) ef where
  base := hsc.base
  phdrtab := hsc.phdrtab
  shdrtab := hsc.shdrtab
  segments := by rw [hs]; exact hsc.segments
  start := hsc.start
  totalMemsz := by rw [imageEnd, hs]; exact hsc.totalMemsz
  offset := by rw [dynoff, headersOf_other ho]; exact hsc.offset
  count := by rw [dynnum, headersOf_other ho]; exact hsc.count
  loadInstr := hsc.loadInstr
  needed := hsc.needed

theorem Scanned.load (hi : segmentType memory file n = ptLoad)
    (room : (loadable memory file n).length < maxSegments) :
    Scanned memory file (n + 1) { ef with
      totalMemsz := field memory (phdr memory file n) pVaddr + field memory (phdr memory file n) pMemsz
      loadableSegments := ef.loadableSegments ++ [phdr memory file n] } where
  base := hsc.base
  phdrtab := hsc.phdrtab
  shdrtab := hsc.shdrtab
  segments := by rw [loadable_room hi room, hsc.segments]
  start := hsc.start
  totalMemsz := by rw [imageEnd, loadable_room hi room, List.getLast?_concat]; rfl
  offset := by rw [dynoff, headersOf_other (by rw [hi]; decide)]; exact hsc.offset
  count := by rw [dynnum, headersOf_other (by rw [hi]; decide)]; exact hsc.count
  loadInstr := hsc.loadInstr
  needed := hsc.needed

theorem Scanned.dynamic (hi : segmentType memory file n = ptDynamic) : Scanned memory file (n + 1) { ef with
      dynoff := field memory (phdr memory file n) pOffset
      dynnum := field memory (phdr memory file n) pFilesz / dynSize } where
  base := hsc.base
  phdrtab := hsc.phdrtab
  shdrtab := hsc.shdrtab
  segments := by rw [loadable_other (by rw [hi]; decide)]; exact hsc.segments
  start := hsc.start
  totalMemsz := by rw [imageEnd, loadable_other (by rw [hi]; decide)]; exact hsc.totalMemsz
  offset := by rw [dynoff, headersOf_succ, if_pos hi, List.getLast?_concat]; rfl
  count := by rw [dynnum, headersOf_succ, if_pos hi, List.getLast?_concat]; rfl
  loadInstr := hsc.loadInstr
  needed := hsc.needed

/-- The flags of the stack and the read-only part do not matter here. -/
theorem Scanned.congr {ef' : File}
    (same : { ef' with stackFlags := ef.stackFlags, relaroVaddr := ef.relaroVaddr, relaroMemsz := ef.relaroMemsz } = ef) :
    Scanned memory file n ef' := by
  rw [← same] at hsc
  obtain ⟨base, hp, hsh, hs, hst, ht, ho, hc, hl, hn⟩ := hsc
  exact ⟨base, hp, hsh, hs, hst, ht, ho, hc, hl, hn⟩

end

/-- What the first pass looks at in header `i`. -/
def ScanWithin (memory : Bytes) (file size : Word) (i : Nat) : Prop :=
  (∀ f ∈ pType :: segmentFields (segmentType memory file i), FieldWithin file size (phdr memory file i) f) ∧
    (segmentType memory file i = ptLoad → (loadable memory file i).length < maxSegments →
      ∀ f ∈ [pVaddr, pMemsz], FieldWithin file size (phdr memory file i) f)


/-- The two fields of a header that the first pass keeps, and what it does with them. -/
theorem readTwo_stays (hh : s.Holds memory b ef) (p : Word) (f g : Field) (store : Word → Word → File → File)
    {Q : File → Prop} (post : Q (store (field memory p f) (field memory p g) ef)) :
    Stays file size exec execSize (do
        let x ← readField p f
        let y ← readField p g
        modifyEf (store x y)) s (∀ h ∈ [f, g], FieldWithin file size p h)
      fun _ t => ∃ ef', t.Holds memory b ef' ∧ Q ef' := by
  have split : FieldWithin file size p f ∧ FieldWithin file size p g ↔ ∀ h ∈ [f, g], FieldWithin file size p h := by
    rw [List.forall_mem_cons, List.forall_mem_singleton]
  refine Touches.congr (Touches.bind (readField_stays hh p f) fun x t read => ?_) split
  obtain ⟨rfl, hh⟩ := read
  refine Touches.congr (Touches.bind (readField_stays hh p g) fun y u read => ?_) (iff_of_eq (and_true _))
  obtain ⟨rfl, hh⟩ := read
  exact (modifyEf_stays hh _).mono fun _ _ hh => ⟨_, hh, post⟩

theorem processSegment_stays (hh : s.Holds memory b ef) (hsc : Scanned memory file i ef) :
    Stays file size exec execSize (processSegment i) s (ScanWithin memory file size i)
      fun _ t => ∃ ef', t.Holds memory b ef' ∧ Scanned memory file (i + 1) ef' := by
  rw [processSegment]
  refine Touches.andThen (getEf_stays hh) ?_
  intro ef' t ⟨same, hh⟩
  subst same
  have here : ef'.phdrtab + phdrSize * BitVec.ofNat 64 i = phdr memory file i := by rw [hsc.phdrtab, phdr]
  dsimp only
  rw [here, hsc.segments]
  have split : ScanWithin memory file size i ↔ FieldWithin file size (phdr memory file i) pType ∧
      (∀ f ∈ segmentFields (segmentType memory file i), FieldWithin file size (phdr memory file i) f) ∧
        (segmentType memory file i = ptLoad → (loadable memory file i).length < maxSegments →
          ∀ f ∈ [pVaddr, pMemsz], FieldWithin file size (phdr memory file i) f) := by
    rw [ScanWithin, List.forall_mem_cons, and_assoc]
  refine Touches.congr (Touches.bind (readField_stays hh _ pType) fun type t read => ?_) split.symm
  obtain ⟨rfl, hh⟩ := read
  rw [← segmentType]
  by_cases hi : segmentType memory file i = ptLoad
  · have none : segmentFields ptLoad = [] := rfl
    rw [if_pos hi]
    by_cases room : (loadable memory file i).length < maxSegments
    · rw [if_pos room]
      refine Touches.congr (readTwo_stays hh _ pVaddr pMemsz _ (hsc.load hi room)) ?_
      rw [hi, none]
      exact ⟨fun hw => ⟨by simp, fun _ _ => hw⟩, fun hw => hw.2 rfl room⟩
    · rw [if_neg room]
      refine Touches.congr (Touches.pure ⟨ef', hh, hsc.pass (loadable_full room) (by rw [hi]; decide)⟩) ?_
      rw [hi, none]
      exact ⟨fun _ => ⟨by simp, fun _ fits => absurd fits room⟩, fun _ => trivial⟩
  · have hs := loadable_other hi
    have ho : (∀ f ∈ segmentFields (segmentType memory file i), FieldWithin file size (phdr memory file i) f) ↔
        (∀ f ∈ segmentFields (segmentType memory file i), FieldWithin file size (phdr memory file i) f) ∧
          (segmentType memory file i = ptLoad → (loadable memory file i).length < maxSegments →
            ∀ f ∈ [pVaddr, pMemsz], FieldWithin file size (phdr memory file i) f) :=
      ⟨fun hw => ⟨hw, fun load => absurd load hi⟩, fun hw => hw.1⟩
    rw [if_neg hi]
    refine Touches.congr ?_ ho
    rw [segmentFields]
    by_cases his : segmentType memory file i = ptDynamic
    · rw [if_pos his, if_pos his]
      exact readTwo_stays hh _ pOffset pFilesz
        (fun offset filesz ef => { ef with dynoff := offset, dynnum := filesz / dynSize }) (hsc.dynamic his)
    · have pass := hsc.pass hs his
      rw [if_neg his, if_neg his]
      by_cases hiss : segmentType memory file i = ptGnuStack
      · rw [if_pos hiss, if_pos hiss, List.forall_mem_singleton]
        refine Touches.congr (Touches.bind (readField_stays hh _ pFlags) fun flags u read => ?_) (iff_of_eq (and_true _))
        obtain ⟨rfl, hh⟩ := read
        exact (modifyEf_stays hh _).mono fun _ _ hh => ⟨_, hh, pass.congr rfl⟩
      · rw [if_neg hiss, if_neg hiss]
        by_cases hir : segmentType memory file i = ptGnuRelro
        · rw [if_pos hir, if_pos hir]
          exact readTwo_stays hh _ pVaddr pMemsz
            (fun vaddr memsz ef => { ef with relaroVaddr := vaddr, relaroMemsz := memsz }) (pass.congr rfl)
        · rw [if_neg hir, if_neg hir]
          exact Touches.congr (Touches.pure ⟨ef', hh, pass⟩) (by simp)

/-- What is known when the first `n` load instructions are made. -/
structure Parsed (memory : Bytes) (file : Word) (n : Nat) (ef : File) : Prop where
  base : ef.file = file
  shdrtab : ef.shdrtab = file + header memory file eShoff
  segments : ef.loadableSegments = loadSegments memory file
  start : ef.startAddr = imageStart memory file
  totalMemsz : ef.totalMemsz = imageSize memory file
  offset : ef.dynoff = dynamicOffset memory file
  count : ef.dynnum = dynnum memory file (header memory file ePhnum).toNat
  loadInstr : ef.loadInstr = ((loadSegments memory file).take n).map (loadInstrOf memory file)
  needed : ef.needed = []

theorem addLoadInstr_stays (hh : s.Holds memory b ef) (hpa : Parsed memory file i ef)
    (hb : i < (loadSegments memory file).length) :
    Stays file size exec execSize (addLoadInstr i) s
      (∀ f ∈ loadFields, FieldWithin file size ((loadSegments memory file).getD i 0) f)
      fun _ t => ∃ ef', t.Holds memory b ef' ∧ Parsed memory file (i + 1) ef' := by
  rw [addLoadInstr]
  refine Touches.andThen (getEf_stays hh) ?_
  intro ef' t ⟨same, hh⟩
  subst same
  dsimp only
  rw [hpa.segments]
  generalize hs : (loadSegments memory file).getD i 0 = p
  have split : (FieldWithin file size p pFlags ∧ FieldWithin file size p pVaddr ∧ FieldWithin file size p pOffset ∧
      FieldWithin file size p pMemsz ∧ FieldWithin file size p pFilesz ∧ True) ↔
        ∀ f ∈ loadFields, FieldWithin file size p f := by
    simp [loadFields]
  refine Touches.congr ?_ split
  refine Touches.bind (readField_stays hh p pFlags) ?_
  rintro _ t ⟨rfl, hh⟩
  refine Touches.bind (readField_stays hh p pVaddr) ?_
  rintro _ t ⟨rfl, hh⟩
  refine Touches.bind (readField_stays hh p pOffset) ?_
  rintro _ t ⟨rfl, hh⟩
  refine Touches.bind (readField_stays hh p pMemsz) ?_
  rintro _ t ⟨rfl, hh⟩
  refine Touches.bind (readField_stays hh p pFilesz) ?_
  rintro _ t ⟨rfl, hh⟩
  refine (modifyEf_stays hh _).mono fun _ _ hh => ⟨_, hh, ?_⟩
  have next : (loadSegments memory file).take (i + 1) = (loadSegments memory file).take i ++ [p] := by
    rw [← hs, List.take_succ_eq_append_getElem hb, List.getD_eq_getElem?_getD, List.getElem?_eq_getElem hb,
      Option.getD_some]
  exact ⟨hpa.base, hpa.shdrtab, hpa.segments, hpa.start, hpa.totalMemsz, hpa.offset, hpa.count,
    by rw [next, List.map_append, hpa.loadInstr, hpa.start]; rfl, hpa.needed⟩

/-- What `private_process_segments` looks at lies in the file. -/
def SegmentsWithin (memory : Bytes) (file size : Word) : Prop :=
  (∀ i < (header memory file ePhnum).toNat, ∀ f ∈ pType :: segmentFields (segmentType memory file i),
    FieldWithin file size (phdr memory file i) f) ∧
      ∀ p ∈ loadSegments memory file, ∀ f ∈ loadFields, FieldWithin file size p f

theorem forall_getD_iff {P : Word → Prop} {l : List Word} : (∀ i < l.length, P (l.getD i 0)) ↔ ∀ p ∈ l, P p := by
  simp only [List.getD_eq_getElem?_getD, List.forall_mem_iff_getElem]
  constructor
  · intro all i hb
    simpa [List.getElem?_eq_getElem hb] using all i hb
  · intro all i hb
    simpa [List.getElem?_eq_getElem hb] using all i hb

/-- Headers that the first pass has kept stay. -/
theorem mem_loadable (hb : i < n) (hi : segmentType memory file i = ptLoad)
    (room : (loadable memory file i).length < maxSegments) : phdr memory file i ∈ loadable memory file n := by
  induction n with
  | zero => omega
  | succ n ih =>
    by_cases last : i = n
    · subst last
      rw [loadable_room hi room]
      exact List.mem_append_right _ (List.mem_singleton_self _)
    · have hbe := ih (by omega)
      by_cases hi' : segmentType memory file n = ptLoad
      · by_cases room' : (loadable memory file n).length < maxSegments
        · rw [loadable_room hi' room']
          exact List.mem_append_left _ hbe
        · rw [loadable_full room']
          exact hbe
      · rw [loadable_other hi']
        exact hbe

/-- The first pass looks at nothing more of the load segments than the second. -/
theorem segmentsWithin_iff : ((∀ i < (header memory file ePhnum).toNat, ScanWithin memory file size i) ∧
        ∀ p ∈ loadSegments memory file, ∀ f ∈ loadFields, FieldWithin file size p f) ↔
      SegmentsWithin memory file size := by
  constructor
  · intro ⟨scan, hl⟩
    exact ⟨fun i hb => (scan i hb).1, hl⟩
  · intro ⟨hs, hl⟩
    refine ⟨fun i hb => ⟨hs i hb, fun hi room f mem => ?_⟩, hl⟩
    have both : f ∈ loadFields := by
      rw [List.mem_cons, List.mem_singleton] at mem
      cases mem with
      | inl hv => rw [hv]; simp [loadFields]
      | inr hm => rw [hm]; simp [loadFields]
    exact hl _ (mem_loadable hb hi room) f both

theorem addLoadInstrs_stays (hh : s.Holds memory b ef) (hpa : Parsed memory file 0 ef) :
    Stays file size exec execSize (forFrom addLoadInstr 0 (loadSegments memory file).length) s
      (∀ p ∈ loadSegments memory file, ∀ f ∈ loadFields, FieldWithin file size p f)
      fun _ t => ∃ ef', t.Holds memory b ef' ∧ Parsed memory file (loadSegments memory file).length ef' := by
  refine Touches.congr (Touches.loop_zero (fun n (t : Loader) => ∃ ef', t.Holds memory b ef' ∧ Parsed memory file n ef')
    ⟨ef, hh, hpa⟩ fun i t hb ⟨ef', hh, hpa⟩ => addLoadInstr_stays hh hpa hb) ?_
  exact forall_getD_iff (P := fun p => ∀ f ∈ loadFields, FieldWithin file size p f)

theorem privateProcessSegments_stays (hh : s.Holds memory b ef) (hsc : Scanned memory file 0 ef)
    (hl : ehdrSize ≤ size) :
    Stays file size exec execSize privateProcessSegments s (SegmentsWithin memory file size)
      fun _ t => ∃ ef', t.Holds memory b ef' ∧ Parsed memory file (loadSegments memory file).length ef' := by
  rw [privateProcessSegments]
  refine Touches.andThen (readEhdr_stays hh hsc.base hl (by decide)) ?_
  rintro _ t ⟨rfl, hh⟩
  refine Touches.congr ?_ segmentsWithin_iff
  refine Touches.bind (Touches.loop_zero (fun n t => ∃ ef', t.Holds memory b ef' ∧ Scanned memory file n ef')
    ⟨ef, hh, hsc⟩ fun i t _ ⟨ef', hh, hsc⟩ => processSegment_stays hh hsc) ?_
  rintro _ t ⟨ef', hh, hsc⟩
  refine Touches.andThen (getEf_stays hh) ?_
  rintro _ t ⟨rfl, hh⟩
  rw [hsc.segments, ← loadSegments]
  cases hse : loadSegments memory file with
  | nil =>
    have hs : imageStart memory file = 0 := by rw [imageStart, hse]; rfl
    have ht : imageSize memory file = imageEnd memory file (header memory file ePhnum).toNat := by
      simp [imageSize, hs]
    rw [if_neg (by simp), ← hse]
    exact addLoadInstrs_stays hh ⟨hsc.base, hsc.shdrtab, hsc.segments, by rw [hsc.start, hs],
      by rw [hsc.totalMemsz, ht], hsc.offset, hsc.count, hsc.loadInstr, hsc.needed⟩
  | cons p rest =>
    have hs : imageStart memory file = field memory p pVaddr := by rw [imageStart, hse]; rfl
    have first : (FieldWithin file size p pVaddr ∧ ∀ q ∈ p :: rest, ∀ f ∈ loadFields, FieldWithin file size q f) ↔
        ∀ q ∈ p :: rest, ∀ f ∈ loadFields, FieldWithin file size q f :=
      ⟨fun hw => hw.2, fun hw => ⟨hw p List.mem_cons_self pVaddr (by simp [loadFields]), hw⟩⟩
    rw [if_pos (by simp), List.getD_cons_zero]
    refine Touches.congr ?_ first
    refine Touches.bind (readField_stays hh p pVaddr) ?_
    rintro _ t ⟨rfl, hh⟩
    refine Touches.andThen (modifyEf_stays hh _) ?_
    intro _ t hh
    rw [← hse]
    exact addLoadInstrs_stays hh ⟨hsc.base, hsc.shdrtab, hsc.segments, by rw [hs],
      by rw [hsc.totalMemsz, imageSize, hs], hsc.offset, hsc.count, hsc.loadInstr, hsc.needed⟩

/-! ## The dynamic section -/

/-- What the rest of the initialisation and the copying go by. -/
structure Ready (memory : Bytes) (file : Word) (ef : File) : Prop where
  base : ef.file = file
  shdrtab : ef.shdrtab = file + header memory file eShoff
  totalMemsz : ef.totalMemsz = imageSize memory file
  loadInstr : ef.loadInstr = (loadSegments memory file).map (loadInstrOf memory file)

theorem Parsed.ready (hpa : Parsed memory file (loadSegments memory file).length ef) : Ready memory file ef :=
  ⟨hpa.base, hpa.shdrtab, hpa.totalMemsz, by rw [hpa.loadInstr, List.take_length]⟩

theorem neededBefore_succ (i : Nat) : neededBefore memory file (i + 1) =
      neededBefore memory file i + if dynamicTag memory file i = dtNeeded then 1 else 0 := by
  by_cases here : dynamicTag memory file i = dtNeeded
  · simp [neededBefore, List.range_succ, here]
  · simp [neededBefore, List.range_succ, here]

/-- What is looked at of entry `i`. -/
def EntryWithin (memory : Bytes) (file size : Word) (i : Nat) : Prop :=
  FieldWithin file size (dyn memory file i) dTag ∧
    (UsesValue memory file i → FieldWithin file size (dyn memory file i) dVal)

/-- The state before entry `i` is looked at. -/
def AtEntry (memory : Bytes) (b : Binary) (file : Word) (i : Nat) (t : Loader) : Prop :=
  ∃ ef, t.Holds memory b ef ∧ Ready memory file ef ∧ ef.needed.length = min maxNeeded (neededBefore memory file i)

theorem processDynamicEntry_stays (at_ : AtEntry memory b file i s) :
    Stays file size exec execSize (processDynamicEntry (dyn memory file i)) s (EntryWithin memory file size i)
      fun done t => done = decide (dynamicTag memory file i = dtNull) ∧ AtEntry memory b file (i + 1) t := by
  obtain ⟨ef, hh, hrd, hc⟩ := at_
  rw [processDynamicEntry]
  refine Touches.bind (readField_stays hh _ dTag) ?_
  rintro _ t ⟨rfl, hh⟩
  rw [← dynamicTag, UsesValue]
  by_cases his : dynamicTag memory file i = dtNull
  · have hu : dynamicEntry dtNull = none := rfl
    rw [if_pos his, his, hu, if_neg (by decide)]
    refine Touches.congr (Touches.pure ⟨rfl, ef, hh, hrd, ?_⟩) (by simp)
    rw [neededBefore_succ, his, if_neg (by decide)]
    exact hc
  · rw [if_neg his, decide_eq_false his]
    by_cases hi : dynamicTag memory file i = dtNeeded
    · rw [if_pos hi, if_pos hi]
      have next : neededBefore memory file (i + 1) = neededBefore memory file i + 1 := by
        rw [neededBefore_succ, if_pos hi]
      refine Touches.andThen (getEf_stays hh) ?_
      rintro _ t ⟨rfl, hh⟩
      by_cases room : neededBefore memory file i < maxNeeded
      · rw [if_pos (by omega)]
        refine Touches.congr ?_ (forall_prop_of_true room).symm
        refine Touches.congr (Touches.bind (readField_stays hh _ dVal) ?_) (iff_of_eq (and_true _))
        rintro _ t ⟨rfl, hh⟩
        refine Touches.andThen (modifyEf_stays hh _) ?_
        intro _ t hh
        refine Touches.pure ⟨rfl, _, hh, ⟨hrd.base, hrd.shdrtab, hrd.totalMemsz, hrd.loadInstr⟩, ?_⟩
        rw [List.length_append, List.length_singleton]
        omega
      · rw [if_neg (by omega)]
        refine Touches.congr (Touches.pure ⟨rfl, _, hh, hrd, ?_⟩) (iff_of_true trivial fun fits => absurd fits room)
        omega
    · have next : neededBefore memory file (i + 1) = neededBefore memory file i := by
        rw [neededBefore_succ, if_neg hi, Nat.add_zero]
      rw [if_neg hi, if_neg hi]
      cases hk : dynamicEntry (dynamicTag memory file i) with
      | none =>
        refine Touches.congr (Touches.pure ⟨rfl, _, hh, hrd, ?_⟩) (by simp)
        rw [next]
        exact hc
      | some store =>
        refine Touches.congr ?_ (forall_prop_of_true rfl).symm
        refine Touches.congr (Touches.bind (readField_stays hh _ dVal) ?_) (iff_of_eq (and_true _))
        rintro _ t ⟨rfl, hh⟩
        refine Touches.andThen (modifyEf_stays hh _) ?_
        intro _ t hh
        obtain ⟨base, hs, hn, hl, ht⟩ := dynamicEntry_keeps hk (field memory (dyn memory file i) dVal) ef
        refine Touches.pure ⟨rfl, _, hh, ⟨?_, ?_, ?_, ?_⟩, ?_⟩
        · rw [base, hrd.base]
        · rw [hs, hrd.shdrtab]
        · rw [ht, hrd.totalMemsz]
        · rw [hl, hrd.loadInstr]
        · rw [hn, next, hc]

theorem dyn_succ (i : Nat) : dyn memory file (i + 1) = dyn memory file i + dynSize := by
  rw [dyn, dyn, BitVec.add_assoc (file + _), BitVec.ofNat_add, BitVec.mul_add, BitVec.mul_one]

theorem processDynamicEntries_stays (at_ : AtEntry memory b file i s) :
    Stays file size exec execSize (processDynamicEntries n (dyn memory file i)) s
      (∀ j, i ≤ j → j < i + n → (∀ l, i ≤ l → l < j → dynamicTag memory file l ≠ dtNull) → EntryWithin memory file size j)
      fun _ t => ∃ ef', t.Holds memory b ef' ∧ Ready memory file ef' := by
  induction n generalizing i s with
  | zero =>
    obtain ⟨ef, hh, hrd, -⟩ := at_
    exact Touches.congr (Touches.pure ⟨ef, hh, hrd⟩) (iff_of_true trivial fun j hl hu => by omega)
  | succ n ih =>
    have split : (EntryWithin memory file size i ∧ (dynamicTag memory file i ≠ dtNull → ∀ j, i + 1 ≤ j → j < i + 1 + n →
        (∀ l, i + 1 ≤ l → l < j → dynamicTag memory file l ≠ dtNull) → EntryWithin memory file size j)) ↔
          ∀ j, i ≤ j → j < i + (n + 1) → (∀ l, i ≤ l → l < j → dynamicTag memory file l ≠ dtNull) →
            EntryWithin memory file size j := by
      constructor
      · intro ⟨here, hla⟩ j hl hu hbe
        cases Nat.eq_or_lt_of_le hl with
        | inl first => exact first ▸ here
        | inr habv =>
          exact hla (hbe i (Nat.le_refl i) habv) j habv (by omega) fun l hl' => hbe l (by omega)
      · intro all
        refine ⟨all i (Nat.le_refl i) (by omega) fun l hl hu => by omega, fun hg j hl hu hbe => ?_⟩
        refine all j (by omega) (by omega) fun l hl' hu' => ?_
        cases Nat.eq_or_lt_of_le hl' with
        | inl first => exact first ▸ hg
        | inr habv => exact hbe l habv hu'
    rw [processDynamicEntries]
    refine Touches.congr (Touches.bind (processDynamicEntry_stays at_) ?_) split
    intro done t ⟨same, at_⟩
    rw [same]
    by_cases hi : dynamicTag memory file i = dtNull
    · obtain ⟨ef, hh, hrd, -⟩ := at_
      rw [if_pos (decide_eq_true hi)]
      exact Touches.congr (Touches.pure ⟨ef, hh, hrd⟩) (iff_of_true trivial fun hg => absurd hi hg)
    · rw [decide_eq_false hi, if_neg Bool.false_ne_true, ← dyn_succ]
      exact Touches.congr (ih at_) ⟨fun all _ => all, fun all => all hi⟩

theorem privateProcessDynamicSection_stays (hh : s.Holds memory b ef)
    (hpa : Parsed memory file (loadSegments memory file).length ef) :
    Stays file size exec execSize privateProcessDynamicSection s
      (∀ i < dynamicCount memory file, (∀ j < i, dynamicTag memory file j ≠ dtNull) → EntryWithin memory file size i)
      fun _ t => ∃ ef', t.Holds memory b ef' ∧ Ready memory file ef' := by
  rw [privateProcessDynamicSection]
  refine Touches.andThen (getEf_stays hh) ?_
  rintro _ t ⟨rfl, hh⟩
  rw [hpa.count, hpa.offset, hpa.base, dynamicCount]
  by_cases hab : dynnum memory file (header memory file ePhnum).toNat = 0 ∨ dynamicOffset memory file = 0
  · have none : (if dynamicOffset memory file = 0 then 0 else (dynnum memory file (header memory file ePhnum).toNat).toNat) = 0 := by
      cases hab with
      | inl hem => rw [hem]; exact ite_self 0
      | inr ho => exact if_pos ho
    rw [if_pos hab, none]
    exact Touches.congr (Touches.pure ⟨_, hh, hpa.ready⟩) (iff_of_true trivial fun i hb => absurd hb (Nat.not_lt_zero i))
  · have first : file + dynamicOffset memory file = dyn memory file 0 := by
      rw [dyn]
      simp
    rw [if_neg hab, if_neg fun ho => hab (.inr ho)]
    refine Touches.andThen (modifyEf_stays hh _) ?_
    intro _ t hh
    rw [first]
    refine Touches.congr (processDynamicEntries_stays ⟨_, hh, ⟨hpa.base, hpa.shdrtab, hpa.totalMemsz, hpa.ready.loadInstr⟩, rfl⟩) ?_
    simp

end Gevisor.Elf
