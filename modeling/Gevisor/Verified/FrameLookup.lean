import Gevisor.Unwind.Section

/-! # Looking up frame descriptions

`find_fde` goes through the entries of every section and stops at the first FDE that covers the instruction pointer. The
end of a section needs no terminator, because an entry has more than four bytes after the one before it, and a
terminator has exactly four.
-/

namespace Gevisor.Verified.FrameLookup

open Elf (Word Byte Bytes fetch)
open Lib Unwind

variable {memory : Bytes} {limit : Nat} {ehFrame : EhFrame} {entries : List Entry} {e : Entry} {fde : FdEntry} {pc : Word}

/-! ## One section -/

theorem parse_null (fde : FdEntry) (reads : List (Word × Nat)) :
    fde.parse memory limit 0 reads = .ok { fde with toCommonEntry := { ehFrame := fde.ehFrame } } reads := rfl

theorem scan_invalid {n : Nat} (hi : fde.valid = false) (reads : List (Word × Nat)) :
    scan memory limit pc (n + 1) fde reads = .ok none reads := by
  rw [scan, hi]
  rfl

variable {a : Word} {k : Nat} {rest : List Entry} {frames : List EhFrame} {encoding : Byte}

theorem entriesAt_cons (laid : EntriesAt memory a k (e :: rest)) :
    a = e.start ∧ ∃ n, k = e.size + n ∧ EntriesAt memory e.finish n rest := by
  cases laid with
  | cons hh ha => exact ⟨rfl, _, rfl, ha⟩

/-- More than four bytes are left exactly if there is another entry. -/
theorem four_lt_iff (laid : EntriesAt memory a k rest) : 4 < k ↔ rest ≠ [] := by
  cases laid with
  | nil | terminator => simp
  | @cons next n rest hh ha =>
    have four := hh.four
    have hh : 4 ≤ next.headerSize := by
      rw [Entry.headerSize]
      split <;> omega
    rw [Entry.size]
    exact iff_of_true (by omega) (List.cons_ne_nil _ _)

/-- The range of an FDE does not wrap around. -/
theorem isInRange_eq (hd : fde.Describes ehFrame e) (hi : fde.isCie = false)
    (hc : ContentAt memory entries e) : fde.isInRange pc = e.covers pc := by
  have hpa := hd.content
  rw [FdEntry.isInRange, Entry.covers]
  cases kind : e.content with
  | cie letters encodings =>
    rw [kind] at hpa
    cases hi.symm.trans hpa
  | fde pcBegin pcRange =>
    rw [ContentAt, kind] at hc
    rw [kind] at hpa
    obtain ⟨-, c, -, letters, encodings, -, -, formed⟩ := hc
    have sum : (pcBegin + pcRange).toNat = pcBegin.toNat + pcRange.toNat := by
      rw [BitVec.toNat_add, Nat.mod_eq_of_lt formed.bounded]
    simp only [hpa.2.1, hpa.2.2, BitVec.lt_def, BitVec.le_def, sum]

/-- What a look-up finds of what there is. -/
def Finds (ehFrame : EhFrame) : Option Entry → Option FdEntry → Prop
  | none, found => found = none
  | some e, found => ∃ fde, found = some fde ∧ fde.Describes ehFrame e

section Scan

variable (formed : WellFormed memory ehFrame entries) (limited : 10 ≤ limit) (rounds : ∀ e ∈ entries, e.rounds ≤ limit)
  {frames : List EhFrame} (known : ehFrame ∈ frames)

include formed

theorem valid_of_describes (hm : e ∈ entries) (hd : fde.Describes ehFrame e) : fde.valid = true := by
  rw [CommonEntry.valid, hd.entryStart]
  exact decide_eq_true (formed.start_ne_zero hm)

variable {k n : Nat} {rest : List Entry} {reads : List (Word × Nat)}

theorem next_eq (hm : e ∈ entries) (hd : fde.Describes ehFrame e) (ha : EntriesAt memory e.finish k rest)
    (upto : e.start.toNat + (e.size + k) = ehFrame.addr.toNat + ehFrame.size.toNat) :
    fde.next memory limit = fde.parse memory limit (if rest ≠ [] then e.finish else 0) := by
  have room := formed.room
  have hf := formed.toNat_finish hm
  have four : (e.finish + 4).toNat = e.finish.toNat + 4 := toNat_add_ofNat (show e.finish.toNat + 4 < 2 ^ 64 by omega)
  have hbo : (ehFrame.addr + ehFrame.size).toNat = ehFrame.addr.toNat + ehFrame.size.toNat := by
    rw [BitVec.toNat_add, Nat.mod_eq_of_lt (by omega)]
  have more : e.finish + 4 < ehFrame.addr + ehFrame.size ↔ rest ≠ [] := by
    rw [BitVec.lt_def, four, hbo, ← four_lt_iff ha]
    omega
  rw [FdEntry.next, valid_of_describes formed hm hd, hd.entryEnd, hd.ehFrame]
  simp only [not_true_eq_false, if_false, more]
  split <;> rfl

/-- One round: the entry is it, or it is among the rest. -/
theorem wp_scan_cons (hm : e ∈ entries) (hd : fde.Describes ehFrame e) (hi : Inside frames reads)
    (hon : wp (fde.next memory limit >>= scan memory limit pc n)
      (fun hf reads => Finds ehFrame (rest.find? (·.covers pc)) hf ∧ Inside frames reads) (fun _ _ => False) reads) :
    wp (scan memory limit pc (n + 1) fde)
      (fun hf reads => Finds ehFrame ((e :: rest).find? (·.covers pc)) hf ∧ Inside frames reads)
      (fun _ _ => False) reads := by
  rw [scan, valid_of_describes formed hm hd]
  simp only [not_true_eq_false, if_false]
  cases kind : fde.isCie with
  | true =>
    have ho : e.covers pc = false := by
      have hpa := hd.content
      rw [Entry.covers]
      split at hpa
      · rfl
      · cases kind.symm.trans hpa.1
    rw [if_pos rfl, List.find?_cons_of_neg (by rw [ho]; exact Bool.false_ne_true)]
    exact hon
  | false =>
    have same : fde.isInRange pc = e.covers pc := isInRange_eq hd kind (formed.contents e hm)
    rw [if_neg Bool.false_ne_true, same]
    cases hcv : e.covers pc with
    | true =>
      rw [if_pos rfl, List.find?_cons_of_pos (by exact hcv)]
      exact ⟨⟨fde, rfl, hd⟩, hi⟩
    | false =>
      rw [if_neg Bool.false_ne_true, List.find?_cons_of_neg (by rw [hcv]; exact Bool.false_ne_true)]
      exact hon

include limited rounds known

/-- From an entry on, with the rest of the section behind it. -/
theorem wp_scan (hi : Inside frames reads) (laid : EntriesAt memory e.start k (e :: rest))
    (upto : e.start.toNat + k = ehFrame.addr.toNat + ehFrame.size.toNat) (hme : ∀ x ∈ e :: rest, x ∈ entries)
    (hd : fde.Describes ehFrame e) (fuel : rest.length + 1 < n) :
    wp (scan memory limit pc n fde)
      (fun hf reads => Finds ehFrame ((e :: rest).find? (·.covers pc)) hf ∧ Inside frames reads)
      (fun _ _ => False) reads := by
  induction rest generalizing e fde n k reads with
  | nil =>
    obtain ⟨-, k, rfl, ha⟩ := entriesAt_cons laid
    have hm := hme e List.mem_cons_self
    obtain ⟨n, rfl⟩ : ∃ m, n = m + 1 + 1 := Nat.exists_eq_add_of_le' fuel
    refine wp_scan_cons formed hm hd hi ?_
    rw [next_eq formed hm hd ha upto, if_neg (not_not.mpr rfl), wp_bind, wp_of_ok (parse_null fde reads),
      wp_of_ok (scan_invalid rfl reads)]
    exact ⟨rfl, hi⟩
  | cons next rest ih =>
    obtain ⟨-, k, rfl, ha⟩ := entriesAt_cons laid
    obtain ⟨hs, k', rfl, hla⟩ := entriesAt_cons ha
    have hm := hme e List.mem_cons_self
    have hot : ∀ x ∈ next :: rest, x ∈ entries := fun x mem => hme x (List.mem_cons_of_mem _ mem)
    have hfi := formed.toNat_finish hm
    obtain ⟨n, rfl⟩ := Nat.exists_eq_add_one_of_ne_zero (Nat.ne_of_gt (Nat.zero_lt_of_lt fuel))
    refine wp_scan_cons formed hm hd hi ?_
    rw [next_eq formed hm hd ha upto, if_pos (List.cons_ne_nil _ _), wp_bind, hs]
    refine wp_mono ?_ (fun _ _ hn => hn)
      (wp_parse formed (hot next List.mem_cons_self) limited rounds known hi hd.ehFrame)
    rintro fde' reads ⟨hd', hi⟩
    rw [hs] at ha hfi
    exact ih hi ha (by omega) hot hd' (Nat.lt_of_succ_lt_succ fuel)

end Scan

/-! ## All modules -/

/-- The section of a module is absent, or well formed. -/
def Loaded (memory : Bytes) (ehFrame : EhFrame) (entries : List Entry) : Prop :=
  ehFrame.addr = 0 ∧ entries = [] ∨ WellFormed memory ehFrame entries

/-- The entry that the look-up answers with: an invalid one if there is none, and else that of the section. -/
def Answers (frames : List EhFrame) : Option Entry → FdEntry → Prop
  | none, fde => fde.valid = false
  | some e, fde => fde.valid = true ∧ ∃ ehFrame ∈ frames, fde.Describes ehFrame e

theorem exists_rounds (entries : List Entry) : ∃ hbo, ∀ e ∈ entries, e.rounds ≤ hbo := by
  induction entries with
  | nil => exact ⟨0, by simp⟩
  | cons e rest ih =>
    obtain ⟨hbo, upto⟩ := ih
    refine ⟨e.rounds + hbo, List.forall_mem_cons.mpr ⟨Nat.le_add_right _ _, fun x hm => ?_⟩⟩
    exact Nat.le_trans (upto x hm) (Nat.le_add_left _ _)

/-- The look-up in one section, from its start. -/
theorem wp_scan_section (hld : Loaded memory ehFrame entries) (limited : 10 ≤ limit) (fuel : entries.length < limit)
    (rounds : ∀ e ∈ entries, e.rounds ≤ limit) (known : ehFrame ∈ frames)
    {reads : List (Word × Nat)} (hi : Inside frames reads) (pc : Word) :
    wp (FdEntry.parse memory limit { ehFrame } ehFrame.addr >>= scan memory limit pc limit)
      (fun hf reads => Finds ehFrame (entries.find? (·.covers pc)) hf ∧ Inside frames reads)
      (fun _ _ => False) reads := by
  rw [wp_bind]
  cases hld with
  | inl hab =>
    obtain ⟨null, rfl⟩ := hab
    obtain ⟨n, rfl⟩ := Nat.exists_eq_add_one_of_ne_zero (Nat.ne_of_gt fuel)
    rw [null, wp_of_ok (parse_null _ reads), wp_of_ok (scan_invalid rfl reads)]
    exact ⟨rfl, hi⟩
  | inr formed =>
    have laid := formed.concatenation
    cases entries with
    | nil => exact absurd rfl formed.nonempty
    | cons e rest =>
      have hs := (entriesAt_cons laid).1
      rw [hs] at laid
      rw [hs]
      refine wp_mono ?_ (fun _ _ hn => hn) (wp_parse formed List.mem_cons_self limited rounds known hi rfl)
      rintro fde reads ⟨hd, hi⟩
      exact wp_scan formed limited rounds known hi laid (by rw [hs]) (fun _ hm => hm) hd fuel

theorem findFdeFrom_answers {rest : List EhFrame} {sections : List (List Entry)}
    (hld : List.Forall₂ (Loaded memory) rest sections) (known : ∀ f ∈ rest, f ∈ frames) (pc : Word) :
    ∃ enough, ∀ limit ≥ enough, ∀ reads, Inside frames reads → wp (findFdeFrom memory limit pc rest)
      (fun fde reads => Answers frames (sections.flatten.find? (·.covers pc)) fde ∧ Inside frames reads)
      (fun _ _ => False) reads := by
  induction hld with
  | nil => exact ⟨0, fun limit _ reads hi => ⟨rfl, hi⟩⟩
  | @cons ehFrame entries rest sections here hla ih =>
    obtain ⟨hbo, rounds⟩ := exists_rounds entries
    obtain ⟨enough, han⟩ := ih fun f hm => known f (List.mem_cons_of_mem _ hm)
    refine ⟨10 + entries.length + 1 + hbo + enough, fun limit room reads hi => ?_⟩
    have ha := known ehFrame List.mem_cons_self
    rw [findFdeFrom, wp_bind]
    refine wp_mono (fun fde reads hsc => ?_) (fun _ _ hn => hn) ((wp_bind ..).mp
      (wp_scan_section here (show 10 ≤ limit by omega) (by omega)
        (fun e hm => Nat.le_trans (rounds e hm) (by omega)) ha hi pc))
    rw [wp_bind, List.flatten_cons, List.find?_append]
    refine wp_mono ?_ (fun _ _ hn => hn) hsc
    rintro hf reads ⟨hfd, hi⟩
    cases first : entries.find? (·.covers pc) with
    | none =>
      rw [first] at hfd
      rw [show hf = none from hfd]
      exact han limit (by omega) reads hi
    | some e =>
      rw [first] at hfd
      obtain ⟨fde, rfl, hd⟩ := hfd
      have hm := List.mem_of_find?_eq_some first
      have formed := here.resolve_left fun hab => List.ne_nil_of_mem hm hab.2
      exact ⟨⟨valid_of_describes formed hm hd, ehFrame, ha, hd⟩, hi⟩

/-- With loops that are followed far enough, `find_fde` returns the first FDE that covers the instruction pointer, or an
invalid entry if there is none, and reads headers in the sections only. -/
theorem finds_first_fde (memory : Bytes) (ehFrameList : Vector EhFrame maxNumModules) (sections : List (List Entry))
    (loaded : List.Forall₂ (Loaded memory) ehFrameList.toList sections) (pc : Word) :
    ∃ enough, ∀ limit ≥ enough, ∃ fde reads, findFde memory limit ehFrameList pc [] = .ok fde reads ∧
      Answers ehFrameList.toList (sections.flatten.find? (·.covers pc)) fde ∧ Inside ehFrameList.toList reads := by
  obtain ⟨enough, answers⟩ := findFdeFrom_answers loaded (fun _ member => member) pc
  refine ⟨enough, fun limit room => ?_⟩
  exact exists_of_wp (answers limit room [] fun r none => by cases none)

/-! ## Sections at address 8 -/

/-- A CIE of 20 bytes with the augmentation `zR`, an FDE of 20 bytes and a terminator. -/
def sample (encoding : Byte) : Bytes := holding <|
  [0, 0, 0, 0, 0, 0, 0, 0] ++
  [16, 0, 0, 0, 0, 0, 0, 0, 1, 0x7A, 0x52, 0, 1, 0x78, 16, 1, encoding, 0, 0, 0] ++
  [16, 0, 0, 0, 24, 0, 0, 0, 0xDC, 0, 0, 0, 0x40, 0, 0, 0, 0, 0, 0, 0] ++
  [0, 0, 0, 0]

def sampleFrame : EhFrame := ⟨8, 44⟩

/-- No other module has a section. -/
def sampleModules : Vector EhFrame maxNumModules :=
  ⟨(sampleFrame :: List.replicate 74 ⟨0, 0⟩).toArray, rfl⟩

def sampleCie (encoding : Byte) : Entry := ⟨8, false, 16, .cie (some [0x52]) { pointer := encoding.setWidth 64 }⟩

def sampleFde : Entry := ⟨28, false, 16, .fde 0x100 0x40⟩

/-- Signed numbers of four bytes, relative to their place and to the text section. -/
def encodings : List Byte := [0x1B, 0x2B]

theorem sample_headers (hgi : encoding ∈ encodings) :
    EntriesAt (sample encoding) 8 44 [sampleCie encoding, sampleFde] := by
  have hl : ∀ encoding ∈ encodings, fetch (sample encoding) 8 4 = 16 ∧ fetch (sample encoding) 28 4 = 16 ∧
      fetch (sample encoding) 48 4 = 0 := by decide +kernel
  obtain ⟨cie, fde, zero⟩ := hl encoding hgi
  have first : HeaderAt (sample encoding) (sampleCie encoding) := ⟨Nat.le_add_left 4 12, (by decide : 16 < 0xFFFFFFFF), nofun, cie⟩
  have hs : HeaderAt (sample encoding) sampleFde := ⟨by decide, by decide, nofun, fde⟩
  exact .cons first (.cons hs (.terminator zero))

theorem sample_cie (hgi : encoding ∈ encodings) :
    CieAt (sample encoding) 12 (some [0x52]) { pointer := encoding.setWidth 64 } := by
  have hb : ∀ encoding ∈ encodings, fetch (sample encoding) 12 4 = 0 ∧
      BytesAt (sample encoding) 17 ([0x7A, 0x52] ++ [0]) ∧ BytesAt (sample encoding) 20 [1] ∧
      BytesAt (sample encoding) 21 [0x78] ∧ BytesAt (sample encoding) 22 [16] ∧ BytesAt (sample encoding) 23 [1] ∧
      (sample encoding 24).setWidth 64 = encoding.setWidth 64 := by decide +kernel
  obtain ⟨id, hs, code, data, hr, hl, hle⟩ := hb encoding hgi
  have leb {a : Word} {b : Byte} (last : Lib.Leb128.Terminated [b]) (hf : BytesAt (sample encoding) a [b]) :
      LebAt (sample encoding) a [b] := ⟨last, hf, Nat.le_add_left 1 9⟩
  have hp : LettersAt (sample encoding) [0x52] 24 {} 25 { pointer := encoding.setWidth 64 } := by
    rw [← hle]
    exact .pointer .nil
  exact ⟨id, hs, _, _, _, _, _, _, .uleb128 (leb (by decide) code), .sleb128 (leb (by decide) data),
    .uleb128 (leb (by decide) hr), .some (by decide) (.uleb128 (leb (by decide) hl)) (by decide) hp⟩

/-- An FDE whose addresses are relative to the text section is no worse formed, but the look-up gives up on it. -/
theorem find_fde_aborts : EntriesAt (sample 0x2B) sampleFrame.addr sampleFrame.size.toNat [sampleCie 0x2B, sampleFde] ∧
      CieAt (sample 0x2B) (sampleCie 0x2B).payload (some [0x52]) { pointer := 0x2B } ∧
      sampleFde.payload - fetch (sample 0x2B) sampleFde.payload 4 = (sampleCie 0x2B).start ∧
      ∃ reads, findFde (sample 0x2B) 64 sampleModules 0x110 [] =
        .error (.abort "DW_EH_PE_textrel pointer encodings not supported") reads := by
  have given : (0x2B : Byte) ∈ encodings := List.mem_cons_of_mem _ List.mem_cons_self
  have ends : (match findFde (sample 0x2B) 64 sampleModules 0x110 [] with
      | .ok _ _ => none
      | .error stop _ => some stop) = some (.abort "DW_EH_PE_textrel pointer encodings not supported") := by decide +kernel
  refine ⟨sample_headers given, sample_cie given, by decide +kernel, ?_⟩
  cases result : findFde (sample 0x2B) 64 sampleModules 0x110 [] with
  | ok fde reads =>
    rw [result] at ends
    cases ends
  | error stop reads =>
    rw [result] at ends
    exact ⟨reads, congrArg (EStateM.Result.error · reads) (Option.some.inj ends)⟩

theorem sample_formed : WellFormed (sample 0x1B) sampleFrame [sampleCie 0x1B, sampleFde] := by
  have hgi : (0x1B : Byte) ∈ encodings := List.mem_cons_self
  have hn : fetch (sample 0x1B) 32 4 = 24 ∧ 36 + fetchSigned (sample 0x1B) 36 4 = 0x100 ∧
      fetchSigned (sample 0x1B) 40 4 = 0x40 ∧ BytesAt (sample 0x1B) 44 [0] := by decide +kernel
  obtain ⟨back, first, hs, hl⟩ := hn
  have hp : PointerAt (sample 0x1B) 36 0x1B 0x100 40 := by
    rw [← first]
    exact .relative (by decide) (by decide) .sdata4 fun _ => .inl (by decide +kernel)
  have hpc : PointerAt (sample 0x1B) 40 (0x1B &&& 0xF) 0x40 44 := by
    rw [← hs]
    exact .absolute (by decide) (by decide) .sdata4 fun _ => .inl (by decide +kernel)
  have fde : FdeAt (sample 0x1B) 32 (some [0x52]) { pointer := 0x1B } 0x100 0x40 :=
    ⟨by decide, _, _, hp, hpc, fun letters same => by
      obtain rfl := Option.some.inj same
      exact ⟨_, _, .uleb128 ⟨by decide, hl, by decide⟩, .other (.inr rfl) .nil⟩⟩
  refine ⟨by simp, by decide, by decide, sample_headers hgi, ?_⟩
  refine List.forall_mem_cons.mpr ⟨sample_cie hgi, List.forall_mem_singleton.mpr ⟨?_, _, List.mem_cons_self, _, _, rfl, ?_, fde⟩⟩
  · exact fun zero => absurd (back.symm.trans zero) (by decide)
  · exact congrArg (32 - ·) back

theorem finds_first_fde_sample : ∃ enough, ∀ limit ≥ enough, ∃ fde reads,
    findFde (sample 0x1B) limit sampleModules 0x110 [] = .ok fde reads ∧ fde.valid = true ∧ fde.pcBegin = 0x100 := by
  have rest (n : Nat) : List.Forall₂ (Loaded (sample 0x1B)) (List.replicate n ⟨0, 0⟩) (List.replicate n []) := by
    induction n with
    | zero => exact .nil
    | succ n ih => exact .cons (.inl ⟨rfl, rfl⟩) ih
  obtain ⟨enough, finds⟩ := finds_first_fde (sample 0x1B) sampleModules
    ([sampleCie 0x1B, sampleFde] :: List.replicate 74 []) (.cons (.inr sample_formed) (rest 74)) 0x110
  refine ⟨enough, fun limit room => ?_⟩
  obtain ⟨fde, reads, returns, answers, -⟩ := finds limit room
  obtain ⟨valid, _, -, describes⟩ := answers
  exact ⟨fde, reads, returns, valid, describes.content.2.1⟩

end Gevisor.Verified.FrameLookup
