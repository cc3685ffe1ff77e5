import Gevisor.Driver.Effects
import Gevisor.Lib.Masks
import Mathlib.Data.List.Pairwise

/-! # What the VMM is told about the memory of a module

The page loop includes the page at the end of a segment, so that a segment that ends with a page gets one page too
many, and pages of two segments are told twice.
-/

namespace Gevisor.Verified.ModuleDescriptions

open Lib Driver
open Elf (Word Binary LoadInstr)

variable {P : Platform} {module : Binary} {d : Globals}

/-- The pages, by number, that the VMM is told about. -/
def registered (events : List Event) : List Nat := events.filterMap fun
  | .call _ (.addMdl md) _ => some (md.virt.toNat / 4096)
  | _ => none

/-- First byte of a segment in memory, and the one after its last. -/
def segmentStart (module : Binary) (instr : LoadInstr) : Nat := module.exec.toNat + instr.memOffset.toNat

def segmentEnd (module : Binary) (instr : LoadInstr) : Nat := segmentStart module instr + instr.memsz.toNat

/-- The page has a byte in common with the segment. -/
def Meets (module : Binary) (instr : LoadInstr) (page : Nat) : Prop :=
  4096 * page < segmentEnd module instr ∧ segmentStart module instr < 4096 * page + 4096

/-- Each page of a segment is registered once, and no other page. -/
def Exact (P : Platform) (module : Binary) (d : Globals) : Prop :=
  wp (privateAddMdToMemoryManager P module) (fun _ d' => ∃ events, d'.log = events ++ d.log ∧ (registered events).Nodup ∧
    ∀ page, page ∈ registered events ↔ ∃ instr ∈ module.ef.loadInstr, Meets module instr page) (fun _ _ => False) d

/-- Pages from the one at the start of the segment to the one at its end, which are those that are registered. -/
def segmentPages (module : Binary) (instr : LoadInstr) : List Nat :=
  List.range' (segmentStart module instr / 4096)
    (segmentEnd module instr / 4096 + 1 - segmentStart module instr / 4096)

/-- Segments without a common page. -/
def PagesApart (module : Binary) (x y : LoadInstr) : Prop :=
  segmentEnd module x / 4096 < segmentStart module y / 4096 ∨ segmentEnd module y / 4096 < segmentStart module x / 4096

/-! ## The page loop -/

theorem registered_append (es es' : List Event) : registered (es ++ es') = registered es ++ registered es' :=
  List.filterMap_append

section

variable (accepts : ∀ log request, P.callVmmOnCore log 0 request = success)

include accepts

theorem wp_addRawMd {virt type : Word} {Q : Unit → Globals → Prop} {X : Exit → Globals → Prop}
    (next : ∀ phys, Q () { d with log := .call 0 (.addMdl ⟨phys, virt, type⟩) success :: d.log }) :
    wp (privateAddRawMdToMemoryManager P virt type) Q X d := by
  rw [privateAddRawMdToMemoryManager, wp_bind, wp_get, callVmm, wp_bind, wp_platformCallVmmOnCore, accepts]
  exact next _

/-- The loop tells about the pages from `first` to `last`. -/
theorem wp_addPages {type : Word} {last n fuel first : Nat} (hi : last < 2 ^ 52 - 1) (hc : last + 1 - first = n)
    (hb : first ≤ last + 1) (he : n < fuel) :
    wp (addPages P type (BitVec.ofNat 64 (4096 * last)) fuel (BitVec.ofNat 64 (4096 * first)))
      (fun _ d' => ∃ events, d'.log = events ++ d.log ∧ (registered events).Perm (List.range' first n))
      (fun _ _ => False) d := by
  induction n generalizing first fuel d with
  | zero =>
    cases fuel with
    | zero => omega
    | succ fuel =>
      have done : ¬ BitVec.ofNat 64 (4096 * first) ≤ BitVec.ofNat 64 (4096 * last) := by
        rw [BitVec.le_def, BitVec.toNat_ofNat, BitVec.toNat_ofNat]
        omega
      rw [addPages, if_neg done]
      exact ⟨[], rfl, .refl _⟩
  | succ n ih =>
    cases fuel with
    | zero => omega
    | succ fuel =>
      have more : BitVec.ofNat 64 (4096 * first) ≤ BitVec.ofNat 64 (4096 * last) := by
        rw [BitVec.le_def, BitVec.toNat_ofNat, BitVec.toNat_ofNat]
        omega
      have step : BitVec.ofNat 64 (4096 * first) + pageSize = BitVec.ofNat 64 (4096 * (first + 1)) := by
        apply BitVec.eq_of_toNat_eq
        rw [BitVec.toNat_add, BitVec.toNat_ofNat, BitVec.toNat_ofNat, show pageSize.toNat = 4096 from rfl]
        omega
      rw [addPages, if_pos more, wp_bind]
      refine wp_addRawMd accepts fun phys => ?_
      rw [step]
      refine wp_mono ?_ (fun _ _ none => none) (ih (by omega) (by omega) (by omega))
      rintro _ d' ⟨events, log, perm⟩
      refine ⟨events ++ [.call 0 (.addMdl ⟨phys, BitVec.ofNat 64 (4096 * first), type⟩) success], ?_, ?_⟩
      · rw [log, List.append_assoc]
        rfl
      · have page : registered [.call 0 (.addMdl ⟨phys, BitVec.ofNat 64 (4096 * first), type⟩) success] = [first] := by
          simp only [registered, List.filterMap_cons, List.filterMap_nil, BitVec.toNat_ofNat]
          congr 1
          omega
        rw [registered_append, page, List.range'_succ]
        exact (List.perm_append_comm).trans (perm.cons first)

/-- No page is after the last page of the address space: the loop does not end. -/
theorem addPages_hangs {type execS : Word} (hal : execS.toNat % 4096 = 0) (fuel : Nat) :
    wp (addPages P type (BitVec.ofNat 64 (4096 * (2 ^ 52 - 1))) fuel execS) (fun _ _ => False)
      (fun e _ => e = .hangs) d := by
  induction fuel generalizing execS d with
  | zero => exact rfl
  | succ fuel ih =>
    have more : execS ≤ BitVec.ofNat 64 (4096 * (2 ^ 52 - 1)) := by
      have hbo := execS.isLt
      rw [BitVec.le_def, BitVec.toNat_ofNat]
      omega
    have hal' : (execS + pageSize).toNat % 4096 = 0 := by
      rw [BitVec.toNat_add, show pageSize.toNat = 4096 from rfl]
      omega
    rw [addPages, if_pos more, wp_bind]
    exact wp_addRawMd accepts fun phys => ih hal'

end

/-! ## Segments -/

/-- Rounding down to a page. -/
theorem and_page {x : Word} {a : Nat} (hv : x.toNat = a) :
    x &&& ~~~(pageSize - 1) = BitVec.ofNat 64 (4096 * (a / 4096)) := by
  apply BitVec.eq_of_toNat_eq
  have hbo := x.isLt
  have hr := toNat_and_not x 12
  rw [show BitVec.ofNat 64 (2 ^ 12 - 1) = pageSize - 1 from rfl] at hr
  rw [hr, BitVec.toNat_ofNat, hv]
  omega

variable {instr : LoadInstr} {page : Nat}

theorem exec_offset (hp : segmentEnd module instr < 2 ^ 64) :
    (module.exec + instr.memOffset).toNat = segmentStart module instr ∧
      (module.exec + instr.memOffset + instr.memsz).toNat = segmentEnd module instr := by
  simp only [segmentEnd, segmentStart, BitVec.toNat_add] at *
  omega

/-- The segment does not reach into the last page of the address space. -/
def Ends (module : Binary) (instr : LoadInstr) : Prop := segmentEnd module instr / 4096 < 2 ^ 52 - 1

section

variable (accepts : ∀ log request, P.callVmmOnCore log 0 request = success)

include accepts

variable {i : Nat} {instr : LoadInstr}

theorem wp_addSegment (here : module.ef.loadInstr[i]? = some instr)
    (hp : segmentEnd module instr < 2 ^ 64) (ends : Ends module instr) (hpt : 2 ^ 52 < P.patience) :
    wp (addSegment P module i) (fun _ d' => ∃ events, d'.log = events ++ d.log ∧
      (registered events).Perm (segmentPages module instr)) (fun _ _ => False) d := by
  obtain ⟨first, last⟩ := exec_offset hp
  have ho : segmentStart module instr ≤ segmentEnd module instr := Nat.le_add_right _ _
  have hpa := Nat.div_le_div_right (c := 4096) ho
  simp only [addSegment, here]
  rw [and_page first, and_page last]
  exact wp_addPages accepts ends rfl (by omega) (by omega)

theorem addSegment_hangs (here : module.ef.loadInstr[i]? = some instr)
    (hp : segmentEnd module instr < 2 ^ 64) (he : ¬ Ends module instr) :
    wp (addSegment P module i) (fun _ _ => False) (fun e _ => e = .hangs) d := by
  obtain ⟨first, last⟩ := exec_offset hp
  have top : segmentEnd module instr / 4096 = 2 ^ 52 - 1 := by
    simp only [Ends] at he
    omega
  simp only [addSegment, here]
  rw [and_page first, and_page last, top]
  refine addPages_hangs accepts ?_ _
  rw [BitVec.toNat_ofNat]
  omega

/-- All segments are told about, or the call does not return. -/
theorem wp_addModule (hpa : 2 ^ 52 < P.patience)
    (hp : ∀ instr ∈ module.ef.loadInstr, segmentEnd module instr < 2 ^ 64) :
    wp (privateAddMdToMemoryManager P module) (fun _ d' => (∃ events, d'.log = events ++ d.log ∧
        (registered events).Perm (module.ef.loadInstr.flatMap (segmentPages module))) ∧
        ∀ instr ∈ module.ef.loadInstr, Ends module instr)
      (fun _ _ => ∃ instr ∈ module.ef.loadInstr, ¬ Ends module instr) d := by
  have at_ {i : Nat} (less : i < module.ef.loadInstr.length) :
      module.ef.loadInstr[i]? = some module.ef.loadInstr[i] := List.getElem?_eq_getElem less
  refine wp_loop (fun i t => (∃ events, t.log = events ++ d.log ∧
    (registered events).Perm ((module.ef.loadInstr.take i).flatMap (segmentPages module))) ∧
    ∀ instr ∈ module.ef.loadInstr.take i, Ends module instr) ⟨⟨[], rfl, .refl _⟩, by simp⟩ ?_ ?_
  · rintro i t less ⟨⟨events, log, perm⟩, hbe⟩
    have here := at_ less
    have hm := List.getElem_mem less
    have next : module.ef.loadInstr.take (i + 1) = module.ef.loadInstr.take i ++ [module.ef.loadInstr[i]] := by
      rw [List.take_add_one, here, Option.toList_some]
    by_cases ends : Ends module module.ef.loadInstr[i]
    · refine wp_mono ?_ (fun _ _ none => none.elim) (wp_addSegment accepts here (hp _ hm) ends hpa)
      rintro _ d' ⟨more, log', perm'⟩
      refine ⟨⟨more ++ events, by rw [log', log, List.append_assoc], ?_⟩, ?_⟩
      · rw [registered_append, next, List.flatMap_append, List.flatMap_singleton]
        exact (List.perm_append_comm).trans (perm.append perm')
      · rw [next]
        intro instr htk
        obtain old | new := List.mem_append.mp htk
        · exact hbe instr old
        · rw [List.mem_singleton.mp new]
          exact ends
    · exact wp_mono (fun _ _ none => none.elim) (fun _ _ _ => ⟨_, hm, ends⟩)
        (addSegment_hangs accepts here (hp _ hm) ends)
  · intro t
    rw [List.take_length]
    exact id

end

/-! ## Pages -/

theorem mem_segmentPages : page ∈ segmentPages module instr ↔
    segmentStart module instr / 4096 ≤ page ∧ page ≤ segmentEnd module instr / 4096 := by
  have ho := Nat.div_le_div_right (c := 4096) (show segmentStart module instr ≤ segmentEnd module instr from
    Nat.le_add_right _ _)
  rw [segmentPages, List.mem_range'_1]
  omega

/-- The page after a segment that ends with a page is registered for it, too. -/
theorem meets_iff (hfi : instr.memsz ≠ 0) : Meets module instr page ↔
    page ∈ segmentPages module instr ∧ 4096 * page ≠ segmentEnd module instr := by
  have size : 0 < instr.memsz.toNat := by
    have : instr.memsz.toNat ≠ 0 := fun zero => hfi (BitVec.eq_of_toNat_eq zero)
    omega
  rw [mem_segmentPages, Meets]
  simp only [segmentEnd]
  omega

theorem pagesApart_iff {x y : LoadInstr} :
    PagesApart module x y ↔ (segmentPages module x).Disjoint (segmentPages module y) := by
  have first := Nat.div_le_div_right (c := 4096) (show segmentStart module x ≤ segmentEnd module x from Nat.le_add_right _ _)
  have hse := Nat.div_le_div_right (c := 4096) (show segmentStart module y ≤ segmentEnd module y from Nat.le_add_right _ _)
  constructor
  · intro hap page inX inY
    rw [mem_segmentPages] at inX inY
    simp only [PagesApart] at hap
    omega
  · intro hd
    by_contra hc
    simp only [PagesApart] at hc
    have hs := @hd (max (segmentStart module x / 4096) (segmentStart module y / 4096))
    rw [mem_segmentPages, mem_segmentPages] at hs
    exact hs (by omega) (by omega)

/-- The pages are right exactly if segments do not end with a page and share none. -/
theorem pages_exact_iff (hfi : ∀ instr ∈ module.ef.loadInstr, instr.memsz ≠ 0) :
    ((module.ef.loadInstr.flatMap (segmentPages module)).Nodup ∧
      ∀ page, page ∈ module.ef.loadInstr.flatMap (segmentPages module) ↔
        ∃ instr ∈ module.ef.loadInstr, Meets module instr page) ↔
      (∀ instr ∈ module.ef.loadInstr, segmentEnd module instr % 4096 ≠ 0) ∧
        module.ef.loadInstr.Pairwise (PagesApart module) := by
  have hn : (module.ef.loadInstr.flatMap (segmentPages module)).Nodup ↔ module.ef.loadInstr.Pairwise (PagesApart module) := by
    rw [List.nodup_flatMap]
    constructor
    · exact fun both => both.2.imp pagesApart_iff.mpr
    · exact fun hap => ⟨fun _ _ => List.nodup_range' _, hap.imp pagesApart_iff.mp⟩
  rw [hn]
  constructor
  · rintro ⟨hap, same⟩
    refine ⟨fun instr hm hal => ?_, hap⟩
    -- The page after the segment meets another one, which it then shares.
    have last : segmentEnd module instr / 4096 ∈ segmentPages module instr := by
      rw [mem_segmentPages]
      exact ⟨Nat.div_le_div_right (Nat.le_add_right _ _), Nat.le_refl _⟩
    obtain ⟨ho, hm', hme⟩ := (same _).mp (List.mem_flatMap.mpr ⟨instr, hm, last⟩)
    obtain ⟨hs, hno⟩ := (meets_iff (hfi ho hm')).mp hme
    by_cases heq : instr = ho
    · rw [← heq] at hno
      omega
    · have hsy : Std.Symm (PagesApart module) := ⟨fun _ _ hap => Or.symm hap⟩
      exact pagesApart_iff.mp (hap.forall hm hm' heq) last hs
  · rintro ⟨hu, hap⟩
    refine ⟨hap, fun page => ?_⟩
    rw [List.mem_flatMap]
    refine exists_congr fun instr => and_congr_right fun hm => ?_
    rw [meets_iff (hfi instr hm)]
    refine (and_iff_left ?_).symm
    have := hu instr hm
    omega

/-! ## Main result -/

/-- Segments that the page loop gets right: they share no page, do not end with a page and end before the last page of
the address space. -/
structure Tight (module : Binary) : Prop where
  ends : ∀ instr ∈ module.ef.loadInstr, Ends module instr
  unaligned : ∀ instr ∈ module.ef.loadInstr, segmentEnd module instr % 4096 ≠ 0
  apart : module.ef.loadInstr.Pairwise (PagesApart module)

/-- The VMM is told exactly about the pages of the segments if and only if the segments are tight. -/
theorem described_exactly_iff (accepts : ∀ log request, P.callVmmOnCore log 0 request = success)
    (patient : 2 ^ 52 < P.patience) (placed : ∀ instr ∈ module.ef.loadInstr, segmentEnd module instr < 2 ^ 64)
    (filled : ∀ instr ∈ module.ef.loadInstr, instr.memsz ≠ 0) : Exact P module d ↔ Tight module := by
  have outcome := @wp_addModule P module d accepts patient placed
  have pages := pages_exact_iff filled
  constructor
  · intro right
    obtain ⟨_, d', returns, events, log, nodup, same⟩ := exists_of_wp right
    rw [wp_of_ok returns] at outcome
    obtain ⟨⟨events', log', perm⟩, ends⟩ := outcome
    cases List.append_cancel_right (log.symm.trans log')
    obtain ⟨unaligned, apart⟩ := pages.mp ⟨perm.nodup_iff.mp nodup, fun page => perm.mem_iff.symm.trans (same page)⟩
    exact ⟨ends, unaligned, apart⟩
  · intro tight
    obtain ⟨nodup, same⟩ := pages.mpr ⟨tight.unaligned, tight.apart⟩
    refine wp_mono ?_ ?_ outcome
    · rintro _ d' ⟨⟨events, log, perm⟩, -⟩
      exact ⟨events, log, perm.nodup_iff.mpr nodup, fun page => perm.mem_iff.trans (same page)⟩
    · rintro _ _ ⟨instr, member, endless⟩
      exact endless (tight.ends instr member)

/-- A platform on which every call of the VMM succeeds. -/
def accepting : Platform where
  numCpus := 1
  alloc _ _ _ := 0x100000
  virtToPhys _ virt := virt
  getRsdp _ := 0
  callVmmOnCore _ _ _ := success
  memory _ := fun _ => 0
  relocate _ := success
  patience := 2 ^ 52 + 1

/-- A module at `0x100000` with a code segment of `size` bytes and a data segment a page further on. -/
def twoSegments (size : Word) : Binary :=
  { exec := 0x100000, ef := { loadInstr := [⟨5, 0, 0, size, size, 0⟩, ⟨6, 0x2000, 0x2000, 0x800, 0x800, 0x2000⟩] } }

theorem described_exactly_two : Tight (twoSegments 0x1234) ∧ Exact accepting (twoSegments 0x1234) {} := by
  have tight : Tight (twoSegments 0x1234) := by
    refine ⟨?_, by decide, ?_⟩
    · show ∀ instr ∈ _, segmentEnd (twoSegments 0x1234) instr / 4096 < 2 ^ 52 - 1
      decide
    · refine .cons (fun instr member => .inl ?_) (List.pairwise_singleton _ _)
      rw [List.mem_singleton.mp member]
      decide
  refine ⟨tight, ?_⟩
  rw [described_exactly_iff (fun _ _ => rfl) (by decide) (by decide) (by decide)]
  exact tight

/-- A code segment that ends with a page: the first page of the data segment is registered twice. -/
theorem shared_page_twice : ∃ d', privateAddMdToMemoryManager accepting (twoSegments 0x2000) {} = .ok () d' ∧
    registered d'.log = [0x102, 0x102, 0x101, 0x100] ∧ ¬ Exact accepting (twoSegments 0x2000) {} := by
  have run : ∃ d', privateAddMdToMemoryManager accepting (twoSegments 0x2000) {} = .ok () d' ∧
      registered d'.log = [0x102, 0x102, 0x101, 0x100] := ⟨_, rfl, rfl⟩
  obtain ⟨d', returns, pages⟩ := run
  refine ⟨d', returns, pages, fun right => ?_⟩
  rw [Exact, wp_of_ok returns] at right
  obtain ⟨events, log, nodup, -⟩ := right
  rw [List.append_nil] at log
  rw [← log, pages] at nodup
  exact absurd nodup (by decide)

end Gevisor.Verified.ModuleDescriptions
