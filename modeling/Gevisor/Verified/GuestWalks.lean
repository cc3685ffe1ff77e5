import Gevisor.Host.GuestWalk
import Gevisor.Vmm.Paging

/-! # Two walks through a guest's page tables

The base hypervisor's walk, which throws where an entry is missing, and that of the paging utilities, which
returns zero there.
-/

namespace Gevisor.Verified.GuestWalks

open Lib Ept Host

variable {mm : PagePool} {mem : Memory} {A : AddrMap} {t : Buddy memMapPoolK} {s : Host} {virt cr3 : Nat}

theorem upper_ne_zero_iff : upper cr3 12 ≠ 0 ↔ 4096 ≤ cr3 := by
  simp only [upper]
  omega

/-- The two walks from one state. A check of the base hypervisor's walk that fails is one for a present entry, as
long as `cr3` names a table and the pool has pages for the four tables. Both walks leave every translation of the
host and its map pool as they found them. -/
theorem custom_walk_agrees (holds : Holds mm A t s) (named : cr3 ≠ 0) (nonNull : virt ≠ 0) (supply : Supplies 4 t) :
    wp (virtToPhysWithCr3 mm mem virt cr3) (fun p s' => Holds mm A t s' ∧
        wp (customVirtToPhysWithCr3 mm mem virt cr3) (fun p' _ => p' = p) (fun _ _ => False) s)
      (fun e s' => (Holds mm A t s' ∧ e.isExn = true) ∧ (e = failFast → 4096 ≤ cr3 →
        wp (customVirtToPhysWithCr3 mm mem virt cr3) (fun p' _ => p' = 0) (fun _ _ => False) s)) s ∧
      wp (customVirtToPhysWithCr3 mm mem virt cr3) (fun _ s' => Holds mm A t s')
        (fun e s' => Holds mm A t s' ∧ e.isExn = true) s := by
  rw [virtToPhysWithCr3_eq, customVirtToPhysWithCr3_eq]
  simp only [wp_bind, wp_expects, if_pos named, if_pos nonNull]
  by_cases table : upper cr3 12 = 0
  · rw [table]
    constructor
    · refine wp_mono (fun _ _ ends => ends.2.elim) (fun e s' ends => ?_) (throughTables_null s holds)
      exact ⟨⟨ends.1, ends.2.1⟩, fun _ large => absurd table (upper_ne_zero_iff.mpr large)⟩
    · exact wp_mono (fun _ _ ends => ends.1) (fun _ _ ends => ⟨ends.1, ends.2.1⟩) (throughTables_null s holds)
  have strict := @realizes_strict mm mem virt _ table (lower_upper cr3)
  have lenient := @realizes_lenient mm mem virt _ table (lower_upper cr3)
  by_cases ready : Ready A (guestWalk mem virt (upper cr3 12)).tables t
  · have gives := lenient.ready A t ready s holds
    refine ⟨?_, wp_mono (fun _ _ ends => ends.1) (fun _ _ ends => ends.2.2.elim) gives⟩
    refine wp_mono ?_ ?_ (strict.ready A t ready s holds)
    · rintro p s' ⟨holds', result⟩
      refine ⟨holds', wp_mono (fun p' _ ends => ?_) (fun _ _ ends => ends.2.2) gives⟩
      -- With a missing entry this walk would have thrown.
      cases frame : (guestWalk mem virt (upper cr3 12)).frame with
      | none =>
        rw [frame] at result
        exact result.elim
      | some found =>
        rw [frame] at result ends
        exact ends.2.trans result.symm
    · rintro e s' ⟨holds', exn, missing⟩
      refine ⟨⟨holds', exn⟩, fun _ _ => wp_mono (fun p' _ ends => ?_) (fun _ _ ends => ends.2.2) gives⟩
      rw [missing] at ends
      exact ends.2
  · have enough := supply.mono (guestWalk_tables_le mem virt (upper cr3 12))
    constructor
    · refine wp_mono (fun _ _ ends => ends.2.elim) ?_ (strict.fails A t ready s holds)
      rintro e s' ⟨holds', exn, cause⟩
      exact ⟨⟨holds', exn⟩, fun check _ => absurd enough (cause check)⟩
    · exact wp_mono (fun _ _ ends => ends.1) (fun _ _ ends => ⟨ends.1, ends.2.1⟩) (lenient.fails A t ready s holds)

theorem supplies_free : Supplies 4 (.free : Buddy memMapPoolK) := ⟨_, _, rfl, _, _, rfl, _, _, rfl, _, _, rfl, trivial⟩

/-- A page directory pointer table at 0x2000 whose first entry maps 1G. -/
def hugeTables : Memory := fun page i =>
  if page = 0x1000 ∧ i = 0 then 0x2003#64 else if page = 0x2000 ∧ i = 0 then 0x40000083#64 else 0

theorem custom_walk_agrees_huge : translated 0x1234 (0x40000000, .pdpt) = 0x40001234 ∧
    (guestWalk hugeTables 0x1234 0x1000).frame = some (0x40000000, .pdpt) ∧
    wp (virtToPhysWithCr3 default hugeTables 0x1234 0x1000) (fun p s' => Holds default (fun _ => none) .free s' ∧
        wp (customVirtToPhysWithCr3 default hugeTables 0x1234 0x1000) (fun p' _ => p' = p) (fun _ _ => False)
          (Host.init default fun _ _ => 0))
      (fun e s' => (Holds default (fun _ => none) .free s' ∧ e.isExn = true) ∧ (e = failFast → 4096 ≤ 0x1000 →
        wp (customVirtToPhysWithCr3 default hugeTables 0x1234 0x1000) (fun p' _ => p' = 0) (fun _ _ => False)
          (Host.init default fun _ _ => 0)))
      (Host.init default fun _ _ => 0) ∧
    wp (customVirtToPhysWithCr3 default hugeTables 0x1234 0x1000) (fun _ s' => Holds default (fun _ => none) .free s')
      (fun e s' => Holds default (fun _ => none) .free s' ∧ e.isExn = true) (Host.init default fun _ _ => 0) :=
  ⟨by decide, by decide, custom_walk_agrees (holds_init default fun _ _ => 0) (by decide) (by decide) supplies_free⟩

/-! ## The walk without maps

The exit handlers are modelled with a translation that reads guest memory directly. It is the walk above.
-/

theorem tableWord_of_frame {page : Nat} (hbo : page < 2 ^ 52) (hal : lower page 12 = 0) (i : Fin 512) :
    tableWord mem page i = mem page i := by
  have same : upper page 12 % 2 ^ 52 / 4096 * 4096 = page := by
    simp only [upper, lower] at hal ⊢
    omega
  rw [tableWord, same]

variable (pte : Entry) (l : Level)

theorem tableWord_physAddr (i : Fin 512) :
    tableWord mem (Pte.physAddr pte) i = mem (Pte.physAddr pte) i :=
  tableWord_of_frame (Pte.physAddr_lt pte) (Pte.lower_physAddr pte) i

/-- Where a walk ends, with zero for an address that is not mapped. -/
def reached (virt : Nat) (o : Outcome) : Nat := (o.frame.map (translated virt)).getD 0

theorem reached_look (page : Nat) (next : Entry → Outcome) :
    reached virt (look mem virt l page next) =
      if Missing (tableWord mem page (l.index virt)) then 0 else reached virt (next (tableWord mem page (l.index virt))) := by
  simp only [look, reached]
  split <;> rfl

variable {rest : Except Err Nat}

theorem ok_of_present {p : Nat} (ends : rest = .ok p) :
    (if (decide (Pte.physAddr pte = 0) || !Pte.present pte) = true then .ok 0 else rest) =
      (.ok (if Missing pte then 0 else p) : Except Err Nat) := by
  have hmis : (decide (Pte.physAddr pte = 0) || !Pte.present pte) = true ↔ Missing pte := by
    simp only [Missing, Bool.or_eq_true, decide_eq_true_eq, Bool.not_eq_true']
  by_cases gone : Missing pte
  · rw [if_pos (hmis.mpr gone), if_pos gone]
  · rw [if_neg (mt hmis.mp gone), if_neg gone, ends]

theorem ok_of_ps {o : Outcome} (ends : rest = .ok (reached virt o)) :
    (if Pte.ps pte then .ok (translated virt (Pte.physAddr pte, l)) else rest) =
      (.ok (reached virt (if Pte.ps pte then ⟨0, some (Pte.physAddr pte, l)⟩ else o)) : Except Err Nat) := by
  by_cases last : Pte.ps pte = true
  · rw [if_pos last, if_pos last]
    rfl
  · rw [if_neg last, if_neg last, ends]

theorem reached_guestWalk (hnn : virt ≠ 0) (hl : 4096 ≤ cr3) (hbo : cr3 < 2 ^ 52) :
    Vmm.customVirtToPhysWithCr3 mem virt cr3 = .ok (reached virt (guestWalk mem virt (upper cr3 12))) := by
  have ht : Vmm.mapsPage (upper cr3 12) = true := by
    rw [Vmm.mapsPage, decide_eq_true (upper_ne_zero_iff.mpr hl), decide_eq_true (lower_upper cr3)]
    rfl
  have root : tableWord mem (upper cr3 12) (Level.pml4.index virt) = mem (upper cr3 12) (Level.pml4.index virt) := by
    refine tableWord_of_frame ?_ (lower_upper cr3) _
    simp only [upper]
    omega
  rw [Vmm.customVirtToPhysWithCr3, if_neg (by omega), if_neg hnn, ht]
  rw [guestWalk, reached_look, root]
  refine ok_of_present _ ?_
  rw [reached_look, tableWord_physAddr]
  refine ok_of_present _ (ok_of_ps _ .pdpt ?_)
  rw [reached_look, tableWord_physAddr]
  refine ok_of_present _ (ok_of_ps _ .pd ?_)
  rw [reached_look, tableWord_physAddr]
  exact ok_of_present _ rfl

/-- Where its maps can be made, the walk gives what the translation without maps gives. -/
theorem custom_walk_refines (hrd : Ready A (guestWalk mem virt (upper cr3 12)).tables t) (hnn : virt ≠ 0)
    (hl : 4096 ≤ cr3) (hbo : cr3 < 2 ^ 52) :
    Restoring mm A t (customVirtToPhysWithCr3 mm mem virt cr3)
      (fun p => Vmm.customVirtToPhysWithCr3 mem virt cr3 = .ok p) (fun _ => False) := by
  intro s hh
  rw [customVirtToPhysWithCr3_eq, reached_guestWalk hnn hl hbo]
  simp only [wp_bind, wp_expects, if_pos (show cr3 ≠ 0 by omega), if_pos hnn]
  have hle := @realizes_lenient mm mem virt _ (upper_ne_zero_iff.mpr hl) (lower_upper cr3)
  refine wp_mono ?_ (fun _ _ ends => ends) (hle.ready A t hrd s hh)
  rintro p s' ⟨hh', hres⟩
  refine ⟨hh', congrArg Except.ok ?_⟩
  rw [reached]
  cases hfr : (guestWalk mem virt (upper cr3 12)).frame with
  | none =>
    rw [hfr] at hres
    exact hres.symm
  | some hf =>
    rw [hfr] at hres
    exact hres.symm

end Gevisor.Verified.GuestWalks
