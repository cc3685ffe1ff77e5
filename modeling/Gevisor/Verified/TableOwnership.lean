import Gevisor.Ept.Calls
import Gevisor.Ept.Destroy

/-! # The tables a map owns

Giving back a page that is not in use is a fault, so a run that gets to its end has given no page back
twice, and pages in use that no table names would be lost. Neither happens, and after the destructor no
page is left in use.
-/

namespace Gevisor.Verified

open Gevisor.Lib Gevisor.Ept

variable {mm : PagePool} {m : Mmap}

/-- Page `p` is a table `d` levels below the PML4, reached through entries that are no leaves. -/
inductive TableAt (mm : PagePool) (m : Mmap) : Nat → Nat → Prop
  | pml4 {p : Nat} : (m.pairs .pml4).virtAddr = some p → TableAt mm m 0 p
  | child {d p c : Nat} (i : Fin 512) : TableAt mm m d p → IsTable d (m.word p i) →
      mm.physintToVirtptr (m.word p i).physAddr = some c → TableAt mm m (d + 1) c

theorem tableAt_of_node (root : (m.pairs .pml4).virtAddr = some m.root) (q : List (Fin 512)) {p : Nat}
    (at_p : m.node mm q = some p) : TableAt mm m q.length p := by
  induction q generalizing p with
  | nil =>
    obtain rfl := Option.some.inj at_p
    exact .pml4 root
  | cons i q ih =>
    cases hp : m.node mm q with
    | none =>
      rw [node_cons, slot_of_missing hp, if_neg (not_isTable_zero _)] at at_p
      cases at_p
    | some c =>
      rw [node_cons, slot_of_node hp] at at_p
      split at at_p
      · next ht => exact .child i (ih hp) ht at_p
      · cases at_p

theorem node_of_tableAt (root : (m.pairs .pml4).virtAddr = some m.root) {d p : Nat} (ht : TableAt mm m d p) :
    ∃ q, q.length = d ∧ m.node mm q = some p := by
  induction ht with
  | pml4 hcu => exact ⟨[], rfl, root.symm.trans hcu⟩
  | child i _ hn hf ih =>
    obtain ⟨q, rfl, at_p⟩ := ih
    refine ⟨i :: q, rfl, ?_⟩
    rw [node_cons, slot_of_node at_p, if_pos hn, hf]

/-- However a map is used, the pages in use are its tables, no page is given back twice, and the
destructor gives back the rest. -/
theorem tables_freed_once {word : Nat → Fin 512 → Entry} {calls : List MapCall}
    (proper : AllSteps (MapCall.step mm) (fun m call => call.Proper mm m) (Mmap.init mm word) calls) :
    ∃ m, run (MapCall.step mm) (Mmap.init mm word) calls = some m ∧ m.live.Nodup ∧
      (∀ p, p ∈ m.live ↔ ∃ d, TableAt mm m d p) ∧ ∃ m', destroy mm m = .ok () m' ∧ m'.live = [] := by
  have progress (m : Mmap) (call : MapCall) (coherent : Coherent mm m.live m) (proper : call.Proper mm m) :
      ∃ m', MapCall.step mm m call = some m' ∧ Coherent mm m'.live m' := by
    obtain ⟨m', stepped, coherent', -⟩ := MapCall.step_spec coherent proper
    exact ⟨m', stepped, coherent'⟩
  obtain ⟨m, reach, coherent⟩ := exists_run_of_progress progress (init_bare word).1 proper
  refine ⟨m, reach, coherent.nodup, fun p => ?_, destroy_spec coherent⟩
  rw [coherent.nodes p]
  constructor
  · rintro ⟨q, at_p⟩
    exact ⟨q.length, tableAt_of_node coherent.root q at_p⟩
  · rintro ⟨d, table⟩
    obtain ⟨q, -, at_p⟩ := node_of_tableAt coherent.root table
    exact ⟨q, at_p⟩

/-- A page is mapped, unmapped and released. -/
theorem tables_freed_once_4k : ∃ m, run (MapCall.step default) (Mmap.init default fun _ _ => 0)
        [.map .size4k 0x1000 0x2000 .readWrite .writeBack, .unmap 0x1000, .release 0x1000] = some m ∧
      m.live.Nodup ∧ (∀ p, p ∈ m.live ↔ ∃ d, TableAt default m d p) ∧
      ∃ m', destroy default m = .ok () m' ∧ m'.live = [] := by
  have bare : Bare default (Mmap.init default fun _ _ => 0) := init_bare _
  refine tables_freed_once ⟨⟨by decide, by decide, by decide, fun bits found => ?_⟩,
    fun _ _ => ⟨trivial, fun _ _ => ⟨trivial, fun _ _ => trivial⟩⟩⟩
  rw [report_eq bare.1, bare.leafAt_eq] at found
  cases found

end Gevisor.Verified
