import Gevisor.Vmm.Steps
import Gevisor.Vmm.Refinement

/-! # The guest sees identity-mapped memory

Whatever the exits, each address below `MAX_PHYS_ADDR` stays mapped to itself. The conversions to 2M
pages included, handlers change access bits, the memory type and the page size of a leaf, never its
address.
-/

namespace Gevisor.Vmm

open Gevisor.Lib
open Gevisor.Ept

/-- The trivial property: what remains of `Running` is the identity map. -/
theorem closedAll_true : ClosedAll fun _ => True :=
  closedAll_map (p := fun _ => True) (fun _ _ _ => trivial) fun _ _ _ _ _ => trivial

section

variable {mm : PagePool} {platform : Platform} {channel : Option Nat} {word : Nat → Fin 512 → Entry}
  {mem : GuestMem} {es : List Event}

theorem abstract_identity {t : Machine AddrMap}
    (hre : run (abstractStep platform) (bootAbstract channel mem) es = some t) (hbt : t.g.flagEpt = true) :
    IsIdentity maxPhysAddr t.guestMap := by
  rcases run_running closedAll_true (fun _ _ _ => trivial) (fun _ _ => trivial) (fun _ => trivial) hre with
    rfl | running
  · cases hbt
  · exact running.identity

theorem code_identity {s : Machine Mmap}
    (hre : run (codeStep platform mm) (boot mm channel word mem) es = some s) (hbt : s.g.flagEpt = true) :
    Refines mm s.guestMap (leafAt mm s.guestMap) ∧ IsIdentity maxPhysAddr (leafAt mm s.guestMap) := by
  obtain ⟨hre', hcor⟩ := run_abstract hre
  exact ⟨hcor.refines hbt, abstract_identity hre' hbt⟩

/-- An operation that agrees with one on the partial function returns what that one returns. -/
theorem returns_of_simulates {α : Type} {c : MapM α} {d : EStateM Err AddrMap α} {m : Mmap} {A : AddrMap} {a : α}
    (hs : Simulates SameErr (Refines mm) c d) (href : Refines mm m A) (hret : d A = .ok a A) :
    ∃ m', c m = .ok a m' := by
  have hag := hs m A href
  rw [hret] at hag
  generalize c m = x at hag
  cases hag with
  | ok a _ => exact ⟨_, rfl⟩

/-- In every state reached after the map has been built, `from` and `virt_to_phys` answer for each
address below `MAX_PHYS_ADDR`, and the physical base with the offset in the leaf is the address. -/
theorem guestMap_stays_identity (mm : PagePool) (platform : Platform) (channel : Option Nat)
    (word : Nat → Fin 512 → Entry) (mem : GuestMem) (es : List Event) (s : Machine Mmap)
    (reach : run (codeStep platform mm) (boot mm channel word mem) es = some s) (built : s.g.flagEpt = true)
    (a : Nat) (below : a < maxPhysAddr) :
    ∃ fromBit base, (∃ m', leafFrom mm a s.guestMap = .ok fromBit m') ∧
      (∃ m', virtToPhys mm a s.guestMap = .ok base m') ∧ base + a % 2 ^ fromBit = a := by
  obtain ⟨refines, identity⟩ := code_identity reach built
  have short : a % 2 ^ 48 = a := by
    simp only [maxPhysAddr] at below
    omega
  obtain ⟨leaf, found⟩ := (identity.domain a).mpr (short.symm ▸ below)
  refine ⟨leaf.level.fromBit, leaf.entry.physAddr, ?_, ?_, ?_⟩
  · exact returns_of_simulates leafFrom_simulates refines
      (bind_of_ok (AddrMap.lookup_some found "from") fun leaf => pure leaf.level.fromBit)
  · exact returns_of_simulates virtToPhys_simulates refines
      (bind_of_ok (AddrMap.lookup_some found "virt_to_phys") fun leaf => pure leaf.entry.physAddr)
  · rw [(identity.leaf found).base, short, upper]
    exact Nat.div_add_mod' a _

end

/-- One vCPU starts an enclave. -/
def oneEinit : List Event := [.construct 0, .exit 0 { (default : GuestState) with rax := 2 } .encls]

theorem guestMap_stays_identity_einit :
    ∃ s, run (codeStep default default) (boot default none (fun _ _ => 0) fun _ _ => 0) oneEinit = some s ∧
      ∃ fromBit base, (∃ m', leafFrom default 0x3fffff s.guestMap = .ok fromBit m') ∧
        (∃ m', virtToPhys default 0x3fffff s.guestMap = .ok base m') ∧ base + 0x3fffff % 2 ^ fromBit = 0x3fffff := by
  have observed : (run (abstractStep default) (bootAbstract none fun _ _ => 0) oneEinit).map (·.g.flagEpt) =
      some true := by decide +kernel
  obtain ⟨s, reach, built, -⟩ := exists_run _ observed default fun _ _ => 0
  exact ⟨s, reach, guestMap_stays_identity _ _ _ _ _ _ s reach built _ (by decide)⟩

end Gevisor.Vmm
