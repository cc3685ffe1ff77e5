import Gevisor.Verified.Interrupts
import Gevisor.Verified.IdentityMapping
import Gevisor.Vmm.Invariants

/-! # The enclave channel

`find_enclave_channel`, which would map the channel, is never called. `channel_map` keeps its initial
value, and an external interrupt on the vCPU that runs the enclave dereferences it.
-/

namespace Gevisor.Vmm

open Gevisor.Lib
open Gevisor.Ept

/-- The channel of the code's machine is what it was at the start. -/
theorem channelMap_fixed {mm : PagePool} {platform : Platform} {channel : Option Nat}
    {word : Nat → Fin 512 → Entry} {mem : GuestMem} {es : List Event} {s : Machine Mmap}
    (hre : run (codeStep platform mm) (boot mm channel word mem) es = some s) : s.g.channelMap = channel := by
  obtain ⟨hre', -⟩ := run_abstract hre
  rcases run_sound hre' with start | running
  · exact congrArg (fun t => t.g.channelMap) start
  · exact running.holds.configured.channelMap

section

variable {E : Type} {ops : EptOps E} {m : E} {g : Globals} {id : BitVec 64} {guest : GuestState}

theorem readEnclaveChannel_unmapped (hu : g.channelMap = none) (cr3 : Nat) (lapic : Bool) :
    readEnclaveChannel ops cr3 lapic ⟨m, g⟩ = .error (.fault .nullDereference) ⟨m, g⟩ := by
  rw [readEnclaveChannel, bind_of_ok (show getG _ = .ok g _ from rfl), hu]
  rfl

theorem externalInterrupt_unmapped (hu : g.channelMap = none) (he : onEnclaveVcpu g id) (x : BitVec 64) :
    externalInterruptHandler ops id guest x ⟨m, g⟩ = .error (.fault .nullDereference) ⟨m, g⟩ := by
  have hp : pauseEnclave ops id guest ⟨m, g⟩ = .error (.fault .nullDereference) ⟨m, g⟩ := by
    show (if onEnclaveVcpu g id then _ else _ : VmmM E Unit) _ = _
    rw [if_pos he]
    exact bind_of_error (readEnclaveChannel_unmapped hu _ _) _
  exact bind_of_error hp _

end

/-- In every reachable state, an external interrupt finds the channel mapped, or does not look at it,
exactly if it does not come in on the vCPU that runs the enclave. -/
theorem channel_read_safe_iff (mm : PagePool) (platform : Platform) (word : Nat → Fin 512 → Entry)
    (mem : GuestMem) (es : List Event) (s : Machine Mmap)
    (reach : run (codeStep platform mm) (boot mm none word mem) es = some s) (id : BitVec 64) (guest : GuestState)
    (information : BitVec 64) :
    (∀ s', handle (mmapOps mm platform.mtrrs) id guest (.externalInterrupt information)
        { s with g := onExit id guest (.externalInterrupt information) s.g } ≠ .error (.fault .nullDereference) s') ↔
      ¬ (s.g.enclaveRunning = true ∧ id = s.g.enclaveVcpuid.signExtend 64) := by
  have unmapped : (onExit id guest (.externalInterrupt information) s.g).channelMap = none := channelMap_fixed reach
  constructor
  · intro safe enclave
    exact safe _ (externalInterrupt_unmapped unmapped enclave _)
  · intro outside s' fault
    have elsewhere : ¬ onEnclaveVcpu (onExit id guest (.externalInterrupt information) s.g) id := outside
    rw [handle, externalInterrupt_outside elsewhere, forwardVector_eq] at fault
    cases fault

/-- An enclave is started and entered. -/
def enclaveEntered : List Event := oneEinit ++ [.exit 0 default (.eptViolation 4 0x200000 0x200000)]

theorem channel_read_faults :
    ∃ s s', run (codeStep default default) (boot default none (fun _ _ => 0) fun _ _ => 0) enclaveEntered = some s ∧
      handle (mmapOps default (default : Platform).mtrrs) 0 default (.externalInterrupt 0x20)
        { s with g := onExit 0 default (.externalInterrupt 0x20) s.g } = .error (.fault .nullDereference) s' := by
  have observed : (run (abstractStep default) (bootAbstract none fun _ _ => 0) enclaveEntered).map
      (fun t => (t.g.enclaveRunning, t.g.enclaveVcpuid)) = some (true, 0) := by decide +kernel
  obtain ⟨s, reach, enclave, -⟩ := exists_run _ observed default fun _ _ => 0
  obtain ⟨runs, onZero⟩ := Prod.mk.inj enclave
  have unmapped : (onExit 0 default (.externalInterrupt 0x20) s.g).channelMap = none := channelMap_fixed reach
  have inside : onEnclaveVcpu (onExit 0 default (.externalInterrupt 0x20) s.g) 0 := by
    refine ⟨runs, ?_⟩
    rw [show (onExit 0 default (.externalInterrupt 0x20) s.g).enclaveVcpuid = 0 from onZero]
    decide
  exact ⟨s, _, reach, externalInterrupt_unmapped unmapped inside _⟩

theorem channel_read_safe_einit :
    ∃ s, run (codeStep default default) (boot default none (fun _ _ => 0) fun _ _ => 0) oneEinit = some s ∧
      ∀ s', handle (mmapOps default (default : Platform).mtrrs) 0 default (.externalInterrupt 0x20)
        { s with g := onExit 0 default (.externalInterrupt 0x20) s.g } ≠ .error (.fault .nullDereference) s' := by
  have observed : (run (abstractStep default) (bootAbstract none fun _ _ => 0) oneEinit).map
      (·.g.enclaveRunning) = some false := by decide +kernel
  obtain ⟨s, reach, idle, -⟩ := exists_run _ observed default fun _ _ => 0
  refine ⟨s, reach, (channel_read_safe_iff _ _ _ _ _ s reach 0 default 0x20).mpr fun enclave => ?_⟩
  exact Bool.false_ne_true (idle.symm.trans enclave.1)

end Gevisor.Vmm
