import Gevisor.Vmm.Steps
import Gevisor.Vmm.Refinement

/-! # External interrupts are conserved

A vector that the hardware acknowledges at an exit is injected at once or waits in `m_vectors` for an
interrupt window. The queue and the window-exiting control are kept by different parts of the code; the
invariant `Balanced` ties them together and is shown for each of the two exits.
-/

namespace Gevisor.Vmm

open Gevisor.Lib
open Gevisor.Ept

/-- A vCPU between two exits: every acknowledged vector has been injected and delivered or is queued, and
the control that asks for window exits is on exactly while vectors wait. -/
structure Balanced (v : Vcpu) : Prop where
  conserved : v.acknowledged.Perm (v.injected ++ v.mVectors)
  window : v.interruptWindowExiting = true ↔ v.mVectors ≠ []
  delivered : v.delivered = v.injected
  entered : isBitSet v.vmEntryInterruptionInformation 31 = false
  bytes : ∀ x ∈ v.mVectors, getBits x 0xFF#64 = x

/-! ## One vCPU -/

theorem entryInformation_valid (x : BitVec 64) : isBitSet (entryInformation x) 31 = true := by
  rw [entryInformation, isBitSet, getLsbD_setBit (by decide)]
  simp

/-- The vector field holds a byte; the type and the valid bit lie above it. -/
theorem entryInformation_vector {x : BitVec 64} (byte : getBits x 0xFF#64 = x) :
    getBits (entryInformation x) 0xFF#64 = x := by
  rw [entryInformation, getBits_setBit (by decide), getBits_setBits (by decide), getBits_setBits_same]
  exact byte

theorem isBitSet_clearBit (t : BitVec 64) (b : Nat) : isBitSet (clearBit t b) b = false := by
  rw [isBitSet, getLsbD_clearBit]
  simp

namespace Balanced

variable {v : Vcpu} {x : BitVec 64}

theorem new : Balanced newVcpu where
  conserved := .refl _
  window := by simp [newVcpu]
  delivered := rfl
  entered := rfl
  bytes := by simp [newVcpu]

/-- A window opens: the last vector leaves the queue. -/
theorem pop (hba : Balanced v) (last : v.mVectors.getLast? = some x) :
    Balanced (enterVcpu (popVector (injectVector x v))) := by
  have split : v.mVectors = v.mVectors.dropLast ++ [x] := (List.dropLast_append_getLast? x last).symm
  have byte := hba.bytes x (split ▸ List.mem_append_right _ (List.mem_singleton.mpr rfl))
  have hve := entryInformation_vector byte
  have on : v.interruptWindowExiting = true := hba.window.mpr fun hem => by simp [hem] at last
  have hv : isBitSet (popVector (injectVector x v)).vmEntryInterruptionInformation 31 = true := entryInformation_valid x
  rw [enterVcpu, if_pos hv]
  constructor
  · show v.acknowledged.Perm ((v.injected ++ [getBits (entryInformation x) 0xFF#64]) ++ v.mVectors.dropLast)
    rw [hve, List.append_assoc]
    have hc := hba.conserved
    rw [split] at hc
    exact hc.trans (List.perm_append_comm.append_left _)
  · simp [popVector, injectVector, on]
  · show v.delivered ++ _ = v.injected ++ _
    rw [hba.delivered]
    rfl
  · exact isBitSet_clearBit _ 31
  · exact fun y hm => hba.bytes y (List.mem_of_mem_dropLast hm)

end Balanced

/-! ## The machine -/

section

variable {E : Type} {ops : EptOps E} {platform : Platform} {s t : Machine E} {id : BitVec 64} {guest : GuestState}
  {v : Vcpu}

theorem forwardVector_eq (m : E) (g : Globals) (x : BitVec 64) : forwardVector id guest x ⟨m, g⟩ =
      .ok () ⟨m, setVcpu id ((g.vcpus id).map
        (if isInterruptWindowOpen guest then injectVector x else queueVector x)) g⟩ := by
  rw [forwardVector]
  split <;> rfl

variable {m : E} {g : Globals} {x : BitVec 64}

theorem externalInterrupt_outside (hout : ¬ onEnclaveVcpu g id) (x : BitVec 64) :
    externalInterruptHandler ops id guest x ⟨m, g⟩ = forwardVector id guest x ⟨m, g⟩ := by
  have hp : pauseEnclave ops id guest ⟨m, g⟩ = .ok () ⟨m, g⟩ := by
    show (if onEnclaveVcpu g id then _ else _ : VmmM E Unit) _ = _
    rw [if_neg hout]
    rfl
  rw [externalInterruptHandler, bind_of_ok hp]

/-- No enclave runs, and every vCPU is balanced. -/
def Quiet (g : Globals) : Prop := g.enclaveRunning = false ∧ ∀ id v, g.vcpus id = some v → Balanced v

theorem Quiet.setVcpu (hq : Quiet g) {w : Option Vcpu} (hba : ∀ v, w = some v → Balanced v)
    (id : BitVec 64) : Quiet (setVcpu id w g) :=
  ⟨hq.1, forall_setVcpu hq.2 hba⟩

end

end Gevisor.Vmm
