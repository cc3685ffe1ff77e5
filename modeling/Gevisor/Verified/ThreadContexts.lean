import Gevisor.Runtime.ThreadContext

/-! # Code finds its thread context

The driver, `setup_stack` and the assembly each compute the place of the context in their own way. They agree for
every address of the allocation and every depth of the stack.
-/

namespace Gevisor.Verified.ThreadContexts

open Lib ThreadContext
open Elf (Word Bytes Has Apart fetch store)
open Driver (Platform Globals stackBytes threadLocalStorageSize privateSetupStack)

/-- The context at the top of a stack, and the lookups of code that began at `sp`. -/
structure Found (memory : Bytes) (stack top sp cpuid tlsptr : Word) : Prop where
  inside : ∀ a, Has (contextOf top) contextSize.toNat a → Has stack (stackBytes * 2).toNat a
  above : ∀ a, Has (contextOf top) contextSize.toNat a → sp < a
  cpuid_stored : fetch memory (contextOf top + cpuidOffset) 8 = cpuid
  tlsptr_stored : fetch memory (contextOf top + tlsptrOffset) 8 = tlsptr
  cpuid_found : ∀ rsp : Word, top.toNat < rsp.toNat + stackBytes.toNat → rsp ≤ sp →
    threadContextCpuid memory rsp = cpuid
  tlsptr_found : ∀ rsp : Word, top.toNat < rsp.toNat + stackBytes.toNat → rsp ≤ sp →
    threadContextTlsptr memory rsp = tlsptr

theorem context_above {top a : Word} (ends : EndsBlock top) (has : Has (contextOf top) 32 a) :
    initialPointer top < a := by
  rw [EndsBlock] at ends
  rw [Has, contextOf, contextSize] at has
  rw [initialPointer, contextSize]
  bv_omega

theorem found_of_written (memory : Bytes) (stack cpuid tlsptr : Word) :
    Found (writeContext memory (stackTop stack) cpuid tlsptr) stack (stackTop stack) (initialPointer (stackTop stack))
      cpuid tlsptr where
  inside _ has := context_inside stack has
  above _ has := context_above (endsBlock_stackTop stack) has
  cpuid_stored := fetch_cpuid ..
  tlsptr_stored := fetch_tlsptr ..
  cpuid_found rsp hw hb := by rw [threadContextCpuid_eq (endsBlock_stackTop stack) ⟨hw, hb⟩, fetch_cpuid]
  tlsptr_found rsp hw hb := by rw [threadContextTlsptr_eq (endsBlock_stackTop stack) ⟨hw, hb⟩, fetch_tlsptr]

/-- The first field of the new context is not read by the lookup that follows. -/
theorem tlsptr_kept {memory : Bytes} {rsp stack : Word} (value : Word)
    (he : ∀ a, Has stack (stackBytes * 2).toNat a → ¬ Has (lookupAddress rsp 24) 8 a) :
    threadContextTlsptr (store memory (contextOf (stackTop stack) + cpuidOffset) value) rsp =
      threadContextTlsptr memory rsp := by
  apply fetch_store_apart
  intro a both
  refine he a (context_inside stack ?_) both.2
  have first := both.1
  rw [Has, cpuidOffset] at *
  bv_omega

/-- The context of the driver's stack holds the CPU and its TLS block. The context of a nested stack holds what the
running code finds, provided that the new stack does not lie over what it reads. -/
theorem thread_context_found (P : Platform) (d e : Globals) (setup : privateSetupStack P d = .ok () e) :
    (∀ g : Globals, g.stack = e.stack → g.stackTop = e.stackTop → ∀ (cpuid : Word) (memory : Bytes),
      Found (commonCallVmm g cpuid memory).2 g.stack g.stackTop (commonCallVmm g cpuid memory).1 cpuid
        (g.tls + threadLocalStorageSize * cpuid)) ∧
    ∀ (memory : Bytes) (rsp stack : Word), ∃ tlsptr,
      Found (setupStack memory rsp stack).2 stack (stackTop stack) (setupStack memory rsp stack).1
        (threadContextCpuid memory rsp) tlsptr ∧
      ((∀ a, Has stack (stackBytes * 2).toNat a → ¬ Has (lookupAddress rsp 24) 8 a) →
        tlsptr = threadContextTlsptr memory rsp) := by
  constructor
  · intro g sameStack sameTop cpuid memory
    have top : g.stackTop = stackTop g.stack := by rw [sameTop, sameStack, stackTop_of_setup setup]
    rw [commonCallVmm_eq, top]
    exact found_of_written ..
  · intro memory rsp stack
    exact ⟨_, found_of_written memory stack _ _, tlsptr_kept _⟩

/-- A platform whose allocations all lie at one address. -/
def platformAt (p : Word) : Platform where
  numCpus := 2
  alloc _ _ _ := p
  virtToPhys _ virt := virt
  getRsdp _ := 0
  callVmmOnCore _ _ _ := 0
  memory _ _ := 0
  relocate _ := 0
  patience := 0

/-- A stack at an unaligned address, and a lookup at the lowest byte from which it still succeeds. -/
theorem thread_context_found_unaligned : ∃ e : Globals, privateSetupStack (platformAt 0x123451) {} = .ok () e ∧
    e.stackTop = 0x12ffff ∧ threadContextCpuid (commonCallVmm e 1 fun _ => 0).2 0x128000 = 1 := by
  have setup : ∃ e, privateSetupStack (platformAt 0x123451) {} = .ok () e ∧ e.stackTop = 0x12ffff := ⟨_, rfl, rfl⟩
  obtain ⟨e, returns, top⟩ := setup
  have found := (thread_context_found _ _ e returns).1 e rfl rfl 1 fun _ => 0
  refine ⟨e, returns, top, found.cpuid_found _ ?_ ?_⟩
  · rw [top]
    decide
  · show (0x128000 : Word) ≤ initialPointer e.stackTop
    rw [top]
    decide

end Gevisor.Verified.ThreadContexts
