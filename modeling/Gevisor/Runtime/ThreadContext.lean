import Gevisor.Driver.Effects
import Gevisor.Elf.Words
import Gevisor.Lib.Masks

/-! # Thread contexts

`bfthreadcontext.h`, `threadcontext.asm`, `common_call_vmm` and the thread-specific data of `pthread.cpp`. At the top
of every stack is a `thread_context_t`; code that runs on the stack finds it from its stack pointer alone.
-/

namespace Gevisor.ThreadContext

open Lib
open Elf (Word Bytes Has Apart fetch store)
open Driver (Platform Globals stackBytes threadLocalStorageSize privateSetupStack privateSetupTls)

/-! ## `thread_context_t` -/

def contextSize : Word := 32
def cpuidOffset : Word := 0
def tlsptrOffset : Word := 8

/-- `stack_top` in `setup_stack` and `g_stack_top` in `private_setup_stack`. -/
def stackTop (stack : Word) : Word := ((stack + stackBytes * 2) &&& ~~~(stackBytes - 1)) - 1

def contextOf (top : Word) : Word := top - contextSize

/-- The stack pointer that code on the stack begins with. -/
def initialPointer (top : Word) : Word := top - contextSize - 1

/-! ## `threadcontext.asm` -/

/-- The address in `rax` before the load. The two functions differ in what they subtract last. -/
def lookupAddress (rsp back : Word) : Word :=
  let rdx : Word := 0x8000 - 1
  let rcx := ~~~rdx
  (rsp &&& rcx) + rdx - back

def threadContextTlsptr (memory : Bytes) (rsp : Word) : Word := fetch memory (lookupAddress rsp 24) 8

def threadContextCpuid (memory : Bytes) (rsp : Word) : Word := fetch memory (lookupAddress rsp 32) 8

/-! ## Writing a context -/

/-- The stack pointer and the memory `_start_func` is called with. -/
def commonCallVmm (d : Globals) (cpuid : Word) (memory : Bytes) : Word × Bytes :=
  let tc := contextOf d.stackTop
  let memory := store memory (tc + cpuidOffset) cpuid
  let memory := store memory (tc + tlsptrOffset) (d.tls + threadLocalStorageSize * cpuid)
  (initialPointer d.stackTop, memory)

/-- The second lookup runs after the first field has been written. -/
def setupStack (memory : Bytes) (rsp stack : Word) : Word × Bytes :=
  let tc := contextOf (stackTop stack)
  let memory := store memory (tc + cpuidOffset) (threadContextCpuid memory rsp)
  let memory := store memory (tc + tlsptrOffset) (threadContextTlsptr memory rsp)
  (initialPointer (stackTop stack), memory)

/-! ## `pthread.cpp` -/

abbrev Key := BitVec 32

def maxThreadSpecificData : Key := 512

/-- `-EINVAL`. -/
def invalid : Int := -22

/-- The address of `thread_context_tlsptr()[__key]`. -/
def specificAddress (memory : Bytes) (rsp : Word) (key : Key) : Word :=
  threadContextTlsptr memory rsp + 8 * key.setWidth 64

def pthreadGetspecific (memory : Bytes) (rsp : Word) (key : Key) : Word :=
  if key > maxThreadSpecificData then 0 else fetch memory (specificAddress memory rsp key) 8

def pthreadSetspecific (memory : Bytes) (rsp : Word) (key : Key) (value : Word) : Int × Bytes :=
  if key > maxThreadSpecificData then (invalid, memory) else (0, store memory (specificAddress memory rsp key) value)

/-! ## Where the context is -/

/-- `rsp` is one of the `STACK_SIZE` bytes that end with the one at `top`, and not above where code begins. -/
def OnStack (top rsp : Word) : Prop := top.toNat < rsp.toNat + stackBytes.toNat ∧ rsp ≤ initialPointer top

/-- The last byte before a multiple of `STACK_SIZE`. -/
def EndsBlock (top : Word) : Prop := top.toNat % 0x8000 = 0x7fff

theorem toNat_round (x : Word) :
    (x &&& ~~~(0x8000 - 1 : Word)).toNat = x.toNat / 0x8000 * 0x8000 := toNat_and_not x 15

theorem endsBlock_stackTop (stack : Word) : EndsBlock (stackTop stack) := by
  have hr := toNat_round (stack + stackBytes * 2)
  rw [EndsBlock, stackTop, show stackBytes - 1 = (0x8000 - 1 : Word) from rfl, BitVec.toNat_sub, hr]
  have hbo := (stack + stackBytes * 2).isLt
  rw [show (1 : Word).toNat = 1 from rfl]
  omega

/-- The end of the rounded stack is in the upper half of the allocation. -/
theorem stackTop_sub (stack : Word) :
    0x8000 ≤ (stackTop stack - stack).toNat ∧ (stackTop stack - stack).toNat < 0x10000 := by
  have hr := toNat_round (stack + stackBytes * 2)
  have sum : (stack + stackBytes * 2).toNat = (stack.toNat + 0x10000) % 2 ^ 64 := by
    rw [BitVec.toNat_add]
    rfl
  rw [stackTop, show stackBytes - 1 = (0x8000 - 1 : Word) from rfl, BitVec.toNat_sub, BitVec.toNat_sub, hr, sum,
    show (1 : Word).toNat = 1 from rfl]
  have hbo := stack.isLt
  omega

variable {top a p q : Word} {P : Platform} {e : Globals}

theorem lookupAddress_eq {rsp : Word} (ends : EndsBlock top) (on : OnStack top rsp) (back : Word) :
    lookupAddress rsp back = top - back := by
  have hb : rsp.toNat ≤ top.toNat := by
    have hs := BitVec.le_def.mp on.2
    have hp : (initialPointer top).toNat = top.toNat - 33 := by
      rw [EndsBlock] at ends
      rw [initialPointer, contextSize]
      bv_omega
    omega
  have hw := on.1
  rw [show stackBytes.toNat = 0x8000 from rfl] at hw
  -- Both lie in the same block of `STACK_SIZE` bytes, and the lookup goes to its last byte.
  have last : (rsp &&& ~~~(0x8000 - 1 : Word)) + (0x8000 - 1) = top := by
    apply BitVec.eq_of_toNat_eq
    rw [BitVec.toNat_add, toNat_round, show (0x8000 - 1 : Word).toNat = 0x7fff from rfl]
    rw [EndsBlock] at ends
    have hbo := top.isLt
    omega
  rw [lookupAddress, last]

theorem context_inside (stack : Word) (has : Has (contextOf (stackTop stack)) 32 a) : Has stack 0x10000 a := by
  have ⟨low, high⟩ := stackTop_sub stack
  generalize stackTop stack = top at *
  rw [Has, contextOf, contextSize] at *
  bv_omega

/-! ## Words -/

theorem has_word {j : Nat} (hb : j < 8) : Has a 8 (a + BitVec.ofNat 64 j) := by
  apply Elf.has_add
  rw [BitVec.toNat_ofNat, Nat.mod_eq_of_lt (by omega)]
  exact hb

theorem fetch_store_apart (hap : Apart p q) (memory : Bytes) (value : Word) :
    fetch (store memory p value) q 8 = fetch memory q 8 := by
  apply Elf.fetch_congr
  intro j hb
  exact Elf.store_of_not_has fun has => hap _ ⟨has, has_word hb⟩

/-- Words that begin at least eight bytes apart, in both directions around the address space. -/
theorem apart_of_far (ha : 8 ≤ (q - p).toNat) (hbe : 8 ≤ (p - q).toNat) : Apart p q :=
  fun _ both => Elf.not_has_of_far ha hbe both.1 both.2

theorem fields_apart (top : Word) : Apart (contextOf top + cpuidOffset) (contextOf top + tlsptrOffset) := by
  apply apart_of_far
  · rw [cpuidOffset, tlsptrOffset]
    bv_omega
  · rw [cpuidOffset, tlsptrOffset]
    bv_omega

/-! ## A context that has been written -/

/-- `cpuid` and then `tlsptr` are written to the context at the top of the stack. -/
def writeContext (memory : Bytes) (top cpuid tlsptr : Word) : Bytes :=
  store (store memory (contextOf top + cpuidOffset) cpuid) (contextOf top + tlsptrOffset) tlsptr

theorem fetch_cpuid (memory : Bytes) (top cpuid tlsptr : Word) :
    fetch (writeContext memory top cpuid tlsptr) (contextOf top + cpuidOffset) 8 = cpuid := by
  rw [writeContext, fetch_store_apart (fields_apart top).symm, Elf.fetch_store]

theorem fetch_tlsptr (memory : Bytes) (top cpuid tlsptr : Word) :
    fetch (writeContext memory top cpuid tlsptr) (contextOf top + tlsptrOffset) 8 = tlsptr := by
  rw [writeContext, Elf.fetch_store]

/-- Nothing but the context is written. -/
theorem writeContext_of_not_has (hout : ¬ Has (contextOf top) 32 a) (memory : Bytes)
    (cpuid tlsptr : Word) : writeContext memory top cpuid tlsptr a = memory a := by
  rw [writeContext, Elf.store_of_not_has, Elf.store_of_not_has]
  · intro has
    apply hout
    rw [Has, cpuidOffset] at *
    bv_omega
  · intro has
    apply hout
    rw [Has, tlsptrOffset] at *
    bv_omega

section

variable {top rsp : Word} (ends : EndsBlock top) (on : OnStack top rsp)

include ends on

/-- The hard-coded distances of the assembly are those of the fields. -/
theorem threadContextCpuid_eq (memory : Bytes) :
    threadContextCpuid memory rsp = fetch memory (contextOf top + cpuidOffset) 8 := by
  have hf : top - 32 = contextOf top + cpuidOffset := by
    rw [contextOf, contextSize, cpuidOffset]
    bv_omega
  rw [threadContextCpuid, lookupAddress_eq ends on, hf]

theorem threadContextTlsptr_eq (memory : Bytes) :
    threadContextTlsptr memory rsp = fetch memory (contextOf top + tlsptrOffset) 8 := by
  have hf : top - 24 = contextOf top + tlsptrOffset := by
    rw [contextOf, contextSize, tlsptrOffset]
    bv_omega
  rw [threadContextTlsptr, lookupAddress_eq ends on, hf]

end

/-! ## What the driver sets up -/

theorem stackTop_of_setup {d : Globals} (hs : privateSetupStack P d = .ok () e) :
    e.stackTop = stackTop e.stack := by
  have spec : wp (privateSetupStack P) (fun _ t => t.stackTop = stackTop t.stack) (fun _ _ => True) d := by
    rw [privateSetupStack, wp_bind, wp_modify, wp_bind, Driver.wp_platformAlloc, wp_bind, wp_modify]
    by_cases null : P.alloc d.log .rw (stackBytes * 2) = 0
    · rw [if_pos null, wp_bind, Driver.wp_fail]
      trivial
    · rw [if_neg null]
      rfl
  exact (wp_of_ok hs).mp spec

theorem tls_of_setup {g : Globals} (hs : privateSetupTls P e = .ok () g) :
    g.tlsSize = threadLocalStorageSize * BitVec.ofNat 64 P.numCpus ∧ g.stack = e.stack ∧ g.stackTop = e.stackTop := by
  have spec : wp (privateSetupTls P) (fun _ t => t.tlsSize = threadLocalStorageSize * BitVec.ofNat 64 P.numCpus ∧
      t.stack = e.stack ∧ t.stackTop = e.stackTop) (fun _ _ => True) e := by
    rw [privateSetupTls, wp_bind, wp_modify, wp_bind, Driver.wp_platformAlloc, wp_bind, wp_modify, wp_ite]
    split
    · trivial
    · exact ⟨rfl, rfl, rfl⟩
  exact (wp_of_ok hs).mp spec

theorem commonCallVmm_eq (d : Globals) (cpuid : Word) (memory : Bytes) :
    commonCallVmm d cpuid memory = (initialPointer d.stackTop,
      writeContext memory d.stackTop cpuid (d.tls + threadLocalStorageSize * cpuid)) := rfl

end Gevisor.ThreadContext
