import Gevisor.Runtime.ThreadContext

/-! # Thread-specific data of different CPUs

A block of thread-local storage holds 512 words, and the keys go from 0 to 512. The word of the last key is the first
one of the next block.
-/

namespace Gevisor.Verified.ThreadSpecificData

open Lib ThreadContext
open Elf (Word Bytes Has Apart fetch store)
open Driver (Platform Globals stackBytes threadLocalStorageSize privateSetupStack privateSetupTls)

/-- Memory when the VMM begins to run on CPU `c`. -/
def entered (g : Globals) (c : Nat) (memory : Bytes) : Bytes := (commonCallVmm g (BitVec.ofNat 64 c) memory).2

variable {g : Globals}

theorem entered_of_not_has {a : Word} (hout : ¬ Has (contextOf g.stackTop) 32 a) (c : Nat)
    (memory : Bytes) : entered g c memory a = memory a := writeContext_of_not_has hout ..

/-- What is set with `key` on CPU `c` goes to the thread-local storage, and no other CPU gets to see it. -/
structure Isolated (P : Platform) (g : Globals) (c : Nat) (rsp : Word) (key : Key) (memory : Bytes) : Prop where
  inside : ∀ a, Has (specificAddress (entered g c memory) rsp key) 8 a → Has g.tls g.tlsSize.toNat a
  unseen : ∀ (value : Word) (d : Nat), d < P.numCpus → d ≠ c → ∀ rsp', OnStack g.stackTop rsp' → ∀ k,
    pthreadGetspecific (entered g d (pthreadSetspecific (entered g c memory) rsp key value).2) rsp' k =
      pthreadGetspecific (entered g d (entered g c memory)) rsp' k

/-! ## Offsets -/

/-- Where the word of a key is in the thread-local storage. -/
def offset (c : Nat) (key : Key) : Word := threadLocalStorageSize * BitVec.ofNat 64 c + 8 * key.setWidth 64

theorem toNat_offset (c : Nat) (key : Key) : (offset c key).toNat = (0x1000 * c + 8 * key.toNat) % 2 ^ 64 := by
  have hs := key.isLt
  rw [offset, BitVec.toNat_add, BitVec.toNat_mul, BitVec.toNat_mul, BitVec.toNat_ofNat, BitVec.toNat_setWidth,
    show threadLocalStorageSize.toNat = 0x1000 from rfl, show (8 : Word).toNat = 8 from rfl]
  omega

theorem apart_offset {tls : Word} {c d : Nat} {key k : Key} (away : (offset c key).toNat + 8 ≤ (offset d k).toNat ∨
    (offset d k).toNat + 8 ≤ (offset c key).toNat) (room : (offset c key).toNat + 8 ≤ 2 ^ 64)
    (room' : (offset d k).toNat + 8 ≤ 2 ^ 64) : Apart (tls + offset c key) (tls + offset d k) := by
  generalize offset c key = x at *
  generalize offset d k = y at *
  apply apart_of_far
  · bv_omega
  · bv_omega

section

variable {P : Platform} {d e g : Globals} (stackReady : privateSetupStack P d = .ok () e)
  (tlsReady : privateSetupTls P e = .ok () g)

include stackReady tlsReady

theorem top_eq : g.stackTop = stackTop g.stack := by
  obtain ⟨-, hs, top⟩ := tls_of_setup tlsReady
  rw [top, hs, stackTop_of_setup stackReady]

variable {rsp : Word} {c : Nat} {k key : Key}

theorem specificAddress_entered (on : OnStack g.stackTop rsp) (c : Nat) (key : Key) (memory : Bytes) :
    specificAddress (entered g c memory) rsp key = g.tls + offset c key := by
  have ends : EndsBlock g.stackTop := by
    rw [top_eq stackReady tlsReady]
    exact endsBlock_stackTop _
  rw [specificAddress, threadContextTlsptr_eq ends on, entered, commonCallVmm_eq, fetch_tlsptr, offset,
    BitVec.add_assoc]

/-- A word elsewhere is read as before. -/
theorem getspecific_of_apart (on : OnStack g.stackTop rsp) {p : Word} (hap : Apart p (g.tls + offset c k))
    (memory : Bytes) (value : Word) :
    pthreadGetspecific (entered g c (store memory p value)) rsp k = pthreadGetspecific (entered g c memory) rsp k := by
  rw [pthreadGetspecific, pthreadGetspecific, specificAddress_entered stackReady tlsReady on,
    specificAddress_entered stackReady tlsReady on]
  split
  · rfl
  · apply Elf.fetch_congr
    intro j hb
    have same : store memory p value (g.tls + offset c k + BitVec.ofNat 64 j) =
        memory (g.tls + offset c k + BitVec.ofNat 64 j) :=
      Elf.store_of_not_has fun has => hap _ ⟨has, has_word hb⟩
    -- Entering the VMM is two writes, and what they make of a byte depends on that byte alone.
    exact Elf.storeAll_congr same [(contextOf g.stackTop + cpuidOffset, BitVec.ofNat 64 c),
      (contextOf g.stackTop + tlsptrOffset, g.tls + threadLocalStorageSize * BitVec.ofNat 64 c)]

variable (disjoint : ∀ a, Has g.tls g.tlsSize.toNat a → ¬ Has g.stack (stackBytes * 2).toNat a)

include disjoint

/-- A word of the thread-local storage is not touched when the VMM is entered. -/
theorem getspecific_of_stored (on : OnStack g.stackTop rsp) (accepted : ¬ k > maxThreadSpecificData)
    (hi : ∀ a, Has (g.tls + offset c k) 8 a → Has g.tls g.tlsSize.toNat a) (memory : Bytes) (value : Word) :
    pthreadGetspecific (entered g c (store memory (g.tls + offset c k) value)) rsp k = value := by
  rw [pthreadGetspecific, if_neg accepted, specificAddress_entered stackReady tlsReady on]
  have kept : fetch (entered g c (store memory (g.tls + offset c k) value)) (g.tls + offset c k) 8 =
      fetch (store memory (g.tls + offset c k) value) (g.tls + offset c k) 8 := by
    apply Elf.fetch_congr
    intro j hb
    apply entered_of_not_has
    rw [top_eq stackReady tlsReady]
    intro has
    exact disjoint _ (hi _ (has_word hb)) (context_inside g.stack has)
  rw [kept, Elf.fetch_store]

/-- Where two CPUs use the same word, one sees what the other sets. -/
theorem not_isolated_of_shared (on : OnStack g.stackTop rsp) {other : Nat}
    (accepted : ¬ key > maxThreadSpecificData) (hacc' : ¬ k > maxThreadSpecificData) (runs : other < P.numCpus)
    (hd : other ≠ c) (hs : offset other k = offset c key) (memory : Bytes) :
    ¬ Isolated P g c rsp key memory := by
  intro isolated
  have hi := isolated.inside
  rw [specificAddress_entered stackReady tlsReady on, ← hs] at hi
  have hu := isolated.unseen (pthreadGetspecific (entered g other (entered g c memory)) rsp k + 1) other runs
    hd rsp on k
  rw [pthreadSetspecific, if_neg accepted, specificAddress_entered stackReady tlsReady on, ← hs,
    getspecific_of_stored stackReady tlsReady disjoint on hacc' hi] at hu
  generalize pthreadGetspecific _ _ _ = old at hu
  bv_omega

section

variable {rsp : Word} (on : OnStack g.stackTop rsp) {c : Nat} {key : Key} (accepted : ¬ key > maxThreadSpecificData)
  {memory : Bytes} (isolated : Isolated P g c rsp key memory)

include on accepted isolated

theorem not_shared {other : Nat} {k : Key} (hacc' : ¬ k > maxThreadSpecificData) (runs : other < P.numCpus)
    (hd : other ≠ c) :
    (0x1000 * other + 8 * k.toNat) % 2 ^ 64 ≠ (0x1000 * c + 8 * key.toNat) % 2 ^ 64 := by
  intro same
  have hs : offset other k = offset c key := by
    apply BitVec.eq_of_toNat_eq
    rw [toNat_offset, toNat_offset, same]
  exact not_isolated_of_shared stackReady tlsReady disjoint on accepted hacc' runs hd hs memory isolated

omit disjoint accepted in
theorem offset_lt_size : (0x1000 * c + 8 * key.toNat) % 2 ^ 64 < 0x1000 * P.numCpus % 2 ^ 64 := by
  have first := isolated.inside (g.tls + offset c key)
  rw [specificAddress_entered stackReady tlsReady on, Has, Has, BitVec.sub_self] at first
  have hb := first (by decide)
  rw [BitVec.add_comm, BitVec.add_sub_cancel, toNat_offset, (tls_of_setup tlsReady).1, BitVec.toNat_mul,
    BitVec.toNat_ofNat, show threadLocalStorageSize.toNat = 0x1000 from rfl] at hb
  omega

/-- The last key belongs to the next CPU or lies behind the storage. -/
theorem key_lt_of_isolated (runs : c < P.numCpus) : key < 512 := by
  by_contra last
  have full : key.toNat = 512 := by
    rw [maxThreadSpecificData] at accepted
    bv_omega
  by_cases next : c + 1 < P.numCpus
  · apply not_shared stackReady tlsReady disjoint on accepted isolated (k := 0) (by decide) next (by omega)
    rw [full, show (0 : Key).toNat = 0 from rfl]
    omega
  · have hb := offset_lt_size stackReady tlsReady on isolated
    rw [full] at hb
    omega

theorem first_of_isolated (runs : c < P.numCpus) (zero : key = 0) : c = 0 := by
  by_contra hp
  have hbe : c - 1 < P.numCpus := by omega
  apply not_shared stackReady tlsReady disjoint on accepted isolated (k := 512) (by decide) hbe (by omega)
  rw [zero, show (512 : Key).toNat = 512 from rfl, show (0 : Key).toNat = 0 from rfl]
  omega

/-- With more CPUs the sizes wrap around: CPUs that differ by `2 ^ 52` have the same block. -/
theorem numCpus_lt_of_isolated (runs : c < P.numCpus) : P.numCpus < 2 ^ 52 := by
  by_contra many
  have hs := key_lt_of_isolated stackReady tlsReady disjoint on accepted isolated runs
  have word : key.toNat < 512 := hs
  by_cases up : c + 2 ^ 52 < P.numCpus
  · apply not_shared stackReady tlsReady disjoint on accepted isolated (k := key) accepted up (by omega)
    omega
  · by_cases down : 2 ^ 52 ≤ c
    · have runs' : c - 2 ^ 52 < P.numCpus := by omega
      apply not_shared stackReady tlsReady disjoint on accepted isolated (k := key) accepted runs' (by omega)
      omega
    · have hb := offset_lt_size stackReady tlsReady on isolated
      omega

end

omit disjoint in
theorem isolated_of_small (on : OnStack g.stackTop rsp) (runs : c < P.numCpus)
    (few : P.numCpus < 2 ^ 52) (hs : key < 512) (first : key = 0 → c = 0) (memory : Bytes) :
    Isolated P g c rsp key memory := by
  have word : key.toNat < 512 := hs
  have hp : (offset c key).toNat = 0x1000 * c + 8 * key.toNat := by
    rw [toNat_offset]
    omega
  constructor
  · intro a has
    rw [specificAddress_entered stackReady tlsReady on] at has
    have size : g.tlsSize.toNat = 0x1000 * P.numCpus := by
      rw [(tls_of_setup tlsReady).1, BitVec.toNat_mul, BitVec.toNat_ofNat,
        show threadLocalStorageSize.toNat = 0x1000 from rfl]
      omega
    rw [Has] at *
    generalize offset c key = x at *
    bv_omega
  · intro value ho runs' hd rsp' on' k
    have accepted : ¬ key > maxThreadSpecificData := by
      rw [maxThreadSpecificData]
      bv_omega
    rw [pthreadSetspecific, if_neg accepted, specificAddress_entered stackReady tlsReady on]
    by_cases hl : k > maxThreadSpecificData
    · rw [pthreadGetspecific, pthreadGetspecific, if_pos hl, if_pos hl]
    · have hbo : k.toNat ≤ 512 := by
        rw [maxThreadSpecificData] at hl
        bv_omega
      have hp' : (offset ho k).toNat = 0x1000 * ho + 8 * k.toNat := by
        rw [toNat_offset]
        omega
      -- Only the word after the block of `other` could be one of `c`, and that one has key 0.
      have hnz : c ≠ 0 → key.toNat ≠ 0 := by
        intro hla zero
        exact hla (first (BitVec.eq_of_toNat_eq zero))
      apply getspecific_of_apart stackReady tlsReady on'
      apply apart_offset
      · omega
      · omega
      · omega

end

/-- The driver has set up a stack and the thread-local storage, and they do not overlap. Whatever is set with an
accepted key on a CPU is isolated from the other CPUs exactly if the storage of all CPUs fits the address space, the
key is not the last one, and it is not the first one either, except on the first CPU. -/
theorem specific_isolated_iff (P : Platform) (d e g : Globals) (stackReady : privateSetupStack P d = .ok () e)
    (tlsReady : privateSetupTls P e = .ok () g)
    (disjoint : ∀ a, Has g.tls g.tlsSize.toNat a → ¬ Has g.stack (stackBytes * 2).toNat a)
    (c : Nat) (runs : c < P.numCpus) (rsp : Word) (on : OnStack g.stackTop rsp) (key : Key) (memory : Bytes)
    (accepted : ∀ value, (pthreadSetspecific (entered g c memory) rsp key value).1 = 0) :
    Isolated P g c rsp key memory ↔ P.numCpus < 2 ^ 52 ∧ key < 512 ∧ (key = 0 → c = 0) := by
  have valid : ¬ key > maxThreadSpecificData := by
    intro large
    have refused := accepted 0
    rw [pthreadSetspecific, if_pos large] at refused
    have zero : invalid = 0 := refused
    exact absurd zero (by decide)
  constructor
  · intro isolated
    exact ⟨numCpus_lt_of_isolated stackReady tlsReady disjoint on valid isolated runs,
      key_lt_of_isolated stackReady tlsReady disjoint on valid isolated runs,
      first_of_isolated stackReady tlsReady disjoint on valid isolated runs⟩
  · rintro ⟨few, small, first⟩
    exact isolated_of_small stackReady tlsReady on runs few small first memory

/-! ## Two CPUs -/

/-- The stack is at `0x100000`, and the thread-local storage of two CPUs at `0x200000`. -/
def twoCpus : Platform where
  numCpus := 2
  alloc log _ _ := if log.length = 0 then 0x100000 else 0x200000
  virtToPhys _ virt := virt
  getRsdp _ := 0
  callVmmOnCore _ _ _ := 0
  memory _ _ := 0
  relocate _ := 0
  patience := 0

theorem twoCpus_ready : ∃ e g : Globals, privateSetupStack twoCpus {} = .ok () e ∧ privateSetupTls twoCpus e = .ok () g ∧
    g.tls = 0x200000 ∧ g.tlsSize = 0x2000 ∧ g.stack = 0x100000 ∧ g.stackTop = 0x10ffff := ⟨_, _, rfl, rfl, rfl, rfl, rfl, rfl⟩

theorem areas_disjoint (tls : g.tls = 0x200000) (size : g.tlsSize = 0x2000) (hs : g.stack = 0x100000) :
    ∀ a, Has g.tls g.tlsSize.toNat a → ¬ Has g.stack (stackBytes * 2).toNat a := by
  intro a hst
  rw [tls, size, Has, show (0x2000 : Word).toNat = 0x2000 from rfl] at hst
  rw [hs, Has, show (stackBytes * 2).toNat = 0x10000 from rfl]
  bv_omega

theorem onStack_start (top : g.stackTop = 0x10ffff) : OnStack g.stackTop 0x10ffde := by
  rw [top, OnStack]
  decide

/-- Key 7 on the second CPU. -/
theorem isolated_seven : ∃ e g : Globals, privateSetupStack twoCpus {} = .ok () e ∧
    privateSetupTls twoCpus e = .ok () g ∧ Isolated twoCpus g 1 0x10ffde 7 fun _ => 0 := by
  obtain ⟨e, g, stackReady, tlsReady, tls, size, stack, top⟩ := twoCpus_ready
  refine ⟨e, g, stackReady, tlsReady, ?_⟩
  have condition := specific_isolated_iff twoCpus _ e g stackReady tlsReady (areas_disjoint tls size stack) 1 (by decide) 0x10ffde
    (onStack_start top) 7 (fun _ => 0) fun _ => rfl
  rw [condition]
  decide

/-- Entering the VMM leaves the thread-local storage empty. -/
theorem getspecific_empty {e : Globals} (stackReady : privateSetupStack twoCpus {} = .ok () e)
    (tlsReady : privateSetupTls twoCpus e = .ok () g) (tls : g.tls = 0x200000) (top : g.stackTop = 0x10ffff) :
    pthreadGetspecific (entered g 1 (entered g 0 fun _ => 0)) 0x10ffde 0 = 0 := by
  rw [pthreadGetspecific, if_neg (by decide), specificAddress_entered stackReady tlsReady (onStack_start top)]
  have hby : ∀ j < 8, entered g 1 (entered g 0 fun _ => 0) (g.tls + offset 1 0 + BitVec.ofNat 64 j) =
      Elf.byteAt 0 j := by
    intro j hb
    have hout : ¬ Has (contextOf g.stackTop) 32 (g.tls + offset 1 0 + BitVec.ofNat 64 j) := by
      rw [top, tls, Has, show contextOf 0x10ffff = 0x10ffdf from rfl, show offset 1 0 = 0x1000 from rfl]
      bv_omega
    rw [entered_of_not_has hout, entered_of_not_has hout]
    simp [Elf.byteAt]
  apply BitVec.eq_of_toNat_eq
  rw [Elf.fetch_of_bytes (Nat.le_refl 8) hby]
  rfl

/-- The last key, set on the first CPU, is the first one of the second CPU. -/
theorem last_key_leaks : ∃ e g : Globals, privateSetupStack twoCpus {} = .ok () e ∧
    privateSetupTls twoCpus e = .ok () g ∧
    (pthreadSetspecific (entered g 0 fun _ => 0) 0x10ffde 512 5).1 = 0 ∧
    pthreadGetspecific (entered g 1 (entered g 0 fun _ => 0)) 0x10ffde 0 = 0 ∧
    pthreadGetspecific (entered g 1 (pthreadSetspecific (entered g 0 fun _ => 0) 0x10ffde 512 5).2) 0x10ffde 0 = 5 := by
  obtain ⟨e, g, stackReady, tlsReady, tls, size, stack, top⟩ := twoCpus_ready
  refine ⟨e, g, stackReady, tlsReady, rfl, getspecific_empty stackReady tlsReady tls top, ?_⟩
  have inside : ∀ a, Has (g.tls + offset 1 0) 8 a → Has g.tls g.tlsSize.toNat a := by
    intro a has
    rw [tls, Has, show offset 1 0 = 0x1000 from rfl] at has
    rw [tls, size, Has, show (0x2000 : Word).toNat = 0x2000 from rfl]
    bv_omega
  rw [pthreadSetspecific, if_neg (by decide), specificAddress_entered stackReady tlsReady (onStack_start top),
    show offset 0 512 = offset 1 0 from rfl]
  exact getspecific_of_stored stackReady tlsReady (areas_disjoint tls size stack) (onStack_start top) (by decide) inside
    _ 5

end Gevisor.Verified.ThreadSpecificData
