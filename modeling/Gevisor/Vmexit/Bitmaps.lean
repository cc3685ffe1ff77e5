import Gevisor.Lib.Exec
import Gevisor.Lib.Span
import Gevisor.Lib.Transition
import Gevisor.Memory

/-! # The MSR and I/O bitmaps

`rdmsr_handler`, `wrmsr_handler` and `io_instruction_handler` decide which accesses of the guest exit by
setting bits in pages that the processor reads. The two MSR handlers share one page.
-/

namespace Gevisor.Vmexit.Bitmaps

open Lib

/-! ## Bits of a span -/

/-- `set_bit` on a span: the byte is looked up with `at`, which checks the index. -/
def setBit (view : Span) (b : Nat) : Except Err Span :=
  if b >>> 3 < view.size then
    .ok (view.put (b >>> 3) (view.data (b >>> 3) ||| BitVec.ofNat 8 (1 <<< (b &&& 7))))
  else .error failFast

def clearBit (view : Span) (b : Nat) : Except Err Span :=
  if b >>> 3 < view.size then
    .ok (view.put (b >>> 3) (view.data (b >>> 3) &&& ~~~BitVec.ofNat 8 (1 <<< (b &&& 7))))
  else .error failFast

/-- `gsl::memset(view.subspan(offset, count), value)` -/
def memsetSubspan (view : Span) (offset count : Nat) (value : BitVec 8) : Except Err Span :=
  if view.size < offset + count then .error failFast
  else if count = 0 then .error failFast
  else .ok (view.fill offset count value)

section

variable {view : Span} {b : Nat}

theorem setBit_eq (hi : b / 8 < view.size) :
    setBit view b = .ok (view.put (b / 8) (view.data (b / 8) ||| BitVec.ofNat 8 (1 <<< (b % 8)))) := by
  rw [setBit, Nat.shiftRight_eq_div_pow, Nat.and_two_pow_sub_one_eq_mod b 3]
  exact if_pos hi

theorem clearBit_eq (hi : b / 8 < view.size) :
    clearBit view b = .ok (view.put (b / 8) (view.data (b / 8) &&& ~~~BitVec.ofNat 8 (1 <<< (b % 8)))) := by
  rw [clearBit, Nat.shiftRight_eq_div_pow, Nat.and_two_pow_sub_one_eq_mod b 3]
  exact if_pos hi

/-- A function that makes the bit of its index `value`. -/
def Makes (value : Bool) (change : Span → Nat → Except Err Span) : Prop :=
  ∀ view b, if b / 8 < view.size then
      ∃ next, change view b = .ok next ∧ next.size = view.size ∧ ∀ i, next.bit i = if i = b then value else view.bit i
    else change view b = .error failFast

theorem makes_setBit : Makes true setBit := by
  intro view b
  split
  · next hi => exact ⟨_, setBit_eq hi, rfl, fun i => Span.bit_or⟩
  · next hout =>
    rw [setBit, Nat.shiftRight_eq_div_pow]
    exact if_neg hout

theorem makes_clearBit : Makes false clearBit := by
  intro view b
  split
  · next hi => exact ⟨_, clearBit_eq hi, rfl, fun i => Span.bit_and_not⟩
  · next hout =>
    rw [clearBit, Nat.shiftRight_eq_div_pow]
    exact if_neg hout

end

/-- A byte of equal bits. -/
def uniform (value : Bool) : BitVec 8 := if value then 0xFF else 0x00

theorem getLsbD_uniform (value : Bool) {i : Nat} (hb : i < 8) : (uniform value).getLsbD i = value := by
  cases value with
  | false => exact BitVec.getLsbD_zero
  | true =>
    have all : ∀ j < 8, (0xFF#8).getLsbD j = true := by decide
    exact all i hb

theorem bit_fill_uniform {view : Span} {start count : Nat} {value : Bool} (i : Nat) :
    (view.fill start count (uniform value)).bit i =
      if start * 8 ≤ i ∧ i < (start + count) * 8 then value else view.bit i := by
  rw [Span.bit_fill, getLsbD_uniform value (Nat.mod_lt i (by decide))]

/-! ## MSRs -/

/-- The handler that is called: `rdmsr_handler` or `wrmsr_handler`. -/
inductive Direction
  | read
  | write
  deriving DecidableEq, Repr

/-- Where the bits of the two ranges of MSRs begin. -/
def Direction.bias : Direction → Nat × Nat
  | .read => (0, 0x2000)
  | .write => (0x4000, 0x6000)

/-- Where the bytes of a handler's half begin. -/
def Direction.half : Direction → Nat
  | .read => 0
  | .write => 2048

/-- What the four functions for a single MSR have in common. -/
def accessMsr (change : Span → Nat → Except Err Span) (bias : Nat × Nat) (bitmap : Span) (msr : Nat) : Except Err Span :=
  if msr ≤ 0x00001FFF then change bitmap (msr - 0x00000000 + bias.1)
  else if 0xC0000000 ≤ msr ∧ msr ≤ 0xC0001FFF then change bitmap (msr - 0xC0000000 + bias.2)
  else .error (.exn ("invalid msr: " ++ toString msr))

namespace Direction

def trapOnAccess (d : Direction) : Span → Nat → Except Err Span := accessMsr setBit d.bias

def passThroughAccess (d : Direction) : Span → Nat → Except Err Span := accessMsr clearBit d.bias

def trapOnAllAccesses (d : Direction) (bitmap : Span) : Except Err Span :=
  memsetSubspan bitmap d.half (bitmap.size >>> 1) 0xFF

def passThroughAllAccesses (d : Direction) (bitmap : Span) : Except Err Span :=
  memsetSubspan bitmap d.half (bitmap.size >>> 1) 0x00

end Direction

inductive MsrCall
  | trapOnAccess (d : Direction) (msr : Nat)
  | passThroughAccess (d : Direction) (msr : Nat)
  | trapOnAllAccesses (d : Direction)
  | passThroughAllAccesses (d : Direction)
  deriving DecidableEq, Repr

def MsrCall.run (bitmap : Span) : MsrCall → Except Err Span
  | .trapOnAccess d msr => d.trapOnAccess bitmap msr
  | .passThroughAccess d msr => d.passThroughAccess bitmap msr
  | .trapOnAllAccesses d => d.trapOnAllAccesses bitmap
  | .passThroughAllAccesses d => d.passThroughAllAccesses bitmap

/-- The page from `alloc_page`, which is zeroed. -/
def msrBitmap : Span := .zero 4096

/-! ## Ports -/

structure IoBitmaps where
  a : Span
  b : Span

def IoBitmaps.fresh : IoBitmaps := ⟨.zero 4096, .zero 4096⟩

/-- What the two functions for a single port have in common. -/
def accessPort (change : Span → Nat → Except Err Span) (bitmaps : IoBitmaps) (port : Nat) : Except Err IoBitmaps :=
  if port < 0x8000 then (change bitmaps.a port).map fun a => { bitmaps with a := a }
  else if port < 0x10000 then (change bitmaps.b port).map fun b => { bitmaps with b := b }
  else .error (.exn ("invalid port: " ++ toString port))

/-- What the two functions for all ports have in common. -/
def accessAllPorts (value : BitVec 8) (bitmaps : IoBitmaps) : Except Err IoBitmaps := do
  let a ← memsetSubspan bitmaps.a 0 bitmaps.a.size value
  let b ← memsetSubspan bitmaps.b 0 bitmaps.b.size value
  pure ⟨a, b⟩

namespace IoBitmaps

def trapOnAccess : IoBitmaps → Nat → Except Err IoBitmaps := accessPort setBit

def passThroughAccess : IoBitmaps → Nat → Except Err IoBitmaps := accessPort clearBit

def trapOnAllAccesses : IoBitmaps → Except Err IoBitmaps := accessAllPorts 0xFF

def passThroughAllAccesses : IoBitmaps → Except Err IoBitmaps := accessAllPorts 0x00

end IoBitmaps

inductive PortCall
  | trapOnAccess (port : Nat)
  | passThroughAccess (port : Nat)
  | trapOnAllAccesses
  | passThroughAllAccesses
  deriving DecidableEq, Repr

def PortCall.run (bitmaps : IoBitmaps) : PortCall → Except Err IoBitmaps
  | .trapOnAccess port => bitmaps.trapOnAccess port
  | .passThroughAccess port => bitmaps.passThroughAccess port
  | .trapOnAllAccesses => bitmaps.trapOnAllAccesses
  | .passThroughAllAccesses => bitmaps.passThroughAllAccesses

end Gevisor.Vmexit.Bitmaps
