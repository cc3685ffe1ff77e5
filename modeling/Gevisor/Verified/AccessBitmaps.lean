import Gevisor.Vmexit.Bitmaps

/-! # Bitmaps as sets of MSRs and ports

Each bitmap is read the way the processor reads it. After any history of calls, an access exits exactly if
the last call that was about it asked for that. For ports this holds only below `0x8000`: the functions for
the upper half index the second page with the port itself, which is past its end.
-/

namespace Gevisor.Verified.AccessBitmaps

open Lib Vmexit.Bitmaps

/-! ## MSRs -/

variable {change : Span → Nat → Except Err Span} {value : Bool}

/-- The MSRs that have bits in the bitmap. -/
def Covered (msr : Nat) : Prop := msr ≤ 0x1FFF ∨ 0xC0000000 ≤ msr ∧ msr ≤ 0xC0001FFF

/-- The first byte of each of the four bitmaps of the page. -/
def base (d : Direction) (high : Bool) : Nat :=
  match d, high with
  | .read, false => 0
  | .read, true => 1024
  | .write, false => 2048
  | .write, true => 3072

/-- Whether the processor exits on an access: the low 13 bits of the number select a bit of the bitmap for
the kind of access and the range. -/
def exits (page : Span) (d : Direction) (msr : Nat) : Bool :=
  (page.data (base d (0xC0000000 ≤ msr) + msr % 0x2000 / 8)).getLsbD (msr % 0x2000 % 8)

/-- What a call says about an access. -/
def verdict (d : Direction) (msr : Nat) : MsrCall → Option Bool
  | .trapOnAccess d' msr' => if d' = d ∧ msr' = msr then some true else none
  | .passThroughAccess d' msr' => if d' = d ∧ msr' = msr then some false else none
  | .trapOnAllAccesses d' => if d' = d then some true else none
  | .passThroughAllAccesses d' => if d' = d then some false else none

/-- The handler that is called. -/
def direction : MsrCall → Direction
  | .trapOnAccess d _ => d
  | .passThroughAccess d _ => d
  | .trapOnAllAccesses d => d
  | .passThroughAllAccesses d => d

/-- The MSR that a call names. -/
def msr? : MsrCall → Option Nat
  | .trapOnAccess _ msr => some msr
  | .passThroughAccess _ msr => some msr
  | .trapOnAllAccesses _ => none
  | .passThroughAllAccesses _ => none

/-- The page after a call; one that throws has not written. -/
def next (page : Span) (call : MsrCall) : Span :=
  match call.run page with
  | .ok page' => page'
  | .error _ => page

/-- The bit of an access. -/
def slot (d : Direction) (msr : Nat) : Nat := if msr ≤ 0x1FFF then msr + d.bias.1 else msr - 0xC0000000 + d.bias.2

variable {msr msr' port : Nat} {d : Direction} {call : MsrCall}

theorem exits_eq (hcv : Covered msr) (page : Span) (d : Direction) : exits page d msr = page.bit (slot d msr) := by
  have same : base d (0xC0000000 ≤ msr) + msr % 0x2000 / 8 = slot d msr / 8 ∧ msr % 0x2000 % 8 = slot d msr % 8 := by
    rw [slot]
    cases hcv with
    | inl low =>
      rw [if_pos low, decide_eq_false (show ¬ 0xC0000000 ≤ msr by omega)]
      cases d <;> simp only [base, Direction.bias] <;> omega
    | inr high =>
      rw [if_neg (by omega), decide_eq_true high.1]
      cases d <;> simp only [base, Direction.bias] <;> omega
  rw [exits, Span.bit, same.1, same.2]

theorem slot_inj (hcv : Covered msr) (hcv' : Covered msr') {d' : Direction} :
    slot d msr = slot d' msr' ↔ d' = d ∧ msr' = msr := by
  constructor
  · intro same
    simp only [Covered] at hcv hcv'
    cases d <;> cases d' <;> simp only [slot, Direction.bias, reduceCtorEq, false_and, true_and] at same ⊢ <;>
      split at same <;> split at same <;> omega
  · rintro ⟨rfl, rfl⟩
    rfl

theorem slot_half (hcv : Covered msr) (d d' : Direction) :
    d'.half * 8 ≤ slot d msr ∧ slot d msr < (d'.half + 2048) * 8 ↔ d' = d := by
  simp only [Covered] at hcv
  cases d <;> cases d' <;> simp only [slot, Direction.bias, Direction.half, reduceCtorEq, iff_true, iff_false] <;>
    split <;> omega

variable {page : Span} {msr : Nat}

/-- The call returns, and the bits are as `asked`, or as before where nothing is. -/
def Writes (asked : Direction → Nat → Option Bool) (page : Span) (result : Except Err Span) : Prop :=
  ∃ page', result = .ok page' ∧ page'.size = 4096 ∧
    ∀ d msr, Covered msr → page'.bit (slot d msr) = (asked d msr).getD (page.bit (slot d msr))

/-- A call for a single MSR writes its bit. -/
theorem accessMsr_writes (hm : Makes value change) (size : page.size = 4096) (d' : Direction)
    (hcv' : Covered msr') :
    Writes (fun d msr => if d' = d ∧ msr' = msr then some value else none) page (accessMsr change d'.bias page msr') := by
  have hs : accessMsr change d'.bias page msr' = change page (slot d' msr') := by
    rw [accessMsr, slot]
    cases hcv' with
    | inl low => rw [if_pos low, if_pos low, Nat.sub_zero]
    | inr high =>
      have hn : ¬ msr' ≤ 0x1FFF := by omega
      rw [if_neg hn, if_neg hn, if_pos high]
  have hi : slot d' msr' / 8 < page.size := by
    simp only [Covered] at hcv'
    rw [size, slot]
    cases d' <;> simp only [Direction.bias] <;> split <;> omega
  have made := hm page (slot d' msr')
  rw [if_pos hi, size] at made
  obtain ⟨page', hret, size', bits⟩ := made
  refine ⟨page', hs.trans hret, size', fun d msr hcv => ?_⟩
  simp only [bits, slot_inj hcv hcv']
  split <;> rfl

theorem accessMsr_throws {bias : Nat × Nat} (hout : ¬ Covered msr) :
    accessMsr change bias page msr = .error (.exn ("invalid msr: " ++ toString msr)) := by
  rw [Covered, not_or] at hout
  rw [accessMsr, if_neg hout.1, if_neg hout.2]

/-- A call for all MSRs writes a half of the page. -/
theorem memset_writes (size : page.size = 4096) (d' : Direction) (value : Bool) :
    Writes (fun d _ => if d' = d then some value else none) page
      (memsetSubspan page d'.half (page.size >>> 1) (uniform value)) := by
  have hret : memsetSubspan page d'.half (page.size >>> 1) (uniform value) =
      .ok (page.fill d'.half 2048 (uniform value)) := by
    have half : page.size >>> 1 = 2048 := by rw [size]; rfl
    rw [memsetSubspan, half, size, if_neg (by cases d' <;> decide), if_neg (by decide)]
  refine ⟨_, hret, size, fun d msr hcv => ?_⟩
  simp only [bit_fill_uniform, slot_half hcv]
  split <;> rfl

/-- What any call does. -/
theorem run_spec (size : page.size = 4096) (call : MsrCall) :
    (∀ msr ∈ msr? call, Covered msr) ∧ Writes (fun d msr => verdict d msr call) page (call.run page) ∨
      ∃ msr ∈ msr? call, ¬ Covered msr ∧ call.run page = .error (.exn ("invalid msr: " ++ toString msr)) := by
  cases call with
  | trapOnAccess d msr =>
    by_cases hcv : Covered msr
    · exact .inl ⟨by simpa [msr?] using hcv, accessMsr_writes makes_setBit size d hcv⟩
    · exact .inr ⟨msr, rfl, hcv, accessMsr_throws hcv⟩
  | passThroughAccess d msr =>
    by_cases hcv : Covered msr
    · exact .inl ⟨by simpa [msr?] using hcv, accessMsr_writes makes_clearBit size d hcv⟩
    · exact .inr ⟨msr, rfl, hcv, accessMsr_throws hcv⟩
  | trapOnAllAccesses d => exact .inl ⟨by simp [msr?], memset_writes size d true⟩
  | passThroughAllAccesses d => exact .inl ⟨by simp [msr?], memset_writes size d false⟩

theorem run_ok_iff (size : page.size = 4096) (call : MsrCall) :
    (∃ page', call.run page = .ok page') ↔ ∀ msr ∈ msr? call, Covered msr := by
  cases run_spec size call with
  | inl hw =>
    obtain ⟨hcv, page', hret, -⟩ := hw
    exact ⟨fun _ => hcv, fun _ => ⟨page', hret⟩⟩
  | inr hth =>
    obtain ⟨msr, hn, hout, hth⟩ := hth
    constructor
    · intro ⟨page', hret⟩
      cases hth.symm.trans hret
    · intro hcv
      exact absurd (hcv msr hn) hout

/-- A call about another MSR, or about none. -/
theorem verdict_eq_none (hn : msr' ∈ msr? call) (ho : msr' ≠ msr) (d : Direction) : verdict d msr call = none := by
  cases call <;> simp_all [verdict, msr?]

theorem verdict_eq_none_of_direction (ho : direction call ≠ d) : verdict d msr call = none := by
  cases call <;> simp_all [verdict, direction]

theorem next_spec (size : page.size = 4096) (call : MsrCall) : (next page call).size = 4096 ∧
    ∀ d msr, Covered msr → exits (next page call) d msr = (verdict d msr call).getD (exits page d msr) := by
  rw [next]
  cases run_spec size call with
  | inl hw =>
    obtain ⟨-, page', hret, size', bits⟩ := hw
    rw [hret]
    refine ⟨size', fun d msr hcv => ?_⟩
    rw [exits_eq hcv, exits_eq hcv]
    exact bits d msr hcv
  | inr hth =>
    obtain ⟨msr', hn, hout, hth⟩ := hth
    rw [hth]
    refine ⟨size, fun d msr hcv => ?_⟩
    have ho : msr' ≠ msr := fun same => hout (same ▸ hcv)
    rw [verdict_eq_none hn ho]
    rfl

/-- The page after a history of calls. -/
def after (calls : List MsrCall) : Span := calls.foldl next msrBitmap

theorem exits_after (calls : List MsrCall) (d : Direction) (hcv : Covered msr) :
    (after calls).size = 4096 ∧ exits (after calls) d msr = lastly (verdict d msr) calls := by
  have hs : exits msrBitmap d msr = false := BitVec.getLsbD_zero
  exact foldl_lastly (I := fun page => page.size = 4096) (O := fun page => exits page d msr)
    (fun page call size => (next_spec size call).1)
    (fun page call size => (next_spec size call).2 d msr hcv) rfl hs calls

/-- For every history of calls: what exits is what was asked for last, calls succeed exactly for the MSRs in
the bitmap, and calls of one handler do not change what the other has asked for. -/
theorem msr_bitmap_refines (calls : List MsrCall) :
    (∀ d msr, Covered msr → exits (after calls) d msr = lastly (verdict d msr) calls) ∧
    (∀ call : MsrCall, (∃ page, call.run (after calls) = .ok page) ↔ ∀ msr ∈ msr? call, Covered msr) ∧
    (∀ call d msr, Covered msr → direction call ≠ d → exits (next (after calls) call) d msr = exits (after calls) d msr) := by
  have size : (after calls).size = 4096 := (exits_after calls .read (.inl (Nat.zero_le 0x1FFF))).1
  refine ⟨fun d msr covered => (exits_after calls d covered).2, run_ok_iff size, fun call d msr covered other => ?_⟩
  rw [(next_spec size call).2 d msr covered, verdict_eq_none_of_direction other]
  rfl

/-- The last word about MSR `0x3A` is a trap, although the other handler has passed everything through since. -/
example : exits (after [.trapOnAccess .read 0x3A, .passThroughAllAccesses .write]) .read 0x3A = true := by decide

/-! ## Ports -/

/-- The bit of a port. -/
def portBit (bitmaps : IoBitmaps) (port : Nat) : Bool :=
  if port < 0x8000 then bitmaps.a.bit (port % 0x8000) else bitmaps.b.bit (port % 0x8000)

def portVerdict (port : Nat) : PortCall → Option Bool
  | .trapOnAccess port' => if port' = port then some true else none
  | .passThroughAccess port' => if port' = port then some false else none
  | .trapOnAllAccesses => some true
  | .passThroughAllAccesses => some false

/-- The port that a call names. -/
def port? : PortCall → Option Nat
  | .trapOnAccess port => some port
  | .passThroughAccess port => some port
  | .trapOnAllAccesses => none
  | .passThroughAllAccesses => none

/-- A call has a next state only if it succeeds. -/
def portStep (bitmaps : IoBitmaps) (call : PortCall) : Option IoBitmaps := (call.run bitmaps).toOption

/-- Both pages are pages. -/
def Paged (bitmaps : IoBitmaps) : Prop := bitmaps.a.size = 4096 ∧ bitmaps.b.size = 4096

variable {bitmaps bitmaps' : IoBitmaps}

/-- The call returns, and the bits of the ports are as `asked`, or as before where nothing is. -/
def PortWrites (asked : Nat → Option Bool) (bitmaps : IoBitmaps) (result : Except Err IoBitmaps) : Prop :=
  ∃ bitmaps', result = .ok bitmaps' ∧ Paged bitmaps' ∧
    ∀ port < 0x10000, portBit bitmaps' port = (asked port).getD (portBit bitmaps port)

theorem accessPort_writes (hm : Makes value change) (hp : Paged bitmaps) {port' : Nat} (low : port' < 0x8000) :
    PortWrites (fun port => if port' = port then some value else none) bitmaps (accessPort change bitmaps port') := by
  have made := hm bitmaps.a port'
  rw [hp.1, if_pos (by omega)] at made
  obtain ⟨a, hret, size, bits⟩ := made
  have hs : accessPort change bitmaps port' = .ok { bitmaps with a := a } := by
    rw [accessPort, if_pos low, hret]
    rfl
  refine ⟨_, hs, ⟨size, hp.2⟩, fun port hb => ?_⟩
  simp only [portBit, bits]
  by_cases hl : port < 0x8000
  · rw [if_pos hl, if_pos hl, Nat.mod_eq_of_lt hl]
    by_cases same : port' = port
    · simp [same]
    · simp [same, Ne.symm same]
  · rw [if_neg hl, if_neg hl, if_neg (show port' ≠ port by omega)]
    rfl

/-- From `0x8000` on the index is past the end of the page. -/
theorem accessPort_throws (hm : Makes value change)
    (hp : Paged bitmaps) (high : ¬ port < 0x8000) : ∃ e, accessPort change bitmaps port = .error e := by
  have made := hm bitmaps.b port
  rw [hp.2, if_neg (by omega)] at made
  rw [accessPort, if_neg high, made]
  split
  · exact ⟨_, rfl⟩
  · exact ⟨_, rfl⟩

section

variable (hp : Paged bitmaps)

include hp

theorem accessAllPorts_writes (value : Bool) :
    PortWrites (fun _ => some value) bitmaps (accessAllPorts (uniform value) bitmaps) := by
  have hwh {view : Span} (size : view.size = 4096) :
      memsetSubspan view 0 view.size (uniform value) = .ok (view.fill 0 4096 (uniform value)) := by
    rw [memsetSubspan, size, if_neg (by decide), if_neg (by decide)]
  have hret : accessAllPorts (uniform value) bitmaps =
      .ok ⟨bitmaps.a.fill 0 4096 (uniform value), bitmaps.b.fill 0 4096 (uniform value)⟩ := by
    rw [accessAllPorts, hwh hp.1, hwh hp.2]
    rfl
  refine ⟨_, hret, hp, fun port hb => ?_⟩
  have hi : 0 * 8 ≤ port % 0x8000 ∧ port % 0x8000 < (0 + 4096) * 8 := by omega
  simp only [portBit, bit_fill_uniform, if_pos hi, ite_self, Option.getD_some]

theorem portRun_spec (call : PortCall) :
    (∀ port ∈ port? call, port < 0x8000) ∧ PortWrites (fun port => portVerdict port call) bitmaps (call.run bitmaps) ∨
      (∃ port ∈ port? call, ¬ port < 0x8000) ∧ ∃ e, call.run bitmaps = .error e := by
  cases call with
  | trapOnAccess port =>
    by_cases low : port < 0x8000
    · exact .inl ⟨by simpa [port?] using low, accessPort_writes makes_setBit hp low⟩
    · exact .inr ⟨⟨port, rfl, low⟩, accessPort_throws makes_setBit hp low⟩
  | passThroughAccess port =>
    by_cases low : port < 0x8000
    · exact .inl ⟨by simpa [port?] using low, accessPort_writes makes_clearBit hp low⟩
    · exact .inr ⟨⟨port, rfl, low⟩, accessPort_throws makes_clearBit hp low⟩
  | trapOnAllAccesses => exact .inl ⟨by simp [port?], accessAllPorts_writes hp true⟩
  | passThroughAllAccesses => exact .inl ⟨by simp [port?], accessAllPorts_writes hp false⟩

theorem portStep_spec {call : PortCall} (next : portStep bitmaps call = some bitmaps') :
    (∀ port ∈ port? call, port < 0x8000) ∧ Paged bitmaps' ∧
      ∀ port < 0x10000, portBit bitmaps' port = (portVerdict port call).getD (portBit bitmaps port) := by
  rw [portStep] at next
  cases portRun_spec hp call with
  | inl hw =>
    obtain ⟨low, page', hret, hp', bits⟩ := hw
    rw [hret] at next
    cases next
    exact ⟨low, hp', bits⟩
  | inr hth =>
    obtain ⟨-, e, hth⟩ := hth
    rw [hth] at next
    cases next

theorem exists_portStep {call : PortCall} (low : ∀ port ∈ port? call, port < 0x8000) :
    ∃ bitmaps', portStep bitmaps call = some bitmaps' ∧ Paged bitmaps' := by
  cases portRun_spec hp call with
  | inl hw =>
    obtain ⟨-, page', hret, hp', -⟩ := hw
    exact ⟨page', by rw [portStep, hret]; rfl, hp'⟩
  | inr hth =>
    obtain ⟨⟨port, hn, high⟩, -⟩ := hth
    exact absurd (low port hn) high

theorem low_of_run {calls : List PortCall} (hre : run portStep bitmaps calls = some bitmaps') :
    ∀ call ∈ calls, ∀ port ∈ port? call, port < 0x8000 := by
  induction calls generalizing bitmaps with
  | nil => exact fun call mem => absurd mem List.not_mem_nil
  | cons call calls ih =>
    obtain ⟨t, first, rest⟩ := run_cons.mp hre
    obtain ⟨low, hp', -⟩ := portStep_spec hp first
    intro call' mem
    cases List.mem_cons.mp mem with
    | inl here => exact here ▸ low
    | inr hla => exact ih hp' rest call' hla

end

theorem paged_fresh : Paged .fresh := ⟨rfl, rfl⟩

theorem portBit_run {calls : List PortCall} (hre : run portStep .fresh calls = some bitmaps)
    (hb : port < 0x10000) : portBit bitmaps port = lastly (portVerdict port) calls := by
  have hs : portBit .fresh port = false := by
    simp [portBit, IoBitmaps.fresh, Span.bit_zero]
  refine (run_lastly (I := Paged) (O := fun bitmaps => portBit bitmaps port) ?_ ?_ paged_fresh hs hre).2
  · intro s call t hp next
    exact (portStep_spec hp next).2.1
  · intro s call t hp next
    exact (portStep_spec hp next).2.2 port hb

/-- For every history of calls: all of them succeed, and what exits is what was asked for last, exactly if no
call names a port of the upper half. -/
theorem io_bitmaps_refine_iff (calls : List PortCall) : (∃ bitmaps, run portStep .fresh calls = some bitmaps ∧
      ∀ port < 0x10000, portBit bitmaps port = lastly (portVerdict port) calls) ↔
      ∀ call ∈ calls, ∀ port ∈ port? call, port < 0x8000 := by
  constructor
  · intro ⟨bitmaps, reach, _⟩
    exact low_of_run paged_fresh reach
  · intro low
    obtain ⟨bitmaps, reach, -⟩ := exists_run_of_progress (C := fun _ call => ∀ port ∈ port? call, port < 0x8000)
      (fun _ _ paged low => exists_portStep paged low) paged_fresh (allSteps_of_forall low)
    exact ⟨bitmaps, reach, fun port below => portBit_run reach below⟩

/-- The first port of the upper half. -/
theorem upper_port_throws : (PortCall.trapOnAccess 0x8000).run .fresh = .error failFast := rfl

end Gevisor.Verified.AccessBitmaps
