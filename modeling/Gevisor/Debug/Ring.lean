import Gevisor.Lib.Ring

/-! # The debug ring

`debug_ring::write`: strings are written to a ring of bytes, each with its terminating zero. Where space is
missing, bytes are erased from the start of the ring until a zero is met with enough space behind it.
`Holds` says which bytes lie between the two positions.
-/

namespace Gevisor.Debug

open Gevisor.Lib.Ring

def debugRingSize : Nat := 2 ^ 15

/-- `debug_ring_resources_t`. The positions are 64-bit counters; the place in the buffer is taken modulo its
size. -/
structure DebugRingResources where
  epos : Nat
  spos : Nat
  buf : Nat → UInt8

/-- The ring of a new `debug_ring`. -/
def DebugRingResources.init : DebugRingResources := ⟨0, 0, fun _ => 0⟩

/-- `if (pos >= DEBUG_RING_SIZE) pos = 0`. -/
def wrap (pos : Nat) : Nat := if pos ≥ debugRingSize then 0 else pos

/-- The loop that makes room for `len` bytes. -/
def makeRoom (len space cpos : Nat) (d : DebugRingResources) : DebugRingResources :=
  if space ≤ debugRingSize then
    let d := { d with spos := (d.spos + 1) % 2 ^ 64 }
    if d.buf (wrap cpos) = 0 ∧ space + 1 ≥ len then d
    else makeRoom len (space + 1) (wrap cpos + 1) { d with buf := Function.update d.buf (wrap cpos) 0 }
  else d
termination_by debugRingSize + 1 - space

/-- The loop that copies the bytes in. -/
def copyIn : List UInt8 → Nat → DebugRingResources → DebugRingResources
  | [], _, d => d
  | c :: rest, epos, d =>
    copyIn rest (wrap epos + 1)
      { d with buf := Function.update d.buf (wrap epos) c, epos := (d.epos + 1) % 2 ^ 64 }

def accepts (str : List UInt8) : Bool := !(str.isEmpty || decide (str.length ≥ debugRingSize))

/-- `DEBUG_RING_SIZE - (epos - spos)` in 64 bits. -/
def freeSpace (d : DebugRingResources) : Nat :=
  (2 ^ 64 + debugRingSize - (2 ^ 64 + d.epos - d.spos) % 2 ^ 64) % 2 ^ 64

/-- `str[len - 1]` is the terminating zero. -/
def write (d : DebugRingResources) (str : List UInt8) : DebugRingResources :=
  if accepts str then
    let len := str.length + 1
    let epos := d.epos &&& (debugRingSize - 1)
    let cpos := d.spos &&& (debugRingSize - 1)
    let space := freeSpace d
    let d := if space < len then makeRoom len space cpos d else d
    copyIn (str ++ [0]) epos d
  else d

/-! ## `debug_ring_read` -/

/-- The loop of `debug_ring_read` for `n` more bytes. Zeros are passed over, so `count` falls behind. -/
def readLoop (d : DebugRingResources) : Nat → Nat → Nat → (Nat → UInt8) → Nat × (Nat → UInt8)
  | 0, _, count, str => (count, str)
  | n + 1, spos, count, str =>
    if d.buf spos ≠ 0 then
      readLoop d n ((spos + 1) % debugRingSize) (count + 1) (Function.update str count (d.buf spos))
    else readLoop d n ((spos + 1) % debugRingSize) count str

/-- The number of bytes that are returned, and the buffer of `len` bytes afterwards. -/
def debugRingRead (d : DebugRingResources) (str : Nat → UInt8) (len : Nat) : Nat × (Nat → UInt8) :=
  if len = 0 then (0, str)
  else if d.spos > d.epos then (0, str)
  else
    let content := d.epos - d.spos
    -- The value of `i` after the loop.
    let i := min content (len - 1)
    let result := readLoop d i (d.spos % debugRingSize) 0 str
    (result.1, Function.update result.2 i 0)

/-! ## The bytes between the positions -/

/-- The bytes from position `s` on are `l`; the counters are `s` and its end, modulo 2^64. -/
structure Holds (s : Nat) (l : List UInt8) (d : DebugRingResources) : Prop where
  spos : d.spos = s % 2 ^ 64
  epos : d.epos = (s + l.length) % 2 ^ 64
  fits : l.length ≤ debugRingSize
  bytes : window debugRingSize d.buf s l.length = l

section Loops

variable {d : DebugRingResources} {s len space cpos : Nat} {l rest : List UInt8} {c : UInt8}

theorem Holds.init : Holds 0 [] .init where
  spos := rfl
  epos := rfl
  fits := Nat.zero_le _
  bytes := rfl

theorem Holds.freeSpace_eq (hh : Holds s l d) : freeSpace d = debugRingSize - l.length := by
  have fits := hh.fits
  rw [freeSpace, hh.spos, hh.epos]
  simp only [debugRingSize] at fits ⊢
  omega

theorem mask_eq (pos : Nat) :
    pos &&& (debugRingSize - 1) = pos % debugRingSize := Nat.and_two_pow_sub_one_eq_mod pos 15

theorem wrap_mod (pos : Nat) : wrap (pos % debugRingSize) = pos % debugRingSize :=
  if_neg (Nat.not_le_of_lt (Nat.mod_lt _ (by decide)))

theorem wrap_succ (pos : Nat) : wrap (pos % debugRingSize + 1) = (pos + 1) % debugRingSize := by
  by_cases full : pos % debugRingSize + 1 ≥ debugRingSize
  · rw [wrap, if_pos full]
    simp only [debugRingSize] at full ⊢
    omega
  · rw [wrap, if_neg full]
    simp only [debugRingSize] at full ⊢
    omega

/-- The first byte of the ring. -/
theorem Holds.head (hh : Holds s (c :: l) d) : d.buf (s % debugRingSize) = c := by
  have hb := hh.bytes
  rw [List.length_cons, window] at hb
  exact (List.cons.inj hb).1

/-- Erasing the first byte, or leaving it outside. -/
theorem Holds.tail (hh : Holds s (c :: l) d) : Holds (s + 1) l { d with spos := (d.spos + 1) % 2 ^ 64 } where
  spos := by
    show (d.spos + 1) % 2 ^ 64 = _
    rw [hh.spos, Nat.mod_add_mod]
  epos := by
    show d.epos = _
    rw [hh.epos, List.length_cons, Nat.add_assoc, Nat.add_comm 1]
  fits := Nat.le_of_succ_le hh.fits
  bytes := by
    have hb := hh.bytes
    rw [List.length_cons, window] at hb
    exact (List.cons.inj hb).2

theorem Holds.erase (hh : Holds (s + 1) l d) (room : l.length < debugRingSize) (x : UInt8) :
    Holds (s + 1) l { d with buf := Function.update d.buf (s % debugRingSize) x } where
  spos := hh.spos
  epos := hh.epos
  fits := hh.fits
  bytes := (window_update_before room x).trans hh.bytes

/-- One more byte at the end. -/
theorem Holds.push (hh : Holds s l d) (room : l.length < debugRingSize) (x : UInt8) : Holds s (l ++ [x]) { d with
      buf := Function.update d.buf ((s + l.length) % debugRingSize) x, epos := (d.epos + 1) % 2 ^ 64 } where
  spos := hh.spos
  epos := by
    show (d.epos + 1) % 2 ^ 64 = _
    rw [hh.epos, Nat.mod_add_mod, List.length_append, List.length_singleton, Nat.add_assoc]
  fits := by
    rw [List.length_append, List.length_singleton]
    exact room
  bytes := by
    rw [List.length_append, List.length_singleton, window_update_after room, hh.bytes]

/-- The bytes that are left when the loop meets its zero. -/
def dropRoom (len : Nat) : Nat → List UInt8 → Option (List UInt8)
  | _, [] => none
  | space, c :: l => if c = 0 ∧ space + 1 ≥ len then some l else dropRoom len (space + 1) l

theorem makeRoom_holds (hh : Holds s l d) (full : space + l.length = debugRingSize)
    (hp : wrap cpos = s % debugRingSize) (room : dropRoom len space l = some rest) :
    ∃ s', Holds s' rest (makeRoom len space cpos d) ∧ s' + rest.length = s + l.length := by
  induction l generalizing s d space cpos with
  | nil => cases room
  | cons c l ih =>
    have hw : space ≤ debugRingSize := by omega
    rw [List.length_cons] at full
    rw [makeRoom, if_pos hw]
    dsimp only
    rw [hp, hh.head]
    rw [dropRoom] at room
    split at room
    · next hs =>
      cases room
      rw [if_pos hs]
      exact ⟨s + 1, hh.tail, by rw [List.length_cons]; omega⟩
    · next goes =>
      rw [if_neg goes]
      obtain ⟨s', hh', ends⟩ := ih (hh.tail.erase (by omega) 0) (by omega) (wrap_succ s) room
      exact ⟨s', hh', by rw [List.length_cons]; omega⟩

theorem copyIn_holds (str : List UInt8) {epos : Nat} (hh : Holds s l d)
    (room : l.length + str.length ≤ debugRingSize) (hp : wrap epos = (s + l.length) % debugRingSize) :
    Holds s (l ++ str) (copyIn str epos d) := by
  induction str generalizing l d epos with
  | nil => rwa [List.append_nil]
  | cons c str ih =>
    rw [List.length_cons] at room
    rw [copyIn, hp, ← List.singleton_append, ← List.append_assoc]
    refine ih (hh.push (by omega) c) ?_ ?_
    · rw [List.length_append, List.length_singleton]
      omega
    · rw [wrap_succ, List.length_append, List.length_singleton, Nat.add_assoc]

/-- The characters other than zero of the bytes that are read. -/
def text (l : List UInt8) : List UInt8 := l.filter (· ≠ 0)

/-- What the loop writes, and that it writes nothing else. -/
structure Reads (l : List UInt8) (count : Nat) (str : Nat → UInt8) (result : Nat × (Nat → UInt8)) : Prop where
  total : result.1 = count + (text l).length
  written : ∀ j < (text l).length, result.2 (count + j) = (text l).getD j 0
  before : ∀ j < count, result.2 j = str j
  after : ∀ j, count + (text l).length ≤ j → result.2 j = str j

theorem readLoop_reads (d : DebugRingResources) (n s count : Nat) (str : Nat → UInt8) :
    Reads (window debugRingSize d.buf s n) count str (readLoop d n (s % debugRingSize) count str) := by
  induction n generalizing s count str with
  | zero => exact ⟨rfl, fun j less => absurd less (Nat.not_lt_zero j), fun _ _ => rfl, fun _ _ => rfl⟩
  | succ n ih =>
    have next : (s % debugRingSize + 1) % debugRingSize = (s + 1) % debugRingSize := Nat.mod_add_mod s debugRingSize 1
    rw [readLoop, window, next]
    by_cases zero : d.buf (s % debugRingSize) = 0
    · have hs : text (d.buf (s % debugRingSize) :: window debugRingSize d.buf (s + 1) n) =
          text (window debugRingSize d.buf (s + 1) n) := by simp [text, zero]
      rw [if_neg (not_not.mpr zero)]
      obtain ⟨ht, hwr, hbe, ha⟩ := ih (s + 1) count str
      constructor
      · rw [hs, ht]
      · rw [hs]
        exact hwr
      · exact hbe
      · rw [hs]
        exact ha
    · have htk : text (d.buf (s % debugRingSize) :: window debugRingSize d.buf (s + 1) n) =
          d.buf (s % debugRingSize) :: text (window debugRingSize d.buf (s + 1) n) := by simp [text, zero]
      rw [if_pos zero]
      obtain ⟨ht, hwr, hbe, ha⟩ := ih (s + 1) (count + 1) (Function.update str count (d.buf (s % debugRingSize)))
      constructor
      · rw [htk, ht, List.length_cons]
        omega
      · rw [htk, List.length_cons]
        intro j less
        cases j with
        | zero =>
          have here := hbe count (Nat.lt_succ_self count)
          rw [Function.update_self] at here
          exact here
        | succ j =>
          rw [show count + (j + 1) = count + 1 + j by omega, hwr j (by omega), List.getD_cons_succ]
      · intro j less
        rw [hbe j (by omega), Function.update_of_ne (by omega)]
      · rw [htk, List.length_cons]
        intro j hb
        rw [ha j (by omega), Function.update_of_ne (by omega)]

end Loops

end Gevisor.Debug
