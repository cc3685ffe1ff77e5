import Gevisor.Verified.DebugRing

/-! # Reading the debug ring

`debug_ring_read` drops the zeros between the messages, but puts its own zero where the text would end if it had kept
them. Between the two the buffer keeps what it held before.
-/

namespace Gevisor.Verified.DebugRingRead

open Gevisor.Lib.Ring Gevisor.Debug Gevisor.Verified.DebugRing

/-- The result is the text of the messages, with a zero behind it. -/
structure IsText (ms : List (List UInt8)) (result : Nat × (Nat → UInt8)) : Prop where
  count : result.1 = ms.flatten.length
  characters : ∀ j < ms.flatten.length, result.2 j = ms.flatten.getD j 0
  terminated : result.2 ms.flatten.length = 0

theorem text_ringText {ms : List (List UInt8)} (hc : ∀ m ∈ ms, 0 ∉ m) : text (ringText ms) = ms.flatten := by
  induction ms with
  | nil => rfl
  | cons m ms ih =>
    have kept : m.filter (· ≠ 0) = m := by
      rw [List.filter_eq_self]
      intro c mem
      have ho : c ≠ 0 := fun zero => hc m List.mem_cons_self (zero ▸ mem)
      simpa using ho
    have rest : (ringText ms).filter (· ≠ 0) = ms.flatten := ih fun m' mem => hc m' (List.mem_cons_of_mem _ mem)
    rw [text, ringText_cons, List.filter_append, List.filter_cons_of_neg (by simp), kept, rest, List.flatten_cons]

/-- Each message has a zero of its own. -/
theorem length_ringText (ms : List (List UInt8)) : (ringText ms).length = ms.flatten.length + ms.length := by
  induction ms with
  | nil => rfl
  | cons m ms ih =>
    rw [length_ringText_cons, ih, List.flatten_cons, List.length_append, List.length_cons]
    omega

theorem Newest.unique {hacc ms ms' : List (List UInt8)} (one : Newest hacc ms) (ho : Newest hacc ms') :
    ms = ms' := by
  have first := ho.longest ms one.suffix one.fits
  have hs := one.longest ms' ho.suffix ho.fits
  exact first.eq_of_length (Nat.le_antisymm first.length_le hs.length_le)

section

variable {d : DebugRingResources} {s len : Nat} {ms : List (List UInt8)}

/-- Without a wrap of the counters the loop goes over exactly the messages, and the zero comes after as many bytes as
these have. -/
theorem debugRingRead_eq (hh : Holds s (ringText ms) d) (hor : d.spos ≤ d.epos)
    (room : (ringText ms).length < len) (str : Nat → UInt8) : ∃ after, Reads (ringText ms) 0 str after ∧
      (debugRingRead d str len).1 = after.1 ∧ (debugRingRead d str len).2 (ringText ms).length = 0 ∧
      ∀ j ≠ (ringText ms).length, (debugRingRead d str len).2 j = after.2 j := by
  have hc : d.epos - d.spos = (ringText ms).length := by
    have fits := hh.fits
    have first := hh.spos
    have last := hh.epos
    simp only [debugRingSize] at fits
    omega
  have hb : window debugRingSize d.buf d.spos (ringText ms).length = ringText ms := by
    have same : d.spos % debugRingSize = s % debugRingSize := by
      rw [hh.spos]
      exact Nat.mod_mod_of_dvd s (by decide)
    rw [window_congr same]
    exact hh.bytes
  have hr := readLoop_reads d (ringText ms).length d.spos 0 str
  rw [hb] at hr
  have ends : debugRingRead d str len = ((readLoop d (ringText ms).length (d.spos % debugRingSize) 0 str).1,
      Function.update (readLoop d (ringText ms).length (d.spos % debugRingSize) 0 str).2 (ringText ms).length 0) := by
    rw [debugRingRead, if_neg (by omega), if_neg (by omega), hc]
    dsimp only
    rw [Nat.min_eq_left (by omega)]
  rw [ends]
  exact ⟨_, hr, rfl, Function.update_self .., fun j ho => Function.update_of_ne ho ..⟩

theorem isText_iff (hh : Holds s (ringText ms) d) (hcl : ∀ m ∈ ms, 0 ∉ m) (hne : ∀ m ∈ ms, m ≠ [])
    (room : (ringText ms).length < len) (str : Nat → UInt8) :
    IsText ms (debugRingRead d str len) ↔ d.spos ≤ d.epos ∧ (ms = [] ∨ str ms.flatten.length = 0) := by
  by_cases ho : d.spos ≤ d.epos
  · obtain ⟨ha, ⟨ht, hwr, -, hb⟩, hco, zero, hot⟩ := debugRingRead_eq hh ho room str
    rw [text_ringText hcl] at ht hwr hb
    simp only [Nat.zero_add] at ht hwr hb
    have hl := length_ringText ms
    by_cases hem : ms = []
    · have hwh : ms.flatten.length = (ringText ms).length := by rw [hem]; rfl
      refine ⟨fun _ => ⟨ho, .inl hem⟩, fun _ => ⟨hco.trans ht, ?_, hwh ▸ zero⟩⟩
      intro j less
      rw [hot j (by omega)]
      exact hwr j less
    · -- The zero is not the first byte after the text, so that one is as it was before.
      have hpos := List.length_pos_iff.mpr hem
      have old : (debugRingRead d str len).2 ms.flatten.length = str ms.flatten.length := by
        rw [hot _ (by omega), hb _ (Nat.le_refl _)]
      constructor
      · intro hr
        exact ⟨ho, .inr (old.symm.trans hr.terminated)⟩
      · intro hc
        refine ⟨hco.trans ht, ?_, old.trans (hc.2.resolve_left hem)⟩
        intro j less
        rw [hot j (by omega)]
        exact hwr j less
  · -- The counter of the end has wrapped around, and nothing is read.
    constructor
    · intro hr
      have none := hr.count
      rw [debugRingRead, if_neg (by omega), if_pos (by omega)] at none
      cases ms with
      | nil =>
        have first := hh.spos
        have last := hh.epos
        rw [show ringText [] = [] from rfl, List.length_nil, Nat.add_zero] at last
        omega
      | cons m ms =>
        have hpos := List.length_pos_iff.mpr (hne m List.mem_cons_self)
        rw [List.flatten_cons, List.length_append] at none
        omega
    · intro hc
      exact absurd hc.1 ho

end

/-- After any writes, and for every buffer that is longer than the content of the ring: what is read is the text of the
retained messages exactly if the counters have not wrapped around and the buffer had a zero behind the text before,
unless there is no message. -/
theorem read_text_iff (history : List (List UInt8)) (clean : ∀ m ∈ history, 0 ∉ m) (ms : List (List UInt8))
    (retained : Newest (history.filter accepts) ms) (str : Nat → UInt8) (len : Nat)
    (longer : (ringText ms).length < len) :
    IsText ms (debugRingRead (history.foldl write .init) str len) ↔
      (history.foldl write .init).spos ≤ (history.foldl write .init).epos ∧ (ms = [] ∨ str ms.flatten.length = 0) := by
  obtain ⟨s, ms', newest, holds⟩ := retains_run history clean
  rw [Newest.unique newest retained] at holds
  have accepted : ∀ m ∈ ms, m ∈ history ∧ accepts m = true :=
    fun m mem => List.mem_filter.mp (retained.suffix.subset mem)
  refine isText_iff holds (fun m mem => clean m (accepted m mem).1) ?_ longer str
  intro m mem empty
  have ok := (accepted m mem).2
  rw [empty] at ok
  exact absurd ok (by decide)

/-! ## One message -/

theorem one_retained : Newest ([[0x68, 0x69]].filter accepts) [[0x68, 0x69]] := by
  have kept : ([[0x68, 0x69]] : List (List UInt8)).filter accepts = [[0x68, 0x69]] := by decide
  rw [kept]
  exact ⟨List.suffix_refl _, by decide, fun ms' hs _ => hs⟩

/-- A cleared buffer. -/
theorem read_text_cleared : IsText [[0x68, 0x69]] (debugRingRead ([[0x68, 0x69]].foldl write .init) (fun _ => 0) 8) := by
  have condition := read_text_iff [[0x68, 0x69]] (by decide) _ one_retained (fun _ => 0) 8 (by decide)
  rw [condition]
  exact ⟨by decide +kernel, .inr rfl⟩

/-- A buffer of other characters: the message is followed by one of them. -/
theorem read_unterminated : (debugRingRead ([[0x68, 0x69]].foldl write .init) (fun _ => 0x58) 8).1 = 2 ∧
      (debugRingRead ([[0x68, 0x69]].foldl write .init) (fun _ => 0x58) 8).2 2 = 0x58 := by
  decide +kernel

end Gevisor.Verified.DebugRingRead
