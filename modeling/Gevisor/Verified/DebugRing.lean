import Gevisor.Debug.Ring

/-! # The debug ring holds the newest messages

The bytes in the ring are complete messages, namely the longest suffix of the accepted ones that the ring has
room for.
-/

namespace Gevisor.Verified.DebugRing

open Gevisor.Lib.Ring Gevisor.Debug

/-- The messages one after another, each followed by a zero. -/
def ringText (ms : List (List UInt8)) : List UInt8 := ms.flatMap (· ++ [0])

variable (m : List UInt8) (ms : List (List UInt8))

theorem ringText_cons : ringText (m :: ms) = m ++ 0 :: ringText ms := by
  rw [ringText, List.flatMap_cons, List.append_assoc, List.singleton_append, ringText]

theorem ringText_concat (m : List UInt8) : ringText (ms ++ [m]) = ringText ms ++ (m ++ [0]) := by
  rw [ringText, List.flatMap_append, List.flatMap_cons, List.flatMap_nil, List.append_nil, ringText]

theorem length_ringText_cons :
    (ringText (m :: ms)).length = m.length + 1 + (ringText ms).length := by
  rw [ringText_cons, List.length_append, List.length_cons]
  omega

/-- `ms` is the longest suffix of `accepted` that fits into the ring. -/
structure Newest (accepted ms : List (List UInt8)) : Prop where
  suffix : ms <:+ accepted
  fits : (ringText ms).length ≤ debugRingSize
  longest : ∀ ms', ms' <:+ accepted → (ringText ms').length ≤ debugRingSize → ms' <:+ ms

section Trim

variable {len space : Nat} {accepted ms t : List (List UInt8)} {m : List UInt8}

/-- The messages that are left when there is room for `len` bytes. -/
def trim (len : Nat) : Nat → List (List UInt8) → Option (List (List UInt8))
  | _, [] => none
  | space, m :: ms =>
    if space + (m.length + 1) ≥ len then some ms else trim len (space + (m.length + 1)) ms

/-- Bytes without a zero are passed over. -/
theorem dropRoom_append (hc : 0 ∉ m) (l : List UInt8) :
    dropRoom len space (m ++ l) = dropRoom len (space + m.length) l := by
  induction m generalizing space with
  | nil => rfl
  | cons c m ih =>
    have ho : ¬ (c = 0 ∧ space + 1 ≥ len) := fun hs => hc (hs.1 ▸ List.mem_cons_self ..)
    rw [List.cons_append, dropRoom, if_neg ho, ih fun hm => hc (List.mem_cons_of_mem c hm),
      List.length_cons, Nat.add_assoc, Nat.add_comm 1]

/-- The loop over bytes removes whole messages. -/
theorem dropRoom_ringText (hc : ∀ m, m ∈ ms → 0 ∉ m) :
    dropRoom len space (ringText ms) = (trim len space ms).map ringText := by
  induction ms generalizing space with
  | nil => rfl
  | cons m ms ih =>
    rw [ringText_cons, dropRoom_append (hc m (List.mem_cons_self ..)), dropRoom, trim, Nat.add_assoc]
    split
    · next hs => rw [if_pos hs.2, Option.map_some]
    · next goes =>
      rw [if_neg fun he => goes ⟨rfl, he⟩]
      exact ih fun m' hm => hc m' (List.mem_cons_of_mem m hm)

/-- As many messages are left as fit together with `len` bytes. -/
theorem trim_spec (fits : len ≤ debugRingSize) (space_eq : space + (ringText ms).length = debugRingSize)
    (full : space < len) :
    ∃ t, trim len space ms = some t ∧ t <:+ ms ∧ (ringText t).length + len ≤ debugRingSize ∧
      ∀ t', t' <:+ ms → (ringText t').length + len ≤ debugRingSize → t' <:+ t := by
  induction ms generalizing space with
  | nil =>
    rw [ringText, List.flatMap_nil, List.length_nil] at space_eq
    omega
  | cons m ms ih =>
    rw [length_ringText_cons] at space_eq
    -- All messages together leave too little space.
    have hpp {t' : List (List UInt8)} (hs : t' <:+ m :: ms) (he : (ringText t').length + len ≤ debugRingSize) :
        t' <:+ ms := by
      cases List.suffix_cons_iff.mp hs with
      | inl hwh =>
        rw [hwh, length_ringText_cons] at he
        omega
      | inr part => exact part
    rw [trim]
    split
    · next hst => exact ⟨ms, rfl, List.suffix_cons m ms, by omega, fun t' => hpp⟩
    · next goes =>
      obtain ⟨t, hf, hs, room, hl⟩ := @ih (space + (m.length + 1)) (by omega) (by omega)
      exact ⟨t, hf, hs.trans (List.suffix_cons m ms), room, fun t' hs' he =>
        hl t' (hpp hs' he) he⟩

/-- A new message after the longest suffix that leaves room for it. -/
theorem Newest.concat (hn : Newest accepted ms) (hs : t <:+ ms)
    (room : (ringText t).length + (m.length + 1) ≤ debugRingSize)
    (hl : ∀ t', t' <:+ ms → (ringText t').length + (m.length + 1) ≤ debugRingSize → t' <:+ t) :
    Newest (accepted ++ [m]) (t ++ [m]) where
  suffix := by
    obtain ⟨hbe, hwh⟩ := hs.trans hn.suffix
    exact ⟨hbe, by rw [← List.append_assoc, hwh]⟩
  fits := by
    rw [ringText_concat, List.length_append, List.length_append, List.length_singleton]
    exact room
  longest := by
    intro ms' hs' fits'
    cases List.suffix_concat_iff.mp hs' with
    | inl none =>
      rw [none]
      exact List.nil_suffix
    | inr some =>
      obtain ⟨t', rfl, hs''⟩ := some
      rw [ringText_concat, List.length_append, List.length_append, List.length_singleton] at fits'
      have hw := hn.longest t' hs'' (by omega)
      obtain ⟨hbe, hwh⟩ := hl t' hw fits'
      exact ⟨hbe, by rw [← List.append_assoc, hwh]⟩

end Trim

/-! ## Writing -/

section Write

variable {d : DebugRingResources} {s : Nat} {accepted ms : List (List UInt8)} {str : List UInt8}

/-- An accepted write removes just enough messages and adds its own. -/
theorem write_holds (hn : Newest accepted ms) (hc : ∀ m, m ∈ ms → 0 ∉ m) (hh : Holds s (ringText ms) d)
    (ok : accepts str = true) :
    ∃ s' t, Newest (accepted ++ [str]) (t ++ [str]) ∧ Holds s' (ringText (t ++ [str])) (write d str) := by
  have hsh : str.length + 1 ≤ debugRingSize := by
    simp only [accepts, Bool.not_or, Bool.and_eq_true, Bool.not_eq_true', decide_eq_false_iff_not] at ok
    omega
  have fits := hn.fits
  have hp (pos : Nat) : wrap (pos % 2 ^ 64 &&& (debugRingSize - 1)) = pos % debugRingSize := by
    rw [mask_eq, wrap_mod]
    exact Nat.mod_mod_of_dvd pos (by decide)
  have ha (t : List (List UInt8)) : ringText t ++ (str ++ [0]) = ringText (t ++ [str]) := (ringText_concat t str).symm
  rw [write, if_pos ok, hh.freeSpace_eq, hh.spos, hh.epos]
  dsimp only
  by_cases full : debugRingSize - (ringText ms).length < str.length + 1
  · -- Messages are removed from the start.
    have used : debugRingSize - (ringText ms).length + (ringText ms).length = debugRingSize := by omega
    obtain ⟨t, hf, hs, room, hl⟩ := trim_spec hsh used full
    have hd : dropRoom (str.length + 1) (debugRingSize - (ringText ms).length) (ringText ms) = some (ringText t) := by
      rw [dropRoom_ringText hc, hf, Option.map_some]
    obtain ⟨s', hh', ends⟩ := makeRoom_holds hh used (hp s) hd
    refine ⟨s', t, hn.concat hs room hl, ?_⟩
    rw [if_pos full, ← ha]
    refine copyIn_holds (str ++ [0]) hh' ?_ ?_
    · rw [List.length_append, List.length_singleton]
      exact room
    · rw [hp, ends]
  · refine ⟨s, ms, hn.concat (List.suffix_refl ms) (by omega) fun t' hs _ => hs, ?_⟩
    rw [if_neg full, ← ha]
    refine copyIn_holds (str ++ [0]) hh ?_ (hp _)
    rw [List.length_append, List.length_singleton]
    omega

/-- What the ring looks like after the writes of `history`. -/
def Retains (history : List (List UInt8)) (d : DebugRingResources) : Prop :=
  ∃ s ms, Newest (history.filter accepts) ms ∧ Holds s (ringText ms) d

theorem retains_write {history : List (List UInt8)} (hc : ∀ m, m ∈ history → 0 ∉ m) (hr : Retains history d) :
    Retains (history ++ [str]) (write d str) := by
  obtain ⟨s, ms, hn, hh⟩ := hr
  rw [Retains, List.filter_append]
  cases ok : accepts str with
  | true =>
    have kept (m : List UInt8) (hm : m ∈ ms) : 0 ∉ m := hc m (List.mem_of_mem_filter (hn.suffix.subset hm))
    obtain ⟨s', t, hn', hh'⟩ := write_holds hn kept hh ok
    refine ⟨s', t ++ [str], ?_, hh'⟩
    rwa [List.filter_singleton, ok, cond_true]
  | false =>
    refine ⟨s, ms, ?_, ?_⟩
    · rwa [List.filter_singleton, ok, cond_false, List.append_nil]
    · rwa [write, ok, if_neg Bool.false_ne_true]

theorem retains_run (history : List (List UInt8)) (hc : ∀ m, m ∈ history → 0 ∉ m) :
    Retains history (history.foldl write .init) := by
  induction history using List.reverseRecOn with
  | nil =>
    refine ⟨0, [], ⟨List.suffix_refl [], Nat.zero_le _, fun ms' hs _ => hs⟩, .init⟩
  | append_singleton history str ih =>
    rw [List.foldl_concat]
    exact retains_write (fun m hm => hc m (List.mem_append_left _ hm)) (ih fun m hm => hc m (List.mem_append_left _ hm))

end Write

/-- After any writes, the bytes from `spos` to `epos` are the newest messages that fit. -/
theorem ring_holds_newest (history : List (List UInt8)) (clean : ∀ m, m ∈ history → 0 ∉ m) :
    ∃ ms, Newest (history.filter accepts) ms ∧
      (2 ^ 64 + (history.foldl write .init).epos - (history.foldl write .init).spos) % 2 ^ 64 = (ringText ms).length ∧
      window debugRingSize (history.foldl write .init).buf (history.foldl write .init).spos (ringText ms).length =
        ringText ms := by
  obtain ⟨s, ms, newest, holds⟩ := retains_run history clean
  refine ⟨ms, newest, ?_, ?_⟩
  · have fits := newest.fits
    rw [holds.spos, holds.epos]
    simp only [debugRingSize] at fits
    omega
  · have same : (history.foldl write .init).spos % debugRingSize = s % debugRingSize := by
      rw [holds.spos]
      exact Nat.mod_mod_of_dvd s (by decide)
    rw [window_congr same]
    exact holds.bytes

/-- Two messages and an empty string, which is not written. -/
def twoMessages : List (List UInt8) := [[0x68, 0x69], [], [0x21]]

theorem ring_holds_two_messages : ∃ ms, Newest [[0x68, 0x69], [0x21]] ms ∧
      window debugRingSize (twoMessages.foldl write .init).buf (twoMessages.foldl write .init).spos
        (ringText ms).length = ringText ms := by
  have kept : twoMessages.filter accepts = [[0x68, 0x69], [0x21]] := by decide
  obtain ⟨ms, newest, -, bytes⟩ := ring_holds_newest twoMessages (by decide)
  rw [kept] at newest
  exact ⟨ms, newest, bytes⟩

end Gevisor.Verified.DebugRing
