import Gevisor.Elf.Symbols

/-! # Strings, hashes and chains

What the loops over strings and hash chains compute, once they are given enough room.
-/

namespace Gevisor.Elf

/-! ## Strings -/

variable {memory : Bytes} {limit w : Nat} {ef : AddedFile} {s : List Byte}

/-- The characters at `a` up to the first zero are `s`. -/
def StringAt (memory : Bytes) : Word → List Byte → Prop
  | a, [] => memory a = 0
  | a, c :: s => c ≠ 0 ∧ memory a = c ∧ StringAt memory (a + 1) s

instance decidableStringAt (memory : Bytes) : (a : Word) → (s : List Byte) → Decidable (StringAt memory a s)
  | _, [] => inferInstanceAs (Decidable (_ = _))
  | a, _ :: s =>
    have := decidableStringAt memory (a + 1) s
    inferInstanceAs (Decidable (_ ∧ _ ∧ _))

variable {a name i : Word} {t : List Byte}

theorem strcmpAt_eq {b : Word} (first : StringAt memory a s) (hs : StringAt memory b t) (room : s.length < limit) :
    strcmpAt memory limit a b = .ok (decide (s = t)) := by
  induction s generalizing a b t limit with
  | nil =>
    cases limit with
    | zero => cases room
    | succ limit =>
      have he : ¬ (memory a ≠ 0 ∧ memory a = memory b) := fun hg => hg.1 first
      rw [strcmpAt, if_neg he, first]
      cases t with
      | nil => simp [show memory b = 0 from hs]
      | cons d t =>
        have hd : (0 : Byte) ≠ d := hs.1.symm
        rw [hs.2.1]
        simpa using hd
  | cons c s ih =>
    cases limit with
    | zero => cases room
    | succ limit =>
      obtain ⟨hnz, here, rest⟩ := first
      rw [strcmpAt, here]
      cases t with
      | nil =>
        have hd : ¬ (c ≠ 0 ∧ c = memory b) := fun hg => hnz (hg.2.trans hs)
        rw [if_neg hd, show memory b = 0 from hs]
        simpa using hnz
      | cons d t =>
        obtain ⟨-, here', rest'⟩ := hs
        rw [here']
        by_cases same : c = d
        · rw [if_pos ⟨hnz, same⟩, ih rest rest' (Nat.lt_of_succ_lt_succ room), same]
          simp
        · rw [if_neg fun hg => same hg.2]
          simp [same]

/-! ## The hash function of the System V ABI -/

/-- One character, in 32-bit arithmetic. -/
def gabiStep (h : BitVec 32) (c : Byte) : BitVec 32 :=
  let h := (h <<< 4) + c.setWidth 32
  let g := h &&& 0xf0000000
  let h := if g ≠ 0 then h ^^^ (g >>> 24) else h
  h &&& ~~~g

def gabiHash (s : List Byte) : BitVec 32 := s.foldl gabiStep 0

/-- The four bits that are folded back. -/
theorem getLsbD_high (i : Nat) :
    ((BitVec.ofNat w (2 ^ 4 - 1)) <<< 28).getLsbD i = decide (28 ≤ i ∧ i < 32 ∧ i < w) := by
  rw [BitVec.getLsbD_shiftLeft, BitVec.getLsbD_ofNat, Nat.testBit_two_pow_sub_one]
  rw [Bool.eq_iff_iff]
  simp only [Bool.and_eq_true, decide_eq_true_eq, Bool.not_eq_true', decide_eq_false_iff_not]
  omega

/-- Nothing is folded back if the bits are zero. -/
theorem fold_eq (h g : BitVec w) : (if g ≠ 0 then h ^^^ (g >>> 24) else h) = h ^^^ (g >>> 24) := by
  by_cases zero : g = 0
  · simp [zero]
  · rw [if_pos zero]

/-- Without the mask in between, 64 bits have the same lower half as 32. -/
theorem shifted_eq (h : BitVec 32) (c : Byte) :
    ((h.setWidth 64 <<< 4) + c.setWidth 64 : Word).setWidth 32 = (h <<< 4) + c.setWidth 32 := by
  apply BitVec.eq_of_toNat_eq
  simp only [BitVec.toNat_setWidth, BitVec.toNat_add, BitVec.toNat_shiftLeft, Nat.shiftLeft_eq]
  omega

theorem getLsbD_low (i : Nat) : (BitVec.ofNat w (2 ^ 28 - 1)).getLsbD i = decide (i < w ∧ i < 28) := by
  rw [BitVec.getLsbD_ofNat, Nat.testBit_two_pow_sub_one, Bool.decide_and]

/-- The loader masks the result, the ABI clears the bits that have been folded back. -/
theorem hashStep_eq (h : BitVec 32) {c : Byte} (ha : c.msb = false) :
    hashStep (h.setWidth 64) c = (gabiStep h c).setWidth 64 := by
  have hs := shifted_eq h c
  simp only [hashStep, gabiStep, ha, Bool.false_eq_true, if_false, fold_eq]
  rw [← hs]
  generalize (h.setWidth 64 <<< 4) + c.setWidth 64 = x
  rw [show (0xf0000000 : Word) = BitVec.ofNat 64 (2 ^ 4 - 1) <<< 28 from rfl,
    show (0xf0000000 : BitVec 32) = BitVec.ofNat 32 (2 ^ 4 - 1) <<< 28 from rfl,
    show (0x0fffffff : Word) = BitVec.ofNat 64 (2 ^ 28 - 1) from rfl]
  apply BitVec.eq_of_getLsbD_eq
  intro i hbo
  simp only [BitVec.getLsbD_and, BitVec.getLsbD_xor, BitVec.getLsbD_not, BitVec.getLsbD_ushiftRight, getLsbD_high,
    getLsbD_low, BitVec.getLsbD_setWidth]
  by_cases low : i < 28
  · have half : i < 32 := by omega
    have kept : ¬ 28 ≤ i := by omega
    by_cases hf : 24 + i < 32
    · have hi : 24 + i < 64 := by omega
      simp [low, half, kept, hbo, hf, hi]
    · simp [low, half, kept, hbo, hf]
  · -- Above the lowest 28 bits the fold changes nothing, so exactly the bits that are set get cleared.
    have high : 28 ≤ i := by omega
    have hb : ¬ 24 + i < 32 := by omega
    by_cases half : i < 32
    · simp [low, high, hb, half]
    · simp [low, half]

theorem privateHash_eq (hs : StringAt memory a s)
    (ha : ∀ c ∈ s, c.msb = false) (room : s.length < limit) (h : BitVec 32) :
    privateHash memory limit a (h.setWidth 64) = .ok ((s.foldl gabiStep h).setWidth 64) := by
  induction s generalizing a limit h with
  | nil =>
    cases limit with
    | zero => cases room
    | succ limit =>
      have he : ¬ memory a ≠ 0 := not_not.mpr hs
      rw [privateHash, if_neg he]
      rfl
  | cons c s ih =>
    cases limit with
    | zero => cases room
    | succ limit =>
      obtain ⟨hnz, here, rest⟩ := hs
      rw [privateHash, here, if_pos hnz, hashStep_eq h (ha c List.mem_cons_self)]
      exact ih rest (fun d mem => ha d (List.mem_cons_of_mem c mem)) (Nat.lt_of_succ_lt_succ room) _

/-! ## Chains -/

/-- From `i` on, the links lead through `l`, all of it numbers of symbols, and end with `STN_UNDEF`. -/
def Chain (next : Word → Word) (nchain : Word) : Word → List Word → Prop
  | i, [] => i = 0
  | i, j :: l => i = j ∧ 0 < j ∧ j < nchain ∧ Chain next nchain (next j) l

instance decidableChain (next : Word → Word) (nchain : Word) :
    (i : Word) → (l : List Word) → Decidable (Chain next nchain i l)
  | _, [] => inferInstanceAs (Decidable (_ = _))
  | _, j :: l =>
    have := decidableChain next nchain (next j) l
    inferInstanceAs (Decidable (_ ∧ _ ∧ _ ∧ _))

/-- The walk stops at the first symbol of the chain that has the name. -/
theorem chainFrom_eq {names : Word → List Byte}
    (hna : ∀ i, 0 < i → i < ef.nchain → StringAt memory (symbolName memory ef (symbol ef i)) (names i))
    (hsr : StringAt memory name s) (room : s.length < limit) {l : List Word}
    (hc : Chain (fun j => fetch memory (ef.chain + 4 * j) 4) ef.nchain i l) {n : Nat} (hs : l.length < n) :
    chainFrom memory ef limit name n i = .ok ((l.find? fun j => s = names j).map (symbol ef)) := by
  induction l generalizing i n with
  | nil =>
    cases n with
    | zero => cases hs
    | succ n =>
      have hst : ¬ (0 < i ∧ i < ef.nchain) := by
        rw [show i = 0 from hc]
        exact fun hg => absurd hg.1 (by decide)
      rw [chainFrom, if_neg hst]
      rfl
  | cons j l ih =>
    cases n with
    | zero => cases hs
    | succ n =>
      obtain ⟨rfl, hpos, hb, rest⟩ := hc
      rw [chainFrom, if_pos ⟨hpos, hb⟩, strcmpAt_eq hsr (hna i hpos hb) room]
      by_cases same : s = names i
      · simp [same, bind, Except.bind, pure, Except.pure]
      · have skip : ((i :: l).find? fun j => decide (s = names j)) = l.find? fun j => decide (s = names j) :=
          List.find?_cons_of_neg (by simpa using same)
        rw [skip, ← ih rest (Nat.lt_of_succ_lt_succ hs), decide_eq_false same]
        rfl

/-- The walk stops after a symbol with another name, if no symbol follows it. -/
theorem chainFrom_stops (hst : StringAt memory name s) (hi : 0 < i ∧ i < ef.nchain)
    (hna : StringAt memory (symbolName memory ef (symbol ef i)) t) (ho : s ≠ t)
    (hs : ¬ (0 < fetch memory (ef.chain + 4 * i) 4 ∧ fetch memory (ef.chain + 4 * i) 4 < ef.nchain))
    (room : s.length < limit) (n : Nat) : chainFrom memory ef limit name (n + 2) i = .ok none := by
  rw [chainFrom, if_pos hi, strcmpAt_eq hst hna room, decide_eq_false ho]
  show chainFrom memory ef limit name (n + 1) (fetch memory (ef.chain + 4 * i) 4) = _
  rw [chainFrom, if_neg hs]
  rfl

/-- A look-up walks the chain that begins in the bucket of the name. -/
theorem privateGetSymByName_walks (hh : ef.hash ≠ 0) (ho : ef.nbucket ≠ 0) (hs : StringAt memory name s)
    (ha : ∀ c ∈ s, c.msb = false) (room : s.length < limit) :
    privateGetSymByName memory ef limit name = chainFrom memory ef limit name limit
      (fetch memory (ef.bucket + 4 * ((gabiHash s).setWidth 64 % ef.nbucket)) 4) := by
  have hash : privateHash memory limit name 0 = .ok ((gabiHash s).setWidth 64) := privateHash_eq hs ha room 0
  rw [privateGetSymByName, if_pos hh, privateGetSymByHash, hash]
  show (if ef.nbucket = 0 then throw .divisionByZero
    else chainFrom memory ef limit name limit (fetch memory (ef.bucket + 4 * ((gabiHash s).setWidth 64 % ef.nbucket)) 4)) = _
  rw [if_neg ho]

end Gevisor.Elf
