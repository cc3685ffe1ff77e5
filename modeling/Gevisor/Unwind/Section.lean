import Gevisor.Unwind.EhFrame

/-! # Well-formed sections

What a section with the entries of a list looks like in memory, and how its entries are parsed.
-/

namespace Gevisor.Unwind

open Elf (Word Byte Bytes fetch)
open Lib

variable {letters : List Byte} {n : Nat} {a : Word}

/-- What an entry is. The letters are those after the `z` of the augmentation string, if there is one. -/
inductive Content
  | cie (letters : Option (List Byte)) (encodings : Encodings)
  | fde (pcBegin pcRange : Word)

structure Entry where
  start : Word
  /-- The length has the form of 64 bits. -/
  wide : Bool
  length : Nat
  content : Content

namespace Entry

def headerSize (e : Entry) : Nat := if e.wide then 12 else 4

def payload (e : Entry) : Word := e.start + BitVec.ofNat 64 e.headerSize

def size (e : Entry) : Nat := e.headerSize + e.length

def finish (e : Entry) : Word := e.start + BitVec.ofNat 64 e.size

/-- The range that `pc` is looked for in. -/
def covers (pc : Word) (e : Entry) : Bool :=
  match e.content with
  | .cie _ _ => false
  | .fde pcBegin pcRange => pcBegin.toNat < pc.toNat ∧ pc.toNat ≤ pcBegin.toNat + pcRange.toNat

end Entry

section Format

variable (memory : Bytes)

/-- The length field; `0xFFFFFFFF` stands for the wide form. -/
structure HeaderAt (e : Entry) : Prop where
  four : 4 ≤ e.length
  fits : e.length < if e.wide then 2 ^ 64 else 0xFFFFFFFF
  escape : e.wide = true → fetch memory e.start 4 = 0xFFFFFFFF
  length : fetch memory (if e.wide then e.start + 4 else e.start) (if e.wide then 8 else 4) = BitVec.ofNat 64 e.length

/-- The data for letters of the augmentation string, from one address to another. -/
inductive LettersAt : List Byte → Word → Encodings → Word → Encodings → Prop
  | nil {p : Word} {e : Encodings} : LettersAt [] p e p e
  | lsda {rest : List Byte} {p q : Word} {e f : Encodings}
    (after : LettersAt rest (p + 1) { e with lsda := (memory p).setWidth 64 } q f) : LettersAt (0x4C :: rest) p e q f
  | personality {rest : List Byte} {p q next value : Word} {e f : Encodings}
    (pointer : PointerAt memory (p + 1) ((memory p).setWidth 64) value next)
    (after : LettersAt rest next
      { e with personality := (memory p).setWidth 64, personalityFunction := value } q f) :
    LettersAt (0x50 :: rest) p e q f
  | pointer {rest : List Byte} {p q : Word} {e f : Encodings}
    (after : LettersAt rest (p + 1) { e with pointer := (memory p).setWidth 64 } q f) : LettersAt (0x52 :: rest) p e q f

/-- The augmentation string. -/
def augmentationText : Option (List Byte) → List Byte
  | none => []
  | some letters => 0x7A :: letters

/-- The augmentation data of a CIE: each letter has a byte at least, and no letter stands without the `z`. -/
inductive AugmentationAt : Option (List Byte) → Word → Encodings → Prop
  | none {p : Word} : AugmentationAt none p {}
  | some {letters : List Byte} {p q r len : Word} {encodings : Encodings} (short : letters.length + 1 < 2 ^ 32)
    (length : NumberAt memory p 0x01 len q) (enough : letters.length ≤ len.toNat)
    (data : LettersAt memory letters q {} r encodings) : AugmentationAt (some letters) p encodings

/-- The payload of a CIE: after the id of four bytes and the version of one, the augmentation string, the alignments,
the register and the augmentation data. -/
structure CieAt (payload : Word) (letters : Option (List Byte)) (encodings : Encodings) : Prop where
  id : fetch memory payload 4 = 0
  string : BytesAt memory (payload + 5) (augmentationText letters ++ [0])
  data : ∃ code data register p q r, NumberAt memory
    (payload + 5 + BitVec.ofNat 64 (augmentationText letters ++ [0]).length) 0x01 code p ∧
    NumberAt memory p 0x09 data q ∧ NumberAt memory q 0x01 register r ∧ AugmentationAt memory letters r encodings

/-- The augmentation data of an FDE: a pointer for each `L`. -/
inductive LsdaAt (encoding : Word) : List Byte → Word → Prop
  | nil {p : Word} : LsdaAt encoding [] p
  | lsda {rest : List Byte} {p next value : Word} (pointer : PointerAt memory p encoding value next)
    (after : LsdaAt encoding rest next) : LsdaAt encoding (0x4C :: rest) p
  | other {letter : Byte} {rest : List Byte} {p : Word} (known : letter = 0x50 ∨ letter = 0x52)
    (after : LsdaAt encoding rest p) : LsdaAt encoding (letter :: rest) p

/-- The payload of an FDE of a CIE with these encodings. -/
structure FdeAt (payload : Word) (letters : Option (List Byte)) (encodings : Encodings) (pcBegin pcRange : Word) :
    Prop where
  bounded : pcBegin.toNat + pcRange.toNat < 2 ^ 64
  data : ∃ p q, PointerAt memory (payload + 4) encodings.pointer pcBegin p ∧
    PointerAt memory p (encodings.pointer &&& 0xF) pcRange q ∧
    ∀ known, letters = some known → ∃ len r, NumberAt memory q 0x01 len r ∧ LsdaAt memory encodings.lsda known r

/-- The payload of an entry; an FDE points back at a CIE among the entries. -/
def ContentAt (entries : List Entry) (e : Entry) : Prop :=
  match e.content with
  | .cie letters encodings => CieAt memory e.payload letters encodings
  | .fde pcBegin pcRange => fetch memory e.payload 4 ≠ 0 ∧ ∃ c ∈ entries, ∃ letters encodings,
      c.content = .cie letters encodings ∧ e.payload - fetch memory e.payload 4 = c.start ∧
      FdeAt memory e.payload letters encodings pcBegin pcRange

/-- The entries from an address on, which with an optional terminator take this many bytes. -/
inductive EntriesAt : Word → Nat → List Entry → Prop
  | nil {a : Word} : EntriesAt a 0 []
  | terminator {a : Word} (zero : fetch memory a 4 = 0) : EntriesAt a 4 []
  | cons {e : Entry} {n : Nat} {rest : List Entry} (header : HeaderAt memory e) (after : EntriesAt e.finish n rest) :
    EntriesAt e.start (e.size + n) (e :: rest)

structure WellFormed (ehFrame : EhFrame) (entries : List Entry) : Prop where
  nonempty : entries ≠ []
  present : ehFrame.addr ≠ 0
  room : ehFrame.addr.toNat + ehFrame.size.toNat + 4 < 2 ^ 64
  concatenation : EntriesAt memory ehFrame.addr ehFrame.size.toNat entries
  contents : ∀ e ∈ entries, ContentAt memory entries e

end Format

/-- All reads lie in one of the sections. -/
def Inside (frames : List EhFrame) (reads : List (Word × Nat)) : Prop :=
  ∀ r ∈ reads, ∃ f ∈ frames, f.addr.toNat ≤ r.1.toNat ∧ r.1.toNat + r.2 ≤ f.addr.toNat + f.size.toNat

variable {memory : Bytes} {limit : Nat} {ehFrame : EhFrame} {entries : List Entry} {e : Entry}

/-! ## Places -/

theorem toNat_add_ofNat (fits : a.toNat + n < 2 ^ 64) : (a + BitVec.ofNat 64 n).toNat = a.toNat + n := by
  rw [BitVec.toNat_add, BitVec.toNat_ofNat, Nat.add_mod_mod, Nat.mod_eq_of_lt fits]

/-- Where an entry lies, with the header that it starts with. -/
theorem EntriesAt.place (laid : EntriesAt memory a n entries) (fits : a.toNat + n < 2 ^ 64) (member : e ∈ entries) :
    a.toNat ≤ e.start.toNat ∧ e.start.toNat + e.size ≤ a.toNat + n ∧ HeaderAt memory e := by
  induction laid with
  | nil | terminator => cases member
  | @cons first n rest hh ha ih =>
    cases member with
    | head => exact ⟨Nat.le_refl _, by omega, hh⟩
    | tail _ hla =>
      have hf : first.finish.toNat = first.start.toNat + first.size := toNat_add_ofNat (by omega)
      have hp := ih (by omega) hla
      exact ⟨by omega, by omega, hp.2.2⟩

namespace WellFormed

variable (formed : WellFormed memory ehFrame entries) (member : e ∈ entries)

include formed member

theorem place : ehFrame.addr.toNat ≤ e.start.toNat ∧
    e.start.toNat + e.size ≤ ehFrame.addr.toNat + ehFrame.size.toNat ∧ HeaderAt memory e :=
  formed.concatenation.place (by have := formed.room; omega) member

theorem start_ne_zero : e.start ≠ 0 := by
  intro zero
  have low := (formed.place member).1
  have hp : ehFrame.addr.toNat ≠ 0 := fun none => formed.present (BitVec.eq_of_toNat_eq none)
  rw [zero] at low
  exact hp (Nat.le_zero.mp low)

theorem toNat_finish : e.finish.toNat = e.start.toNat + e.size := by
  have := formed.place member
  have := formed.room
  exact toNat_add_ofNat (by omega)

theorem toNat_payload : e.payload.toNat = e.start.toNat + e.headerSize ∧ e.headerSize + 4 ≤ e.size := by
  obtain ⟨-, high, hh⟩ := formed.place member
  have four := hh.four
  have := formed.room
  rw [Entry.size] at high ⊢
  exact ⟨toNat_add_ofNat (by omega), by omega⟩

/-- An augmentation string has an address. -/
theorem string_ne_zero : e.payload + 5 ≠ 0 := by
  intro zero
  obtain ⟨-, high, -⟩ := formed.place member
  obtain ⟨hp, hl⟩ := formed.toNat_payload member
  have five : (e.payload + 5).toNat = e.payload.toNat + 5 :=
    toNat_add_ofNat (show e.payload.toNat + 5 < 2 ^ 64 by have := formed.room; omega)
  rw [zero] at five
  exact absurd five (Nat.ne_of_lt (Nat.succ_pos _))

end WellFormed

/-! ## Headers -/

variable {α β : Type} {reads : List (Word × Nat)} {p q len string value next : Word}
    {f g : Encodings} {k : Nat}

theorem ok_bind (a : α) (k : α → Except Stop β) : Except.ok a >>= k = k a := rfl

theorem ofExcept_bind (a : α) (k : α → UnwindM β) : ofExcept (.ok a) >>= k = k a := rfl

theorem wp_readHeader {addr : Word} {Q : Word → List (Word × Nat) → Prop} {X : Stop → List (Word × Nat) → Prop} :
    wp (readHeader memory addr n) Q X reads ↔ Q (fetch memory addr n) ((addr, n) :: reads) := Iff.rfl

theorem Inside.read {frames : List EhFrame} (inside : Inside frames reads)
    (known : ehFrame ∈ frames) (low : ehFrame.addr.toNat ≤ a.toNat)
    (high : a.toNat + n ≤ ehFrame.addr.toNat + ehFrame.size.toNat) : Inside frames ((a, n) :: reads) := by
  intro r member
  cases member with
  | head => exact ⟨ehFrame, known, low, high⟩
  | tail _ hea => exact inside r hea

section Parsing

variable (formed : WellFormed memory ehFrame entries) (member : e ∈ entries) {frames : List EhFrame}
  (known : ehFrame ∈ frames) {reads : List (Word × Nat)} (inside : Inside frames reads)

include formed member known inside

theorem wp_readLength : wp (readLength memory e.start)
    (fun r reads => r = (BitVec.ofNat 64 e.length, e.payload) ∧ Inside frames reads) (fun _ _ => False) reads := by
  obtain ⟨low, high, hh⟩ := formed.place member
  have four := hh.four
  have room := formed.room
  have fits := hh.fits
  have hl := hh.length
  rw [Entry.size, Entry.headerSize] at high
  rw [readLength, wp_bind, wp_readHeader]
  cases wide : e.wide with
  | false =>
    simp only [wide, Bool.false_eq_true, if_false] at high fits hl
    have hs : fetch memory e.start 4 ≠ 0xFFFFFFFF := by
      rw [hl]
      intro full
      have hn := congrArg BitVec.toNat full
      rw [BitVec.toNat_ofNat, Nat.mod_eq_of_lt (by omega)] at hn
      exact absurd hn (Nat.ne_of_lt fits)
    rw [if_pos hs, wp_bind, wp_readHeader, wp_pure, hl, Entry.payload, Entry.headerSize, wide]
    exact ⟨rfl, (inside.read known low (by omega)).read known low (by omega)⟩
  | true =>
    simp only [wide, if_true] at high fits hl
    have four : (e.start + 4).toNat = e.start.toNat + 4 := toNat_add_ofNat (show e.start.toNat + 4 < 2 ^ 64 by omega)
    rw [if_neg (not_not.mpr (hh.escape wide)), wp_bind, wp_readHeader, wp_pure, hl, Entry.payload,
      Entry.headerSize, wide]
    exact ⟨rfl, (inside.read known low (by omega)).read known (by omega) (by omega)⟩

/-- Every entry is parsed as what it is. -/
theorem wp_parseCommon : wp (parseCommon memory ehFrame e.start)
    (fun r reads => r = ⟨fetch memory e.payload 4 = 0, e.start, e.finish, e.payload, e.finish, ehFrame⟩ ∧
      Inside frames reads) (fun _ _ => False) reads := by
  obtain ⟨low, high, hh⟩ := formed.place member
  obtain ⟨hp, hle⟩ := formed.toNat_payload member
  have four := hh.four
  have room := formed.room
  have hl : (BitVec.ofNat 64 e.length).toNat = e.length := by
    rw [BitVec.toNat_ofNat, Nat.mod_eq_of_lt]
    rw [Entry.size] at high
    omega
  have some : BitVec.ofNat 64 e.length ≠ 0 := by
    intro zero
    rw [zero] at hl
    exact absurd hl (by simp; omega)
  have ends : e.payload + BitVec.ofNat 64 e.length = e.finish := by
    rw [Entry.payload, Entry.finish, Entry.size, BitVec.ofNat_add, BitVec.add_assoc]
  have hb : ¬ ehFrame.addr + ehFrame.size < e.finish := by
    rw [BitVec.lt_def, formed.toNat_finish member, BitVec.toNat_add, Nat.mod_eq_of_lt (by omega)]
    omega
  rw [parseCommon, if_neg (formed.start_ne_zero member), if_neg (BitVec.not_lt.mpr low), wp_bind]
  refine wp_mono ?_ (fun _ _ hn => hn) (wp_readLength formed member known inside)
  rintro _ reads ⟨rfl, inside⟩
  dsimp only
  rw [if_neg some, ends, if_neg hb, wp_bind, wp_readHeader]
  exact ⟨rfl, inside.read known (by omega) (by omega)⟩

end Parsing

/-! ## Augmentations -/

theorem skipString_eq {text : List Byte} (hs : BytesAt memory a (text ++ [0]))
    (hnz : 0 ∉ text) (room : text.length < n) :
    skipString memory n a = .ok (a + BitVec.ofNat 64 (text ++ [0]).length) := by
  induction text generalizing a n with
  | nil =>
    obtain ⟨n, rfl⟩ := Nat.exists_eq_add_one_of_ne_zero (Nat.ne_of_gt room)
    rw [skipString, if_pos hs.1]
    rfl
  | cons b text ih =>
    obtain ⟨n, rfl⟩ := Nat.exists_eq_add_one_of_ne_zero (Nat.ne_of_gt (Nat.zero_lt_of_lt room))
    rw [List.mem_cons, not_or] at hnz
    have ho : memory a ≠ 0 := fun zero => hnz.1 (zero.symm.trans hs.1)
    rw [skipString, if_neg ho, ih hs.2 hnz.2 (Nat.lt_of_succ_lt_succ room), List.cons_append, add_length]

theorem LettersAt.nonzero (data : LettersAt memory letters p f q g) : 0 ∉ letters := by
  induction data with
  | nil => exact List.not_mem_nil
  | lsda ha ih | personality hp ha ih | pointer ha ih =>
    exact List.not_mem_cons_of_ne_of_not_mem (by decide) ih

theorem AugmentationAt.nonzero {letters : Option (List Byte)} {encodings : Encodings}
    (ha : AugmentationAt memory letters p encodings) : 0 ∉ augmentationText letters := by
  cases ha with
  | none => exact List.not_mem_nil
  | some hs hl he data => exact List.not_mem_cons_of_ne_of_not_mem (by decide) data.nonzero

/-- An index of the string, as a word and with its successor. -/
theorem letter_index (string : Word) (hs : k < 2 ^ 32) :
    (BitVec.ofNat 32 k).setWidth 64 = BitVec.ofNat 64 k ∧ BitVec.ofNat 32 k + 1 = BitVec.ofNat 32 (k + 1) ∧
      string + BitVec.ofNat 64 (k + 1) = string + BitVec.ofNat 64 k + 1 := by
  refine ⟨BitVec.eq_of_toNat_eq ?_, (BitVec.ofNat_add k 1).symm, ?_⟩
  · rw [BitVec.toNat_setWidth, BitVec.toNat_ofNat, BitVec.toNat_ofNat, Nat.mod_eq_of_lt hs]
  · rw [BitVec.ofNat_add, BitVec.add_assoc]
    rfl

theorem index_le (upto : k ≤ len.toNat) : BitVec.ofNat 64 k ≤ len := by
  rw [BitVec.le_def, BitVec.toNat_ofNat]
  exact Nat.le_trans (Nat.mod_le _ _) upto

theorem parseLetters_eq (limited : 10 ≤ limit) (data : LettersAt memory letters p f q g)
    (hf : BytesAt memory (string + BitVec.ofNat 64 k) (letters ++ [0])) (hs : k + letters.length < 2 ^ 32)
    (he : k + letters.length ≤ len.toNat + 1) (room : letters.length < n) :
    parseLetters memory limit string len n (BitVec.ofNat 32 k) p f = .ok (q, g) := by
  -- One letter after the other; the index and the place in the string move on together.
  induction data generalizing k n with
  | nil =>
    obtain ⟨n, rfl⟩ := Nat.exists_eq_add_one_of_ne_zero (Nat.ne_of_gt room)
    rw [parseLetters, (letter_index string (show k < 2 ^ 32 from hs)).1, hf.1]
    simp
  | lsda ha ih | personality hp ha ih | pointer ha ih =>
    rw [List.length_cons] at hs he room
    obtain ⟨n, rfl⟩ := Nat.exists_eq_add_one_of_ne_zero (Nat.ne_of_gt (Nat.zero_lt_of_lt room))
    obtain ⟨hi, succ, next⟩ := letter_index string (show k < 2 ^ 32 by omega)
    have upto : BitVec.ofNat 64 k ≤ len := index_le (by omega)
    have hla := hf.2
    rw [← next] at hla
    have rest := ih hla (by omega) (by omega) (Nat.lt_of_succ_lt_succ room)
    rw [parseLetters, hi, hf.1, succ, if_pos ⟨upto, by decide⟩]
    first
    | exact rest
    | show (decodePointer memory limit _ _ >>= fun r => parseLetters memory limit string len n _ r.2 _) = _
      rw [decodePointer_eq hp limited]
      exact rest

theorem readUleb_of_number (hn : NumberAt memory a 0x01 value next) (limited : 10 ≤ limit) :
    readUleb memory limit a = .ok (value, next) := by
  cases hn with
  | uleb128 leb => exact readUleb_eq leb limited

theorem readSleb_of_number (hn : NumberAt memory a 0x09 value next) (limited : 10 ≤ limit) :
    readSleb memory limit a = .ok (value, next) := by
  cases hn with
  | sleb128 leb => exact readSleb_eq leb limited

/-- Whatever the length allows of it, the data of an FDE is read. -/
theorem parseLsda_returns {cie : CiEntry} (limited : 10 ≤ limit)
    (data : LsdaAt memory cie.encodings.lsda letters p) (hst : cie.augmentationString = string) (hgi : string ≠ 0)
    (hf : BytesAt memory (string + BitVec.ofNat 64 k) (letters ++ [0])) (hs : k + letters.length < 2 ^ 32)
    (room : letters.length < n) (lsda : Word) :
    ∃ r, parseLsda memory limit cie len n (BitVec.ofNat 32 k) p lsda = .ok r := by
  have hl (k : Nat) (hs : k < 2 ^ 32) (b : Byte) (here : memory (string + BitVec.ofNat 64 k) = b) :
      cie.augmentation memory (BitVec.ofNat 32 k) = .ok b := by
    rw [CiEntry.augmentation, hst, if_neg hgi, (letter_index string hs).1, here]
  induction data generalizing k n lsda with
  | nil =>
    obtain ⟨n, rfl⟩ := Nat.exists_eq_add_one_of_ne_zero (Nat.ne_of_gt room)
    rw [parseLsda, hl k hs 0 hf.1]
    exact ⟨_, rfl⟩
  | @lsda rest p next value hp ha ih =>
    rw [List.length_cons] at hs room
    obtain ⟨n, rfl⟩ := Nat.exists_eq_add_one_of_ne_zero (Nat.ne_of_gt (Nat.zero_lt_of_lt room))
    obtain ⟨hi, succ, next⟩ := letter_index string (show k < 2 ^ 32 by omega)
    have hla := hf.2
    rw [← next] at hla
    rw [parseLsda, hl k (by omega) _ hf.1, succ, decodePointer_eq hp limited, ok_bind]
    split
    · exact ih hla (by omega) (Nat.lt_of_succ_lt_succ room) value
    · exact ⟨_, rfl⟩
  | @other b rest p known ha ih =>
    rw [List.length_cons] at hs room
    obtain ⟨n, rfl⟩ := Nat.exists_eq_add_one_of_ne_zero (Nat.ne_of_gt (Nat.zero_lt_of_lt room))
    obtain ⟨hi, succ, next⟩ := letter_index string (show k < 2 ^ 32 by omega)
    have hla := hf.2
    rw [← next] at hla
    rw [parseLsda, hl k (by omega) _ hf.1, succ, ok_bind]
    split
    · cases known with
      | inl hpe => subst hpe; exact ih hla (by omega) (Nat.lt_of_succ_lt_succ room) lsda
      | inr hp => subst hp; exact ih hla (by omega) (Nat.lt_of_succ_lt_succ room) lsda
    · exact ⟨_, rfl⟩

/-! ## Entries -/

/-- How far the loops over an entry go. -/
def Entry.rounds (e : Entry) : Nat :=
  match e.content with
  | .cie (some letters) _ => letters.length + 2
  | _ => 1

/-- What is known of the object once it has parsed an entry. -/
structure FdEntry.Describes (fde : FdEntry) (ehFrame : EhFrame) (e : Entry) : Prop where
  entryStart : fde.entryStart = e.start
  entryEnd : fde.entryEnd = e.finish
  ehFrame : fde.ehFrame = ehFrame
  content : match e.content with
    | .cie _ _ => fde.isCie = true
    | .fde pcBegin pcRange => fde.isCie = false ∧ fde.pcBegin = pcBegin ∧ fde.pcRange = pcRange

section Entries

variable (formed : WellFormed memory ehFrame entries) (member : e ∈ entries) (limited : 10 ≤ limit)
  (rounds : ∀ e ∈ entries, e.rounds ≤ limit) {frames : List EhFrame} (known : ehFrame ∈ frames)
  {reads : List (Word × Nat)} (inside : Inside frames reads)

include formed member limited rounds known inside

theorem wp_ciEntry {letters : Option (List Byte)} {encodings : Encodings}
    (hc : e.content = .cie letters encodings) :
    wp (ciEntry memory limit ehFrame e.start) (fun cie reads => cie.augmentationString = e.payload + 5 ∧
      cie.encodings = encodings ∧ Inside frames reads) (fun _ _ => False) reads := by
  have hfo : CieAt memory e.payload letters encodings := by
    have hf := formed.contents e member
    rwa [ContentAt, hc] at hf
  obtain ⟨id, hs, code, data, register, p, q, r, first, hse, ht, ha⟩ := hfo
  have five : e.payload + 4 + 1 = e.payload + 5 := BitVec.add_assoc ..
  have fuel := rounds e member
  have hv : CommonEntry.valid ⟨true, e.start, e.finish, e.payload, e.finish, ehFrame⟩ = true :=
    decide_eq_true (formed.start_ne_zero member)
  rw [ciEntry, wp_bind]
  refine wp_mono ?_ (fun _ _ hn => hn) (wp_parseCommon formed member known inside)
  rintro _ reads ⟨rfl, inside⟩
  rw [id, decide_eq_true rfl, hv]
  simp only [not_true_eq_false, if_false, five]
  have text : (augmentationText letters).length < limit := by
    rw [Entry.rounds, hc] at fuel
    cases letters with
    | none => exact fuel
    | some letters => exact fuel
  rw [skipString_eq hs ha.nonzero text, ofExcept_bind, readUleb_of_number first limited, ofExcept_bind]
  dsimp only
  rw [readSleb_of_number hse limited, ofExcept_bind]
  dsimp only
  rw [readUleb_of_number ht limited, ofExcept_bind]
  dsimp only
  cases ha with
  | none =>
    have ho : memory (e.payload + 5) ≠ 0x7A := by
      rw [hs.1]
      decide
    rw [if_neg ho]
    exact ⟨rfl, rfl, inside⟩
  | @some letters _ _ _ len _ hsh hl he data =>
    have hpa : parseLetters memory limit (e.payload + 5) len limit 1 _ {} = .ok (_, encodings) :=
      parseLetters_eq (k := 1) limited data hs.2 (by omega) (by omega) (Nat.lt_of_succ_lt text)
    rw [if_pos hs.1, readUleb_of_number hl limited, ofExcept_bind]
    dsimp only
    rw [hpa]
    exact ⟨rfl, rfl, inside⟩

theorem wp_parse {old : FdEntry} (hfr : old.ehFrame = ehFrame) :
    wp (old.parse memory limit e.start) (fun fde reads => fde.Describes ehFrame e ∧ Inside frames reads)
      (fun _ _ => False) reads := by
  have hf := formed.contents e member
  have hv (isCie : Bool) : CommonEntry.valid ⟨isCie, e.start, e.finish, e.payload, e.finish, ehFrame⟩ = true :=
    decide_eq_true (formed.start_ne_zero member)
  rw [FdEntry.parse, hfr, wp_bind]
  refine wp_mono ?_ (fun _ _ hn => hn) (wp_parseCommon formed member known inside)
  rintro _ reads ⟨rfl, inside⟩
  simp only [hv, not_true_eq_false, if_false]
  cases hc : e.content with
  | cie letters encodings =>
    rw [ContentAt, hc] at hf
    rw [if_pos (decide_eq_true hf.id)]
    refine ⟨⟨rfl, rfl, rfl, ?_⟩, inside⟩
    rw [hc]
    exact decide_eq_true hf.id
  | fde pcBegin pcRange =>
    rw [ContentAt, hc] at hf
    obtain ⟨hi, c, ha, letters, encodings, isCie, back, -, p, q, first, hse, hau⟩ := hf
    obtain ⟨low, high, -⟩ := formed.place member
    obtain ⟨hp, hla⟩ := formed.toNat_payload member
    have hs : CieAt memory c.payload letters encodings := by
      have cie := formed.contents c ha
      rwa [ContentAt, isCie] at cie
    rw [decide_eq_false hi, if_neg Bool.false_ne_true, wp_bind, wp_readHeader, back, wp_bind]
    refine wp_mono ?_ (fun _ _ hn => hn) (wp_ciEntry formed ha limited rounds known
      (inside.read known (by omega) (by omega)) isCie)
    rintro cie reads ⟨hst, same, inside⟩
    rw [same, decodePointer_eq first limited, ofExcept_bind]
    dsimp only
    rw [decodePointer_eq hse limited, ofExcept_bind]
    dsimp only
    have hgi : c.payload + 5 ≠ 0 := formed.string_ne_zero ha
    have hle : cie.augmentation memory 0 = .ok (memory (c.payload + 5)) := by
      rw [CiEntry.augmentation, hst, if_neg hgi]
      exact congrArg (fun a => Except.ok (memory a)) (BitVec.add_zero _)
    rw [hle, ofExcept_bind]
    have done (lsda p : Word) : FdEntry.Describes { old with
        toCommonEntry := ⟨false, e.start, e.finish, e.payload, e.finish, ehFrame⟩
        cie := cie, pcBegin := pcBegin, pcRange := pcRange, lsda := lsda, instructions := p } ehFrame e :=
      ⟨rfl, rfl, rfl, by rw [hc]; exact ⟨rfl, rfl, rfl⟩⟩
    cases letters with
    | none =>
      have ho : memory (c.payload + 5) ≠ 0x7A := by
        rw [hs.string.1]
        decide
      rw [if_neg ho]
      exact ⟨done _ _, inside⟩
    | some letters =>
      obtain ⟨len, r, hl, data⟩ := hau letters rfl
      have few : letters.length + 1 < 2 ^ 32 := by
        obtain ⟨_, _, _, _, _, _, _, _, _, hau⟩ := hs.data
        cases hau with
        | some hsh => exact hsh
      have fuel : letters.length < limit := by
        have fuel := rounds c ha
        rw [Entry.rounds, isCie] at fuel
        exact Nat.lt_of_lt_of_le (Nat.lt_add_of_pos_right (by decide)) fuel
      rw [if_pos hs.string.1, readUleb_of_number hl limited, ofExcept_bind]
      rw [← same] at data
      obtain ⟨⟨lsda, p⟩, hpa⟩ : ∃ r, parseLsda memory limit cie len limit 1 _ old.lsda = .ok r :=
        parseLsda_returns (k := 1) limited data hst hgi hs.string.2 (by omega) fuel old.lsda
      dsimp only
      rw [hpa]
      exact ⟨done _ _, inside⟩

end Entries

end Gevisor.Unwind
