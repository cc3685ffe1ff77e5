import Gevisor.Verified.GuestMaps
import Gevisor.Vmexit.IoInstruction

/-! # Operands of string instructions

The encoded size of an access is one less than its bytes, and it is the encoded size that the map is made for. The
map covers the operand unless its last byte is the first of a page.
-/

namespace Gevisor.Verified.StringOperands

open Lib Ept Host Vmexit.Io
open MemoryManager (pageSize)
open GuestMaps (Untouched)

variable {mm : PagePool} {A : AddrMap} {t t' : Buddy memMapPoolK} {q : Nat} {v : Vcpu} {info : Info}

/-- Where the guest's page tables translate `a` to. -/
def guestTranslation (v : Vcpu) (a : Nat) : Option Nat :=
  (guestWalk (words v.memory) a (upper v.guestCr3.toNat 12)).frame.map (translated a)

/-- The bytes of the operand. -/
def operandBytes (v : Vcpu) (info : Info) : Option (List Nat) :=
  (List.range (widthOf info.sizeOfAccess)).mapM fun i => guestTranslation v ((info.address.toNat + i) % 2 ^ 64)

/-- The operand is read from its bytes and nothing else is touched. -/
def Loads (mm : PagePool) (A : AddrMap) (t : Buddy memMapPoolK) (info : Info) (v : Vcpu) : Prop :=
  wp (loadOperand mm info) (fun info' v' => ∃ bytes, operandBytes v info = some bytes ∧
    v'.touched = v.touched ++ bytes ∧ info' = { info with val := BitVec.ofNat 64 (littleEndian (bytes.map v.memory)) } ∧
    v'.memory = v.memory ∧ Holds mm A t v'.host) (fun _ _ => False) v

/-- The operand is written to its bytes and nothing else is touched. -/
def Stores (mm : PagePool) (A : AddrMap) (t : Buddy memMapPoolK) (info : Info) (v : Vcpu) : Prop :=
  wp (storeOperand mm info) (fun _ v' => ∃ bytes, operandBytes v info = some bytes ∧
    v'.touched = v.touched ++ bytes ∧ v'.memory = writeBytes v.memory info.val 0 bytes ∧ Holds mm A t v'.host)
    (fun _ _ => False) v

/-- Where translations `A` lead. -/
def leadsTo (A : AddrMap) (a : Nat) : Option Nat :=
  (A a).map fun leaf => translated a (Pte.physAddr leaf.entry, leaf.level)

/-- The pages that the map is made of have no translations yet, and the last byte lies in one of them: it is not the
first of a page, or else the host happens to translate it right. -/
structure Covered (A : AddrMap) (t' : Buddy memMapPoolK) (q : Nat) (v : Vcpu) (info : Info) : Prop where
  table : upper v.guestCr3.toNat 12 ≠ 0
  filled : info.sizeOfAccess.toNat + lower info.address.toNat 12 ≠ 0
  untouched : Untouched (words v.memory) A t' q info.address.toNat (upper v.guestCr3.toNat 12) info.sizeOfAccess.toNat
  last : (info.sizeOfAccess.toNat + lower info.address.toNat 12) % 4096 ≠ 0 ∨
    leadsTo A (poolPage q + lower info.address.toNat 12 + info.sizeOfAccess.toNat) =
      guestTranslation v ((info.address.toNat + info.sizeOfAccess.toNat) % 2 ^ 64)

/-! ## Lists of translations -/

variable {α : Type} {X : Err → Vcpu → Prop}

theorem mapM_ne_none {l : List α} {g : α → Option Nat} (all : ∀ a ∈ l, g a ≠ none) : l.mapM g ≠ none := by
  induction l with
  | nil => exact Option.some_ne_none _
  | cons a l ih =>
    obtain ⟨p, first⟩ := Option.ne_none_iff_exists'.mp (all a List.mem_cons_self)
    obtain ⟨ps, rest⟩ := Option.ne_none_iff_exists'.mp (ih fun b hm => all b (List.mem_cons_of_mem _ hm))
    rw [List.mapM_cons, first, rest]
    exact Option.some_ne_none _

/-- Lists of translations agree if all of their elements do. -/
theorem mapM_eq_iff {l : List α} {f g : α → Option Nat} (all : ∀ a ∈ l, g a ≠ none) :
    l.mapM f = l.mapM g ↔ ∀ a ∈ l, f a = g a := by
  induction l with
  | nil => exact ⟨fun _ _ hm => absurd hm List.not_mem_nil, fun _ => rfl⟩
  | cons a l ih =>
    obtain ⟨p, first⟩ := Option.ne_none_iff_exists'.mp (all a List.mem_cons_self)
    have hot : ∀ b ∈ l, g b ≠ none := fun b hm => all b (List.mem_cons_of_mem _ hm)
    obtain ⟨ps, rest⟩ := Option.ne_none_iff_exists'.mp (mapM_ne_none hot)
    rw [List.forall_mem_cons, ← ih hot, List.mapM_cons, List.mapM_cons, first, rest]
    cases f a with
    | none =>
      constructor
      · intro same
        cases same
      · rintro ⟨same, -⟩
        cases same
    | some p' =>
      cases l.mapM f with
      | none =>
        constructor
        · intro same
          cases same
        · rintro ⟨-, same⟩
          cases same
      | some ps' =>
        constructor
        · intro same
          cases same
          exact ⟨rfl, rfl⟩
        · rintro ⟨same, same'⟩
          cases same
          cases same'
          rfl

/-! ## The map of an operand -/

/-- What the map is made for. -/
def operandRequest (v : Vcpu) (info : Info) : Request :=
  .guest info.address.toNat v.guestCr3.toNat info.sizeOfAccess.toNat

/-- Sizes are encoded as the number of bytes less one. -/
def Encoded (info : Info) : Prop := info.sizeOfAccess = 0 ∨ info.sizeOfAccess = 1 ∨ info.sizeOfAccess = 3

theorem Encoded.width (encoded : Encoded info) :
    widthOf info.sizeOfAccess = info.sizeOfAccess.toNat + 1 ∧ info.sizeOfAccess.toNat ≤ 3 := by
  obtain size | size | size := encoded
  · rw [size]
    decide
  · rw [size]
    decide
  · rw [size]
    decide

theorem Encoded.size_eq (encoded : Encoded info) :
    (operandRequest v info).size = info.sizeOfAccess.toNat + lower info.address.toNat 12 := by
  have hs := encoded.width.2
  have ho : lower info.address.toNat 12 < 4096 := Nat.mod_lt _ (by decide)
  exact Nat.mod_eq_of_lt (by omega)

/-- The host while the operand is mapped. -/
structure Made (mm : PagePool) (A : AddrMap) (t t' : Buddy memMapPoolK) (q : Nat) (v : Vcpu) (info : Info)
    (host : Host.Host) : Prop where
  returns : makeUniqueMapGuest mm (words v.memory) info.address.toNat v.guestCr3.toNat info.sizeOfAccess.toNat v.host =
    .ok ((operandRequest v info).object q) host
  holds : Holds mm (painted (words v.memory) (operandRequest v info) A q (operandRequest v info).count) t' host
  restores : wp (((operandRequest v info).object q).destroy mm) (fun _ host' => Holds mm A t host') (fun _ _ => False) host

theorem made_of_mappable (hh : Holds mm A t v.host) (grants : granted t (operandRequest v info).size = some (q, t'))
    (hacc : (operandRequest v info).Accepted)
    (all : ∀ i < (operandRequest v info).count, Mappable (words v.memory) (operandRequest v info) A t' q i) :
    ∃ host, Made mm A t t' q v info host := by
  have made : wp ((operandRequest v info).make mm (words v.memory)) (fun map host => map = (operandRequest v info).object q ∧
      Holds mm (painted (words v.memory) (operandRequest v info) A q (operandRequest v info).count) t' host)
      (fun _ _ => False) v.host := by
    refine wp_mono (fun _ _ ends => ⟨ends.1, ends.2.1⟩) ?_ (wp_make hh grants hacc)
    rintro e host ⟨-, k, less, -, stop, -⟩
    exact stop (all k less)
  obtain ⟨map, host, hret, rfl, ha⟩ := exists_of_wp made
  refine ⟨host, hret, ha, ?_⟩
  have hr := wp_destroy grants ha (fun i less => painted_ne_none less (SameLeaf.refl _ _)) (granted_give hh grants)
  have back := @without_painted mm (words v.memory) A t v.host q (operandRequest v info) _ hh fun i less => (all i less).absent
  rw [show Request.guest _ _ _ = operandRequest v info from rfl, back] at hr
  exact hr

/-- With the map made, the access is what is left. -/
theorem wp_withOperand {scope : UniqueMap → EStateM Err Vcpu α} {Q : α → Vcpu → Prop}
    {host : Host.Host} (made : Made mm A t t' q v info host) :
    wp (withOperand mm info scope) Q X v ↔ wp (ensuring Err.isExn (scope ((operandRequest v info).object q))
        (onHost (((operandRequest v info).object q).destroy mm))) Q X { v with host := host } := by
  have first : onHost (makeUniqueMapGuest mm (words v.memory) info.address.toNat v.guestCr3.toNat info.sizeOfAccess.toNat) v =
      .ok ((operandRequest v info).object q) { v with host := host } := by
    simp only [onHost, zoom, made.returns]
  rw [withOperand, wp_bind, wp_get, wp_bind, wp_of_ok first]

theorem littleEndian_lt (bytes : List (BitVec 8)) : littleEndian bytes < 2 ^ (8 * bytes.length) := by
  induction bytes with
  | nil => exact Nat.one_pos
  | cons byte rest ih =>
    have low : byte.toNat < 2 ^ 8 := byte.isLt
    rw [littleEndian, List.length_cons, Nat.mul_add, Nat.mul_one, Nat.pow_add, Nat.mul_comm (2 ^ (8 * rest.length))]
    calc byte.toNat + 2 ^ 8 * littleEndian rest < 2 ^ 8 * (littleEndian rest + 1) := by omega
      _ ≤ 2 ^ 8 * 2 ^ (8 * rest.length) := Nat.mul_le_mul_left _ ih

theorem mapM_length {l : List α} {f : α → Option Nat} {ps : List Nat} (hf : l.mapM f = some ps) :
    ps.length = l.length := by
  induction l generalizing ps with
  | nil =>
    cases hf
    rfl
  | cons a l ih =>
    rw [List.mapM_cons] at hf
    cases first : f a with
    | none =>
      rw [first] at hf
      cases hf
    | some p =>
      cases rest : l.mapM f with
      | none =>
        rw [first, rest] at hf
        cases hf
      | some ps' =>
        rw [first, rest] at hf
        cases hf
        rw [List.length_cons, List.length_cons, ih rest]

/-- Cutting a number to the bytes that it was read from changes nothing. -/
theorem and_operandMask {bytes : List (BitVec 8)} (few : bytes.length ≤ 4) :
    BitVec.ofNat 64 (littleEndian bytes) &&& operandMask bytes.length = BitVec.ofNat 64 (littleEndian bytes) := by
  have low := littleEndian_lt bytes
  have fits : 2 ^ (8 * bytes.length) ≤ 2 ^ 32 := Nat.pow_le_pow_right (by decide) (by omega)
  apply BitVec.eq_of_toNat_eq
  rw [operandMask, BitVec.toNat_and, BitVec.toNat_ofNat, BitVec.toNat_ofNat, Nat.mod_eq_of_lt (by omega),
    Nat.mod_eq_of_lt (show 2 ^ (8 * bytes.length) - 1 < 2 ^ 64 by omega), Nat.and_two_pow_sub_one_eq_mod,
    Nat.mod_eq_of_lt low]

theorem wp_access {virt n : Nat} {Q : List Nat → Vcpu → Prop} :
    wp (access mm virt n) Q X v ↔ match translateBytes mm v.host.mmap virt n with
      | some bytes => Q bytes { v with touched := v.touched ++ bytes }
      | none => X (.fault .nullDereference) v := by
  simp only [wp, access]
  cases translateBytes mm v.host.mmap virt n with
  | none => rfl
  | some bytes => rfl

section Made

variable {host : Host.Host} (made : Made mm A t t' q v info host) (nonNull : info.address ≠ 0)
  {bytes : List Nat} (known : operandBytes v info = some bytes)

include made nonNull known

/-- The operand is read from the right bytes if and only if the pointer leads to them. -/
theorem loads_iff (encoded : Encoded info) :
    Loads mm A t info v ↔
      translateBytes mm host.mmap ((operandRequest v info).object q).virt (widthOf info.sizeOfAccess) = some bytes := by
  have few := encoded.width
  simp only [Loads, loadOperand, if_pos nonNull, readMap]
  rw [wp_withOperand made, wp_ensuring, wp_bind, wp_bind, wp_access]
  cases hr : translateBytes mm host.mmap ((operandRequest v info).object q).virt (widthOf info.sizeOfAccess) with
  | none =>
    constructor
    · exact fun none => none.elim
    · intro same
      cases same
  | some hf =>
    simp only [wp_bind, wp_get, wp_pure, onHost, wp_zoom]
    constructor
    · intro ends
      obtain ⟨_, _, _, bytes', right, same, -⟩ := exists_of_wp ends
      cases known.symm.trans right
      rw [List.append_cancel_left_eq] at same
      rw [same]
    · intro same
      cases same
      refine wp_mono (fun _ host' ha => ?_) (fun _ _ none => none) made.restores
      have hl : (bytes.map v.memory).length = widthOf info.sizeOfAccess := by
        rw [List.length_map, mapM_length hr, List.length_range]
      refine ⟨bytes, known, rfl, ?_, trivial, ha⟩
      rw [← hl, and_operandMask (by omega)]

theorem stores_iff : Stores mm A t info v ↔
      translateBytes mm host.mmap ((operandRequest v info).object q).virt (widthOf info.sizeOfAccess) = some bytes := by
  simp only [Stores, storeOperand, if_pos nonNull, writeMap]
  rw [wp_withOperand made, wp_ensuring, wp_bind, wp_access]
  cases translateBytes mm host.mmap ((operandRequest v info).object q).virt (widthOf info.sizeOfAccess) with
  | none =>
    constructor
    · exact fun none => none.elim
    · intro same
      cases same
  | some hf =>
    simp only [wp_modify, onHost, wp_zoom]
    constructor
    · intro ends
      obtain ⟨_, _, _, bytes', right, same, -⟩ := exists_of_wp ends
      cases known.symm.trans right
      rw [List.append_cancel_left_eq] at same
      rw [same]
    · intro same
      cases same
      exact wp_mono (fun _ host' ha => ⟨bytes, known, rfl, rfl, ha⟩) (fun _ _ none => none) made.restores

end Made

/-! ## Coverage -/

section Coverage

variable {host : Host.Host} (made : Made mm A t t' q v info host) (encoded : Encoded info)
  (grants : granted t (operandRequest v info).size = some (q, t'))

include made encoded grants

/-- If the last byte is the first of a page, no page of the map has been made for it. -/
theorem translation_of_edge (edge : (info.sizeOfAccess.toNat + lower info.address.toNat 12) % 4096 = 0) :
    hostTranslation mm host.mmap (poolPage q + lower info.address.toNat 12 + info.sizeOfAccess.toNat) =
      leadsTo A (poolPage q + lower info.address.toNat 12 + info.sizeOfAccess.toNat) := by
  have hsm := encoded.width.2
  have ho : lower info.address.toNat 12 < 4096 := Nat.mod_lt _ (by decide)
  have hsi : (operandRequest v info).size = info.sizeOfAccess.toNat + lower info.address.toNat 12 := encoded.size_eq
  have hfi := (granted_size grants).1
  have page : info.sizeOfAccess.toNat + lower info.address.toNat 12 = 4096 := by omega
  have hs : (operandRequest v info).count = 1 := by
    show pages (operandRequest v info).size = 1
    rw [hsi, page]
    decide
  have first : 0 < pages (operandRequest v info).size := by
    rw [show pages (operandRequest v info).size = 1 from hs]
    exact Nat.one_pos
  have hi := (granted_pages grants first).2
  rw [hostTranslation, made.holds.maps.refines.2, leadsTo, painted_other]
  intro j less same
  obtain rfl : j = 0 := by omega
  rw [place_eq grants less] at same
  simp only [SameLeaf, poolPage, memMapPoolStart, memMapPoolK, pageSize, Level.fromBit] at same hi
  omega

theorem translates_iff
    (hp : ∀ i < widthOf info.sizeOfAccess, guestTranslation v ((info.address.toNat + i) % 2 ^ 64) ≠ none) :
    translateBytes mm host.mmap ((operandRequest v info).object q).virt (widthOf info.sizeOfAccess) = operandBytes v info ↔
      ((info.sizeOfAccess.toNat + lower info.address.toNat 12) % 4096 ≠ 0 ∨
        leadsTo A (poolPage q + lower info.address.toNat 12 + info.sizeOfAccess.toNat) =
          guestTranslation v ((info.address.toNat + info.sizeOfAccess.toNat) % 2 ^ 64)) := by
  obtain ⟨width, small⟩ := encoded.width
  have sized : (operandRequest v info).size = info.sizeOfAccess.toNat + lower info.address.toNat 12 := encoded.size_eq
  have pointer : ((operandRequest v info).object q).virt = poolPage q + lower info.address.toNat 12 :=
    object_virt info.address.toNat q
  -- Bytes in pages of the map are translated right.
  have hi {i : Nat} (less : i < widthOf info.sizeOfAccess)
      (page : (lower info.address.toNat 12 + i) / pageSize < (operandRequest v info).count) :
      hostTranslation mm host.mmap (poolPage q + lower info.address.toNat 12 + i) =
        guestTranslation v ((info.address.toNat + i) % 2 ^ 64) := by
    have there := hp i less
    simp only [guestTranslation, ne_eq, Option.map_eq_none_iff] at there
    obtain ⟨hf, frame⟩ := Option.ne_none_iff_exists'.mp there
    rw [guestTranslation, frame]
    exact hostTranslation_painted grants made.holds page frame
  have hcv {i : Nat} (bytes : lower info.address.toNat 12 + i <
      pageSize * pages (info.sizeOfAccess.toNat + lower info.address.toNat 12)) :
      (lower info.address.toNat 12 + i) / pageSize < (operandRequest v info).count := by
    show _ < pages (operandRequest v info).size
    rw [sized]
    exact Nat.div_lt_of_lt_mul bytes
  rw [translateBytes, operandBytes, mapM_eq_iff fun i hm => hp i (List.mem_range.mp hm), pointer]
  constructor
  · intro all
    by_cases edge : (info.sizeOfAccess.toNat + lower info.address.toNat 12) % 4096 = 0
    · have last := all info.sizeOfAccess.toNat (List.mem_range.mpr (by omega))
      rw [translation_of_edge made encoded grants edge] at last
      exact .inr last
    · exact .inl edge
  · intro last i hm
    have less := List.mem_range.mp hm
    by_cases end_ : i = info.sizeOfAccess.toNat
    · obtain interior | lucky := last
      · refine hi less (hcv ?_)
        simp only [pages, pageSize]
        omega
      · by_cases edge : (info.sizeOfAccess.toNat + lower info.address.toNat 12) % 4096 = 0
        · rw [end_, translation_of_edge made encoded grants edge]
          exact lucky
        · refine hi less (hcv ?_)
          simp only [pages, pageSize]
          omega
    · refine hi less (hcv ?_)
      simp only [pages, pageSize]
      omega

end Coverage

/-! ## Main result -/

/-- Every page that the map is made of holds a byte of the operand. -/
theorem present_of_bytes (encoded : Encoded info)
    (hp : ∀ i < widthOf info.sizeOfAccess, guestTranslation v ((info.address.toNat + i) % 2 ^ 64) ≠ none)
    {i : Nat} (less : i < pages (info.sizeOfAccess.toNat + lower info.address.toNat 12)) :
    (guestWalk (words v.memory) (Request.current info.address.toNat i) (upper v.guestCr3.toNat 12)).frame ≠ none := by
  have hw := encoded.width.1
  have ho : lower info.address.toNat 12 < 4096 := Nat.mod_lt _ (by decide)
  simp only [pages, pageSize] at less
  have ht := hp (4096 * i - lower info.address.toNat 12) (by omega)
  simp only [guestTranslation, ne_eq, Option.map_eq_none_iff] at ht
  have page := page_of_byte info.address.toNat (4096 * i - lower info.address.toNat 12)
  rw [show (lower info.address.toNat 12 + (4096 * i - lower info.address.toNat 12)) / pageSize = i from by
    simp only [pageSize]
    omega] at page
  rw [guestWalk_congr page]
  exact ht

/-- Without a map there is no access. -/
theorem not_accessed_of_unmapped (nonNull : info.address ≠ 0)
    (hf : wp ((operandRequest v info).make mm (words v.memory)) (fun _ _ => False) (fun _ _ => True) v.host) :
    ¬ Loads mm A t info v ∧ ¬ Stores mm A t info v := by
  obtain ⟨e, host, hth, -⟩ := exists_error_of_wp hf
  have first : onHost (makeUniqueMapGuest mm (words v.memory) info.address.toNat v.guestCr3.toNat info.sizeOfAccess.toNat) v =
      .error e { v with host := host } := by
    simp only [onHost, zoom]
    rw [show makeUniqueMapGuest mm (words v.memory) info.address.toNat v.guestCr3.toNat info.sizeOfAccess.toNat v.host =
      .error e host from hth]
  constructor
  · simp only [Loads, loadOperand, if_pos nonNull]
    rw [withOperand, wp_bind, wp_get, wp_bind, wp_of_error first]
    exact id
  · simp only [Stores, storeOperand, if_pos nonNull]
    rw [withOperand, wp_bind, wp_get, wp_bind, wp_of_error first]
    exact id

/-- The map is made exactly if its pages have no translations yet. -/
theorem mappable_iff_untouched (encoded : Encoded info)
    (grants : granted t (operandRequest v info).size = some (q, t')) (hsu : Supplies 4 t')
    (hp : ∀ i < widthOf info.sizeOfAccess, guestTranslation v ((info.address.toNat + i) % 2 ^ 64) ≠ none) :
    (∀ i < (operandRequest v info).count, Mappable (words v.memory) (operandRequest v info) A t' q i) ↔
      Untouched (words v.memory) A t' q info.address.toNat (upper v.guestCr3.toNat 12) info.sizeOfAccess.toNat := by
  have hs : (operandRequest v info).size = info.sizeOfAccess.toNat + lower info.address.toNat 12 := encoded.size_eq
  have hcn : (operandRequest v info).count = pages (info.sizeOfAccess.toNat + lower info.address.toNat 12) :=
    congrArg pages hs
  have each {i : Nat} (less : i < (operandRequest v info).count) :=
    @mappable_iff (words v.memory) A t t' q _ _ _ i grants hsu less (present_of_bytes encoded hp (hcn ▸ less))
  constructor
  · intro all i less
    exact (each (hcn.symm ▸ less)).mp (all i (hcn.symm ▸ less))
  · intro hu i less
    exact (each less).mpr (hu i (hcn ▸ less))

/-- Loads and stores touch exactly the bytes of the operand if and only if the map covers it. -/
theorem operand_exact_iff (holds : Holds mm A t v.host) (encoded : Encoded info) (nonNull : info.address ≠ 0)
    (present : ∀ i < widthOf info.sizeOfAccess, guestTranslation v ((info.address.toNat + i) % 2 ^ 64) ≠ none)
    (room : info.sizeOfAccess.toNat + lower info.address.toNat 12 ≠ 0 →
      granted t (info.sizeOfAccess.toNat + lower info.address.toNat 12) = some (q, t'))
    (supply : Supplies 4 t') :
    (Loads mm A t info v ↔ Covered A t' q v info) ∧ (Stores mm A t info v ↔ Covered A t' q v info) := by
  have sized : (operandRequest v info).size = info.sizeOfAccess.toNat + lower info.address.toNat 12 := encoded.size_eq
  have neither (fails : wp ((operandRequest v info).make mm (words v.memory)) (fun _ _ => False) (fun _ _ => True) v.host)
      (uncovered : ¬ Covered A t' q v info) :
      (Loads mm A t info v ↔ Covered A t' q v info) ∧ (Stores mm A t info v ↔ Covered A t' q v info) := by
    obtain ⟨loads, stores⟩ := not_accessed_of_unmapped nonNull fails
    exact ⟨iff_of_false loads uncovered, iff_of_false stores uncovered⟩
  have refused (why : granted t (operandRequest v info).size = none ∨ ¬ (operandRequest v info).Accepted) :
      wp ((operandRequest v info).make mm (words v.memory)) (fun _ _ => False) (fun _ _ => True) v.host :=
    wp_mono (fun _ _ none => none) (fun _ _ _ => trivial) (wp_make_refused holds why)
  by_cases filled : info.sizeOfAccess.toNat + lower info.address.toNat 12 = 0
  · refine neither (refused (.inl ?_)) fun covered => covered.filled filled
    rw [sized, filled, granted, if_pos (.inl rfl)]
  by_cases table : upper v.guestCr3.toNat 12 = 0
  · exact neither (refused (.inr fun accepted => accepted.2 table)) fun covered => covered.table table
  have grants : granted t (operandRequest v info).size = some (q, t') := by rw [sized, room filled]
  have address : info.address.toNat ≠ 0 := fun zero => nonNull (BitVec.eq_of_toNat_eq zero)
  have accepted : (operandRequest v info).Accepted := ⟨address, table⟩
  have mappable := @mappable_iff_untouched A t t' q v info encoded grants supply present
  by_cases untouched : Untouched (words v.memory) A t' q info.address.toNat (upper v.guestCr3.toNat 12) info.sizeOfAccess.toNat
  · obtain ⟨host, made⟩ := made_of_mappable holds grants accepted (mappable.mpr untouched)
    obtain ⟨bytes, known⟩ := Option.ne_none_iff_exists'.mp
      (mapM_ne_none fun i member => present i (List.mem_range.mp member))
    have known' : operandBytes v info = some bytes := known
    have exact_ := translates_iff made encoded grants present
    rw [known'] at exact_
    rw [loads_iff made nonNull known' encoded, stores_iff made nonNull known', exact_]
    have covered : _ ↔ Covered A t' q v info := ⟨fun last => ⟨table, filled, untouched, last⟩, Covered.last⟩
    exact ⟨covered, covered⟩
  · refine neither ?_ fun covered => untouched covered.untouched
    refine wp_mono ?_ (fun _ _ _ => trivial) (wp_make holds grants accepted)
    rintro _ _ ⟨-, -, all⟩
    exact untouched (mappable.mp all)

/-- A guest whose tables at `0x1000` and `0x2000` map the first gigabyte to the second one. -/
def stringVcpu : Vcpu where
  saveState := ⟨0, 0, 0, 0, 0⟩
  exitInstructionLength := 1
  exitQualification := 0
  guestLinearAddress := 0
  guestCr3 := 0x1000
  host := Host.init default fun _ _ => 0
  memory := fun a =>
    if a = 0x1000 then 0x03 else if a = 0x1001 then 0x20 else if a = 0x2000 then 0x83 else if a = 0x2003 then 0x40 else 0
  ports := []
  touched := []

/-- An access of `size + 1` bytes to `addr`. -/
def stringInfo (addr size : BitVec 64) : Info := ⟨0x3f8, size, addr, 0, false, false⟩

theorem operand_exact_crossing : Loads default (fun _ => none) .free (stringInfo 0x5ffe 3) stringVcpu ∧
    Stores default (fun _ => none) .free (stringInfo 0x5ffe 3) stringVcpu := by
  have grants : granted (.free : Buddy memMapPoolK) (3 + lower 0x5ffe 12) = some (0, Buddy.carve 1 memMapPoolK) := by
    rw [granted, if_neg (by decide)]
    rfl
  have exact_ := @operand_exact_iff default (fun _ => none) .free (Buddy.carve 1 memMapPoolK) 0 stringVcpu
    (stringInfo 0x5ffe 3) (holds_init default fun _ _ => 0) (.inr (.inr rfl)) (by decide) (by decide) (fun _ => grants)
    ⟨_, _, rfl, _, _, rfl, _, _, rfl, _, _, rfl, trivial⟩
  have covered : Covered (fun _ => none) (Buddy.carve 1 memMapPoolK) 0 stringVcpu (stringInfo 0x5ffe 3) :=
    ⟨by decide, by decide, fun _ _ => ⟨rfl, clear_empty _ _⟩, .inl (by decide)⟩
  rw [exact_.1, exact_.2]
  exact ⟨covered, covered⟩

/-- One byte at the start of a page: its encoded size and its offset are both zero, no page is mapped and the
instruction fails. -/
theorem first_byte_of_page_fails : operandBytes stringVcpu (stringInfo 0x5000 0) = some [0x40005000] ∧
    ¬ Loads default (fun _ => none) .free (stringInfo 0x5000 0) stringVcpu ∧
    ¬ Stores default (fun _ => none) .free (stringInfo 0x5000 0) stringVcpu := by
  refine ⟨by decide, not_accessed_of_unmapped (by decide) ?_⟩
  have refused : granted (.free : Buddy memMapPoolK) (operandRequest stringVcpu (stringInfo 0x5000 0)).size = none := by
    rw [granted, if_pos (.inl rfl)]
  exact wp_mono (fun _ _ none => none) (fun _ _ _ => trivial)
    (wp_make_refused (holds_init default fun _ _ => 0) (.inl refused))

end Gevisor.Verified.StringOperands
