import Gevisor.Elf.Hash
import Gevisor.Elf.Words
import Gevisor.Lib.Masks

/-! # Looking symbols up by their hash

The hash function of the loader is that of the System V ABI for names of 7-bit characters, so that a look-up walks
the chain on which the table has the symbol. The start of the chains is computed in 32 bits, which is too little for
the two largest numbers of buckets.
-/

namespace Gevisor.Verified.SymbolLookup

open Elf

/-! ## Well-formed tables -/

/-- The table at `hash`: two numbers, then the buckets, then the chains. -/
def tableBucket (memory : Bytes) (ef : AddedFile) (b : Word) : Word := fetch memory (ef.hash + 4 * (2 + b)) 4

def tableChain (memory : Bytes) (ef : AddedFile) (i : Word) : Word := fetch memory (ef.hash + 4 * (2 + ef.nbucket + i)) 4

/-- The bucket of a name. -/
def bucketOf (ef : AddedFile) (s : List Byte) : Word := (gabiHash s).setWidth 64 % ef.nbucket

def Ascii (s : List Byte) : Prop := ∀ c ∈ s, c.msb = false

instance decidableAscii (s : List Byte) : Decidable (Ascii s) := inferInstanceAs (Decidable (∀ _ ∈ _, _))

/-- A System V hash table over symbols with the given names. -/
structure Table (memory : Bytes) (ef : AddedFile) (names : Word → List Byte) : Prop where
  present : ef.hash ≠ 0
  positive : 0 < ef.nbucket
  named : ∀ i, 0 < i → i < ef.nchain → StringAt memory (symbolName memory ef (symbol ef i)) (names i)
  nonempty : ∀ i, 0 < i → i < ef.nchain → names i ≠ []
  ascii : ∀ i, 0 < i → i < ef.nchain → Ascii (names i)
  distinct : ∀ i j, 0 < i → i < ef.nchain → 0 < j → j < ef.nchain → names i = names j → i = j
  acyclic : ∀ b < ef.nbucket, ∃ l, Chain (tableChain memory ef) ef.nchain (tableBucket memory ef b) l
  listed : ∀ i, 0 < i → i < ef.nchain →
    ∀ l, Chain (tableChain memory ef) ef.nchain (tableBucket memory ef (bucketOf ef (names i))) l → i ∈ l

theorem Table.occupied {memory : Bytes} {ef : AddedFile} {names : Word → List Byte}
    (table : Table memory ef names) : ef.nbucket ≠ 0 := by
  intro zero
  have hpos := table.positive
  rw [zero] at hpos
  exact absurd hpos (by decide)

/-- With enough room for the loops, every look-up ends, and finds the symbol exactly if there is one. -/
def Complete (memory : Bytes) (ef : AddedFile) (names : Word → List Byte) : Prop :=
  ∀ (name : Word) (s : List Byte), StringAt memory name s → s ≠ [] → Ascii s → ∃ n, ∀ limit, n ≤ limit →
    (∀ i, 0 < i → i < ef.nchain → names i = s → privateGetSymByName memory ef limit name = .ok (some (symbol ef i))) ∧
    ((∀ i, 0 < i → i < ef.nchain → names i ≠ s) → privateGetSymByName memory ef limit name = .ok none)

/-! ## Walking the right chain -/

variable {next : Word → Word} {nchain i n : Word} {l : List Word} {P : Word → Prop}

theorem mem_of_chain (hc : Chain next nchain i l) : ∀ j ∈ l, 0 < j ∧ j < nchain := by
  induction l generalizing i with
  | nil =>
    intro j mem
    cases mem
  | cons k l ih =>
    obtain ⟨-, hpos, hb, rest⟩ := hc
    exact List.forall_mem_cons.mpr ⟨⟨hpos, hb⟩, ih rest⟩

/-- A chain is determined by where it begins. -/
theorem chain_unique {l' : List Word} (hc : Chain next nchain i l) (hc' : Chain next nchain i l') : l = l' := by
  induction l generalizing i l' with
  | nil =>
    cases l' with
    | nil => rfl
    | cons j l' =>
      have zero : i = 0 := hc
      obtain ⟨same, hpos, -⟩ := hc'
      rw [← same, zero] at hpos
      exact absurd hpos (by decide)
  | cons j l ih =>
    obtain ⟨same, hpos, -, rest⟩ := hc
    cases l' with
    | nil =>
      have zero : i = 0 := hc'
      rw [← same, zero] at hpos
      exact absurd hpos (by decide)
    | cons k l' =>
      obtain ⟨same', -, -, rest'⟩ := hc'
      subst same
      subst same'
      rw [ih rest rest']

section

variable {memory : Bytes} {ef : AddedFile} {names : Word → List Byte} (table : Table memory ef names)
  (bucketAt : ef.bucket = ef.hash + 8) (chainAt : ef.chain = ef.hash + 4 * (2 + ef.nbucket))

include table bucketAt chainAt

theorem privateGetSymByName_eq {name : Word} {s : List Byte} (hs : StringAt memory name s) (ha : Ascii s)
    {l : List Word} (hc : Chain (tableChain memory ef) ef.nchain (tableBucket memory ef (bucketOf ef s)) l)
    {limit : Nat} (room : s.length < limit) (hst : l.length < limit) :
    privateGetSymByName memory ef limit name = .ok ((l.find? fun j => s = names j).map (symbol ef)) := by
  have first : ef.bucket + 4 * bucketOf ef s = ef.hash + 4 * (2 + bucketOf ef s) := by
    rw [bucketAt]
    bv_omega
  have hl : (fun j => fetch memory (ef.chain + 4 * j) 4) = tableChain memory ef := by
    funext j
    have hp : ef.chain + 4 * j = ef.hash + 4 * (2 + ef.nbucket + j) := by
      rw [chainAt]
      bv_omega
    rw [tableChain, hp]
  rw [privateGetSymByName_walks table.present table.occupied hs ha room, ← bucketOf, first]
  exact chainFrom_eq table.named hs room (hl.symm ▸ hc) hst

theorem complete : Complete memory ef names := by
  intro name s hs hne ha
  have hi : bucketOf ef s < ef.nbucket := by
    rw [bucketOf]
    exact BitVec.umod_lt _ table.positive
  obtain ⟨l, hc⟩ := table.acyclic _ hi
  refine ⟨s.length + l.length + 1, fun limit room => ?_⟩
  rw [privateGetSymByName_eq table bucketAt chainAt hs ha hc (by omega) (by omega)]
  have hm := mem_of_chain hc
  constructor
  · intro i hpos hb same
    have mem : i ∈ l := by
      apply table.listed i hpos hb
      rw [same]
      exact hc
    -- Names are distinct, so the first symbol of the chain with the name is `i`.
    cases hf : l.find? fun j => s = names j with
    | none =>
      have hab := List.find?_eq_none.mp hf i mem
      exact absurd same.symm (by simpa using hab)
    | some j =>
      have heq : s = names j := by simpa using List.find?_some hf
      obtain ⟨hpos', hb'⟩ := hm j (List.mem_of_find?_eq_some hf)
      rw [table.distinct i j hpos hb hpos' hb' (same.trans heq)]
      rfl
  · intro none
    have hab : l.find? (fun j => s = names j) = Option.none := by
      rw [List.find?_eq_none]
      intro j mem
      have ho := none j (hm j mem).1 (hm j mem).2
      simpa using ho.symm
    rw [hab]
    rfl

end

/-! ## Where the chains begin -/

theorem chain_of_small (memory : Bytes) (file : File) (oldVirt execAddr execVirt : Word)
    (hs : (placed memory file oldVirt execAddr execVirt).nbucket.toNat + 2 < 2 ^ 32) :
    (placed memory file oldVirt execAddr execVirt).chain = (placed memory file oldVirt execAddr execVirt).hash +
      4 * (2 + (placed memory file oldVirt execAddr execVirt).nbucket) := by
  generalize hc : (placed memory file oldVirt execAddr execVirt).nbucket = n at hs
  have kept : (2 + n) &&& 0xffffffff = 2 + n := by
    apply BitVec.eq_of_toNat_eq
    rw [show (0xffffffff : Word) = BitVec.ofNat 64 (2 ^ 32 - 1) from rfl, Lib.toNat_and_low]
    apply Nat.mod_eq_of_lt
    bv_omega
  have hst : (placed memory file oldVirt execAddr execVirt).chain =
      (placed memory file oldVirt execAddr execVirt).hash + 4 * ((2 + n) &&& 0xffffffff) := by
    rw [← hc]
    rfl
  rw [hst, kept]

/-! ## Two names with the same hash -/

/-- The bytes other than zero of a file with a hash table at `0x1200`, for `n` buckets, and the symbols `ab` and `bR`,
which have the same hash. The symbol table is at `0x800000000000`, the string table at `0x900000000000`. -/
def cells (n : Word) : List (Word × Byte) :=
  [(0x1200, n.setWidth 8), (0x1201, 0xff), (0x1202, 0xff), (0x1203, 0xff), -- nbucket
    (0x1204, 3), -- nchain
    (0x2bd0, 1), -- the bucket of the names
    (0x120c + 4 * n, 2), -- the chain from the first symbol to the second
    (0x800000000018, 1), (0x800000000030, 4), -- st_name
    (0x900000000001, 0x61), (0x900000000002, 0x62), (0x900000000004, 0x62), (0x900000000005, 0x52)]

def collision (n : Word) : Bytes := fun a => (((cells n).find? fun x => x.1 = a).map Prod.snd).getD 0

def collisionFile : File := { hash := 0x200, symtab := 0x7ffffffff000, strtabOffset := 0x8ffffffff000 }

def collisionAdded (n : Word) : AddedFile := placed (collision n) collisionFile 0 0x1000 0

def collisionNames (i : Word) : List Byte := if i = 1 then [0x61, 0x62] else [0x62, 0x52]

theorem collision_adds (n : Word) :
    bfelfLoaderAdd (collision n) {} collisionFile 0 0 0x1000 0 = .ok { efs := [collisionAdded n] } := by
  rw [bfelfLoaderAdd, if_neg (by decide), if_neg (by decide), if_neg (by decide), collisionAdded]
  rfl

theorem second_name : collisionNames 2 = [0x62, 0x52] := by decide

theorem collision_of_other {a : Word} (ho : ∀ x ∈ cells n, x.1 ≠ a) : collision n a = 0 := by
  have none : (cells n).find? (fun x => x.1 = a) = Option.none := by
    rw [List.find?_eq_none]
    intro x mem
    simpa using ho x mem
  rw [collision, none]
  rfl

/-- The two numbers of buckets for which `2 + nbucket` is not a 32-bit number. -/
def Wraps (n : Word) : Prop := n = 0xfffffffe ∨ n = 0xffffffff

/-- These two and the largest number for which it is one. -/
def Large (n : Word) : Prop := n = 0xfffffffd ∨ Wraps n

theorem Wraps.elim (first : P 0xfffffffe) (hs : P 0xffffffff) (wraps : Wraps n) : P n := by
  cases wraps with
  | inl same => rw [same]; exact first
  | inr same => rw [same]; exact hs

theorem Large.elim (fits : P 0xfffffffd) (first : P 0xfffffffe) (hs : P 0xffffffff) (large : Large n) : P n := by
  cases large with
  | inl same => rw [same]; exact fits
  | inr wraps => exact wraps.elim first hs

section

variable {n : Word} (large : Large n)

include large

theorem added_fields : (collisionAdded n).hash = 0x1200 ∧ (collisionAdded n).nbucket = n ∧
    (collisionAdded n).nchain = 3 := by
  apply large.elim
  · decide +kernel
  · decide +kernel
  · decide +kernel

theorem index_cases {i : Word} (hpos : 0 < i) (hb : i < (collisionAdded n).nchain) : i = 1 ∨ i = 2 := by
  rw [(added_fields large).2.2] at hb
  bv_omega

theorem bucket_names : tableBucket (collision n) (collisionAdded n) 0x672 = 1 ∧
    tableChain (collision n) (collisionAdded n) 1 = 2 ∧ tableChain (collision n) (collisionAdded n) 2 = 0 := by
  apply large.elim
  · decide +kernel
  · decide +kernel
  · decide +kernel

theorem bucketOf_names (i : Word) : bucketOf (collisionAdded n) (collisionNames i) = 0x672 := by
  have both : gabiHash (collisionNames i) = 0x672 := by
    rw [collisionNames]
    split
    · decide
    · decide
  rw [bucketOf, (added_fields large).2.1, both]
  apply large.elim
  · decide
  · decide
  · decide

theorem string_names {i : Word} (hk : i = 1 ∨ i = 2) : StringAt (collision n)
    (symbolName (collision n) (collisionAdded n) (symbol (collisionAdded n) i)) (collisionNames i) := by
  cases hk with
  | inl first =>
    rw [first]
    apply large.elim
    · decide +kernel
    · decide +kernel
    · decide +kernel
  | inr hs =>
    rw [hs]
    apply large.elim
    · decide +kernel
    · decide +kernel
    · decide +kernel

theorem lt_of_large : n.toNat < 2 ^ 32 := by
  apply large.elim
  · decide
  · decide
  · decide

/-- Among the buckets only one is not empty. -/
theorem cells_place : ∀ x ∈ cells n,
    x.1.toNat < 0x1208 ∨ x.1.toNat = 0x1208 + 4 * 0x672 ∨ 0x1208 + 4 * n.toNat ≤ x.1.toNat := by
  have hbo := lt_of_large large
  have link : (0x120c + 4 * n : Word).toNat = 0x120c + 4 * n.toNat := by bv_omega
  simp only [cells, List.forall_mem_cons, link]
  simp
  omega

theorem bucket_other {b : Word} (hi : b < n) (ho : b ≠ 0x672) :
    tableBucket (collision n) (collisionAdded n) b = 0 := by
  rw [tableBucket, (added_fields large).1]
  apply fetch_zero
  intro j hb
  apply collision_of_other
  have hbo := lt_of_large large
  have hp : (0x1200 + 4 * (2 + b) + BitVec.ofNat 64 j : Word).toNat = 0x1208 + 4 * b.toNat + j := by
    bv_omega
  intro x mem same
  have hs := cells_place large x mem
  rw [same, hp] at hs
  have hn : b.toNat ≠ 0x672 := fun heq => ho (BitVec.eq_of_toNat_eq heq)
  have less : b.toNat < n.toNat := hi
  omega

theorem collision_table : Table (collision n) (collisionAdded n) collisionNames := by
  obtain ⟨hash, hn, hnc⟩ := added_fields large
  obtain ⟨hbu, first, hs⟩ := bucket_names large
  have path : Chain (tableChain (collision n) (collisionAdded n)) (collisionAdded n).nchain
      (tableBucket (collision n) (collisionAdded n) 0x672) [1, 2] := by
    rw [hnc]
    refine ⟨hbu, by decide, by decide, first, by decide, by decide, hs⟩
  constructor
  · rw [hash]
    decide
  · rw [hn]
    apply large.elim
    · decide
    · decide
    · decide
  · exact fun i hpos hb => string_names large (index_cases large hpos hb)
  · intro i _ _
    rw [collisionNames]
    split
    · decide
    · decide
  · intro i _ _
    rw [collisionNames, Ascii]
    split
    · decide
    · decide
  · intro i j hpos hb hpos' hb' same
    cases index_cases large hpos hb with
    | inl one =>
      cases index_cases large hpos' hb' with
      | inl one' => rw [one, one']
      | inr two' =>
        rw [one, two'] at same
        exact absurd same (by decide)
    | inr two =>
      cases index_cases large hpos' hb' with
      | inl one' =>
        rw [two, one'] at same
        exact absurd same (by decide)
      | inr two' => rw [two, two']
  · intro b hi
    rw [hn] at hi
    by_cases names : b = 0x672
    · rw [names]
      exact ⟨_, path⟩
    · exact ⟨[], bucket_other large hi names⟩
  · intro i hpos hb l hc
    rw [bucketOf_names large] at hc
    rw [chain_unique hc path]
    cases index_cases large hpos hb with
    | inl one => simp [one]
    | inr two => simp [two]

end

section

variable {n : Word} (wraps : Wraps n)

include wraps

theorem collision_read : StringAt (collision n) 0x900000000004 [0x62, 0x52] ∧
    fetch (collision n) ((collisionAdded n).bucket + 4 * 0x672) 4 = 1 ∧
    ¬ (0 < fetch (collision n) ((collisionAdded n).chain + 4 * 1) 4 ∧
      fetch (collision n) ((collisionAdded n).chain + 4 * 1) 4 < (collisionAdded n).nchain) := by
  apply wraps.elim
  · decide +kernel
  · decide +kernel

/-- The walk reads `nchain` or a bucket where it should read the link to the second symbol, and stops. -/
theorem collision_missed {limit : Nat} (room : 3 ≤ limit) :
    privateGetSymByName (collision n) (collisionAdded n) limit 0x900000000004 = .ok none := by
  obtain ⟨hst, hb, hso⟩ := collision_read wraps
  have table := collision_table (.inr wraps)
  have hn := bucketOf_names (.inr wraps) 2
  rw [bucketOf, second_name] at hn
  have hi : (0 : Word) < 1 ∧ (1 : Word) < (collisionAdded n).nchain := by
    rw [(added_fields (.inr wraps)).2.2]
    decide
  have hs : [(0x62 : Byte), 0x52].length < limit := Nat.lt_of_lt_of_le (by decide) room
  rw [privateGetSymByName_walks table.present table.occupied hst (by decide) hs, hn, hb]
  obtain ⟨m, same⟩ : ∃ m, limit = m + 2 := ⟨limit - 2, by omega⟩
  have walk := chainFrom_stops hst hi (table.named 1 hi.1 hi.2) (by decide) hso hs m
  rw [← same] at walk
  exact walk

end

/-- For every number of buckets: in all added files with a well-formed hash table of that many buckets all look-ups are
complete, exactly if the index of the first chain is a 32-bit number. -/
theorem lookup_complete_iff (n : Word) (number : n.toNat < 2 ^ 32) :
    (∀ (memory : Bytes) (loader loader' : ElfLoader) (file : File) (added : BitVec 32)
      (oldVirt execAddr execVirt : Word) (ef : AddedFile) (names : Word → List Byte),
      bfelfLoaderAdd memory loader file added oldVirt execAddr execVirt = .ok loader' →
      loader'.efs = loader.efs ++ [ef] → ef.nbucket = n → Table memory ef names → Complete memory ef names) ↔
    n.toNat + 2 < 2 ^ 32 := by
  constructor
  · intro all
    by_contra large
    have wraps : Wraps n := by
      rw [Wraps]
      bv_omega
    have complete := all (collision n) {} { efs := [collisionAdded n] } collisionFile 0 0 0x1000 0 (collisionAdded n)
      collisionNames (collision_adds n) rfl (added_fields (.inr wraps)).2.1 (collision_table (.inr wraps))
    obtain ⟨m, finds⟩ := complete 0x900000000004 [0x62, 0x52] (collision_read wraps).1 (by decide) (by decide)
    have inside : (2 : Word) < (collisionAdded n).nchain := by
      rw [(added_fields (.inr wraps)).2.2]
      decide
    have found := (finds (m + 3) (by omega)).1 2 (by decide) inside second_name
    rw [collision_missed wraps (by omega)] at found
    cases found
  · intro small memory loader loader' file added oldVirt execAddr execVirt ef names adds last count table
    have place := placed_of_add adds last
    subst place
    exact complete table rfl (chain_of_small _ _ _ _ _ (count.symm ▸ small))

/-- The largest number of buckets that works. -/
theorem lookup_complete_boundary : ∃ limit, privateGetSymByName (collision 0xfffffffd) (collisionAdded 0xfffffffd) limit
    0x900000000004 = .ok (some (symbol (collisionAdded 0xfffffffd) 2)) := by
  have large : Large 0xfffffffd := .inl rfl
  have all := lookup_complete_iff 0xfffffffd (by decide)
  have complete := all.mpr (by decide) _ _ _ _ _ _ _ _ _ _ (collision_adds 0xfffffffd) rfl (added_fields large).2.1
    (collision_table large)
  have string : StringAt (collision 0xfffffffd) 0x900000000004 [0x62, 0x52] := by decide +kernel
  obtain ⟨m, finds⟩ := complete 0x900000000004 [0x62, 0x52] string (by decide) (by decide)
  have inside : (2 : Word) < (collisionAdded 0xfffffffd).nchain := by
    rw [(added_fields large).2.2]
    decide
  exact ⟨m, (finds m (Nat.le_refl m)).1 2 (by decide) inside second_name⟩

/-- With one bucket more, the second symbol of a chain is not found. -/
theorem second_symbol_missed : Table (collision 0xfffffffe) (collisionAdded 0xfffffffe) collisionNames ∧
    (2 : Word) < (collisionAdded 0xfffffffe).nchain ∧
    StringAt (collision 0xfffffffe) 0x900000000004 (collisionNames 2) ∧
    ∀ limit, 3 ≤ limit →
      privateGetSymByName (collision 0xfffffffe) (collisionAdded 0xfffffffe) limit 0x900000000004 = .ok none := by
  have wraps : Wraps 0xfffffffe := .inl rfl
  have inside : (2 : Word) < (collisionAdded 0xfffffffe).nchain := by
    rw [(added_fields (.inr wraps)).2.2]
    decide
  have string := (collision_read wraps).1
  rw [← second_name] at string
  exact ⟨collision_table (.inr wraps), inside, string, fun _ room => collision_missed wraps room⟩

end Gevisor.Verified.SymbolLookup
