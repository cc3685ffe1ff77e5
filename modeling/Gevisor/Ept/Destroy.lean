import Gevisor.Ept.Leaf

/-! # The destructor

`~mmap` gives back the tables below an entry, then the table of the entry, through the same pairs that
every walk uses. The tree of the map before the destructor, `m₀`, says what is to be given back: the
pages `Beneath` a path. What has not been given back yet still reads as in `m₀`.
-/

namespace Gevisor.Ept

open Gevisor.Lib

variable {mm : PagePool} {m₀ m m' : Mmap} {q : List (Fin 512)} {i j : Fin 512} {p c : Nat}

/-- Page `p` is a table of the tree below path `q`, the one at `q` included. -/
def Beneath (mm : PagePool) (m₀ : Mmap) (q : List (Fin 512)) (p : Nat) : Prop :=
  ∃ below, m₀.node mm (below ++ q) = some p

theorem beneath_iff : Beneath mm m₀ q p ↔ m₀.node mm q = some p ∨ ∃ i, Beneath mm m₀ (i :: q) p := by
  constructor
  · rintro ⟨hb, at_p⟩
    cases hb using List.reverseRecOn with
    | nil => exact .inl at_p
    | append_singleton hb i => exact .inr ⟨i, hb, by simpa using at_p⟩
  · rintro (at_p | ⟨i, hb, at_p⟩)
    · exact ⟨[], at_p⟩
    · exact ⟨hb ++ [i], by simpa using at_p⟩

section Disjoint

variable (coherent : Coherent mm m₀.live m₀)

include coherent

theorem Coherent.beneath_live (hbe : Beneath mm m₀ q p) : p ∈ m₀.live := by
  obtain ⟨hb, at_p⟩ := hbe
  exact (coherent.nodes p).mpr ⟨_, at_p⟩

/-- Different entries of a table have different tables below them. -/
theorem Coherent.beneath_index (first : Beneath mm m₀ (i :: q) p) (hs : Beneath mm m₀ (j :: q) p) : i = j := by
  obtain ⟨hb, at_p⟩ := first
  obtain ⟨hb', at_p'⟩ := hs
  have same := coherent.separated _ _ p at_p at_p'
  have ht := List.append_inj_right' same rfl
  injection ht

theorem Coherent.not_beneath_self (at_p : m₀.node mm q = some p) : ¬ Beneath mm m₀ (i :: q) p := by
  rintro ⟨hb, at_p'⟩
  have hl := congrArg List.length (coherent.separated _ _ p at_p at_p')
  simp only [List.length_append, List.length_cons] at hl
  omega

end Disjoint

/-- Nothing hangs below an entry that names no table. -/
theorem not_beneath_of_missing (hmis : m₀.node mm q = none) : ¬ Beneath mm m₀ q p := by
  have none (hb : List (Fin 512)) : m₀.node mm (hb ++ q) = none := by
    induction hb with
    | nil => exact hmis
    | cons i hb ih =>
      rw [List.cons_append, node_cons, slot_of_missing ih, if_neg (not_isTable_zero _)]
  rintro ⟨hb, at_p⟩
  rw [none hb] at at_p
  cases at_p

/-! ## What a part of the destructor does -/

/-- The pairs below the PML4 name pages by their own physical addresses. -/
def Remembers (mm : PagePool) (m : Mmap) : Prop :=
  ∀ l, l ≠ .pml4 → m.pairs l = ⟨none, 0⟩ ∨ ∃ p, mm.IsPage p ∧ m.pairs l = ⟨some p, mm.phys p⟩

/-- The tables below `q` have not been touched. -/
structure Intact (mm : PagePool) (m₀ : Mmap) (q : List (Fin 512)) (m : Mmap) : Prop where
  live : ∀ p, Beneath mm m₀ q p → p ∈ m.live
  word : ∀ p, Beneath mm m₀ q p → m.word p = m₀.word p
  nodup : m.live.Nodup
  remembers : Remembers mm m

/-- From `m` to `m'` the tables below `q` have been given back, each once, and nothing else has changed
but the pairs of their levels. -/
structure Cleared (mm : PagePool) (m₀ : Mmap) (q : List (Fin 512)) (m m' : Mmap) : Prop where
  live : ∀ p, p ∈ m'.live ↔ p ∈ m.live ∧ ¬ Beneath mm m₀ q p
  word : ∀ p, ¬ Beneath mm m₀ q p → m'.word p = m.word p
  nodup : m'.live.Nodup
  remembers : Remembers mm m'
  pairs : ∀ l : Level, l.depth < q.length → m'.pairs l = m.pairs l

/-- The same for one entry `i` of the table at `q`, page `p`, which may itself have been cleared. -/
structure EntryCleared (mm : PagePool) (m₀ : Mmap) (q : List (Fin 512)) (p : Nat) (i : Fin 512) (m m' : Mmap) :
    Prop where
  live : ∀ p', p' ∈ m'.live ↔ p' ∈ m.live ∧ ¬ Beneath mm m₀ (i :: q) p'
  word : ∀ p', p' ≠ p → ¬ Beneath mm m₀ (i :: q) p' → m'.word p' = m.word p'
  others : ∀ j, j ≠ i → m'.word p j = m.word p j
  nodup : m'.live.Nodup
  remembers : Remembers mm m'
  pairs : ∀ l : Level, l.depth ≤ q.length → m'.pairs l = m.pairs l

variable {l parent : Level} {t : Mmap} {clear : Fin 512 → MapM Unit}

theorem remembers_withPair (hr : Remembers mm m) {pair : Pair}
    (new : pair = ⟨none, 0⟩ ∨ ∃ p, mm.IsPage p ∧ pair = ⟨some p, mm.phys p⟩) :
    Remembers mm (m.withPair l pair) := by
  intro l' hl
  by_cases same : l' = l
  · rw [same, withPair_pairs_self]
    exact new
  · rw [withPair_pairs_of_ne same]
    exact hr l' hl

/-! ## The loop over the entries of a table -/

/-- The loop over the table at `q`, page `p`, started in `m`, is at entry `k`. -/
structure Sweeping (mm : PagePool) (m₀ : Mmap) (q : List (Fin 512)) (p : Nat) (m : Mmap) (k : Nat) (t : Mmap) :
    Prop where
  live : ∀ p', p' ∈ t.live ↔ p' ∈ m.live ∧ ∀ i : Fin 512, i < k → ¬ Beneath mm m₀ (i :: q) p'
  word : ∀ p', p' ≠ p → (∀ i : Fin 512, i < k → ¬ Beneath mm m₀ (i :: q) p') → t.word p' = m.word p'
  rest : ∀ i : Fin 512, k ≤ i → t.word p i = m.word p i
  nodup : t.live.Nodup
  remembers : Remembers mm t
  pairs : ∀ l : Level, l.depth ≤ q.length → t.pairs l = m.pairs l

theorem Sweeping.start (hn : m.live.Nodup) (hr : Remembers mm m) : Sweeping mm m₀ q p m 0 m where
  live p' := by simp
  word _ _ _ := rfl
  rest _ _ := rfl
  nodup := hn
  remembers := hr
  pairs _ _ := rfl

/-- What the loop has not reached is as it was. -/
theorem Sweeping.intact (hs : Sweeping mm m₀ q p m i t) (coherent : Coherent mm m₀.live m₀)
    (at_p : m₀.node mm q = some p) (hint : Intact mm m₀ (i :: q) m) : Intact mm m₀ (i :: q) t where
  live p' hb := by
    refine (hs.live p').mpr ⟨hint.live p' hb, fun j hea ho => ?_⟩
    rw [coherent.beneath_index ho hb] at hea
    exact absurd hea (Nat.lt_irrefl _)
  word p' hb := by
    rw [hs.word p', hint.word p' hb]
    · rintro rfl
      exact coherent.not_beneath_self at_p hb
    · intro j hea ho
      rw [coherent.beneath_index ho hb] at hea
      exact absurd hea (Nat.lt_irrefl _)
  nodup := hs.nodup
  remembers := hs.remembers

theorem Sweeping.next {t' : Mmap} (hs : Sweeping mm m₀ q p m i t)
    (hcr : EntryCleared mm m₀ q p i t t') : Sweeping mm m₀ q p m (i + 1) t' := by
  have split (p' : Nat) : (∀ j : Fin 512, j.val < i.val + 1 → ¬ Beneath mm m₀ (j :: q) p') ↔
      (∀ j : Fin 512, j.val < i.val → ¬ Beneath mm m₀ (j :: q) p') ∧ ¬ Beneath mm m₀ (i :: q) p' := by
    constructor
    · exact fun all => ⟨fun j less => all j (by omega), all i (by omega)⟩
    · rintro ⟨hea, here⟩ j less
      rcases Nat.lt_or_eq_of_le (Nat.le_of_lt_succ less) with less | same
      · exact hea j less
      · rw [Fin.ext same]
        exact here
  exact {
    live := fun p' => by rw [split, hcr.live, hs.live, and_assoc]
    word := fun p' ho all => by
      obtain ⟨hea, here⟩ := (split p').mp all
      rw [hcr.word p' ho here, hs.word p' ho hea]
    rest := fun j hla => by
      rw [hcr.others j fun same => by rw [same] at hla; omega, hs.rest j (by omega)]
    nodup := hcr.nodup
    remembers := hcr.remembers
    pairs := fun l hu => (hcr.pairs l hu).trans (hs.pairs l hu) }

/-- If the body clears one entry, the loop clears all of them. -/
theorem forEntries_spec {body : Fin 512 → MapM Unit} (coherent : Coherent mm m₀.live m₀)
    (hd : l.depth = q.length) (at_p : m₀.node mm q = some p)
    (hc : ∀ i t, (t.pairs l).virtAddr = some p → t.word p i = m₀.word p i → Intact mm m₀ (i :: q) t →
      ∃ t', body i t = .ok () t' ∧ EntryCleared mm m₀ q p i t t')
    (hcu : (m.pairs l).virtAddr = some p) (hint : Intact mm m₀ q m) :
    ∃ m', forEntries body m = .ok () m' ∧ Sweeping mm m₀ q p m 512 m' := by
  have loop : wp (forEntries body) (fun _ => Sweeping mm m₀ q p m 512) (fun _ _ => False) m := by
    refine wp_loop (Sweeping mm m₀ q p m) (.start hint.nodup hint.remembers) (fun k t hb hs => ?_)
      fun _ h => h
    obtain ⟨i, rfl⟩ : ∃ i : Fin 512, i.val = k := ⟨⟨k, hb⟩, rfl⟩
    have hi : Fin.ofNat 512 i = i := Fin.ext (Nat.mod_eq_of_lt hb)
    have here : Intact mm m₀ (i :: q) m := {
      live := fun p' hbe => hint.live p' (beneath_iff.mpr (.inr ⟨i, hbe⟩))
      word := fun p' hbe => hint.word p' (beneath_iff.mpr (.inr ⟨i, hbe⟩))
      nodup := hint.nodup
      remembers := hint.remembers }
    obtain ⟨t', hret, hcr⟩ := hc i t
      (by rw [hs.pairs l (Nat.le_of_eq hd), hcu])
      (by rw [hs.rest i (Nat.le_refl _), hint.word p (beneath_iff.mpr (.inl at_p))])
      (hs.intact coherent at_p here)
    rw [hi, wp_of_ok hret]
    exact hs.next hcr
  obtain ⟨_, m', hret, hsw⟩ := exists_of_wp loop
  exact ⟨m', hret, hsw⟩

/-! ## The clear functions -/

/-- `clear` gives back the tables below the entries of the table at `q`. -/
def Clears (mm : PagePool) (m₀ : Mmap) (parent : Level) (q : List (Fin 512)) (clear : Fin 512 → MapM Unit) :
    Prop :=
  ∀ i p t, m₀.node mm q = some p → (t.pairs parent).virtAddr = some p → t.word p i = m₀.word p i →
    IsTable q.length (m₀.word p i) → Intact mm m₀ (i :: q) t →
    ∃ t', clear i t = .ok () t' ∧ Cleared mm m₀ (i :: q) t t'

theorem freeTable_eq (hcu : (m.pairs l).virtAddr = some c) (hm : c ∈ m.live) :
    freeTable l m = .ok () (Mmap.withPair { m with live := m.live.erase c } l ⟨none, 0⟩) := by
  have hfre : free (some c) m = .ok () { m with live := m.live.erase c } := if_pos hm
  rw [freeTable, get_bind, hcu, bind_of_ok hfre]
  rfl

/-- The step down from an entry that has not been touched. -/
theorem mapTable_descend {child : Level} (hb : Below parent child) (coherent : Coherent mm m₀.live m₀)
    (at_p : m₀.node mm q = some p) (hcu : (m.pairs parent).virtAddr = some p)
    (word : m.word p i = m₀.word p i) (ht : IsTable q.length (m₀.word p i)) (hr : Remembers mm m) :
    ∃ c, m₀.node mm (i :: q) = some c ∧ mm.IsPage c ∧
      mapTable mm parent child i m = .ok () (m.withPair child ⟨some c, mm.phys c⟩) := by
  have slot := slot_of_node at_p i
  obtain ⟨c, at_c, page, phys⟩ := coherent.node_of_isTable (q := q) (i := i) (by rw [slot]; exact ht)
  rw [slot, ← word] at phys
  exact ⟨c, at_c, page, tableStep_follow hcu (by rw [word]; exact ht.1) page phys (hr child hb.child_ne_pml4)⟩

theorem clearPt_spec (coherent : Coherent mm m₀.live m₀) (hd : q.length = 2) :
    Clears mm m₀ .pd q (clearPt mm) := by
  intro i p t at_p hcu word ht hint
  obtain ⟨c, at_c, page, down⟩ := mapTable_descend .pt coherent at_p hcu word ht hint.remembers
  have only (p' : Nat) : Beneath mm m₀ (i :: q) p' ↔ p' = c := by
    rw [beneath_iff]
    constructor
    · rintro (at_p' | ⟨j, hb⟩)
      · exact Option.some.inj (at_p'.symm.trans at_c)
      · exact absurd hb (not_beneath_of_missing (node_deep (by simp [hd])))
    · rintro rfl
      exact .inl at_c
  have hm : c ∈ (t.withPair .pt ⟨some c, mm.phys c⟩).live := hint.live c ((only c).mpr rfl)
  have hg := freeTable_eq (m := t.withPair .pt ⟨some c, mm.phys c⟩) (l := .pt)
    (by rw [withPair_pairs_self]) hm
  refine ⟨_, by rw [clearPt, mapPt, bind_of_ok down]; exact hg, ?_⟩
  exact {
    live := fun p' => by
      rw [only]
      show p' ∈ t.live.erase c ↔ _
      rw [hint.nodup.mem_erase_iff, and_comm]
    word := fun p' _ => rfl
    nodup := hint.nodup.erase c
    remembers := remembers_withPair (remembers_withPair hint.remembers (.inr ⟨c, page, rfl⟩)) (.inl rfl)
    pairs := fun l hu => by
      have ho : l ≠ .pt := by
        rintro rfl
        simp [hd, Level.depth] at hu
      rw [withPair_pairs_of_ne ho]
      exact withPair_pairs_of_ne ho _ }

/-- An entry that names no table: there is nothing to give back. -/
theorem EntryCleared.of_missing (hmis : m₀.node mm (i :: q) = none) (hn : m.live.Nodup)
    (hr : Remembers mm m) : EntryCleared mm m₀ q p i m m where
  live p' := by simp [not_beneath_of_missing hmis]
  word _ _ _ := rfl
  others _ _ := rfl
  nodup := hn
  remembers := hr
  pairs _ _ := rfl

theorem Cleared.entry (coherent : Coherent mm m₀.live m₀) (at_p : m₀.node mm q = some p)
    (hcr : Cleared mm m₀ (i :: q) m m') : EntryCleared mm m₀ q p i m m' where
  live := hcr.live
  word p' _ := hcr.word p'
  others j _ := by rw [hcr.word p (coherent.not_beneath_self at_p)]
  nodup := hcr.nodup
  remembers := hcr.remembers
  pairs l hu := hcr.pairs l (by simp only [List.length_cons]; omega)

/-- The entry itself may be set to zero afterwards. -/
theorem EntryCleared.write (hcr : EntryCleared mm m₀ q p i m m') : EntryCleared mm m₀ q p i m (m'.write p i 0) where
  live := hcr.live
  word p' ho gone := (writeWord_page ho i 0).trans (hcr.word p' ho gone)
  others j ho := (writeWord_index ho p 0).trans (hcr.others j ho)
  nodup := hcr.nodup
  remembers := hcr.remembers
  pairs := hcr.pairs

theorem clearEntries_spec (coherent : Coherent mm m₀.live m₀)
    (hd : l.depth = q.length) (hi : 0 < q.length) (deep : q.length < 3) (at_p : m₀.node mm q = some p)
    (hc : Clears mm m₀ l q clear) (hcu : (m.pairs l).virtAddr = some p) (hint : Intact mm m₀ q m) :
    ∃ m', clearEntries l clear m = .ok () m' ∧ Sweeping mm m₀ q p m 512 m' := by
  refine forEntries_spec coherent hd at_p (fun i t hcu word hint => ?_) hcu hint
  rw [bind_of_ok (spanAt_eq hcu), bind_of_ok (deref_eq _ t)]
  have hmis (hn : ¬ IsTable q.length (t.word p i)) : m₀.node mm (i :: q) = none := by
    rw [node_cons, slot_of_node at_p, ← word, if_neg hn]
  by_cases zero : t.word p i = 0
  · rw [if_pos zero]
    exact ⟨t, rfl, .of_missing (hmis fun ht => ht.1 zero) hint.nodup hint.remembers⟩
  rw [if_neg zero]
  by_cases hl : (t.word p i).ps = true
  · rw [if_pos hl]
    have hcr : EntryCleared mm m₀ q p i t t := .of_missing (hmis (not_isTable_of_ps hi hl)) hint.nodup hint.remembers
    exact ⟨_, rfl, hcr.write⟩
  · have ht : IsTable q.length (m₀.word p i) := by
      rw [← word]
      exact isTable_of deep zero hl
    obtain ⟨t', hret, hcr⟩ := hc i p t at_p hcu word ht hint
    rw [if_neg hl, bind_of_ok hret]
    exact ⟨_, rfl, (hcr.entry coherent at_p).write⟩

/-- One level up: below the entries the tables go, then the table itself. -/
theorem clearTable_spec (hb : Below parent l)
    (coherent : Coherent mm m₀.live m₀) (hd : parent.depth = q.length) (deep : l.depth < 3)
    (hcl : ∀ i, Clears mm m₀ l (i :: q) clear) :
    Clears mm m₀ parent q (fun i => do
      mapTable mm parent l i
      clearEntries l clear
      freeTable l) := by
  have hc : l.depth = parent.depth + 1 := by cases hb <;> rfl
  intro i p t at_p hcu word ht hint
  obtain ⟨c, at_c, page, down⟩ := mapTable_descend hb coherent at_p hcu word ht hint.remembers
  have hint₁ : Intact mm m₀ (i :: q) (t.withPair l ⟨some c, mm.phys c⟩) := {
    live := hint.live
    word := hint.word
    nodup := hint.nodup
    remembers := remembers_withPair hint.remembers (.inr ⟨c, page, rfl⟩) }
  have hl : l.depth = (i :: q).length := by rw [List.length_cons, hc, hd]
  obtain ⟨t₂, hlo, hs⟩ := clearEntries_spec coherent hl (by simp) (by rw [← hl]; exact deep) at_c
    (hcl i) (by rw [withPair_pairs_self]) hint₁
  have hcu₂ : (t₂.pairs l).virtAddr = some c := by
    rw [hs.pairs l (Nat.le_of_eq hl), withPair_pairs_self]
  have hm : c ∈ t₂.live := (hs.live c).mpr
    ⟨hint₁.live c (beneath_iff.mpr (.inl at_c)), fun j _ => coherent.not_beneath_self at_c⟩
  have hp : (do
      mapTable mm parent l i
      clearEntries l clear
      freeTable l : MapM Unit) t = .ok () (Mmap.withPair { t₂ with live := t₂.live.erase c } l ⟨none, 0⟩) := by
    rw [bind_of_ok down, bind_of_ok hlo, freeTable_eq hcu₂ hm]
  refine ⟨_, hp, ?_⟩
  have all (p' : Nat) : Beneath mm m₀ (i :: q) p' ↔ p' = c ∨ ∃ j, Beneath mm m₀ (j :: i :: q) p' := by
    rw [beneath_iff, at_c]
    simp only [Option.some.injEq, eq_comm]
  exact {
    live := fun p' => by
      show p' ∈ t₂.live.erase c ↔ _
      rw [hs.nodup.mem_erase_iff, hs.live, all]
      show p' ≠ c ∧ p' ∈ t.live ∧ _ ↔ _
      simp only [not_or, not_exists, Fin.is_lt, true_imp_iff]
      tauto
    word := fun p' hout => by
      rw [all, not_or, not_exists] at hout
      exact hs.word p' hout.1 fun j _ => hout.2 j
    nodup := hs.nodup.erase c
    remembers := remembers_withPair hs.remembers (.inl rfl)
    pairs := fun l' hu => by
      have ho : l' ≠ l := by
        rintro rfl
        rw [← hl] at hu
        exact Nat.lt_irrefl _ hu
      rw [withPair_pairs_of_ne ho]
      exact (hs.pairs l' (Nat.le_of_lt hu)).trans (withPair_pairs_of_ne ho _) }

theorem clearPd_spec (coherent : Coherent mm m₀.live m₀) (hd : q.length = 1) : Clears mm m₀ .pdpt q (clearPd mm) :=
  clearTable_spec .pd coherent hd.symm (by decide) fun i => clearPt_spec coherent (by simp [hd])

theorem clearPdpt_spec (coherent : Coherent mm m₀.live m₀) : Clears mm m₀ .pml4 [] (clearPdpt mm) :=
  clearTable_spec .pdpt coherent rfl (by decide) fun i => clearPd_spec coherent rfl

/-- The destructor returns, and it has given back every page of the map. -/
theorem destroy_spec (coherent : Coherent mm m.live m) :
    ∃ m', destroy mm m = .ok () m' ∧ m'.live = [] := by
  have hint : Intact mm m [] m := {
    live := fun p hb => coherent.beneath_live hb
    word := fun _ _ => rfl
    nodup := coherent.nodup
    remembers := coherent.cached }
  have hsw : ∃ t, forEntries (fun pml4i => do
      let ref ← spanAt .pml4 pml4i
      let e ← deref ref
      if e = 0 then pure () else clearPdpt mm pml4i) m = .ok () t ∧ Sweeping mm m [] m.root m 512 t := by
    refine forEntries_spec (l := .pml4) coherent rfl rfl (fun i t hcu word hint => ?_) coherent.root hint
    rw [bind_of_ok (spanAt_eq hcu), bind_of_ok (deref_eq _ t)]
    by_cases zero : t.word m.root i = 0
    · have slot : m.slot mm [] i = 0 := (slot_of_node rfl i).trans (word.symm.trans zero)
      have hmis : m.node mm [i] = none := by rw [node_cons, slot, if_neg (not_isTable_zero _)]
      rw [if_pos zero]
      exact ⟨t, rfl, .of_missing hmis hint.nodup hint.remembers⟩
    · have ht : IsTable 0 (m.word m.root i) := ⟨by rw [← word]; exact zero, by decide, .inl rfl⟩
      obtain ⟨t', hret, hcr⟩ := clearPdpt_spec coherent i m.root t rfl hcu word ht hint
      rw [if_neg zero]
      exact ⟨t', hret, hcr.entry coherent rfl⟩
  obtain ⟨t, hl, hs⟩ := hsw
  have hcu : (t.pairs .pml4).virtAddr = some m.root := by
    rw [hs.pairs .pml4 (Nat.le_refl 0)]
    exact coherent.root
  have hm : m.root ∈ t.live := (hs.live m.root).mpr
    ⟨(coherent.nodes m.root).mpr ⟨[], rfl⟩, fun j _ => coherent.not_beneath_self rfl⟩
  have hfre : free (some m.root) t = .ok () { t with live := t.live.erase m.root } := if_pos hm
  refine ⟨_, by rw [destroy, bind_of_ok hl, get_bind, hcu]; exact hfre, ?_⟩
  -- Every page of the map is the root or lies beneath one of its entries.
  refine List.eq_nil_iff_forall_not_mem.mpr fun p left => ?_
  obtain ⟨ho, hi⟩ := hs.nodup.mem_erase_iff.mp left
  obtain ⟨hm, hout⟩ := (hs.live p).mp hi
  obtain ⟨q, at_q⟩ := (coherent.nodes p).mp hm
  have hb : Beneath mm m [] p := ⟨q, by rw [List.append_nil]; exact at_q⟩
  rcases beneath_iff.mp hb with root | ⟨i, hbe⟩
  · exact ho (Option.some.inj root).symm
  · exact hout i i.isLt hbe

end Gevisor.Ept
