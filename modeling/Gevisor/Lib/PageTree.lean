import Mathlib.Algebra.CharZero.Defs
import Mathlib.Data.BitVec
import Mathlib.Algebra.BigOperators.Fin
import Mathlib.Data.Fintype.BigOperators
import Mathlib.Data.List.Nodup

/-! # Radix trees stored in pages

A page is an array of words indexed by `ι`, and some words name further pages. A node of the tree is
addressed by the indices that lead to it, deepest index first, so that the parent of `i :: q` is `q`.
The only mutation is the replacement of one word. `Attaches` lists the replacements that keep every
word of the tree but one: those that do not change the child the word names, and those that unlink a
blank child or link a blank page from outside the tree.
-/

namespace Gevisor.Lib

variable {P ι W : Type}

section Words

variable [DecidableEq P] [DecidableEq ι]

/-- The contents of all pages after word `i` of page `p` has been replaced by `w`. -/
def writeWord (rd : P → ι → W) (p : P) (i : ι) (w : W) : P → ι → W :=
  Function.update rd p (Function.update (rd p) i w)

variable (rd : P → ι → W) (p : P) (i : ι)

@[simp] theorem writeWord_same (w : W) : writeWord rd p i w p i = w := by
  simp [writeWord]

theorem writeWord_self : writeWord rd p i (rd p i) = rd := by
  simp [writeWord]

theorem writeWord_page {rd : P → ι → W} {p p' : P} (ho : p' ≠ p) (i : ι) (w : W) :
    writeWord rd p i w p' = rd p' := by
  simp [writeWord, ho]

theorem writeWord_index {rd : P → ι → W} {i i' : ι} (ho : i' ≠ i) (p : P) (w : W) :
    writeWord rd p i w p i' = rd p i' := by
  simp [writeWord, ho]

end Words

/-- How a tree is read off pages: its root, and the page that a word of a page at depth `d` names. -/
structure PageTree (P W : Type) [Zero W] where
  root : P
  next : Nat → W → Option P
  next_zero : ∀ d, next d 0 = none

/-- Every word of the page is zero. -/
def Blank [Zero W] (rd : P → ι → W) (p : P) : Prop :=
  ∀ i, rd p i = 0

namespace PageTree

variable [Zero W] (t : PageTree P W) (rd : P → ι → W)

/-- The page at the end of a path. -/
def node : List ι → Option P
  | [] => some t.root
  | i :: q => (node q).bind fun p => t.next q.length (rd p i)

/-- Word `i` of the page at `q`; zero where there is no page. -/
def slot (q : List ι) (i : ι) : W :=
  match t.node rd q with
  | some p => rd p i
  | none => 0

/-- No page is reached by two paths. -/
def Separated : Prop :=
  ∀ q q' p, t.node rd q = some p → t.node rd q' = some p → q = q'

variable {t rd}

variable {q : List ι} {rd' : P → ι → W}

theorem slot_of_node {p : P} (at_q : t.node rd q = some p) (i : ι) : t.slot rd q i = rd p i := by
  simp only [slot, at_q]

theorem slot_of_missing (hmis : t.node rd q = none) (i : ι) : t.slot rd q i = 0 := by
  simp only [slot, hmis]

theorem node_cons (q : List ι) (i : ι) : t.node rd (i :: q) = t.next q.length (t.slot rd q i) := by
  cases hp : t.node rd q with
  | none => simp [node, hp, slot_of_missing, t.next_zero]
  | some p => simp [node, hp, slot_of_node]

/-- Pages outside the tree may change without changing the tree. -/
theorem node_congr (same : ∀ q p, t.node rd q = some p → rd' p = rd p) (q : List ι) :
    t.node rd' q = t.node rd q := by
  induction q with
  | nil => rfl
  | cons i q ih =>
    rw [node, node, ih]
    cases at_q : t.node rd q with
    | none => rfl
    | some p => simp only [Option.bind_some, same q p at_q]

theorem slot_congr (same : ∀ q p, t.node rd q = some p → rd' p = rd p) (q : List ι)
    (i : ι) : t.slot rd' q i = t.slot rd q i := by
  rw [slot, slot, node_congr same q]
  cases at_q : t.node rd q with
  | none => rfl
  | some p => simp only [same q p at_q]

/-- A tree of depth `d` that lacks one of its possible nodes has fewer pages than nodes are possible. -/
theorem length_lt_of_missing [Fintype ι] {d : Nat} {pages : List P}
    (deep : ∀ q, d < q.length → t.node rd q = none) (hn : pages.Nodup)
    (hrc : ∀ p ∈ pages, ∃ q, t.node rd q = some p) (hsh : q.length ≤ d)
    (hmis : t.node rd q = none) :
    pages.length < ∑ k : Fin (d + 1), Fintype.card ι ^ (k : Nat) := by
  classical
  -- Each page is sent to a path that leads to it; `q` is no such path.
  choose path path_spec using hrc
  have hb : ∀ p hm, (path p hm).length < d + 1 := by
    intro p hm
    by_contra long
    have hab := deep (path p hm) (by omega)
    rw [path_spec p hm] at hab
    cases hab
  let place : Fin pages.length → Σ k : Fin (d + 1), List.Vector ι k := fun n =>
    ⟨⟨(path pages[n] (List.getElem_mem n.isLt)).length, hb _ _⟩, ⟨path pages[n] _, rfl⟩⟩
  have place_list : ∀ n, (place n).2.toList = path pages[n] (List.getElem_mem n.isLt) := fun _ => rfl
  have hi : Function.Injective place := by
    intro n n' same
    have hl : (place n).2.toList = (place n').2.toList := by rw [same]
    rw [place_list, place_list] at hl
    have page := path_spec pages[n] (List.getElem_mem n.isLt)
    rw [hl, path_spec] at page
    exact Fin.ext ((hn.getElem_inj_iff).mp (Option.some.inj page.symm))
  have hno : ¬ Function.Surjective place := by
    intro hs
    obtain ⟨n, hits⟩ := hs ⟨⟨q.length, by omega⟩, ⟨q, rfl⟩⟩
    have hl : (place n).2.toList = q := by rw [hits]; rfl
    rw [place_list] at hl
    have page := path_spec pages[n] (List.getElem_mem n.isLt)
    rw [hl, hmis] at page
    cases page
  have hf := Fintype.card_lt_of_injective_not_surjective place hi hno
  simpa [Fintype.card_sigma, card_vector] using hf

/-- The replacement of word `i` of the page at `q` by `w` leaves the other words of the tree alone. -/
def Attaches (t : PageTree P W) (rd : P → ι → W) (q : List ι) (i : ι) (w : W) : Prop :=
  t.next q.length w = t.next q.length (t.slot rd q i) ∨
    (∀ p, t.next q.length (t.slot rd q i) = some p → Blank rd p) ∧
      ∀ p, t.next q.length w = some p → Blank rd p ∧ ∀ q', t.node rd q' ≠ some p

section Write

variable [DecidableEq P] [DecidableEq ι] {q₀ : List ι} {i₀ : ι} {p₀ : P} {w : W}

/-- The page that the written word names afterwards is not the written page, and reading below it
gives what was read there before. -/
private theorem child_read (hs : t.Separated rd) (at_q₀ : t.node rd q₀ = some p₀)
    (hat : t.Attaches rd q₀ i₀ w) (i : ι) :
    ((t.next q₀.length w).elim 0 fun p => writeWord rd p₀ i₀ w p i) = t.slot rd (i₀ :: q₀) i := by
  have hc : t.node rd (i₀ :: q₀) = t.next q₀.length (t.slot rd q₀ i₀) := node_cons q₀ i₀
  rcases hat with same | ⟨ho, hn⟩
  · rw [← same] at hc
    cases hna : t.next q₀.length w with
    | none => rw [slot_of_missing (hc.trans hna)]; rfl
    | some p =>
      have at_child := hc.trans hna
      have hd : p ≠ p₀ := by
        rintro rfl
        simpa using congrArg List.length (hs _ _ _ at_child at_q₀)
      rw [slot_of_node at_child, Option.elim_some, writeWord_page hd]
  · have zero : t.slot rd (i₀ :: q₀) i = 0 := by
      cases hna : t.next q₀.length (t.slot rd q₀ i₀) with
      | none => exact slot_of_missing (hc.trans hna) i
      | some p => rw [slot_of_node (hc.trans hna), ho p hna i]
    rw [zero]
    cases hna : t.next q₀.length w with
    | none => rfl
    | some p =>
      obtain ⟨hbl, hout⟩ := hn p hna
      have hd : p ≠ p₀ := by
        rintro rfl
        exact hout q₀ at_q₀
      rw [Option.elim_some, writeWord_page hd, hbl i]

/-- Only the node below the written word can change, and it becomes the page the new word names. -/
theorem node_write (hs : t.Separated rd) (at_q₀ : t.node rd q₀ = some p₀) (hat : t.Attaches rd q₀ i₀ w)
    (q : List ι) :
    t.node (writeWord rd p₀ i₀ w) q = if q = i₀ :: q₀ then t.next q₀.length w else t.node rd q := by
  induction q with
  | nil => simp [node]
  | cons i q ih =>
    rw [node, ih]
    by_cases hb : q = i₀ :: q₀
    · -- `q` is the changed node: its words are those that were read below the path before.
      have read := child_read hs at_q₀ hat i
      have hl : i :: q ≠ i₀ :: q₀ := fun same => by
        simpa [hb] using congrArg List.length same
      rw [if_pos hb, if_neg hl, node_cons, hb, ← read]
      cases t.next q₀.length w with
      | none => exact (t.next_zero _).symm
      | some p => rfl
    · rw [if_neg hb]
      cases at_q : t.node rd q with
      | none =>
        have ho : i :: q ≠ i₀ :: q₀ := by
          rintro same
          obtain ⟨rfl, rfl⟩ := List.cons.inj same
          simp [at_q₀] at at_q
        rw [if_neg ho, node, at_q]
        rfl
      | some p =>
        by_cases same : i :: q = i₀ :: q₀
        · obtain ⟨rfl, rfl⟩ := List.cons.inj same
          obtain rfl : p = p₀ := by simpa [at_q₀] using at_q.symm
          simp
        · rw [if_neg same, node, at_q]
          by_cases page : p = p₀
          · obtain rfl : q = q₀ := hs q q₀ p at_q (page ▸ at_q₀)
            have hi : i ≠ i₀ := fun h => same (by rw [h])
            simp [page, writeWord_index hi]
          · simp [writeWord_page page]

theorem slot_write (hs : t.Separated rd) (at_q₀ : t.node rd q₀ = some p₀)
    (hat : t.Attaches rd q₀ i₀ w) (q : List ι) (i : ι) :
    t.slot (writeWord rd p₀ i₀ w) q i = if q = q₀ ∧ i = i₀ then w else t.slot rd q i := by
  have node' := node_write hs at_q₀ hat q
  by_cases hb : q = i₀ :: q₀
  · have hl : q ≠ q₀ := fun same => by simpa [same] using congrArg List.length hb
    rw [if_pos hb] at node'
    rw [if_neg fun h => hl h.1, hb, ← child_read hs at_q₀ hat i, slot, ← hb, node']
    cases t.next q₀.length w <;> rfl
  · rw [if_neg hb] at node'
    cases at_q : t.node rd q with
    | none =>
      have ho : q ≠ q₀ := by
        rintro rfl
        simp [at_q₀] at at_q
      rw [if_neg fun h => ho h.1, slot_of_missing (node'.trans at_q), slot_of_missing at_q]
    | some p =>
      rw [slot_of_node (node'.trans at_q), slot_of_node at_q]
      by_cases page : p = p₀
      · obtain rfl : q = q₀ := hs q q₀ p at_q (page ▸ at_q₀)
        by_cases hi : i = i₀
        · simp [page, hi]
        · simp [page, hi, writeWord_index hi]
      · have ho : q ≠ q₀ := by
          rintro rfl
          exact page (by simpa [at_q₀] using at_q.symm)
        rw [writeWord_page page, if_neg fun h => ho h.1]

theorem separated_write (hs : t.Separated rd) (at_q₀ : t.node rd q₀ = some p₀)
    (hat : t.Attaches rd q₀ i₀ w) : t.Separated (writeWord rd p₀ i₀ w) := by
  intro q q' p at_q at_q'
  rw [node_write hs at_q₀ hat] at at_q at_q'
  rcases hat with same | ⟨-, hn⟩
  · rw [same, ← node_cons] at at_q at_q'
    refine hs q q' p ?_ ?_
    · split at at_q
      · simp [*]
      · exact at_q
    · split at at_q'
      · simp [*]
      · exact at_q'
  · split at at_q <;> split at at_q'
    · simp [*]
    · exact absurd at_q' ((hn p at_q).2 q')
    · exact absurd at_q ((hn p at_q').2 q)
    · exact hs q q' p at_q at_q'

end Write

end PageTree

end Gevisor.Lib
