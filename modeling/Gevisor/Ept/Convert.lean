import Gevisor.Ept.Refinement

/-! # Converting 4K pages to a 2M page

The conversion releases 512 pages one after another. Which table pages it gives back on the way depends
on what else is mapped; on the partial function it only replaces the leaf of the 2M frame.
-/

namespace Gevisor.Ept

open Gevisor.Lib

namespace AddrMap

def release (A : AddrMap) (virt : Nat) : AddrMap :=
  match A virt with
  | some leaf => A.set leaf.level virt none
  | none => A

/-- `identity_map_convert_4k_to_2m` with its default attribute and memory type. At the very top of the
address space the end address wraps to zero, nothing is released, and mapping finds the entry in use. -/
def convert4kTo2m (addr : Nat) : EStateM Err AddrMap Unit := do
  if lower addr Level.pd.fromBit ≠ 0 then throw failFast
  else
    let leaf ← lookup "from" addr
    if leaf.level ≠ .pt then throw failFast
    else if addr + pageSize2m < 2 ^ 64 then
      modify fun A => A.set .pd addr (asLeaf .pd (leafEntry addr .readWriteExecute .writeBack true))
    else throw (.exn "map_pde: map failed")

end AddrMap

variable {mm : PagePool} {m m' : Mmap} {virt addr : Nat} {A : AddrMap}

theorem leafAt_congr {a v : Nat} (same : SameLeaf .pt a v) : leafAt mm m a = leafAt mm m v := by
  obtain ⟨path₁, hi₁⟩ := (sameLeaf_iff .pdpt a v).mp (same.upper (by decide))
  obtain ⟨path₂, hi₂⟩ := (sameLeaf_iff .pd a v).mp (same.upper (by decide))
  obtain ⟨path₃, hi₃⟩ := (sameLeaf_iff .pt a v).mp same
  simp only [leafAt, leafOf, path₁, hi₁, path₂, hi₂, path₃, hi₃]

theorem Freed.leafAt_eq (hfre : Freed mm virt m m') : leafAt mm m' = (leafAt mm m).release virt := by
  have off : ∀ q i, ¬ OnPath virt q i → m'.view mm q i = m.view mm q i := fun q i off =>
    view_congr (hfre.frame q i off)
  rw [AddrMap.release]
  cases hf : leafAt mm m virt with
  | none =>
    -- Nothing mapped `virt`, so the words on its way showed nothing before and show nothing now.
    have same : ∀ q i, m'.view mm q i = m.view mm q i := by
      intro q i
      by_cases on : OnPath virt q i
      · obtain ⟨l, rfl, rfl⟩ := on
        rw [hfre.cleared l, leafAt_none hf l]
      · exact off q i on
    funext a
    simp only [leafAt, leafOf, same]
  | some leaf =>
    obtain ⟨l, w⟩ := leaf
    obtain ⟨inner, hp, view, upper⟩ := leafAt_some hf
    obtain ⟨word, old⟩ := slot_of_view view hp
    rw [length_pathTo] at old
    have lower : ∀ (l' : Level) a, l.depth < l'.depth → SameLeaf l a virt →
        m.view mm (pathTo l' a) (l'.index a) = 0 := by
      intro l' a hde same
      obtain ⟨path, index⟩ := (sameLeaf_iff l a virt).mp same
      refine view_of_slot_zero (slot_deeper hde ?_ _)
      rw [path, index, word]
      exact old
    refine leafOf_update inner (w := 0) ?_ upper fun _ => lower
    intro q i
    by_cases here : q = pathTo l virt ∧ i = l.index virt
    · rw [if_pos here, here.1, here.2, hfre.cleared l]
    · rw [if_neg here]
      by_cases on : OnPath virt q i
      · obtain ⟨l', rfl, rfl⟩ := on
        rw [hfre.cleared l']
        rcases Nat.lt_trichotomy l'.depth l.depth with less | equal | more
        · exact (upper l' less).symm
        · exact absurd ⟨by rw [Level.depth_injective equal], by rw [Level.depth_injective equal]⟩ here
        · exact (lower l' virt more (.refl l virt)).symm
      · exact off q i on

/-- The leaves of the first `k` pages of `addr`'s 2M frame are gone. -/
def AddrMap.cleared (A : AddrMap) (addr k : Nat) : AddrMap := fun a =>
  if SameLeaf .pd a addr ∧ a % 2 ^ 21 / 2 ^ 12 < k then none else A a

/-- No page of the frame is part of a larger one. -/
def Small (A : AddrMap) (addr : Nat) : Prop :=
  ∀ a leaf, SameLeaf .pd a addr → A a = some leaf → leaf.level = .pt

theorem small_of_leafAt {w : Entry} (hf : leafAt mm m addr = some ⟨.pt, w⟩) : Small (leafAt mm m) addr := by
  intro a leaf same hf'
  obtain ⟨l, w'⟩ := leaf
  obtain ⟨-, -, -, hu⟩ := leafAt_some hf
  obtain ⟨hin, hp, view, -⟩ := leafAt_some hf'
  by_contra hl
  have habv : l.depth < Level.pt.depth := by cases l <;> simp_all [Level.depth]
  have hw : l.depth ≤ Level.pd.depth := by
    simp only [Level.depth] at habv ⊢
    omega
  obtain ⟨path, hi⟩ := (sameLeaf_iff l a addr).mp (same.upper hw)
  rw [path, hi, hu l habv] at view
  exact hp view.symm

theorem release_cleared (aligned : addr % 2 ^ 21 = 0) (small : Small A addr)
    (pages : ∀ a v, SameLeaf .pt a v → A a = A v) {k : Nat} (inside : k < 512) :
    (A.cleared addr k).release (addr + k * 2 ^ 12) = A.cleared addr (k + 1) := by
  have frame : SameLeaf .pd (addr + k * 2 ^ 12) addr := by
    simp only [SameLeaf, Level.fromBit]
    omega
  have number : (addr + k * 2 ^ 12) % 2 ^ 21 / 2 ^ 12 = k := by omega
  have split (a : Nat) : SameLeaf .pt a (addr + k * 2 ^ 12) ↔ SameLeaf .pd a addr ∧ a % 2 ^ 21 / 2 ^ 12 = k := by
    simp only [SameLeaf, Level.fromBit]
    omega
  have here : A.cleared addr k (addr + k * 2 ^ 12) = A (addr + k * 2 ^ 12) := if_neg fun h => absurd h.2 (by omega)
  funext a
  have grows : (SameLeaf .pd a addr ∧ a % 2 ^ 21 / 2 ^ 12 < k + 1) ↔
      (SameLeaf .pd a addr ∧ a % 2 ^ 21 / 2 ^ 12 < k) ∨ SameLeaf .pt a (addr + k * 2 ^ 12) := by
    rw [split]
    constructor
    · rintro ⟨same, less⟩
      rcases Nat.lt_or_eq_of_le (Nat.le_of_lt_succ less) with less | equal
      · exact .inl ⟨same, less⟩
      · exact .inr ⟨same, equal⟩
    · rintro (⟨same, less⟩ | ⟨same, equal⟩)
      · exact ⟨same, by omega⟩
      · exact ⟨same, by omega⟩
  rw [AddrMap.release, here]
  cases found : A (addr + k * 2 ^ 12) with
  | none =>
    simp only [AddrMap.cleared, grows]
    by_cases page : SameLeaf .pt a (addr + k * 2 ^ 12)
    · simp only [page, or_true, pages a _ page, found, ite_self]
    · simp only [page, or_false]
  | some leaf =>
    have level := small _ leaf frame found
    simp only [level, AddrMap.set, AddrMap.cleared, grows]
    by_cases page : SameLeaf .pt a (addr + k * 2 ^ 12)
    · rw [if_pos page, if_pos (.inr page)]
    · simp only [page, if_false, or_false]

/-- After `k` releases the map is `A` without the first `k` pages, and the page table of the frame is
not left standing empty. -/
structure Releasing (mm : PagePool) (A : AddrMap) (addr k : Nat) (m : Mmap) : Prop where
  refines : Refines mm m (A.cleared addr k)
  tidy : 0 < k → m.slot mm (pathTo .pd addr) (Level.pd.index addr) = 0 ∨
    ∃ i, m.slot mm (pathTo .pt addr) i ≠ 0

section

variable (hal : addr % 2 ^ 21 = 0)

include hal

theorem release_step (hs : Small A addr) (hp : ∀ a v, SameLeaf .pt a v → A a = A v) {k : Nat} (hi : k < 512)
    (hr : Releasing mm A addr k m) :
    ∃ m', release mm (addr + k * pageSize4k) m = .ok () m' ∧ Releasing mm A addr (k + 1) m' := by
  obtain ⟨m', hret, hfre⟩ := release_spec (addr + k * pageSize4k) hr.refines.1
  have hf : SameLeaf .pd (addr + k * pageSize4k) addr := by
    simp only [SameLeaf, Level.fromBit, pageSize4k]
    omega
  obtain ⟨path, hin⟩ := (sameLeaf_iff .pd _ addr).mp hf
  have ht : pathTo .pt (addr + k * pageSize4k) = pathTo .pt addr := by
    rw [Below.pt.pathTo_eq, Below.pt.pathTo_eq, path, hin]
  refine ⟨m', hret, ⟨hfre.coherent, ?_⟩, fun _ => ?_⟩
  · rw [hfre.leafAt_eq, hr.refines.2]
    exact release_cleared hal hs hp hi
  · have tidy := hfre.tidy .pt (by decide)
    rwa [path, hin, ht] at tidy

theorem release_frame (hs : Small A addr) (hp : ∀ a v, SameLeaf .pt a v → A a = A v) (href : Refines mm m A) :
    ∃ m', forFrom (fun k => release mm (addr + k * pageSize4k)) 0 512 m = .ok () m' ∧ Releasing mm A addr 512 m' := by
  have hst : Releasing mm A addr 0 m := by
    refine ⟨⟨href.1, ?_⟩, fun less => absurd less (by decide)⟩
    rw [href.2]
    funext a
    exact (if_neg fun h => absurd h.2 (by omega)).symm
  have loop : wp (forFrom (fun k => release mm (addr + k * pageSize4k)) 0 512)
      (fun _ => Releasing mm A addr 512) (fun _ _ => False) m := by
    refine wp_loop (Releasing mm A addr) hst (fun k t hb inv => ?_) fun _ h => h
    obtain ⟨m', hret, next⟩ := release_step hal hs hp hb inv
    rw [wp_of_ok hret]
    exact next
  obtain ⟨_, m', hret, hrl⟩ := exists_of_wp loop
  exact ⟨m', hret, hrl⟩

/-- When every page of the frame has been released, its page directory entry is zero. -/
theorem pde_zero_of_released (hrl : Releasing mm A addr 512 m) :
    m.slot mm (pathTo .pd addr) (Level.pd.index addr) = 0 := by
  rcases hrl.tidy (by decide) with zero | ⟨i, hp⟩
  · exact zero
  · -- Word `i` of the page table belongs to page `i` of the frame, which is not mapped.
    exfalso
    have hbo := i.isLt
    have hf : SameLeaf .pd (addr + i * 2 ^ 12) addr := by
      simp only [SameLeaf, Level.fromBit]
      omega
    obtain ⟨path, hi⟩ := (sameLeaf_iff .pd _ addr).mp hf
    have ht : pathTo .pt (addr + i * 2 ^ 12) = pathTo .pt addr := by
      rw [Below.pt.pathTo_eq, Below.pt.pathTo_eq, path, hi]
    have word : Level.pt.index (addr + i * 2 ^ 12) = i := by
      apply Fin.ext
      show (addr + i * 2 ^ 12) / 2 ^ 12 % 512 = i
      omega
    have hab : leafAt mm m (addr + i * 2 ^ 12) = none := by
      rw [hrl.refines.2]
      exact if_pos ⟨hf, by omega⟩
    have view := leafAt_none hab .pt
    rw [view_pt _ (length_pathTo .pt _), ht, word] at view
    exact hp view

/-- The body of the conversion, once the two checks have passed. -/
theorem convert_body {w : Entry} (href : Refines mm m A) (hf : A addr = some ⟨.pt, w⟩) :
    Agree SameErr (Refines mm) ((do
        identityRelease4k mm addr ((addr + pageSize2m) % 2 ^ 64)
        let _ ← map2m mm addr addr .readWriteExecute .writeBack
        pure () : MapM Unit) m)
      ((if addr + pageSize2m < 2 ^ 64 then
          modify fun A => A.set .pd addr (asLeaf .pd (leafEntry addr .readWriteExecute .writeBack true))
        else throw (.exn "map_pde: map failed") : EStateM Err AddrMap Unit) A) := by
  obtain ⟨hc, rfl⟩ := href
  obtain ⟨-, hp, view, hu⟩ := leafAt_some hf
  have hal₁ : ¬ lower addr Level.pt.fromBit ≠ 0 := by
    simp only [lower, Level.fromBit]
    omega
  have hal₂ : ¬ lower ((addr + pageSize2m) % 2 ^ 64) Level.pt.fromBit ≠ 0 := by
    simp only [lower, Level.fromBit, pageSize2m]
    omega
  rw [identityRelease4k, if_neg hal₁, if_neg hal₂]
  by_cases fits : addr + pageSize2m < 2 ^ 64
  · have hco : ((addr + pageSize2m) % 2 ^ 64 - addr) / pageSize4k = 512 := by
      simp only [pageSize2m, pageSize4k] at fits ⊢
      omega
    obtain ⟨m₁, hret₁, hrl⟩ := release_frame hal (small_of_leafAt hf) (fun a v same => leafAt_congr same) ⟨hc, rfl⟩
    have gone : leafAt mm m₁ addr = none := by
      rw [hrl.refines.2]
      exact if_pos ⟨.refl .pd addr, by omega⟩
    obtain ⟨r, m₂, hret₂, hrch⟩ := map2m_spec addr .readWriteExecute .writeBack
      hrl.refines.1 (leafAt_none gone .pdpt) (pde_zero_of_released hal hrl)
    rw [if_pos fits, hco, bind_of_ok hret₁, bind_of_ok hret₂]
    refine .ok () ⟨hrch.refines.1, ?_⟩
    rw [hrch.refines.2, hrl.refines.2]
    funext a
    by_cases same : SameLeaf .pd a addr
    · exact (AddrMap.set_same same _ _).trans (AddrMap.set_same same _ _).symm
    · refine (AddrMap.set_other same _ _).trans (Eq.trans ?_ (AddrMap.set_other same _ _).symm)
      exact if_neg fun h => same h.1
  · have hco : ((addr + pageSize2m) % 2 ^ 64 - addr) / pageSize4k = 0 := by
      simp only [pageSize2m, pageSize4k] at fits ⊢
      omega
    have ht : m.slot mm (pathTo .pd addr) (Level.pd.index addr) ≠ 0 := by
      intro zero
      rw [leafAt_of_slot_pd_zero (hu .pdpt (by decide)) zero] at hf
      cases hf
    obtain ⟨e, m₁, hth, exn, href⟩ := map2m_exists addr .readWriteExecute .writeBack hc (hu .pdpt (by decide)) ht
    rw [if_neg fits, hco, forFrom, pure_bind, bind_of_error hth]
    exact .error (.inr ⟨exn, rfl⟩) href

end

theorem convert4kTo2m_simulates :
    Simulates SameErr (Refines mm) (identityMapConvert4kTo2m mm addr .readWriteExecute .writeBack)
      (AddrMap.convert4kTo2m addr) := by
  rw [identityMapConvert4kTo2m, AddrMap.convert4kTo2m]
  by_cases hu : lower addr Level.pd.fromBit ≠ 0
  · rw [if_pos hu, if_pos hu]
    exact .throw (.inl rfl)
  rw [if_neg hu, if_neg hu]
  intro m A href
  obtain ⟨hc, rfl⟩ := href
  have hfd := findLeaf_spec addr hc "from"
  simp only [is4k, leafFrom, bind_assoc, pure_bind]
  cases hres : findLeaf mm "from" addr m with
  | error e m₁ =>
    rw [hres] at hfd
    obtain ⟨hg, leaf, exn⟩ := hfd
    rw [bind_of_error hres, bind_of_error (AddrMap.lookup_none leaf "from")]
    exact .error (.inr ⟨exn, rfl⟩) ⟨hg.coherent, hg.leafAt_eq⟩
  | ok hf m₁ =>
    obtain ⟨r, l⟩ := hf
    rw [hres] at hfd
    obtain ⟨hg, -, hi, leaf⟩ := hfd
    have href₁ : Refines mm m₁ (leafAt mm m) := ⟨hg.coherent, hg.leafAt_eq⟩
    rw [bind_of_ok hres, bind_of_ok (AddrMap.lookup_some leaf "from")]
    cases l with
    | pml4 => exact absurd rfl hi
    | pdpt => exact .error (.inl rfl) href₁
    | pd => exact .error (.inl rfl) href₁
    | pt =>
      simp only [decide_true, Bool.not_true, Bool.false_eq_true, if_false, ne_eq, not_true_eq_false]
      exact convert_body (not_not.mp hu) href₁ leaf

end Gevisor.Ept
