import Gevisor.Vmm.System
import Gevisor.Verified.PartialMap

/-! # Access to the tracked GPU pages

`remove_permission_gpu_buffers` and `grant_permission_gpu_buffers` run over the tracked addresses and edit
the leaf of each. Several addresses may share a leaf, so that an entry may be edited more than once;
`Changed` says what any number of such edits amount to.
-/

namespace Gevisor.Verified

open Gevisor.Lib Gevisor.Ept Gevisor.Vmm

/-! ## Editing the leaves of many addresses -/

/-- `a` lies in the leaf of `v`. -/
def InLeaf (A : AddrMap) (a v : Nat) : Prop := ∃ leaf, A v = some leaf ∧ SameLeaf leaf.level a v

/-- A leaf answers for all the addresses of its page. -/
def Uniform (A : AddrMap) : Prop := ∀ {a v leaf}, A v = some leaf → SameLeaf leaf.level a v → A a = some leaf

theorem uniform_leafOf (view : List (Fin 512) → Fin 512 → Entry) : Uniform (leafOf view) := by
  intro a v leaf hf same
  -- The words down to the leaf's level are common to both addresses.
  have word (l : Level) (habv : l.depth ≤ leaf.level.depth) :
      view (pathTo l a) (l.index a) = view (pathTo l v) (l.index v) := by
    obtain ⟨path, hi⟩ := (sameLeaf_iff l a v).mp (same.upper habv)
    rw [path, hi]
  simp only [leafOf] at hf
  split_ifs at hf with pdpt pd pt <;> cases hf
  · simp only [leafOf, word .pdpt (Nat.le_refl 1), if_pos pdpt]
  · simp only [leafOf, word .pdpt (Nat.le_succ 1), word .pd (Nat.le_refl 2), if_neg pdpt, if_pos pd]
  · simp only [leafOf, word .pdpt (Nat.le_of_ble_eq_true rfl), word .pd (Nat.le_succ 2), word .pt (Nat.le_refl 3),
      if_neg pdpt, if_neg pd, if_pos pt]

theorem uniform_of_refines {mm : PagePool} {m : Mmap} {A : AddrMap} (href : Refines mm m A) : Uniform A := by
  obtain ⟨-, rfl⟩ := href
  exact uniform_leafOf _

/-- `B` is `A` with the entries of the leaves in `S` edited. -/
structure Changed (changes : List Change) (S : Nat → Prop) (A B : AddrMap) : Prop where
  inside : ∀ {a}, S a → B a = (A a).bind (AddrMap.change changes)
  outside : ∀ {a}, ¬ S a → B a = A a

section Changed

variable {changes : List Change} {S : Nat → Prop} {A B : AddrMap} {v : Nat} {leaf : Leaf}

theorem Changed.refl (changes : List Change) (A : AddrMap) : Changed changes (fun _ => False) A A where
  inside := False.elim
  outside _ := rfl

/-- One more leaf is edited. If it was edited before, the second time makes no difference. -/
theorem Changed.set (hbe : Changed changes S A B) (hun : Uniform A) (hf : A v = some leaf) :
    Changed changes (fun a => S a ∨ InLeaf A a v) A (B.set leaf.level v (AddrMap.change changes leaf)) where
  inside := by
    intro a ht
    by_cases same : SameLeaf leaf.level a v
    · rw [AddrMap.set_same same, hun hf same]
      rfl
    · rw [AddrMap.set_other same]
      cases ht with
      | inl hea => exact hbe.inside hea
      | inr here =>
        obtain ⟨leaf', hf', same'⟩ := here
        cases hf.symm.trans hf'
        exact absurd same' same
  outside := by
    intro a hu
    have ho : ¬ SameLeaf leaf.level a v := fun same => hu (.inr ⟨leaf, hf, same⟩)
    rw [AddrMap.set_other ho, hbe.outside fun hea => hu (.inl hea)]

/-- `entry` finds the leaf, edited or not, unless an edit made its word zero. -/
theorem Changed.found (hbe : Changed changes S A B)
    (ha : ∀ e, applyChanges changes (applyChanges changes e) = applyChanges changes e)
    (hf : A v = some leaf) :
    (B v = none ∧ applyChanges changes leaf.entry = 0) ∨ ∃ leaf', B v = some leaf' ∧ leaf'.level = leaf.level ∧
        AddrMap.change changes leaf' = AddrMap.change changes leaf := by
  by_cases ht : S v
  · have he : B v = asLeaf leaf.level (applyChanges changes leaf.entry) := by
      rw [hbe.inside ht, hf]
      rfl
    by_cases zero : applyChanges changes leaf.entry = 0
    · exact .inl ⟨he.trans (if_pos zero), zero⟩
    · refine .inr ⟨_, he.trans (if_neg zero), rfl, ?_⟩
      simp only [AddrMap.change, ha]
  · exact .inr ⟨leaf, (hbe.outside ht).trans hf, rfl, rfl⟩

theorem Changed.updateEntry (hbe : Changed changes S A B) (hu : Uniform A)
    (ha : ∀ e, applyChanges changes (applyChanges changes e) = applyChanges changes e)
    (hf : A v = some leaf) :
    wp (AddrMap.updateEntry v changes) (fun _ B' => Changed changes (fun a => S a ∨ InLeaf A a v) A B')
      (fun _ _ => applyChanges changes leaf.entry = 0) B := by
  rw [AddrMap.updateEntry, wp_bind]
  cases hbe.found ha hf with
  | inl gone =>
    rw [wp_of_error (AddrMap.lookup_none gone.1 "entry")]
    exact gone.2
  | inr hp =>
    obtain ⟨leaf', here, hl, change⟩ := hp
    rw [wp_of_ok (AddrMap.lookup_some here "entry"), wp_modify, hl, change]
    exact hbe.set hu hf

end Changed

/-! ## The loop over the tracked addresses -/

/-- `a` lies in the leaf of one of the first `n` tracked addresses. -/
def InTracked (A : AddrMap) (g : Globals) (n a : Nat) : Prop := ∃ k, k < n ∧ InLeaf A a (g.gpuPaddrs k)

theorem inTracked_succ {A : AddrMap} {g : Globals} {n a : Nat} :
    InTracked A g (n + 1) a ↔ InTracked A g n a ∨ InLeaf A a (g.gpuPaddrs n) := by
  constructor
  · intro htd
    obtain ⟨k, hb, here⟩ := htd
    cases Nat.lt_succ_iff_lt_or_eq.mp hb with
    | inl hea => exact .inl ⟨k, hea, here⟩
    | inr last => exact .inr (last ▸ here)
  · intro htd
    cases htd with
    | inl hea =>
      obtain ⟨k, hb, here⟩ := hea
      exact ⟨k, Nat.lt_succ_of_lt hb, here⟩
    | inr last => exact ⟨n, Nat.lt_succ_self n, last⟩

theorem Changed.congr {changes : List Change} {S T : Nat → Prop} {A B : AddrMap} (same : ∀ a, S a ↔ T a)
    (hc : Changed changes S A B) : Changed changes T A B where
  inside htd := hc.inside ((same _).mpr htd)
  outside hu := hc.outside fun htd => hu ((same _).mp htd)

section Loop

variable {mm : PagePool} {m : Mmap} {g : Globals} {A : AddrMap} {changes : List Change}

/-- All leaves of tracked addresses are edited, however often one comes up, and no others. -/
theorem changeGpuBuffers_spec (mtrrs : Mtrrs) (href : Refines mm m A) (room : g.countGpuPaddrs ≤ gpuPaddrNum)
    (hmap : ∀ k, k < g.countGpuPaddrs → ∃ leaf, A (g.gpuPaddrs k) = some leaf)
    (ha : ∀ e, applyChanges changes (applyChanges changes e) = applyChanges changes e) :
    wp (changeGpuBuffers (mmapOps mm mtrrs) changes)
      (fun _ s => s.g = g ∧ ∃ B, Refines mm s.guestMap B ∧ Changed changes (InTracked A g g.countGpuPaddrs) A B)
      (fun _ _ => ∃ k leaf, k < g.countGpuPaddrs ∧ A (g.gpuPaddrs k) = some leaf ∧
        applyChanges changes leaf.entry = 0) ⟨m, g⟩ := by
  rw [changeGpuBuffers, wp_bind, wp_getG]
  refine wp_loop (fun n s => s.g = g ∧ ∃ B, Refines mm s.guestMap B ∧ Changed changes (InTracked A g n) A B)
    ⟨rfl, A, href, ?_⟩ ?_ fun s done => done
  · refine (Changed.refl changes A).congr fun a => ⟨False.elim, fun htd => ?_⟩
    obtain ⟨k, hb, -⟩ := htd
    exact absurd hb (Nat.not_lt_zero k)
  · intro n s hb inv
    obtain ⟨same, B, hr, hc⟩ := inv
    obtain ⟨leaf, hf⟩ := hmap n hb
    have hi : n < arrayLength .gpuPaddrs := Nat.lt_of_lt_of_le hb room
    simp only [wp_bind, wp_checkIndex, if_pos hi, wp_getG, onMap, wp_zoom, same, true_and]
    refine wp_mono (fun _ m' ends => ?_) (fun _ _ ends => ?_)
      ((updateEntry_simulates changes).wp hr (hc.updateEntry (uniform_of_refines href) ha hf))
    · obtain ⟨B', href', hc'⟩ := ends
      exact ⟨B', href', hc'.congr fun a => inTracked_succ.symm⟩
    · obtain ⟨-, -, -, -, zero⟩ := ends
      exact ⟨n, leaf, hb, hf, zero⟩

end Loop

/-! ## Removing and granting -/

section Words

variable (e : Entry)

theorem remove_eq : applyChanges [.disable .read, .disable .write] e = e &&& ~~~0b11#64 := by
  simp only [applyChanges, List.foldl_cons, List.foldl_nil, Change.apply, Entry.disable, clearBit, BitVec.and_assoc]
  rfl

theorem grant_eq : applyChanges [.enable .read, .enable .write] e = e ||| 0b11#64 := by
  simp only [applyChanges, List.foldl_cons, List.foldl_nil, Change.apply, Entry.enable, setBit, BitVec.or_assoc]
  rfl

theorem remove_remove :
    applyChanges [.disable .read, .disable .write] (applyChanges [.disable .read, .disable .write] e) =
      applyChanges [.disable .read, .disable .write] e := by
  rw [remove_eq, remove_eq, BitVec.and_assoc, BitVec.and_self]

theorem grant_grant :
    applyChanges [.enable .read, .enable .write] (applyChanges [.enable .read, .enable .write] e) =
      applyChanges [.enable .read, .enable .write] e := by
  rw [grant_eq, grant_eq, BitVec.or_assoc, BitVec.or_self]

theorem grant_ne_zero : applyChanges [.enable .read, .enable .write] e ≠ 0 :=
  ne_zero_of_isEnabled (a := .read) (by simp [applyChanges, Change.apply])

/-- Granting undoes removing where both bits were set. -/
theorem grant_remove {e : Entry} (read : e.isEnabled .read = true) (hw : e.isEnabled .write = true) :
    applyChanges [.enable .read, .enable .write] (applyChanges [.disable .read, .disable .write] e) = e := by
  simp only [Entry.isEnabled, isBitSet, Access.bit] at read hw
  refine BitVec.eq_of_getLsbD_eq fun i hbo => ?_
  simp only [applyChanges, List.foldl_cons, List.foldl_nil, Change.apply, Entry.enable, Entry.disable, Access.bit,
    getLsbD_setBit (show 0 < 64 by decide), getLsbD_setBit (show 1 < 64 by decide), getLsbD_clearBit]
  by_cases first : i = 0
  · simp [first, read]
  · by_cases hs : i = 1
    · simp [hs, hw]
    · simp [first, hs]

end Words

/-- The look-ups answer as before, except that read and write access are gone. -/
structure Restricted (before after : Report) : Prop where
  phys : after.phys = before.phys
  bits : after.bits = before.bits
  entry : ∃ e e', before.entry = some e ∧ after.entry = some e' ∧
    e'.isEnabled .read = false ∧ e'.isEnabled .write = false ∧
    e'.isEnabled .execute = e.isEnabled .execute ∧ e'.memoryType = e.memoryType

/-- The page of `a` contains a tracked address. -/
def InTrackedPage (mm : PagePool) (m : Mmap) (g : Globals) (a : Nat) : Prop :=
  ∃ k bits, k < g.countGpuPaddrs ∧ (report mm m (g.gpuPaddrs k)).bits = some bits ∧ SamePage bits a (g.gpuPaddrs k)

/-- Access is removed from the pages with a tracked address and from no others, and granting it again gives
back the map. -/
def RemovesExactly (mm : PagePool) (mtrrs : Mtrrs) (m : Mmap) (g : Globals) : Prop :=
  ∃ s, removePermissionGpuBuffers (mmapOps mm mtrrs) ⟨m, g⟩ = .ok () s ∧
    (∀ a, InTrackedPage mm m g a → Restricted (report mm m a) (report mm s.guestMap a)) ∧
    (∀ a, ¬ InTrackedPage mm m g a → report mm s.guestMap a = report mm m a) ∧
    ((∀ a e, InTrackedPage mm m g a → (report mm m a).entry = some e →
        e.isEnabled .read = true ∧ e.isEnabled .write = true) →
      ∃ s', grantPermissionGpuBuffers (mmapOps mm mtrrs) s = .ok () s' ∧
        ∀ a, report mm s'.guestMap a = report mm m a)

section Reports

variable {mm : PagePool} {m : Mmap} {g : Globals} {A : AddrMap} {a : Nat}

theorem report_of_refines (href : Refines mm m A) (a : Nat) : report mm m a = .ofLeaf (A a) := by
  rw [report_eq href.1, href.2]

theorem inTrackedPage_iff (href : Refines mm m A) : InTrackedPage mm m g a ↔ InTracked A g g.countGpuPaddrs a := by
  constructor
  · intro htd
    obtain ⟨k, bits, hb, hf, same⟩ := htd
    rw [report_of_refines href, bits_ofLeaf] at hf
    obtain ⟨l, w, hf, rfl⟩ := hf
    exact ⟨k, hb, ⟨l, w⟩, hf, same⟩
  · intro htd
    obtain ⟨k, hb, leaf, hf, same⟩ := htd
    refine ⟨k, leaf.level.fromBit, hb, ?_, same⟩
    rw [report_of_refines href, hf]
    rfl

theorem restricted_remove (leaf : Leaf) (hkp : applyChanges [.disable .read, .disable .write] leaf.entry ≠ 0) :
    Restricted (.ofLeaf (some leaf)) (.ofLeaf (AddrMap.change [.disable .read, .disable .write] leaf)) := by
  rw [AddrMap.change, asLeaf, if_neg hkp]
  refine ⟨?_, rfl, _, _, rfl, rfl, ?_⟩
  · simp only [Report.ofLeaf, applyChanges, List.foldl_cons, List.foldl_nil, Change.apply, Entry.physAddr_disable]
  · simp [applyChanges, Change.apply]

end Reports

section Exactly

variable {mm : PagePool} {m m' : Mmap} {g : Globals} {A B : AddrMap} {n : Nat}

variable {changes : List Change}

/-- The tracked leaves stand where they stood, with their new words. -/
theorem changed_tracked (hu : Uniform A)
    (hkp : ∀ k leaf, k < n → A (g.gpuPaddrs k) = some leaf → applyChanges changes leaf.entry ≠ 0)
    (hc : Changed changes (InTracked A g n) A B) {a : Nat} (htd : InTracked A g n a) :
    ∃ leaf, A a = some leaf ∧ B a = some ⟨leaf.level, applyChanges changes leaf.entry⟩ := by
  obtain ⟨k, hb, leaf, hf, same⟩ := id htd
  have here := hu hf same
  refine ⟨leaf, here, ?_⟩
  rw [hc.inside htd, here]
  exact if_neg (hkp k leaf hb hf)

theorem inTracked_changed (hu : Uniform A) (hmap : ∀ k, k < n → ∃ leaf, A (g.gpuPaddrs k) = some leaf)
    (hkp : ∀ k leaf, k < n → A (g.gpuPaddrs k) = some leaf → applyChanges changes leaf.entry ≠ 0)
    (hc : Changed changes (InTracked A g n) A B) (a : Nat) : InTracked B g n a ↔ InTracked A g n a := by
  have hl (k : Nat) (hb : k < n) : ∃ leaf, A (g.gpuPaddrs k) = some leaf ∧
      B (g.gpuPaddrs k) = some ⟨leaf.level, applyChanges changes leaf.entry⟩ := by
    obtain ⟨leaf, hf⟩ := hmap k hb
    exact changed_tracked hu hkp hc ⟨k, hb, leaf, hf, .refl _ _⟩
  constructor
  · intro htd
    obtain ⟨k, hb, leaf, hf, same⟩ := htd
    obtain ⟨leaf', hbe, ha⟩ := hl k hb
    cases hf.symm.trans ha
    exact ⟨k, hb, leaf', hbe, same⟩
  · intro htd
    obtain ⟨k, hb, leaf, hf, same⟩ := htd
    obtain ⟨leaf', hbe, ha⟩ := hl k hb
    cases hf.symm.trans hbe
    exact ⟨k, hb, _, ha, same⟩

/-- Granting after removing gives back every leaf that had both access bits. -/
theorem grant_after_remove (mtrrs : Mtrrs) (hu : Uniform A)
    (hmap : ∀ k, k < g.countGpuPaddrs → ∃ leaf, A (g.gpuPaddrs k) = some leaf)
    (hkp : ∀ k leaf, k < g.countGpuPaddrs → A (g.gpuPaddrs k) = some leaf →
      applyChanges [.disable .read, .disable .write] leaf.entry ≠ 0)
    (hg : ∀ a leaf, InTracked A g g.countGpuPaddrs a → A a = some leaf →
      leaf.entry.isEnabled .read = true ∧ leaf.entry.isEnabled .write = true)
    (room : g.countGpuPaddrs ≤ gpuPaddrNum) (href : Refines mm m' B)
    (hc : Changed [.disable .read, .disable .write] (InTracked A g g.countGpuPaddrs) A B) :
    ∃ s', grantPermissionGpuBuffers (mmapOps mm mtrrs) ⟨m', g⟩ = .ok () s' ∧ Refines mm s'.guestMap A := by
  have hmap' (k : Nat) (hb : k < g.countGpuPaddrs) : ∃ leaf, B (g.gpuPaddrs k) = some leaf := by
    obtain ⟨leaf, hf⟩ := hmap k hb
    obtain ⟨_, _, ha⟩ := changed_tracked hu hkp hc ⟨k, hb, leaf, hf, .refl _ _⟩
    exact ⟨_, ha⟩
  have loop := changeGpuBuffers_spec mtrrs href room hmap' grant_grant
  obtain ⟨_, s', hret, -, C, href', hc'⟩ := exists_of_wp (wp_mono (fun _ _ ends => ends)
    (fun _ _ hth => by obtain ⟨-, leaf, -, -, zero⟩ := hth; exact grant_ne_zero leaf.entry zero) loop)
  refine ⟨s', hret, ?_⟩
  obtain rfl : C = A := by
    funext a
    by_cases htd : InTracked A g g.countGpuPaddrs a
    · obtain ⟨leaf, hbe, ha⟩ := changed_tracked hu hkp hc htd
      obtain ⟨read, hw⟩ := hg a leaf htd hbe
      rw [hc'.inside ((inTracked_changed hu hmap hkp hc a).mpr htd), ha, hbe]
      simp only [Option.bind_some, AddrMap.change, grant_remove read hw, asLeaf]
      exact if_neg (ne_zero_of_isEnabled read)
    · rw [hc'.outside fun hag => htd ((inTracked_changed hu hmap hkp hc a).mp hag), hc.outside htd]
  exact href'

/-- The loops are exact in every map, as long as no tracked leaf has nothing in its word but read and write
access: without them that word is zero, which stands for no mapping at all. -/
theorem removes_exactly_iff (mtrrs : Mtrrs) (coherent : Coherent mm m.live m)
    (room : g.countGpuPaddrs ≤ gpuPaddrNum)
    (mapped : ∀ k, k < g.countGpuPaddrs → report mm m (g.gpuPaddrs k) ≠ .unmapped) :
    RemovesExactly mm mtrrs m g ↔
      ∀ k e, k < g.countGpuPaddrs → (report mm m (g.gpuPaddrs k)).entry = some e → e &&& ~~~0b11#64 ≠ 0 := by
  have refines : Refines mm m (leafAt mm m) := ⟨coherent, rfl⟩
  generalize leafAt mm m = A at refines
  have uniform : Uniform A := uniform_of_refines refines
  have mapped' (k : Nat) (below : k < g.countGpuPaddrs) : ∃ leaf, A (g.gpuPaddrs k) = some leaf := by
    have := mapped k below
    rw [report_of_refines refines] at this
    cases found : A (g.gpuPaddrs k) with
    | none => exact absurd (congrArg Report.ofLeaf found) this
    | some leaf => exact ⟨leaf, rfl⟩
  have loop := changeGpuBuffers_spec mtrrs refines room mapped' remove_remove
  simp only [report_of_refines refines]
  constructor
  · intro exactly k e below found zero
    obtain ⟨s, returns, inside, -⟩ := exactly
    rw [removePermissionGpuBuffers] at returns
    rw [wp_of_ok returns] at loop
    obtain ⟨-, B, refines', changed⟩ := loop
    obtain ⟨leaf, here⟩ := mapped' k below
    have tracked : InTracked A g g.countGpuPaddrs (g.gpuPaddrs k) := ⟨k, below, leaf, here, .refl _ _⟩
    obtain ⟨-, -, _, _, -, after, -⟩ := inside _ ((inTrackedPage_iff refines).mpr tracked)
    rw [here] at found
    cases found
    -- The word is zero now, and look-ups of the address throw.
    rw [report_of_refines refines', changed.inside tracked, here, Option.bind_some, AddrMap.change, remove_eq, zero]
      at after
    cases after
  · intro more
    have keeps (k : Nat) (leaf : Leaf) (below : k < g.countGpuPaddrs) (found : A (g.gpuPaddrs k) = some leaf) :
        applyChanges [.disable .read, .disable .write] leaf.entry ≠ 0 := by
      rw [remove_eq]
      exact more k leaf.entry below (by rw [found]; rfl)
    obtain ⟨_, s, returns, same, B, refines', changed⟩ := exists_of_wp (wp_mono (fun _ _ ends => ends)
      (fun _ _ throws => by obtain ⟨k, leaf, below, found, zero⟩ := throws; exact keeps k leaf below found zero) loop)
    refine ⟨s, returns, fun a tracked => ?_, fun a untracked => ?_, fun granted => ?_⟩
    · rw [inTrackedPage_iff refines] at tracked
      obtain ⟨k, below, leaf, found, page⟩ := id tracked
      rw [report_of_refines refines, report_of_refines refines', changed.inside tracked, uniform found page]
      exact restricted_remove leaf (keeps k leaf below found)
    · rw [inTrackedPage_iff refines] at untracked
      rw [report_of_refines refines, report_of_refines refines', changed.outside untracked]
    · obtain ⟨m', g'⟩ := s
      obtain rfl : g' = g := same
      simp only [inTrackedPage_iff refines, report_of_refines refines] at granted
      obtain ⟨s', returns', refines''⟩ := grant_after_remove mtrrs uniform mapped' keeps
        (fun a leaf tracked found => granted a leaf.entry tracked (by rw [found]; rfl)) room refines' changed
      refine ⟨s', returns', fun a => ?_⟩
      rw [report_of_refines refines'', report_of_refines refines]

end Exactly

/-- The first `n` bytes from 0x1000 on are tracked. -/
def pageGlobals (n : Nat) : Globals :=
  { initialGlobals none (fun _ _ => 0) with
    gpuPaddrs := fun k => 0x1000 + k
    countGpuPaddrs := n }

/-- `map_4k` of frame 0 at 0x1000 in a new map. -/
theorem exists_one_page (attr : AttrType) (cache : MemoryType) :
    ∃ r m, map4k default 0x1000 0 attr cache (Mmap.init default fun _ _ => 0) = .ok r m ∧
      Refines default m (AddrMap.set (fun _ => none) .pt 0x1000 (asLeaf .pt (leafEntry 0 attr cache false))) := by
  have bare : Bare default (Mmap.init default fun _ _ => 0) := init_bare _
  obtain ⟨r, m, hret, hrch⟩ := @map4k_spec default _ 0x1000 0 attr cache bare.1 (by rw [bare.leafAt_eq])
  rw [bare.leafAt_eq] at hrch
  exact ⟨r, m, hret, hrch.refines⟩

/-- Frame 0, mapped uncacheable with read and write access: its entry is 3. -/
theorem remove_unmaps_page :
    ∃ r m s, map4k default 0x1000 0 .readWrite .uncacheable (Mmap.init default fun _ _ => 0) = .ok r m ∧
      report default m 0x1000 = ⟨some 0, some 12, some 3⟩ ∧
      removePermissionGpuBuffers (mmapOps default default) ⟨m, pageGlobals 1⟩ = .ok () s ∧
      report default s.guestMap 0x1000 = .unmapped := by
  obtain ⟨r, m, returns, refines⟩ := exists_one_page .readWrite .uncacheable
  generalize map : AddrMap.set (fun _ => none) .pt 0x1000 (asLeaf .pt (leafEntry 0 .readWrite .uncacheable false)) = A
    at refines
  have here : A 0x1000 = some ⟨.pt, 3⟩ := by
    rw [← map]
    decide
  have edits : wp (AddrMap.updateEntry 0x1000 [.disable .read, .disable .write])
      (fun _ B => B = A.set .pt 0x1000 none) (fun _ _ => False) A := by
    rw [AddrMap.updateEntry, wp_bind, wp_of_ok (AddrMap.lookup_some here "entry")]
    rfl
  obtain ⟨_, m', removed, _, refines', rfl⟩ := exists_of_wp (wp_mono (fun _ _ ends => ends)
    (fun _ _ throws => by obtain ⟨_, _, _, _, impossible⟩ := throws; exact impossible)
    ((updateEntry_simulates [.disable .read, .disable .write]).wp refines edits))
  refine ⟨r, m, ⟨m', pageGlobals 1⟩, returns, ?_, ?_, ?_⟩
  · rw [report_of_refines refines, here]
    decide
  · have once : onMap ((mmapOps default default).updateEntry 0x1000 [.disable .read, .disable .write])
        ⟨m, pageGlobals 1⟩ = .ok () ⟨m', pageGlobals 1⟩ := by
      simp only [onMap, zoom, mmapOps, removed]
    rw [removePermissionGpuBuffers, changeGpuBuffers,
      bind_of_ok (show getG ⟨m, pageGlobals 1⟩ = .ok (pageGlobals 1) ⟨m, pageGlobals 1⟩ from rfl)]
    exact bind_of_ok once fun _ => pure ()
  · rw [report_of_refines refines', AddrMap.set_same (.refl _ _)]
    rfl

/-- With write-back caching the entry keeps a bit, however often the page is tracked. -/
theorem removes_exactly_write_back :
    ∃ r m, map4k default 0x1000 0 .readWrite .writeBack (Mmap.init default fun _ _ => 0) = .ok r m ∧
      RemovesExactly default default m (pageGlobals 3) := by
  obtain ⟨r, m, returns, refines⟩ := exists_one_page .readWrite .writeBack
  generalize map : AddrMap.set (fun _ => none) .pt 0x1000 (asLeaf .pt (leafEntry 0 .readWrite .writeBack false)) = A
    at refines
  have here (k : Nat) (below : k < 3) : A (0x1000 + k) = some ⟨.pt, 0x33⟩ := by
    rw [← map]
    revert k
    decide
  have tracked (k : Nat) (below : k < (pageGlobals 3).countGpuPaddrs) :
      report default m ((pageGlobals 3).gpuPaddrs k) = ⟨some 0, some 12, some 0x33⟩ := by
    rw [report_of_refines refines, show (pageGlobals 3).gpuPaddrs k = 0x1000 + k from rfl, here k below]
    decide
  refine ⟨r, m, returns, (removes_exactly_iff default refines.1 (by decide) fun k below => ?_).mpr ?_⟩
  · rw [tracked k below]
    decide
  · intro k e below found
    rw [tracked k below] at found
    cases found
    decide

end Gevisor.Verified
