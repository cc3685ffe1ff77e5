import Gevisor.Verified.IdentityMapping
import Gevisor.Vmm.Invariants

/-! # What registration does to other pages

The EPC and the buffers are tracked in frames of 2M. Where such a frame is still mapped by 4K pages, they give
way to one large page that is readable, writable, executable and write-back, whatever they were.
-/

namespace Gevisor.Vmm

open Gevisor.Lib
open Gevisor.Ept

/-- No address has another memory type or an access it did not have. -/
def OnlyRestricts (A A' : AddrMap) : Prop :=
  ∀ a leaf', A' a = some leaf' → ∃ leaf, A a = some leaf ∧ leaf'.entry.memoryType = leaf.entry.memoryType ∧
    ∀ access, leaf'.entry.isEnabled access = true → leaf.entry.isEnabled access = true

/-- The 4K pages in the frame of `v`, if it has any, are like the large page that replaces them. -/
def Mergeable (A : AddrMap) (v : Nat) : Prop :=
  ∀ a leaf, A a = some leaf → leaf.level = .pt → SameLeaf .pd a v →
    leaf.entry.isEnabled .read = true ∧ leaf.entry.isEnabled .write = true ∧
      leaf.entry.memoryType = MemoryType.writeBack.val

/-- The functions that turn frames into large pages. -/
inductive Registration
  | epc
  | retrap
  | buffer (vaddr paddr size : Nat)

namespace Registration

def call {E : Type} (ops : EptOps E) : Registration → VmmM E Unit
  | epc => addEpcAddress2m ops
  | retrap => trapEnclaveEntryNew2m ops
  | buffer vaddr paddr size => addGpuBuffer2m ops vaddr paddr size

/-- How many frames the loop is for. -/
def count (g : Globals) : Registration → Nat
  | epc => epcFrames g.epcSize
  | retrap => g.countSgxPaddrs
  | buffer _ paddr size => if paddr ≠ 0 then bufferFrames size else 0

def frame (g : Globals) (i : Nat) : Registration → Nat
  | epc => frameAddress g.epcBaseAddress i
  | retrap => g.sgxPaddrs i
  | buffer _ paddr _ => frameAddress paddr i

/-- The loop gets to `v` before it gets to a frame that is not mapped. -/
def Visits (r : Registration) (g : Globals) (v : Nat) : Prop :=
  ∃ i < r.count g, v = r.frame g i ∧ ∀ j ≤ i, r.frame g j % 2 ^ 48 < maxPhysAddr

end Registration

/-! ## Frames that have been converted -/

/-- `A'` comes from `A` by converting the frames in `T` and removing execute access in places. -/
structure Converted (A : AddrMap) (T : Nat → Prop) (A' : AddrMap) : Prop where
  absent : ∀ {a}, A a = none → A' a = none
  merged : ∀ {a leaf v}, A a = some leaf → leaf.level = .pt → T v → SameLeaf .pd a v →
    ∃ e, A' a = some ⟨.pd, e⟩ ∧ e.isEnabled .read = true ∧ e.isEnabled .write = true ∧
      e.memoryType = MemoryType.writeBack.val
  others : ∀ {a leaf}, A a = some leaf → (leaf.level = .pt → ∀ v, T v → ¬ SameLeaf .pd a v) →
    ∃ e, A' a = some ⟨leaf.level, e⟩ ∧ e.memoryType = leaf.entry.memoryType ∧
      ∀ access, e.isEnabled access = true → leaf.entry.isEnabled access = true

section Converted

variable {A A' : AddrMap} {T : Nat → Prop} {v : Nat}

theorem Converted.refl (none : ∀ v, ¬ T v) : Converted A T A where
  absent h := h
  merged _ _ hm := absurd hm (none _)
  others hf _ := ⟨_, hf, rfl, fun _ h => h⟩

theorem Converted.congr {T' : Nat → Prop} (hc : Converted A T A') (same : ∀ v, T' v ↔ T v) : Converted A T' A' := by
  obtain rfl : T' = T := funext fun v => propext (same v)
  exact hc

theorem Converted.merge (hc : Converted A T A') (v : Nat) : Converted A (fun u => T u ∨ u = v) (A'.merged v) where
  absent none := by rw [AddrMap.merged, hc.absent none, Option.map_none]
  merged {a leaf u} hf hs hm same := by
    by_cases hbe : ∃ w, T w ∧ SameLeaf .pd a w
    · obtain ⟨w, hi, near⟩ := hbe
      obtain ⟨e, hl, bits⟩ := hc.merged hf hs hi near
      exact ⟨e, AddrMap.merged_large hl, bits⟩
    · have here : SameLeaf .pd a v := by
        cases hm with
        | inl hi => exact absurd ⟨u, hi, same⟩ hbe
        | inr heq => exact heq ▸ same
      obtain ⟨e, kept, -⟩ := hc.others hf fun _ w hi near => hbe ⟨w, hi, near⟩
      refine ⟨_, AddrMap.merged_some.mpr ⟨_, kept, if_pos ⟨hs, here⟩⟩, ?_, ?_, ?_⟩ <;> simp [AttrType.accesses]
  others {a leaf} hf ha := by
    obtain ⟨e, kept, bits⟩ := hc.others hf fun hs w hi => ha hs w (.inl hi)
    exact ⟨e, AddrMap.merged_some.mpr ⟨_, kept, if_neg fun h => ha h.1 v (.inr rfl) h.2⟩, bits⟩

theorem Converted.trap (hc : Converted A T A') (v : Nat) : Converted A T (A'.updated v [.disable .execute]) where
  absent none := by rw [AddrMap.updated, hc.absent none, Option.map_none]
  merged hf hs hm same := by
    obtain ⟨e, hl, read, hw, type⟩ := hc.merged hf hs hm same
    refine ⟨_, AddrMap.updated_level hl, ?_⟩
    split <;> simp [applyChanges, Change.apply, read, hw, type]
  others hf ha := by
    obtain ⟨e, kept, type, bits⟩ := hc.others hf ha
    refine ⟨_, AddrMap.updated_level kept, ?_⟩
    split
    · refine ⟨by simp [applyChanges, Change.apply, type], fun access he => bits access ?_⟩
      simp only [applyChanges, List.foldl_cons, List.foldl_nil, Change.apply, Entry.isEnabled_disable,
        Bool.and_eq_true] at he
      exact he.1
    · exact ⟨type, bits⟩

/-- Converting frames only restricts exactly if nothing is lost in them. -/
theorem Converted.onlyRestricts_iff (hc : Converted A T A') (hid : IsIdentity maxPhysAddr A) :
    OnlyRestricts A A' ↔ ∀ v, T v → Mergeable A v := by
  constructor
  · intro hr v hm a leaf hf hs same
    obtain ⟨e, hl, read, hw, type⟩ := hc.merged hf hs hm same
    obtain ⟨leaf', hf', type', bits⟩ := hr a _ hl
    cases hf.symm.trans hf'
    exact ⟨bits .read read, bits .write hw, type'.symm.trans type⟩
  · intro hmr a leaf' ha
    cases hf : A a with
    | none => cases (hc.absent hf).symm.trans ha
    | some leaf =>
      refine ⟨leaf, rfl, ?_⟩
      by_cases hme : leaf.level = .pt ∧ ∃ v, T v ∧ SameLeaf .pd a v
      · obtain ⟨hs, v, hm, same⟩ := hme
        obtain ⟨e, hl, -, -, type⟩ := hc.merged hf hs hm same
        obtain ⟨read, hw, type'⟩ := hmr v hm a leaf hf hs same
        cases hl.symm.trans ha
        refine ⟨type.trans type'.symm, fun access _ => ?_⟩
        cases access with
        | read => exact read
        | write => exact hw
        | execute =>
          rcases (hid.leaf hf).shape with ⟨hle, -⟩ | ⟨-, he⟩
          · cases hs.symm.trans hle
          · exact he
      · obtain ⟨e, kept, bits⟩ := hc.others hf fun hs v hm same =>
          hme ⟨hs, v, hm, same⟩
        cases kept.symm.trans ha
        exact bits

end Converted

/-- A frame that already is one large page is not converted. -/
theorem mergeable_of_large {A : AddrMap} {v : Nat} {leaf : Leaf} (hid : IsIdentity maxPhysAddr A)
    (hf : A v = some leaf) (hl : leaf.level = .pd) : Mergeable A v := by
  intro a leaf' hf' hs same
  cases hl.symm.trans (hid.small hf' hs hf same.symm)

/-! ## The loops -/

section Loops

variable {mtrrs : Mtrrs} {r : Registration} {A A' : AddrMap} {g g' : Globals} {n : Nat}

/-- Before iteration `n` the frames below `n`, all of them mapped, have been converted. -/
structure VisitedTo (r : Registration) (g : Globals) (A : AddrMap) (n : Nat) (A' : AddrMap) : Prop where
  identity : IsIdentity maxPhysAddr A'
  converted : Converted A (fun v => ∃ i < n, v = r.frame g i) A'
  mapped : ∀ j < n, r.frame g j % 2 ^ 48 < maxPhysAddr

theorem visitedTo_zero (hid : IsIdentity maxPhysAddr A) : VisitedTo r g A 0 A where
  identity := hid
  converted := .refl fun _ hv => by
    obtain ⟨i, hb, -⟩ := hv
    cases hb
  mapped _ hb := nomatch hb

theorem VisitedTo.merge (hv : VisitedTo r g A n A') (hi : r.frame g n % 2 ^ 48 < maxPhysAddr) :
    VisitedTo r g A (n + 1) (A'.merged (r.frame g n)) where
  identity := hv.identity.merged (by decide)
  converted := (hv.converted.merge _).congr fun v => by
    simp only [Nat.lt_succ_iff_lt_or_eq, or_and_right, exists_or, exists_eq_left]
  mapped j hb := by
    cases Nat.lt_or_eq_of_le (Nat.le_of_lt_succ hb) with
    | inl less => exact hv.mapped j less
    | inr heq => exact heq ▸ hi

/-- The loop has come to its end. -/
theorem VisitedTo.finish (hv : VisitedTo r g A (r.count g) A') : Converted A (r.Visits g) A' :=
  hv.converted.congr fun v => by
    constructor
    · rintro ⟨i, hb, heq, -⟩
      exact ⟨i, hb, heq⟩
    · rintro ⟨i, hb, heq⟩
      exact ⟨i, hb, heq, fun j upto => hv.mapped j (by omega)⟩

/-- The loop stops at a frame that is not mapped. -/
theorem VisitedTo.stop (hv : VisitedTo r g A n A') (hbo : n < r.count g)
    (hout : ¬ r.frame g n % 2 ^ 48 < maxPhysAddr) : Converted A (r.Visits g) A' :=
  hv.converted.congr fun v => by
    constructor
    · rintro ⟨i, -, heq, hi⟩
      refine ⟨i, ?_, heq⟩
      by_contra hbe
      exact hout (hi n (by omega))
    · rintro ⟨i, hb, heq⟩
      exact ⟨i, by omega, heq, fun j upto => hv.mapped j (by omega)⟩

theorem VisitedTo.ensure2m (hv : VisitedTo r g A n A') (hbo : n < r.count g) (word : r.frame g n < 2 ^ 64) :
    wp (ensure2m (addrMapOps mtrrs) (r.frame g n))
      (fun _ t => VisitedTo r g A (n + 1) t.guestMap ∧ t.g = g' ∧ ∃ e, t.guestMap (r.frame g n) = some ⟨.pd, e⟩)
      (fun _ t => Converted A (r.Visits g) t.guestMap) ⟨A', g'⟩ := by
  rcases ensure2m_cases mtrrs g' hv.identity (r.frame g n) with ⟨hr, hi⟩ | ⟨e, ht, -, ho⟩
  · rw [wp_of_ok hr]
    exact ⟨hv.merge hi, rfl, merged_large_at hv.identity hi⟩
  · rw [wp_of_error ht]
    exact hv.stop hbo (ho word)

theorem frameAddress_lt (start i : Nat) : frameAddress start i < 2 ^ 64 := Nat.mod_lt _ (by decide)

/-- What each of the functions has done when it returns or throws. -/
theorem Registration.call_converts (hid : IsIdentity maxPhysAddr A)
    (words : ∀ k < g.countSgxPaddrs, g.sgxPaddrs k < 2 ^ 64) :
    wp (r.call (addrMapOps mtrrs)) (fun _ t => Converted A (r.Visits g) t.guestMap)
      (fun e t => e.isExn = true → Converted A (r.Visits g) t.guestMap) ⟨A, g⟩ := by
  cases r with
  | epc =>
    rw [call, addEpcAddress2m, wp_bind, wp_getG]
    refine wp_loop (fun n t => VisitedTo .epc g A n t.guestMap) (visitedTo_zero hid)
      (fun n t hbo visited => ?_) fun t visited => visited.finish
    rw [wp_bind]
    refine wp_mono (fun _ u ha => ?_) (fun _ _ h _ => h) (visited.ensure2m hbo (frameAddress_lt _ _))
    rw [addSgxPaddr, wp_bind, wp_getG, wp_bind, wp_checkIndex]
    split
    · exact ha.1
    · exact fun fault => absurd fault Bool.false_ne_true
  | retrap =>
    rw [call, trapEnclaveEntryNew2m, wp_bind, wp_getG]
    refine wp_loop (fun n t => VisitedTo .retrap g A n t.guestMap ∧ t.g.sgxPaddrs = g.sgxPaddrs)
      ⟨visitedTo_zero hid, rfl⟩ (fun n t hbo hbe => ?_) fun t ha => ha.1.finish
    obtain ⟨A', g'⟩ := t
    obtain ⟨visited, paddrs⟩ := hbe
    have here : g'.sgxPaddrs n = Registration.frame g n .retrap := congrFun paddrs n
    rw [wp_bind, wp_checkIndex]
    split
    case isFalse => exact fun fault => absurd fault Bool.false_ne_true
    case isTrue =>
    rw [wp_bind, wp_getG, wp_bind, here]
    refine wp_mono ?_ (fun _ _ h _ => h) (visited.ensure2m hbo (words n hbo))
    rintro _ ⟨A'', _⟩ ⟨visited', rfl, e, large⟩
    rw [wp_bind, wp_of_ok (entryValue_mapped large), wp_bind, wp_checkIndex]
    split
    case isFalse => exact fun fault => absurd fault Bool.false_ne_true
    case isTrue =>
    have hkp (leaf : Leaf) (hf : A'' (Registration.frame g n .retrap) = some leaf) :
        KeepsSmall [.disable .execute] leaf := by
      cases large.symm.trans hf
      intro small
      cases small
    rw [wp_bind, wp_modifyG, wp_of_ok (update_mapped visited'.identity large (hkp _ large))]
    exact ⟨⟨visited'.identity.updated hkp, visited'.converted.trap _, visited'.mapped⟩, paddrs⟩
  | buffer vaddr paddr size =>
    by_cases hp : paddr ≠ 0
    · have count : Registration.count g (.buffer vaddr paddr size) = bufferFrames size := if_pos hp
      rw [call, addGpuBuffer2m, if_pos hp, wp_bind, wp_getG, wp_bind, wp_checkIndex]
      split
      case isFalse => exact fun fault => absurd fault Bool.false_ne_true
      case isTrue =>
      rw [wp_bind, wp_modifyG, wp_bind]
      refine wp_loop (fun n t => VisitedTo (.buffer vaddr paddr size) g A n t.guestMap) (visitedTo_zero hid)
        (fun n t hbo visited => ?_) fun t visited => (count ▸ visited).finish
      rw [wp_bind]
      refine wp_mono (fun _ u ha => ?_) (fun _ _ h _ => h) (visited.ensure2m (count.symm ▸ hbo) (frameAddress_lt _ _))
      rw [addGpuPaddr, wp_bind, wp_getG, wp_bind, wp_checkIndex]
      split
      · exact ha.1
      · exact fun fault => absurd fault Bool.false_ne_true
    · rw [call, addGpuBuffer2m, if_neg hp]
      refine .refl fun v visited => ?_
      obtain ⟨i, hb, -⟩ := visited
      rw [count, if_neg hp] at hb
      cases hb

end Loops

theorem Registration.call_simulates {E F : Type} {R : E → F → Prop} {ops : EptOps E} {ops' : EptOps F}
    (hag : EptOps.Agree R ops ops') (r : Registration) :
    Simulates SameErr (Related R) (r.call ops) (r.call ops') := by
  cases r with
  | epc => exact addEpcAddress2m_simulates hag
  | retrap => exact trapEnclaveEntryNew2m_simulates hag
  | buffer vaddr paddr size => exact addGpuBuffer2m_simulates hag vaddr paddr size

/-- On the map of any reachable state, with any EPC, list or buffer, registration and re-trapping only restrict
exactly if the 4K pages of all frames they get to are readable, writable and write-back. -/
theorem registration_restricts_iff (mm : PagePool) (platform : Platform) (channel : Option Nat)
    (word : Nat → Fin 512 → Entry) (mem : GuestMem) (es : List Event) (s : Machine Mmap)
    (reach : run (codeStep platform mm) (boot mm channel word mem) es = some s) (built : s.g.flagEpt = true)
    (g : Globals) (flag : g.flagEpt = true) (words : ∀ k < g.countSgxPaddrs, g.sgxPaddrs k < 2 ^ 64)
    (r : Registration) (s' : Machine Mmap)
    (ends : r.call (mmapOps mm platform.mtrrs) ⟨s.guestMap, g⟩ = .ok () s' ∨
      ∃ what, r.call (mmapOps mm platform.mtrrs) ⟨s.guestMap, g⟩ = .error (.exn what) s') :
    OnlyRestricts (leafAt mm s.guestMap) (leafAt mm s'.guestMap) ↔
      ∀ v, r.Visits g v → Mergeable (leafAt mm s.guestMap) v := by
  obtain ⟨reach', corresponds⟩ := run_abstract reach
  rcases run_sound reach' with start | running
  · have bare : (s.view mm).g.flagEpt = false := by rw [start]; rfl
    cases bare.symm.trans built
  · have related : Related (Refines mm) ⟨s.guestMap, g⟩ ⟨leafAt mm s.guestMap, g⟩ :=
      ⟨rfl, flag, corresponds.refines built⟩
    have converts := wp_code (r.call_simulates (mmapOps_agree platform.mtrrs)) related
      (r.call_converts running.identity words)
    refine Converted.onlyRestricts_iff ?_ running.identity
    rcases ends with returns | ⟨what, throws⟩
    · exact (wp_of_ok returns).mp converts
    · obtain ⟨f, same, stops⟩ := (wp_of_error throws).mp converts
      refine stops ?_
      rcases same with rfl | ⟨-, exn⟩
      · rfl
      · exact exn

/-- The first page of the EPC is uncacheable. -/
def uncacheableStart : Platform where
  eax := 0x200000
  ebx := 0
  ecx := 0x200000
  edx := 0
  mtrrs := {
    ranges := [⟨.uncacheable, 0, 0x201000⟩, ⟨.writeBack, 0x201000, 2 ^ 64 - 1 - 0x201000⟩]
    contiguous := by simp [Contiguous] }

theorem registration_changes_type : ∃ s s' leaf leaf',
      run (codeStep uncacheableStart default) (boot default (some 0x800000) (fun _ _ => 0) fun _ _ => 0)
        [.construct 0] = some s ∧
      addEpcAddress2m (mmapOps default uncacheableStart.mtrrs) s = .ok () s' ∧
      leafAt default s.guestMap 0x200000 = some leaf ∧ leafAt default s'.guestMap 0x200000 = some leaf' ∧
      leaf.entry.memoryType = MemoryType.uncacheable.val ∧ leaf'.entry.memoryType = MemoryType.writeBack.val := by
  have observed : (run (abstractStep uncacheableStart) (bootAbstract (some 0x800000) fun _ _ => 0) [.construct 0]).map
      (fun t => (t.g.flagEpt, (t.guestMap 0x200000).map (·.entry.memoryType),
        (returned (addEpcAddress2m (addrMapOps uncacheableStart.mtrrs) t)).map
          fun u => (u.guestMap 0x200000).map (·.entry.memoryType))) =
      some (true, some 0, some (some 6)) := by decide +kernel
  obtain ⟨s, reach, seen, corresponds⟩ := exists_run _ observed default fun _ _ => 0
  injection seen with built rest
  injection rest with before after
  obtain ⟨u, returns, seen'⟩ := Option.map_eq_some_iff.mp after
  obtain ⟨leaf, found, type⟩ := Option.map_eq_some_iff.mp before
  obtain ⟨leaf', found', type'⟩ := Option.map_eq_some_iff.mp seen'
  obtain ⟨s', calls, rfl⟩ := code_returns (addEpcAddress2m_simulates (mmapOps_agree uncacheableStart.mtrrs))
    (corresponds.related built) returns
  exact ⟨s, s', leaf, leaf', reach, calls, found, found', type, type'⟩

theorem registration_restricts_large :
    ∃ s s', run (codeStep default default) (boot default (some 0x800000) (fun _ _ => 0) fun _ _ => 0) [.construct 0] =
        some s ∧
      addEpcAddress2m (mmapOps default (default : Platform).mtrrs) s = .ok () s' ∧
      OnlyRestricts (leafAt default s.guestMap) (leafAt default s'.guestMap) := by
  have observed : (run (abstractStep default) (bootAbstract (some 0x800000) fun _ _ => 0) [.construct 0]).map
      (fun t => (t.g.flagEpt, t.g.countSgxPaddrs, (t.g.epcBaseAddress, t.g.epcSize),
        (t.guestMap 0x200000).map (·.level),
        (returned (addEpcAddress2m (addrMapOps (default : Platform).mtrrs) t)).isSome)) =
      some (true, 0, (0x200000, 0x200000), some .pd, true) := by decide +kernel
  obtain ⟨s, reach, seen, corresponds⟩ := exists_run _ observed default fun _ _ => 0
  injection seen with built rest
  injection rest with empty rest
  injection rest with epc rest
  injection rest with level returns
  obtain ⟨base, size⟩ := Prod.mk.inj epc
  obtain ⟨u, returns⟩ := Option.isSome_iff_exists.mp returns
  obtain ⟨leaf, found, large⟩ := Option.map_eq_some_iff.mp level
  obtain ⟨s', calls, -⟩ := code_returns (addEpcAddress2m_simulates (mmapOps_agree (default : Platform).mtrrs))
    (corresponds.related built) returns
  refine ⟨s, s', reach, calls, (registration_restricts_iff _ _ _ _ _ _ s reach built s.g built
    (fun k below => ?_) .epc s' (.inl calls)).mpr fun v visits => ?_⟩
  · rw [show s.g.countSgxPaddrs = 0 from empty] at below
    cases below
  · obtain ⟨i, below, equal, -⟩ := visits
    have base : s.g.epcBaseAddress = 0x200000 := base
    have size : s.g.epcSize = 0x200000 := size
    rw [Registration.count, size] at below
    obtain rfl : i = 0 := Nat.lt_one_iff.mp below
    rw [Registration.frame, base] at equal
    have identity : IsIdentity maxPhysAddr (leafAt default s.guestMap) := by
      rcases run_sound (run_abstract reach).1 with start | running
      · have bare : (s.view default).g.flagEpt = false := by rw [start]; rfl
        cases bare.symm.trans built
      · exact running.identity
    exact equal ▸ mergeable_of_large identity found large

end Gevisor.Vmm
