import Gevisor.Ept.IdentityMap
import Gevisor.Lib.Transition

/-! # Sequences of calls

What the owner of a map may do with it: pages of three sizes are mapped, addresses are unmapped, released
and looked up, in any order. A call that throws is over; what it wrote before stays, and the next call
finds the map in that state. `Behaves` says of each call what it does to the partial function, and
`run_coherent` that the map stays coherent through any sequence of them.
-/

namespace Gevisor.Ept

open Gevisor.Lib

inductive PageSize
  | size1g
  | size2m
  | size4k
  deriving DecidableEq, Repr

/-- The level whose entries are the leaves of pages of this size. -/
def PageSize.level : PageSize → Level
  | .size1g => .pdpt
  | .size2m => .pd
  | .size4k => .pt

/-- `page_size` as a number of address bits: `from` of the level. -/
def PageSize.bits (size : PageSize) : Nat := size.level.fromBit

/-- `map_1g`, `map_2m` and `map_4k`. -/
def PageSize.map (mm : PagePool) : PageSize → Nat → Nat → AttrType → MemoryType → MapM EntryRef
  | .size1g => map1g mm
  | .size2m => map2m mm
  | .size4k => map4k mm

inductive MapCall
  | map (size : PageSize) (virt phys : Nat) (attr : AttrType) (cache : MemoryType)
  | unmap (virt : Nat)
  | release (virt : Nat)
  | entry (virt : Nat)
  | virtToPhys (virt : Nat)
  | leafFrom (virt : Nat)
  deriving DecidableEq, Repr

namespace MapCall

/-- The call, its result thrown away. -/
def exec (mm : PagePool) : MapCall → MapM Unit
  | map size virt phys attr cache => do
    let _ ← size.map mm virt phys attr cache
  | unmap virt => Ept.unmap mm virt
  | release virt => Ept.release mm virt
  | entry virt => do
    let _ ← Ept.entry mm virt
  | virtToPhys virt => do
    let _ ← Ept.virtToPhys mm virt
  | leafFrom virt => do
    let _ ← Ept.leafFrom mm virt

/-- The map after the call, whether it returned or threw. There is none after a fault. -/
def step (mm : PagePool) (m : Mmap) (call : MapCall) : Option Mmap :=
  match call.exec mm m with
  | .ok _ m' => some m'
  | .error (.exn _) m' => some m'
  | .error (.fault _) _ => none

end MapCall

/-! ## What look-ups report -/

/-- The answers of `virt_to_phys`, `from` and `entry` for one address; `none` where they do not return. -/
structure Report where
  phys : Option Nat
  bits : Option Nat
  entry : Option Entry
  deriving DecidableEq, Repr

def Report.unmapped : Report := ⟨none, none, none⟩

def answer {α : Type} : EStateM.Result Err Mmap α → Option α
  | .ok a _ => some a
  | .error _ _ => none

/-- Three look-ups of `virt`, each made in `m`. -/
def report (mm : PagePool) (m : Mmap) (virt : Nat) : Report where
  phys := answer (virtToPhys mm virt m)
  bits := answer (leafFrom mm virt m)
  entry := answer (entryValue mm virt m)

def Report.ofLeaf : Option Leaf → Report
  | some leaf => ⟨some leaf.entry.physAddr, some leaf.level.fromBit, some leaf.entry⟩
  | none => .unmapped

/-- A call that maps only where no larger page is in the way, and with sensible arguments. -/
def MapCall.Proper (mm : PagePool) (m : Mmap) : MapCall → Prop
  | map size virt phys attr _ =>
    (virt < 2 ^ 48 ∧ virt % 2 ^ size.bits = 0) ∧ (phys < 2 ^ 48 ∧ phys % 2 ^ size.bits = 0) ∧
      attr ≠ .none ∧ ∀ bits, (report mm m virt).bits = some bits → bits ≤ size.bits
  | _ => True

section Reports

variable {mm : PagePool} {m : Mmap}

theorem answer_eq {α : Type} {c : MapM α} {d : EStateM Err AddrMap α} {A : AddrMap}
    (hag : Simulates SameErr (Refines mm) c d) (href : Refines mm m A) :
    answer (c m) = match d A with
      | .ok a _ => some a
      | .error _ _ => none := by
  have hrel := hag m A href
  generalize c m = left, d A = right at hrel
  cases hrel with
  | ok a _ => rfl
  | error _ _ => rfl

/-- The three look-ups report the leaf of the address. -/
theorem report_eq (hc : Coherent mm m.live m) (virt : Nat) : report mm m virt = .ofLeaf (leafAt mm m virt) := by
  have href : Refines mm m (leafAt mm m) := ⟨hc, rfl⟩
  rw [report, answer_eq virtToPhys_simulates href, answer_eq leafFrom_simulates href,
    answer_eq entryValue_simulates href]
  cases hf : leafAt mm m virt with
  | none =>
    simp only [AddrMap.virtToPhys, AddrMap.leafFrom, AddrMap.entryValue, bind, EStateM.bind, AddrMap.lookup_none hf]
    rfl
  | some leaf =>
    simp only [AddrMap.virtToPhys, AddrMap.leafFrom, AddrMap.entryValue, bind, EStateM.bind, AddrMap.lookup_some hf]
    rfl

theorem bits_ofLeaf {leaf : Option Leaf} {bits : Nat} :
    (Report.ofLeaf leaf).bits = some bits ↔ ∃ l w, leaf = some ⟨l, w⟩ ∧ l.fromBit = bits := by
  cases leaf with
  | none => simp [Report.ofLeaf, Report.unmapped]
  | some leaf =>
    obtain ⟨l, w⟩ := leaf
    simp [Report.ofLeaf]

theorem Level.depth_le_iff {l l' : Level} : l.depth ≤ l'.depth ↔ l'.fromBit ≤ l.fromBit := by
  cases l <;> cases l' <;> decide

end Reports

/-! ## Mapping -/

section Mapping

variable {mm : PagePool} {m : Mmap} {virt : Nat}

/-- Nothing above level `l` maps `virt`. -/
theorem view_above {l : Level} (hs : ∀ leaf, leafAt mm m virt = some leaf → l.depth ≤ leaf.level.depth) :
    ∀ l' : Level, l'.depth < l.depth → m.view mm (pathTo l' virt) (l'.index virt) = 0 := by
  intro l' habv
  cases hf : leafAt mm m virt with
  | none => exact leafAt_none hf l'
  | some leaf =>
    obtain ⟨-, -, -, hu⟩ := leafAt_some hf
    exact hu l' (lt_of_lt_of_le habv (hs leaf hf))

variable (size : PageSize) (phys : Nat) (attr : AttrType) (cache : MemoryType)

/-- Where no larger page is in the way, a map call walks to the table of its level and tries to fill the
entry there. -/
theorem PageSize.walk (hc : Coherent mm m.live m)
    (hu : ∀ l' : Level, l'.depth < size.level.depth → m.view mm (pathTo l' virt) (l'.index virt) = 0) :
    ∃ name d m', Grown mm virt d m m' ∧ AtTable mm m' size.level virt ∧
      size.map mm virt phys attr cache m = mapLeaf name size.level virt phys attr cache m' := by
  obtain ⟨m₁, hret₁, hg₁, here₁⟩ := mapPdpt_spec virt hc
  cases size with
  | size1g =>
    refine ⟨"map_pdpte", 1, m₁, hg₁, here₁, ?_⟩
    rw [PageSize.map, map1g, bind_of_ok hret₁]
    rfl
  | size2m =>
    obtain ⟨m₂, hg, here, hp⟩ := walkToPd phys attr cache hc (hu .pdpt (by decide))
    exact ⟨"map_pde", 2, m₂, hg, here, hp⟩
  | size4k =>
    obtain ⟨m₂, hret₂, hg₂, here₂, -⟩ := mapPd_spec hg₁.coherent here₁ ((hg₁.view _ _).trans (hu .pdpt (by decide)))
    have hm : m₂.view mm (pathTo .pd virt) (Level.pd.index virt) = 0 := by
      rw [hg₂.view, hg₁.view]
      exact hu .pd (by decide)
    obtain ⟨m₃, hret₃, hg₃, here₃, -⟩ := mapPt_spec hg₂.coherent here₂ hm
    refine ⟨"map_pte", 3, m₃, (hg₁.trans hg₂ (by decide)).trans hg₃ (by decide), here₃, ?_⟩
    rw [PageSize.map, map4k, bind_of_ok hret₁, bind_of_ok hret₂, bind_of_ok hret₃]
    rfl

theorem leafEntry_ne_zero {phys : Nat} {attr : AttrType} {cache : MemoryType} {large : Bool}
    (hgr : attr ≠ .none) : leafEntry phys attr cache large ≠ 0 := by
  have hg : ∃ a, a ∈ attr.accesses := by
    cases attr with
    | none => exact absurd rfl hgr
    | readOnly => exact ⟨.read, by decide⟩
    | writeOnly => exact ⟨.write, by decide⟩
    | executeOnly => exact ⟨.execute, by decide⟩
    | readWrite => exact ⟨.read, by decide⟩
    | readExecute => exact ⟨.read, by decide⟩
    | readWriteExecute => exact ⟨.read, by decide⟩
  obtain ⟨a, hm⟩ := hg
  exact ne_zero_of_isEnabled (a := a) (by simpa using hm)

/-- The leaf that a map call puts in place. -/
def PageSize.leaf (size : PageSize) (phys : Nat) (attr : AttrType) (cache : MemoryType) : Leaf :=
  ⟨size.level, leafEntry phys attr cache (size ≠ .size4k)⟩

/-- A map call fills the entry of its level, or finds it in use and throws. -/
theorem PageSize.map_spec {attr : AttrType}
    (hc : Coherent mm m.live m) (hgr : attr ≠ .none)
    (hs : ∀ leaf, leafAt mm m virt = some leaf → size.level.depth ≤ leaf.level.depth) :
    wp (size.map mm virt phys attr cache)
      (fun _ m' => Refines mm m' ((leafAt mm m).set size.level virt (size.leaf phys attr cache)))
      (fun e m' => e.isExn = true ∧ Refines mm m' (leafAt mm m)) m := by
  have hu := view_above hs
  obtain ⟨name, d, m₁, hg, here, hp⟩ := size.walk phys attr cache hc hu
  rw [wp, hp]
  by_cases zero : m₁.slot mm (pathTo size.level virt) (size.level.index virt) = 0
  · obtain ⟨r, m', hret, hrch⟩ := mapLeaf_spec name (by cases size <;> decide) hg here zero
      fun l' habv => (hg.view _ _).trans (hu l' habv)
    rw [hret]
    have leaf : asLeaf size.level (leafEntry phys attr cache (size.level ≠ .pt)) = size.leaf phys attr cache := by
      rw [asLeaf, if_neg (leafEntry_ne_zero hgr)]
      cases size <;> rfl
    rw [← leaf]
    exact hrch.refines
  · obtain ⟨r, span, hrf⟩ := here.spanAt
    rw [mapLeaf, bind_of_ok span, bind_of_ok hrf.deref, if_pos zero]
    exact ⟨rfl, hg.coherent, hg.leafAt_eq⟩

end Mapping

/-! ## Unmapping, releasing and looking up -/

section Unmapping

variable {mm : PagePool} {m m' : Mmap} {virt : Nat}

theorem write_zero {r : EntryRef} (zero : m.word r.page r.index = 0) : m.write r.page r.index 0 = m := by
  have same := writeWord_self m.word r.page r.index
  rw [zero] at same
  rw [Mmap.write, same]

/-- `unmap` clears the entry its walk stops at. -/
theorem Walk.unmap_eq {l : Level} {r : EntryRef} (walk : Walk mm virt m l r m') :
    unmap mm virt m = .ok () (m'.write r.page r.index 0) := by
  cases walk with
  | pdpt down₁ span₁ stop =>
    rw [unmap, bind_of_ok down₁, bind_of_ok span₁, bind_of_ok (deref_eq r m')]
    split
    · next zero =>
      rw [write_zero zero]
      rfl
    · next hp =>
      rw [if_pos (stop.resolve_left hp)]
      rfl
  | @pd r₁ _ m₁ _ down₁ span₁ hp₁ hs₁ down₂ span₂ stop =>
    rw [unmap, bind_of_ok down₁, bind_of_ok span₁, bind_of_ok (deref_eq r₁ m₁), if_neg hp₁,
      if_neg hs₁, bind_of_ok down₂, bind_of_ok span₂, bind_of_ok (deref_eq r m')]
    split
    · next zero =>
      rw [write_zero zero]
      rfl
    · next hp =>
      rw [if_pos (stop.resolve_left hp)]
      rfl
  | @pt r₁ r₂ _ m₁ m₂ _ down₁ span₁ hp₁ hs₁ down₂ span₂ hp₂ hs₂ down₃ span₃ =>
    rw [unmap, bind_of_ok down₁, bind_of_ok span₁, bind_of_ok (deref_eq r₁ m₁), if_neg hp₁,
      if_neg hs₁, bind_of_ok down₂, bind_of_ok span₂, bind_of_ok (deref_eq r₂ m₂), if_neg hp₂,
      if_neg hs₂, bind_of_ok down₃, bind_of_ok span₃, assign_eq]

theorem unmap_spec (virt : Nat) (hc : Coherent mm m.live m) :
    ∃ m', unmap mm virt m = .ok () m' ∧ Refines mm m' ((leafAt mm m).release virt) := by
  obtain ⟨l, r, m₁, harr⟩ := arrives virt hc
  have leaf := harr.leaf
  refine ⟨_, harr.walk.unmap_eq, ?_⟩
  by_cases zero : m₁.word r.page r.index = 0
  · rw [if_pos zero] at leaf
    simp only [write_zero zero, AddrMap.release, leaf]
    exact ⟨harr.grown.coherent, harr.grown.leafAt_eq⟩
  · rw [if_neg zero] at leaf
    obtain ⟨href, -⟩ := leafAt_write harr.grown.coherent harr.refers harr.inner
      (by rw [← harr.refers.word]; exact harr.stops) (not_isTable_zero _) harr.upper
    simp only [AddrMap.release, leaf]
    rw [harr.grown.leafAt_eq] at href
    exact href

theorem release_refines (virt : Nat) (hc : Coherent mm m.live m) :
    ∃ m', release mm virt m = .ok () m' ∧ Refines mm m' ((leafAt mm m).release virt) := by
  obtain ⟨m', hret, hfre⟩ := release_spec virt hc
  exact ⟨m', hret, hfre.coherent, hfre.leafAt_eq⟩

/-- Look-ups may put empty tables in place; they change no leaf. -/
theorem findLeaf_keeps (virt : Nat) (hc : Coherent mm m.live m) (name : String) :
    wp (findLeaf mm name virt) (fun _ m' => Refines mm m' (leafAt mm m))
      (fun e m' => e.isExn = true ∧ Refines mm m' (leafAt mm m)) m := by
  have hfd := findLeaf_spec virt hc name
  rw [wp]
  cases hres : findLeaf mm name virt m with
  | ok hf m' =>
    rw [hres] at hfd
    exact ⟨hfd.1.coherent, hfd.1.leafAt_eq⟩
  | error e m' =>
    rw [hres] at hfd
    exact ⟨hfd.2.2, hfd.1.coherent, hfd.1.leafAt_eq⟩

end Unmapping

/-! ## Runs -/

namespace MapCall

/-- The partial function after a call that returns. -/
def effect (A : AddrMap) : MapCall → AddrMap
  | map size virt phys attr cache => A.set size.level virt (size.leaf phys attr cache)
  | unmap virt | release virt => A.release virt
  | entry _ | virtToPhys _ | leafFrom _ => A

variable {mm : PagePool} {m m' : Mmap} {call : MapCall}

section

variable (hc : Coherent mm m.live m)

include hc

/-- A call has its effect on the partial function, or it throws and has none. -/
theorem exec_spec (hpp : call.Proper mm m) :
    wp (call.exec mm) (fun _ m' => Refines mm m' (call.effect (leafAt mm m)))
      (fun e m' => e.isExn = true ∧ Refines mm m' (leafAt mm m)) m := by
  cases call with
  | map size virt phys attr cache =>
    obtain ⟨-, -, hgr, hs⟩ := hpp
    simp only [exec, wp_bind, wp_pure]
    refine size.map_spec phys cache hc hgr fun leaf hf => ?_
    rw [Level.depth_le_iff]
    refine hs _ ?_
    rw [report_eq hc, hf]
    rfl
  | unmap virt =>
    obtain ⟨m', hret, href⟩ := unmap_spec virt hc
    rw [exec, wp_of_ok hret]
    exact href
  | release virt =>
    obtain ⟨m', hret, href⟩ := release_refines virt hc
    rw [exec, wp_of_ok hret]
    exact href
  | entry virt =>
    simp only [exec, Ept.entry, wp_bind, wp_pure]
    exact findLeaf_keeps virt hc "entry"
  | virtToPhys virt =>
    simp only [exec, Ept.virtToPhys, wp_bind, wp_pure]
    exact findLeaf_keeps virt hc "virt_to_phys"
  | leafFrom virt =>
    simp only [exec, Ept.leafFrom, wp_bind, wp_pure]
    exact findLeaf_keeps virt hc "from"

/-- A call ends in a coherent map again, and has its effect or none. -/
theorem step_spec (hpp : call.Proper mm m) : ∃ m', step mm m call = some m' ∧ Coherent mm m'.live m' ∧
      (leafAt mm m' = call.effect (leafAt mm m) ∨ leafAt mm m' = leafAt mm m) := by
  have spec := exec_spec hc hpp
  rw [wp] at spec
  rw [step]
  cases hres : call.exec mm m with
  | ok _ m' =>
    rw [hres] at spec
    exact ⟨m', rfl, spec.1, .inl spec.2⟩
  | error e m' =>
    rw [hres] at spec
    cases e with
    | exn what => exact ⟨m', rfl, spec.2.1, .inr spec.2.2⟩
    | fault f => cases spec.1

theorem step_effect (hpp : call.Proper mm m) (next : step mm m call = some m') : Coherent mm m'.live m' ∧
      (leafAt mm m' = call.effect (leafAt mm m) ∨ leafAt mm m' = leafAt mm m) := by
  obtain ⟨m'', hs, spec⟩ := step_spec hc hpp
  obtain rfl := Option.some.inj (hs.symm.trans next)
  exact spec

/-- `unmap` and `release` never throw. -/
theorem step_clears {virt : Nat} (next : step mm m (unmap virt) = some m' ∨ step mm m (release virt) = some m') :
    Refines mm m' ((leafAt mm m).release virt) := by
  rcases next with next | next
  · obtain ⟨m'', hret, href⟩ := unmap_spec virt hc
    simp only [step, exec, hret, Option.some.injEq] at next
    rw [← next]
    exact href
  · obtain ⟨m'', hret, href⟩ := release_refines virt hc
    simp only [step, exec, hret, Option.some.injEq] at next
    rw [← next]
    exact href

end

/-- The maps that proper calls lead to from a new one. -/
def Reachable (mm : PagePool) (m : Mmap) : Prop :=
  ∃ word calls, AllSteps (step mm) (fun m call => call.Proper mm m) (Mmap.init mm word) calls ∧
    run (step mm) (Mmap.init mm word) calls = some m

theorem Reachable.coherent (hr : Reachable mm m) : Coherent mm m.live m := by
  obtain ⟨word, calls, hpp, hre⟩ := hr
  exact run_invariant (I := fun m => Coherent mm m.live m)
    (fun m call m' hc hpp next => (step_effect hc hpp next).1) (init_bare word).1 hpp hre

end MapCall

end Gevisor.Ept
