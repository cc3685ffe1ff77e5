import Gevisor.Ept.Calls

/-! # A map is a partial function

Everything here is said with the look-ups of the code: `report` is what `virt_to_phys`, `from` and
`entry` answer for an address. Behind it stands `leafAt`, on which a call acts at one place only.
-/

namespace Gevisor.Verified

open Gevisor.Lib Gevisor.Ept

variable {mm : PagePool} {m m' : Mmap}

/-- The two addresses lie in one page of `2 ^ bits` bytes. A walk uses 48 address bits. -/
def SamePage (bits a v : Nat) : Prop := a % 2 ^ 48 / 2 ^ bits = v % 2 ^ 48 / 2 ^ bits

/-- The look-ups report a page of this size at `phys`, with the given access bits and memory type. -/
structure ReportsPage (size : PageSize) (phys : Nat) (attr : AttrType) (cache : MemoryType) (r : Report) : Prop where
  phys : r.phys = some phys
  bits : r.bits = some size.bits
  entry : ∃ e, r.entry = some e ∧ (∀ a, e.isEnabled a = decide (a ∈ attr.accesses)) ∧ e.memoryType = cache.val

/-- The address a call is about. -/
def virtOf : MapCall → Nat
  | .map _ virt _ _ _ | .unmap virt | .release virt | .entry virt | .virtToPhys virt | .leafFrom virt => virt

def isLookup : MapCall → Bool
  | .entry _ | .virtToPhys _ | .leafFrom _ => true
  | _ => false

theorem reportsPage_ofLeaf (size : PageSize) {phys : Nat} (attr : AttrType) (cache : MemoryType)
    (hbo : phys < 2 ^ 48) (hal : phys % 2 ^ size.bits = 0) :
    ReportsPage size phys attr cache (.ofLeaf (size.leaf phys attr cache)) where
  phys := by
    have page : phys % 2 ^ 12 = 0 := by
      cases size <;> simp only [PageSize.bits, PageSize.level, Level.fromBit] at hal <;> omega
    have same : phys % 2 ^ 48 / 4096 * 4096 = phys := by omega
    simp only [Report.ofLeaf, PageSize.leaf, leafEntry_physAddr, same]
  bits := rfl
  entry := ⟨_, rfl, fun a => by simp [PageSize.leaf], by simp [PageSize.leaf]⟩

variable {A : AddrMap} {virt a : Nat} {call : MapCall}

/-- Releasing an address removes its own leaf. -/
theorem release_at {leaf : Leaf} (hf : A virt = some leaf)
    (same : SameLeaf leaf.level a virt) : A.release virt a = none := by
  simp only [AddrMap.release, hf, AddrMap.set_same same]

theorem release_outside
    (hout : ∀ leaf, A virt = some leaf → ¬ SameLeaf leaf.level a virt) : A.release virt a = A a := by
  cases hf : A virt with
  | none => simp only [AddrMap.release, hf]
  | some leaf => simp only [AddrMap.release, hf, AddrMap.set_other (hout leaf hf)]

/-- A call leaves alone what is outside the leaf at its address, the one before and the one after. -/
theorem effect_outside (hbe : ∀ leaf, A (virtOf call) = some leaf → ¬ SameLeaf leaf.level a (virtOf call))
    (ha : ∀ leaf, call.effect A (virtOf call) = some leaf → ¬ SameLeaf leaf.level a (virtOf call)) :
    call.effect A a = A a := by
  cases call with
  | map size virt phys attr cache =>
    exact AddrMap.set_other (ha (size.leaf phys attr cache) (AddrMap.set_same (.refl _ _) A _)) A _
  | unmap virt => exact release_outside hbe
  | release virt => exact release_outside hbe
  | entry virt => rfl
  | virtToPhys virt => rfl
  | leafFrom virt => rfl

theorem effect_lookup (look : isLookup call = true) : call.effect A = A := by
  cases call with
  | map | unmap | release => cases look
  | entry | virtToPhys | leafFrom => rfl

/-- In every map that proper calls lead to, the next call again behaves as one on a partial function. -/
theorem map_is_partial_function (reachable : MapCall.Reachable mm m) :
    (∀ call : MapCall, call.Proper mm m → ∃ m', MapCall.step mm m call = some m') ∧
    (∀ size virt phys attr cache r m', (MapCall.map size virt phys attr cache).Proper mm m →
      size.map mm virt phys attr cache m = .ok r m' →
      ∀ a, SamePage size.bits a virt → ReportsPage size phys attr cache (report mm m' a)) ∧
    (∀ call m', call.Proper mm m → MapCall.step mm m call = some m' →
      ∀ a, (∀ bits, (report mm m (virtOf call)).bits = some bits ∨ (report mm m' (virtOf call)).bits = some bits →
        ¬ SamePage bits a (virtOf call)) → report mm m' a = report mm m a) ∧
    (∀ virt m', MapCall.step mm m (.unmap virt) = some m' ∨ MapCall.step mm m (.release virt) = some m' →
      ∀ bits, (report mm m virt).bits = some bits → ∀ a, SamePage bits a virt → report mm m' a = .unmapped) ∧
    (∀ call m', isLookup call = true → MapCall.step mm m call = some m' → ∀ a, report mm m' a = report mm m a) := by
  have coherent := reachable.coherent
  refine ⟨?_, ?_, ?_, ?_, ?_⟩
  · intro call proper
    obtain ⟨m', stepped, -⟩ := MapCall.step_spec coherent proper
    exact ⟨m', stepped⟩
  · intro size virt phys attr cache r m' proper returns a inside
    obtain ⟨-, ⟨bound, aligned⟩, -⟩ := id proper
    have spec := MapCall.exec_spec coherent proper
    simp only [MapCall.exec, wp_bind, wp_pure, wp_of_ok returns] at spec
    rw [report_eq spec.1, spec.2, MapCall.effect, AddrMap.set_same inside]
    exact reportsPage_ofLeaf size attr cache bound aligned
  · intro call m' proper next a outside
    obtain ⟨coherent', effect⟩ := MapCall.step_effect coherent proper next
    simp only [report_eq coherent, report_eq coherent'] at outside ⊢
    rcases effect with effect | effect
    · rw [effect] at outside ⊢
      rw [effect_outside (fun leaf found => outside _ (.inl ?_)) fun leaf found => outside _ (.inr ?_)]
      · rw [found]
        rfl
      · rw [found]
        rfl
    · rw [effect]
  · intro virt m' next bits found a inside
    obtain ⟨coherent', effect⟩ := MapCall.step_clears coherent next
    rw [report_eq coherent, bits_ofLeaf] at found
    obtain ⟨l, w, found, rfl⟩ := found
    rw [report_eq coherent', effect, release_at found inside]
    rfl
  · intro call m' look next a
    have proper : call.Proper mm m := by
      cases call with
      | map => cases look
      | _ => trivial
    obtain ⟨coherent', effect⟩ := MapCall.step_effect coherent proper next
    rw [effect_lookup look, or_self] at effect
    rw [report_eq coherent', report_eq coherent, effect]

/-- A 2M page is mapped into a new map, and every address in it is reported. -/
theorem map_is_partial_function_2m : ∃ m', MapCall.Reachable default (Mmap.init default fun _ _ => 0) ∧
      ReportsPage .size2m 0x400000 .readWrite .writeBack (report default m' 0x3ff000) := by
  have reachable : MapCall.Reachable default (Mmap.init default fun _ _ => 0) := ⟨_, [], trivial, rfl⟩
  have bare : Bare default (Mmap.init default fun _ _ => 0) := init_bare _
  obtain ⟨r, m', returns, -⟩ := @map2m_spec default _ 0x200000 0x400000 .readWrite .writeBack bare.1
    (view_of_slot_zero (bare.2 _ _)) (bare.2 _ _)
  have proper : (MapCall.map .size2m 0x200000 0x400000 .readWrite .writeBack).Proper default
      (Mmap.init default fun _ _ => 0) := by
    refine ⟨by decide, by decide, by decide, fun bits found => ?_⟩
    rw [report_eq bare.1, bare.leafAt_eq] at found
    cases found
  exact ⟨m', reachable, (map_is_partial_function reachable).2.1 .size2m 0x200000 0x400000 .readWrite .writeBack
    r m' proper returns 0x3ff000 rfl⟩

end Gevisor.Verified
