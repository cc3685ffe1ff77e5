import Gevisor.MemoryManager.Descriptors

/-! # Failing registrations

`add_md` undoes a failed registration by erasing both keys, also when one of them belongs to an earlier
registration. A call with two fresh keys either adds its pair to both maps or changes nothing.
-/

namespace Gevisor.Verified.DescriptorMaps

open Lib MemoryManager

variable {d t : MemoryManager.DescriptorMaps} {call : DescriptorCall}

/-- Both keys are new. -/
def Fresh (d : MemoryManager.DescriptorMaps) : DescriptorCall → Prop
  | .addMd virt phys _ _ _ => d.virtMap virt = none ∧ d.physMap phys = none
  | .removeMd _ _ => True

/-- Only registered pairs are removed. -/
def Registered (d : MemoryManager.DescriptorMaps) : DescriptorCall → Prop
  | .addMd _ _ _ _ _ => True
  | .removeMd virt phys => d.MapsVirt virt phys

/-- After the call the maps are inverse to each other, and they are as before if it fails. -/
def Sound (d : MemoryManager.DescriptorMaps) (call : DescriptorCall) : Prop :=
  wp call.run (fun _ t => t.Inverse) (fun _ t => t.Inverse ∧ t = d) d

/-- What holds between calls. -/
structure Coherent (d : MemoryManager.DescriptorMaps) : Prop where
  inverse : d.Inverse
  aligned : d.Aligned

theorem coherent_empty : Coherent {} where
  inverse virt phys := by
    constructor
    · intro maps
      cases maps
    · intro maps
      cases maps
  aligned _ _ maps := by cases maps

/-- A call with fresh keys, or on a registered pair. -/
theorem Coherent.run (hc : Coherent d) (hreg : Registered d call) (hfr : Fresh d call) :
    wp call.run (fun _ t => Coherent t) (fun _ t => t = d) d := by
  cases call with
  | addMd virt phys attr virtRoom physRoom =>
    obtain ⟨hfe, hf⟩ := hfr
    refine wp_mono (fun _ t ha => ?_) (fun _ t he => ?_) addMd_spec
    · obtain ⟨-, ⟨hv, hp⟩, rfl⟩ := ha
      exact ⟨hc.inverse.add hfe hf, hc.aligned.add hv hp⟩
    · exact he.trans (DescriptorMaps.erase_of_fresh hfe hf)
  | removeMd virt phys =>
    refine wp_mono (fun _ t he => ?_) (fun _ t hfa => hfa.2) removeMd_spec
    subst he
    exact ⟨hc.inverse.erase hreg, hc.aligned.erase⟩

theorem Coherent.step (hc : Coherent d) (hreg : Registered d call) (hfr : Fresh d call)
    (next : d.step call = some t) : Coherent t := by
  have ends := hc.run hreg hfr
  rw [DescriptorMaps.step] at next
  rw [wp] at ends
  cases hres : call.run d with
  | ok a u =>
    rw [hres] at next ends
    cases next
    exact ends
  | error e u =>
    rw [hres] at next ends
    cases next
    rw [ends]
    exact hc

/-- A call that is sound has erased nothing. -/
theorem fresh_of_sound (hso : Sound d call) : Fresh d call := by
  cases call with
  | removeMd virt phys => trivial
  | addMd virt phys attr virtRoom physRoom =>
    have ends := wp_and hso addMd_spec
    simp only [wp] at ends
    cases hres : DescriptorCall.run (.addMd virt phys attr virtRoom physRoom) d with
    | ok a t =>
      rw [hres] at ends
      exact ends.2.1
    | error e t =>
      rw [hres] at ends
      obtain ⟨⟨-, same⟩, he⟩ := ends
      exact DescriptorMaps.fresh_of_erase (he.symm.trans same)

theorem Coherent.sound_iff (hc : Coherent d) (hreg : Registered d call) : Sound d call ↔ Fresh d call := by
  refine ⟨fresh_of_sound, fun hfr => ?_⟩
  refine wp_mono (fun _ t kept => kept.inverse) (fun _ t same => ⟨?_, same⟩) (hc.run hreg hfr)
  rw [same]
  exact hc.inverse

/-- For every sequence of registrations and removals of registered pairs. -/
theorem maps_inverse_iff (calls : List DescriptorCall)
    (allowed : AllSteps DescriptorMaps.step Registered {} calls) :
    AllSteps DescriptorMaps.step Sound {} calls ↔ AllSteps DescriptorMaps.step Fresh {} calls :=
  allSteps_iff (fun _ _ _ coherent registered fresh next => Coherent.step coherent registered fresh next)
    (fun _ _ coherent registered => Coherent.sound_iff coherent registered) coherent_empty allowed

theorem maps_inverse_one_pair :
    AllSteps DescriptorMaps.step Sound {} [.addMd 0x1000 0x2000 3 true true, .removeMd 0x1000 0x2000] ↔
      AllSteps DescriptorMaps.step Fresh {} [.addMd 0x1000 0x2000 3 true true, .removeMd 0x1000 0x2000] := by
  refine maps_inverse_iff _ ⟨trivial, fun t added => ⟨?_, fun _ _ => trivial⟩⟩
  cases added
  exact rfl

/-- The second registration of `0x1000` fails and takes away the first one's entry in one of the two maps. -/
theorem maps_not_inverse :
    ∃ t, run DescriptorMaps.step {} [.addMd 0x1000 0x2000 3 true true, .addMd 0x1000 0x3000 3 true true] = some t ∧
      t.MapsPhys 0x2000 0x1000 ∧ ¬ t.MapsVirt 0x1000 0x2000 := by
  refine ⟨_, rfl, rfl, ?_⟩
  intro maps
  cases maps

/-! ## Conversions -/

theorem virtintToPhysint_iff (hal : d.Aligned) {virt phys : Nat} : virtintToPhysint virt d = .ok phys d ↔
    d.MapsVirt (upper virt 12) (upper phys 12) ∧ lower virt 12 = lower phys 12 := by
  rw [virtintToPhysint, get_bind]
  cases hf : d.virtMap (upper virt 12) with
  | none => simp [DescriptorMaps.MapsVirt, hf, throw_apply]
  | some entry =>
    have maps : d.MapsVirt (upper virt 12) entry.phys := by simp [DescriptorMaps.MapsVirt, hf]
    have hv := page_or_lower_eq_iff (x := virt) (y := phys) (hal _ _ maps).2
    simp [DescriptorMaps.MapsVirt, hf, pure_apply, hv]

theorem physintToVirtint_iff (hc : Coherent d) {virt phys : Nat} : physintToVirtint phys d = .ok virt d ↔
    d.MapsPhys (upper phys 12) (upper virt 12) ∧ lower phys 12 = lower virt 12 := by
  rw [physintToVirtint, get_bind]
  cases hf : d.physMap (upper phys 12) with
  | none => simp [DescriptorMaps.MapsPhys, hf, throw_apply]
  | some entry =>
    have maps : d.MapsPhys (upper phys 12) entry.virt := by simp [DescriptorMaps.MapsPhys, hf]
    have page := (hc.aligned _ _ ((hc.inverse _ _).mpr maps)).1
    have hv := page_or_lower_eq_iff (x := phys) (y := virt) page
    simp [DescriptorMaps.MapsPhys, hf, pure_apply, hv]

/-- As long as the maps are inverse, so are the conversions, at every offset of a page. -/
theorem conversions_inverse (hc : Coherent d) (virt phys : Nat) :
    virtintToPhysint virt d = .ok phys d ↔ physintToVirtint phys d = .ok virt d := by
  rw [virtintToPhysint_iff hc.aligned, physintToVirtint_iff hc, hc.inverse]
  exact and_congr_right fun _ => eq_comm

end Gevisor.Verified.DescriptorMaps
