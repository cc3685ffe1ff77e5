import Gevisor.Vmm.Steps

/-! # Data violations

What the handlers of read and write violations do to the map, whether they return or throw: at an address
that is not mapped there is no leaf to change.
-/

namespace Gevisor.Vmm

open Gevisor.Lib
open Gevisor.Ept

section Updates

variable {mtrrs : Mtrrs} {A : AddrMap} {g : Globals} {v c : Nat} {changes : List Change}

/-- Without a leaf at `v` there is none that shares a frame with it. -/
theorem updated_unmapped (hid : IsIdentity maxPhysAddr A) (hab : A v = none) (changes : List Change) :
    A.updated v changes = A := by
  funext a
  cases hf : A a with
  | none => rw [AddrMap.updated, hf, Option.map_none]
  | some leaf =>
    rw [AddrMap.updated, hf, Option.map_some, if_neg]
    intro same
    cases hab.symm.trans (hid.uniform hf same.symm)

theorem grant_keepsSmall (hgr : Grants changes) {a : Nat} {leaf : Leaf} (hid : IdentityLeaf a leaf) :
    KeepsSmall changes leaf := by
  refine keepsSmall leaf (fun e hex => ?_) hid
  cases hgr <;> simp [applyChanges, Change.apply, hex]

theorem grant_identity (hgr : Grants changes) (hid : IsIdentity maxPhysAddr A) (v : Nat) :
    IsIdentity maxPhysAddr (A.updated v changes) :=
  hid.updated fun _ hf => grant_keepsSmall hgr (hid.leaf hf)

theorem grant_spec (mtrrs : Mtrrs) (hgr : Grants changes) (hid : IsIdentity maxPhysAddr A) (v : Nat) (g : Globals) :
    wp (onMap ((addrMapOps mtrrs).updateEntry v changes)) (fun _ t => t = ⟨A.updated v changes, g⟩)
      (fun _ t => t = ⟨A.updated v changes, g⟩) ⟨A, g⟩ := by
  cases hf : A v with
  | none =>
    rw [wp_of_error (update_unmapped hf), updated_unmapped hid hf]
  | some leaf =>
    rw [wp_of_ok (update_mapped hid hf (grant_keepsSmall hgr (hid.leaf hf)))]

/-- Granting access once more changes nothing. -/
theorem updated_both_again (A : AddrMap) (c : Nat) :
    (A.updated c [.enable .read, .enable .write]).updated c [.enable .read, .enable .write] =
      A.updated c [.enable .read, .enable .write] := by
  have ha (e : Entry) : applyChanges [.enable .read, .enable .write] (applyChanges [.enable .read, .enable .write] e) =
      applyChanges [.enable .read, .enable .write] e := by
    ext i hb
    simp [applyChanges, Change.apply, Entry.enable, setBit, Access.bit]
    grind
  funext a
  cases hf : A a with
  | none => simp only [AddrMap.updated, hf, Option.map_none]
  | some leaf =>
    obtain ⟨l, e⟩ := leaf
    rw [AddrMap.updated_level (AddrMap.updated_level hf), AddrMap.updated_level hf]
    by_cases same : SameLeaf l a c
    · simp only [if_pos same, ha]
    · simp only [if_neg same]

theorem grantPermissionChannel_mapped (mtrrs : Mtrrs) (hid : IsIdentity maxPhysAddr A)
    (hmap : g.channelPaddr % 2 ^ 48 < maxPhysAddr) :
    grantPermissionChannel (addrMapOps mtrrs) ⟨A, g⟩ =
      .ok () ⟨A.updated g.channelPaddr [.enable .read, .enable .write], g⟩ := by
  obtain ⟨leaf, hf⟩ := (hid.domain _).mpr hmap
  exact update_mapped hid hf (grant_keepsSmall .both (hid.leaf hf))

end Updates

section Handlers

variable {A : AddrMap} {g : Globals}

/-- The globals differ in memory and vCPUs only. -/
def SameTracking (g g' : Globals) : Prop := ∃ mem vcpus, g' = { g with mem := mem, vcpus := vcpus }

theorem eptReadViolationHandler_spec (mtrrs : Mtrrs) (hid : IsIdentity maxPhysAddr A) (id : BitVec 64) (gpa : Nat) :
    wp (eptReadViolationHandler (addrMapOps mtrrs) id gpa)
      (fun _ t => t.guestMap = A.updated (align gpa 4096) [.enable .read] ∧ SameTracking g t.g)
      (fun _ t => t.guestMap = A.updated (align gpa 4096) [.enable .read] ∧ SameTracking g t.g) ⟨A, g⟩ := by
  rw [eptReadViolationHandler, wp_bind, enableMonitorTrapFlag, wp_modifyVcpu]
  refine wp_mono ?_ ?_ (grant_spec mtrrs .read hid (align gpa 4096) _)
  · rintro _ _ rfl
    exact ⟨rfl, _, _, rfl⟩
  · rintro _ _ rfl
    exact ⟨rfl, _, _, rfl⟩

/-- The handler grants access to the channel, once or twice, and then sets the write bit. -/
theorem eptWriteViolationHandler_spec (mtrrs : Mtrrs) (hid : IsIdentity maxPhysAddr A)
    (hmap : g.channelPaddr % 2 ^ 48 < maxPhysAddr) (id : BitVec 64) (guest : GuestState) (gpa : Nat) :
    wp (eptWriteViolationHandler (addrMapOps mtrrs) id guest gpa)
      (fun _ t => t.guestMap = (A.updated g.channelPaddr [.enable .read, .enable .write]).updated
        (align gpa 4096) [.enable .write] ∧ SameTracking g t.g)
      (fun _ t => t.guestMap = (A.updated g.channelPaddr [.enable .read, .enable .write]).updated
        (align gpa 4096) [.enable .write] ∧ SameTracking g t.g) ⟨A, g⟩ := by
  have hid' := grant_identity .both hid g.channelPaddr
  have once := grantPermissionChannel_mapped mtrrs hid hmap
  have ht := grantPermissionChannel_mapped mtrrs hid' hmap
  rw [updated_both_again] at ht
  have hg : (grantOnResume (addrMapOps mtrrs) guest >>= fun _ => grantPermissionChannel (addrMapOps mtrrs))
      ⟨A, g⟩ = .ok () ⟨A.updated g.channelPaddr [.enable .read, .enable .write], g⟩ := by
    rw [grantOnResume]
    split
    · rw [bind_of_ok once, ht]
    · exact once
  rw [eptWriteViolationHandler, ← bind_assoc, wp_bind, wp_of_ok hg, wp_bind, enableMonitorTrapFlag, wp_modifyVcpu]
  refine wp_mono ?_ ?_ (grant_spec mtrrs .write hid' (align gpa 4096) _)
  · rintro _ _ rfl
    exact ⟨rfl, _, _, rfl⟩
  · rintro _ _ rfl
    exact ⟨rfl, _, _, rfl⟩

end Handlers

section Steps

variable {platform : Platform} {s t : Machine AddrMap} {id : BitVec 64} {guest : GuestState}
  {qual gva gpa : BitVec 64}

theorem step_read (hid : IsIdentity maxPhysAddr s.guestMap) (read : isBitSet qual 0 = true)
    (next : abstractStep platform s (.exit id guest (.eptViolation qual gva gpa)) = some t) :
    t.guestMap = s.guestMap.updated (align gpa.toNat 4096) [.enable .read] ∧ SameTracking s.g t.g := by
  obtain ⟨A, g⟩ := s
  obtain ⟨-, -, -, hrs⟩ := step_exit_some next
  rw [handle, eptViolationHandle, if_pos read] at hrs
  have hh := eptReadViolationHandler_spec (g := onExit id guest (.eptViolation qual gva gpa) g)
    platform.mtrrs hid id gpa.toNat
  obtain ⟨⟨A', g'⟩, ⟨map, mem, vcpus, rfl⟩, rfl | rfl⟩ := resume_cases (P := fun t => t.guestMap = _ ∧ SameTracking _ t.g)
    hh hrs
  · exact ⟨map, _, _, rfl⟩
  · exact ⟨map, _, _, rfl⟩

theorem step_write (hid : IsIdentity maxPhysAddr s.guestMap)
    (hmap : s.g.channelPaddr % 2 ^ 48 < maxPhysAddr) (hn : isBitSet qual 0 = false)
    (hw : isBitSet qual 1 = true)
    (next : abstractStep platform s (.exit id guest (.eptViolation qual gva gpa)) = some t) :
    t.guestMap = (s.guestMap.updated s.g.channelPaddr [.enable .read, .enable .write]).updated
      (align gpa.toNat 4096) [.enable .write] ∧ SameTracking s.g t.g := by
  obtain ⟨A, g⟩ := s
  obtain ⟨-, -, -, hrs⟩ := step_exit_some next
  rw [handle, eptViolationHandle, if_neg (by simp [hn]), if_pos hw] at hrs
  have hh := eptWriteViolationHandler_spec (g := onExit id guest (.eptViolation qual gva gpa) g)
    platform.mtrrs hid hmap id guest gpa.toNat
  obtain ⟨⟨A', g'⟩, ⟨map, mem, vcpus, rfl⟩, rfl | rfl⟩ := resume_cases (P := fun t => t.guestMap = _ ∧ SameTracking _ t.g)
    hh hrs
  · exact ⟨map, _, _, rfl⟩
  · exact ⟨map, _, _, rfl⟩

end Steps

end Gevisor.Vmm
