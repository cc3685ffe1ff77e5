import Gevisor.Vmm.Effects

/-! # Registering and trapping the EPC

What `add_epc_address_2m` and `trap_enclave_entry_new_2m` do, and where exactly they stop: at a frame that is
not mapped they throw, at the end of an array they fault.
-/

namespace Gevisor.Vmm

open Gevisor.Lib
open Gevisor.Ept

/-- The frame of `a` is one large page that cannot be executed. -/
def Trapped (A : AddrMap) (a : Nat) : Prop := ∃ e, A a = some ⟨.pd, e⟩ ∧ e.isEnabled .execute = false

section Trapped

variable {A : AddrMap} {a : Nat}

theorem Trapped.merged (ht : Trapped A a) (v : Nat) : Trapped (A.merged v) a := by
  obtain ⟨e, hf, clear⟩ := ht
  exact ⟨e, AddrMap.merged_large hf, clear⟩

theorem Trapped.updated (ht : Trapped A a) (v : Nat) {changes : List Change}
    (hkp : ∀ e : Entry, e.isEnabled .execute = false → (applyChanges changes e).isEnabled .execute = false) :
    Trapped (A.updated v changes) a := by
  obtain ⟨e, hf, clear⟩ := ht
  refine ⟨_, AddrMap.updated_level hf, ?_⟩
  by_cases same : SameLeaf .pd a v
  · rw [if_pos same]
    exact hkp e clear
  · rw [if_neg same]
    exact clear

theorem trapped_self {e : Entry} (hl : A a = some ⟨.pd, e⟩) : Trapped (A.updated a [.disable .execute]) a := by
  refine ⟨_, AddrMap.updated_level hl, ?_⟩
  simp [SameLeaf.refl, applyChanges, Change.apply]

end Trapped

section Specs

variable {A : AddrMap} {g : Globals}

/-- `g` with the first `n` frames of the EPC added. -/
def withFrames (g : Globals) (n : Nat) : Globals :=
  { g with
    sgxPaddrs := fun k =>
      if g.countSgxPaddrs ≤ k ∧ k < g.countSgxPaddrs + n then frameAddress g.epcBaseAddress (k - g.countSgxPaddrs)
      else g.sgxPaddrs k
    countSgxPaddrs := g.countSgxPaddrs + n }

theorem withFrames_zero (g : Globals) : withFrames g 0 = g := by
  have hp : (withFrames g 0).sgxPaddrs = g.sgxPaddrs := funext fun k => if_neg (by omega)
  exact congrArg (fun p => { g with sgxPaddrs := p }) hp

theorem withFrames_succ (g : Globals) (n : Nat) :
    withFrames g (n + 1) = noteSgxPaddr (frameAddress g.epcBaseAddress n) (withFrames g n) := by
  have hp : (withFrames g (n + 1)).sgxPaddrs =
      Function.update (withFrames g n).sgxPaddrs (g.countSgxPaddrs + n) (frameAddress g.epcBaseAddress n) := by
    funext k
    by_cases last : k = g.countSgxPaddrs + n
    · subst last
      rw [Function.update_self]
      simp [withFrames]
    · rw [Function.update_of_ne last]
      have same : (g.countSgxPaddrs ≤ k ∧ k < g.countSgxPaddrs + (n + 1)) ↔
          (g.countSgxPaddrs ≤ k ∧ k < g.countSgxPaddrs + n) := by omega
      simp only [withFrames, same]
  exact congrArg (fun p => { g with sgxPaddrs := p, countSgxPaddrs := g.countSgxPaddrs + (n + 1) }) hp

theorem addEpcAddress2m_spec (mtrrs : Mtrrs) (hid : IsIdentity maxPhysAddr A) (g : Globals) :
    wp (addEpcAddress2m (addrMapOps mtrrs)) (fun _ t => t.g = withFrames g (epcFrames g.epcSize) ∧
        ∀ i < epcFrames g.epcSize, frameAddress g.epcBaseAddress i % 2 ^ 48 < maxPhysAddr ∧
          g.countSgxPaddrs + i < sgxPages)
      (fun e t => ∃ n < epcFrames g.epcSize, t.g = withFrames g n ∧
        (∀ i < n, frameAddress g.epcBaseAddress i % 2 ^ 48 < maxPhysAddr ∧ g.countSgxPaddrs + i < sgxPages) ∧
        (e.isExn = true ∧ ¬ frameAddress g.epcBaseAddress n % 2 ^ 48 < maxPhysAddr ∨
          e = .fault (.outOfBounds .sgxPaddrs (g.countSgxPaddrs + n)) ∧
            frameAddress g.epcBaseAddress n % 2 ^ 48 < maxPhysAddr ∧ ¬ g.countSgxPaddrs + n < sgxPages)) ⟨A, g⟩ := by
  rw [addEpcAddress2m, wp_bind, wp_getG]
  refine wp_loop (fun n t => IsIdentity maxPhysAddr t.guestMap ∧ t.g = withFrames g n ∧
      ∀ i < n, frameAddress g.epcBaseAddress i % 2 ^ 48 < maxPhysAddr ∧ g.countSgxPaddrs + i < sgxPages)
    ⟨hid, (withFrames_zero g).symm, fun i hb => by omega⟩ (fun n t hbo hbe => ?_) fun t ha => ha.2
  obtain ⟨A', _⟩ := t
  obtain ⟨hid', rfl, done⟩ := hbe
  have word : frameAddress g.epcBaseAddress n < 2 ^ 64 := Nat.mod_lt _ (by decide)
  rw [wp_bind]
  cases ensure2m_cases mtrrs (withFrames g n) hid' (frameAddress g.epcBaseAddress n) with
  | inl hret =>
    obtain ⟨hret, hi⟩ := hret
    rw [wp_of_ok hret, addSgxPaddr, wp_bind, wp_getG, wp_bind, wp_checkIndex]
    split
    · next room =>
      refine ⟨hid'.merged (by decide), (withFrames_succ g n).symm, fun i hb => ?_⟩
      cases Nat.lt_or_eq_of_le (Nat.le_of_lt_succ hb) with
      | inl less => exact done i less
      | inr heq =>
        subst heq
        exact ⟨hi, room⟩
    · next full => exact ⟨n, hbo, rfl, done, .inr ⟨rfl, hi, full⟩⟩
  | inr hth =>
    obtain ⟨e, hth, exn, hout⟩ := hth
    rw [wp_of_error hth]
    exact ⟨n, hbo, rfl, done, .inl ⟨exn, hout word⟩⟩

/-- Only the shadow entries are written. -/
theorem trapEnclaveEntryNew2m_spec (mtrrs : Mtrrs) (hid : IsIdentity maxPhysAddr A) (g : Globals) :
    wp (trapEnclaveEntryNew2m (addrMapOps mtrrs))
      (fun _ t => IsIdentity maxPhysAddr t.guestMap ∧ (∃ shadow, t.g = { g with sgxGuestPteShadow := shadow }) ∧
        ∀ k < g.countSgxPaddrs, Trapped t.guestMap (g.sgxPaddrs k))
      (fun e t => (∃ shadow, t.g = { g with sgxGuestPteShadow := shadow }) ∧
        if e.isExn = true then ∃ k < g.countSgxPaddrs, ¬ g.sgxPaddrs k < maxPhysAddr
        else sgxPages < g.countSgxPaddrs) ⟨A, g⟩ := by
  rw [trapEnclaveEntryNew2m, wp_bind, wp_getG]
  -- What has been trapped stays trapped while further frames are merged and trapped.
  refine wp_loop (fun n t => IsIdentity maxPhysAddr t.guestMap ∧
      (∃ shadow, t.g = { g with sgxGuestPteShadow := shadow }) ∧ ∀ k < n, Trapped t.guestMap (g.sgxPaddrs k))
    ⟨hid, ⟨g.sgxGuestPteShadow, rfl⟩, fun k hb => by omega⟩ (fun n t hbo hbe => ?_) fun t ha => ha
  obtain ⟨A', _⟩ := t
  obtain ⟨hid', ⟨shadow, rfl⟩, done⟩ := hbe
  rw [wp_bind, wp_checkIndex]
  split
  case isFalse full =>
    refine ⟨⟨shadow, rfl⟩, ?_⟩
    have full : ¬ n < sgxPages := full
    have hbo : n < g.countSgxPaddrs := hbo
    simp only [Err.isExn, Bool.false_eq_true, if_false]
    omega
  case isTrue room =>
  rw [wp_bind, wp_getG, wp_bind]
  cases ensure2m_cases mtrrs { g with sgxGuestPteShadow := shadow } hid' (g.sgxPaddrs n) with
  | inr hth =>
    obtain ⟨e, hth, exn, hout⟩ := hth
    rw [wp_of_error hth, if_pos exn]
    refine ⟨⟨shadow, rfl⟩, n, hbo, fun hb => ?_⟩
    have hs : g.sgxPaddrs n % 2 ^ 48 = g.sgxPaddrs n := by
      simp only [maxPhysAddr] at hb
      omega
    exact hout (by simp only [maxPhysAddr] at hb; omega) (hs.symm ▸ hb)
  | inl hret =>
    obtain ⟨hret, hi⟩ := hret
    obtain ⟨e, hl⟩ := merged_large_at hid' hi
    have hkp (leaf : Leaf) (hf : A'.merged (g.sgxPaddrs n) (g.sgxPaddrs n) = some leaf) :
        KeepsSmall [.disable .execute] leaf := by
      cases hl.symm.trans hf
      intro hsm
      cases hsm
    have hid'' := hid'.merged (v := g.sgxPaddrs n) (by decide)
    rw [wp_of_ok hret, wp_bind, wp_of_ok (entryValue_mapped hl), wp_bind, wp_checkIndex]
    rw [if_pos (show n < arrayLength .sgxGuestPteShadow from room), wp_bind, wp_modifyG,
      wp_of_ok (update_mapped hid'' hl (hkp _ hl))]
    refine ⟨hid''.updated hkp, ⟨_, rfl⟩, fun k hb => ?_⟩
    cases Nat.lt_or_eq_of_le (Nat.le_of_lt_succ hb) with
    | inl less =>
      refine ((done k less).merged _).updated _ fun e clear => ?_
      simp [applyChanges, Change.apply, clear]
    | inr heq =>
      subst heq
      exact trapped_self hl

end Specs

end Gevisor.Vmm
