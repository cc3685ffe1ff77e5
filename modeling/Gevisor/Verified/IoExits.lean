import Gevisor.Vmexit.IoInstruction

/-! # Exits of I/O instructions

How often an intercepted instruction is retired, and which delegates an access reaches.
-/

namespace Gevisor.Verified.IoExits

open Lib Vmexit.Io
open Vmexit (HandlerMap lowMask)

variable {δ : Type} {env : Env δ} {h : Handlers δ} {m m' : Machine δ}

/-! ## Retiring the instruction -/

/-- The instruction pointer is at `rip` and the instruction has `len` bytes. -/
def At (rip len : BitVec 64) (v : Vcpu) : Prop := v.saveState.rip = rip ∧ v.exitInstructionLength = len

/-- Delegates that do not move the instruction pointer themselves and, if one of them accepts, do not ask for it to
be left where it is. -/
def Plain (env : Env δ) (h : Handlers δ) : Prop :=
  ∀ port ds info m rip len, h.inHandlers port = some ds → info.ignoreAdvance = false → At rip len m.vcpu →
    wp (runDelegates env ds info)
      (fun result m' => result.1 = true → result.2.ignoreAdvance = false ∧ At rip len m'.vcpu) (fun _ _ => True) m

section Accesses

variable {rip len : BitVec 64} {mm : PagePool}

theorem onHost_at {α : Type} (c : Host.HostM α) : Preserves (At rip len) (onHost c) := by
  rw [onHost]
  refine .zoom ?_ c
  exact fun _ _ at_ => at_

variable (info : Info)

theorem withOperand_at {α : Type} {scope : Host.UniqueMap → EStateM Err Vcpu α}
    (hkp : ∀ map, Preserves (At rip len) (scope map)) : Preserves (At rip len) (withOperand mm info scope) :=
  .bind .get fun _ => .bind (onHost_at _) fun map => .ensuring (hkp map) (onHost_at _)

theorem access_at (virt n : Nat) : Preserves (At rip len) (access mm virt n) := by
  intro v at_
  simp only [wp, access]
  cases translateBytes mm v.host.mmap virt n with
  | none => exact at_
  | some bytes => exact at_

theorem loadOperand_at : Preserves (At rip len) (loadOperand mm info) := by
  refine .ite (fun _ => ?_) fun _ => .bind .get fun _ => .pure _
  refine withOperand_at info fun map => .bind (.bind (access_at _ _) fun _ => ?_) fun _ => .pure _
  exact .bind .get fun _ => .pure _

theorem storeOperand_at : Preserves (At rip len) (storeOperand mm info) := by
  refine .ite (fun _ => ?_) fun _ => .modify fun _ at_ => at_
  refine withOperand_at info fun map => .bind (access_at _ _) fun _ => ?_
  exact .modify fun _ at_ => at_

/-- Reading the operand changes nothing in the `info_t` but the value. -/
theorem loadOperand_info (v : Vcpu) :
    wp (loadOperand mm info) (fun info' _ => ∃ val, info' = { info with val := val }) (fun _ _ => True) v := by
  rw [loadOperand, wp_ite]
  split
  · simp only [withOperand, wp_bind, wp_get, wp_ensuring, wp_pure]
    refine wp_mono (fun map v₁ _ => ?_) (fun _ _ _ => trivial) (wp_true _ v)
    refine wp_mono (fun val v₂ _ => ?_) (fun e v₂ _ => ?_) (wp_true _ v₁)
    · exact wp_mono (fun _ _ _ => ⟨_, rfl⟩) (fun _ _ _ => trivial) (wp_true _ v₂)
    · split
      · exact wp_true _ v₂
      · trivial
  · exact ⟨_, rfl⟩

end Accesses

/-- What an operand is fetched with, and what it is written with. -/
structure Access (rip len : BitVec 64) (fetch : Info → EStateM Err Vcpu Info) (write : Info → EStateM Err Vcpu Unit) :
    Prop where
  fetches : ∀ info, Preserves (At rip len) (fetch info)
  info : ∀ info v, wp (fetch info) (fun info' _ => ∃ val, info' = { info with val := val }) (fun _ _ => True) v
  writes : ∀ info, Preserves (At rip len) (write info)

theorem access_in (env : Env δ) (rip len : BitVec 64) : Access rip len (emulateIn env) (storeOperand env.mm) where
  fetches _ _ at_ := at_
  info _ _ := ⟨_, rfl⟩
  writes := storeOperand_at

theorem access_out (env : Env δ) (rip len : BitVec 64) : Access rip len (loadOperand env.mm) emulateOut where
  fetches := loadOperand_at
  info := loadOperand_info
  writes _ _ at_ := at_

variable {rip len : BitVec 64} {write : Info → EStateM Err Vcpu Unit} {info : Info}

theorem complete_advances
    (hw : Preserves (At rip len) (write info)) (once : info.ignoreAdvance = false) {v : Vcpu} (at_ : At rip len v) :
    wp (complete write info) (fun _ v' => At (rip + len) len v') (fun _ _ => True) v := by
  have hwr : wp (putOperand write info) (fun _ v' => At rip len v') (fun _ _ => True) v := by
    rw [putOperand, wp_ite]
    split
    · exact at_
    · exact wp_mono (fun _ _ kept => kept) (fun _ _ _ => trivial) (hw v at_)
  rw [complete, wp_bind, retire, once]
  refine wp_mono (fun _ v' at_ => ?_) (fun _ _ _ => trivial) hwr
  exact ⟨congrArg₂ (· + ·) at_.1 at_.2, at_.2⟩

/-- One access moves the instruction pointer once. -/
theorem dispatch_advances (hp : Plain env h) {fetch : Info → EStateM Err Vcpu Info}
    (ha : Access rip len fetch write) (name : String) (once : info.ignoreAdvance = false)
    (at_ : At rip len m.vcpu) :
    wp (dispatch env (h.inHandlers info.portNumber) fetch write name info)
      (fun info' m' => info'.ignoreAdvance = false ∧ At (rip + len) len m'.vcpu) (fun _ _ => True) m := by
  cases hf : h.inHandlers info.portNumber with
  | none => trivial
  | some ds =>
    simp only [dispatch, onVcpu, wp_bind, wp_zoom, wp_ite]
    refine wp_mono ?_ (fun _ _ _ => trivial) (wp_and (ha.fetches info m.vcpu at_) (ha.info info m.vcpu))
    rintro _ v₁ ⟨at₁, val, rfl⟩
    refine wp_mono ?_ (fun _ _ _ => trivial) (hp _ ds { info with val := val } { m with vcpu := v₁ } rip len hf once at₁)
    rintro ⟨hacc, info'⟩ m₂ ends
    split
    · next hac =>
      obtain ⟨once', at₂⟩ := ends hac
      exact wp_mono (fun _ _ hm => ⟨once', hm⟩) (fun _ _ _ => trivial) (complete_advances (ha.writes info') once' at₂)
    · trivial

/-- Every round of the loop moves the instruction pointer. -/
theorem repeatAccess_advances (hp : Plain env h) (direction : Direction) (len : BitVec 64) (n : Nat)
    (once : info.ignoreAdvance = false) (at_ : At rip len m.vcpu) :
    wp (repeatAccess env h direction n info) (fun _ m' => At (rip + BitVec.ofNat 64 n * len) len m'.vcpu)
      (fun _ _ => True) m := by
  induction n generalizing m info rip with
  | zero =>
    show At _ _ _
    rw [show rip + BitVec.ofNat 64 0 * len = rip by simp]
    exact at_
  | succ n ih =>
    have next : rip + len + BitVec.ofNat 64 n * len = rip + BitVec.ofNat 64 (n + 1) * len := by
      rw [BitVec.ofNat_add, BitVec.add_mul, BitVec.one_mul, BitVec.add_assoc, BitVec.add_comm len]
    have first : wp (handleAccess env h direction info)
        (fun info' m' => info'.ignoreAdvance = false ∧ At (rip + len) len m'.vcpu) (fun _ _ => True) m := by
      cases direction with
      | input => exact dispatch_advances hp (access_in env rip len) "handle_in" once at_
      | output => exact dispatch_advances hp (access_out env rip len) "handle_out" once at_
    rw [repeatAccess, wp_bind, ← next]
    refine wp_mono ?_ (fun _ _ _ => trivial) first
    rintro info' m' ⟨once', at'⟩
    exact ih once' at'

theorem handle_advances (hp : Plain env h) (m : Machine δ) :
    wp (handle env h) (fun _ m' => m'.vcpu.saveState.rip =
      m.vcpu.saveState.rip + BitVec.ofNat 64 (repetitions m.vcpu) * m.vcpu.exitInstructionLength) (fun _ _ => True) m := by
  have once : (infoOf m.vcpu).ignoreAdvance = false := rfl
  have at_ : At m.vcpu.saveState.rip m.vcpu.exitInstructionLength m.vcpu := ⟨rfl, rfl⟩
  rw [handle, wp_bind, wp_get, wp_bind]
  exact wp_mono (fun _ _ hm => hm.1) (fun _ _ _ => trivial)
    (repeatAccess_advances hp (directionOfAccess m.vcpu.exitQualification) _ (repetitions m.vcpu) once at_)

theorem repetitions_lt (v : Vcpu) : repetitions v < 2 ^ 32 := by
  rw [repetitions]
  split
  · have hbo : (v.saveState.rcx &&& lowMask).toNat ≤ lowMask.toNat := by
      rw [BitVec.toNat_and]
      exact Nat.and_le_right
    have mask : lowMask.toNat = 2 ^ 32 - 1 := by decide
    omega
  · decide

/-- Instructions have up to fifteen bytes. -/
theorem advanced_once_iff (plain : Plain env h) {b : Bool} (returns : handle env h m = .ok b m')
    (bytes : 1 ≤ m.vcpu.exitInstructionLength.toNat ∧ m.vcpu.exitInstructionLength.toNat ≤ 15) :
    m'.vcpu.saveState.rip = m.vcpu.saveState.rip + m.vcpu.exitInstructionLength ↔ repetitions m.vcpu = 1 := by
  have moved := handle_advances plain m
  rw [wp_of_ok returns] at moved
  have few := repetitions_lt m.vcpu
  rw [moved, BitVec.add_right_inj]
  constructor
  · intro same
    -- The product does not wrap around.
    have product := congrArg BitVec.toNat same
    rw [BitVec.toNat_mul, BitVec.toNat_ofNat, Nat.mod_eq_of_lt (show repetitions m.vcpu < 2 ^ 64 by omega)] at product
    have bound : repetitions m.vcpu * m.vcpu.exitInstructionLength.toNat ≤ repetitions m.vcpu * 15 :=
      Nat.mul_le_mul_left _ bytes.2
    rw [Nat.mod_eq_of_lt (by omega)] at product
    exact Nat.eq_of_mul_eq_mul_right bytes.1 (product.trans (Nat.one_mul _).symm)
  · intro one
    rw [one]
    exact BitVec.one_mul _

/-- A delegate that takes every access on itself. -/
def acceptAll : Env Unit where
  mm := default
  call _ info := pure (true, { info with ignoreWrite := true })
  device _ _ _ := 0

theorem acceptAll_plain (h : Handlers Unit) : Plain acceptAll h := by
  intro port ds info m rip len _ once at_
  cases ds with
  | nil => exact fun ha => absurd ha Bool.false_ne_true
  | cons d ds => exact fun _ => ⟨once, at_⟩

/-- REP INSB from port 0x60, an instruction of two bytes, with `rcx` as given. -/
def insb (rcx : BitVec 64) : Machine Unit where
  vcpu :=
    { saveState := { rax := 0, rbx := 0, rcx := rcx, rdx := 0x60, rip := 0x1000 }
      exitInstructionLength := 2
      exitQualification := 0x38
      guestLinearAddress := 0x5000
      guestCr3 := 0x1000
      host := Host.Host.init default fun _ _ => 0
      memory := fun _ => 0
      ports := []
      touched := [] }
  called := []

def atPort60 : Handlers Unit := registered [(0x60, (), ())]

theorem advanced_once_single : repetitions (insb 1).vcpu = 1 ∧ ∃ m', handle acceptAll atPort60 (insb 1) = .ok true m' ∧
      m'.vcpu.saveState.rip = (insb 1).vcpu.saveState.rip + (insb 1).vcpu.exitInstructionLength := by
  have once : repetitions (insb 1).vcpu = 1 := by decide
  refine ⟨once, _, rfl, ?_⟩
  exact (advanced_once_iff (acceptAll_plain atPort60) rfl (by decide)).mpr once

/-- Two bytes are read, and the instruction pointer ends two instructions further on. -/
theorem advanced_twice : ∃ m', handle acceptAll atPort60 (insb 2) = .ok true m' ∧
      m'.vcpu.saveState.rip = (insb 2).vcpu.saveState.rip + 2 * (insb 2).vcpu.exitInstructionLength ∧
      m'.vcpu.saveState.rip ≠ (insb 2).vcpu.saveState.rip + (insb 2).vcpu.exitInstructionLength :=
  ⟨_, rfl, by decide, by decide⟩

/-! ## The delegates that are called -/

/-- The delegates of a list up to and including the first that accepts, or throws. -/
def upToFirst (env : Env δ) : List δ → Info → Vcpu → List δ
  | [], _, _ => []
  | d :: ds, info, v => match env.call d info v with
    | .ok (true, _) _ => [d]
    | .ok (false, info') v' => d :: upToFirst env ds info' v'
    | .error _ _ => [d]

/-- How the operand of an access is fetched. -/
def fetch (env : Env δ) : Direction → Info → EStateM Err Vcpu Info
  | .input => emulateIn env
  | .output => loadOperand env.mm

/-- The entry of a map for a list of delegates. -/
def entry : List δ → Option (List δ)
  | [] => none
  | d :: ds => some (d :: ds)

variable (calls : List (BitVec 64 × δ × δ)) (call : BitVec 64 × δ × δ) (port : BitVec 64) (direction : Direction)

/-- The delegates that an access calls if it runs through `ds`. -/
def reached (env : Env δ) (ds : List δ) (direction : Direction) (info : Info) (v : Vcpu) : List δ :=
  match fetch env direction info v with
  | .ok info' v' => upToFirst env ds info' v'
  | .error _ _ => []

end Gevisor.Verified.IoExits
