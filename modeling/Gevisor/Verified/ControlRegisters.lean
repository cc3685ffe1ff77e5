import Gevisor.Vmexit.ControlRegister

/-! # Virtual control registers

With the default delegates the guest cannot tell its control registers from registers that just keep what is
written to them, although bits that the processor requires are always set.
-/

namespace Gevisor.Verified.ControlRegisters

open Lib Vmexit.ControlRegister

/-! ## Masks and shadows -/

variable {f : Fields} {val : Word}

theorem agree_of_not_exits (runs : f.exits val = false) :
    val &&& f.guestHostMask = f.readShadow &&& f.guestHostMask := by
  have same : (val ^^^ f.readShadow) &&& f.guestHostMask = 0 := by simpa [Fields.exits] using runs
  refine BitVec.eq_of_getLsbD_eq fun i _ => ?_
  have bit : ((val ^^^ f.readShadow) &&& f.guestHostMask).getLsbD i = false := by rw [same]; exact BitVec.getLsbD_zero
  rw [BitVec.getLsbD_and, BitVec.getLsbD_xor] at bit
  rw [BitVec.getLsbD_and, BitVec.getLsbD_and]
  cases hm : f.guestHostMask.getLsbD i with
  | false => simp
  | true => simpa [hm] using bit

theorem or_and_not (val mask : Word) : (val &&& mask) ||| (val &&& ~~~mask) = val := by
  ext i hi
  cases hm : mask[i] <;> simp [hm]

theorem masked_and_not (val mask guest : Word) :
    ((guest &&& mask) ||| (val &&& ~~~mask)) &&& ~~~mask = val &&& ~~~mask := by
  ext i hi
  cases hm : mask[i] <;> simp [hm]

/-- A write that the processor completes. -/
theorem read_write (runs : f.exits val = false) : (f.write val).read = val := by
  rw [Fields.read, Fields.write]
  show (f.readShadow &&& f.guestHostMask) ||| (((f.guest &&& f.guestHostMask) ||| (val &&& ~~~f.guestHostMask)) &&& ~~~f.guestHostMask) = val
  rw [masked_and_not, ← agree_of_not_exits runs, or_and_not]

/-- A write that the handler emulates. -/
theorem read_emulated (val mask : Word) : Fields.read ⟨val ||| mask, val, mask⟩ = val := by
  ext i hi
  cases hm : mask[i] <;> simp [Fields.read, hm]

theorem contains_emulated (val mask : Word) : (val ||| mask) &&& mask = mask := by
  ext i hi
  cases hm : mask[i] <;> simp [hm]

theorem contains_write (hc : f.guest &&& f.guestHostMask = f.guestHostMask) :
    (f.write val).guest &&& f.guestHostMask = f.guestHostMask := by
  rw [Fields.write]
  show ((f.guest &&& f.guestHostMask) ||| (val &&& ~~~f.guestHostMask)) &&& f.guestHostMask = f.guestHostMask
  rw [hc]
  ext i hi
  cases hm : f.guestHostMask[i] <;> simp [hm]

/-! ## Emulated writes -/

theorem emulateRdgpr_number (state : SaveState) (gpr : Gpr) : emulateRdgpr state gpr.number = state.read gpr := by
  cases gpr <;> rfl

/-- A delegate that lets the write happen. -/
def Permits (d : Delegate) : Prop := ∀ vmcs info, ∃ vmcs', d vmcs info = (true, vmcs', info) ∧ vmcs'.cr = vmcs.cr

theorem permits_defaultWrcr0Handler : Permits defaultWrcr0Handler := by
  intro vmcs info
  rw [defaultWrcr0Handler, emulateIa32eModeSwitch]
  split
  · split
    · exact ⟨vmcs, rfl, rfl⟩
    · split
      · exact ⟨_, rfl, rfl⟩
      · exact ⟨_, rfl, rfl⟩
  · exact ⟨vmcs, rfl, rfl⟩

/-- The register gets the value with the fixed bits, the shadow the value itself. -/
theorem handleWrcr_cr {d : Delegate} (hp : Permits d) (g : GlobalState) (n : Number) (gpr : Gpr) (vmcs : Vmcs) :
    (handleWrcr g n [d] gpr.number vmcs).cr = Function.update vmcs.cr n
      ⟨vmcs.saveState.read gpr ||| g.fixed0 n, vmcs.saveState.read gpr, (vmcs.cr n).guestHostMask⟩ := by
  rw [handleWrcr, emulateRdgpr_number]
  obtain ⟨vmcs', hc, same⟩ := hp vmcs ⟨vmcs.saveState.read gpr ||| g.fixed0 n, vmcs.saveState.read gpr, false, false⟩
  simp only [callDelegates, hc]
  simp [advance, Vmcs.set, same]

theorem handle_mov (g : GlobalState) (n : Number) (gpr : Gpr) (vmcs : Vmcs) :
    ∃ vmcs', handle g .default ⟨n.number, .movToCr, gpr.number⟩ vmcs = .ok vmcs' ∧ vmcs'.cr = Function.update vmcs.cr n
      ⟨vmcs.saveState.read gpr ||| g.fixed0 n, vmcs.saveState.read gpr, (vmcs.cr n).guestHostMask⟩ := by
  cases n with
  | cr0 => exact ⟨_, rfl, handleWrcr_cr permits_defaultWrcr0Handler g .cr0 gpr vmcs⟩
  | cr4 => exact ⟨_, rfl, handleWrcr_cr (fun vmcs _ => ⟨vmcs, rfl, rfl⟩) g .cr4 gpr vmcs⟩

/-! ## Histories -/

/-- Registers that keep what is written to them. -/
abbrev Plain := Number → Word

def Plain.step (plain : Plain) : Event → Plain
  | .mov n gpr registers _ => Function.update plain n (registers.read gpr)
  | .init => Number.reset

/-- The fixed bits are masked and set, and the guest reads `val`. -/
structure Shows (fixed : Word) (f : Fields) (val : Word) : Prop where
  mask : f.guestHostMask = fixed
  contains : f.guest &&& fixed = fixed
  read : f.read = val

theorem Shows.write {fixed old : Word} (hs : Shows fixed f old) (runs : f.exits val = false) :
    Shows fixed (f.write val) val where
  mask := hs.mask
  contains := hs.mask ▸ contains_write (hs.mask ▸ hs.contains)
  read := read_write runs

theorem shows_emulated (fixed val : Word) : Shows fixed ⟨val ||| fixed, val, fixed⟩ val where
  mask := rfl
  contains := contains_emulated val fixed
  read := read_emulated val fixed

/-- The registers of the guest are `plain`. -/
def Transparent (g : GlobalState) (vmcs : Vmcs) (plain : Plain) : Prop := ∀ n, Shows (g.fixed0 n) (vmcs.cr n) (plain n)

variable {g : GlobalState} {vmcs vmcs' : Vmcs} {plain : Plain}

theorem Transparent.update (ht : Transparent g vmcs plain) {n : Number} {f : Fields} {val : Word}
    (cr : vmcs'.cr = Function.update vmcs.cr n f) (hs : Shows (g.fixed0 n) f val) :
    Transparent g vmcs' (Function.update plain n val) := by
  intro m
  rw [cr]
  by_cases same : m = n
  · subst same
    rw [Function.update_self, Function.update_self]
    exact hs
  · rw [Function.update_of_ne same, Function.update_of_ne same]
    exact ht m

theorem Transparent.step (ht : Transparent g vmcs plain) (e : Event) :
    ∃ vmcs', step g .default vmcs e = .ok vmcs' ∧ Transparent g vmcs' (plain.step e) := by
  cases e with
  | init =>
    refine ⟨handleInit g vmcs, rfl, fun n => ?_⟩
    have mask := (ht n).mask
    show Shows (g.fixed0 n) ⟨n.reset ||| g.fixed0 n, n.reset, (vmcs.cr n).guestHostMask⟩ n.reset
    rw [mask]
    exact shows_emulated _ _
  | mov n gpr registers length =>
    have hs := ht n
    rw [Vmexit.ControlRegister.step]
    by_cases runs : (vmcs.cr n).exits (registers.read gpr) = true
    · rw [if_pos runs]
      obtain ⟨vmcs', hret, cr⟩ :=
        handle_mov g n gpr { vmcs with saveState := registers, vmExitInstructionLength := length }
      refine ⟨vmcs', hret, ht.update cr ?_⟩
      show Shows (g.fixed0 n) ⟨_, _, (vmcs.cr n).guestHostMask⟩ _
      rw [hs.mask]
      exact shows_emulated _ _
    · rw [if_neg runs]
      exact ⟨_, rfl, ht.update rfl (hs.write (Bool.eq_false_of_not_eq_true runs))⟩

theorem transparent_construct (hc : ∀ n, (vmcs.cr n).guest &&& g.fixed0 n = g.fixed0 n) :
    Transparent g (construct g vmcs) fun n => (vmcs.cr n).guest := by
  intro n
  have hf : (construct g vmcs).cr n = ⟨(vmcs.cr n).guest, (vmcs.cr n).guest, g.fixed0 n⟩ := by
    cases n <;> simp [construct, enableExiting, Vmcs.set]
  rw [hf]
  exact ⟨rfl, hc n, or_and_not _ _⟩

/-- No event ends in an exception. -/
def next (g : GlobalState) (vmcs : Vmcs) (e : Event) : Option Vmcs := (step g .default vmcs e).toOption

/-- For all fixed bits, every VMCS in which the guest's registers contain them and every history of moves and
INIT signals. -/
theorem control_registers_transparent (g : GlobalState) (vmcs : Vmcs)
    (contains : ∀ n, (vmcs.cr n).guest &&& g.fixed0 n = g.fixed0 n) (events : List Event) :
    ∃ vmcs', run (next g) (construct g vmcs) events = some vmcs' ∧ ∀ n,
      (vmcs'.cr n).read = events.foldl Plain.step (fun n => (vmcs.cr n).guest) n ∧
      (vmcs'.cr n).guest &&& g.fixed0 n = g.fixed0 n := by
  suffices follows : ∀ events vmcs plain, Transparent g vmcs plain → ∃ vmcs', run (next g) vmcs events = some vmcs' ∧
      Transparent g vmcs' (events.foldl Plain.step plain) by
    obtain ⟨vmcs', reach, transparent⟩ := follows events _ _ (transparent_construct contains)
    exact ⟨vmcs', reach, fun n => ⟨(transparent n).read, (transparent n).contains⟩⟩
  intro events
  induction events with
  | nil => exact fun vmcs plain transparent => ⟨vmcs, rfl, transparent⟩
  | cons e events ih =>
    intro vmcs plain transparent
    obtain ⟨vmcs', returns, transparent'⟩ := transparent.step e
    obtain ⟨last, reach, transparent''⟩ := ih vmcs' _ transparent'
    have first : next g vmcs e = some vmcs' := by
      rw [next, returns]
      rfl
    exact ⟨last, run_cons.mpr ⟨vmcs', first, reach⟩, transparent''⟩

/-- Registers with `val` in `rax`. -/
def inRax (val : Word) : SaveState := ⟨val, 0, 0, 0, 0, 0, 0, 0, 0, 0, 0, 0, 0, 0, 0, 0, 0⟩

/-- Protected mode, paging and VMX are fixed. -/
def pagedMode : GlobalState where
  fixed0
    | .cr0 => 0x80000001
    | .cr4 => 0x2000

def pagedGuest : Vmcs := ⟨fun _ => ⟨0x80002001, 0, 0⟩, 0, 0, false, true, 3, inRax 0⟩

/-- The guest changes CR0, is reset and changes it again. -/
theorem control_registers_transparent_reset : ∃ vmcs', run (next pagedMode) (construct pagedMode pagedGuest)
        [.mov .cr0 .rax (inRax 0x80000011) 3, .init, .mov .cr0 .rax (inRax 0x60000011) 3] = some vmcs' ∧
      (vmcs'.cr .cr0).read = 0x60000011 ∧ (vmcs'.cr .cr0).guest &&& 0x80000001 = 0x80000001 := by
  obtain ⟨vmcs', reach, shown⟩ := control_registers_transparent pagedMode pagedGuest (by intro n; cases n <;> decide)
    [.mov .cr0 .rax (inRax 0x80000011) 3, .init, .mov .cr0 .rax (inRax 0x60000011) 3]
  exact ⟨vmcs', reach, (shown .cr0).1.trans rfl, (shown .cr0).2⟩

end Gevisor.Verified.ControlRegisters
