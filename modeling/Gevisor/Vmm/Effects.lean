import Gevisor.Ept.Identity
import Gevisor.Vmm.System

/-! # What handlers can do to the abstract machine

On an identity map the two changes handlers make to `g_guest_map` are `AddrMap.updated` and
`AddrMap.merged`. `Steady`, `Closed` and `ClosedAll` collect what a property must survive; the rules below
then carry it through each handler. The updates that some properties do not survive appear as hypotheses
of the handlers that make them.
-/

namespace Gevisor.Vmm

open Gevisor.Lib
open Gevisor.Ept

/-! ## Operations on an identity map -/

section Operations

variable {mtrrs : Mtrrs} {A : AddrMap} {g : Globals} {v : Nat} {changes : List Change}

variable {E α : Type} {leaf : Leaf}

theorem onMap_ok {c : EStateM Err E α} {m m' : E} {a : α} (hret : c m = .ok a m') (g : Globals) :
    onMap c ⟨m, g⟩ = .ok a ⟨m', g⟩ := by
  simp only [onMap, zoom, hret]

theorem onMap_error {c : EStateM Err E α} {m m' : E} {e : Err} (hth : c m = .error e m')
    (g : Globals) : onMap c ⟨m, g⟩ = .error e ⟨m', g⟩ := by
  simp only [onMap, zoom, hth]

theorem update_mapped (hid : IsIdentity maxPhysAddr A) (hf : A v = some leaf) (hkp : KeepsSmall changes leaf) :
    onMap ((addrMapOps mtrrs).updateEntry v changes) ⟨A, g⟩ = .ok () ⟨A.updated v changes, g⟩ :=
  onMap_ok (hid.updateEntry hf hkp) g

theorem update_unmapped (hab : A v = none) :
    onMap ((addrMapOps mtrrs).updateEntry v changes) ⟨A, g⟩ = .error (.exn "entry: not mapped") ⟨A, g⟩ :=
  onMap_error (bind_of_error (AddrMap.lookup_none hab _) _) g

theorem entryValue_mapped (hf : A v = some leaf) :
    onMap ((addrMapOps mtrrs).entryValue v) ⟨A, g⟩ = .ok leaf.entry ⟨A, g⟩ :=
  onMap_ok (bind_of_ok (AddrMap.lookup_some hf "entry") fun leaf => pure leaf.entry) g

theorem leafFrom_mapped (hf : A v = some leaf) :
    onMap ((addrMapOps mtrrs).leafFrom v) ⟨A, g⟩ = .ok leaf.level.fromBit ⟨A, g⟩ :=
  onMap_ok (bind_of_ok (AddrMap.lookup_some hf "from") fun leaf => pure leaf.level.fromBit) g

theorem leafFrom_unmapped (hab : A v = none) :
    onMap ((addrMapOps mtrrs).leafFrom v) ⟨A, g⟩ = .error (.exn "from: not mapped") ⟨A, g⟩ :=
  onMap_error (bind_of_error (AddrMap.lookup_none hab "from") fun leaf => pure leaf.level.fromBit) g

/-- At the very top of the address space a conversion throws. -/
theorem convert4kTo2m_top (hf : A (upper v Level.pd.fromBit) = some leaf) (hs : leaf.level = .pt)
    (top : ¬ v < 2 ^ 64) :
    AddrMap.convert4kTo2m (upper v Level.pd.fromBit) A = .error (.exn "map_pde: map failed") A := by
  have even : ¬ lower (upper v Level.pd.fromBit) Level.pd.fromBit ≠ 0 := by
    simp only [lower, upper, Level.fromBit]
    omega
  have hb : ¬ upper v Level.pd.fromBit + pageSize2m < 2 ^ 64 := by
    simp only [upper, Level.fromBit, pageSize2m]
    omega
  rw [AddrMap.convert4kTo2m, if_neg even, bind_of_ok (AddrMap.lookup_some hf _), if_neg (not_not.mpr hs), if_neg hb]
  rfl

/-- `ensure2m` throws where nothing is mapped and otherwise merges the frame. -/
theorem ensure2m_cases (mtrrs : Mtrrs) (g : Globals) (hid : IsIdentity maxPhysAddr A) (v : Nat) :
    ensure2m (addrMapOps mtrrs) v ⟨A, g⟩ = .ok () ⟨A.merged v, g⟩ ∧ v % 2 ^ 48 < maxPhysAddr ∨
      ∃ e, ensure2m (addrMapOps mtrrs) v ⟨A, g⟩ = .error e ⟨A, g⟩ ∧ e.isExn = true ∧
        (v < 2 ^ 64 → ¬ v % 2 ^ 48 < maxPhysAddr) := by
  have frame : upper v Level.pd.fromBit % 2 ^ 48 < maxPhysAddr ↔ v % 2 ^ 48 < maxPhysAddr := by
    simp only [upper, Level.fromBit, maxPhysAddr]
    omega
  cases hf : A (upper v Level.pd.fromBit) with
  | none =>
    refine .inr ⟨_, bind_of_error (leafFrom_unmapped hf) _, rfl, fun _ hi => ?_⟩
    obtain ⟨leaf, hp⟩ := (hid.domain _).mpr (frame.mpr hi)
    rw [hf] at hp
    cases hp
  | some leaf =>
    have hi := frame.mp ((hid.domain _).mp ⟨leaf, hf⟩)
    rw [ensure2m, bind_of_ok (leafFrom_mapped hf)]
    rcases (hid.leaf hf).level_cases with level | level
    · have here : A v = some leaf := hid.uniform hf (level ▸ (sameLeaf_upper v).symm)
      rw [level, if_neg (by decide), hid.merged_of_large here level]
      exact .inl ⟨rfl, hi⟩
    · rw [level, if_pos rfl]
      by_cases word : v < 2 ^ 64
      · exact .inl ⟨onMap_ok (hid.convert4kTo2m (by decide) (by decide) word hf level) g, hi⟩
      · exact .inr ⟨_, onMap_error (convert4kTo2m_top hf level word) g, rfl, fun hb => absurd hb word⟩

/-- What is in the frame of `v` after `ensure2m` has returned. -/
theorem merged_large_at (hid : IsIdentity maxPhysAddr A) (hi : v % 2 ^ 48 < maxPhysAddr) :
    ∃ e, A.merged v v = some ⟨.pd, e⟩ := by
  obtain ⟨leaf, hf⟩ := (hid.domain v).mpr hi
  exact hid.merged_self hf

end Operations

/-! ## Properties that handlers preserve -/

/-- `g'` differs from `g` at most in bookkeeping: registers of the enclave, buffer descriptions, memory. -/
structure Kept (g g' : Globals) : Prop where
  epcBaseAddress : g'.epcBaseAddress = g.epcBaseAddress
  epcSize : g'.epcSize = g.epcSize
  sgxPaddrs : g'.sgxPaddrs = g.sgxPaddrs
  countSgxPaddrs : g'.countSgxPaddrs = g.countSgxPaddrs
  countGpuBuffers : g'.countGpuBuffers = g.countGpuBuffers
  gpuPaddrs : g'.gpuPaddrs = g.gpuPaddrs
  countGpuPaddrs : g'.countGpuPaddrs = g.countGpuPaddrs
  channelPaddr : g'.channelPaddr = g.channelPaddr
  channelMap : g'.channelMap = g.channelMap
  enclaveRunning : g'.enclaveRunning = g.enclaveRunning
  flagEpc : g'.flagEpc = g.flagEpc
  flagEpt : g'.flagEpt = g.flagEpt
  vcpus : g'.vcpus = g.vcpus

/-- The changes of access bits that take access away or concern execution only. -/
inductive Restricts : List Change → Prop
  | remove : Restricts [.disable .read, .disable .write]
  | trap : Restricts [.disable .execute]
  | untrap : Restricts [.enable .execute]

/-- The changes that give access back. -/
inductive Grants : List Change → Prop
  | both : Grants [.enable .read, .enable .write]
  | read : Grants [.enable .read]
  | write : Grants [.enable .write]

/-- The buffer at `vaddr` has been registered. -/
def BufferKnown (g : Globals) (vaddr : Nat) : Prop := ∃ k < g.countGpuBuffers, (g.gpuBuffers k).vaddr = vaddr

/-- Registering the buffer adds frame `a`: the buffer is new, it has an address, and `a` is one of the
frames that are counted off from there until one is not mapped. -/
def NewFrame (g : Globals) (buf size cr3 a : Nat) : Prop :=
  ¬ BufferKnown g buf ∧ ∃ paddr, customVirtToPhysWithCr3 g.mem buf cr3 = .ok paddr ∧ paddr ≠ 0 ∧
    ∃ i < bufferFrames size, a = frameAddress paddr i ∧
      ∀ j ≤ i, frameAddress paddr j % 2 ^ 48 < maxPhysAddr

/-- The state of the machine between two exits, once the first vCPU has built the map. -/
structure Running (Q : Machine AddrMap → Prop) (s : Machine AddrMap) : Prop where
  epc : s.g.flagEpc = true
  ept : s.g.flagEpt = true
  identity : IsIdentity maxPhysAddr s.guestMap
  holds : Q s

/-- What a property must survive to be kept where buffers are registered and enclave entries trapped. -/
structure Steady (Q : Machine AddrMap → Prop) : Prop where
  kept : ∀ {A g g'}, Kept g g' → Q ⟨A, g⟩ → Q ⟨A, g'⟩
  vcpu : ∀ {A g} id f, (∀ v : Vcpu, (f v).enclsExitingBitmap = v.enclsExitingBitmap) → Q ⟨A, g⟩ →
    Q ⟨A, setVcpu id ((g.vcpus id).map f) g⟩
  registered : ∀ {A g} buffers, g.countGpuBuffers < gpuBufferNum → Q ⟨A, g⟩ →
    Q ⟨A, { g with gpuBuffers := buffers, countGpuBuffers := g.countGpuBuffers + 1 }⟩
  merged : ∀ {A g} v, IsIdentity maxPhysAddr A → Q ⟨A, g⟩ → Q ⟨A.merged v, g⟩
  trapped : ∀ {A g} v, IsIdentity maxPhysAddr A → Q ⟨A, g⟩ → Q ⟨A.updated v [.disable .execute], g⟩

/-- What it must survive besides to be kept by exits that give no access back. -/
structure Closed (Q : Machine AddrMap → Prop) : Prop extends Steady Q where
  recorded : ∀ {A g} paddr, Q ⟨A, g⟩ → Q ⟨A, recordEpcPage paddr g⟩
  running : ∀ {A g} b, Q ⟨A, g⟩ → Q ⟨A, { g with enclaveRunning := b }⟩
  removed : ∀ {A g}, IsIdentity maxPhysAddr A → Q ⟨A, g⟩ →
    Q ⟨A.updated g.channelPaddr [.disable .read, .disable .write], g⟩
  untrapped : ∀ {A g} v, IsIdentity maxPhysAddr A → Q ⟨A, g⟩ → Q ⟨A.updated v [.enable .execute], g⟩

/-- Small leaves stay executable unless the change is the one that traps execution. -/
theorem keepsSmall {changes : List Change} (leaf : Leaf)
    (hkp : ∀ e : Entry, e.isEnabled .execute = true → (applyChanges changes e).isEnabled .execute = true)
    {a : Nat} (hid : IdentityLeaf a leaf) : KeepsSmall changes leaf := by
  intro hs
  rcases hid.shape with ⟨hl, -⟩ | ⟨-, he⟩
  · rw [hs] at hl
    cases hl
  · exact hkp _ he

/-! ### Any property -/

namespace Running

variable {Q : Machine AddrMap → Prop} {mtrrs : Mtrrs}

theorem weaken {R : Machine AddrMap → Prop} {s : Machine AddrMap} (hr : Running Q s) (hi : Q s → R s) :
    Running R s :=
  ⟨hr.epc, hr.ept, hr.identity, hi hr.holds⟩

theorem getG : Preserves (Running Q) (getG : VmmM AddrMap Globals) := fun _ h => h

theorem checkIndex (a : TrackingArray) (i : Nat) : Preserves (Running Q) (checkIndex a i : VmmM AddrMap Unit) :=
  .ite (fun _ => .pure ()) fun _ => .throw _

/-- A change of globals that `Q` survives. -/
theorem modifyG {f : Globals → Globals} (hf : ∀ g, (f g).flagEpc = g.flagEpc ∧ (f g).flagEpt = g.flagEpt)
    (hkp : ∀ {A g}, Q ⟨A, g⟩ → Q ⟨A, f g⟩) : Preserves (Running Q) (modifyG f : VmmM AddrMap Unit) := by
  rintro ⟨A, g⟩ ⟨epc, ept, hid, hh⟩
  exact ⟨(hf g).1.trans epc, (hf g).2.trans ept, hid, hkp hh⟩

variable {v : Nat} {changes : List Change}

/-- An update that `Q` survives in this state. -/
theorem update_at {A : AddrMap} {g : Globals} (hr : Running Q ⟨A, g⟩)
    (hex : ∀ e : Entry, e.isEnabled .execute = true → (applyChanges changes e).isEnabled .execute = true)
    (hkp : IsIdentity maxPhysAddr A → Q ⟨A, g⟩ → Q ⟨A.updated v changes, g⟩) :
    wp (onMap ((addrMapOps mtrrs).updateEntry v changes)) (fun _ => Running Q) (fun _ => Running Q) ⟨A, g⟩ := by
  obtain ⟨epc, ept, hid, hh⟩ := hr
  cases hf : A v with
  | none =>
    rw [wp_of_error (update_unmapped hf)]
    exact ⟨epc, ept, hid, hh⟩
  | some leaf =>
    have hs (leaf : Leaf) (hf : A v = some leaf) := keepsSmall leaf hex (hid.leaf hf)
    rw [wp_of_ok (update_mapped hid hf (hs leaf hf))]
    exact ⟨epc, ept, hid.updated hs, hkp hid hh⟩

/-- An update that `Q` survives. -/
theorem update_of
    (hex : ∀ e : Entry, e.isEnabled .execute = true → (applyChanges changes e).isEnabled .execute = true)
    (hkp : ∀ A g, IsIdentity maxPhysAddr A → Q ⟨A, g⟩ → Q ⟨A.updated v changes, g⟩) :
    Preserves (Running Q) (onMap ((addrMapOps mtrrs).updateEntry v changes)) := by
  rintro ⟨A, g⟩ hr
  exact hr.update_at hex (hkp A g)

theorem remove_at {A : AddrMap} {g : Globals} (hr : Running Q ⟨A, g⟩) {v : Nat}
    (hkp : IsIdentity maxPhysAddr A → Q ⟨A, g⟩ → Q ⟨A.updated v [.disable .read, .disable .write], g⟩) :
    wp (onMap ((addrMapOps mtrrs).updateEntry v [.disable .read, .disable .write])) (fun _ => Running Q)
      (fun _ => Running Q) ⟨A, g⟩ :=
  hr.update_at (fun e hex => by simp [applyChanges, Change.apply, hex]) hkp

theorem remove
    (hkp : ∀ A g, IsIdentity maxPhysAddr A → Q ⟨A, g⟩ → Q ⟨A.updated v [.disable .read, .disable .write], g⟩) :
    Preserves (Running Q) (onMap ((addrMapOps mtrrs).updateEntry v [.disable .read, .disable .write])) := by
  rintro ⟨A, g⟩ hr
  exact hr.remove_at (hkp A g)

theorem removePermissionChannel (hrm : ∀ {A g}, IsIdentity maxPhysAddr A → Q ⟨A, g⟩ →
      Q ⟨A.updated g.channelPaddr [.disable .read, .disable .write], g⟩) :
    Preserves (Running Q) (removePermissionChannel (addrMapOps mtrrs)) := by
  rintro ⟨A, g⟩ hr
  rw [Vmm.removePermissionChannel, changeChannel, wp_bind, wp_getG]
  exact hr.remove_at hrm

/-- The bits that grants set do not include the execute bit. -/
theorem grant (hgr : Grants changes)
    (hkp : ∀ A g, IsIdentity maxPhysAddr A → Q ⟨A, g⟩ → Q ⟨A.updated v changes, g⟩) :
    Preserves (Running Q) (onMap ((addrMapOps mtrrs).updateEntry v changes)) := by
  refine update_of (fun e hex => ?_) hkp
  cases hgr <;> simp [applyChanges, Change.apply, hex]

/-- After the first vCPU, construction only adds a vCPU and removes access to the channel. -/
theorem constructVcpu {platform : Platform} {id : BitVec 64}
    (hc : ∀ {A g}, Q ⟨A, g⟩ → Q ⟨A, setVcpu id (some newVcpu) g⟩)
    (hrm : ∀ {A g}, IsIdentity maxPhysAddr A → Q ⟨A, g⟩ →
      Q ⟨A.updated g.channelPaddr [.disable .read, .disable .write], g⟩) :
    Preserves (Running Q) (constructVcpu (addrMapOps mtrrs) platform id) := by
  have hl : Preserves (Running Q) (locateEpcOnce platform : VmmM AddrMap Unit) := by
    rintro ⟨A, g⟩ hr
    rw [locateEpcOnce, wp_modifyG, if_pos hr.epc]
    exact hr
  have hbt : Preserves (Running Q) (identityMapOnce (addrMapOps mtrrs)) := by
    rintro ⟨A, g⟩ hr
    rw [identityMapOnce, wp_bind, wp_getG, if_pos hr.ept]
    exact hr
  exact .bind (modifyG (fun _ => ⟨rfl, rfl⟩) hc) fun _ => .bind hl fun _ => .bind hbt fun _ =>
    removePermissionChannel hrm

theorem changeGpuBuffers (hu : ∀ v, Preserves (Running Q) (onMap ((addrMapOps mtrrs).updateEntry v changes))) :
    Preserves (Running Q) (changeGpuBuffers (addrMapOps mtrrs) changes) :=
  .bind getG fun _ => .forFrom (fun _ => .bind (checkIndex _ _) fun _ => .bind getG fun _ => hu _) _ _

theorem grantPermissionChannel {c : Nat} (same : ∀ A g, Q ⟨A, g⟩ → g.channelPaddr = c)
    (hkp : ∀ A g, IsIdentity maxPhysAddr A → Q ⟨A, g⟩ → Q ⟨A.updated c [.enable .read, .enable .write], g⟩) :
    Preserves (Running Q) (grantPermissionChannel (addrMapOps mtrrs)) := by
  rintro ⟨A, g⟩ hr
  rw [Vmm.grantPermissionChannel, changeChannel, wp_bind, wp_getG, show (⟨A, g⟩ : Machine AddrMap).g = g from rfl,
    same A g hr.holds]
  exact grant .both hkp _ hr

theorem forEntries {visit : BitVec 64 → VmmM AddrMap Unit} (hv : ∀ pte, Preserves (Running Q) (visit pte))
    (page : Nat) : Preserves (Running Q) (forEntries page visit) :=
  .ite (fun _ => .forFrom (fun _ => .bind getG fun _ => hv _) _ _) fun _ => .throw _

end Running

variable (vaddr i n : Nat) (s : Machine AddrMap)

theorem checkBufferFrom_spec : wp (checkBufferFrom vaddr i n)
      (fun hf t => t = s ∧ (hf = true ↔ ∃ k, i ≤ k ∧ k < i + n ∧ (s.g.gpuBuffers k).vaddr = vaddr))
      (fun e t => t = s ∧ e.isExn = false) s := by
  induction n generalizing i with
  | zero =>
    refine ⟨rfl, iff_of_false Bool.false_ne_true ?_⟩
    rintro ⟨k, hl, hu, -⟩
    omega
  | succ n ih =>
    rw [checkBufferFrom, wp_bind, wp_checkIndex]
    split
    case isFalse => exact ⟨rfl, rfl⟩
    case isTrue =>
    rw [wp_bind, wp_getG, wp_ite]
    split
    · next here => exact ⟨rfl, iff_of_true rfl ⟨i, Nat.le_refl i, by omega, here⟩⟩
    · next ho =>
      refine wp_mono ?_ (fun _ _ h => h) (ih (i + 1))
      rintro hf t ⟨same, hla⟩
      refine ⟨same, hla.trans ⟨?_, ?_⟩⟩
      · rintro ⟨k, hl, hu, here⟩
        exact ⟨k, by omega, by omega, here⟩
      · rintro ⟨k, hl, hu, here⟩
        have : i ≠ k := fun heq => ho (heq ▸ here)
        exact ⟨k, by omega, by omega, here⟩

theorem checkBufferExists_spec :
    wp (checkBufferExists vaddr) (fun hf t => t = s ∧ (hf = true ↔ BufferKnown s.g vaddr))
      (fun e t => t = s ∧ e.isExn = false) s := by
  refine wp_mono ?_ (fun _ _ h => h) (checkBufferFrom_spec vaddr 0 s.g.countGpuBuffers s)
  rintro hf t ⟨same, he⟩
  simpa [BufferKnown] using And.intro same he

/-! ### Trapping and registering -/

namespace Steady

variable {Q : Machine AddrMap → Prop} {mtrrs : Mtrrs}

section

variable (hst : Steady Q)

include hst

theorem modifyG {f : Globals → Globals} (hkp : ∀ g, Kept g (f g)) :
    Preserves (Running Q) (modifyG f : VmmM AddrMap Unit) :=
  Running.modifyG (fun g => ⟨(hkp g).flagEpc, (hkp g).flagEpt⟩) fun {_ g} => hst.kept (hkp g)

variable (id : BitVec 64) (guest : GuestState) (gpa : Nat)

theorem modifyVcpu {f : Vcpu → Vcpu} (hkp : ∀ v, (f v).enclsExitingBitmap = v.enclsExitingBitmap) :
    Preserves (Running Q) (modifyVcpu id f : VmmM AddrMap Unit) :=
  Running.modifyG (fun _ => ⟨rfl, rfl⟩) fun hh => hst.vcpu id f hkp hh

variable {A : AddrMap} {g : Globals}

theorem ensure2m (v : Nat) (hr : Running Q ⟨A, g⟩) :
    wp (ensure2m (addrMapOps mtrrs) v) (fun _ t => Running Q t ∧ t.g = g ∧ ∃ e, t.guestMap v = some ⟨.pd, e⟩)
      (fun _ t => Running Q t ∧ t.g = g) ⟨A, g⟩ := by
  obtain ⟨epc, ept, hid, hh⟩ := hr
  rcases ensure2m_cases mtrrs g hid v with ⟨hre, hi⟩ | ⟨e, ht, -⟩
  · rw [wp_of_ok hre]
    exact ⟨⟨epc, ept, hid.merged (by decide), hst.merged v hid hh⟩, rfl, merged_large_at hid hi⟩
  · rw [wp_of_error ht]
    exact ⟨⟨epc, ept, hid, hh⟩, rfl⟩

/-- An access bit of a large leaf can be changed in any way. -/
theorem trap_large (mtrrs : Mtrrs) {v : Nat} (hr : Running Q ⟨A, g⟩) {e : Entry} (hl : A v = some ⟨.pd, e⟩) :
    onMap ((addrMapOps mtrrs).updateEntry v [.disable .execute]) ⟨A, g⟩ = .ok () ⟨A.updated v [.disable .execute], g⟩ ∧
      Running Q ⟨A.updated v [.disable .execute], g⟩ := by
  obtain ⟨epc, ept, hid, hh⟩ := hr
  have hkp (leaf : Leaf) (hf : A v = some leaf) : KeepsSmall [.disable .execute] leaf := by
    obtain rfl := Option.some.inj (hl.symm.trans hf)
    intro hs
    cases hs
  exact ⟨update_mapped hid hl (hkp _ hl), epc, ept, hid.updated hkp, hst.trapped v hid hh⟩

theorem trapEnclaveEntryNew2m : Preserves (Running Q) (trapEnclaveEntryNew2m (addrMapOps mtrrs)) := by
  refine .bind Running.getG fun _ => .forFrom (fun k => .bind (Running.checkIndex _ _) fun _ => ?_) _ _
  rintro ⟨A, g⟩ hr
  rw [wp_bind, wp_getG, wp_bind]
  refine wp_mono ?_ (fun _ _ h => h.1) (hst.ensure2m (g.sgxPaddrs k) hr)
  rintro _ ⟨A', g'⟩ ⟨hr', -, e, hl⟩
  rw [wp_bind, wp_of_ok (entryValue_mapped hl), wp_bind]
  -- The entry is noted and then loses its execute bit.
  rw [wp_checkIndex]
  split
  · rw [wp_bind, wp_modifyG]
    have hn := hst.modifyG (f := fun g => { g with
      sgxGuestPteShadow := Function.update g.sgxGuestPteShadow k e }) (fun _ => by constructor <;> rfl)
      ⟨A', g'⟩ hr'
    obtain ⟨ht, ha⟩ := hst.trap_large mtrrs hn hl
    exact (wp_of_ok ht).mpr ha
  · exact hr'

/-- The frame is noted after all frames before it. -/
theorem addGpuBuffer2m (vaddr paddr size : Nat)
    (note : paddr ≠ 0 → ∀ i < bufferFrames size, (∀ j ≤ i, frameAddress paddr j % 2 ^ 48 < maxPhysAddr) →
      ∀ {A g e}, A (frameAddress paddr i) = some ⟨.pd, e⟩ → g.countGpuPaddrs < gpuPaddrNum → Q ⟨A, g⟩ →
        Q ⟨A, noteGpuPaddr (frameAddress paddr i) g⟩) :
    Preserves (Running Q) (addGpuBuffer2m (addrMapOps mtrrs) vaddr paddr size) := by
  refine .ite (fun hp => ?_) fun _ => .pure ()
  rintro ⟨A, g⟩ hr
  rw [wp_bind, wp_getG, wp_bind, wp_checkIndex]
  split
  case isFalse => exact hr
  case isTrue room =>
  rw [wp_bind, wp_modifyG, wp_bind]
  have hds : Running Q ⟨A, { g with
      gpuBuffers := Function.update g.gpuBuffers g.countGpuBuffers
        { g.gpuBuffers g.countGpuBuffers with vaddr := vaddr, paddr := paddr, size := size } }⟩ :=
    ⟨hr.epc, hr.ept, hr.identity, hst.kept (by constructor <;> rfl) hr.holds⟩
  refine wp_loop (fun i t => Running Q t ∧ t.g.countGpuBuffers = g.countGpuBuffers ∧
    ∀ j < i, frameAddress paddr j % 2 ^ 48 < maxPhysAddr) ⟨hds, rfl, fun j hb => by omega⟩
    (fun i t hbo hbe => ?_) fun t ha => ?_
  · obtain ⟨A, g'⟩ := t
    obtain ⟨hr, hc, hea⟩ := hbe
    rw [wp_bind]
    refine wp_mono ?_ (fun _ _ h => h.1) (hst.ensure2m (frameAddress paddr i) hr)
    rintro _ ⟨A', _⟩ ⟨⟨epc, ept, hid, hh⟩, rfl, e, hl⟩
    have hi (j : Nat) (upto : j ≤ i) : frameAddress paddr j % 2 ^ 48 < maxPhysAddr := by
      rcases Nat.lt_or_eq_of_le upto with hb | rfl
      · exact hea j hb
      · exact (hid.domain _).mp ⟨_, hl⟩
    rw [addGpuPaddr, wp_bind, wp_getG, wp_bind, wp_checkIndex]
    split
    · next hs =>
      exact ⟨⟨epc, ept, hid, note hp i hbo hi hl hs hh⟩, hc, fun j hb => hi j (Nat.le_of_lt_succ hb)⟩
    · exact ⟨epc, ept, hid, hh⟩
  · obtain ⟨hr, hc, -⟩ := ha
    rw [wp_modifyG]
    exact ⟨hr.epc, hr.ept, hr.identity, hst.registered _ (hc ▸ room) hr.holds⟩

theorem registerBuffer (buf size cr3 : Nat) {A : AddrMap} {g : Globals} (hr : Running Q ⟨A, g⟩)
    (note : ∀ a, NewFrame g buf size cr3 a → ∀ {A g' e}, A a = some ⟨.pd, e⟩ → g'.countGpuPaddrs < gpuPaddrNum →
      Q ⟨A, g'⟩ → Q ⟨A, noteGpuPaddr a g'⟩) :
    wp (registerBuffer (addrMapOps mtrrs) buf size cr3) (fun _ => Running Q) (fun _ => Running Q) ⟨A, g⟩ := by
  -- The search leaves the state alone, so the translation still sees the memory of `g`.
  rw [Vmm.registerBuffer, wp_bind]
  refine wp_mono ?_ ?_ (checkBufferExists_spec buf ⟨A, g⟩)
  · rintro hf _ ⟨rfl, he⟩
    rw [wp_ite]
    split
    · exact hr
    · next hab =>
      rw [wp_bind, wp_getG, wp_bind]
      cases htl : customVirtToPhysWithCr3 g.mem buf cr3 with
      | error e => exact hr
      | ok paddr =>
        refine hst.addGpuBuffer2m buf paddr size (fun hp i hbo hi => note _ ?_) _ hr
        exact ⟨fun hk => hab (he.mpr hk), paddr, htl, hp, i, hbo, rfl, hi⟩
  · rintro _ _ ⟨rfl, -⟩
    exact hr

/-- The commands that change access bits or track frames are left to be looked at. -/
theorem readEnclaveChannel (cr3 : Nat) (lapic : Bool) {A : AddrMap} {g : Globals} (hr : Running Q ⟨A, g⟩)
    (hrm : ∀ page, g.channelMap = some page → channelCommand g.mem page = 'e' →
      wp (removePermissionGpuBuffers (addrMapOps mtrrs)) (fun _ => Running Q) (fun _ => Running Q) ⟨A, g⟩)
    (hre : ∀ page, g.channelMap = some page → channelCommand g.mem page = 'm' →
      wp (Vmm.registerBuffer (addrMapOps mtrrs) (channelBuffer g.mem page) (channelSize g.mem page) cr3)
        (fun _ => Running Q) (fun _ => Running Q) ⟨A, g⟩)
    (hg : ∀ page, g.channelMap = some page → channelCommand g.mem page = 'n' →
      Preserves (Running Q) (grantPermissionGpuBuffers (addrMapOps mtrrs))) :
    wp (readEnclaveChannel (addrMapOps mtrrs) cr3 lapic) (fun _ => Running Q) (fun _ => Running Q) ⟨A, g⟩ := by
  have done (page : Nat) : Preserves (Running Q) (Vmm.modifyG (channelDone page) : VmmM AddrMap Unit) :=
    hst.modifyG fun _ => by constructor <;> rfl
  rw [Vmm.readEnclaveChannel, wp_bind, wp_getG]
  cases hmap : g.channelMap with
  | none => exact hr
  | some page =>
    simp only
    split
    · next hc =>
      rw [wp_bind]
      exact wp_mono (fun _ t ha => done page t ha) (fun _ _ h => h) (hrm page hmap hc)
    · next hc =>
      rw [wp_bind]
      exact wp_mono (fun _ t ha => done page t ha) (fun _ _ h => h) (hre page hmap hc)
    · next hc =>
      have ipi : Preserves (Running Q) (writeIpiInitAllNotSelf lapic : VmmM AddrMap Unit) :=
        .ite (fun _ => .pure ()) fun _ => .throw _
      exact Preserves.bind ipi (fun _ => .bind (hg page hmap hc) fun _ => done page) _ hr
    · exact done page _ hr
    · exact done page _ hr
    · exact hr

theorem forwardVector (vector : BitVec 64) :
    Preserves (Running Q) (forwardVector id guest vector : VmmM AddrMap Unit) :=
  .ite (fun _ => hst.modifyVcpu id fun _ => rfl) fun _ => hst.modifyVcpu id fun _ => rfl

/-- On the enclave's vCPU it is enough that reading the channel establishes the property. -/
theorem externalInterrupt_enclave
    (hs : ∀ {A g}, Q ⟨A, g⟩ → Q ⟨A, { g with enclaveRunning := false }⟩) {id : BitVec 64} {guest : GuestState}
    {vector : BitVec 64} (he : onEnclaveVcpu g id)
    {X : Err → Machine AddrMap → Prop} (htn : ∀ e t, Running Q t → X e t)
    (hc : wp (Vmm.readEnclaveChannel (addrMapOps mtrrs) guest.cr3.toNat guest.lapicSupported)
      (fun _ => Running Q) X ⟨A, g⟩) :
    wp (externalInterruptHandler (addrMapOps mtrrs) id guest vector) (fun _ => Running Q) X ⟨A, g⟩ := by
  have rest : Preserves (Running Q) (Vmm.trapEnclaveEntryNew2m (addrMapOps mtrrs) >>= fun _ =>
      Vmm.modifyG fun g => { g with enclaveRunning := false }) :=
    .bind hst.trapEnclaveEntryNew2m fun _ => Running.modifyG (fun _ => ⟨rfl, rfl⟩) hs
  rw [externalInterruptHandler, wp_bind, pauseEnclave, wp_bind, wp_getG, wp_ite, if_pos he, wp_bind]
  refine wp_mono (fun _ t ha => ?_) (fun _ _ h => h) hc
  refine wp_mono (fun _ u ha => ?_) htn (rest t ha)
  exact wp_mono (fun _ _ h => h) htn (hst.forwardVector id guest vector u ha)

theorem interruptWindowHandler :
    Preserves (Running Q) (interruptWindowHandler id : VmmM AddrMap Unit) := by
  refine .bind Running.getG fun g => ?_
  cases (vectorsOf g id).getLast? with
  | none => exact .throw _
  | some vector =>
    exact .bind (hst.modifyVcpu id fun _ => rfl) fun _ => hst.modifyVcpu id fun _ => rfl

theorem monitorTrapHandler : Preserves (Running Q) (monitorTrapHandler id : VmmM AddrMap Unit) :=
  hst.modifyVcpu id fun _ => rfl

theorem enableMonitorTrapFlag : Preserves (Running Q) (enableMonitorTrapFlag id : VmmM AddrMap Unit) :=
  hst.modifyVcpu id fun _ => rfl

theorem eptReadViolationHandler
    (hkp : ∀ A g, IsIdentity maxPhysAddr A → Q ⟨A, g⟩ → Q ⟨A.updated (align gpa 4096) [.enable .read], g⟩) :
    Preserves (Running Q) (eptReadViolationHandler (addrMapOps mtrrs) id gpa) :=
  .bind (hst.enableMonitorTrapFlag id) fun _ => Running.grant .read hkp

theorem eptWriteViolationHandler
    (hc : Preserves (Running Q) (grantPermissionChannel (addrMapOps mtrrs)))
    (hkp : ∀ A g, IsIdentity maxPhysAddr A → Q ⟨A, g⟩ → Q ⟨A.updated (align gpa 4096) [.enable .write], g⟩) :
    Preserves (Running Q) (eptWriteViolationHandler (addrMapOps mtrrs) id guest gpa) :=
  .bind (.ite (fun _ => hc) fun _ => .pure ()) fun _ => .bind hc fun _ =>
    .bind (hst.enableMonitorTrapFlag id) fun _ => Running.grant .write hkp

end

end Steady

/-! ### Scans, interrupts and violations -/

namespace Closed

variable {Q : Machine AddrMap → Prop} {mtrrs : Mtrrs}

section

variable (hcl : Closed Q)

include hcl

theorem untrap (v : Nat) : Preserves (Running Q) (onMap ((addrMapOps mtrrs).updateEntry v [.enable .execute])) :=
  Running.update_of (fun e _ => by simp [applyChanges, Change.apply]) fun _ _ hid hh => hcl.untrapped v hid hh

theorem removePermissionChannel : Preserves (Running Q) (removePermissionChannel (addrMapOps mtrrs)) :=
  Running.removePermissionChannel hcl.removed

theorem accessAllPt (pte : BitVec 64) : Preserves (Running Q) (accessAllPt pte) :=
  Running.forEntries (fun _ => .bind Running.getG fun _ =>
    .ite (fun _ => Running.modifyG (f := recordEpcPage _) (fun _ => ⟨rfl, rfl⟩) (hcl.recorded _)) fun _ => .pure ()) _

theorem accessAllPdt (pte : BitVec 64) : Preserves (Running Q) (accessAllPdt pte) :=
  Running.forEntries (fun _ => .ite (fun _ => hcl.accessAllPt _) fun _ => .pure ()) _

theorem accessAllPdpt (pte : BitVec 64) : Preserves (Running Q) (accessAllPdpt pte) :=
  Running.forEntries (fun _ => .ite (fun _ => hcl.accessAllPdt _) fun _ => .pure ()) _

theorem accessAllPml4 (cr3 : Nat) : Preserves (Running Q) (accessAllPml4 cr3) := .ite (fun _ => .throw _) fun _ =>
    Running.forEntries (fun _ => .ite (fun _ => hcl.accessAllPdpt _) fun _ => .pure ()) _

variable (id : BitVec 64) (guest : GuestState) (vector : BitVec 64)

theorem vmcallHandler : Preserves (Running Q) (vmcallHandler guest) :=
  .swallow (.ite (fun _ => hcl.accessAllPml4 _) fun _ => .pure ())

theorem externalInterruptHandler {A : AddrMap} {g : Globals} (hr : Running Q ⟨A, g⟩)
    (hc : onEnclaveVcpu g id → wp (readEnclaveChannel (addrMapOps mtrrs) guest.cr3.toNat guest.lapicSupported)
        (fun _ => Running Q) (fun _ => Running Q) ⟨A, g⟩) :
    wp (externalInterruptHandler (addrMapOps mtrrs) id guest vector) (fun _ => Running Q) (fun _ => Running Q)
      ⟨A, g⟩ := by
  by_cases he : onEnclaveVcpu g id
  · exact hcl.externalInterrupt_enclave (hcl.running false) he (fun _ _ h => h) (hc he)
  · rw [Vmm.externalInterruptHandler, wp_bind, pauseEnclave, wp_bind, wp_getG, wp_ite, if_neg he]
    exact hcl.forwardVector id guest vector _ hr

theorem eptExecuteViolationHandler (gpa : Nat) :
    Preserves (Running Q) (eptExecuteViolationHandler (addrMapOps mtrrs) id guest gpa) :=
  .bind (Running.modifyG (fun _ => ⟨rfl, rfl⟩) fun hh =>
      hcl.kept (by constructor <;> rfl) (hcl.running true hh)) fun _ => .bind Running.getG fun _ =>
    .bind (.forFrom (fun _ => .bind (Running.checkIndex _ _) fun _ => .bind Running.getG fun _ => hcl.untrap _) _ _)
      fun _ => hcl.untrap _

end

theorem eptViolationHandle (id : BitVec 64) (guest : GuestState) (qual : BitVec 64) (gpa : Nat)
    (read : isBitSet qual 0 = true → Preserves (Running Q) (eptReadViolationHandler (addrMapOps mtrrs) id gpa))
    (hw : isBitSet qual 0 = false → isBitSet qual 1 = true →
      Preserves (Running Q) (eptWriteViolationHandler (addrMapOps mtrrs) id guest gpa))
    (hcl : Closed Q) : Preserves (Running Q) (eptViolationHandle (addrMapOps mtrrs) id guest qual gpa) :=
  .ite read fun hn =>
    .ite (hw (Bool.not_eq_true _ ▸ hn)) fun _ =>
      .ite (fun _ => hcl.eptExecuteViolationHandler id guest gpa) fun _ => .throw _

end Closed

/-! ### ENCLS and new vCPUs -/

/-- What a property must survive besides to be kept by ENCLS exits and by the construction of vCPUs. -/
structure ClosedAll (Q : Machine AddrMap → Prop) : Prop extends Closed Q where
  noteSgx : ∀ {A g} v, g.countSgxPaddrs < sgxPages → Q ⟨A, g⟩ → Q ⟨A, noteSgxPaddr v g⟩
  cleared : ∀ {A g} i, Q ⟨A, g⟩ → Q ⟨A, { g with sgxPaddrs := Function.update g.sgxPaddrs i 0 }⟩
  reset : ∀ {A g}, Q ⟨A, g⟩ → Q ⟨A, resetTracking g⟩
  bitmap : ∀ {A g} id {leaf}, leaf = einitExit ∨ leaf = eremoveExit → Q ⟨A, g⟩ →
    Q ⟨A, setVcpu id ((g.vcpus id).map (withBitmap (enclsBit leaf))) g⟩
  create : ∀ {A g} id, Q ⟨A, g⟩ → Q ⟨A, setVcpu id (some newVcpu) g⟩
  delete : ∀ {A g} id, Q ⟨A, g⟩ → Q ⟨A, setVcpu id none g⟩

/-- A property of the map alone. -/
theorem closedAll_map {p : AddrMap → Prop} (hm : ∀ {A} v, IsIdentity maxPhysAddr A → p A → p (A.merged v))
    (hu : ∀ {A} v {changes}, Restricts changes → IsIdentity maxPhysAddr A → p A → p (A.updated v changes)) :
    ClosedAll fun s => p s.guestMap where
  kept _ hh := hh
  vcpu _ _ _ hh := hh
  registered _ _ hh := hh
  merged v hi hh := hm v hi hh
  trapped v hi hh := hu v .trap hi hh
  recorded _ hh := hh
  running _ hh := hh
  removed hi hh := hu _ .remove hi hh
  untrapped v hi hh := hu v .untrap hi hh
  noteSgx _ _ hh := hh
  cleared _ hh := hh
  reset hh := hh
  bitmap _ _ _ hh := hh
  create _ hh := hh
  delete _ hh := hh

namespace ClosedAll

variable {Q : Machine AddrMap → Prop} {mtrrs : Mtrrs}

theorem addEpcAddress2m (hcl : ClosedAll Q) : Preserves (Running Q) (addEpcAddress2m (addrMapOps mtrrs)) := by
  refine .bind Running.getG fun g₀ => .forFrom (fun i => ?_) _ _
  rintro ⟨A, g⟩ hr
  rw [wp_bind]
  refine wp_mono ?_ (fun _ _ h => h.1) (hcl.ensure2m (frameAddress g₀.epcBaseAddress i) hr)
  rintro _ ⟨A', g'⟩ ⟨⟨epc, ept, hid, hh⟩, -, -⟩
  rw [addSgxPaddr, wp_bind, wp_getG, wp_bind, wp_checkIndex]
  split
  · next room => exact ⟨epc, ept, hid, hcl.noteSgx _ room hh⟩
  · exact ⟨epc, ept, hid, hh⟩

theorem setEnclsExitingBitmap (hcl : ClosedAll Q) (id : BitVec 64) {leaf : Nat}
    (hk : leaf = einitExit ∨ leaf = eremoveExit) :
    Preserves (Running Q) (setEnclsExitingBitmap id (enclsBit leaf) : VmmM AddrMap Unit) := by
  rintro ⟨A, g⟩ ⟨epc, ept, hid, hh⟩
  exact ⟨epc, ept, hid, hcl.bitmap id hk hh⟩

theorem enclsHandler (hcl : ClosedAll Q) (id : BitVec 64) (guest : GuestState) :
    Preserves (Running Q) (enclsHandler (addrMapOps mtrrs) id guest) := by
  have note {f : Globals → Globals} (hkp : ∀ g, Kept g (f g)) := hcl.modifyG hkp
  have stop : Preserves (Running Q) (modifyG fun g => { g with enclaveRunning := false } : VmmM AddrMap Unit) :=
    Running.modifyG (fun _ => ⟨rfl, rfl⟩) fun hh => hcl.running false hh
  refine .ite (fun _ => ?_) fun _ => ?_
  · -- EREMOVE
    refine .bind stop fun _ => .bind (hcl.setEnclsExitingBitmap id (.inl rfl)) fun _ => ?_
    refine .bind (note fun _ => by constructor <;> rfl) fun _ => .bind Running.getG fun _ => ?_
    refine .bind (.forFrom (fun i => ?_) _ _) fun _ => Running.modifyG (fun _ => ⟨rfl, rfl⟩) hcl.reset
    exact .bind (Running.checkIndex _ _) fun _ => .bind (note fun _ => by constructor <;> rfl) fun _ =>
      .bind (Running.checkIndex _ _) fun _ => Running.modifyG (fun _ => ⟨rfl, rfl⟩) (hcl.cleared i)
  · -- every other value of RAX
    refine .bind (note fun _ => by constructor <;> rfl) fun _ => .bind hcl.addEpcAddress2m fun _ => ?_
    refine .bind stop fun _ => .bind hcl.trapEnclaveEntryNew2m fun _ => ?_
    exact .bind hcl.removePermissionChannel fun _ => hcl.setEnclsExitingBitmap id (.inr rfl)

end ClosedAll

end Gevisor.Vmm
