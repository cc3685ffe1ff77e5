import Gevisor.Driver.Common
import Gevisor.Lib.Transition
import Mathlib.Data.List.Perm.Basic

/-! # What the driver has done

The log of the driver read as a history: which CPUs are started, which buffers are allocated, whether the
runtime is initialised. For every function of the driver what it adds to the history and how that goes with
the variables.
-/

namespace Gevisor.Driver

open Lib
open Elf (Word Binary)

/-! ## Histories -/

variable {verdict : Event → Option Bool} {es log : List Event} {b : Buffer}

/-- Every event is proper, given those before it; the newest comes first. -/
def Chronicle (proper : List Event → Event → Prop) : List Event → Prop
  | [] => True
  | e :: rest => proper rest e ∧ Chronicle proper rest

variable {hpp : List Event → Event → Prop} {e : Event} {d t : Globals}

theorem chronicle_append (calm : ∀ e ∈ es, ∀ rest, hpp rest e) : Chronicle hpp (es ++ log) ↔ Chronicle hpp log := by
  induction es with
  | nil => rfl
  | cons e es ih =>
    have rest := ih fun e' mem => calm e' (List.mem_cons_of_mem e mem)
    exact ⟨fun hwh => rest.mp hwh.2, fun kept => ⟨calm e List.mem_cons_self _, rest.mpr kept⟩⟩

/-- A proper history was proper at any earlier time. -/
theorem chronicle_suffix (hwh : Chronicle hpp (es ++ log)) : Chronicle hpp log := by
  induction es with
  | nil => exact hwh
  | cons e es ih => exact ih hwh.2

/-- The last thing the history says. -/
def latest (verdict : Event → Option Bool) (log : List Event) : Bool := (log.findSome? verdict).getD false

theorem latest_append (hs : ∀ e ∈ es, verdict e = none) : latest verdict (es ++ log) = latest verdict log := by
  rw [latest, List.findSome?_append, List.findSome?_eq_none_iff.mpr hs]
  rfl

theorem latest_silent (hs : verdict e = none) : latest verdict (e :: log) = latest verdict log := by
  rw [latest, List.findSome?_cons, hs]
  rfl

theorem latest_some {answer : Bool} (said : verdict e = some answer) : latest verdict (e :: log) = answer := by
  rw [latest, List.findSome?_cons, said]
  rfl

/-! ### CPUs -/

/-- What an event says about whether the VMM is started on CPU `c`. -/
def Event.starts (c : Nat) : Event → Option Bool
  | .call cpuid (.vmmInit _) ret => if cpuid = c ∧ ret = success then some true else none
  | .call cpuid (.vmmFini _) ret => if cpuid = c ∧ ret = success then some false else none
  | _ => none

/-- The VMM has been started on CPU `c` and not stopped since. -/
def started (c : Nat) (log : List Event) : Bool := latest (Event.starts c) log

/-- The VMM is started only where it is not, and stopped only where it is. -/
def Event.ProperStart (rest : List Event) : Event → Prop
  | .call cpuid (.vmmInit _) _ => started cpuid rest = false
  | .call cpuid (.vmmFini _) _ => started cpuid rest = true
  | _ => True

def WellSent (log : List Event) : Prop := Chronicle Event.ProperStart log

/-! ### Buffers -/

/-- A null pointer is no buffer. -/
def Buffer.keep (b : Buffer) : List Buffer := if b.ptr = 0 then [] else [b]

/-- The buffers that have not been freed; `none` if something was freed that was not allocated, or with
another size. -/
def outstanding : List Event → Option (List Buffer)
  | [] => some []
  | .alloc b :: rest => (outstanding rest).map (b.keep ++ ·)
  | .free b :: rest => (outstanding rest).bind fun live => if b ∈ live then some (live.erase b) else none
  | .call _ _ _ :: rest => outstanding rest

/-! ### The runtime -/

/-- What an event says about whether the runtime is initialised. -/
def Event.initialises : Event → Option Bool
  | .call _ .init ret => if ret = success then some true else none
  | .call _ .fini _ => some false
  | _ => none

/-- The runtime has been initialised, and there was no attempt to finalise it since. -/
def initialised (log : List Event) : Bool := latest Event.initialises log

/-- The runtime is initialised only where it is not, and module memory is freed only then. -/
def Event.ProperRuntime (rest : List Event) : Event → Prop
  | .call _ .init _ => initialised rest = false
  | .free b => b.pool = .rwe → initialised rest = false
  | _ => True

def Paired (log : List Event) : Prop := Chronicle Event.ProperRuntime log

/-! ## Buffers the driver holds -/

def image (module : Binary) : List Buffer := Buffer.keep ⟨.rwe, module.exec, module.execSize⟩

def Globals.held (d : Globals) : List Buffer :=
  Buffer.keep ⟨.rw, d.stack, d.stackSize⟩ ++ (Buffer.keep ⟨.rw, d.tls, d.tlsSize⟩ ++ d.modules.flatMap image)

/-- What is allocated is what the driver holds. -/
def Accounted (d : Globals) : Prop := ∃ live, outstanding d.log = some live ∧ live.Perm d.held

theorem keep_null (null : b.ptr = 0) : b.keep = [] := if_pos null

theorem keep_some (hnn : b.ptr ≠ 0) : b.keep = [b] := if_neg hnn

theorem Accounted.congr (hac : Accounted d) (log : t.log = d.log) (held : t.held.Perm d.held) : Accounted t := by
  obtain ⟨live, outstanding_, same⟩ := hac
  exact ⟨live, by rw [log, outstanding_], same.trans held.symm⟩

/-- A buffer comes in. -/
theorem Accounted.alloc (hac : Accounted d) (log : t.log = .alloc b :: d.log)
    (held : t.held.Perm (b.keep ++ d.held)) : Accounted t := by
  obtain ⟨live, outstanding_, same⟩ := hac
  refine ⟨b.keep ++ live, ?_, (same.append_left _).trans held.symm⟩
  rw [log, outstanding, outstanding_]
  rfl

/-- Calls do not matter. -/
theorem outstanding_calls (hc : ∀ e ∈ es, ∃ cpuid request ret, e = .call cpuid request ret) :
    outstanding (es ++ log) = outstanding log := by
  induction es with
  | nil => rfl
  | cons e es ih =>
    obtain ⟨cpuid, request, ret, rfl⟩ := hc e List.mem_cons_self
    exact ih fun e' mem => hc e' (List.mem_cons_of_mem _ mem)

/-- The modules, one of which gets its image. -/
theorem flatMap_image_set {modules : List Binary} {i : Nat} (hb : i < modules.length) (module : Binary)
    (hem : image (modules.getD i {}) = []) :
    ((modules.set i module).flatMap image).Perm (image module ++ modules.flatMap image) := by
  induction modules generalizing i with
  | nil => exact absurd hb (Nat.not_lt_zero i)
  | cons first rest ih =>
    cases i with
    | zero =>
      rw [List.set_cons_zero, List.flatMap_cons, List.flatMap_cons]
      rw [List.getD_cons_zero] at hem
      rw [hem, List.nil_append]
    | succ i =>
      rw [List.set_cons_succ, List.flatMap_cons, List.flatMap_cons]
      have hla := ih (Nat.lt_of_succ_lt_succ hb) hem
      refine (hla.append_left (image first)).trans ?_
      rw [← List.append_assoc, ← List.append_assoc]
      exact List.perm_append_comm.append_right _

end Gevisor.Driver
