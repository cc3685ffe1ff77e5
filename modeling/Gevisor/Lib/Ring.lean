import Mathlib.Algebra.CharZero.Defs
import Mathlib.Data.BitVec
import Mathlib.Algebra.Order.Ring.Nat
import Mathlib.Logic.Function.Basic

/-! # Rings of cells

A buffer of `size` cells that is used in a circle. Positions grow without bound and are taken modulo the
size; `window` reads consecutive positions off as a list.
-/

namespace Gevisor.Lib.Ring

variable {α : Type} {size : Nat} {buf : Nat → α} {start p n : Nat}

/-- The `n` cells from position `start` on. -/
def window (size : Nat) (buf : Nat → α) : Nat → Nat → List α
  | _, 0 => []
  | start, n + 1 => buf (start % size) :: window size buf (start + 1) n

theorem window_add (n k : Nat) :
    window size buf start (n + k) = window size buf start n ++ window size buf (start + n) k := by
  induction n generalizing start with
  | zero => rw [Nat.zero_add, window, List.nil_append, Nat.add_zero]
  | succ n ih =>
    rw [show n + 1 + k = n + k + 1 by omega, window, window, ih, List.cons_append,
      show start + 1 + n = start + (n + 1) by omega]

theorem window_congr {start' : Nat} (same : start % size = start' % size) (n : Nat) :
    window size buf start n = window size buf start' n := by
  induction n generalizing start start' with
  | zero => rfl
  | succ n ih =>
    have next : (start + 1) % size = (start' + 1) % size := by rw [Nat.add_mod, same, ← Nat.add_mod]
    rw [window, window, same, ih next]

/-- A cell outside the window may be overwritten. -/
theorem window_update_of_ne (hout : ∀ i, i < n → (start + i) % size ≠ p) (x : α) :
    window size (Function.update buf p x) start n = window size buf start n := by
  induction n generalizing start with
  | zero => rfl
  | succ n ih =>
    have first := hout 0 (Nat.succ_pos n)
    rw [Nat.add_zero] at first
    rw [window, window, Function.update_of_ne first, ih fun i less => ?_]
    rw [show start + 1 + i = start + (i + 1) by omega]
    exact hout (i + 1) (by omega)

/-- Positions less than a full circle apart are different cells. -/
theorem cell_ne (start : Nat) {i j : Nat} (less : i < j) (hw : j < i + size) :
    (start + i) % size ≠ (start + j) % size := by
  intro same
  have hd := (Nat.modEq_iff_dvd' (show start + i ≤ start + j by omega)).mp same
  rw [Nat.add_sub_add_left] at hd
  have := Nat.le_of_dvd (by omega) hd
  omega

/-- The cell before a window. -/
theorem window_update_before (room : n < size) (x : α) :
    window size (Function.update buf (start % size) x) (start + 1) n = window size buf (start + 1) n := by
  refine window_update_of_ne (fun i less same => ?_) x
  have ho := cell_ne start (show 0 < i + 1 by omega) (show i + 1 < 0 + size by omega)
  rw [Nat.add_zero, show start + (i + 1) = start + 1 + i by omega] at ho
  exact ho same.symm

/-- The cell after a window. -/
theorem window_update_after (room : n < size) (x : α) :
    window size (Function.update buf ((start + n) % size) x) start (n + 1) = window size buf start n ++ [x] := by
  rw [window_add, window_update_of_ne fun i less => cell_ne start less (by omega), window, window, Function.update_self]

end Gevisor.Lib.Ring
