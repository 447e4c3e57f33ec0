/-
  Netutils.Lib.Circular — a run of neighbouring cells of a memory that is closed to a
  circle of `size` cells, as the list of what they hold.
-/

import Netutils.Lib.Cells

namespace Netutils.Lib.Circular

open Netutils.Lib.Cells

variable {α : Type}

/-- The cell at `x`, which may be past the end once. -/
def wrap (size x : Nat) : Nat := if x < size then x else x - size

/-- The `n` cells from `i` on. -/
def window (m : Nat → α) (size i n : Nat) : List α := (List.range n).map fun k => m (wrap size (i + k))

variable {m : Nat → α} {size i j n k : Nat}

@[simp] theorem length_window : (window m size i n).length = n := by simp [window]

theorem wrap_lt (hi : i < size) (hn : n ≤ size) : wrap size (i + n) < size := by
  unfold wrap
  split <;> omega

theorem wrap_wrap (hi : i < size) (hk : n + k ≤ size) :
    wrap size (wrap size (i + n) + k) = wrap size (i + (n + k)) := by
  unfold wrap
  repeat' split
  all_goals omega

theorem window_append (hi : i < size) (hn : n + k ≤ size) :
    window m size i n ++ window m size (wrap size (i + n)) k = window m size i (n + k) := by
  rw [window, window, window, List.range_add, List.map_append, List.map_map]
  congr 1
  apply List.map_congr_left
  intro x hx
  have := List.mem_range.mp hx
  exact congrArg m (wrap_wrap hi (by omega))

/-- A run that does not pass the end. -/
theorem window_eq_slice (h : i + n ≤ size) : window m size i n = slice m i (i + n) := by
  rw [window, slice, Nat.add_sub_cancel_left]
  apply List.map_congr_left
  intro x hx
  have := List.mem_range.mp hx
  rw [wrap, if_pos (by omega)]

/-- A run that comes to the end or passes it. -/
theorem window_eq_slices (hi : i < size) (h : size ≤ i + n) (hn : n ≤ size) :
    window m size i n = slice m i size ++ slice m 0 (i + n - size) := by
  have ha := window_append (m := m) (k := n - (size - i)) hi (show size - i + (n - (size - i)) ≤ size by omega)
  have hw : wrap size (i + (size - i)) = 0 := by
    unfold wrap
    rw [if_neg (by omega)]
    omega
  rw [show size - i + (n - (size - i)) = n by omega, hw] at ha
  have h1 := window_eq_slice (m := m) (show i + (size - i) ≤ size by omega)
  have h2 := window_eq_slice (m := m) (show 0 + (n - (size - i)) ≤ size by omega)
  rw [← ha, h1, h2]
  congr 2 <;> omega

/-- What is written elsewhere on the circle. -/
theorem window_congr {m' : Nat → α} (h : ∀ k < n, m' (wrap size (i + k)) = m (wrap size (i + k))) :
    window m' size i n = window m size i n := by
  apply List.map_congr_left
  intro k hk
  exact h k (List.mem_range.mp hk)

/-- A write right behind the run that does not pass the end makes it longer. -/
theorem window_store (hi : i < size) {l : List α} (hn : n + l.length ≤ size)
    (hl : wrap size (i + n) + l.length ≤ size) :
    window (store m (wrap size (i + n)) l) size i (n + l.length) = window m size i n ++ l := by
  rw [← window_append hi hn, window_eq_slice hl, slice_store_same]
  congr 1
  apply window_congr
  intro k hk
  apply store_outside
  unfold wrap at *
  repeat' split at *
  all_goals omega

end Netutils.Lib.Circular
