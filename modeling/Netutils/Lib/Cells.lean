/-
  Netutils.Lib.Cells — memory as a function of the address, written and read in runs of
  neighbouring cells, and the strings in it that end at their first NUL.
-/

import Mathlib.Data.List.TakeWhile

namespace Netutils.Lib.Cells

variable {α : Type}

/-- The memory after `l` has been written from `i` on. -/
def store (m : Nat → α) (i : Nat) (l : List α) : Nat → α := fun k =>
  if i ≤ k then (l[k - i]?).getD (m k) else m k

/-- The cells from `i` up to, not including, `j`. -/
def slice (m : Nat → α) (i j : Nat) : List α := (List.range (j - i)).map fun k => m (i + k)

variable {m : Nat → α} {i j k : Nat}

@[simp] theorem length_slice : (slice m i j).length = j - i := by simp [slice]

@[simp] theorem slice_self : slice m i i = [] := by simp [slice]

/-- Neighbouring slices make one. -/
theorem slice_append (hij : i ≤ j) (hjk : j ≤ k) : slice m i j ++ slice m j k = slice m i k := by
  have h : k - i = (j - i) + (k - j) := by omega
  rw [slice, slice, slice, h, List.range_add, List.map_append, List.map_map]
  congr 1
  apply List.map_congr_left
  intro n _
  show m (j + n) = m (i + (j - i + n))
  exact congrArg m (by omega)

/-- A write is what is read back from where it went. -/
theorem slice_store_same (l : List α) : slice (store m i l) i (i + l.length) = l := by
  apply List.ext_getElem
  · simp
  intro n hn hl
  simp [slice, store, hl]

/-- A write touches no other cells. -/
theorem store_outside {l : List α} (h : k < i ∨ i + l.length ≤ k) : store m i l k = m k := by
  unfold store
  split
  · rw [List.getElem?_eq_none (by omega)]
    rfl
  · rfl

/-- What lies before a write is not touched by it. -/
theorem slice_store_before (l : List α) (h : k ≤ j) : slice (store m j l) i k = slice m i k := by
  apply List.map_congr_left
  intro n hn
  have hn' := List.mem_range.mp hn
  exact store_outside (Or.inl (by omega))

/-- Nor what lies behind. -/
theorem slice_store_behind (l : List α) (h : j + l.length ≤ i) : slice (store m j l) i k = slice m i k := by
  apply List.map_congr_left
  intro n _
  exact store_outside (Or.inr (by omega))

theorem slice_cons (h : i < j) : slice m i j = m i :: slice m (i + 1) j := by
  rw [← slice_append (j := i + 1) (by omega) (by omega)]
  simp [slice]

theorem slice_succ (h : i ≤ j) : slice m i (j + 1) = slice m i j ++ [m j] := by
  rw [← slice_append h (Nat.le_succ j), slice_cons (Nat.lt_succ_self j), slice_self]

/-- The cells of a list, as far as it goes. -/
theorem slice_getD (l : List α) (z : α) {n : Nat} (h : n ≤ l.length) : slice (fun k => l.getD k z) 0 n = l.take n := by
  apply List.ext_getElem
  · simp [h]
  intro k hk hl
  have : k < l.length := by simp at hk; omega
  simp [slice, this]

@[simp] theorem store_same (c : α) : store m i [c] i = c := by simp [store]

theorem store_ne (c : α) (h : k ≠ i) : store m i [c] k = m k := store_outside (by simp; omega)

/-- A write behind a slice extends it. -/
theorem slice_store (l : List α) (h : i ≤ j) : slice (store m j l) i (j + l.length) = slice m i j ++ l := by
  rw [← slice_append h (Nat.le_add_right j l.length), slice_store_before l (Nat.le_refl j), slice_store_same]

/-- So does the first part of it. -/
theorem slice_store_front (l l' : List α) (h : i ≤ j) :
    slice (store m j (l ++ l')) i (j + l.length) = slice m i j ++ l := by
  have hs := slice_store (m := m) (l ++ l') h
  rw [← slice_append (j := j + l.length) (by omega) (by simp), ← List.append_assoc] at hs
  exact (List.append_inj hs (by simp; omega)).1

/-! ## What stands in the memory -/

/-- These are the cells from `i` on. -/
def Stands (m : Nat → α) (i : Nat) (l : List α) : Prop := ∀ n, (h : n < l.length) → m (i + n) = l[n]

theorem stands_append {l l' : List α} : Stands m i (l ++ l') ↔ Stands m i l ∧ Stands m (i + l.length) l' := by
  constructor
  · intro h
    refine ⟨fun n hn => ?_, fun n hn => ?_⟩
    · rw [h n (by rw [List.length_append]; omega), List.getElem_append_left hn]
    · have := h (l.length + n) (by rw [List.length_append]; omega)
      rw [← Nat.add_assoc] at this
      rw [this, List.getElem_append_right (Nat.le_add_right _ _)]
      simp
  · rintro ⟨hl, hl'⟩ n hn
    by_cases hlt : n < l.length
    · rw [hl n hlt, List.getElem_append_left hlt]
    · have hlen : n - l.length < l'.length := by
        rw [List.length_append] at hn
        omega
      have := hl' (n - l.length) hlen
      rw [show i + l.length + (n - l.length) = i + n by omega] at this
      rw [this, List.getElem_append_right (Nat.le_of_not_lt hlt)]

theorem stands_singleton {c : α} : Stands m i [c] ↔ m i = c := by
  refine ⟨fun h => h 0 Nat.one_pos, fun h n hn => ?_⟩
  obtain rfl : n = 0 := Nat.lt_one_iff.mp hn
  exact h

theorem stands_cons {c : α} {l : List α} : Stands m i (c :: l) ↔ m i = c ∧ Stands m (i + 1) l := by
  have happend : Stands m i ([c] ++ l) ↔ _ := stands_append
  rwa [List.singleton_append, stands_singleton] at happend

theorem slice_stands {l : List α} (h : Stands m i l) : slice m i (i + l.length) = l := by
  apply List.ext_getElem
  · simp
  intro n hn hn'
  simp only [slice, List.getElem_map, List.getElem_range]
  exact h n hn'

theorem ne_of_stands {l : List α} {c : α} (h : Stands m i l) (hc : c ∉ l) (hik : i ≤ k) (hlt : k < i + l.length) :
    m k ≠ c := by
  intro hm
  have hl := h (k - i) (by omega)
  rw [show i + (k - i) = k by omega, hm] at hl
  exact hc (hl ▸ List.getElem_mem _)

/-! ## Strings -/

/-- Bytes without a NUL. -/
def CString : Type := { l : List UInt8 // 0 ∉ l }

instance : DecidableEq CString := inferInstanceAs (DecidableEq { l : List UInt8 // 0 ∉ l })

/-- The string that bytes are when a NUL is put behind them. -/
def cstr (l : List UInt8) : CString := ⟨l.takeWhile (· ≠ 0), fun h => by simpa using List.mem_takeWhile_imp h⟩

@[simp] theorem cstr_val (s : CString) : cstr s.1 = s := by
  apply Subtype.ext
  apply List.takeWhile_eq_self_iff.mpr
  intro c hc
  have : c ≠ 0 := fun h => s.2 (h ▸ hc)
  simpa using this

/-- What comes behind the NUL does not count. -/
theorem cstr_append_nul (l l' : List UInt8) : cstr (l ++ 0 :: l') = cstr l := by
  apply Subtype.ext
  show (l ++ 0 :: l').takeWhile _ = l.takeWhile _
  induction l with
  | nil => simp
  | cons c l ih => simp only [List.cons_append, List.takeWhile_cons, ih]

/-- The string at `p`, in a memory of `size` cells. -/
def strAt (size : Nat) (m : Nat → UInt8) (p : Nat) : CString := cstr (slice m p size)

theorem strAt_of_nul {size : Nat} {m : Nat → UInt8} {p q : Nat} (hpq : p ≤ q) (hq : q < size) (h0 : m q = 0) :
    strAt size m p = cstr (slice m p q) := by
  rw [strAt, ← slice_append hpq (Nat.le_of_lt hq), slice_cons hq, h0, cstr_append_nul]

/-- The string at a place of the memory. -/
theorem strAt_stands {size : Nat} {m : Nat → UInt8} {p : Nat} {w : List UInt8} (h : Stands m p (w ++ [0])) (h0 : 0 ∉ w)
    (hsize : p + w.length < size) : (strAt size m p).1 = w := by
  obtain ⟨hw, hnul⟩ := stands_append.mp h
  rw [strAt_of_nul (Nat.le_add_right p w.length) hsize (stands_singleton.mp hnul), slice_stands hw]
  exact congrArg Subtype.val (cstr_val ⟨w, h0⟩)

end Netutils.Lib.Cells
