/-
  Netutils.Lib.OnesComplement — sums in ones' complement: words below `B` are added with the
  carry brought round to the low end.

  Such a sum is one modulo `B - 1`, and it is zero only where nothing but zeros is added. That
  determines it (`Sums.unique`). It can be had from a sum in a wider word too, by adding what
  is above the word to what is in it: below `B * B` two such folds are enough (`sums_fold`).
-/

import Mathlib.Algebra.BigOperators.Group.List.Basic
import Mathlib.Data.Nat.ModEq

namespace Netutils.Lib.OnesComplement

variable (B : Nat)

/-- The carry goes round. -/
def add (a b : Nat) : Nat := if a + b < B then a + b else a + b + 1 - B

def sum (l : List Nat) : Nat := l.foldl (add B) 0

/-- What is above the word is added to what is in it. -/
def fold (s : Nat) : Nat := s / B + s % B

/-- The word `r` is the sum of what comes to `s`. -/
structure Sums (r s : Nat) : Prop where
  lt : r < B
  modEq : r ≡ s [MOD B - 1]
  zero : r = 0 ↔ s = 0

variable {B} {a b r r' s s' : Nat}

theorem Sums.unique (h : Sums B r s) (h' : Sums B r' s) : r = r' := by
  have hmod : r ≡ r' [MOD B - 1] := h.modEq.trans h'.modEq.symm
  have hzero : r = 0 ↔ r' = 0 := h.zero.trans h'.zero.symm
  have hlt := h.lt
  have hlt' := h'.lt
  by_cases h0 : r = 0
  · rw [h0, hzero.mp h0]
  · have hpos : r' ≠ 0 := fun h => h0 (hzero.mpr h)
    -- both are from 1 to B - 1
    have hpred : r - 1 ≡ r' - 1 [MOD B - 1] := by
      apply Nat.ModEq.add_right_cancel' 1
      rwa [Nat.sub_add_cancel (by omega), Nat.sub_add_cancel (by omega)]
    have heq := Nat.ModEq.eq_of_lt_of_lt hpred (by omega) (by omega)
    omega

/-- Words that are not the same modulo `B - 1` are not the same. -/
theorem Sums.ne (h : Sums B r s) (h' : Sums B r' s') (hne : ¬ s ≡ s' [MOD B - 1]) : r ≠ r' := by
  rintro rfl
  exact hne (h.modEq.symm.trans h'.modEq)

theorem sums_zero (hB : 0 < B) : Sums B 0 0 := ⟨hB, Nat.ModEq.refl 0, Iff.rfl⟩

/-! ## Word by word -/

theorem Sums.add (h : Sums B r s) (hb : b < B) : Sums B (add B r b) (s + b) := by
  have hr := h.lt
  have hmod : r + b ≡ s + b [MOD B - 1] := h.modEq.add_right b
  unfold OnesComplement.add
  split
  · rename_i hlt
    refine ⟨hlt, hmod, ?_⟩
    have hzero := h.zero
    omega
  · rename_i hge
    refine ⟨by omega, ?_, by have hzero := h.zero; omega⟩
    have hround : r + b + 1 - B ≡ r + b [MOD B - 1] := by
      apply Nat.ModEq.symm
      rw [show r + b = (r + b + 1 - B) + (B - 1) by omega]
      rw [show r + b + 1 - B + (B - 1) + 1 - B = r + b + 1 - B by omega]
      exact Nat.add_modEq_right
    exact hround.trans hmod

theorem Sums.foldl {l : List Nat} (h : Sums B r s) (hl : ∀ w ∈ l, w < B) :
    Sums B (l.foldl (OnesComplement.add B) r) (s + l.sum) := by
  induction l generalizing r s with
  | nil => exact h
  | cons w l ih =>
    rw [List.foldl_cons, List.sum_cons, ← Nat.add_assoc]
    exact ih (h.add (hl w List.mem_cons_self)) fun v hv => hl v (List.mem_cons_of_mem w hv)

theorem sums_sum {l : List Nat} (hB : 0 < B) (hl : ∀ w ∈ l, w < B) : Sums B (sum B l) l.sum := by
  have h := (sums_zero hB).foldl hl
  rwa [Nat.zero_add] at h

/-- A word that is exchanged for one that is not the same modulo `B - 1`. -/
theorem Sums.ne_set {l : List Nat} {i v w : Nat} (hi : l[i]? = some w) (hne : ¬ v ≡ w [MOD B - 1])
    (h : Sums B r (l.set i v).sum) (h' : Sums B r' l.sum) : r ≠ r' := by
  apply h.ne h'
  intro hmod
  have hset : (l.set i v).sum + w = l.sum + v := by
    clear h h' hmod
    induction l generalizing i with
    | nil => cases hi
    | cons u l ih =>
      cases i with
      | zero =>
        obtain rfl := Option.some.inj hi
        rw [List.set_cons_zero, List.sum_cons, List.sum_cons]
        omega
      | succ i =>
        have hrest := ih hi
        rw [List.set_cons_succ, List.sum_cons, List.sum_cons]
        omega
  apply hne
  apply Nat.ModEq.symm
  apply Nat.ModEq.add_left_cancel hmod
  rw [hset]

/-! ## Folded -/

theorem fold_modEq (hB : 0 < B) (s : Nat) : fold B s ≡ s [MOD B - 1] := by
  have hpred : B ≡ 1 [MOD B - 1] := by
    rw [show B = 1 + (B - 1) by omega, show 1 + (B - 1) - 1 = B - 1 by omega]
    exact Nat.add_modEq_right
  calc fold B s = 1 * (s / B) + s % B := by rw [fold, Nat.one_mul]
    _ ≡ B * (s / B) + s % B [MOD B - 1] := (hpred.symm.mul_right _).add_right _
    _ = s := Nat.div_add_mod s B

theorem fold_eq_zero (s : Nat) : fold B s = 0 ↔ s = 0 := by
  constructor
  · intro h
    rw [fold, Nat.add_eq_zero_iff] at h
    rw [← Nat.div_add_mod s B, h.1, h.2, Nat.mul_zero]
  · rintro rfl
    rw [fold, Nat.zero_div, Nat.zero_mod]

/-- A sum in two words. -/
theorem fold_lt (hs : s < B * B) : fold B s ≤ B - 1 + (B - 1) := by
  have hB : 0 < B := Nat.pos_of_mul_pos_left (Nat.zero_lt_of_lt hs)
  have hdiv : s / B < B := Nat.div_lt_of_lt_mul hs
  have hmod : s % B < B := Nat.mod_lt s hB
  rw [fold]
  omega

theorem fold_fold_lt (hB : 1 < B) (hs : s < B * B) : fold B (fold B s) < B := by
  have hle := fold_lt hs
  generalize fold B s = t at hle ⊢
  rw [fold]
  by_cases ht : t < B
  · rw [Nat.div_eq_of_lt ht, Nat.mod_eq_of_lt ht, Nat.zero_add]
    exact ht
  · -- the carry is one, and what it leaves is less than B - 1
    have hdiv : t / B = 1 := Nat.div_eq_of_lt_le (by omega) (by omega)
    have hmod : t % B = t - B := by rw [Nat.mod_eq_sub_mod (by omega), Nat.mod_eq_of_lt (by omega)]
    omega

theorem sums_fold (hB : 1 < B) (hs : s < B * B) : Sums B (fold B (fold B s)) s := by
  refine ⟨fold_fold_lt hB hs, ?_, ?_⟩
  · exact (fold_modEq (by omega) _).trans (fold_modEq (by omega) s)
  · rw [fold_eq_zero, fold_eq_zero]

/-- A fold in place, of which only the word is kept. -/
theorem add_div_mod (h : fold B s < B) : (s + s / B) % B = fold B s := by
  have hsplit : s + s / B = B * (s / B) + fold B s := by
    rw [fold]
    have := Nat.div_add_mod s B
    omega
  rw [hsplit, Nat.mul_add_mod, Nat.mod_eq_of_lt h]

end Netutils.Lib.OnesComplement
