/-
  Netutils.Lib.Preference — the first of a list that is meant and not bad, or the first that is
  meant if all of them are bad; and a walk that goes on from the first that is meant past what
  it knows to be bad, without a look at whether it is still meant.
-/

import Mathlib.Data.List.Basic

namespace Netutils.Lib.Preference

variable {α : Type} {meant hidden bad : α → Bool} {l : List α} {e : α}

def preferred (meant bad : α → Bool) (l : List α) : Option α := (l.find? fun e => meant e && !bad e).or (l.find? meant)

/-- What is left of the list where the walk ends. -/
def rest (meant hidden : α → Bool) (l : List α) : List α := (l.dropWhile (!meant ·)).dropWhile hidden

def walk (meant hidden : α → Bool) (l : List α) : Option α := (rest meant hidden l).head?

theorem mem_of_walk (h : walk meant hidden l = some e) : e ∈ l := by
  apply (List.dropWhile_sublist (!meant ·)).subset
  exact (List.dropWhile_sublist hidden).subset (List.mem_of_head? h)

theorem mem_of_preferred (h : preferred meant bad l = some e) : e ∈ l := by
  rw [preferred, Option.or_eq_some_iff] at h
  rcases h with h | ⟨-, h⟩
  · exact List.mem_of_find?_eq_some h
  · exact List.mem_of_find?_eq_some h

theorem find?_dropWhile {p q : α → Bool} (h : ∀ x ∈ l, p x = true → q x = false) : (l.dropWhile p).find? q = l.find? q := by
  induction l with
  | nil => rfl
  | cons x l ih =>
    by_cases hx : p x = true
    · have hq := h x List.mem_cons_self hx
      rw [List.dropWhile_cons_of_pos hx, List.find?_cons_of_neg (by rw [hq]; exact Bool.false_ne_true)]
      exact ih fun y hy => h y (List.mem_cons_of_mem x hy)
    · rw [List.dropWhile_cons_of_neg hx]

theorem good_iff (x : α) : (meant x && !bad x) = true ↔ meant x = true ∧ bad x = false := by
  rw [Bool.and_eq_true, Bool.not_eq_true']

/-- It is the one that is preferred if it is meant and not bad. -/
theorem preferred_of_walk (hbad : ∀ x ∈ l, hidden x = true → bad x = true) (hwalk : walk meant hidden l = some e)
    (hmeant : meant e = true) (hgood : bad e = false) : preferred meant bad l = some e := by
  have hskip : (rest meant hidden l).find? (fun x => meant x && !bad x) = l.find? fun x => meant x && !bad x := by
    rw [rest, find?_dropWhile, find?_dropWhile]
    · intro x _ hx
      rw [Bool.not_eq_true'] at hx
      rw [hx, Bool.false_and]
    · intro x hx hhidden
      rw [hbad x ((List.dropWhile_sublist (!meant ·)).subset hx) hhidden, Bool.not_true, Bool.and_false]
  obtain ⟨tail, htail⟩ := List.head?_eq_some_iff.mp hwalk
  rw [htail, List.find?_cons_of_pos (p := fun x => meant x && !bad x) ((good_iff e).mpr ⟨hmeant, hgood⟩)] at hskip
  rw [preferred, ← hskip, Option.some_or]

/-- Where the walk ends at the one that is preferred. -/
theorem walk_preferred_iff (hbad : ∀ x ∈ l, hidden x = true → bad x = true) :
    (walk meant hidden l = some e ∧ preferred meant bad l = some e) ↔ walk meant hidden l = some e ∧ meant e = true ∧
      (bad e = false ∨ (∀ x ∈ l, meant x = true → bad x = true) ∧ l.find? meant = some e) := by
  refine and_congr_right fun hwalk => ⟨fun h => ?_, fun h => ?_⟩
  · rw [preferred, Option.or_eq_some_iff] at h
    rcases h with hfind | ⟨hnone, hfirst⟩
    · obtain ⟨hmeant, hgood⟩ := (good_iff e).mp (List.find?_some (p := fun x => meant x && !bad x) hfind)
      exact ⟨hmeant, .inl hgood⟩
    · refine ⟨List.find?_some hfirst, .inr ⟨fun x hx hmeant => ?_, hfirst⟩⟩
      have hall := List.find?_eq_none.mp hnone x hx
      rw [good_iff, not_and, Bool.not_eq_false] at hall
      exact hall hmeant
  · obtain ⟨hmeant, hgood | ⟨hall, hfirst⟩⟩ := h
    · exact preferred_of_walk hbad hwalk hmeant hgood
    · have hnone : (l.find? fun x => meant x && !bad x) = none := by
        rw [List.find?_eq_none]
        intro x hx hgood
        obtain ⟨hmeant, hgood⟩ := (good_iff x).mp hgood
        rw [hall x hx hmeant] at hgood
        cases hgood
      rw [preferred, hnone, Option.none_or, hfirst]

end Netutils.Lib.Preference
