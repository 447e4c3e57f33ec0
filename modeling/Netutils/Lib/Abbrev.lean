/-
  Netutils.Lib.Abbrev — an entry of a table asked for by its name, or by what its name begins with.

  `lookup` is the first entry that is meant in full, or else the only one that begins so. A search
  that gives up at the second entry that begins so, before it has seen the rest (`scan`), is
  that exactly where no entry that is meant in full stands behind two that begin so
  (`scan_eq_iff`).
-/

import Mathlib.Data.List.TakeWhile

namespace Netutils.Lib.Abbrev

variable {α : Type}

inductive Found (α : Type) where
  | none
  | ambiguous
  | entry (e : α)
  deriving DecidableEq

/-- The only one. -/
def only : List α → Found α
  | [] => .none
  | [e] => .entry e
  | _ :: _ :: _ => .ambiguous

variable (full begins : α → Bool)

def lookup (table : List α) : Found α :=
  match table.find? full with
  | some e => .entry e
  | none => only (table.filter begins)

/-- With the entry that begins so, if there has been one. -/
def scan : Option α → List α → Found α
  | found, [] => only found.toList
  | found, e :: table =>
    if full e then .entry e
    else if begins e then
      match found with
      | some _ => .ambiguous
      | none => scan (some e) table
    else scan found table

/-- What begins so in front of the first that is meant in full. -/
def before (table : List α) : List α := (table.takeWhile (!full ·)).filter begins

variable {full begins}

theorem before_cons_full {e : α} {table : List α} (he : full e = true) : before full begins (e :: table) = [] := by
  simp [before, he]

theorem before_cons {e : α} {table : List α} (he : ¬ full e = true) :
    before full begins (e :: table) = if begins e then e :: before full begins table else before full begins table := by
  simp [before, he, List.filter_cons]

theorem before_of_none {table : List α} (h : table.find? full = none) : before full begins table = table.filter begins := by
  rw [before, List.takeWhile_eq_self_iff.mpr]
  intro e he
  simpa using List.find?_eq_none.mp h e he

theorem only_ambiguous {l : List α} (h : 2 ≤ l.length) : only l = .ambiguous := by
  match l, h with
  | _ :: _ :: _, _ => rfl

theorem scan_some (f : α) (table : List α) :
    scan full begins (some f) table =
      if before full begins table = [] then (table.find? full).elim (.entry f) .entry else .ambiguous := by
  induction table with
  | nil => rfl
  | cons e table ih =>
    rw [scan]
    by_cases he : full e = true
    · rw [if_pos he, before_cons_full he, if_pos rfl, List.find?_cons_of_pos he]
      rfl
    · rw [if_neg he, before_cons he, List.find?_cons_of_neg he]
      by_cases hb : begins e = true
      · rw [if_pos hb, if_pos hb, if_neg (List.cons_ne_nil _ _)]
      · rw [if_neg hb, if_neg hb, ih]

theorem scan_none (table : List α) :
    scan full begins none table =
      if 2 ≤ (before full begins table).length then .ambiguous else lookup full begins table := by
  induction table with
  | nil => rfl
  | cons e table ih =>
    rw [scan]
    by_cases he : full e = true
    · rw [if_pos he, before_cons_full he, lookup, List.find?_cons_of_pos he]
      rfl
    · rw [if_neg he, before_cons he, lookup, List.find?_cons_of_neg he]
      by_cases hb : begins e = true
      · rw [if_pos hb, if_pos hb, scan_some, List.length_cons, List.filter_cons_of_pos hb]
        cases hbefore : before full begins table with
        | cons f l =>
          rw [if_neg (List.cons_ne_nil _ _), if_pos (by rw [List.length_cons]; omega)]
        | nil =>
          rw [if_pos rfl, List.length_nil, if_neg (by decide)]
          cases hfull : table.find? full with
          | some f => rfl
          | none =>
            rw [before_of_none hfull] at hbefore
            rw [hbefore]
            rfl
      · rw [if_neg hb, if_neg hb, ih, List.filter_cons_of_neg hb, lookup]

/-- The search that gives up early finds what the other does, unless it gives up in front of what is
    meant in full. -/
theorem scan_eq_iff (table : List α) :
    scan full begins none table = lookup full begins table ↔
      ((table.find? full).isSome → (before full begins table).length ≤ 1) := by
  rw [scan_none]
  by_cases hlen : 2 ≤ (before full begins table).length
  · rw [if_pos hlen, lookup]
    cases hfull : table.find? full with
    | some e =>
      constructor
      · intro heq
        cases heq
      · intro hle
        exact absurd (hle rfl) (by omega)
    | none =>
      rw [before_of_none hfull] at hlen
      simp [only_ambiguous hlen]
  · rw [if_neg hlen]
    exact ⟨fun _ _ => by omega, fun _ => rfl⟩

end Netutils.Lib.Abbrev
