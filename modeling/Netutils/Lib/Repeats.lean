/-
  Netutils.Lib.Repeats — a list in which copies of the latest item may be left out for a
  notice that says how many.

  What a list with notices stands for is read from left to right: behind more of it the same
  items stand, and a notice stands for copies of the latest item before it.
-/

import Mathlib.Data.List.Basic

namespace Netutils.Lib.Repeats

variable {α : Type}

inductive Token (α : Type) where
  | item (a : α)
  | again (n : Nat)
  deriving DecidableEq

/-- The latest item, `last` before the first one. -/
def latestFrom (last : Option α) : List (Token α) → Option α
  | [] => last
  | .item a :: ts => latestFrom (some a) ts
  | .again _ :: ts => latestFrom last ts

def copies (n : Nat) (last : Option α) : List α := last.elim [] (List.replicate n)

def expandFrom (last : Option α) : List (Token α) → List α
  | [] => []
  | .item a :: ts => a :: expandFrom (some a) ts
  | .again n :: ts => copies n last ++ expandFrom last ts

def latest (ts : List (Token α)) : Option α := latestFrom none ts

/-- Each notice replaced by the copies it stands for. -/
def expand (ts : List (Token α)) : List α := expandFrom none ts

/-! ## More of the list -/

theorem latestFrom_append (last : Option α) (ts us : List (Token α)) :
    latestFrom last (ts ++ us) = latestFrom (latestFrom last ts) us := by
  induction ts generalizing last with
  | nil => rfl
  | cons t ts ih => cases t <;> exact ih _

theorem expandFrom_append (last : Option α) (ts us : List (Token α)) :
    expandFrom last (ts ++ us) = expandFrom last ts ++ expandFrom (latestFrom last ts) us := by
  induction ts generalizing last with
  | nil => rfl
  | cons t ts ih =>
    cases t with
    | item a => exact congrArg (a :: ·) (ih (some a))
    | again n => exact (congrArg (copies n last ++ ·) (ih last)).trans (List.append_assoc _ _ _).symm

variable (ts : List (Token α)) (a : α) (n : Nat)

@[simp] theorem latest_concat_item : latest (ts ++ [.item a]) = some a := latestFrom_append none ts _

@[simp] theorem latest_concat_again : latest (ts ++ [.again n]) = latest ts := latestFrom_append none ts _

@[simp] theorem expand_concat_item : expand (ts ++ [.item a]) = expand ts ++ [a] := expandFrom_append none ts _

@[simp] theorem expand_concat_again : expand (ts ++ [.again n]) = expand ts ++ copies n (latest ts) :=
  (expandFrom_append none ts _).trans (congrArg (expand ts ++ ·) (List.append_nil _))

@[simp] theorem copies_some : copies n (some a) = List.replicate n a := rfl

/-! ## Counted copies -/

/-- Counted copies are the copies of another item only where the items are the same. -/
theorem append_copies_inj {l l' : List α} {a b : α} {n : Nat} (hlen : l.length = l'.length) (hn : 0 < n) :
    l ++ copies n (some a) = l' ++ List.replicate n b ↔ l = l' ∧ a = b := by
  constructor
  · intro h
    obtain ⟨hl, hr⟩ := List.append_inj h hlen
    obtain ⟨n, rfl⟩ : ∃ k, n = k + 1 := ⟨n - 1, by omega⟩
    rw [copies_some, List.replicate_succ, List.replicate_succ] at hr
    exact ⟨hl, (List.cons.inj hr).1⟩
  · intro h
    obtain ⟨rfl, rfl⟩ := h
    rfl

end Netutils.Lib.Repeats
