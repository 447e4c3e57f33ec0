/-
  Netutils.Lib.Mirror — two parties that keep one value each and tell the other what they
  change it to. What is told is taken over when it comes in, and not answered.

  Two changes cross where one is made while the other is under way: then each party ends with
  the other's value, and nothing puts that right. Without such changes the parties agree
  whenever nothing is under way (`settles`), and two that did not agree do from the first change
  on.
-/

import Mathlib.Data.List.Basic
import Netutils.Lib.Transition

namespace Netutils.Lib.Mirror

open Netutils.Lib.Transition

variable {α : Type}

/-- The two values, and what is under way to each party in its order. -/
structure Values (α : Type) where
  a : α
  b : α
  toA : List α
  toB : List α

inductive Move (α : Type) where
  | changeA (v : α)
  | changeB (v : α)
  | arriveA
  | arriveB

def move : Move α → Values α → Option (Values α)
  | .changeA v, s => some { s with a := v, toB := s.toB ++ [v] }
  | .changeB v, s => some { s with b := v, toA := s.toA ++ [v] }
  | .arriveA, s =>
    match s.toA with
    | [] => none
    | v :: l => some { s with a := v, toA := l }
  | .arriveB, s =>
    match s.toB with
    | [] => none
    | v :: l => some { s with b := v, toB := l }

/-- No change of the other party is under way. -/
def Uncrossed : Move α → Values α → Prop
  | .changeA _, s => s.toA = []
  | .changeB _, s => s.toB = []
  | _, _ => True

/-- One of the parties has the value that the other will have. -/
def Settling (s : Values α) : Prop :=
  (s.toA = [] ∧ s.toB.getLastD s.b = s.a) ∨ (s.toB = [] ∧ s.toA.getLastD s.a = s.b)

/-- Nothing has been changed since `s₀`, or the parties come to agree. -/
def Since (s₀ s : Values α) : Prop := s = s₀ ∨ Settling s

variable {s₀ s t : Values α} {m : Move α}

theorem settling_changeA (v : α) (h : s.toA = []) : Settling { s with a := v, toB := s.toB ++ [v] } :=
  .inl ⟨h, List.getLastD_concat⟩

theorem settling_changeB (v : α) (h : s.toB = []) : Settling { s with b := v, toA := s.toA ++ [v] } :=
  .inr ⟨h, List.getLastD_concat⟩

theorem settling_arriveA {v : α} {l : List α} (hl : s.toA = v :: l) (h : Settling s) :
    Settling { s with a := v, toA := l } := by
  rcases h with ⟨hnil, -⟩ | ⟨hnil, hlast⟩
  · rw [hl] at hnil
    cases hnil
  · rw [hl, List.getLastD_cons] at hlast
    exact .inr ⟨hnil, hlast⟩

theorem settling_arriveB {v : α} {l : List α} (hl : s.toB = v :: l) (h : Settling s) :
    Settling { s with b := v, toB := l } := by
  rcases h with ⟨hnil, hlast⟩ | ⟨hnil, -⟩
  · rw [hl, List.getLastD_cons] at hlast
    exact .inl ⟨hnil, hlast⟩
  · rw [hl] at hnil
    cases hnil

/-- The step lemma. -/
theorem since_move (h₀ : s₀.toA = [] ∧ s₀.toB = []) (h : Since s₀ s) (hok : Uncrossed m s) (hm : move m s = some t) :
    Since s₀ t := by
  cases m with
  | changeA v =>
    obtain rfl := Option.some.inj hm
    exact .inr (settling_changeA v hok)
  | changeB v =>
    obtain rfl := Option.some.inj hm
    exact .inr (settling_changeB v hok)
  | arriveA =>
    rw [move] at hm
    split at hm
    · cases hm
    · rename_i v l hl
      obtain rfl := Option.some.inj hm
      rcases h with rfl | h
      · rw [h₀.1] at hl
        cases hl
      · exact .inr (settling_arriveA hl h)
  | arriveB =>
    rw [move] at hm
    split at hm
    · cases hm
    · rename_i v l hl
      obtain rfl := Option.some.inj hm
      rcases h with rfl | h
      · rw [h₀.2] at hl
        cases hl
      · exact .inr (settling_arriveB hl h)

/-- With nothing under way, the parties agree or are as they were. -/
theorem Since.settled (h : Since s₀ s) (hs : s.toA = [] ∧ s.toB = []) : s.a = s.b ∨ s = s₀ := by
  rcases h with h | ⟨-, hlast⟩ | ⟨-, hlast⟩
  · exact .inr h
  · rw [hs.2] at hlast
    exact .inl hlast.symm
  · rw [hs.1] at hlast
    exact .inl hlast

/-- The run lemma, for a system whose steps are moves of the values or leave them alone. -/
theorem settles {σ ε : Type} {step : ε → σ → Option σ} {view : σ → Values α} {ok : ε → σ → Prop}
    (hsim : ∀ e p q, ok e p → step e p = some q →
      view q = view p ∨ ∃ m, Uncrossed m (view p) ∧ move m (view p) = some (view q))
    {es : List ε} {p q : σ} (h₀ : (view p).toA = [] ∧ (view p).toB = []) (hok : Meets step ok es p)
    (hrun : run step es p = some q) : Since (view p) (view q) := by
  refine run_inv_meets (P := fun q => Since (view p) (view q)) ?_ (.inl rfl) hok hrun
  intro e q r h hok hstep
  rcases hsim e q r hok hstep with heq | ⟨m, huncrossed, hm⟩
  · rw [heq]
    exact h
  · exact since_move h₀ h huncrossed hm

end Netutils.Lib.Mirror
