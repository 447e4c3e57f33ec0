/-
  Netutils.Lib.Faults — computations that may meet a fault: what holds of the result, if they
  come to one. The weakest condition of a computation in parts is read off its parts.
-/

import Mathlib.Logic.Basic

namespace Netutils.Lib.Faults

variable {ε α β : Type}

/-- There is a result, and it is one of `P`. -/
def Returns (P : α → Prop) : Except ε α → Prop
  | .ok a => P a
  | .error _ => False

variable {P Q : α → Prop} {R : β → Prop} {x : Except ε α} {f : α → Except ε β}

@[simp] theorem returns_ok (a : α) : Returns P (.ok a : Except ε α) ↔ P a := Iff.rfl

@[simp] theorem returns_pure (a : α) : Returns P (pure a : Except ε α) ↔ P a := Iff.rfl

@[simp] theorem returns_error (e : ε) : ¬ Returns P (.error e : Except ε α) := id

@[simp] theorem returns_bind : Returns R (x >>= f) ↔ Returns (fun a => Returns R (f a)) x := by
  cases x <;> exact Iff.rfl

@[simp] theorem returns_map (g : α → β) : Returns R (g <$> x) ↔ Returns (fun a => R (g a)) x := by
  cases x <;> exact Iff.rfl

theorem returns_iff_exists : Returns P x ↔ ∃ a, x = .ok a ∧ P a := by
  cases x with
  | error e => exact ⟨False.elim, fun h => by obtain ⟨a, ha, -⟩ := h; cases ha⟩
  | ok a => exact ⟨fun h => ⟨a, rfl, h⟩, fun h => by obtain ⟨b, hb, h⟩ := h; obtain rfl := Except.ok.inj hb; exact h⟩

theorem Returns.mono (h : Returns P x) (hPQ : ∀ a, P a → Q a) : Returns Q x := by
  cases x with
  | error e => exact h
  | ok a => exact hPQ a h

/-- A test before the rest. -/
theorem returns_ite {c : Prop} [Decidable c] {y : Except ε α} :
    Returns P (if c then x else y) ↔ (c → Returns P x) ∧ (¬ c → Returns P y) := by
  split
  · rename_i hc
    exact ⟨fun h => ⟨fun _ => h, fun hn => absurd hc hn⟩, fun h => h.1 hc⟩
  · rename_i hc
    exact ⟨fun h => ⟨fun hn => absurd hn hc, fun _ => h⟩, fun h => h.2 hc⟩

/-- Parts that come to a result, whatever the one before them comes to. -/
theorem ok_bind (hx : ∃ a, x = .ok a) (hf : ∀ a, ∃ b, f a = .ok b) : ∃ b, (x >>= f) = .ok b := by
  obtain ⟨a, rfl⟩ := hx
  exact hf a

theorem ok_ite {c : Prop} [Decidable c] {y : Except ε α} (hx : c → ∃ a, x = .ok a) (hy : ¬ c → ∃ a, y = .ok a) :
    ∃ a, (if c then x else y) = .ok a := by
  split
  · rename_i h
    exact hx h
  · rename_i h
    exact hy h

/-- A place that must be inside. -/
def guardLt (e : ε) (i n : Nat) : Except ε Unit := if i < n then .ok () else .error e

@[simp] theorem returns_guardLt {P : Unit → Prop} (e : ε) (i n : Nat) : Returns P (guardLt e i n) ↔ i < n ∧ P () := by
  unfold guardLt
  split
  · rename_i h
    exact (and_iff_right h).symm
  · rename_i h
    exact iff_of_false id fun hn => h hn.1

/-! ## Errors of one kind -/

/-- A result of `P`, or an error of `E`. -/
def Upto (E : ε → Prop) (P : α → Prop) : Except ε α → Prop
  | .ok a => P a
  | .error e => E e

variable {E F : ε → Prop}

@[simp] theorem upto_ok (a : α) : Upto E P (.ok a) ↔ P a := Iff.rfl

@[simp] theorem upto_error (e : ε) : Upto E P (.error e : Except ε α) ↔ E e := Iff.rfl

@[simp] theorem upto_bind : Upto E R (x >>= f) ↔ Upto E (fun a => Upto E R (f a)) x := by
  cases x <;> exact Iff.rfl

@[simp] theorem upto_map (g : α → β) : Upto E R (g <$> x) ↔ Upto E (fun a => R (g a)) x := by
  cases x <;> exact Iff.rfl

theorem Upto.mono (h : Upto E P x) (hPQ : ∀ a, P a → Q a) : Upto E Q x := by
  cases x with
  | error e => exact h
  | ok a => exact hPQ a h

end Netutils.Lib.Faults
