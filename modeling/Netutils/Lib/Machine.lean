/-
  Netutils.Lib.Machine — a program as a machine: a step goes on, ends with a result, or meets
  a fault, after which nothing is said. `Returns` is a run that ends with a result; a state
  that leads to itself has none.
-/

namespace Netutils.Lib.Machine

variable {σ ρ ε : Type} (step : σ → Except ε (σ ⊕ ρ))

/-- So many steps at most. -/
def run : Nat → σ → Option (Except ε ρ)
  | 0, _ => none
  | n + 1, s =>
    match step s with
    | .error e => some (.error e)
    | .ok (.inr r) => some (.ok r)
    | .ok (.inl t) => run n t

/-- The run from here ends with this result, without a fault. -/
def Returns (s : σ) (r : ρ) : Prop := ∃ n, run step n s = some (.ok r)

variable {step} {s t : σ} {r r' : ρ} {e : ε}

theorem run_succ_inl (h : step s = .ok (.inl t)) (n : Nat) : run step (n + 1) s = run step n t := by
  rw [run, h]

theorem returns_inl (h : step s = .ok (.inl t)) : Returns step s r ↔ Returns step t r := by
  constructor
  · intro h
    obtain ⟨n, hn⟩ := h
    cases n with
    | zero => cases hn
    | succ n => exact ⟨n, (run_succ_inl h n).symm.trans hn⟩
  · intro h
    obtain ⟨n, hn⟩ := h
    exact ⟨n + 1, (run_succ_inl h n).trans hn⟩

theorem returns_inr (h : step s = .ok (.inr r')) : Returns step s r ↔ r' = r := by
  constructor
  · intro h
    obtain ⟨n, hn⟩ := h
    cases n with
    | zero => cases hn
    | succ n =>
      rw [run, h] at hn
      exact Except.ok.inj (Option.some.inj hn)
  · rintro rfl
    exact ⟨1, by rw [run, h]⟩

theorem not_returns_error (h : step s = .error e) : ¬ Returns step s r := by
  intro h
  obtain ⟨n, hn⟩ := h
  cases n with
  | zero => cases hn
  | succ n =>
    rw [run, h] at hn
    cases Option.some.inj hn

/-- A state that leads to itself. -/
theorem not_returns_loop (h : step s = .ok (.inl s)) : ¬ Returns step s r := by
  intro h
  obtain ⟨n, hn⟩ := h
  induction n with
  | zero => cases hn
  | succ n ih => exact ih ((run_succ_inl h n).symm.trans hn)

/-- A run has one end. -/
theorem returns_unique (h : Returns step s r) (h' : Returns step s r') : r = r' := by
  obtain ⟨n, hn⟩ := h
  induction n generalizing s with
  | zero => cases hn
  | succ n ih =>
    cases hs : step s with
    | error e => exact absurd h' (not_returns_error hs)
    | ok u =>
      cases u with
      | inl t => exact ih ((returns_inl hs).mp h') ((run_succ_inl hs n).symm.trans hn)
      | inr u => exact ((returns_inr hs).mp ⟨n + 1, hn⟩).symm.trans ((returns_inr hs).mp h')

/-- A step that may meet a fault before it goes on. -/
theorem returns_bind {α : Type} {x : Except ε α} {f : α → σ} (h : step s = x >>= fun a => .ok (.inl (f a))) :
    Returns step s r ↔ ∃ a, x = .ok a ∧ Returns step (f a) r := by
  cases x with
  | error e =>
    refine ⟨fun hr => absurd hr (not_returns_error h), ?_⟩
    intro h
    obtain ⟨a, ha, -⟩ := h
    cases ha
  | ok a =>
    rw [returns_inl (t := f a) h]
    refine ⟨fun hr => ⟨a, rfl, hr⟩, ?_⟩
    intro h
    obtain ⟨b, hb, hr⟩ := h
    obtain rfl := Except.ok.inj hb
    exact hr

/-- A step that may meet a fault before the end. -/
theorem returns_bind_inr {x : Except ε ρ} (h : step s = x >>= fun r => .ok (.inr r)) : Returns step s r ↔ x = .ok r := by
  cases x with
  | error e =>
    refine ⟨fun hr => absurd hr (not_returns_error h), fun hr => ?_⟩
    cases hr
  | ok r' =>
    rw [returns_inr h]
    exact ⟨congrArg Except.ok, Except.ok.inj⟩

end Netutils.Lib.Machine
