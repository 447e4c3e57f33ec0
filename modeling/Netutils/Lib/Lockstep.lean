/-
  Netutils.Lib.Lockstep — two procedures that take the items of one agenda together.

  The second says what the first is to do. It agrees with the first wherever that one gives a
  result or exits, if each call does so as long as what is left can be done (`Lockstep.agrees`).
-/

import Netutils.Lib.Agenda

namespace Netutils.Lib.Agenda

variable {τ σ ε : Type} {step step' : τ → List (Item τ)} {is js : List (Item τ)} {t : τ}

/-! ## Agendas that can be done -/

theorem safe_task : Safe step (.task t :: is) ↔ Safe step (step t ++ is) := by
  constructor
  · exact Safe.next
  · intro h k rest
    cases k with
    | zero => exact nofun
    | succ k => exact h k rest

theorem not_safe_leave : ¬ Safe step (.leave :: is) := fun h => h 0 is rfl

/-- Up to an item that cannot be done, the items are the same. -/
def Earlier (is is' : List (Item τ)) : Prop := is = is' ∨ ∃ done rest rest', is = done ++ .leave :: rest ∧ is' = done ++ rest'

theorem Earlier.append (h : Earlier is js) (bs : List (Item τ)) : Earlier (is ++ bs) (js ++ bs) := by
  rcases h with rfl | ⟨done, rest, rest', rfl, rfl⟩
  · exact .inl rfl
  · exact .inr ⟨done, rest ++ bs, rest' ++ bs, by simp, by simp⟩

/-- Tasks that make some of the items impossible can be done only if all could. -/
theorem Safe.of_earlier (hstep : ∀ t, Earlier (step t) (step' t)) (his : Earlier is js) (h : Safe step is) : Safe step' js := by
  intro k
  induction k generalizing is js with
  | zero =>
    rintro rest rfl
    rcases his with rfl | ⟨done, rest, rest', rfl, hjs⟩
    · exact not_safe_leave h
    · cases done with
      | nil => exact not_safe_leave h
      | cons i done =>
        obtain ⟨rfl, -⟩ := List.cons.inj hjs
        exact not_safe_leave h
  | succ k ih =>
    refine ih ?_ h.next
    rcases his with rfl | ⟨done, rest, rest', rfl, rfl⟩
    · cases is with
      | nil => exact .inl rfl
      | cons i is =>
        cases i with
        | task t => exact (hstep t).append is
        | quit => exact .inl rfl
        | leave => exact .inl rfl
    · cases done with
      | nil => exact absurd h not_safe_leave
      | cons i done =>
        cases i with
        | quit => exact .inl rfl
        | leave => exact absurd h not_safe_leave
        | task t =>
          rcases hstep t with heq | ⟨d, r, r', hd, hd'⟩
          · exact .inr ⟨step t ++ done, rest, rest', by simp [Agenda.next], by simp [Agenda.next, heq]⟩
          · exact .inr ⟨d, r ++ (done ++ .leave :: rest), r' ++ (done ++ rest'), by simp [Agenda.next, hd], by simp [Agenda.next, hd']⟩

/-! ## Two computations -/

variable (call call' : τ → σ → Except ε σ) (Exit : ε → Prop)

/-- They do these items one after another, each with a call of its own for a task; the first may
    also fail. -/
inductive Lockstep : List (Item τ) → Except ε σ → Except ε σ → Prop
  | done (s : σ) : Lockstep [] (.ok s) (.ok s)
  | quit {is : List (Item τ)} {e : ε} : Lockstep (.quit :: is) (.error e) (.error e)
  | leave {is : List (Item τ)} {x y : Except ε σ} : Lockstep (.leave :: is) x y
  | fails {is : List (Item τ)} {e : ε} {y : Except ε σ} : ¬ Exit e → Lockstep is (.error e) y
  | task {t : τ} {is : List (Item τ)} {f g : σ → Except ε σ} (s : σ) :
    (∀ s, Lockstep is (f s) (g s)) → Lockstep (.task t :: is) (call t s >>= f) (call' t s >>= g)

/-- A result, or an exit, of the first is one of the second, and then this holds of a result. -/
def Agrees (P : Prop) (x y : Except ε σ) : Prop :=
  match x with
  | .ok s => y = .ok s ∧ P
  | .error e => Exit e → y = .error e

variable {call call' Exit} {P Q : Prop} {x y : Except ε σ} {f g : σ → Except ε σ} {tired : Prop}

theorem Agrees.bind (h : Agrees Exit P x y) (hf : P → ∀ s, Agrees Exit Q (f s) (g s)) : Agrees Exit Q (x >>= f) (y >>= g) := by
  cases x with
  | ok s =>
    obtain ⟨rfl, hP⟩ := h
    exact hf hP s
  | error e =>
    intro he
    rw [h he]
    rfl

namespace Lockstep

theorem last (t : τ) (s : σ) : Lockstep call call' Exit [.task t] (call t s) (call' t s) := by
  have h : Lockstep call call' Exit [.task t] (call t s >>= pure) (call' t s >>= pure) := .task s .done
  rwa [bind_pure, bind_pure] at h

theorem bind (h : Lockstep call call' Exit is x y) (hf : ∀ s, Lockstep call call' Exit js (f s) (g s)) :
    Lockstep call call' Exit (is ++ js) (x >>= f) (y >>= g) := by
  induction h with
  | done s => exact hf s
  | quit => exact .quit
  | leave => exact .leave
  | fails he => exact .fails he
  | task s _ ih =>
    rw [bind_assoc, bind_assoc]
    exact .task s ih

theorem foldlM {α : Type} {body body' : σ → α → Except ε σ} {items : α → List (Item τ)}
    (h : ∀ s a, Lockstep call call' Exit (items a) (body s a) (body' s a)) (l : List α) (s : σ) :
    Lockstep call call' Exit (l.flatMap items) (l.foldlM body s) (l.foldlM body' s) := by
  induction l generalizing s with
  | nil => exact .done s
  | cons a l ih =>
    rw [List.flatMap_cons, List.foldlM_cons, List.foldlM_cons]
    exact (h s a).bind ih

/-- Without a task there is no call, and one computation is both. -/
theorem of_goes (h : Goes call Exit tired is x) (hno : ∀ t, .task t ∉ is) : Lockstep call call' Exit is x x := by
  cases h with
  | done s => exact .done s
  | quit => exact .quit
  | leave => exact .leave
  | tired _ he => exact .fails he
  | task => exact absurd List.mem_cons_self (hno _)

/-- The calls agree, as long as what is left can be done; then so do the computations. -/
theorem agrees (h : Lockstep call call' Exit is x y)
    (hcall : ∀ t, .task t ∈ is → ∀ s js, Safe step (.task t :: js) → Agrees Exit (Safe step js) (call t s) (call' t s))
    (hsafe : Safe step (is ++ js)) : Agrees Exit (Safe step js) x y := by
  induction h with
  | done s => exact ⟨rfl, hsafe⟩
  | quit => exact fun _ => rfl
  | leave => exact absurd hsafe not_safe_leave
  | fails he => exact fun h => absurd h he
  | task s _ ih =>
    apply (hcall _ List.mem_cons_self s _ hsafe).bind
    exact fun hrest s => ih s (fun t ht => hcall t (List.mem_cons_of_mem _ ht)) hrest

end Lockstep

end Netutils.Lib.Agenda
