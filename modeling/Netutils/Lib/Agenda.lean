/-
  Netutils.Lib.Agenda — a recursive procedure, and the list of what it still has to do.

  A task makes further items, which come before all others on the agenda. An item may also end
  everything, or be one that is left undone. A procedure that takes the items of its task one
  after another, each task by a call, gives a result if and only if its agenda comes to an end
  (`upto_iff_ends`); where tasks only make smaller ones, that is if and only if no item is left
  (`ends_iff_safe`).
-/

import Mathlib.Data.Nat.Init
import Mathlib.Logic.Function.Iterate
import Mathlib.Order.WellFounded
import Netutils.Lib.Faults

namespace Netutils.Lib.Agenda

open Netutils.Lib.Faults

/-! ## The agenda -/

inductive Item (τ : Type) where
  | task (t : τ)
  /-- Ends everything. -/
  | quit
  /-- Cannot be done. -/
  | leave
  deriving DecidableEq

variable {τ σ ε : Type} (step : τ → List (Item τ))

def next : List (Item τ) → List (Item τ)
  | [] => []
  | .task t :: is => step t ++ is
  | .quit :: _ => []
  | .leave :: is => .leave :: is

/-- It is empty after so many steps. -/
def EndsIn (k : Nat) (is : List (Item τ)) : Prop := (next step)^[k] is = []

def Ends (is : List (Item τ)) : Prop := ∃ k, EndsIn step k is

/-- It never begins with an item that cannot be done. -/
def Safe (is : List (Item τ)) : Prop := ∀ k rest, (next step)^[k] is ≠ .leave :: rest

variable {step} {is js : List (Item τ)} {t : τ} {k : Nat}

theorem endsIn_task : EndsIn step (k + 1) (.task t :: is) ↔ EndsIn step k (step t ++ is) := Iff.rfl

theorem iterate_nil (k : Nat) : (next step)^[k] [] = [] := Function.iterate_fixed rfl k

theorem iterate_leave (k : Nat) (is : List (Item τ)) : (next step)^[k] (.leave :: is) = .leave :: is :=
  Function.iterate_fixed rfl k

theorem not_endsIn_leave : ¬ EndsIn step k (.leave :: is) := by
  intro h
  rw [EndsIn, iterate_leave] at h
  cases h

theorem ends_nil : Ends step [] := ⟨0, rfl⟩

theorem ends_quit : Ends step (.quit :: is) := ⟨1, rfl⟩

theorem Ends.task (h : Ends step (step t ++ is)) : Ends step (.task t :: is) := by
  obtain ⟨k, hk⟩ := h
  exact ⟨k + 1, hk⟩

/-- What has come to its end has left nothing. -/
theorem Ends.safe (h : Ends step is) : Safe step is := by
  obtain ⟨k, hk⟩ := h
  intro j rest hj
  rcases Nat.le_total j k with hle | hle
  · obtain ⟨i, rfl⟩ := Nat.exists_eq_add_of_le hle
    rw [EndsIn, Nat.add_comm, Function.iterate_add_apply, hj, iterate_leave] at hk
    cases hk
  · obtain ⟨i, rfl⟩ := Nat.exists_eq_add_of_le hle
    rw [Nat.add_comm, Function.iterate_add_apply, hk, iterate_nil] at hj
    cases hj

theorem Safe.next (h : Safe step is) : Safe step (next step is) := fun k rest => h (k + 1) rest

/-! ## Smaller tasks -/

/-- Where every task makes smaller ones only, the agenda comes to its end, or to an item that
    cannot be done. -/
theorem ends_of_safe {r : τ → τ → Prop} (hr : WellFounded r) (hstep : ∀ t c, .task c ∈ step t → r c t)
    (h : Safe step is) : Ends step is := by
  have htask : ∀ t is, (Safe step is → Ends step is) → Safe step (.task t :: is) → Ends step (.task t :: is) := by
    intro t
    induction t using hr.induction with
    | _ t ih =>
      intro is his hsafe
      apply Ends.task
      -- the items that the task makes, taken together with those behind
      have happend : ∀ cs, (∀ c, .task c ∈ cs → .task c ∈ step t) → Safe step (cs ++ is) → Ends step (cs ++ is) := by
        intro cs
        induction cs with
        | nil => exact fun _ => his
        | cons c cs ihcs =>
          intro hcs hsafe
          cases c with
          | quit => exact ends_quit
          | leave => exact absurd rfl (hsafe 0 (cs ++ is))
          | task c =>
            apply ih c (hstep t c (hcs c List.mem_cons_self)) _ _ hsafe
            exact ihcs fun d hd => hcs d (List.mem_cons_of_mem _ hd)
      exact happend (step t) (fun _ => id) hsafe.next
  induction is with
  | nil => exact ends_nil
  | cons i is ih =>
    cases i with
    | quit => exact ends_quit
    | leave => exact absurd rfl (h 0 is)
    | task t => exact htask t is ih h

theorem ends_iff_safe {r : τ → τ → Prop} (hr : WellFounded r) (hstep : ∀ t c, .task c ∈ step t → r c t) :
    Ends step is ↔ Safe step is :=
  ⟨Ends.safe, ends_of_safe hr hstep⟩

/-! ## Procedures -/

section Procedure

variable (call : τ → σ → Except ε σ) (Exit : ε → Prop) (tired : Prop)

/-- A computation that does these items one after another, calling for each task; when it is
    tired it may give up. -/
inductive Goes : List (Item τ) → Except ε σ → Prop
  | done (s : σ) : Goes [] (.ok s)
  | quit {is : List (Item τ)} {e : ε} : Exit e → Goes (.quit :: is) (.error e)
  | leave {is : List (Item τ)} {e : ε} : ¬ Exit e → Goes (.leave :: is) (.error e)
  | tired {is : List (Item τ)} {e : ε} : tired → ¬ Exit e → Goes is (.error e)
  | task {t : τ} {is : List (Item τ)} {f : σ → Except ε σ} (s : σ) :
    (∀ s, Goes is (f s)) → Goes (.task t :: is) (call t s >>= f)

variable {call Exit tired} {x : Except ε σ} {f : σ → Except ε σ}

theorem Goes.last (t : τ) (s : σ) : Goes call Exit tired [.task t] (call t s) := by
  have h : Goes call Exit tired [.task t] (call t s >>= pure) := .task s .done
  rwa [bind_pure] at h

theorem Goes.bind (h : Goes call Exit tired is x) (hf : ∀ s, Goes call Exit tired js (f s)) :
    Goes call Exit tired (is ++ js) (x >>= f) := by
  induction h with
  | done s => exact hf s
  | quit he => exact .quit he
  | leave he => exact .leave he
  | tired ht he => exact .tired ht he
  | task s _ ih =>
    rw [bind_assoc]
    exact .task s ih

theorem Goes.foldlM {α : Type} {body : σ → α → Except ε σ} {items : α → List (Item τ)}
    (h : ∀ s a, Goes call Exit tired (items a) (body s a)) (l : List α) (s : σ) :
    Goes call Exit tired (l.flatMap items) (l.foldlM body s) := by
  induction l generalizing s with
  | nil => exact .done s
  | cons a l ih =>
    rw [List.flatMap_cons, List.foldlM_cons]
    exact (h s a).bind ih

/-- What comes behind ends after the computation only if the whole agenda does. -/
theorem Goes.ends (h : Goes call Exit tired is x)
    (hcall : ∀ t s js, Upto Exit (fun _ => Ends step js) (call t s) → Ends step (.task t :: js))
    (hx : Upto Exit (fun _ => Ends step js) x) : Ends step (is ++ js) := by
  induction h with
  | done s => exact hx
  | quit => exact ends_quit
  | leave he => exact absurd hx he
  | tired _ he => exact absurd hx he
  | task s _ ih =>
    apply hcall _ s
    rw [upto_bind] at hx
    exact hx.mono ih

end Procedure

/-- From some number on, whether or not there is anything to show. -/
theorem eventually_of_imp {A : Prop} {B : Nat → Prop} (h : A → ∃ n, ∀ m ≥ n, B m) : ∃ n, ∀ m ≥ n, A → B m := by
  by_cases ha : A
  · obtain ⟨n, hn⟩ := h ha
    exact ⟨n, fun m hm _ => hn m hm⟩
  · exact ⟨0, fun m _ hA => absurd hA ha⟩

/-- With so many calls inside one another, a task takes its items in their order. -/
structure Follows (step : τ → List (Item τ)) (call : Nat → τ → σ → Except ε σ) (Exit : ε → Prop)
    (tired : Nat → τ → Prop) : Prop where
  zero : ∀ t s, ¬ Upto Exit (fun _ => True) (call 0 t s)
  succ : ∀ n t s, Goes (call n) Exit (tired n t) (step t) (call (n + 1) t s)
  rested : ∀ t, ∃ n, ∀ m ≥ n, ¬ tired m t

variable {call : Nat → τ → σ → Except ε σ} {Exit : ε → Prop} {tired : Nat → τ → Prop}

/-- The task's call ends as well, and what comes behind it is left with fewer steps. -/
def CallEnds (step : τ → List (Item τ)) (call : Nat → τ → σ → Except ε σ) (Exit : ε → Prop) (k : Nat) (t : τ)
    (js : List (Item τ)) : Prop :=
  EndsIn step k (.task t :: js) → ∃ n, ∀ m ≥ n, ∀ s, Upto Exit (fun _ => ∃ i < k, EndsIn step i js) (call m t s)

theorem Goes.upto (hcall : ∀ i ≤ k, ∀ t js, CallEnds step call Exit i t js) (hk : EndsIn step k (is ++ js)) :
    ∃ n, ∀ m ≥ n, ∀ c x, ¬ tired m c → Goes (call m) Exit (tired m c) is x →
      Upto Exit (fun _ => ∃ i ≤ k, EndsIn step i js) x := by
  induction is generalizing k with
  | nil =>
    refine ⟨0, fun m _ c x hrest hx => ?_⟩
    cases hx with
    | done s => exact ⟨k, Nat.le_refl k, hk⟩
    | tired ht => exact absurd ht hrest
  | cons c is ih =>
    cases c with
    | quit =>
      refine ⟨0, fun m _ c x hrest hx => ?_⟩
      cases hx with
      | quit he => exact he
      | tired ht => exact absurd ht hrest
    | leave => exact absurd hk not_endsIn_leave
    | task t =>
      obtain ⟨n, hn⟩ := hcall k (Nat.le_refl k) t (is ++ js) hk
      -- the items behind the call, should it come back
      have hback : (∃ i < k, EndsIn step i (is ++ js)) → ∃ n, ∀ m ≥ n, ∀ c x, ¬ tired m c →
          Goes (call m) Exit (tired m c) is x → Upto Exit (fun _ => ∃ i ≤ k, EndsIn step i js) x := by
        intro h
        obtain ⟨i, hi, hend⟩ := h
        obtain ⟨n, hn⟩ := ih (fun j hj => hcall j (by omega)) hend
        refine ⟨n, fun m hm c x hrest hx => (hn m hm c x hrest hx).mono fun _ h => ?_⟩
        obtain ⟨j, hj, hend⟩ := h
        exact ⟨j, by omega, hend⟩
      obtain ⟨n', hn'⟩ := eventually_of_imp hback
      refine ⟨max n n', fun m hm c x hrest hx => ?_⟩
      cases hx with
      | tired ht => exact absurd ht hrest
      | task s hf =>
        rw [upto_bind]
        exact (hn m (by omega) s).mono fun s' h => hn' m (by omega) h c _ hrest (hf s')

namespace Follows

theorem ends (h : Follows step call Exit tired) (n : Nat) (t : τ) (s : σ) (js : List (Item τ))
    (hx : Upto Exit (fun _ => Ends step js) (call n t s)) : Ends step (.task t :: js) := by
  induction n generalizing t s js with
  | zero => exact absurd (hx.mono fun _ _ => trivial) (h.zero t s)
  | succ n ih => exact Ends.task ((h.succ n t s).ends ih hx)

theorem callEnds (h : Follows step call Exit tired) (k : Nat) (t : τ) (js : List (Item τ)) :
    CallEnds step call Exit k t js := by
  induction k using Nat.strong_induction_on generalizing t js with
  | _ k ih =>
    intro hk
    cases k with
    | zero => cases hk
    | succ k =>
      obtain ⟨n, hn⟩ := Goes.upto (fun i hi => ih i (by omega)) (endsIn_task.mp hk)
      obtain ⟨n', hn'⟩ := h.rested t
      refine ⟨max n n' + 1, fun m hm s => ?_⟩
      obtain ⟨m, rfl⟩ := Nat.exists_eq_add_one_of_ne_zero (n := m) (by omega)
      refine (hn m (by omega) t _ (hn' m (by omega)) (h.succ m t s)).mono fun _ h => ?_
      obtain ⟨i, hi, hend⟩ := h
      exact ⟨i, by omega, hend⟩

/-- Enough calls inside one another give a result, or leave by an exit, if and only if the
    agenda comes to its end. -/
theorem upto_iff_ends (h : Follows step call Exit tired) (t : τ) (s : σ) :
    (∃ n, Upto Exit (fun _ => True) (call n t s)) ↔ Ends step [.task t] := by
  constructor
  · intro hx
    obtain ⟨n, hn⟩ := hx
    exact h.ends n t s [] (hn.mono fun _ _ => ends_nil)
  · intro hends
    obtain ⟨k, hk⟩ := hends
    obtain ⟨n, hn⟩ := h.callEnds k t [] hk
    exact ⟨n, (hn n (Nat.le_refl n) s).mono fun _ _ => trivial⟩

end Follows

end Netutils.Lib.Agenda
