/-
  Netutils.Lib.Transition — runs of a labelled transition system given by a partial
  step function, and the two rules about runs that only move (no matter in what
  order): a measure that every move lowers ends them, an invariant under which some
  move is always left does not.
-/

import Mathlib.Data.List.Forall2
import Mathlib.Logic.Relation
import Mathlib.Order.WellFounded

namespace Netutils.Lib.Transition

variable {σ α : Type}

/-! ## Runs -/

section Run

variable (step : α → σ → Option σ)

/-- Takes the labels in order; `none` once one of them is not enabled. -/
def run : List α → σ → Option σ
  | [], s => some s
  | a :: as, s => (step a s).bind (run as)

/-- Every step of the run is taken in a state where `ok` allows its label. -/
def Meets (ok : α → σ → Prop) : List α → σ → Prop
  | [], _ => True
  | a :: as, s => ok a s ∧ ∀ t, step a s = some t → Meets ok as t

instance Meets.decide (ok : α → σ → Prop) [∀ a s, Decidable (ok a s)] : ∀ as s, Decidable (Meets step ok as s)
  | [], _ => .isTrue trivial
  | a :: as, s =>
    match h : step a s with
    | none => decidable_of_iff (ok a s) ⟨fun ho => ⟨ho, fun _ ht => nomatch h.symm.trans ht⟩, And.left⟩
    | some t =>
      have := Meets.decide ok as t
      decidable_of_iff (ok a s ∧ Meets step ok as t)
        ⟨fun hm => ⟨hm.1, fun _ hu => Option.some.inj (h.symm.trans hu) ▸ hm.2⟩, fun hm => ⟨hm.1, hm.2 t h⟩⟩

/-- `P` holds in every state of the run. -/
def Always (P : σ → Prop) : List α → σ → Prop
  | [], s => P s
  | a :: as, s => P s ∧ ∀ t, step a s = some t → Always P as t

def Reach (s t : σ) : Prop := ∃ as, run step as s = some t

variable {step}

@[simp] theorem run_nil (s : σ) : run step [] s = some s := rfl

theorem run_cons {a : α} {as : List α} {s u : σ} :
    run step (a :: as) s = some u ↔ ∃ t, step a s = some t ∧ run step as t = some u :=
  Option.bind_eq_some_iff

theorem run_append {as bs : List α} {s u : σ} :
    run step (as ++ bs) s = some u ↔ ∃ t, run step as s = some t ∧ run step bs t = some u := by
  induction as generalizing s with
  | nil => simp
  | cons a as ih =>
    rw [List.cons_append, run_cons]
    constructor
    · intro h
      obtain ⟨v, hv, hr⟩ := h
      obtain ⟨t, ht, hu⟩ := ih.mp hr
      exact ⟨t, run_cons.mpr ⟨v, hv, ht⟩, hu⟩
    · intro h
      obtain ⟨t, ht, hu⟩ := h
      obtain ⟨v, hv, ht⟩ := run_cons.mp ht
      exact ⟨v, hv, ih.mpr ⟨t, ht, hu⟩⟩

theorem Always.here {P : σ → Prop} {as : List α} {s : σ} (h : Always step P as s) : P s := by
  cases as with
  | nil => exact h
  | cons a as => exact h.1

theorem always_append {P : σ → Prop} {as bs : List α} {s : σ} :
    Always step P (as ++ bs) s ↔ Always step P as s ∧ ∀ t, run step as s = some t → Always step P bs t := by
  induction as generalizing s with
  | nil => exact ⟨fun h => ⟨h.here, fun _ ht => Option.some.inj ht ▸ h⟩, fun h => h.2 s rfl⟩
  | cons a as ih =>
    constructor
    · intro h
      obtain ⟨hs, hall⟩ := h
      refine ⟨⟨hs, fun v hv => (ih.mp (hall v hv)).1⟩, fun t ht => ?_⟩
      obtain ⟨v, hv, ht⟩ := run_cons.mp ht
      exact (ih.mp (hall v hv)).2 t ht
    · intro h
      obtain ⟨⟨hs, hall⟩, hbs⟩ := h
      exact ⟨hs, fun v hv => ih.mpr ⟨hall v hv, fun t ht => hbs t (run_cons.mpr ⟨v, hv, ht⟩)⟩⟩

/-- The invariant rule: what every step keeps, every run keeps. -/
theorem run_inv {P : σ → Prop} (hstep : ∀ a s t, P s → step a s = some t → P t) {as : List α} {s t : σ}
    (hs : P s) (h : run step as s = some t) : P t := by
  induction as generalizing s with
  | nil => simp at h; subst h; exact hs
  | cons a as ih =>
    obtain ⟨u, hu, hr⟩ := run_cons.mp h
    exact ih (hstep a s u hs hu) hr

/-- The same, where only the allowed steps keep it. -/
theorem run_inv_meets {ok : α → σ → Prop} {P : σ → Prop}
    (hstep : ∀ a s t, P s → ok a s → step a s = some t → P t) {as : List α} {s t : σ}
    (hs : P s) (hm : Meets step ok as s) (h : run step as s = some t) : P t := by
  induction as generalizing s with
  | nil => simp at h; subst h; exact hs
  | cons a as ih =>
    obtain ⟨u, hu, hr⟩ := run_cons.mp h
    exact ih (hstep a s u hs hm.1 hu) (hm.2 u hu) hr

theorem Meets.initial {ok : α → σ → Prop} {as bs : List α} {s : σ} (h : Meets step ok as s) (hb : bs <+: as) :
    Meets step ok bs s := by
  induction bs generalizing as s with
  | nil => trivial
  | cons b bs ih =>
    obtain ⟨cs, rfl⟩ := hb
    exact ⟨h.1, fun t ht => ih (h.2 t ht) (List.prefix_append bs cs)⟩

/-- The rule for what, once lost, is never regained: it still holds after a run exactly where
    every step of the run was allowed. -/
theorem run_inv_iff {ok : α → σ → Prop} {P Q : σ → Prop}
    (hstep : ∀ a s t, P s → step a s = some t → P t ∧ (Q t ↔ Q s ∧ ok a s)) {as : List α} {s t : σ}
    (hs : P s) (h : run step as s = some t) : Q t ↔ Q s ∧ Meets step ok as s := by
  induction as generalizing s with
  | nil => simp at h; subst h; exact ⟨fun hq => ⟨hq, trivial⟩, fun hq => hq.1⟩
  | cons a as ih =>
    obtain ⟨u, hu, hr⟩ := run_cons.mp h
    obtain ⟨hp, hq⟩ := hstep a s u hs hu
    rw [ih hp hr, hq]
    constructor
    · intro h
      obtain ⟨⟨hqs, hok⟩, hm⟩ := h
      refine ⟨hqs, hok, ?_⟩
      intro u' hu'
      rw [hu] at hu'
      obtain rfl := Option.some.inj hu'
      exact hm
    · intro h
      obtain ⟨hqs, hok, hm⟩ := h
      exact ⟨⟨hqs, hok⟩, hm u hu⟩

/-- The rule for what holds all along, in a run whose steps all meet `pre`: it holds in every
    state of the run exactly where every step was allowed, if the allowed steps are those
    that keep it. -/
theorem run_always_iff_of_meets {pre ok : α → σ → Prop} {P : σ → Prop}
    (hstep : ∀ a s t, P s → pre a s → step a s = some t → (P t ↔ ok a s)) {as : List α} {s t : σ}
    (hs : P s) (hp : Meets step pre as s) (h : run step as s = some t) :
    (∀ bs u, bs <+: as → run step bs s = some u → P u) ↔ Meets step ok as s := by
  induction as generalizing s with
  | nil =>
    refine ⟨fun _ => trivial, fun _ bs u hpre hu => ?_⟩
    obtain rfl := List.prefix_nil.mp hpre
    obtain rfl := Option.some.inj hu
    exact hs
  | cons a as ih =>
    obtain ⟨v, hv, hr⟩ := run_cons.mp h
    obtain ⟨hpa, hp⟩ := hp
    constructor
    · intro hall
      have hpv : P v := hall [a] v (List.cons_prefix_cons.mpr ⟨rfl, List.nil_prefix⟩) (run_cons.mpr ⟨v, hv, rfl⟩)
      refine ⟨(hstep a s v hs hpa hv).mp hpv, fun w hw => ?_⟩
      obtain rfl := Option.some.inj (hv.symm.trans hw)
      refine (ih hpv (hp v hv) hr).mp fun bs u hpre hu =>
        hall (a :: bs) u (List.cons_prefix_cons.mpr ⟨rfl, hpre⟩) ?_
      exact run_cons.mpr ⟨v, hv, hu⟩
    · intro h bs u hpre hu
      obtain ⟨hok, hm⟩ := h
      have hpv : P v := (hstep a s v hs hpa hv).mpr hok
      cases bs with
      | nil =>
        obtain rfl := Option.some.inj hu
        exact hs
      | cons b bs =>
        obtain ⟨rfl, hpre'⟩ := List.cons_prefix_cons.mp hpre
        obtain ⟨w, hw, hu⟩ := run_cons.mp hu
        obtain rfl := Option.some.inj (hv.symm.trans hw)
        exact (ih hpv (hp v hv) hr).mpr (hm v hv) bs u hpre' hu

theorem meets_true (as : List α) (s : σ) : Meets step (fun _ _ => True) as s := by
  induction as generalizing s with
  | nil => trivial
  | cons a as ih => exact ⟨trivial, fun t _ => ih t⟩

theorem run_always_iff {ok : α → σ → Prop} {P : σ → Prop}
    (hstep : ∀ a s t, P s → step a s = some t → (P t ↔ ok a s)) {as : List α} {s t : σ}
    (hs : P s) (h : run step as s = some t) :
    (∀ bs u, bs <+: as → run step bs s = some u → P u) ↔ Meets step ok as s :=
  run_always_iff_of_meets (fun a s t hs _ => hstep a s t hs) hs (meets_true as s) h

/-- The rule for what can be seen to go wrong: `Q` holds in every state of the run exactly where
    every step was allowed, if the allowed steps keep the stronger `P` and the others do not
    lead to `Q`. -/
theorem run_visible_iff {ok : α → σ → Prop} {P Q : σ → Prop} (hPQ : ∀ s, P s → Q s)
    (hstep : ∀ a s t, P s → step a s = some t → (ok a s → P t) ∧ (Q t → ok a s)) {as : List α} {s t : σ}
    (hs : P s) (h : run step as s = some t) :
    (∀ bs u, bs <+: as → run step bs s = some u → Q u) ↔ Meets step ok as s := by
  induction as generalizing s with
  | nil =>
    refine ⟨fun _ => trivial, fun _ bs u hpre hu => ?_⟩
    obtain rfl := List.prefix_nil.mp hpre
    obtain rfl := Option.some.inj hu
    exact hPQ s hs
  | cons a as ih =>
    obtain ⟨v, hv, hr⟩ := run_cons.mp h
    obtain ⟨hkeeps, hshows⟩ := hstep a s v hs hv
    constructor
    · intro hall
      have hok : ok a s := hshows (hall [a] v (List.cons_prefix_cons.mpr ⟨rfl, List.nil_prefix⟩) (run_cons.mpr ⟨v, hv, rfl⟩))
      refine ⟨hok, fun w hw => ?_⟩
      obtain rfl := Option.some.inj (hv.symm.trans hw)
      refine (ih (hkeeps hok) hr).mp fun bs u hpre hu =>
        hall (a :: bs) u (List.cons_prefix_cons.mpr ⟨rfl, hpre⟩) ?_
      exact run_cons.mpr ⟨v, hv, hu⟩
    · intro h bs u hpre hu
      obtain ⟨hok, hm⟩ := h
      cases bs with
      | nil =>
        obtain rfl := Option.some.inj hu
        exact hPQ s hs
      | cons b bs =>
        obtain ⟨rfl, hpre'⟩ := List.cons_prefix_cons.mp hpre
        obtain ⟨w, hw, hu⟩ := run_cons.mp hu
        obtain rfl := Option.some.inj (hv.symm.trans hw)
        exact (ih (hkeeps hok) hr).mpr (hm v hv) bs u hpre' hu

/-- The trace rule: where every allowed step appends to `out` something that `R` allows its
    label, a run appends such things in turn. -/
theorem run_trace {γ : Type} {ok : α → σ → Prop} {P : σ → Prop} {out : σ → List γ} {R : α → List γ → Prop}
    (hstep : ∀ a s t, P s → ok a s → step a s = some t → P t ∧ ∃ m, R a m ∧ out t = out s ++ m)
    {as : List α} {s t : σ} (hs : P s) (hm : Meets step ok as s) (h : run step as s = some t) :
    P t ∧ ∃ ms, List.Forall₂ R as ms ∧ out t = out s ++ ms.flatten := by
  induction as generalizing s with
  | nil => simp at h; subst h; exact ⟨hs, [], .nil, by simp⟩
  | cons a as ih =>
    obtain ⟨u, hu, hr⟩ := run_cons.mp h
    obtain ⟨hp, m, hR, ho⟩ := hstep a s u hs hm.1 hu
    obtain ⟨hp', ms, hms, ho'⟩ := ih hp (hm.2 u hu) hr
    exact ⟨hp', m :: ms, .cons hR hms, by rw [ho', ho, List.flatten_cons, List.append_assoc]⟩

/-- The simulation rule: a relation that each step takes along, whatever labels are still to come,
    a whole run takes along. -/
theorem run_sim {τ : Type} {step' : α → τ → Option τ} {R : List α → σ → τ → Prop}
    (hstep : ∀ a as s s' t, R (a :: as) s t → step a s = some s' → ∃ t', step' a t = some t' ∧ R as s' t')
    {as : List α} {s s' : σ} {t : τ} (hs : R as s t) (h : run step as s = some s') :
    ∃ t', run step' as t = some t' ∧ R [] s' t' := by
  induction as generalizing s t with
  | nil =>
    obtain rfl := Option.some.inj h
    exact ⟨t, rfl, hs⟩
  | cons a as ih =>
    obtain ⟨u, hu, hr⟩ := run_cons.mp h
    obtain ⟨v, hv, hR⟩ := hstep a as s u t hs hu
    obtain ⟨t', ht', hR'⟩ := ih hR hr
    exact ⟨t', run_cons.mpr ⟨v, hv, ht'⟩, hR'⟩

theorem reach_inv {P : σ → Prop} (hstep : ∀ a s t, P s → step a s = some t → P t) {s t : σ}
    (hs : P s) (h : Reach step s t) : P t := by
  obtain ⟨as, h⟩ := h
  exact run_inv hstep hs h

end Run

/-! ## Runs that end -/

/-- No infinite sequence of moves starts in `s`. -/
def Ends (move : σ → σ → Prop) (s : σ) : Prop :=
  ¬ ∃ f : Nat → σ, f 0 = s ∧ ∀ n, move (f n) (f (n + 1))

variable {move : σ → σ → Prop} {inv : σ → Prop}

/-- Every move lowers the rank. -/
theorem ends_of_rank {P : Nat → σ → Prop} (hstep : ∀ n s t, P n s → move s t → ∃ m, m < n ∧ P m t) {n : Nat} {s : σ}
    (hs : P n s) : Ends move s := by
  induction n using Nat.strong_induction_on generalizing s with
  | h n ih =>
    intro h
    obtain ⟨f, rfl, hf⟩ := h
    obtain ⟨m, hm, ht⟩ := hstep n _ _ hs (hf 0)
    exact ih m hm ht ⟨fun i => f (i + 1), rfl, fun i => hf (i + 1)⟩

theorem ends_of_measure (μ : σ → Nat) (hinv : ∀ s t, inv s → move s t → inv t)
    (hμ : ∀ s t, inv s → move s t → μ t < μ s) {s : σ} (hs : inv s) : Ends move s := by
  refine ends_of_rank (P := fun n s => inv s ∧ μ s = n) ?_ ⟨hs, rfl⟩
  rintro n s t ⟨hi, rfl⟩ hmove
  exact ⟨μ t, hμ s t hi hmove, hinv s t hi hmove, rfl⟩

theorem not_ends_of_progress (hprog : ∀ s, inv s → ∃ t, move s t ∧ inv t) {s : σ} (hs : inv s) :
    ¬ Ends move s := by
  intro hE
  -- the sequence of successors picked by `hprog`, each carrying its invariant
  let next : {s // inv s} → {s // inv s} := fun x =>
    ⟨Classical.choose (hprog x.1 x.2), (Classical.choose_spec (hprog x.1 x.2)).2⟩
  apply hE
  refine ⟨fun n => (next^[n] ⟨s, hs⟩).1, rfl, ?_⟩
  intro n
  show move (next^[n] ⟨s, hs⟩).1 (next^[n + 1] ⟨s, hs⟩).1
  rw [Function.iterate_succ_apply']
  exact (Classical.choose_spec (hprog _ (next^[n] ⟨s, hs⟩).2)).1

/-- Where the moves end, there is a state to end in. -/
theorem Ends.exists_final {s : σ} (h : Ends move s) : ∃ t, Relation.ReflTransGen move s t ∧ ∀ u, ¬ move t u := by
  by_contra hnone
  push Not at hnone
  have hprog : ∀ t, Relation.ReflTransGen move s t → ∃ u, move t u ∧ Relation.ReflTransGen move s u := by
    intro t ht
    obtain ⟨u, hu⟩ := hnone t ht
    exact ⟨u, hu, ht.tail hu⟩
  exact not_ends_of_progress hprog .refl h

end Netutils.Lib.Transition
