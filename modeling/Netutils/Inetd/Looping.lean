/-
  Netutils.Inetd.Looping — when inetd takes a service for looping and terminates it
  (inetd/inetd.c, the main loop).

  What is started is counted since se_time, which is set anew only when the limit is reached
  and the interval has passed. The interval is compared in the seconds of the clock, so that it
  is up to a second longer. Within these bounds no service is terminated for connections that
  are further apart, and none starts twice as many servers as it may (`rate_limited`).
-/

import Netutils.Inetd.Servtab
import Netutils.Lib.Throttle

namespace Netutils.Inetd

open Netutils.Lib Netutils.Lib.Transition

/-! ## Connections in time -/

structure Timeval where
  tv_sec : Int
  tv_usec : Nat
  range : tv_usec < 1000000

def Timeval.micros (t : Timeval) : Int := t.tv_sec * 1000000 + t.tv_usec

/-- A connection for which fork succeeds; `none` if the service is terminated. -/
def serve (toomany : Nat) (now : Timeval) (sep : Servtab) : Option Servtab := sep.start toomany now.tv_sec

/-- toomany or se_max + 1, whichever is smaller. -/
def limit (toomany max : Nat) : Nat := if max = 0 then toomany else min toomany (max + 1)

/-- CNT_INTVL has passed, for all that the seconds say. -/
def expired (start now : Timeval) : Bool := CNT_INTVL < now.tv_sec - start.tv_sec

/-- In CNT_INTVL seconds from `a` on. -/
def Timeval.within (a : Int) (t : Timeval) : Bool := a ≤ t.micros && t.micros ≤ a + CNT_INTVL * 1000000

/-! ## The count as a window -/

variable {toomany : Nat} {sep sep' : Servtab} {now x y : Timeval} {w : Option (Throttle.Window Timeval)} {l : List Timeval}

/-- se_count and se_time. -/
def Shows (sep : Servtab) : Option (Throttle.Window Timeval) → Prop
  | none => sep.count = 0
  | some w => sep.count = w.count ∧ sep.time = w.start.tv_sec ∧ 0 < w.count

theorem tooMany_iff : sep.tooMany toomany = true ↔ ¬ sep.count < limit toomany sep.max := by
  rw [Servtab.tooMany, limit]
  by_cases hmax : sep.max = 0
  · simp [hmax]
  · simp only [hmax, if_false, ne_eq, not_false_eq_true, decide_true, Bool.true_and, Bool.or_eq_true, decide_eq_true_eq]
    omega

theorem serve_first (hcount : sep.count = 0) : serve toomany now sep = some { sep with count := 1, time := now.tv_sec } := by
  rw [serve, Servtab.start, if_pos hcount, hcount]

theorem serve_next (hcount : sep.count ≠ 0) : serve toomany now sep =
    if sep.count + 1 < limit toomany sep.max then some { sep with count := sep.count + 1 }
    else if CNT_INTVL < now.tv_sec - sep.time then some { sep with time := now.tv_sec, count := 1 }
    else none := by
  rw [serve, Servtab.start, if_neg hcount]
  by_cases hroom : sep.count + 1 < limit toomany sep.max
  · rw [if_pos hroom, if_neg fun h => tooMany_iff.mp h hroom]
  · rw [if_neg hroom, if_pos (tooMany_iff.mpr hroom)]

/-- The main loop is such a window. -/
theorem serve_arrive (hw : Shows sep w) :
    match serve toomany now sep, Throttle.arrive (limit toomany sep.max) expired now w with
    | none, none => True
    | some sep', some w' => Shows sep' w' ∧ sep'.max = sep.max
    | _, _ => False := by
  cases w with
  | none =>
    rw [serve_first hw]
    exact ⟨⟨rfl, rfl, Nat.one_pos⟩, rfl⟩
  | some w =>
    obtain ⟨hcount, htime, hpos⟩ := hw
    rw [serve_next (by omega), Throttle.arrive, ← hcount, expired, ← htime]
    by_cases hroom : sep.count + 1 < limit toomany sep.max
    · rw [if_pos hroom, if_pos hroom]
      exact ⟨⟨rfl, htime, Nat.succ_pos _⟩, rfl⟩
    · rw [if_neg hroom, if_neg hroom]
      by_cases hpassed : CNT_INTVL < now.tv_sec - sep.time
      · rw [if_pos hpassed, if_pos (decide_eq_true hpassed)]
        exact ⟨⟨rfl, rfl, Nat.one_pos⟩, rfl⟩
      · rw [if_neg hpassed, if_neg (by rw [decide_eq_false hpassed]; exact Bool.false_ne_true)]
        trivial

theorem run_serve (hw : Shows sep w) (h : run (serve toomany) l sep = some sep') :
    ∃ w', run (Throttle.arrive (limit toomany sep.max) expired) l w = some w' ∧ Shows sep' w' ∧ sep'.max = sep.max := by
  induction l generalizing sep w with
  | nil =>
    obtain rfl := Option.some.inj h
    exact ⟨w, rfl, hw, rfl⟩
  | cons now l ih =>
    obtain ⟨t, ht, hrun⟩ := run_cons.mp h
    have hstep := @serve_arrive toomany sep now w hw
    rw [ht] at hstep
    cases hv : Throttle.arrive (limit toomany sep.max) expired now w with
    | none => rw [hv] at hstep; exact hstep.elim
    | some v =>
      rw [hv] at hstep
      simp only at hstep
      obtain ⟨w', hrun', hw', hmax⟩ := ih hstep.1 hrun
      rw [hstep.2] at hrun' hmax
      exact ⟨w', run_cons.mpr ⟨v, hv, hrun'⟩, hw', hmax⟩

/-! ## Time -/

theorem not_expired {a : Int} (hx : x.within a = true) (hy : y.within a = true) : expired x y = false := by
  rw [Timeval.within, Bool.and_eq_true, decide_eq_true_eq, decide_eq_true_eq, Timeval.micros] at hx hy
  have hxrange := x.range
  have hyrange := y.range
  rw [CNT_INTVL] at hx hy
  rw [expired, CNT_INTVL, decide_eq_false_iff_not]
  omega

theorem filter_within (a : Int) (hclock : l.Pairwise fun x y => x.micros ≤ y.micros) :
    ∃ before after, l = before ++ l.filter (Timeval.within a) ++ after := by
  apply Throttle.filter_block _ hclock
  intro x y z hx hz hxy hyz
  rw [Timeval.within, Bool.and_eq_true, decide_eq_true_eq, decide_eq_true_eq] at hx hz ⊢
  omega

/-! ## The limit -/

theorem serve_fd (h : serve toomany now sep = some sep') : sep'.fd = sep.fd := by
  by_cases hcount : sep.count = 0
  · rw [serve_first hcount] at h
    obtain rfl := Option.some.inj h
    rfl
  · rw [serve_next hcount] at h
    split at h
    · obtain rfl := Option.some.inj h
      rfl
    · split at h
      · obtain rfl := Option.some.inj h
        rfl
      · cases h

/-- The main loop closes the descriptor then and only then. -/
theorem connection_terminates (g : Globals) (pid : Pid) (hfork : sep.bi.all Biltin.fork = true) (hfd : sep.fd ≠ none) :
    (connection toomany ⟨true, now.tv_sec, some pid⟩ g sep).2.fd = none ↔ serve toomany now sep = none := by
  rw [connection, if_neg (by simp), if_pos hfork]
  cases hserve : sep.start toomany now.tv_sec with
  | none => exact iff_of_true rfl hserve
  | some t =>
    have ht : t.fd = sep.fd := serve_fd hserve
    have hforked : (forked pid g t).2.fd = t.fd := by
      rw [forked]
      split <;> rfl
    refine iff_of_false ?_ (by rw [serve, hserve]; exact Option.some_ne_none t)
    show ¬ (forked pid g t).2.fd = none
    rw [hforked, ht]
    exact hfd

/-- In every run of connections from a count of zero on: the one at which the service is
    terminated is at least the L-th since one that lies no more than CNT_INTVL back in the
    seconds of the clock, and of what is forked before fewer than 2 L lie in any CNT_INTVL
    seconds. -/
theorem rate_limited (toomany : Nat) (sep t : Servtab) (forks : List Timeval) (hlimit : 2 ≤ limit toomany sep.max)
    (hcount : sep.count = 0) (hclock : forks.Pairwise fun x y => x.micros ≤ y.micros)
    (hrun : run (serve toomany) forks sep = some t) :
    (∀ now, serve toomany now t = none → ∃ before start since, forks = before ++ start :: since ∧
      limit toomany sep.max ≤ (start :: since ++ [now]).length ∧ now.tv_sec - start.tv_sec ≤ CNT_INTVL) ∧
    ∀ a, (forks.filter (Timeval.within a)).length < 2 * limit toomany sep.max := by
  have hshows : Shows sep none := hcount
  obtain ⟨w, hw, hshows', hmax⟩ := run_serve hshows hrun
  constructor
  · intro now hnow
    have hstep := @serve_arrive toomany t now w hshows'
    rw [hnow, hmax] at hstep
    cases hv : Throttle.arrive (limit toomany sep.max) expired now w with
    | some v => rw [hv] at hstep; exact hstep.elim
    | none =>
      obtain ⟨before, start, since, hl, hlen, hexpired⟩ := Throttle.refused_since hw hv
      refine ⟨before, start, since, hl, ?_, ?_⟩
      · simp only [List.length_append, List.length_cons, List.length_nil]
        omega
      · rw [expired, decide_eq_false_iff_not] at hexpired
        omega
  · intro a
    obtain ⟨before, after, hsplit⟩ := filter_within a hclock
    obtain ⟨v, hv, -⟩ := run_append.mp (hsplit ▸ hw)
    refine Throttle.length_block_lt hlimit ?_ hv
    rw [List.pairwise_iff_forall_sublist]
    intro x y hxy
    have hmem := fun z (hz : z ∈ [x, y]) => List.of_mem_filter (hxy.subset hz)
    exact not_expired (hmem x (by simp)) (hmem y (by simp))

/-- A service of which two a minute are too many. -/
def once : Servtab where
  id := 0
  service := [101, 99, 104, 111]
  socktype := .DGRAM
  proto := [117, 100, 112]
  wait := 0
  max := 1
  user := [114, 111, 111, 116]
  bi := none
  server := []
  argv := []
  fd := some 3
  type := .NORM

theorem rate_limited_once :
    (∃ before start since, [⟨0, 0, by decide⟩] = before ++ start :: since ∧
      2 ≤ (start :: since ++ [(⟨30, 0, by decide⟩ : Timeval)]).length ∧ 30 - start.tv_sec ≤ CNT_INTVL) ∧
    ([(⟨0, 0, by decide⟩ : Timeval)].filter (Timeval.within 0)).length < 4 := by
  have h := rate_limited 1000 once _ [⟨0, 0, by decide⟩] (by decide) rfl (List.pairwise_singleton _ _) rfl
  exact ⟨h.1 ⟨30, 0, by decide⟩ rfl, h.2 0⟩

/-- Sixty seconds and a half after the first: only one connection is not further back than
    CNT_INTVL, and yet the service is terminated. -/
theorem terminated_after_the_interval :
    ∃ t, run (serve 1000) [⟨0, 0, by decide⟩] once = some t ∧ serve 1000 ⟨60, 500000, by decide⟩ t = none ∧
      limit 1000 once.max = 2 ∧ ∀ moment : Int, (⟨60, 500000, by decide⟩ : Timeval).micros - moment ≤ CNT_INTVL * 1000000 →
        ([(⟨0, 0, by decide⟩ : Timeval), ⟨60, 500000, by decide⟩].filter fun c => decide (moment ≤ c.micros)).length < 2 := by
  refine ⟨_, rfl, rfl, by decide, fun moment hmoment => ?_⟩
  have hearly : ¬ moment ≤ (⟨0, 0, by decide⟩ : Timeval).micros := by
    simp only [Timeval.micros, CNT_INTVL] at hmoment ⊢
    omega
  rw [List.filter_cons_of_neg (by simpa using hearly)]
  exact Nat.lt_succ_of_le (List.length_filter_le _ _)

end Netutils.Inetd
