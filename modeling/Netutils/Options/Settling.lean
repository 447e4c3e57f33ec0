/-
  Netutils.Options.Settling — when the parties stop answering each other.

  A run's requests are forgotten only where an 8-bit counter turns over, which takes a
  request made with 255 unanswered, in a negotiation that both sides accept. The deliveries
  left after a run end exactly when none of its actions does that (`deliveries_end_iff`).
  With 256 requests unanswered the counter reads zero, every answer is taken for a request
  and answered, and the parties answer each other forever
  (`toggled_256_times_never_settles`).
-/

import Netutils.Options.Agreement

namespace Netutils.Options

open Netutils.Lib.Negotiation
open Netutils.Lib.Transition

/-! ## Runs that keep count -/

/-- A request goes out while the counter stands at its largest value, in a negotiation
    both sides accept. -/
def TurnsOver (both new : Bool) (h : Half) : Prop := both = true ∧ h.asks new ∧ h.resp = 255

/-- The action turns no counter over. -/
def KeepsCount (d t : Policy) : Action → Config → Prop
  | .initiate .telnetd .will, c => ¬ TurnsOver (d.acceptDo && t.acceptWill) true c.telnetd.will
  | .initiate .telnetd .wont, c => ¬ TurnsOver (d.acceptDo && t.acceptWill) false c.telnetd.will
  | .initiate .telnetd .do_, c => ¬ TurnsOver (t.acceptDo && d.acceptWill) true c.telnetd.do_
  | .initiate .telnetd .dont, c => ¬ TurnsOver (t.acceptDo && d.acceptWill) false c.telnetd.do_
  | .initiate .telnet .will, c => ¬ TurnsOver (t.acceptDo && d.acceptWill) true c.telnet.will
  | .initiate .telnet .wont, c => ¬ TurnsOver (t.acceptDo && d.acceptWill) false c.telnet.will
  | .initiate .telnet .do_, c => ¬ TurnsOver (d.acceptDo && t.acceptWill) true c.telnet.do_
  | .initiate .telnet .dont, c => ¬ TurnsOver (d.acceptDo && t.acceptWill) false c.telnet.do_
  | .deliver _, _ => True

theorem keepsCount_iff (d t : Policy) (a : Action) (c : Config) :
    KeepsCount d t a c ↔ forgetsP d t a c = 0 ∧ forgetsR d t a c = 0 := by
  cases a with
  | initiate p v =>
    cases p <;> cases v <;>
      simp [KeepsCount, TurnsOver, forgetsP, forgetsR, forgotten, performedMove, requestedMove, willValue, doValue,
        Action.mirror, Party.other, Link.forgets, Config.performed, Config.requested, Config.mirror, respRange]
  | deliver p =>
    have recv : ∀ okA okB (l : Link) (o : Option Bool) (m : Move), (m = .recvA ∨ m = .recvB) →
        forgotten okA okB (o.map fun _ => m) l = 0 := by
      intro okA okB l o m hm
      rcases o with _ | x
      · rfl
      · rcases hm with rfl | rfl <;> rfl
    cases p
    · exact ⟨fun _ => ⟨recv _ _ _ _ _ (Or.inl rfl), recv _ _ _ _ _ (Or.inr rfl)⟩, fun _ => trivial⟩
    · exact ⟨fun _ => ⟨recv _ _ _ _ _ (Or.inr rfl), recv _ _ _ _ _ (Or.inl rfl)⟩, fun _ => trivial⟩

/-- A run adds to what is forgotten exactly when some action of it turns a counter over. -/
theorem cinv_run {d t : Policy} {as : List Action} {c c' : Config} {lp lr : Nat} (hi : CInv d t lp lr c)
    (h : run (step d t) as c = some c') :
    ∃ lp' lr', CInv d t lp' lr' c' ∧ lp + lr ≤ lp' + lr' ∧
      (lp' + lr' = lp + lr ↔ Meets (step d t) (KeepsCount d t) as c) := by
  induction as generalizing c lp lr with
  | nil => simp at h; subst h; exact ⟨lp, lr, hi, Nat.le_refl _, by simp [Meets]⟩
  | cons a as ih =>
    obtain ⟨u, hu, hr⟩ := run_cons.mp h
    obtain ⟨lp', lr', hi', hle, hiff⟩ := ih (cinv_step hi hu) hr
    have hk := keepsCount_iff d t a c
    refine ⟨lp', lr', hi', by omega, ?_⟩
    constructor
    · intro he
      refine ⟨hk.mpr ⟨by omega, by omega⟩, ?_⟩
      intro v hv
      obtain rfl : u = v := by rw [hu] at hv; exact Option.some.inj hv
      exact hiff.mp (by omega)
    · intro hm
      have := hiff.mpr (hm.2 u hu)
      have := hk.mp hm.1
      omega

/-! ## Deliveries -/

/-- A delivery is a delivery on exactly one of the two links. -/
theorem deliver_moves {d t : Policy} {p : Party} {c c' : Config} (h : step d t (.deliver p) c = some c') :
    (∃ m, (m = .recvA ∨ m = .recvB) ∧ performedMove c (.deliver p) = some m ∧ requestedMove c (.deliver p) = none) ∨
    (∃ m, (m = .recvA ∨ m = .recvB) ∧ performedMove c (.deliver p) = none ∧ requestedMove c (.deliver p) = some m) := by
  cases p
  · simp only [step] at h
    split at h
    · cases h
    · rename_i v rest hv
      cases v <;> simp [performedMove, requestedMove, Action.mirror, Party.other, Config.mirror, hv, doValue, willValue]
  · simp only [step] at h
    split at h
    · cases h
    · rename_i v rest hv
      cases v <;> simp [performedMove, requestedMove, Action.mirror, Party.other, Config.mirror, hv, doValue, willValue]

theorem cinv_deliver {d t : Policy} {lp lr : Nat} {c c' : Config} (hi : CInv d t lp lr c) (h : Delivers d t c c') :
    CInv d t lp lr c' := by
  obtain ⟨p, h⟩ := h
  have hk := (keepsCount_iff d t (.deliver p) c).mp trivial
  have := cinv_step hi h
  rwa [hk.1, hk.2] at this

/-- The deliveries left on both links. -/
def Config.left (d t : Policy) (c : Config) : Nat :=
  Link.left d.acceptDo t.acceptWill c.performed + Link.left t.acceptDo d.acceptWill c.requested

theorem left_deliver {d t : Policy} {c c' : Config} (hi : CInv d t 0 0 c) (h : Delivers d t c c') :
    c'.left d t < c.left d t := by
  obtain ⟨p, h⟩ := h
  have hp := step_performed h
  have hr := step_requested h
  unfold Config.left
  rcases deliver_moves h with ⟨m, hm, e1, e2⟩ | ⟨m, hm, e1, e2⟩
  · rw [e1] at hp
    rw [e2] at hr
    obtain hr : c'.requested = c.requested := hr
    have := measure_lt (by decide) hm hi.performed hp
    rw [hr]; omega
  · rw [e1] at hp
    rw [e2] at hr
    obtain hp : c'.performed = c.performed := hp
    have := measure_lt (by decide) hm hi.requested hr
    rw [hp]; omega

theorem ends_of_kept {d t : Policy} {c : Config} (hi : CInv d t 0 0 c) : Ends (Delivers d t) c :=
  ends_of_measure (Config.left d t) (fun _ _ hi h => cinv_deliver hi h) (fun _ _ hi h => left_deliver hi h) hi

/-- A delivery is possible while either channel holds anything. -/
theorem can_deliver (d t : Policy) {c : Config} (h : c.toTelnetd ≠ [] ∨ c.toTelnet ≠ []) : ∃ c', Delivers d t c c' := by
  rcases h with h | h
  · obtain ⟨v, rest, hv⟩ := List.exists_cons_of_ne_nil h
    exact ⟨_, .telnetd, by simp only [step, hv]; rfl⟩
  · obtain ⟨v, rest, hv⟩ := List.exists_cons_of_ne_nil h
    exact ⟨_, .telnet, by simp only [step, hv]; rfl⟩

theorem ne_nil_of_wills {l : List Verb} (h : wills l ≠ []) : l ≠ [] := fun e => h (by simp [e])
theorem ne_nil_of_dos {l : List Verb} (h : dos l ≠ []) : l ≠ [] := fun e => h (by simp [e])

theorem not_ends_of_lost {d t : Policy} {lp lr : Nat} {c : Config} (hi : CInv d t lp lr c) (hl : 0 < lp + lr) :
    ¬ Ends (Delivers d t) c := by
  refine not_ends_of_progress ?_ hi
  intro c hi
  have hne : c.toTelnetd ≠ [] ∨ c.toTelnet ≠ [] := by
    rcases Nat.eq_zero_or_pos lp with h | h
    · rcases in_flight_of_lost hi.requested (by omega) with h | h
      · exact Or.inl (ne_nil_of_wills h)
      · exact Or.inr (ne_nil_of_dos h)
    · rcases in_flight_of_lost hi.performed h with h | h
      · exact Or.inr (ne_nil_of_wills h)
      · exact Or.inl (ne_nil_of_dos h)
  obtain ⟨c', h⟩ := can_deliver d t hne
  exact ⟨c', h, cinv_deliver hi h⟩

/-! ## The result -/

/-- After any run, the deliveries left end if and only if no action of the run turned a
    counter over. -/
theorem deliveries_end_iff {d t : Policy} {as : List Action} {c : Config} (h : run (step d t) as .init = some c) :
    Ends (Delivers d t) c ↔ Meets (step d t) (KeepsCount d t) as .init := by
  obtain ⟨lp, lr, hi, -, hiff⟩ := cinv_run (cinv_init d t) h
  rw [← hiff]
  constructor
  · intro he
    by_cases hl : 0 < lp + lr
    · exact absurd he (not_ends_of_lost hi hl)
    · omega
  · intro h0
    obtain rfl : lp = 0 := by omega
    obtain rfl : lr = 0 := by omega
    exact ends_of_kept hi

/-- A request answered before the next one keeps count: its deliveries end. -/
theorem deliveries_end_after_a_request :
    Ends (Delivers willing willing) ⟨⟨⟨false, true, 1⟩, .idle⟩, .init, [.will], []⟩ := by
  have h : run (step willing willing) [.initiate .telnetd .will] .init =
      some ⟨⟨⟨false, true, 1⟩, .idle⟩, .init, [.will], []⟩ := rfl
  refine (deliveries_end_iff h).mpr ⟨?_, fun _ _ => trivial⟩
  show ¬ TurnsOver _ _ _
  intro h
  obtain ⟨-, -, hr⟩ := h
  cases hr

/-- WILL and WONT asked for in turn, `n` times each, before anything is delivered. -/
def toggles : Nat → List Action
  | 0 => []
  | n + 1 => .initiate .telnetd .will :: .initiate .telnetd .wont :: toggles n

/-- telnetd's counter reads zero with 256 requests in flight: none of them will be taken
    for an answer. -/
def stormy : Config := ⟨.init, .init, (List.replicate 128 [Verb.will, .wont]).flatten, []⟩

theorem wills_stormy (n : Nat) : (wills (List.replicate n [Verb.will, .wont]).flatten).length = 2 * n := by
  induction n with
  | zero => rfl
  | succ n ih =>
    simp only [List.replicate_succ, List.flatten_cons, wills_append, List.length_append, ih]
    simp [willValue]; omega

theorem toggles_reach : run (step willing willing) (toggles 128) .init = some stormy := by
  decide +kernel

/-- Toggling an option 256 times ahead of the peer's answers: the reachable configuration
    has an infinite run of deliveries. -/
theorem toggled_256_times_never_settles :
    run (step willing willing) (toggles 128) .init = some stormy ∧ ¬ Ends (Delivers willing willing) stormy := by
  refine ⟨toggles_reach, ?_⟩
  obtain ⟨lp, lr, hi⟩ := cinv_reachable ⟨_, toggles_reach⟩
  have hO : Open respRange lp stormy.performed := hi.performed
  have hc := hO.count
  have hab : stormy.performed.ab.length = 2 * 128 := wills_stormy 128
  have ha : stormy.performed.a.resp = 0 := rfl
  have hb : stormy.performed.b.resp = 0 := rfl
  exact not_ends_of_lost hi (by omega)

end Netutils.Options
