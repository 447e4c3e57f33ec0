/-
  Netutils.Session.Screen — what comes from the pty of the server, at the client's tty.

  The loop of telnetd_run puts NUL behind a CR unless the LF behind it is in the same pty
  read; the client takes CR NUL back to CR, and leaves CR LF as it is while the server
  echoes. So ttyoring gets what the loop is given, in whatever reads and segments
  (`pty_to_screen`), unless the client is discarding output, or in TS_CR takes a first NUL
  for the end of what came before. But telnetd_run gives it the control byte of each read
  as well: a NUL for each, so that ttyoring gets just what the pty gave only where that is
  nothing, or where TS_CR takes the one NUL there is (`pty_to_screen_iff`).
-/

import Netutils.Telnet.Receive
import Netutils.Telnetd.Output

namespace Netutils.Session

open Netutils.Arpa
open Netutils.Lib.Lookahead
open Netutils.Wire
open Netutils.Telnet (Handlers telrcv received fresh)
open Netutils.Telnetd (outputLoop packet ptyInput ptyInput_packet)

variable {Env : Type} {H : Handlers Env}

/-! ## What a turn puts out -/

/-- A client that shows what it gets: the server echoes, crmod is off, and BINARY is as the
    server has it. -/
structure Shows (H : Handlers Env) (e : Env) (binary : Bool) : Prop where
  echo : H.echo e = true
  crmod : H.crmod e = false
  binary : H.binary e = binary

/-- TTYADD of these bytes. -/
def shown (H : Handlers Env) (e : Env) (p : List UInt8) : List Event := if H.discards e = true then [] else put p

/-- `w` is data that begins as `p` does, and the client takes `p` from it. -/
structure Carries (H : Handlers Env) (binary : Bool) (p w : List UInt8) : Prop where
  data : Data w
  head : w.head? = p.head?
  taken : ∀ s : Rcv Env, s.state = .data → Shows H s.env binary → plain (telrcv H) s w = (s, shown H s.env p)

variable {b : Bool} {e : Env}

theorem ttyadd_eq (c : UInt8) : Telnet.ttyadd H e c = shown H e [c] := by
  unfold Telnet.ttyadd shown
  split <;> rfl

theorem shown_nil : shown H e [] = [] := ite_self _

theorem shown_append (p q : List UInt8) : shown H e (p ++ q) = shown H e p ++ shown H e q := by
  unfold shown
  split
  · rfl
  · exact List.map_append

theorem delivered_shown (p : List UInt8) : delivered (shown H e p) = if H.discards e = true then [] else p := by
  unfold shown
  split
  · rfl
  · exact delivered_put p

theorem calls_shown (p : List UInt8) : calls (shown H e p) = [] := by
  unfold shown
  split
  · rfl
  · exact calls_put p

theorem carries_nil : Carries H b [] [] := ⟨.nil, rfl, fun _ _ _ => by rw [shown_nil]; rfl⟩

theorem carries_append {p q w v : List UInt8} (h : Carries H b p w) (h' : Carries H b q v) :
    Carries H b (p ++ q) (w ++ v) := by
  refine ⟨h.data.append h'.data, by rw [List.head?_append, List.head?_append, h.head, h'.head], ?_⟩
  intro s hs he
  rw [plain_append, h.taken s hs he, h'.taken s hs he, shown_append]

theorem carries_iac : Carries H b [IAC] [IAC, IAC] := by
  refine ⟨.iac .nil, rfl, ?_⟩
  intro h hs he
  obtain ⟨state, sub, env⟩ := h
  obtain rfl : state = .data := hs
  have h1 : telrcv H ⟨.data, sub, env⟩ IAC none = ⟨⟨.iac, sub, env⟩, [], false⟩ := receive_iac _ rfl none
  have h2 : telrcv H ⟨.iac, sub, env⟩ IAC none = ⟨⟨.data, sub, env⟩, Telnet.ttyadd H env IAC, false⟩ :=
    gotiac_iac (Telnet.program H) (show IAC ∉ Telnet.commands by decide) _
  rw [plain_cons, h1, plain_cons, h2, ttyadd_eq]
  simp

theorem carries_byte {c : UInt8} (hi : c ≠ IAC) (hc : ¬ (c = CR ∧ b = false)) : Carries H b [c] [c] := by
  refine ⟨.byte hi .nil, rfl, ?_⟩
  intro h hs he
  obtain ⟨state, sub, env⟩ := h
  obtain rfl : state = .data := hs
  have hb := he.binary
  simp only at hb
  simp [plain_cons, telrcv, receive, gottext, Telnet.program, Telnet.text, hi, hb, hc, ttyadd_eq]

/-- A CR and the byte behind it: NUL is dropped, LF stays. -/
theorem carries_cr {x : UInt8} (hx : x = NUL ∨ x = LF) :
    Carries H false (CR :: if x = LF then [LF] else []) [CR, x] := by
  refine ⟨.byte (by decide) (.byte (by rcases hx with rfl | rfl <;> decide) .nil), rfl, ?_⟩
  intro h hs he
  obtain ⟨state, sub, env⟩ := h
  obtain rfl : state = .data := hs
  have h1 : telrcv H ⟨.data, sub, env⟩ CR none = ⟨⟨.cr, sub, env⟩, shown H env [CR], false⟩ := by
    simp [telrcv, receive, gottext, Telnet.program, Telnet.text_cr_none H he.binary, ttyadd_eq, he.crmod]
  have h2 : telrcv H ⟨.cr, sub, env⟩ x none = ⟨⟨.data, sub, env⟩, shown H env (if x = LF then [LF] else []), false⟩ := by
    rcases hx with rfl | rfl
    · simp [telrcv, receive, gottext, Telnet.program, Telnet.text, shown_nil]
    · simp [telrcv, receive, gottext, Telnet.program, Telnet.text, he.echo, ttyadd_eq]
  rw [plain_cons, h1, plain_cons, h2]
  simp [← shown_append]

theorem outputLoop_carries (s : Unit) (c : UInt8) (nc : Option UInt8) :
    Carries H b (c :: if (outputLoop b s c nc).took then [LF] else []) (outputLoop b s c nc).out := by
  unfold outputLoop
  by_cases hc : c = CR ∧ b = false
  · obtain ⟨rfl, rfl⟩ := hc
    by_cases hn : nc = some LF
    · simpa [hn] using carries_cr (H := H) (Or.inr rfl)
    · simpa [hn] using carries_cr (H := H) (x := NUL) (Or.inl rfl)
  · rw [if_neg hc]
    by_cases hi : c = IAC
    · simpa [hi] using carries_iac (H := H) (b := b)
    · simpa [hi] using carries_byte (H := H) hi hc

theorem outputLoop_took {s : Unit} {c x : UInt8} (h : (outputLoop b s c (some x)).took = true) : x = LF := by
  unfold outputLoop at h
  repeat' split at h
  all_goals simp_all

/-! ## The whole way -/

/-- What the loop puts out for what it takes of the pty's reads. -/
theorem output_carries (rs : List (List UInt8 × (List UInt8 → Bool))) :
    ∃ p, brought rs = p ++ (feed (outputLoop b) () [] rs).2.1 ∧
      Carries H b p (feed (outputLoop b) () [] rs).2.2 := by
  refine feed_rel carries_nil carries_append ?_ ?_ ?_ []
  · intro s c
    have : (outputLoop b s c none).took = false := by
      unfold outputLoop
      repeat' split
      all_goals simp_all
    simpa [this] using outputLoop_carries (H := H) (b := b) s c none
  · intro s c x ht
    simpa [ht] using outputLoop_carries (H := H) (b := b) s c (some x)
  · intro s c x ht
    have := outputLoop_carries (H := H) (b := b) s c (some x)
    rwa [ht, if_pos rfl, ← outputLoop_took ht] at this

/-- What telrcv adds of these bytes: in TS_CR a first NUL is the end of what came before. -/
def added (s : Rcv Env) (p : List UInt8) : List UInt8 := if s.state = .cr ∧ p.head? = some NUL then p.tail else p

/-- telrcv behind these bytes. -/
def left (s : Rcv Env) (p : List UInt8) : Rcv Env := if p = [] then s else { s with state := .data }

/-- What is taken in TS_DATA is taken in TS_CR as well, but for a first NUL. -/
theorem Carries.from_ready {p w : List UInt8} (h : Carries H b p w) {s : Rcv Env} (hs : s.state = .data ∨ s.state = .cr)
    (he : Shows H s.env b) : plain (telrcv H) s w = (left s p, shown H s.env (added s p)) := by
  have hd := h.taken { s with state := .data } rfl he
  obtain ⟨state, sub, env⟩ := s
  rcases hs with hs | hs
  · obtain rfl : state = .data := hs
    simpa [left, added] using hd
  · obtain rfl : state = .cr := hs
    rcases p with _ | ⟨c, p⟩
    · obtain rfl : w = [] := List.head?_eq_none_iff.mp h.head
      rw [added, if_neg nofun, shown_nil]
      rfl
    · obtain ⟨v, rfl⟩ := List.head?_eq_some_iff.mp h.head
      by_cases hc : c = NUL
      · subst hc
        have hdata : telrcv H ⟨.data, sub, env⟩ NUL none = ⟨⟨.data, sub, env⟩, shown H env [NUL], false⟩ := by
          simp [telrcv, receive, gottext, Telnet.program, Telnet.text, ttyadd_eq, show NUL ≠ IAC by decide,
            show NUL ≠ CR by decide]
        have hcr : telrcv H ⟨.cr, sub, env⟩ NUL none = ⟨⟨.data, sub, env⟩, [], false⟩ := by
          simp [telrcv, receive, gottext, Telnet.program, Telnet.text]
        simp only [plain_cons, hdata, Prod.mk.injEq] at hd
        obtain ⟨hstate, hshown⟩ := hd
        rw [show NUL :: p = [NUL] ++ p from rfl, shown_append] at hshown
        have hrest := List.append_cancel_left hshown
        simp [plain_cons, hcr, hstate, hrest, left, added]
      · have hsame : plain (telrcv H) ⟨.cr, sub, env⟩ (c :: v) = plain (telrcv H) ⟨.data, sub, env⟩ (c :: v) := by
          apply sameOn_plain
          intro x
          have hecho := he.echo
          simp only at hecho
          simp [telrcv, receive, gottext, Telnet.program, Telnet.text, hc, hecho]
        rw [hsame]
        simpa [left, added, hc] using hd

/-- What the loop is given is what ttyoring gets, in whatever reads and segments, and telrcv is
    left in TS_DATA. -/
theorem pty_to_screen {s : Rcv Env} (rs : List (List UInt8 × (List UInt8 → Bool))) {input : List UInt8}
    (hrs : Brings (outputLoop b) () input rs) (hs : s.state = .data ∨ s.state = .cr) (he : Shows H s.env b)
    {fs : List (List UInt8 × (List Event → Bool))}
    (hfs : Brings (telrcv H) s (feed (outputLoop b) () [] rs).2.2 fs) :
    delivered (received H s fs) = (if H.discards s.env = true then [] else added s input) ∧
      calls (received H s fs) = [] ∧ (feed (telrcv H) s [] fs).1 = left s input := by
  obtain ⟨p, hp, hc⟩ := output_carries (H := H) (b := b) rs
  rw [hrs.stream, hrs.done, List.append_nil] at hp
  subst hp
  have hframe : s.state.frame = .data := by
    rcases hs with hs | hs
    · rw [hs]; rfl
    · rw [hs]; rfl
  obtain ⟨h1, h2⟩ := feed_of_data (Telnet.program H) hframe (show IAC ∉ Telnet.commands by decide) hc.data
    (Telnet.Unresolved H) (fun t c x => Telnet.telrcv_agrees H)
    (fun k c x hk h => by rw [Telnet.Unresolved, hk, he.crmod, he.echo] at h; simp at h) hfs
  have hpl := hc.from_ready hs he
  have h3 : received H s fs = shown H s.env (added s input) := by
    rw [received, telrcv, h2]
    exact congrArg Prod.snd hpl
  refine ⟨?_, ?_, ?_⟩
  · rw [h3, delivered_shown]
  · rw [h3, calls_shown]
  · rw [telrcv, h1]
    exact congrArg Prod.fst hpl

/-! ## The control bytes -/

/-- What the loop is given in turns that read this data, or nothing. -/
def inputs (lflow : Bool) (rs : List (List UInt8 × (List UInt8 → Bool))) : List (List UInt8 × (List UInt8 → Bool)) :=
  rs.map fun r => (if r.1 = [] then [] else ptyInput lflow (packet r.1), r.2)

/-- The turns that read. -/
def reads (rs : List (List UInt8 × (List UInt8 → Bool))) : Nat := rs.countP fun r => r.1 ≠ []

section inputs

variable {lflow : Bool} {rs : List (List UInt8 × (List UInt8 → Bool))}

theorem brought_cons (r : List UInt8 × (List UInt8 → Bool)) (rs : List (List UInt8 × (List UInt8 → Bool))) :
    brought (r :: rs) = r.1 ++ brought rs := rfl

theorem reads_eq_zero : reads rs = 0 ↔ brought rs = [] := by
  simp [reads, brought, List.countP_eq_zero]

/-- One byte more for each read. -/
theorem length_inputs : (brought (inputs lflow rs)).length = (brought rs).length + reads rs := by
  induction rs with
  | nil => rfl
  | cons r rs ih =>
    rw [inputs, List.map_cons, brought_cons, brought_cons, List.length_append, List.length_append, ← inputs, ih, reads, reads,
      List.countP_cons]
    by_cases hr : r.1 = []
    · simp [hr]
    · rw [if_neg hr, if_pos (decide_eq_true hr), ptyInput_packet, packet, List.length_cons]
      omega

/-- The first is a NUL. -/
theorem head_inputs (h : brought rs ≠ []) : (brought (inputs lflow rs)).head? = some NUL := by
  induction rs with
  | nil => exact absurd rfl h
  | cons r rs ih =>
    rw [inputs, List.map_cons, brought_cons, ← inputs]
    by_cases hr : r.1 = []
    · rw [brought_cons, hr] at h
      rw [if_pos hr]
      exact ih h
    · rw [if_neg hr, ptyInput_packet]
      rfl

/-- Of one read it is all that is too much. -/
theorem tail_inputs (h : reads rs = 1) : (brought (inputs lflow rs)).tail = brought rs := by
  induction rs with
  | nil => cases h
  | cons r rs ih =>
    rw [reads, List.countP_cons] at h
    rw [inputs, List.map_cons, brought_cons, brought_cons, ← inputs]
    by_cases hr : r.1 = []
    · rw [if_pos hr, hr]
      exact ih (by simpa [hr, reads] using h)
    · have hzero : reads rs = 0 := by simpa [hr, reads] using h
      have hnone : brought (inputs lflow rs) = [] := by
        rw [← List.length_eq_zero_iff, length_inputs, hzero, reads_eq_zero.mp hzero]
        rfl
      rw [if_neg hr, ptyInput_packet, hnone, reads_eq_zero.mp hzero, packet, List.append_nil, List.append_nil]
      rfl

theorem inputs_eq_iff : brought (inputs lflow rs) = brought rs ↔ brought rs = [] := by
  rw [← reads_eq_zero]
  constructor
  · intro h
    have hlen := congrArg List.length h
    rw [length_inputs] at hlen
    omega
  · intro h
    rw [reads_eq_zero.mp h, ← List.length_eq_zero_iff, length_inputs, h, reads_eq_zero.mp h]
    rfl

theorem tail_inputs_eq_iff (h : brought rs ≠ []) : (brought (inputs lflow rs)).tail = brought rs ↔ reads rs = 1 := by
  refine ⟨fun htail => ?_, tail_inputs⟩
  have hlen := congrArg List.length htail
  have hsome := reads_eq_zero.not.mpr h
  rw [List.length_tail, length_inputs] at hlen
  omega

end inputs

/-- ttyoring gets just what the pty has given, in whatever reads and segments, if and only if that
    is nothing, or telrcv shows it and takes the one control byte that there is for the end of
    a CR. -/
theorem pty_to_screen_iff {s : Rcv Env} (lflow : Bool) (rs : List (List UInt8 × (List UInt8 → Bool)))
    (hrs : Brings (outputLoop b) () (brought (inputs lflow rs)) (inputs lflow rs)) (hs : s.state = .data ∨ s.state = .cr)
    (he : Shows H s.env b) {fs : List (List UInt8 × (List Event → Bool))}
    (hfs : Brings (telrcv H) s (feed (outputLoop b) () [] (inputs lflow rs)).2.2 fs) :
    delivered (received H s fs) = brought rs ↔
      brought rs = [] ∨ (H.discards s.env = false ∧ s.state = .cr ∧ reads rs = 1) := by
  rw [(pty_to_screen (inputs lflow rs) hrs hs he hfs).1]
  by_cases hnil : brought rs = []
  · have hnone : brought (inputs lflow rs) = [] := (inputs_eq_iff.mpr hnil).trans hnil
    refine iff_of_true ?_ (Or.inl hnil)
    simp [hnone, hnil, added]
  rw [or_iff_right hnil]
  cases hdiscards : H.discards s.env with
  | true => exact iff_of_false (fun h => hnil h.symm) fun h => nomatch h.1
  | false =>
    rw [if_neg Bool.false_ne_true, and_iff_right rfl, added]
    by_cases hcr : s.state = .cr
    · rw [if_pos ⟨hcr, head_inputs hnil⟩, and_iff_right hcr]
      exact tail_inputs_eq_iff hnil
    · rw [if_neg fun h => hcr h.1, inputs_eq_iff]
      exact iff_of_false hnil fun h => hcr h.1

/-- A client with ECHO on, BINARY and crmod off. -/
def client (discards : Bool) : Handlers Unit where
  command := fun e _ => (e, [])
  option := fun e _ _ => (e, [])
  suboption := fun e b => (e, b, [])
  echo := fun _ => true
  binary := fun _ => false
  crmod := fun _ => false
  discards := fun _ => discards

/-- CR LF in one read, behind a CR: the client has the NUL of the control byte for that. -/
theorem pty_to_screen_cr_lf :
    let fs : List (List UInt8 × (List Event → Bool)) := [([NUL, CR, LF], fun _ => true)]
    delivered (received (client false) { fresh () with state := .cr } fs) = [CR, LF] :=
  (pty_to_screen_iff (b := false) false [([CR, LF], fun _ => true)] ⟨rfl, rfl⟩ (Or.inr rfl) ⟨rfl, rfl, rfl⟩ ⟨rfl, rfl⟩).mpr
    (Or.inr ⟨rfl, rfl, rfl⟩)

/-- A byte from the pty comes behind a NUL. -/
theorem pty_to_screen_control_byte :
    let H := client false
    H.echo () = true ∧ H.crmod () = false ∧ H.binary () = false ∧
      Brings (outputLoop false) () [0, 65] [(ptyInput false (packet [65]), fun _ => true)] ∧
      Brings (telrcv H) (fresh ()) (feed (outputLoop false) () [] [(ptyInput false (packet [65]), fun _ => true)]).2.2
        [([0, 65], fun _ => true)] ∧
      delivered (received H (fresh ()) [([0, 65], fun _ => true)]) = [0, 65] :=
  ⟨rfl, rfl, rfl, ⟨rfl, rfl⟩, ⟨rfl, rfl⟩, rfl⟩

end Netutils.Session
