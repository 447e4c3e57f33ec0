/-
  Netutils.Traceroute.Trace — traceroute/traceroute.c: do_try and the loop of main over
  trace_read and trace_write, in a network that answers each probe at most once, after any
  delay, and brings nothing else: the ICMP messages of other programs are left out.

  A UDP probe has a port of its own hop, and trace_read compares it; all ICMP probes have
  the identifier and the sequence number 0 (`pid` is never assigned), so that an answer that
  comes when its hop is over passes for one of the hop being tried. And where an ICMP answer
  ends the trace if the destination has sent it, a UDP one ends it by its code alone. The
  lines are right in every run in which neither happens (`hops_attributed`).
-/

import Mathlib.Algebra.Group.Nat.Defs
import Mathlib.Data.List.Basic
import Netutils.Lib.Transition

namespace Netutils.Traceroute

open Netutils.Lib.Transition

/-! ## Probes and messages -/

abbrev Address := UInt32

def ICMP_ECHOREPLY : UInt8 := 0
def ICMP_DEST_UNREACH : UInt8 := 3
def ICMP_PORT_UNREACH : UInt8 := 3
def ICMP_SOURCE_QUENCH : UInt8 := 4
def ICMP_REDIRECT : UInt8 := 5
def ICMP_TIME_EXCEEDED : UInt8 := 11
def ICMP_PARAMETERPROB : UInt8 := 12

/-- `int pid = 0`, and nothing assigns to it. -/
def pid : UInt16 := 0

/-- enum trace_type; parse_opt does not set TRACE_1393. -/
inductive TraceType where
  | udp
  | icmp
  deriving DecidableEq

/-- What trace_write sends: a datagram to a port, or an echo request. -/
inductive Datagram where
  | udp (port : UInt16)
  | echo (ident seq : UInt16)
  deriving DecidableEq

structure Probe where
  ttl : UInt8
  datagram : Datagram
  deriving DecidableEq

/-- What trace_read looks at: the IP header's ip_src (and what recvfrom puts into `from`), the
    ICMP header, and the shorts at 11 (by ntohs, as the port is), 12 and 13 from icmp_ip on. -/
structure Message where
  ip_src : Address
  icmp_type : UInt8
  icmp_code : UInt8
  icmp_id : UInt16
  icmp_seq : UInt16
  word11 : UInt16
  word12 : UInt16
  word13 : UInt16
  deriving DecidableEq

/-- The header of the datagram behind its IP header of ten shorts: the second short of a UDP
    header is the port, the third and the fourth of an echo request the identifier and the
    sequence number. -/
def Message.Quotes (m : Message) : Datagram → Prop
  | .udp port => m.word11 = port
  | .echo ident seq => m.word12 = ident ∧ m.word13 = seq

instance (m : Message) (d : Datagram) : Decidable (m.Quotes d) :=
  match d with
  | .udp _ => inferInstanceAs (Decidable (_ = _))
  | .echo _ _ => inferInstanceAs (Decidable (_ ∧ _))

/-- An echo reply repeats the identifier and the sequence number; the messages that report
    something about a datagram quote it. -/
def Message.Answers (m : Message) (d : Datagram) : Prop :=
  (m.icmp_type = ICMP_ECHOREPLY ∧ d = .echo m.icmp_id m.icmp_seq) ∨
  (m.icmp_type ∈ [ICMP_DEST_UNREACH, ICMP_SOURCE_QUENCH, ICMP_REDIRECT, ICMP_TIME_EXCEEDED, ICMP_PARAMETERPROB] ∧
    m.Quotes d)

instance (m : Message) (d : Datagram) : Decidable (m.Answers d) := inferInstanceAs (Decidable (_ ∨ _))

/-- A message, and the place among the probes of the one it answers. -/
structure Answer where
  probe : Nat
  message : Message

/-! ## The program -/

/-- trace_t -/
structure Trace where
  type : TraceType
  /-- to.sin_port, by ntohs -/
  port : UInt16
  ttl : UInt8

def TRACE_TTL : UInt8 := 1

def opt_max_hops : Nat := 64

def traceInit (type : TraceType) (port : UInt16) : Trace := ⟨type, port, TRACE_TTL⟩

def traceWrite (t : Trace) : Probe :=
  match t.type with
  | .udp => ⟨t.ttl, .udp t.port⟩
  | .icmp => ⟨t.ttl, .echo pid pid⟩

/-- `none` for -1; else whether it sets `stop`. -/
def traceRead (dest : Address) (t : Trace) (m : Message) : Option Bool :=
  match t.type with
  | .udp =>
    if (m.icmp_type ≠ ICMP_TIME_EXCEEDED ∧ m.icmp_type ≠ ICMP_DEST_UNREACH) ∨
        (m.icmp_type = ICMP_DEST_UNREACH ∧ m.icmp_code ≠ ICMP_PORT_UNREACH) then none
    else if m.word11 ≠ t.port then none
    else some (m.icmp_code = ICMP_PORT_UNREACH)
  | .icmp =>
    if m.icmp_type ≠ ICMP_TIME_EXCEEDED ∧ m.icmp_type ≠ ICMP_ECHOREPLY then none
    else if m.icmp_type = ICMP_ECHOREPLY ∧ (m.icmp_seq ≠ pid ∨ m.icmp_id ≠ pid) then none
    else if m.icmp_type = ICMP_TIME_EXCEEDED ∧ (m.word12 ≠ pid ∨ m.word13 ≠ pid) then none
    else some (m.ip_src = dest)

def traceIncTtl (t : Trace) : Trace := { t with ttl := t.ttl + 1 }

def traceIncPort (t : Trace) : Trace := if t.type = .udp then { t with port := t.port + 1 } else t

/-- The variables of do_try. -/
structure Try where
  tries : Nat
  readonly : Bool
  prevAddr : Address

/-- Where the program is. -/
inductive At where
  /-- before `while (!stop)` -/
  | main
  /-- before `tries < max_tries` -/
  | loop (t : Try)
  | select (t : Try)
  | exited

structure State where
  trace : Trace
  hop : Nat
  stop : Bool
  pc : At
  /-- What the socket holds. -/
  inbox : List Answer
  /-- Every address printed, with the hop on whose line it stands. -/
  printed : List (Nat × Address)
  /-- Ghost: the probes sent, and the answers that trace_read has read. -/
  probes : List Probe
  heard : List Answer

def init (type : TraceType) (port : UInt16) : State := ⟨traceInit type port, 1, false, .main, [], [], [], []⟩

inductive Event where
  /-- The program goes on, to the next loop or to select. -/
  | go
  /-- select returns 0, -1 with EINTR, or 1. -/
  | expired
  | interrupted
  | readable
  /-- The network brings an answer to the k-th probe. -/
  | answer (k : Nat) (m : Message)

/-- The next try. -/
def Try.next (t : Try) : Try := { t with tries := t.tries + 1, readonly := false }

/-- trace_read, and what do_try does with what it has read. -/
def readAnswer (dest : Address) (t : Try) (a : Answer) (s : State) : State :=
  let from_ := a.message.ip_src
  match traceRead dest s.trace a.message with
  | none =>
    -- `tries--` and the loop's `tries++`
    { s with heard := s.heard ++ [a], pc := .loop { t with readonly := true } }
  | some stop =>
    { s with
      heard := s.heard ++ [a]
      stop := s.stop || stop
      printed := if t.tries = 0 ∨ t.prevAddr ≠ from_ then s.printed ++ [(s.hop, from_)] else s.printed
      pc := .loop { t.next with prevAddr := from_ } }

/-- A system call that fails otherwise than by EINTR or ECONNRESET ends the program, and the
    run with it. -/
def step (maxTries : Nat) (dest : Address) (e : Event) (s : State) : Option State :=
  match e, s.pc with
  | .go, .main =>
    if s.stop then some { s with pc := .exited }
    else if s.hop > opt_max_hops then some { s with pc := .exited }
    else some { s with pc := .loop ⟨0, false, 0⟩ }
  | .go, .loop t =>
    if t.tries < maxTries then
      some { s with probes := if t.readonly then s.probes else s.probes ++ [traceWrite s.trace], pc := .select t }
    else some { s with trace := traceIncPort (traceIncTtl s.trace), hop := s.hop + 1, pc := .main }
  | .expired, .select t => if s.inbox.isEmpty then some { s with pc := .loop t.next } else none
  | .interrupted, .select t => some { s with pc := .loop t.next }
  | .readable, .select t =>
    match s.inbox with
    | [] => none
    | a :: inbox => some (readAnswer dest t a { s with inbox := inbox })
  | .answer k m, _ =>
    match s.probes[k]? with
    | some p =>
      if m.Answers p.datagram ∧ ∀ a ∈ s.heard ++ s.inbox, a.probe ≠ k then
        some { s with inbox := s.inbox ++ [⟨k, m⟩] }
      else none
    | none => none
  | _, _ => none

/-! ## What the lines should say -/

/-- The message answers a probe that trace_write has sent with this TTL. -/
def AnswersHop (s : State) (a : Answer) (hop : Nat) : Prop :=
  ∃ p, s.probes[a.probe]? = some p ∧ a.message.Answers p.datagram ∧ p.ttl.toNat = hop

structure Attributed (dest : Address) (s : State) : Prop where
  printed : ∀ q ∈ s.printed, ∃ a ∈ s.heard, a.message.ip_src = q.2 ∧ AnswersHop s a q.1
  stop : s.stop = true → ∃ a ∈ s.heard, a.message.ip_src = dest ∧ ∃ hop, AnswersHop s a hop
  exited : s.pc = .exited → s.stop = true ∨ opt_max_hops < s.hop

/-- The answer is one to a probe of the hop being tried. -/
def Present (s : State) (a : Answer) : Prop := s.probes[a.probe]?.map Probe.ttl = some s.trace.ttl

instance (s : State) (a : Answer) : Decidable (Present s a) := inferInstanceAs (Decidable (_ = _))

/-- icmp: no time-exceeded message and no echo reply is read when the hop whose probe it
    answers is over. udp: no message with the code of an unreachable port, among those that
    trace_read does not pass over, is from another address than the destination. -/
def Timely (dest : Address) (e : Event) (s : State) : Prop :=
  match e, s.inbox with
  | .readable, a :: _ =>
    match s.trace.type with
    | .icmp => a.message.icmp_type ∈ [ICMP_TIME_EXCEEDED, ICMP_ECHOREPLY] → Present s a
    | .udp => a.message.icmp_type ∈ [ICMP_TIME_EXCEEDED, ICMP_DEST_UNREACH] →
        a.message.icmp_code = ICMP_PORT_UNREACH → Present s a → a.message.ip_src = dest
  | _, _ => True

instance (dest : Address) (e : Event) (s : State) : Decidable (Timely dest e s) := by
  unfold Timely
  split
  · split <;> infer_instance
  · infer_instance

/-! ## trace_read -/

section Read

variable {dest : Address} {t : Trace} {m : Message} {stop : Bool}

theorem traceRead_udp (ht : t.type = .udp) (h : traceRead dest t m = some stop) :
    m.icmp_type ∈ [ICMP_TIME_EXCEEDED, ICMP_DEST_UNREACH] ∧ m.word11 = t.port ∧
      (stop = true → m.icmp_code = ICMP_PORT_UNREACH) := by
  unfold traceRead at h
  rw [ht] at h
  simp only at h
  split at h
  · cases h
  rename_i htype
  split at h
  · cases h
  rename_i hport
  obtain rfl := Option.some.inj h
  refine ⟨?_, not_ne_iff.mp hport, of_decide_eq_true⟩
  by_contra hn
  rw [List.mem_cons, List.mem_singleton, not_or] at hn
  exact htype (Or.inl hn)

theorem traceRead_icmp (ht : t.type = .icmp) (h : traceRead dest t m = some stop) :
    m.icmp_type ∈ [ICMP_TIME_EXCEEDED, ICMP_ECHOREPLY] ∧ (stop = true → m.ip_src = dest) := by
  unfold traceRead at h
  rw [ht] at h
  simp only at h
  split at h
  · cases h
  rename_i htype
  split at h
  · cases h
  split at h
  · cases h
  obtain rfl := Option.some.inj h
  refine ⟨?_, of_decide_eq_true⟩
  by_contra hn
  rw [List.mem_cons, List.mem_singleton, not_or] at hn
  exact htype hn

end Read

/-! ## Ports and hops -/

/-- What a probe of the hop consists of. -/
def datagramAt (type : TraceType) (port : UInt16) (hop : Nat) : Datagram :=
  match type with
  | .udp => .udp (port + UInt16.ofNat (hop - 1))
  | .icmp => .echo pid pid

theorem port_inj {port : UInt16} {i j : Nat} (hi : i < 2 ^ 16) (hj : j < 2 ^ 16)
    (h : port + UInt16.ofNat i = port + UInt16.ofNat j) : i = j := by
  have h := congrArg UInt16.toNat (UInt16.add_right_inj port |>.mp h)
  rw [UInt16.toNat_ofNat', UInt16.toNat_ofNat', Nat.mod_eq_of_lt hi, Nat.mod_eq_of_lt hj] at h
  exact h

structure Inv (type : TraceType) (port : UInt16) (s : State) : Prop where
  method : s.trace.type = type
  first : 1 ≤ s.hop
  last : s.hop ≤ opt_max_hops + 1
  trying : ∀ t, s.pc = .loop t ∨ s.pc = .select t → s.hop ≤ opt_max_hops
  ttl : s.trace.ttl.toNat = s.hop
  dest : type = .udp → s.trace.port = port + UInt16.ofNat (s.hop - 1)
  probes : ∀ p ∈ s.probes, 1 ≤ p.ttl.toNat ∧ p.datagram = datagramAt type port p.ttl.toNat
  answers : ∀ a ∈ s.heard ++ s.inbox, ∃ p, s.probes[a.probe]? = some p ∧ a.message.Answers p.datagram

variable {type : TraceType} {port : UInt16} {dest : Address} {s s' : State}

theorem inv_init : Inv type port (init type port) where
  method := rfl
  first := Nat.le_refl _
  last := Nat.succ_le_succ (Nat.zero_le _)
  trying := by
    intro t h
    rcases h with h | h <;> cases h
  ttl := rfl
  dest _ := by
    show port = port + 0
    rw [UInt16.add_zero]
  probes := List.forall_mem_nil _
  answers := List.forall_mem_nil _

theorem traceWrite_spec (h : Inv type port s) : traceWrite s.trace = ⟨s.trace.ttl, datagramAt type port s.hop⟩ := by
  unfold traceWrite datagramAt
  rw [h.method]
  cases type with
  | udp => rw [← h.dest rfl]
  | icmp => rfl

theorem getElem?_sent {l : List Probe} {k : Nat} {p : Probe} (h : l[k]? = some p) (new : List Probe) :
    (l ++ new)[k]? = some p := by
  obtain ⟨hk, -⟩ := List.getElem?_eq_some_iff.mp h
  rw [List.getElem?_append_left hk]
  exact h

/-- What trace_read takes in UDP mode answers a probe of the hop being tried. -/
theorem Inv.present (h : Inv .udp port s) {t : Try} (hpc : s.pc = .select t) {a : Answer}
    (ha : a ∈ s.heard ++ s.inbox) (htype : a.message.icmp_type ∈ [ICMP_TIME_EXCEEDED, ICMP_DEST_UNREACH])
    (hport : a.message.word11 = s.trace.port) : Present s a := by
  obtain ⟨p, hp, hans⟩ := h.answers a ha
  obtain ⟨hone, hdata⟩ := h.probes p (List.mem_of_getElem? hp)
  have hlast := h.trying t (Or.inr hpc)
  have hquotes : a.message.word11 = port + UInt16.ofNat (p.ttl.toNat - 1) := by
    rw [hdata] at hans
    rcases hans with ⟨h0, -⟩ | ⟨-, hq⟩
    · rw [h0] at htype
      exact absurd htype (by decide)
    · exact hq
  rw [hport, h.dest rfl] at hquotes
  have hlt := p.ttl.toNat_lt
  have hfirst := h.first
  have hhop := port_inj (by unfold opt_max_hops at hlast; omega) (by omega) hquotes
  unfold Present
  rw [hp, Option.map_some, Option.some_inj]
  apply UInt8.toNat_inj.mp
  rw [h.ttl]
  omega

theorem Present.answersHop (hi : Inv type port s) {a : Answer} (ha : a ∈ s.heard ++ s.inbox) (h : Present s a) :
    AnswersHop s a s.hop := by
  obtain ⟨p, hp, hans⟩ := hi.answers a ha
  unfold Present at h
  rw [hp, Option.map_some, Option.some_inj] at h
  exact ⟨p, hp, hans, by rw [h, hi.ttl]⟩

/-! ## The steps -/

/-- A step that only moves the program, within the hop. -/
structure Moves (s s' : State) : Prop where
  trace : s'.trace = s.trace
  hop : s'.hop = s.hop
  probes : s'.probes = s.probes
  answers : s'.heard ++ s'.inbox = s.heard ++ s.inbox

theorem Inv.moves (h : Inv type port s) (hm : Moves s s')
    (htry : ∀ t, s'.pc = .loop t ∨ s'.pc = .select t → s.hop ≤ opt_max_hops) : Inv type port s' := by
  obtain ⟨h1, h2, h3, h4⟩ := hm
  exact {
    method := by rw [h1]; exact h.method
    first := by rw [h2]; exact h.first
    last := by rw [h2]; exact h.last
    trying := by rw [h2]; exact htry
    ttl := by rw [h1, h2]; exact h.ttl
    dest := by rw [h1, h2]; exact h.dest
    probes := by rw [h3]; exact h.probes
    answers := by rw [h3, h4]; exact h.answers }

theorem moves_readAnswer {t : Try} {a : Answer} {inbox : List Answer} (hin : s.inbox = a :: inbox) :
    Moves s (readAnswer dest t a { s with inbox := inbox }) := by
  have hans : s.heard ++ [a] ++ inbox = s.heard ++ s.inbox := by
    rw [hin, List.append_assoc]
    rfl
  unfold readAnswer
  simp only
  split
  · exact ⟨rfl, rfl, rfl, hans⟩
  · exact ⟨rfl, rfl, rfl, hans⟩

theorem inv_write (h : Inv type port s) {t t' : Try} (hpc : s.pc = .loop t) :
    Inv type port { s with
      probes := if t.readonly then s.probes else s.probes ++ [traceWrite s.trace], pc := .select t' } := by
  have hhop := h.trying t (Or.inl hpc)
  cases t.readonly with
  | true => exact h.moves ⟨rfl, rfl, rfl, rfl⟩ fun _ _ => hhop
  | false =>
    refine { h with trying := fun _ _ => hhop, probes := ?_, answers := ?_ }
    · intro p hp
      rcases List.mem_append.mp hp with hp | hp
      · exact h.probes p hp
      · obtain rfl := List.mem_singleton.mp hp
        rw [traceWrite_spec h, h.ttl]
        exact ⟨h.first, rfl⟩
    · intro a ha
      obtain ⟨p, hp, hans⟩ := h.answers a ha
      exact ⟨p, getElem?_sent hp _, hans⟩

theorem traceInc_type (t : Trace) : (traceIncPort (traceIncTtl t)).type = t.type := by
  unfold traceIncPort
  split <;> rfl

theorem traceInc_ttl (t : Trace) : (traceIncPort (traceIncTtl t)).ttl = t.ttl + 1 := by
  unfold traceIncPort
  split <;> rfl

theorem traceInc_port {t : Trace} (h : t.type = .udp) : (traceIncPort (traceIncTtl t)).port = t.port + 1 := by
  unfold traceIncPort traceIncTtl
  rw [if_pos h]

theorem inv_nextHop (h : Inv type port s) {t : Try} (hpc : s.pc = .loop t) :
    Inv type port { s with trace := traceIncPort (traceIncTtl s.trace), hop := s.hop + 1, pc := .main } := by
  have hhop := h.trying t (Or.inl hpc)
  have hfirst := h.first
  refine { h with method := ?_, first := ?_, last := ?_, trying := ?_, ttl := ?_, dest := ?_ }
  · rw [← h.method]
    exact traceInc_type s.trace
  · exact Nat.le_succ_of_le hfirst
  · exact Nat.succ_le_succ hhop
  · intro t h
    rcases h with h | h <;> cases h
  · have hlt : s.hop + 1 < 256 := by
      unfold opt_max_hops at hhop
      omega
    show (traceIncPort _).ttl.toNat = s.hop + 1
    rw [traceInc_ttl, UInt8.toNat_add, h.ttl]
    exact Nat.mod_eq_of_lt hlt
  · intro hudp
    have htype := h.method
    subst hudp
    show (traceIncPort _).port = port + UInt16.ofNat s.hop
    rw [traceInc_port htype]
    obtain ⟨n, hn⟩ : ∃ n, s.hop = n + 1 := ⟨s.hop - 1, by omega⟩
    rw [h.dest rfl, hn, Nat.add_sub_cancel, UInt16.ofNat_add, ← UInt16.add_assoc]
    rfl

theorem inv_answer (h : Inv type port s) {k : Nat} {m : Message} {p : Probe} (hp : s.probes[k]? = some p)
    (hm : m.Answers p.datagram) : Inv type port { s with inbox := s.inbox ++ [⟨k, m⟩] } := by
  refine { h with answers := ?_ }
  intro a ha
  rw [← List.append_assoc] at ha
  rcases List.mem_append.mp ha with ha | ha
  · exact h.answers a ha
  · obtain rfl := List.mem_singleton.mp ha
    exact ⟨p, hp, hm⟩

theorem inv_step {maxTries : Nat} {e : Event} (h : Inv type port s) (hs : step maxTries dest e s = some s') :
    Inv type port s' := by
  unfold step at hs
  split at hs
  · rename_i hpc
    split at hs
    · obtain rfl := Option.some.inj hs
      exact h.moves ⟨rfl, rfl, rfl, rfl⟩ (by intro t h; rcases h with h | h <;> cases h)
    · split at hs
      · obtain rfl := Option.some.inj hs
        exact h.moves ⟨rfl, rfl, rfl, rfl⟩ (by intro t h; rcases h with h | h <;> cases h)
      · obtain rfl := Option.some.inj hs
        exact h.moves ⟨rfl, rfl, rfl, rfl⟩ fun _ _ => by omega
  · rename_i t hpc
    split at hs
    · obtain rfl := Option.some.inj hs
      exact inv_write h hpc
    · obtain rfl := Option.some.inj hs
      exact inv_nextHop h hpc
  · rename_i t hpc
    split at hs
    · obtain rfl := Option.some.inj hs
      exact h.moves ⟨rfl, rfl, rfl, rfl⟩ fun _ _ => h.trying t (Or.inr hpc)
    · cases hs
  · rename_i t hpc
    obtain rfl := Option.some.inj hs
    exact h.moves ⟨rfl, rfl, rfl, rfl⟩ fun _ _ => h.trying t (Or.inr hpc)
  · rename_i t hpc
    split at hs
    · cases hs
    · rename_i a inbox hin
      obtain rfl := Option.some.inj hs
      exact h.moves (moves_readAnswer hin) fun _ _ => h.trying t (Or.inr hpc)
  · split at hs
    · rename_i p hp
      split at hs
      · rename_i hm
        obtain rfl := Option.some.inj hs
        exact inv_answer h hp hm.1
      · cases hs
    · cases hs
  · cases hs

/-! ## The lines -/

theorem attributed_init : Attributed dest (init type port) where
  printed := List.forall_mem_nil _
  stop h := nomatch h
  exited h := nomatch h

theorem AnswersHop.kept {a : Answer} {hop : Nat} (h : AnswersHop s a hop) (hp : s.probes <+: s'.probes) :
    AnswersHop s' a hop := by
  obtain ⟨p, h1, h2, h3⟩ := h
  obtain ⟨new, hnew⟩ := hp
  refine ⟨p, ?_, h2, h3⟩
  rw [← hnew]
  exact getElem?_sent h1 new

/-- A step that prints no address and does not stop. -/
theorem Attributed.kept (h : Attributed dest s) (hp : s.probes <+: s'.probes)
    (hheard : s.heard ⊆ s'.heard) (hprinted : s'.printed = s.printed) (hstop : s'.stop = s.stop)
    (hexit : s'.pc = .exited → s.pc = .exited ∧ s'.hop = s.hop ∨ s.stop = true ∨ opt_max_hops < s'.hop) :
    Attributed dest s' where
  printed := by
    intro q hq
    rw [hprinted] at hq
    obtain ⟨a, ha, hsrc, hop⟩ := h.printed q hq
    exact ⟨a, hheard ha, hsrc, hop.kept hp⟩
  stop := by
    intro hs
    rw [hstop] at hs
    obtain ⟨a, ha, hsrc, hop, hans⟩ := h.stop hs
    exact ⟨a, hheard ha, hsrc, hop, hans.kept hp⟩
  exited := by
    intro hpc
    rw [hstop]
    rcases hexit hpc with ⟨hex, hhop⟩ | hor
    · rw [hhop]
      exact h.exited hex
    · exact hor

/-- What is printed, and what stops the loop, has been sent for the hop being tried, by the
    destination. -/
theorem attributed_readAnswer (hi : Inv type port s) (h : Attributed dest s) {t : Try} (hpc : s.pc = .select t)
    {a : Answer} {inbox : List Answer} (hin : s.inbox = a :: inbox) (htimely : Timely dest .readable s) :
    Attributed dest (readAnswer dest t a { s with inbox := inbox }) := by
  have ha : a ∈ s.heard ++ s.inbox := by
    rw [hin]
    exact List.mem_append_right _ List.mem_cons_self
  have hmem : a ∈ s.heard ++ [a] := List.mem_append_right _ (List.mem_singleton_self a)
  have hsub : s.heard ⊆ s.heard ++ [a] := List.subset_append_left _ _
  unfold readAnswer
  simp only
  split
  · exact h.kept List.prefix_rfl hsub rfl rfl nofun
  · rename_i stop hread
    -- the answer is one of the hop being tried, and one that stops is the destination's
    have hright : Present s a ∧ (stop = true → a.message.ip_src = dest) := by
      unfold Timely at htimely
      rw [hin] at htimely
      have hmethod := hi.method
      cases type with
      | udp =>
        obtain ⟨htype, hport, hcode⟩ := traceRead_udp hmethod hread
        simp only [hmethod] at htimely
        have hpresent := hi.present hpc ha htype hport
        exact ⟨hpresent, fun hs => htimely htype (hcode hs) hpresent⟩
      | icmp =>
        obtain ⟨htype, hsrc⟩ := traceRead_icmp hmethod hread
        simp only [hmethod] at htimely
        exact ⟨htimely htype, hsrc⟩
    obtain ⟨hpresent, hsrc⟩ := hright
    have hans := hpresent.answersHop hi ha
    refine ⟨?_, ?_, nofun⟩
    · intro q hq
      have hq : q ∈ s.printed ∨ q = (s.hop, a.message.ip_src) := by
        simp only at hq
        split at hq
        · rcases List.mem_append.mp hq with hq | hq
          · exact Or.inl hq
          · exact Or.inr (List.mem_singleton.mp hq)
        · exact Or.inl hq
      rcases hq with hq | rfl
      · obtain ⟨b, hb, hsrc, hop⟩ := h.printed q hq
        exact ⟨b, hsub hb, hsrc, hop⟩
      · exact ⟨a, hmem, rfl, hans⟩
    · intro hs
      rcases Bool.or_eq_true_iff.mp hs with hs | hs
      · obtain ⟨b, hb, hsrc, hop⟩ := h.stop hs
        exact ⟨b, hsub hb, hsrc, hop⟩
      · exact ⟨a, hmem, hsrc hs, s.hop, hans⟩

theorem attributed_step {maxTries : Nat} {e : Event} (hi : Inv type port s) (h : Attributed dest s)
    (htimely : Timely dest e s) (hs : step maxTries dest e s = some s') : Attributed dest s' := by
  unfold step at hs
  split at hs
  · split at hs
    · rename_i hstop
      obtain rfl := Option.some.inj hs
      exact h.kept List.prefix_rfl (List.Subset.refl _) rfl rfl fun _ => Or.inr (Or.inl hstop)
    · split at hs
      · rename_i hhop
        obtain rfl := Option.some.inj hs
        exact h.kept List.prefix_rfl (List.Subset.refl _) rfl rfl fun _ => Or.inr (Or.inr hhop)
      · obtain rfl := Option.some.inj hs
        exact h.kept List.prefix_rfl (List.Subset.refl _) rfl rfl nofun
  · rename_i t hpc
    split at hs
    · obtain rfl := Option.some.inj hs
      refine h.kept ?_ (List.Subset.refl _) rfl rfl ?_
      · show s.probes <+: if t.readonly then _ else _
        split
        · exact List.prefix_rfl
        · exact List.prefix_append _ _
      · intro hpc
        cases hpc
    · obtain rfl := Option.some.inj hs
      exact h.kept List.prefix_rfl (List.Subset.refl _) rfl rfl nofun
  · split at hs
    · obtain rfl := Option.some.inj hs
      exact h.kept List.prefix_rfl (List.Subset.refl _) rfl rfl nofun
    · cases hs
  · obtain rfl := Option.some.inj hs
    exact h.kept List.prefix_rfl (List.Subset.refl _) rfl rfl nofun
  · rename_i t hpc
    split at hs
    · cases hs
    · rename_i a inbox hin
      obtain rfl := Option.some.inj hs
      exact attributed_readAnswer hi h hpc hin htimely
  · split at hs
    · split at hs
      · obtain rfl := Option.some.inj hs
        exact h.kept List.prefix_rfl (List.Subset.refl _) rfl rfl fun hpc => Or.inl ⟨hpc, rfl⟩
      · cases hs
    · cases hs
  · cases hs

/-- Every address stands on the line of a hop that its sender has answered a probe of, and
    the loop stops behind an answer from the destination (or at the last hop), however the
    answers are delayed or lost, if no late one is taken and no other host's ends the trace. -/
theorem hops_attributed {maxTries : Nat} {es : List Event} (h : run (step maxTries dest) es (init type port) = some s)
    (hm : Meets (step maxTries dest) (Timely dest) es (init type port)) : Attributed dest s := by
  have hrun : Inv type port s ∧ Attributed dest s := by
    apply run_inv_meets (P := fun s => Inv type port s ∧ Attributed dest s) _ ⟨inv_init, attributed_init⟩ hm h
    intro e s s' hs hok hstep
    obtain ⟨hi, ha⟩ := hs
    exact ⟨inv_step hi hstep, attributed_step hi ha hok hstep⟩
  exact hrun.2

/-- From a router whose address is 1: the time to live has run out. -/
def timeExceeded : Message := ⟨1, ICMP_TIME_EXCEEDED, 0, 0, 0, 0, pid, pid⟩

def echoReply : Message := ⟨100, ICMP_ECHOREPLY, 0, pid, pid, 0, 0, 0⟩

/-- From the router: it does not let the datagram through. -/
def reject : Message := ⟨1, ICMP_DEST_UNREACH, ICMP_PORT_UNREACH, 0, 0, 33434, 17, 0⟩

/-- The router answers the second try, and the destination the first of the next hop. -/
def twoHops : List Event :=
  [.go, .go, .expired, .go, .answer 1 timeExceeded, .readable, .go, .go, .go, .answer 2 echoReply, .readable]

theorem hops_attributed_two_hops :
    ∃ s, run (step 2 100) twoHops (init .icmp 33434) = some s ∧ s.printed = [(1, 1), (2, 100)] ∧ Attributed 100 s := by
  obtain ⟨s, hrun, hprinted⟩ : ∃ s, run (step 2 100) twoHops (init .icmp 33434) = some s ∧
      s.printed = [(1, 1), (2, 100)] := ⟨_, rfl, rfl⟩
  exact ⟨s, hrun, hprinted, hops_attributed hrun (by decide)⟩

/-- icmp: the only answer is one to the first hop's probe, and stands on the line of the
    second. udp: a router's answer ends the trace, and the destination has sent none. -/
theorem late_answer_on_the_next_line :
    (∃ s, run (step 1 100) [.go, .go, .expired, .go, .go, .go, .answer 0 timeExceeded, .readable]
        (init .icmp 33434) = some s ∧
      s.printed = [(2, 1)] ∧ ¬ ∃ a ∈ s.heard ++ s.inbox, AnswersHop s a 2) ∧
    ∃ s, run (step 1 100) [.go, .go, .answer 0 reject, .readable] (init .udp 33434) = some s ∧
      s.stop = true ∧ ∀ a ∈ s.heard ++ s.inbox, a.message.ip_src ≠ 100 := by
  refine ⟨⟨_, rfl, rfl, ?_⟩, _, rfl, rfl, by decide⟩
  intro h
  obtain ⟨a, ha, p, hp, -, hhop⟩ := h
  obtain rfl := List.mem_singleton.mp ha
  obtain rfl := Option.some.inj hp
  revert hhop
  decide

end Netutils.Traceroute
