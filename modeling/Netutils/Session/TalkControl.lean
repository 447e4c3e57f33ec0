/-
  Netutils.Session.TalkControl — a talk client and the talkd of each machine, over a network
  that loses, delays, reorders and doubles datagrams.

  A response has no mark of the request it answers, and ctl_transact resends until one "of the
  proper type is obtained". So a response that ends a call has been made by a talkd for a
  datagram with the call's type that the client has sent, in this call or in one before
  (`transaction_answered`): for this call's if no call before had the type, but else it may
  be a late answer. DELETE is the one type that goes to two machines, so with any other the
  talkd is the one that the call asks, and with DELETE it may be the other one
  (`deleted_by_the_other_daemon`).
-/

import Mathlib.Logic.Function.Basic
import Netutils.Lib.Transition
import Netutils.Talk.Invite
import Netutils.Talkd.Process

namespace Netutils.Session.TalkControl

open Netutils.Lib.Transition
open Netutils.Protocols
open Netutils.Talk
open Netutils.Talkd (Daemon World processRequest)

/-! ## The system -/

/-- A datagram of the client, and the call that has sent it. -/
structure Request where
  call : Nat
  target : Address
  msg : CtlMsg

/-- A datagram of the talkd at `src`, and what it answers. -/
structure Reply where
  src : Address
  request : Request
  response : CtlResponse

structure Call where
  number : Nat
  transact : Transact
  /-- What `*rp` has been received as. -/
  received : Option Reply

structure State where
  client : Client
  call : Option Call
  daemons : Address → Daemon
  /-- All that has been sent; the network may bring each of it at any time, any number of times. -/
  requests : List Request
  replies : List Reply
  /-- What ctl_sockt holds. -/
  ctlSockt : List Reply
  /-- The calls that have returned. -/
  returned : List Call

def init (client : Client) : State := ⟨client, none, fun _ => .init, [], [], [], []⟩

inductive Event where
  /-- The next call; what `*rp` and `nready` hold before. -/
  | call (rp : CtlResponse) (nready : Int)
  | sent
  | sendInterrupted
  /-- 1, 0, or -1 with EINTR. -/
  | selected (nready : Int)
  | received
  | recvInterrupted
  | client (e : Client.Event)
  /-- The network brings the i-th request to its target. -/
  | serve (i : Nat) (w : World) (rp : CtlResponse)
  /-- Another client's request is served. -/
  | other (target : Address) (w : World) (msg : CtlMsg) (rp : CtlResponse)
  /-- The network brings the i-th reply. -/
  | arrive (i : Nat)

/-- ctl_transact goes on or, with `none`, returns. -/
def State.goOn (s : State) (c : Call) : Option Transact → State
  | some t => { s with call := some { c with transact := t } }
  | none => { s with call := none, returned := s.returned ++ [c], client := s.client.returned c.transact.rp }

def selectable (nready : Int) (sockt : List Reply) : Bool :=
  nready = -1 || nready = 0 && sockt.isEmpty || nready = 1 && !sockt.isEmpty

/-- Any other error of a system call ends the client, and the run with it. -/
def step (ttl : Int) (e : Event) (s : State) : Option State :=
  match e, s.call with
  | .call rp nready, none => do
    let (target, msg, type) ← s.client.call
    some { s with call := some ⟨s.returned.length, .start target msg type rp nready, none⟩ }
  | .sent, some c =>
    if c.transact.pc = .sendto then
      some { s with
        requests := s.requests ++ [⟨c.number, c.transact.target, c.transact.msg⟩]
        call := some { c with transact := { c.transact with pc := .select } } }
    else none
  | .sendInterrupted, some c => if c.transact.pc = .sendto then some (s.goOn c (some c.transact.resend)) else none
  | .selected nready, some c =>
    if (c.transact.pc = .select ∨ c.transact.pc = .poll) ∧ selectable nready s.ctlSockt then
      some (s.goOn c (c.transact.selected nready))
    else none
  | .received, some c =>
    match s.ctlSockt with
    | [] => none
    | r :: l =>
      if c.transact.pc = .recv then
        some { s with
          ctlSockt := l
          call := some { c with transact := { c.transact with rp := r.response, pc := .poll }, received := some r } }
      else none
  | .recvInterrupted, some c => if c.transact.pc = .recv then some (s.goOn c c.transact.again) else none
  | .client e, none => do
    let client ← s.client.occurs e
    some { s with client := client }
  | .serve i w rp, _ => do
    let q ← s.requests[i]?
    let o := processRequest ttl w (s.daemons q.target) q.msg rp
    some { s with
      daemons := Function.update s.daemons q.target o.daemon
      replies := s.replies ++ (o.response.map fun r => ⟨q.target, q, r⟩).toList }
  | .other target w msg rp, _ =>
    some { s with daemons := Function.update s.daemons target (processRequest ttl w (s.daemons target) msg rp).daemon }
  | .arrive i, _ => do
    let r ← s.replies[i]?
    some { s with ctlSockt := s.ctlSockt ++ [r] }
  | _, _ => none

/-! ## The response of a call -/

/-- A talkd has made this reply for a datagram of the client. -/
structure Made (ttl : Int) (requests : List Request) (r : Reply) : Prop where
  sent : r.request ∈ requests
  src : r.src = r.request.target
  served : ∃ w d rp, (processRequest ttl w d r.request.msg rp).response = some r.response

/-- The response in `*rp` answers a datagram with the call's type from this call or one
    before, and one from this call if none before had the type; the machine is that of the
    call, but for a DELETE after one to the other machine. -/
structure Answered (ttl : Int) (requests : List Request) (c : Call) (r : Reply) : Prop where
  response : c.transact.rp = r.response
  made : Made ttl requests r
  vers : r.response.vers = TALK_VERSION
  type : r.response.type = c.transact.msg.type
  asked : r.request.msg.type = c.transact.msg.type
  call : r.request.call ≤ c.number
  src : c.transact.msg.type ≠ DELETE → r.src = c.transact.target
  own : (∀ q ∈ requests, q.call < c.number → q.msg.type ≠ c.transact.msg.type) →
    r.request.call = c.number ∧ r.src = c.transact.target

/-! ## The steps -/

/-- The datagrams of a call are its own. -/
def Own (requests : List Request) (c : Call) : Prop :=
  ∀ q ∈ requests, q.call = c.number → q.target = c.transact.target ∧ q.msg = c.transact.msg

/-- A datagram other than a DELETE goes to the machine of its type. -/
def Placed (m : UInt8 → Address) (target : Address) (msg : CtlMsg) : Prop := msg.type ≠ DELETE → target = m msg.type

/-- What has been received in the call. -/
structure Receiving (m : UInt8 → Address) (number : Nat) (requests : List Request) (replies : List Reply) (c : Call) :
    Prop where
  number : c.number = number
  own : Own requests c
  placed : Placed m c.transact.target c.transact.msg
  received : ∀ r, c.received = some r → c.transact.rp = r.response ∧ r ∈ replies

structure Inv (ttl : Int) (m : UInt8 → Address) (s : State) : Prop where
  machine : s.client.machine = m
  placed : ∀ q ∈ s.requests, Placed m q.target q.msg
  made : ∀ r ∈ s.replies, Made ttl s.requests r
  sockt : ∀ r ∈ s.ctlSockt, r ∈ s.replies
  requests : ∀ q ∈ s.requests, q.call < s.returned.length + s.call.toList.length
  receiving : ∀ c, s.call = some c → Receiving m s.returned.length s.requests s.replies c
  number : ∀ c ∈ s.returned, c.number < s.returned.length
  own : ∀ c ∈ s.returned, Own s.requests c
  answered : ∀ c ∈ s.returned, ∀ r, c.received = some r → Answered ttl s.requests c r

variable {ttl : Int} {m : UInt8 → Address} {s s' : State} {c : Call}

theorem inv_init (client : Client) : Inv ttl client.machine (init client) where
  machine := rfl
  placed := List.forall_mem_nil _
  made := List.forall_mem_nil _
  sockt := List.forall_mem_nil _
  requests := List.forall_mem_nil _
  receiving _ h := nomatch h
  number := List.forall_mem_nil _
  own := List.forall_mem_nil _
  answered := List.forall_mem_nil _

theorem Made.mono {l l' : List Request} {r : Reply} (h : Made ttl l r) (hreq : l ⊆ l') : Made ttl l' r :=
  ⟨hreq h.sent, h.src, h.served⟩

theorem Answered.mono {l l' : List Request} {r : Reply} (h : Answered ttl l c r) (hreq : l ⊆ l') : Answered ttl l' c r :=
  { h with made := h.made.mono hreq, own := fun hno => h.own fun q hq => hno q (hreq hq) }

theorem inv_call (h : Inv ttl m s) (hnone : s.call = none) {t : Transact} (ht : Placed m t.target t.msg) :
    Inv ttl m { s with call := some ⟨s.returned.length, t, none⟩ } := by
  have hlt : ∀ q ∈ s.requests, q.call < s.returned.length := by
    intro q hq
    have := h.requests q hq
    rwa [hnone] at this
  refine { h with requests := fun q hq => Nat.lt_succ_of_lt (hlt q hq), receiving := ?_ }
  intro c hc
  obtain rfl := Option.some.inj hc
  -- the number is a new one
  exact ⟨rfl, fun q hq he => absurd he (Nat.ne_of_lt (hlt q hq)), ht, nofun⟩

/-- No datagram is of a call to come. -/
theorem Inv.sent_before (h : Inv ttl m s) (hcall : s.call = some c) :
    ∀ q ∈ s.requests, q.call < s.returned.length + 1 := by
  have hlt := h.requests
  rw [hcall] at hlt
  exact hlt

theorem inv_sent (h : Inv ttl m s) (hcall : s.call = some c) :
    Inv ttl m { s with
      requests := s.requests ++ [⟨c.number, c.transact.target, c.transact.msg⟩]
      call := some { c with transact := { c.transact with pc := .select } } } := by
  have hsub : s.requests ⊆ s.requests ++ [⟨c.number, c.transact.target, c.transact.msg⟩] := List.subset_append_left _ _
  obtain ⟨hnumber, hown, hplaced, hreceived⟩ := h.receiving c hcall
  refine ⟨h.machine, ?_, fun r hr => (h.made r hr).mono hsub, h.sockt, ?_, ?_, h.number, ?_, ?_⟩
  · intro q hq
    rcases List.mem_append.mp hq with hq | hq
    · exact h.placed q hq
    · obtain rfl := List.mem_singleton.mp hq
      exact hplaced
  · intro q hq
    show q.call < s.returned.length + 1
    rcases List.mem_append.mp hq with hq | hq
    · exact h.sent_before hcall q hq
    · obtain rfl := List.mem_singleton.mp hq
      rw [hnumber]
      exact Nat.lt_succ_self _
  · intro c' hc'
    obtain rfl := Option.some.inj hc'
    refine ⟨hnumber, ?_, hplaced, hreceived⟩
    intro q hq he
    rcases List.mem_append.mp hq with hq | hq
    · exact hown q hq he
    · obtain rfl := List.mem_singleton.mp hq
      exact ⟨rfl, rfl⟩
  · intro c' hc' q hq he
    rcases List.mem_append.mp hq with hq | hq
    · exact h.own c' hc' q hq he
    · obtain rfl := List.mem_singleton.mp hq
      -- a call that has returned has another number
      have hlt := h.number c' hc'
      have he : c.number = c'.number := he
      omega
  · exact fun c' hc' r hr => (h.answered c' hc' r hr).mono hsub

/-- What a call returns with. -/
theorem answered_of_receiving (h : Inv ttl m s) (hcall : s.call = some c) (hproper : c.transact.proper = true) {r : Reply}
    (hr : c.received = some r) : Answered ttl s.requests c r := by
  obtain ⟨hnumber, hown, hplaced, hreceived⟩ := h.receiving c hcall
  obtain ⟨hrp, hmem⟩ := hreceived r hr
  obtain ⟨hvers, htype⟩ := (c.transact.proper_iff).mp hproper
  have hmade := h.made r hmem
  obtain ⟨w, d, rp, hserved⟩ := hmade.served
  have hhead := (Talkd.headed_processRequest ttl w d r.request.msg rp).type _ hserved
  rw [hrp] at hvers htype
  have hle : r.request.call ≤ c.number := by
    rw [hnumber]
    exact Nat.le_of_lt_succ (h.sent_before hcall r.request hmade.sent)
  have hasked : r.request.msg.type = c.transact.msg.type := hhead.symm.trans htype
  refine ⟨hrp, hmade, hvers, htype, hasked, hle, ?_, ?_⟩
  · intro hdel
    have htarget : r.request.target = m r.request.msg.type := h.placed _ hmade.sent (hasked ▸ hdel)
    calc r.src = m r.request.msg.type := hmade.src.trans htarget
      _ = m c.transact.msg.type := by rw [hasked]
      _ = c.transact.target := (hplaced hdel).symm
  intro hno
  have heq : r.request.call = c.number := by
    rcases Nat.lt_or_eq_of_le hle with hlt | heq
    · exact absurd hasked (hno _ hmade.sent hlt)
    · exact heq
  exact ⟨heq, hmade.src.trans (hown _ hmade.sent heq).1⟩

theorem inv_goOn (h : Inv ttl m s) (hcall : s.call = some c) {next : Option Transact} (hnext : c.transact.GoesOn next) :
    Inv ttl m (s.goOn c next) := by
  obtain ⟨hnumber, hown, hplaced, hreceived⟩ := h.receiving c hcall
  cases next with
  | some t =>
    obtain ⟨htarget, hmsg, hrp⟩ := hnext.stays t rfl
    refine { h with requests := h.sent_before hcall, receiving := ?_ }
    · intro c' hc'
      obtain rfl := Option.some.inj hc'
      refine ⟨hnumber, ?_, ?_, ?_⟩
      · show ∀ q ∈ s.requests, q.call = c.number → q.target = t.target ∧ q.msg = t.msg
        rw [htarget, hmsg]
        exact hown
      · show Placed m t.target t.msg
        rw [htarget, hmsg]
        exact hplaced
      · show ∀ r, c.received = some r → t.rp = r.response ∧ r ∈ s.replies
        rw [hrp]
        exact hreceived
  | none =>
    have hlen : (s.returned ++ [c]).length = s.returned.length + 1 := List.length_append
    refine { h with machine := ?_, requests := ?_, receiving := nofun, number := ?_, own := ?_, answered := ?_ }
    · exact (Client.machine_returned _ _).trans h.machine
    · show ∀ q ∈ s.requests, q.call < (s.returned ++ [c]).length
      rw [hlen]
      exact h.sent_before hcall
    · intro c' hc'
      show c'.number < (s.returned ++ [c]).length
      rw [hlen]
      rcases List.mem_append.mp hc' with hc' | hc'
      · exact Nat.lt_succ_of_lt (h.number c' hc')
      · obtain rfl := List.mem_singleton.mp hc'
        rw [hnumber]
        exact Nat.lt_succ_self _
    · intro c' hc'
      rcases List.mem_append.mp hc' with hc' | hc'
      · exact h.own c' hc'
      · obtain rfl := List.mem_singleton.mp hc'
        exact hown
    · intro c' hc' r hr
      rcases List.mem_append.mp hc' with hc' | hc'
      · exact h.answered c' hc' r hr
      · obtain rfl := List.mem_singleton.mp hc'
        exact answered_of_receiving h hcall (hnext.returns rfl) hr

theorem inv_received (h : Inv ttl m s) (hcall : s.call = some c) {r : Reply} {l : List Reply} (hsockt : s.ctlSockt = r :: l) :
    Inv ttl m { s with
      ctlSockt := l
      call := some { c with transact := { c.transact with rp := r.response, pc := .poll }, received := some r } } := by
  obtain ⟨hnumber, hown, hplaced, -⟩ := h.receiving c hcall
  have hin := h.sockt
  rw [hsockt] at hin
  refine { h with sockt := ?_, requests := h.sent_before hcall, receiving := ?_ }
  · exact fun x hx => hin x (List.mem_cons_of_mem _ hx)
  · intro c' hc'
    obtain rfl := Option.some.inj hc'
    refine ⟨hnumber, hown, hplaced, ?_⟩
    intro r' hr'
    obtain rfl := Option.some.inj hr'
    exact ⟨rfl, hin r List.mem_cons_self⟩

theorem inv_serve (h : Inv ttl m s) {q : Request} (hq : q ∈ s.requests) (w : World) (rp : CtlResponse)
    (daemons : Address → Daemon) :
    Inv ttl m { s with
      daemons := daemons
      replies := s.replies ++
        ((processRequest ttl w (s.daemons q.target) q.msg rp).response.map fun r => ⟨q.target, q, r⟩).toList } := by
  refine { h with made := ?_, sockt := ?_, receiving := ?_ }
  · intro r hr
    rcases List.mem_append.mp hr with hr | hr
    · exact h.made r hr
    · obtain ⟨resp, hresp, rfl⟩ := Option.map_eq_some_iff.mp (Option.mem_toList.mp hr)
      exact ⟨hq, rfl, w, _, rp, hresp⟩
  · exact fun r hr => List.mem_append_left _ (h.sockt r hr)
  · intro c hc
    obtain ⟨h1, h2, h3, h4⟩ := h.receiving c hc
    exact ⟨h1, h2, h3, fun r hr => ⟨(h4 r hr).1, List.mem_append_left _ (h4 r hr).2⟩⟩

theorem inv_arrive (h : Inv ttl m s) {r : Reply} (hr : r ∈ s.replies) : Inv ttl m { s with ctlSockt := s.ctlSockt ++ [r] } := by
  refine { h with sockt := ?_ }
  intro x hx
  rcases List.mem_append.mp hx with hx | hx
  · exact h.sockt x hx
  · obtain rfl := List.mem_singleton.mp hx
    exact hr

theorem inv_step {e : Event} (h : Inv ttl m s) (hs : step ttl e s = some s') : Inv ttl m s' := by
  unfold step at hs
  split at hs
  · rename_i hnone
    obtain ⟨⟨target, msg, type⟩, hnext, hs⟩ := Option.bind_eq_some_iff.mp hs
    obtain rfl := Option.some.inj hs
    refine inv_call h hnone ?_
    intro htype
    show target = m type
    rw [← h.machine]
    exact Client.call_machine hnext htype
  · rename_i c hcall
    split at hs
    · obtain rfl := Option.some.inj hs
      exact inv_sent h hcall
    · cases hs
  · rename_i c hcall
    split at hs
    · obtain rfl := Option.some.inj hs
      exact inv_goOn h hcall c.transact.goesOn_resend
    · cases hs
  · rename_i c hcall
    split at hs
    · obtain rfl := Option.some.inj hs
      exact inv_goOn h hcall (c.transact.goesOn_selected _)
    · cases hs
  · rename_i c hcall
    split at hs
    · cases hs
    · rename_i r l hsockt
      split at hs
      · obtain rfl := Option.some.inj hs
        exact inv_received h hcall hsockt
      · cases hs
  · rename_i c hcall
    split at hs
    · obtain rfl := Option.some.inj hs
      exact inv_goOn h hcall c.transact.goesOn_again
    · cases hs
  · obtain ⟨client, hclient, hs⟩ := Option.bind_eq_some_iff.mp hs
    obtain rfl := Option.some.inj hs
    exact { h with machine := (Client.machine_occurs hclient).trans h.machine }
  · obtain ⟨q, hq, hs⟩ := Option.bind_eq_some_iff.mp hs
    obtain rfl := Option.some.inj hs
    exact inv_serve h (List.mem_of_getElem? hq) _ _ _
  · obtain rfl := Option.some.inj hs
    exact { h with }
  · obtain ⟨r, hr, hs⟩ := Option.bind_eq_some_iff.mp hs
    obtain rfl := Option.some.inj hs
    exact inv_arrive h (List.mem_of_getElem? hr)
  · cases hs

/-- In every run, every call that returns with something it has received. -/
theorem transaction_answered {client : Client} {es : List Event} (h : run (step ttl) es (init client) = some s) :
    ∀ c ∈ s.returned, ∀ r, c.received = some r → Answered ttl s.requests c r := by
  have hinv : Inv ttl client.machine s := run_inv (fun _ _ _ hi hs => inv_step hi hs) (inv_init client) h
  exact hinv.answered

/-- What a daemon meets, where nothing is in the way. -/
def world : World := ⟨false, (SUCCESS, []), some [], SUCCESS, 0, 0⟩

def caller : Client :=
  .init ⟨TALK_VERSION, 0, 0, ⟨AF_INET, []⟩, ⟨AF_INET, []⟩, 1, [0x61], [0x62], []⟩ 1 2 ⟨AF_INET, []⟩

def blank : CtlResponse := ⟨0, 0, 0, 0, ⟨0, []⟩⟩

/-- A call whose only datagram, the i-th, is answered. -/
def served (i : Nat) : List Event :=
  [.call blank 0, .sent, .serve i world blank, .arrive i, .selected 1, .received, .selected 0]

theorem transaction_answered_look_up :
    ∃ s c r, run (step 60) (served 0) (init caller) = some s ∧ s.returned = [c] ∧ c.received = some r ∧
      Answered 60 s.requests c r := by
  obtain ⟨s, c, r, hrun, hret, hr⟩ : ∃ s c r, run (step 60) (served 0) (init caller) = some s ∧ s.returned = [c] ∧
      c.received = some r := ⟨_, _, _, rfl, rfl, rfl⟩
  refine ⟨s, c, r, hrun, hret, hr, transaction_answered hrun c ?_ r hr⟩
  rw [hret]
  exact List.mem_cons_self

/-- No invitation waits, and the client leaves its own and is called back. It sends the
    DELETE to its own daemon twice, as the response is late: the first ends the call, and the
    second the next, of the DELETE that the other daemon has not had. -/
theorem deleted_by_the_other_daemon : ∃ s c r,
    run (step 60) (served 0 ++ served 1 ++ served 2 ++
      [.client .accepted, .call blank 0, .sent, .selected 0, .sent, .serve 3 world blank, .serve 4 world blank,
        .arrive 3, .selected 1, .received, .selected 0,
        .call blank 0, .sent, .arrive 4, .selected 1, .received, .selected 0]) (init caller) = some s ∧
    s.returned.getLast? = some c ∧ c.received = some r ∧ c.transact.target = 2 ∧ r.src = 1 ∧
    c.number = 4 ∧ r.request.call = 3 :=
  ⟨_, _, _, rfl, rfl, rfl, rfl, rfl, rfl, rfl⟩

end Netutils.Session.TalkControl
