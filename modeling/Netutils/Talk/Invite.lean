/-
  Netutils.Talk.Invite — the side of talk that speaks to the daemons: ctl_transact
  (talk/ctl_transact.c), and the calls that check_local (talk/look_up.c) and invite_remote,
  re_invite and announce_invite (talk/invite.c) make of it until the two are connected.
-/

import Mathlib.Algebra.Group.Nat.Defs
import Netutils.Protocols.Talkd

namespace Netutils.Talk

open Netutils.Protocols

abbrev Address := UInt32

/-! ## ctl_transact -/

inductive At where
  | sendto
  | select
  | recv
  /-- "an immediate poll" -/
  | poll
  deriving DecidableEq

/-- The variables of a call. -/
structure Transact where
  target : Address
  /-- With `msg.type = type`. -/
  msg : CtlMsg
  rp : CtlResponse
  nready : Int
  pc : At

namespace Transact

/-- Neither `*rp` nor `nready` is set before it is read, if a signal interrupts a call. -/
def start (target : Address) (msg : CtlMsg) (type : UInt8) (rp : CtlResponse) (nready : Int) : Transact :=
  ⟨target, { msg with type := type }, rp, nready, .sendto⟩

/-- `!(rp->vers != TALK_VERSION || rp->type != type)` -/
def proper (c : Transact) : Bool := c.rp.vers = TALK_VERSION && c.rp.type = c.msg.type

/-- `while (nready == 0)` -/
def resend (c : Transact) : Transact := { c with pc := if c.nready = 0 then .sendto else .recv }

/-- The other two conditions; `none` when ctl_transact returns. -/
def again (c : Transact) : Option Transact :=
  if c.nready > 0 ∧ c.proper = false then some { c with pc := .recv }
  else if c.proper = false then some { c with pc := .sendto }
  else none

/-- What select has returned, in either place. -/
def selected (c : Transact) (nready : Int) : Option Transact :=
  if c.pc = .poll then { c with nready := nready }.again else some { c with nready := nready }.resend

/-- It returns with a response of the proper type only, and changes nothing that has been
    asked or received before. -/
structure GoesOn (c : Transact) (next : Option Transact) : Prop where
  returns : next = none → c.proper = true
  stays : ∀ t, next = some t → t.target = c.target ∧ t.msg = c.msg ∧ t.rp = c.rp

variable (c : Transact)

theorem goesOn_resend : GoesOn c (some c.resend) :=
  ⟨nofun, fun _ h => Option.some.inj h ▸ ⟨rfl, rfl, rfl⟩⟩

theorem goesOn_again : GoesOn c c.again := by
  unfold again
  split
  · exact ⟨nofun, fun _ h => Option.some.inj h ▸ ⟨rfl, rfl, rfl⟩⟩
  · split
    · exact ⟨nofun, fun _ h => Option.some.inj h ▸ ⟨rfl, rfl, rfl⟩⟩
    · rename_i h
      exact ⟨fun _ => Bool.not_eq_false _ ▸ h, nofun⟩

theorem goesOn_selected (nready : Int) : GoesOn c (c.selected nready) := by
  unfold selected
  split
  · obtain ⟨h1, h2⟩ := goesOn_again { c with nready := nready }
    exact ⟨h1, h2⟩
  · exact ⟨nofun, fun _ h => Option.some.inj h ▸ ⟨rfl, rfl, rfl⟩⟩

theorem proper_iff : c.proper = true ↔ c.rp.vers = TALK_VERSION ∧ c.rp.type = c.msg.type := by
  simp [proper]

end Transact

/-! ## The calls -/

inductive Stage where
  /-- look_for_invite -/
  | lookUp
  /-- connect, in check_local -/
  | connect
  /-- The caller gave up; and the address that open_sockt will get. -/
  | clear (addr : Osockaddr)
  | announce
  | leaveInvite
  /-- accept, in invite_remote -/
  | accept
  | deleteLocal
  | deleteRemote
  | talk
  | quit
  deriving DecidableEq

structure Client where
  stage : Stage
  msg : CtlMsg
  myMachine : Address
  hisMachine : Address
  myAddr : Osockaddr
  localId : Nat
  remoteId : Nat

namespace Client

/-- get_names has set up `msg`, and check_local its ctl_addr. -/
def init (msg : CtlMsg) (myMachine hisMachine : Address) (myAddr : Osockaddr) : Client :=
  ⟨.lookUp, msg, myMachine, hisMachine, myAddr, 0, 0⟩

/-- The call of ctl_transact that comes next: target, msg and type. -/
def call (c : Client) : Option (Address × CtlMsg × UInt8) :=
  match c.stage with
  | .lookUp => some (c.hisMachine, c.msg, LOOK_UP)
  | .clear _ => some (c.hisMachine, c.msg, DELETE)
  | .announce => some (c.hisMachine, c.msg, ANNOUNCE)
  | .leaveInvite => some (c.myMachine, c.msg, LEAVE_INVITE)
  | .deleteLocal => some (c.myMachine, c.msg, DELETE)
  | .deleteRemote => some (c.hisMachine, c.msg, DELETE)
  | _ => none

/-- `-1` as an unsigned id: "an impossible id_num". -/
def impossible : Nat := 2 ^ 32 - 1

/-- invite_remote, up to announce_invite. -/
def inviteRemote (c : Client) : Client :=
  { c with msg := { c.msg with addr := { c.myAddr with family := AF_INET }, idNum := impossible }, stage := .announce }

/-- What the caller of ctl_transact does with the response, up to the next call. -/
def returned (c : Client) (rp : CtlResponse) : Client :=
  match c.stage with
  | .lookUp =>
    if rp.answer = SUCCESS then
      { c with msg := { c.msg with idNum := rp.idNum }, stage := if rp.addr.family = AF_INET then .connect else .quit }
    else c.inviteRemote
  | .clear addr => { c with myAddr := addr }.inviteRemote
  | .announce => { c with remoteId := rp.idNum, stage := if rp.answer = SUCCESS then .leaveInvite else .quit }
  | .leaveInvite => { c with localId := rp.idNum, stage := .accept }
  | .deleteLocal => { c with msg := { c.msg with idNum := c.remoteId }, stage := .deleteRemote }
  | .deleteRemote => { c with stage := .talk }
  | _ => c

/-- The machine whose daemon is asked with a type, but for DELETE. -/
def machine (c : Client) (type : UInt8) : Address := if type = LEAVE_INVITE then c.myMachine else c.hisMachine

theorem call_machine {c : Client} {target : Address} {msg : CtlMsg} {type : UInt8} (h : c.call = some (target, msg, type))
    (htype : type ≠ DELETE) : target = c.machine type := by
  unfold call at h
  split at h
  case h_1 =>
    cases h
    rfl
  case h_3 =>
    cases h
    rfl
  case h_4 =>
    cases h
    rfl
  all_goals
    cases h
    try exact absurd rfl htype

theorem machine_returned (c : Client) (rp : CtlResponse) : (c.returned rp).machine = c.machine := by
  unfold returned
  split
  · split <;> rfl
  all_goals rfl

/-- What happens at the stream socket, and to the timer. -/
inductive Event where
  | connected
  | refused (addr : Osockaddr)
  | accepted
  /-- SIGALRM, while accept waits. -/
  | alarm

def occurs (c : Client) : Event → Option Client
  | .connected => if c.stage = .connect then some { c with stage := .talk } else none
  | .refused addr => if c.stage = .connect then some { c with stage := .clear addr } else none
  | .accepted =>
    if c.stage = .accept then some { c with msg := { c.msg with idNum := c.localId }, stage := .deleteLocal } else none
  | .alarm =>
    -- re_invite
    if c.stage = .accept then some { c with msg := { c.msg with idNum := (c.remoteId + 1) % 2 ^ 32 }, stage := .announce }
    else none

theorem machine_occurs {c c' : Client} {e : Event} (h : c.occurs e = some c') : c'.machine = c.machine := by
  cases e <;> simp only [occurs, Option.ite_none_right_eq_some, Option.some.injEq] at h <;> obtain ⟨-, rfl⟩ := h <;> rfl

end Client

end Netutils.Talk
