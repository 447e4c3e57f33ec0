/-
  Netutils.Options.Agreement — the two option machines settle in agreement.

  The connection carries two negotiations at once: of telnetd performing the option
  (its WILL/WONT against the client's DO/DONT) and of the client performing it. Each is
  a link of `Netutils.Lib.Negotiation`; an action of the system moves one link and leaves
  the other (`step_performed`, `step_requested`).

  So in every reachable configuration with both channels empty, performer and requester
  want the same, whatever the 8-bit counters have been through (`agreement`).
-/

import Netutils.Options.Machine

namespace Netutils.Options

open Netutils.Lib.Negotiation
open Netutils.Lib.Transition

/-! ## The two links of a configuration -/

def willValue : Verb → Option Bool
  | .will => some true
  | .wont => some false
  | .do_ | .dont => none

def doValue : Verb → Option Bool
  | .do_ => some true
  | .dont => some false
  | .will | .wont => none

/-- The WILLs and WONTs of a channel, as values. -/
def wills (l : List Verb) : List Bool := l.filterMap willValue

/-- The DOs and DONTs of a channel, as values. -/
def dos (l : List Verb) : List Bool := l.filterMap doValue

@[simp] theorem wills_nil : wills [] = [] := rfl
@[simp] theorem dos_nil : dos [] = [] := rfl

@[simp] theorem wills_cons (v : Verb) (l : List Verb) : wills (v :: l) = (willValue v).toList ++ wills l := by
  cases v <;> rfl

@[simp] theorem dos_cons (v : Verb) (l : List Verb) : dos (v :: l) = (doValue v).toList ++ dos l := by
  cases v <;> rfl

@[simp] theorem wills_append (l m : List Verb) : wills (l ++ m) = wills l ++ wills m := List.filterMap_append
@[simp] theorem dos_append (l m : List Verb) : dos (l ++ m) = dos l ++ dos m := List.filterMap_append

@[simp] theorem wills_willVerb (l : List Bool) : wills (l.map willVerb) = l := by
  induction l with
  | nil => rfl
  | cons x l ih => cases x <;> simp [willVerb, willValue, ih]

@[simp] theorem dos_doVerb (l : List Bool) : dos (l.map doVerb) = l := by
  induction l with
  | nil => rfl
  | cons x l ih => cases x <;> simp [doVerb, doValue, ih]

@[simp] theorem dos_willVerb (l : List Bool) : dos (l.map willVerb) = [] := by
  induction l with
  | nil => rfl
  | cons x l ih => cases x <;> simp [willVerb, doValue, ih]

@[simp] theorem wills_doVerb (l : List Bool) : wills (l.map doVerb) = [] := by
  induction l with
  | nil => rfl
  | cons x l ih => cases x <;> simp [doVerb, willValue, ih]

/-- The option performed by telnetd. -/
def Config.performed (c : Config) : Link := ⟨c.telnetd.will, c.telnet.do_, wills c.toTelnet, dos c.toTelnetd⟩

/-- What an action is for the link `performed`. -/
def performedMove (c : Config) : Action → Option Move
  | .initiate .telnetd v => (willValue v).map .reqA
  | .initiate .telnet v => (doValue v).map .reqB
  | .deliver .telnetd => (c.toTelnetd.head?.bind doValue).map fun _ => .recvA
  | .deliver .telnet => (c.toTelnet.head?.bind willValue).map fun _ => .recvB

/-- Being told no needs no willingness. -/
theorem receive_no (M : Nat) (ok ok' : Bool) (h : Half) : h.receive M ok false = h.receive M ok' false := by
  simp [Half.receive]

/-- A link's part in a step: a move of its own, or none. -/
def Follows (okA okB : Bool) (m : Option Move) (l l' : Link) : Prop :=
  match m with
  | none => l' = l
  | some m => Link.step respRange okA okB m l = some l'

theorem step_performed {d t : Policy} {a : Action} {c c' : Config} (h : step d t a c = some c') :
    Follows d.acceptDo t.acceptWill (performedMove c a) c.performed c'.performed := by
  cases a with
  | initiate p v =>
    cases p
    · simp only [step] at h
      split at h
      · rename_i ha
        cases h
        cases v <;> simp_all [Follows, performedMove, willValue, Link.step, Config.performed, Telnetd.initiate,
          Telnetd.sendWill, Telnetd.sendWont, Telnetd.sendDo, Telnetd.sendDont, Opt.setWill, Opt.setDo, send,
          Policy.allows]
      · cases h
    · simp only [step] at h
      split at h
      · rename_i ha
        cases h
        cases v <;> simp_all [Follows, performedMove, doValue, Link.step, Config.performed, Telnet.initiate,
          Telnet.sendWill, Telnet.sendWont, Telnet.sendDo, Telnet.sendDont, Opt.setWill, Opt.setDo, send,
          Policy.allows]
      · cases h
  | deliver p =>
    cases p
    · simp only [step] at h
      split at h
      · cases h
      · rename_i v rest hv
        cases h
        cases v <;> simp [Follows, performedMove, doValue, Link.step, Config.performed, Telnetd.receive, hv,
          Telnetd.willoption, Telnetd.wontoption, Telnetd.dooption, Telnetd.dontoption, Opt.setWill, Opt.setDo,
          receive_no respRange d.acceptDo true]
    · simp only [step] at h
      split at h
      · cases h
      · rename_i v rest hv
        cases h
        cases v <;> simp [Follows, performedMove, willValue, Link.step, Config.performed, Telnet.receive, hv,
          Telnet.willoption, Telnet.wontoption, Telnet.dooption, Telnet.dontoption, Opt.setWill, Opt.setDo,
          receive_no respRange t.acceptWill true]

/-! ## The same system with the parties' names exchanged

  The two programs run the same machine, so what holds of the option telnetd performs
  holds of the option the client performs. -/

def Config.mirror (c : Config) : Config := ⟨c.telnet, c.telnetd, c.toTelnetd, c.toTelnet⟩

def Party.other : Party → Party
  | .telnetd => .telnet
  | .telnet => .telnetd

def Action.mirror : Action → Action
  | .initiate p v => .initiate p.other v
  | .deliver p => .deliver p.other

theorem initiate_same (v : Verb) : Telnetd.initiate v = Telnet.initiate v := by cases v <;> rfl

theorem receive_same (p : Policy) (v : Verb) : Telnetd.receive p v = Telnet.receive p v := by cases v <;> rfl

theorem step_mirror (d t : Policy) (a : Action) (c : Config) :
    step t d a.mirror c.mirror = (step d t a c).map Config.mirror := by
  cases a with
  | initiate p v =>
    cases p <;> simp only [Action.mirror, Party.other, step, Config.mirror, initiate_same] <;> split <;> rfl
  | deliver p =>
    cases p <;> simp only [Action.mirror, Party.other, step, Config.mirror, receive_same] <;> split <;> simp_all [Config.mirror]

/-- The option performed by the client, at telnetd's request. -/
def Config.requested (c : Config) : Link := c.mirror.performed

/-- What an action is for the link `requested`. -/
def requestedMove (c : Config) (a : Action) : Option Move := performedMove c.mirror a.mirror

theorem step_requested {d t : Policy} {a : Action} {c c' : Config} (h : step d t a c = some c') :
    Follows t.acceptDo d.acceptWill (requestedMove c a) c.requested c'.requested := by
  apply step_performed
  rw [step_mirror, h]
  rfl

/-! ## The invariant of a configuration -/

/-- What a step makes a counter of a link forget. -/
def forgotten (okA okB : Bool) (m : Option Move) (l : Link) : Nat :=
  match m with
  | none => 0
  | some m => Link.forgets respRange okA okB m l

theorem inv_follows {okA okB : Bool} {m : Option Move} {l l' : Link} {lost : Nat} (hi : Inv respRange okA okB lost l)
    (hf : Follows okA okB m l l') : Inv respRange okA okB (lost + forgotten okA okB m l) l' := by
  rcases m with _ | m
  · obtain rfl : l' = l := hf; exact hi
  · exact inv_step (by decide) (by decide) hi hf

/-- What both links of a configuration have forgotten: `lp` by the option telnetd
    performs, `lr` by the one the client performs. -/
structure CInv (d t : Policy) (lp lr : Nat) (c : Config) : Prop where
  performed : Inv respRange d.acceptDo t.acceptWill lp c.performed
  requested : Inv respRange t.acceptDo d.acceptWill lr c.requested

theorem cinv_init (d t : Policy) : CInv d t 0 0 .init := ⟨inv_idle (by decide) _ _, inv_idle (by decide) _ _⟩

/-- What an action makes the counters of the two links forget. -/
def forgetsP (d t : Policy) (a : Action) (c : Config) : Nat :=
  forgotten d.acceptDo t.acceptWill (performedMove c a) c.performed

def forgetsR (d t : Policy) (a : Action) (c : Config) : Nat :=
  forgotten t.acceptDo d.acceptWill (requestedMove c a) c.requested

theorem cinv_step {d t : Policy} {lp lr : Nat} {a : Action} {c c' : Config} (hi : CInv d t lp lr c)
    (h : step d t a c = some c') : CInv d t (lp + forgetsP d t a c) (lr + forgetsR d t a c) c' :=
  ⟨inv_follows hi.performed (step_performed h), inv_follows hi.requested (step_requested h)⟩

theorem cinv_reachable {d t : Policy} {c : Config} (h : Reachable d t c) : ∃ lp lr, CInv d t lp lr c :=
  reach_inv (P := fun c => ∃ lp lr, CInv d t lp lr c) (fun _ _ _ ⟨_, _, hi⟩ hs => ⟨_, _, cinv_step hi hs⟩)
    ⟨0, 0, cinv_init d t⟩ h

/-! ## Agreement -/

def willing : Policy := ⟨true, true⟩

/-- Whenever both channels are empty, the performer's `my_want_state_will` is the
    requester's `my_want_state_do`, in both directions. -/
theorem agreement {d t : Policy} {c : Config} (h : Reachable d t c) (hd : c.toTelnetd = []) (ht : c.toTelnet = []) :
    c.telnetd.myWantStateIsWill = c.telnet.myWantStateIsDo ∧
      c.telnet.myWantStateIsWill = c.telnetd.myWantStateIsDo := by
  obtain ⟨lp, lr, hi⟩ := cinv_reachable h
  constructor
  · exact agree hi.performed (by simp [Config.performed, ht]) (by simp [Config.performed, hd])
  · exact agree hi.requested (by simp [Config.requested, Config.performed, Config.mirror, hd])
      (by simp [Config.requested, Config.performed, Config.mirror, ht])

/-- A WILL accepted with a DO. -/
def settled : Config := ⟨⟨⟨true, true, 0⟩, .idle⟩, ⟨.idle, ⟨true, true, 0⟩⟩, [], []⟩

theorem agreement_settled :
    settled.telnetd.myWantStateIsWill = settled.telnet.myWantStateIsDo ∧
      settled.telnet.myWantStateIsWill = settled.telnetd.myWantStateIsDo :=
  agreement (d := willing) (t := willing)
    ⟨[.initiate .telnetd .will, .deliver .telnet, .deliver .telnetd], rfl⟩ rfl rfl

end Netutils.Options
