/-
  Netutils.Options.Machine — the option state machines of telnetd (telnetd/state.c) and
  of the telnet client (telnet/telnet.c), for one option that none of the receive
  functions treats specially, and the two coupled by the connection's two byte streams.

  The bits MY_STATE_WILL and MY_WANT_STATE_WILL of `options[option]` and
  `will_wont_resp[option]` are the half `will`; MY_STATE_DO, MY_WANT_STATE_DO and
  `do_dont_resp[option]` are the half `do_` (telnetd's `his_state_is_will` is
  `my_state_is_do`). The counters are `char`, so they count modulo 256: the code only
  tests them for zero, increments and decrements them. `changeok` (telnetd) and
  `new_state_ok` (the client) are what the switch on the option says, its policy.
-/

import Netutils.Lib.Negotiation

namespace Netutils.Options

open Netutils.Lib.Negotiation (Half Link Move)
open Netutils.Lib.Transition (run Reach)

inductive Verb where
  | will
  | wont
  | do_
  | dont
  deriving DecidableEq, Repr

structure Opt where
  will : Half
  do_ : Half
  deriving DecidableEq

/-- All state defaults are negative, and the counters default to 0. -/
def Opt.init : Opt := ⟨.idle, .idle⟩

/-! ## The macros of telnetd.h and externs.h -/

def Opt.myStateIsWill (o : Opt) : Bool := o.will.state
def Opt.myWantStateIsWill (o : Opt) : Bool := o.will.want
def Opt.myStateIsDo (o : Opt) : Bool := o.do_.state
def Opt.myWantStateIsDo (o : Opt) : Bool := o.do_.want
def Opt.hisStateIsWill (o : Opt) : Bool := o.myStateIsDo
def Opt.hisWantStateIsWill (o : Opt) : Bool := o.myWantStateIsDo

/-! ## The send and receive functions

  `send_X (option, init)` asks only when `init` is set; else it just emits the verb. -/

/-- The counters are `char`. -/
def respRange : Nat := 256

def willVerb (new : Bool) : Verb := if new then .will else .wont
def doVerb (new : Bool) : Verb := if new then .do_ else .dont

def Opt.setWill (o : Opt) (r : Half × List Bool) : Opt × List Verb := ({ o with will := r.1 }, r.2.map willVerb)
def Opt.setDo (o : Opt) (r : Half × List Bool) : Opt × List Verb := ({ o with do_ := r.1 }, r.2.map doVerb)

def send (init new : Bool) (h : Half) : Half × List Bool :=
  if init then h.request respRange new else (h, [new])

namespace Telnetd

def sendDo (init : Bool) (o : Opt) : Opt × List Verb := o.setDo (send init true o.do_)
def sendDont (init : Bool) (o : Opt) : Opt × List Verb := o.setDo (send init false o.do_)
def sendWill (init : Bool) (o : Opt) : Opt × List Verb := o.setWill (send init true o.will)
def sendWont (init : Bool) (o : Opt) : Opt × List Verb := o.setWill (send init false o.will)

def willoption (changeok : Bool) (o : Opt) : Opt × List Verb := o.setDo (o.do_.receive respRange changeok true)
/-- It is always ok to change to negative state. -/
def wontoption (o : Opt) : Opt × List Verb := o.setDo (o.do_.receive respRange true false)
def dooption (changeok : Bool) (o : Opt) : Opt × List Verb := o.setWill (o.will.receive respRange changeok true)
def dontoption (o : Opt) : Opt × List Verb := o.setWill (o.will.receive respRange true false)

end Telnetd

namespace Telnet

def sendDo (init : Bool) (o : Opt) : Opt × List Verb := o.setDo (send init true o.do_)
def sendDont (init : Bool) (o : Opt) : Opt × List Verb := o.setDo (send init false o.do_)
def sendWill (init : Bool) (o : Opt) : Opt × List Verb := o.setWill (send init true o.will)
def sendWont (init : Bool) (o : Opt) : Opt × List Verb := o.setWill (send init false o.will)

def willoption (newStateOk : Bool) (o : Opt) : Opt × List Verb := o.setDo (o.do_.receive respRange newStateOk true)
def wontoption (o : Opt) : Opt × List Verb := o.setDo (o.do_.receive respRange true false)
def dooption (newStateOk : Bool) (o : Opt) : Opt × List Verb := o.setWill (o.will.receive respRange newStateOk true)
/-- We always accept a DONT. -/
def dontoption (o : Opt) : Opt × List Verb := o.setWill (o.will.receive respRange true false)

end Telnet

/-! ## The two parties and their channels -/

/-- What a side's switch on the option says: whether it performs the option when asked
    (DO) and whether it lets the peer perform it (WILL). -/
structure Policy where
  acceptDo : Bool
  acceptWill : Bool

structure Config where
  telnetd : Opt
  telnet : Opt
  toTelnet : List Verb
  toTelnetd : List Verb
  deriving DecidableEq

def Config.init : Config := ⟨.init, .init, [], []⟩

inductive Party where
  | telnetd
  | telnet
  deriving DecidableEq

inductive Action where
  /-- `send_X (option, 1)` on the party's own initiative. -/
  | initiate (p : Party) (v : Verb)
  /-- The party receives the next verb sent to it. -/
  | deliver (p : Party)
  deriving DecidableEq

/-- A side initiates WILL or DO only when its own policy accepts the option. -/
def Policy.allows (p : Policy) : Verb → Bool
  | .will => p.acceptDo
  | .do_ => p.acceptWill
  | .wont | .dont => true

def Telnetd.initiate : Verb → Opt → Opt × List Verb
  | .will => sendWill true
  | .wont => sendWont true
  | .do_ => sendDo true
  | .dont => sendDont true

def Telnetd.receive (p : Policy) : Verb → Opt → Opt × List Verb
  | .will => willoption p.acceptWill
  | .wont => wontoption
  | .do_ => dooption p.acceptDo
  | .dont => dontoption

def Telnet.initiate : Verb → Opt → Opt × List Verb
  | .will => sendWill true
  | .wont => sendWont true
  | .do_ => sendDo true
  | .dont => sendDont true

def Telnet.receive (p : Policy) : Verb → Opt → Opt × List Verb
  | .will => willoption p.acceptWill
  | .wont => wontoption
  | .do_ => dooption p.acceptDo
  | .dont => dontoption

/-- `d` is telnetd's policy, `t` the client's. -/
def step (d t : Policy) : Action → Config → Option Config
  | .initiate .telnetd v, c =>
    if d.allows v then
      some { c with telnetd := (Telnetd.initiate v c.telnetd).1
                    toTelnet := c.toTelnet ++ (Telnetd.initiate v c.telnetd).2 }
    else none
  | .initiate .telnet v, c =>
    if t.allows v then
      some { c with telnet := (Telnet.initiate v c.telnet).1
                    toTelnetd := c.toTelnetd ++ (Telnet.initiate v c.telnet).2 }
    else none
  | .deliver .telnetd, c =>
    match c.toTelnetd with
    | [] => none
    | v :: rest => some { c with telnetd := (Telnetd.receive d v c.telnetd).1
                                 toTelnetd := rest
                                 toTelnet := c.toTelnet ++ (Telnetd.receive d v c.telnetd).2 }
  | .deliver .telnet, c =>
    match c.toTelnet with
    | [] => none
    | v :: rest => some { c with telnet := (Telnet.receive t v c.telnet).1
                                 toTelnet := rest
                                 toTelnetd := c.toTelnetd ++ (Telnet.receive t v c.telnet).2 }

def Reachable (d t : Policy) (c : Config) : Prop := Reach (step d t) .init c

/-- One delivery, to either side. -/
def Delivers (d t : Policy) (c c' : Config) : Prop := ∃ p, step d t (.deliver p) c = some c'

end Netutils.Options
