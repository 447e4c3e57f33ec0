/-
  Netutils.Telnet.Client — the option routines of the client (willoption, wontoption,
  dooption, dontoption and the send_* of telnet/telnet.c) over all its options, with what
  they and the rest of the main loop do to the network's output ring.

  The routines are those of `Options.Telnet` but for TM, which is never on, and LINEMODE,
  which is turned on with SGA. NETADD puts its bytes where supply stands and asks for no
  room; all that is not a verb or a command of the user is written only where NETROOM says
  that it fits.
-/

import Netutils.Lib.Transition
import Netutils.Telnet.Receive
import Netutils.Telnet.Ring

namespace Netutils.Telnet

open Netutils.Arpa
open Netutils.Lib.Cells
open Netutils.Options
open Netutils.Wire

/-! ## The output ring -/

structure Client where
  /-- `options`, `do_dont_resp` and `will_wont_resp`. -/
  opts : UInt8 → Opt
  netoring : Ring UInt8
  /-- All that has ever been appended to netoring, in order. -/
  appended : List UInt8
  /-- All that send has taken from it. -/
  sent : List UInt8

/-- What telrcv and the routines it calls look up elsewhere. -/
structure World where
  /-- `env_getvalue ("DISPLAY")` is not NULL. -/
  display : Bool
  /-- What sendnaws would send; nothing if TerminalWindowSize fails. -/
  naws : List UInt8
  /-- What slc_init or the sub-option would send. -/
  reply : List UInt8

namespace Client

/-- NETADD -/
def netadd (s : Client) (c : UInt8) : Client :=
  { s with
    netoring := { s.netoring with mem := store s.netoring.mem s.netoring.supply [c] }.ringSupplied 1
    appended := s.appended ++ [c] }

/-- NET2ADD -/
def net2add (s : Client) (c1 c2 : UInt8) : Client := (s.netadd c1).netadd c2

/-- NETROOM -/
def netroom (s : Client) : Nat := s.netoring.ringEmptyCount

/-- `ring_supply_data (&netoring, l, len)` -/
def supplyData (s : Client) (l : List UInt8) : Client :=
  { s with netoring := s.netoring.ringSupplyData l, appended := s.appended ++ l }

/-- `if (NETROOM () > len)`: slc_export, slc_import, slc_end_reply, env_opt_end, lm_will,
    lm_do, lm_mode and the answers of suboption. -/
def offer (s : Client) (l : List UInt8) : Client := if s.netroom > l.length then s.supplyData l else s

/-! ## Options -/

def set (s : Client) (option : UInt8) (o : Opt) : Client := { s with opts := fun c => if c = option then o else s.opts c }

def verbByte : Verb → UInt8
  | .will => WILL
  | .wont => WONT
  | .do_ => DO
  | .dont => DONT

def put (s : Client) (option : UInt8) (v : Verb) : Client := (s.net2add IAC (verbByte v)).netadd option

/-- A routine leaves the option at `r.1` and sends the verbs `r.2`. -/
def answer (s : Client) (option : UInt8) (r : Opt × List Verb) : Client := r.2.foldl (put · option) (s.set option r.1)

def sendDo (s : Client) (c : UInt8) (init : Bool) : Client := s.answer c (Options.Telnet.sendDo init (s.opts c))
def sendDont (s : Client) (c : UInt8) (init : Bool) : Client := s.answer c (Options.Telnet.sendDont init (s.opts c))
def sendWill (s : Client) (c : UInt8) (init : Bool) : Client := s.answer c (Options.Telnet.sendWill init (s.opts c))
def sendWont (s : Client) (c : UInt8) (init : Bool) : Client := s.answer c (Options.Telnet.sendWont init (s.opts c))

/-- `new_state_ok` of willoption -/
def willOk (option : UInt8) : Bool := option ∈ [TELOPT_ECHO, TELOPT_BINARY, TELOPT_SGA, TELOPT_STATUS]

/-- `new_state_ok` of dooption -/
def doOk (w : World) (option : UInt8) : Bool :=
  option ∈ [TELOPT_BINARY, TELOPT_NAWS, TELOPT_TSPEED, TELOPT_LFLOW, TELOPT_TTYPE, TELOPT_SGA, TELOPT_NEW_ENVIRON] ||
    option == TELOPT_XDISPLOC && w.display

def willoption (s : Client) (option : UInt8) : Client :=
  let o := s.opts option
  let resp := o.do_.credit true
  if option = TELOPT_TM ∧ resp = 0 ∧ o.myWantStateIsDo = false then
    -- If we get back a WILL, pretend we got back a WONT.
    s.set option { o with do_ := ⟨false, false, resp⟩ }
  else s.answer option (Options.Telnet.willoption (willOk option) o)

def wontoption (s : Client) (option : UInt8) : Client :=
  let o := s.opts option
  if option = TELOPT_TM then
    -- Never reply to TM will's/wont's
    s.set option { o with do_ := ⟨false, false, o.do_.credit false⟩ }
  else s.answer option (Options.Telnet.wontoption o)

def dooption (s : Client) (w : World) (option : UInt8) : Client :=
  let o := s.opts option
  let resp := o.will.credit true
  if option = TELOPT_TM ∧ resp = 0 ∧ o.myWantStateIsWill = false then
    -- We send a WILL, but pretend we sent WONT.
    (s.set option { o with will := ⟨false, false, resp⟩ }).sendWill option false
  else if option = TELOPT_LINEMODE ∧ resp = 0 then
    let s := s.sendDo TELOPT_SGA true
    if o.myWantStateIsWill = false then
      ((s.set option { o with will := ⟨true, true, resp⟩ }).sendWill option false).offer w.reply
    else ((s.set option { o with will := ⟨true, true, resp⟩ }).offer w.reply).sendDo TELOPT_SGA false
  else s.answer option (Options.Telnet.dooption (doOk w option) o)

def dontoption (s : Client) (option : UInt8) : Client :=
  s.answer option (Options.Telnet.dontoption (s.opts option))

def sendnaws (s : Client) (w : World) : Client :=
  if (s.opts TELOPT_NAWS).myStateIsWill = false then s
  else if s.netroom ≥ w.naws.length then s.supplyData w.naws
  else s

/-! ## What the main loop does -/

/-- TS_WILL, TS_WONT, TS_DO and TS_DONT of telrcv. -/
def option (s : Client) (w : World) (v : Verb) (c : UInt8) : Client :=
  match v with
  | .will => s.willoption c
  | .wont => s.wontoption c
  | .do_ => if c = TELOPT_NAWS then (s.dooption w c).sendnaws w else s.dooption w c
  | .dont => s.dontoption c

/-- A request for the display of a client that has none any more. -/
def DisplayGone (s : Client) (w : World) (b : SubBuf) : Prop :=
  b.mem.getD b.ptr 0 = TELOPT_XDISPLOC ∧ (s.opts TELOPT_XDISPLOC).myWantStateIsWill = true ∧
    b.ptr + 1 < b.fin ∧ b.mem.getD (b.ptr + 1) 0 = TELQUAL_SEND ∧ w.display = false

instance (s : Client) (w : World) (b : SubBuf) : Decidable (s.DisplayGone w b) := inferInstanceAs (Decidable (_ ∧ _))

def suboption (s : Client) (w : World) (b : SubBuf) : Client :=
  if s.DisplayGone w b then s.sendWont TELOPT_XDISPLOC true else s.offer w.reply

def acts (w : World) : Acts Client where
  command := fun s _ => (s, [])
  option := fun s v c => (s.option w v c, [])
  suboption := fun s b => (s.suboption w b, b, [])

/-- setneturg -/
def setneturg (s : Client) : Client := { s with netoring := s.netoring.ringMark }

/-- netclear does nothing. -/
def dosynch (s : Client) : Client := ((s.netadd IAC).setneturg).netadd DM

/-- What netflush does where send takes `n` bytes. -/
def netflush (s : Client) (n : Nat) : Client :=
  { s with
    netoring := s.netoring.ringConsumed n
    sent := s.sent ++ slice s.netoring.mem s.netoring.consume (s.netoring.consume + n) }

/-- The send_* that sends `v` on the user's behalf. -/
def ask (s : Client) : Verb → UInt8 → Client
  | .will, c => s.sendWill c true
  | .wont, c => s.sendWont c true
  | .do_, c => s.sendDo c true
  | .dont, c => s.sendDont c true

end Client

/-- What the main loop does next. Between any two of these it may find that the network
    takes nothing. -/
inductive Action where
  /-- A turn of telrcv's loop. -/
  | received (c : UInt8) (w : World)
  /-- A turn of telsnd's loop, which wants `NETROOM () > 2`. -/
  | typed (l : List UInt8)
  /-- xmitAO, xmitEC, intp and the like. -/
  | command (l : List UInt8)
  | synch
  /-- A send_* that a command of the user, or telnet, calls. -/
  | ask (v : Verb) (c : UInt8)
  /-- get_status, sendnaws, slc_mode_export and others that look for room. -/
  | offer (l : List UInt8)
  | netflush (n : Nat)
  /-- Another ring moves ring_clock. -/
  | other

namespace Client

def step : Action → Ctl Client → Option (Ctl Client)
  | .received c w, k => some (k.next (acts w) commands c)
  | .typed l, k => if 2 < k.env.netroom ∧ l.length ≤ 2 then some { k with env := l.foldl netadd k.env } else none
  | .command l, k => some { k with env := l.foldl netadd k.env }
  | .synch, k => some { k with env := k.env.dosynch }
  | .ask v c, k => some { k with env := k.env.ask v c }
  | .offer l, k => if l.length ≤ k.env.netroom then some { k with env := k.env.supplyData l } else none
  | .netflush n, k =>
    -- at the mark one byte is sent, out of band
    if n ≤ k.env.netoring.ringFullConsecutive ∧ (k.env.netoring.mark = some (k.env.netoring.consume : Int) → n ≤ 1) then
      some { k with env := k.env.netflush n }
    else none
  | .other, k => some { k with env := { k.env with netoring := { k.env.netoring with ringClock := k.env.netoring.tick } } }

/-- A turn of telrcv's loop is such a step, whatever it looks ahead to. -/
theorem received_telrcv {H : Handlers Client} {w : World} (hH : H.toActs = acts w) (s : Rcv Client) (c : UInt8)
    (nc : Option UInt8) : step (.received c w) s.ctl = some (telrcv H s c nc).next.ctl := by
  have hturn : (telrcv H s c nc).next.ctl = s.ctl.next H.toActs commands c := by
    by_cases hf : s.state.frame = .data
    · obtain ⟨cr, -, hd⟩ := receive_data (program H) hf
      rw [telrcv, hd]
      exact gottext_ctl (program H) hf cr c nc
    · rw [telrcv, (receive_outside (program H) hf c nc).1]
      exact receive_ctl (program H) s c
  rw [hturn, hH]
  rfl

/-- telrcv between two bytes, with nothing to send yet. -/
def start (opts : UInt8 → Opt) (size : Nat) : Ctl Client :=
  ⟨.data, ⟨List.replicate 256 0, 0, 0⟩, ⟨opts, Ring.init (fun _ => 0) size 0, [], []⟩⟩

end Client

end Netutils.Telnet
