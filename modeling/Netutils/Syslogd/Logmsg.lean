/-
  Netutils.Syslogd.Logmsg — logmsg, fprintlog and domark of syslogd (syslogd/syslogd.c) for a
  destination that is a file, with every write succeeding.

  A message that equals the one saved last, from the same host, is only counted. What has been
  counted is written with the next other message, or when it has been held for long enough: a
  count of one as the saved line, a higher one as a notice.
-/

import Netutils.Libc.Syslog

namespace Netutils.Syslogd

open Netutils.Libc

/-! ## State -/

/-- A string: its bytes, without the NUL. -/
abbrev Str := List UInt8

def MAXSVLINE : Nat := 240
def TIMERINTVL : Nat := 30

/-- Seconds before a flush. -/
def repeatinterval : List Int := [30, 60]

def MAXREPEAT : Nat := repeatinterval.length - 1

/-- What one `writev` puts behind the file. -/
structure Line where
  lasttime : Str
  host : Str
  text : Str
  deriving DecidableEq

/-- The masks of levels, the last one that of "mark". -/
abbrev Pmask := Fin (LOG_NFACILITIES + 1) → UInt8

structure Filed where
  time : Int := 0
  pmask : Pmask
  prevline : Str := []
  lasttime : Str := []
  prevhost : Option Str := none
  prevpri : Nat := 0
  prevlen : Nat := 0
  prevcount : Nat := 0
  repeatcount : Nat := 0
  /-- What is in the file, from the first write on. -/
  written : List Line := []

/-- The flags of a message that matter to a file. -/
structure Flags where
  ADDDATE : Bool := false
  MARK : Bool := false

/-- A call of logmsg, and what time says then. -/
structure Call where
  now : Int
  pri : Nat
  msg : Str
  /-- `from` -/
  host : Str
  flags : Flags
  /-- What f_pmask[fac] finds behind the masks, for a facility that there is none for. -/
  behind : UInt8 := 0

/-- What does not change while syslogd runs. -/
structure Settings where
  LocalHostName : Str
  MarkInterval : Nat
  /-- `ctime (&now) + 4` -/
  date : Int → Str

/-! ## Messages -/

def space : UInt8 := 0x20
def colon : UInt8 := 0x3a

/-- The message starts with a date. -/
def Call.dated (c : Call) : Bool :=
  16 ≤ c.msg.length && c.msg[3]? == some space && c.msg[6]? == some space && c.msg[9]? == some colon &&
    c.msg[12]? == some colon && c.msg[15]? == some space

def Call.addDate (c : Call) : Bool := c.flags.ADDDATE || !c.dated

/-- What lasttime has room for. -/
def Call.timestamp (st : Settings) (c : Call) : Str := (if c.addDate then st.date c.now else c.msg).take 15

/-- The message behind its date. -/
def Call.text (c : Call) : Str := if c.addDate then c.msg else c.msg.drop 16

def Call.fac (c : Call) : Nat := if c.flags.MARK then LOG_NFACILITIES else LOG_FAC c.pri

/-! ## One destination -/

def repeatedHead : Str := text "last message repeated "
def repeatedTail : Str := text " times"

/-- `"last message repeated %d times"` -/
def repeated (n : Nat) : Str := repeatedHead ++ decimal n ++ repeatedTail

namespace Filed

/-- fprintlog -/
def fprintlog (now : Int) (f : Filed) (msg : Option Str) : Filed :=
  let text :=
    match msg with
    | some msg => msg
    | none => if 1 < f.prevcount then repeated f.prevcount else f.prevline.take f.prevlen
  { f with
    time := now
    written := f.written ++ [⟨f.lasttime, f.prevhost.getD [], text⟩]
    prevcount := 0 }

/-- REPEATTIME -/
def repeatTime (f : Filed) : Int := f.time + repeatinterval.getD f.repeatcount 0

/-- BACKOFF -/
def backoff (f : Filed) : Filed := { f with repeatcount := min (f.repeatcount + 1) MAXREPEAT }

/-- The mask has the level. -/
def selects (f : Filed) (c : Call) : Bool :=
  if h : c.fac < LOG_NFACILITIES + 1 then f.pmask ⟨c.fac, h⟩ &&& LOG_MASK (LOG_PRI c.pri) ≠ 0 else false

/-- `f->f_pmask[fac] & LOG_MASK (prilev)`: nothing asks whether there is a mask for the facility,
    and behind the masks are f_un and f_prevline. -/
def admits (f : Filed) (c : Call) : Bool :=
  if c.fac < LOG_NFACILITIES + 1 then f.selects c else c.behind &&& LOG_MASK (LOG_PRI c.pri) ≠ 0

/-- A mark for a recently written file. -/
def withholds (st : Settings) (f : Filed) (c : Call) : Bool := c.flags.MARK && c.now - f.time < (st.MarkInterval / 2 : Nat)

/-- The test for a duplicate. -/
def isRepeat (f : Filed) (c : Call) : Bool :=
  !c.flags.MARK && c.text.length == f.prevlen && c.text == f.prevline && some c.host == f.prevhost

/-- The duplicate is counted. -/
def count (st : Settings) (f : Filed) (c : Call) : Filed :=
  { f with lasttime := c.timestamp st, prevcount := f.prevcount + 1 }

/-- What has been counted is written. -/
def flush (now : Int) (f : Filed) : Filed := if f.prevcount ≠ 0 then f.fprintlog now none else f

/-- "New line, save it." -/
def save (st : Settings) (f : Filed) (c : Call) : Filed :=
  let f := { f with repeatcount := 0, lasttime := c.timestamp st, prevhost := some c.host }
  if c.text.length < MAXSVLINE then
    { f with prevlen := c.text.length, prevpri := c.pri, prevline := c.text }.fprintlog c.now none
  else { f with prevline := [], prevlen := 0 }.fprintlog c.now (some c.text)

/-- logmsg, as far as this destination goes -/
def logmsg (st : Settings) (f : Filed) (c : Call) : Filed :=
  if !f.admits c then f
  else if f.withholds st c then f
  else if f.isRepeat c then
    if (f.count st c).repeatTime < c.now then ((f.count st c).fprintlog c.now none).backoff else f.count st c
  else (f.flush c.now).save st c

/-- The flush of domark, behind the mark. -/
def tick (now : Int) (f : Filed) : Filed :=
  if f.prevcount ≠ 0 ∧ f.repeatTime ≤ now then (f.fprintlog now none).backoff else f

end Filed

/-! ## The daemon -/

structure State where
  file : Filed
  MarkSeq : Nat := 0

inductive Event where
  | logmsg (c : Call)
  /-- domark, and what time says to the logmsg in it. -/
  | domark (now later : Int)

variable (st : Settings)

namespace State

def markSeq (s : State) : Nat := s.MarkSeq + TIMERINTVL

/-- It is time for a mark. -/
def marks (s : State) : Bool := 0 < st.MarkInterval && st.MarkInterval ≤ s.markSeq

def mark (later : Int) : Call where
  now := later
  pri := LOG_INFO
  msg := text "-- MARK --"
  host := st.LocalHostName
  flags := { ADDDATE := true, MARK := true }

/-- The call of logmsg in an event. -/
def call (s : State) : Event → Option Call
  | .logmsg c => some c
  | .domark _ later => if s.marks st then some (mark st later) else none

def step (s : State) : Event → State
  | .logmsg c => { s with file := s.file.logmsg st c }
  | .domark now later =>
    if s.marks st then ⟨(s.file.logmsg st (mark st later)).tick later, 0⟩
    else ⟨s.file.tick now, if 0 < st.MarkInterval then s.markSeq else s.MarkSeq⟩

def run (s : State) : List Event → State
  | [] => s
  | e :: es => (s.step st e).run es

end State

end Netutils.Syslogd
