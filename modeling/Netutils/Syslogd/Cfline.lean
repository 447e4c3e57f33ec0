/-
  Netutils.Syslogd.Cfline — cfline and decode of syslogd (syslogd/syslogd.c), up to the action:
  how the selectors of a configuration line become masks of levels.
-/

import Netutils.Arpa
import Netutils.Syslogd.Logmsg

namespace Netutils.Syslogd

open Netutils.Arpa Netutils.Libc

def MAXLINE : Nat := 1024

def tab : UInt8 := 0x09
def comma : UInt8 := 0x2c
def semicolon : UInt8 := 0x3b
def star : UInt8 := 0x2a
def bang : UInt8 := 0x21
def equals : UInt8 := 0x3d

/-! ## Names -/

def lookup (codetab : List CODE) (name : Str) : Option Nat := (codetab.find? fun c => strcaseeq name c.name).map CODE.val

/-- `none` for its -1. -/
def decode (name : Str) (codetab : List CODE) : Option Nat :=
  if name.head?.any isdigit then some (atoi name) else lookup codetab name

/-! ## The masks -/

/-- `pri_clear` and `pri_set`, as far as a mask has room for them. -/
structure Change where
  clear : UInt8
  set : UInt8

def Change.on (c : Change) (mask : UInt8) : UInt8 := (mask &&& ~~~c.clear) ||| c.set

def Change.exchange (c : Change) : Change := ⟨c.set, c.clear⟩

structure Masks where
  pmask : Pmask := fun _ => 0
  /-- The facilities in `facilities_seen`. -/
  seen : List Nat

/-- Why cfline does not come to the action. -/
inductive Stop where
  /-- "unknown priority name" -/
  | unknownPriority (name : Str)
  /-- "unknown facility name" -/
  | unknownFacility (name : Str)
  /-- Something is read or stored outside of the line, of buf or of f_pmask. -/
  | outOfBounds
  deriving DecidableEq

/-! ## The priority -/

def isModifier (c : UInt8) : Bool := c == bang || c == equals

/-- The level named in a field; `excl`: no others. -/
def levelChange (excl : Bool) (bp : Str) : Except Stop Change :=
  if bp.head? = some star then .ok ⟨0, LOG_UPTO LOG_PRIMASK⟩
  else
    match decode bp prioritynames with
    | none => .error (.unknownPriority bp)
    | some pri =>
      if pri = INTERNAL_NOPRI then .ok ⟨255, 0⟩
      else .ok ⟨0, if excl then LOG_MASK pri else LOG_UPTO pri⟩

def priorityChange (field : Str) : Except Stop Change :=
  let mods := field.takeWhile isModifier
  (levelChange (mods.contains equals) (field.dropWhile isModifier)).map fun c =>
    if mods.contains bang then c.exchange else c

/-! ## The facilities -/

def facilityChange (c : Change) (buf : Str) (m : Masks) : Except Stop Masks :=
  if buf.head? = some star then
    -- a second star leaves out those that have been named
    .ok { m with pmask := fun i => if buf[1]? = some star ∧ i.val ∈ m.seen then m.pmask i else c.on (m.pmask i) }
  else
    match decode buf facilitynames with
    | none => .error (.unknownFacility buf)
    | some i =>
      if h : LOG_FAC i < LOG_NFACILITIES + 1 then
        .ok { pmask := Function.update m.pmask ⟨LOG_FAC i, h⟩ (c.on (m.pmask ⟨LOG_FAC i, h⟩)), seen := LOG_FAC i :: m.seen }
      else .error .outOfBounds

def endsFacilities (c : UInt8) : Bool := c == tab || c == space || c == dot || c == semicolon

def endsFacility (c : UInt8) : Bool := c == comma || endsFacilities c

/-- "Scan facilities": the masks as they are left, where it stops short. -/
def facilities (c : Change) : Nat → Str → Masks → Except (Stop × Masks) Masks
  | 0, _, m => .ok m
  | k + 1, p, m =>
    if p.head?.all endsFacilities then .ok m
    else
      let buf := p.takeWhile fun c => !endsFacility c
      if MAXLINE ≤ buf.length then .error (.outOfBounds, m)
      else
        match facilityChange c buf m with
        | .error s => .error (s, m)
        | .ok m => facilities c k ((p.dropWhile fun c => !endsFacility c).dropWhile fun c => c == comma || c == space) m

/-! ## The selectors -/

/-- "Find the end of this facility name list." -/
def afterDot : Str → Str
  | [] => []
  | c :: q => if c = tab then c :: q else if c = dot then q else afterDot q

def endsPriority (c : UInt8) : Bool := c == tab || c == space || c == comma || c == semicolon

def isCruft (c : UInt8) : Bool := c == comma || c == semicolon

def isBlank (c : UInt8) : Bool := c == tab || c == space

/-- The masks, and the line from the white space before the action on. -/
def selectors : Nat → Str → Masks → Except (Stop × Masks) (Masks × Str)
  | 0, p, m => .ok (m, p)
  | k + 1, p, m =>
    if p.head?.all isBlank then .ok (m, p)
    else
      let field := (afterDot p).takeWhile fun c => !endsPriority c
      let q := ((afterDot p).dropWhile fun c => !endsPriority c).dropWhile isCruft
      -- strchr finds the NUL in ",;" too, and goes on behind it
      if MAXLINE ≤ field.length ∨ q = [] then .error (.outOfBounds, m)
      else
        match priorityChange field with
        | .error s => .error (s, m)
        | .ok c =>
          match facilities c p.length p m with
          | .error e => .error e
          | .ok m => selectors k q m

/-- cfline, up to the action; each turn takes some of the line. -/
def cfline (seen : List Nat) (line : Str) : Except (Stop × Masks) (Masks × Str) :=
  selectors (line.length + 1) line { seen }

end Netutils.Syslogd
