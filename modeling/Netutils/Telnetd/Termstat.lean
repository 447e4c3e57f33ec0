/-
  Netutils.Telnetd.Termstat — the edit modes of telnetd while real linemode is on (localstat and
  the LM_MODE case of clientstat, telnetd/termstat.c; the tty_ functions of telnetd/term.c).

  The pty keeps EXTPROC, so linemode and uselinemode stay on.
-/

import Netutils.Arpa

namespace Netutils.Telnetd

open Netutils.Arpa

/-! ## Modes -/

/-- What the modes are read from: `ICANON`, `ISIG`, `OXTABS` and `ECHOCTL`. -/
structure Termbuf where
  icanon : Bool
  isig : Bool
  oxtabs : Bool
  echoctl : Bool
  deriving DecidableEq

namespace Termbuf

def isediting (t : Termbuf) : Bool := t.icanon
def istrapsig (t : Termbuf) : Bool := t.isig
def issofttab (t : Termbuf) : Bool := t.oxtabs
def islitecho (t : Termbuf) : Bool := !t.echoctl

def setedit (on : Bool) (t : Termbuf) : Termbuf := { t with icanon := on }
def setsig (on : Bool) (t : Termbuf) : Termbuf := { t with isig := on }
def setsofttab (on : Bool) (t : Termbuf) : Termbuf := { t with oxtabs := on }
def setlitecho (on : Bool) (t : Termbuf) : Termbuf := { t with echoctl := !on }

/-- What localstat sets useeditmode to. -/
def mode (t : Termbuf) : UInt8 :=
  (if t.isediting then MODE_EDIT else 0) ||| (if t.istrapsig then MODE_TRAPSIG else 0) |||
    (if t.issofttab then MODE_SOFT_TAB else 0) ||| (if t.islitecho then MODE_LIT_ECHO else 0)

/-- The changes that clientstat makes one by one. -/
def change (changed useeditmode : UInt8) (t : Termbuf) : Termbuf :=
  let t := if changed &&& MODE_EDIT ≠ 0 then t.setedit (useeditmode &&& MODE_EDIT ≠ 0) else t
  let t := if changed &&& MODE_TRAPSIG ≠ 0 then t.setsig (useeditmode &&& MODE_TRAPSIG ≠ 0) else t
  let t := if changed &&& MODE_SOFT_TAB ≠ 0 then t.setsofttab (useeditmode &&& MODE_SOFT_TAB ≠ 0) else t
  if changed &&& MODE_LIT_ECHO ≠ 0 then t.setlitecho (useeditmode &&& MODE_LIT_ECHO ≠ 0) else t

end Termbuf

/-! ## telnetd -/

structure Termstat where
  editmode : UInt8
  useeditmode : UInt8
  termbuf : Termbuf
  /-- termbuf as it was read. -/
  termbuf2 : Termbuf
  /-- The modes of the pty. -/
  pty : Termbuf
  /-- The masks of the MODE sub-options that it sends. -/
  sent : List UInt8

namespace Termstat

def sendMode (mask : UInt8) (s : Termstat) : Termstat := { s with sent := s.sent ++ [mask] }

def initTermbuf (s : Termstat) : Termstat := { s with termbuf := s.pty, termbuf2 := s.pty }

def setTermbuf (s : Termstat) : Termstat := if s.termbuf = s.termbuf2 then s else { s with pty := s.termbuf }

/-- The edit modes of localstat, with termbuf as it was read. -/
def localstat (s : Termstat) : Termstat :=
  let s := { s with useeditmode := s.termbuf.mode }
  let s := if s.useeditmode ≠ s.editmode then { s.sendMode s.useeditmode with editmode := s.useeditmode } else s
  s.setTermbuf

/-- clientstat (LM_MODE, 0, 0), with useeditmode as the client has sent it. -/
def clientstatMode (s : Termstat) : Termstat :=
  let s := s.initTermbuf
  let s := { s with useeditmode := s.useeditmode &&& MODE_MASK }
  let ack : Bool := s.useeditmode &&& MODE_ACK ≠ 0
  let s := { s with useeditmode := s.useeditmode &&& ~~~MODE_ACK }
  let changed := s.useeditmode ^^^ s.editmode
  if changed ≠ 0 then
    -- localstat sets useeditmode again
    let s := if ack then s.localstat else s
    let s := { s with termbuf := s.termbuf.change changed s.useeditmode }.setTermbuf
    let s := if ack then s else s.sendMode (s.useeditmode ||| MODE_ACK)
    { s with editmode := s.useeditmode }
  else s

/-- suboption, of a MODE with this mask. -/
def receiveMode (mask : UInt8) (s : Termstat) : Termstat := { s with useeditmode := mask }.clientstatMode

/-- A packet with TIOCPKT_IOCTL, that brings the modes of the pty. -/
def ioctlPacket (s : Termstat) : Termstat := { s with termbuf := s.pty, termbuf2 := s.pty }.localstat

end Termstat

/-! ## What each does -/

/-- A mask without the bits of no mode. -/
def modesOf (mask : UInt8) : UInt8 := mask &&& MODE_MASK &&& ~~~MODE_ACK

def isAck (mask : UInt8) : Bool := mask &&& MODE_ACK ≠ 0

/-- The modes that a mask says. -/
def Termbuf.ofMask (mask : UInt8) : Termbuf :=
  ⟨mask &&& MODE_EDIT ≠ 0, mask &&& MODE_TRAPSIG ≠ 0, mask &&& MODE_SOFT_TAB ≠ 0, mask &&& MODE_LIT_ECHO = 0⟩

theorem mask_spec (mask : UInt8) :
    (Termbuf.ofMask mask).mode = modesOf mask ∧ isAck (mask ||| MODE_ACK) = true := by
  obtain ⟨b⟩ := mask
  revert b
  decide +kernel

theorem mode_ofMask (mask : UInt8) : (Termbuf.ofMask mask).mode = modesOf mask := (mask_spec mask).1

theorem isAck_or (mask : UInt8) : isAck (mask ||| MODE_ACK) = true := (mask_spec mask).2

theorem modesOf_mode (t : Termbuf) : modesOf t.mode = t.mode := by
  obtain ⟨a, b, c, d⟩ := t
  revert a b c d
  decide

theorem change_ofMask (t u : Termbuf) : t.change (u.mode ^^^ t.mode) u.mode = u := by
  obtain ⟨a, b, c, d⟩ := t
  obtain ⟨a', b', c', d'⟩ := u
  revert a b c d a' b' c' d'
  decide +kernel

theorem change_mode (t : Termbuf) (changed : UInt8) : t.change changed t.mode = t := by
  have hmode : (t.mode &&& MODE_EDIT ≠ 0 ↔ t.icanon = true) ∧ (t.mode &&& MODE_TRAPSIG ≠ 0 ↔ t.isig = true) ∧
      (t.mode &&& MODE_SOFT_TAB ≠ 0 ↔ t.oxtabs = true) ∧ (t.mode &&& MODE_LIT_ECHO ≠ 0 ↔ t.echoctl = false) := by
    obtain ⟨a, b, c, d⟩ := t
    revert a b c d
    decide
  obtain ⟨h1, h2, h3, h4⟩ := hmode
  simp only [Termbuf.change, Termbuf.setedit, Termbuf.setsig, Termbuf.setsofttab, Termbuf.setlitecho, h1, h2, h3, h4]
  cases t
  simp

theorem isAck_mode (t : Termbuf) : isAck t.mode = false := by
  obtain ⟨a, b, c, d⟩ := t
  revert a b c d
  decide

theorem isAck_mask (mask : UInt8) : isAck (mask &&& MODE_MASK) = isAck mask := by
  have hbit : MODE_MASK &&& MODE_ACK = MODE_ACK := by decide
  rw [isAck, UInt8.and_assoc, hbit]
  rfl

theorem modesOf_modesOf (mask : UInt8) : modesOf (modesOf mask) = modesOf mask := by
  rw [← mode_ofMask mask, modesOf_mode]

theorem isAck_modesOf (mask : UInt8) : isAck (modesOf mask) = false := by
  rw [← mode_ofMask]
  exact isAck_mode _

namespace Termstat

variable (s : Termstat)

/-- What localstat sends. -/
def proposal (s : Termstat) : List UInt8 := if s.pty.mode ≠ s.editmode then [s.pty.mode] else []

/-- localstat, with the modes as they are. -/
theorem localstat_spec (h : s.termbuf = s.pty ∧ s.termbuf2 = s.pty) :
    s.localstat = { s with
      useeditmode := s.pty.mode
      editmode := s.pty.mode
      sent := s.sent ++ s.proposal } := by
  obtain ⟨h1, h2⟩ := h
  by_cases hmode : s.pty.mode = s.editmode
  · simp [localstat, setTermbuf, proposal, h1, h2, hmode]
  · simp [localstat, setTermbuf, sendMode, proposal, h1, h2, hmode]

/-- telnetd has got a mask and read the pty. -/
def got (mask : UInt8) (s : Termstat) : Termstat := { s.initTermbuf with useeditmode := modesOf mask }

theorem receiveMode_same {mask : UInt8} (h : modesOf mask = s.editmode) : s.receiveMode mask = s.got mask := by
  have hnot : ¬ (modesOf mask ^^^ s.editmode ≠ 0) := by simp [h]
  exact if_neg hnot

theorem receiveMode_other {mask : UInt8} (h : modesOf mask ≠ s.editmode) :
    s.receiveMode mask =
      let t := if isAck mask then (s.got mask).localstat else s.got mask
      let t := { t with termbuf := t.termbuf.change (modesOf mask ^^^ s.editmode) t.useeditmode }.setTermbuf
      let t := if isAck mask then t else t.sendMode (t.useeditmode ||| MODE_ACK)
      { t with editmode := t.useeditmode } := by
  have hne : modesOf mask ^^^ s.editmode ≠ 0 := fun hxor => h (UInt8.xor_eq_zero_iff.mp hxor)
  rw [← isAck_mask mask]
  exact if_pos hne

/-- An acknowledgement of another mode than its own: telnetd goes by the pty. -/
theorem receiveMode_ack {mask : UInt8} (h : modesOf mask ≠ s.editmode) (hack : isAck mask = true) :
    s.receiveMode mask = { s.initTermbuf with
      useeditmode := s.pty.mode
      editmode := s.pty.mode
      sent := s.sent ++ s.proposal } := by
  have hchange : s.pty.change (modesOf mask ^^^ s.editmode) s.pty.mode = s.pty := change_mode _ _
  have hlocal := localstat_spec (s.got mask) ⟨rfl, rfl⟩
  rw [receiveMode_other s h]
  simp only [hack, if_true]
  rw [hlocal]
  simp only [got, initTermbuf, hchange, setTermbuf, if_true]
  rfl

/-- A request for another mode. -/
theorem receiveMode_request {mask : UInt8} (h : modesOf mask ≠ s.editmode) (hack : isAck mask = false) :
    (s.receiveMode mask).editmode = modesOf mask ∧
      (s.receiveMode mask).pty = s.pty.change (modesOf mask ^^^ s.editmode) (modesOf mask) ∧
      (s.receiveMode mask).sent = s.sent ++ [modesOf mask ||| MODE_ACK] := by
  rw [receiveMode_other s h]
  simp only [hack, Bool.false_eq_true, if_false, got, initTermbuf, setTermbuf]
  split
  · rename_i hsame
    exact ⟨rfl, hsame.symm, rfl⟩
  · exact ⟨rfl, rfl, rfl⟩

/-- The pty is in the mode that has been asked for, if it was in editmode. -/
theorem receiveMode_pty {mask : UInt8} (hpty : s.pty.mode = s.editmode) :
    (s.receiveMode mask).pty.mode = (s.receiveMode mask).editmode := by
  by_cases h : modesOf mask = s.editmode
  · rw [receiveMode_same s h]
    exact hpty
  · cases hack : isAck mask with
    | true => rw [receiveMode_ack s h hack]; rfl
    | false =>
      obtain ⟨heditmode, hchange, -⟩ := receiveMode_request s h hack
      rw [heditmode, hchange, ← hpty, ← mode_ofMask, change_ofMask]

end Termstat

end Netutils.Telnetd
