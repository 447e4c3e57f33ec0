/-
  Netutils.Telnet.Linemode — the edit modes of telnet (lm_mode, telnet/telnet.c; dolmmode,
  telnet/commands.c). Setting the terminal to them is left out.
-/

import Netutils.Arpa

namespace Netutils.Telnet

open Netutils.Arpa

structure Linemode where
  linemode : UInt8
  /-- The masks of the MODE sub-options that it sends. -/
  sent : List UInt8

namespace Linemode

/-- The modes that count. -/
def modes (s : Linemode) : UInt8 := s.linemode &&& MODE_MASK &&& ~~~MODE_ACK

/-- lm_mode. `room` is whether netoring has room for the sub-option. -/
def lmMode (cmd : List UInt8) (init room : Bool) (s : Linemode) : Linemode :=
  match cmd with
  | [cmd] =>
    if s.modes = cmd then s
    else if cmd &&& MODE_ACK ≠ 0 then s
    else
      let s := { s with linemode := cmd &&& (MODE_MASK &&& ~~~MODE_ACK) }
      let mask := if init then s.linemode else s.linemode ||| MODE_ACK
      if room then { s with sent := s.sent ++ [mask] } else s
  | _ => s

/-- dolmmode, with the option LINEMODE on. -/
def dolmmode (bit : UInt8) (on room : Bool) (s : Linemode) : Linemode :=
  let c := if on then s.linemode ||| bit else s.linemode &&& ~~~bit
  s.lmMode [c] true room

end Linemode

/-- set_mode and clear_mode are called with these. -/
def modeBits : List UInt8 := [ MODE_EDIT, MODE_TRAPSIG, MODE_SOFT_TAB, MODE_LIT_ECHO]

end Netutils.Telnet
