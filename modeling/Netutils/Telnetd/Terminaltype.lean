/-
  Netutils.Telnetd.Terminaltype — how telnetd finds the terminal type of the client
  (getterminaltype and its helpers, telnetd/utility.c; the case TELOPT_TTYPE of suboption,
  telnetd/state.c). The other options of getterminaltype are left out.
-/

import Netutils.Libc.Ctype

namespace Netutils.Telnetd

open Netutils.Libc

/-- `σ` is the client, as far as its names go. -/
structure Terminal (σ : Type) where
  /-- `none` before the first name. -/
  terminaltype : Option (List UInt8)
  /-- his_state_is_will (TELOPT_TTYPE) -/
  will : Bool
  client : σ
  /-- How often telnetd has asked. -/
  asked : Nat

namespace Terminal

variable {σ : Type}

/-- suboption, of a TTYPE IS. -/
def suboption (name : List UInt8) (t : Terminal σ) : Terminal σ := { t with terminaltype := some (name.map tolower) }

/-- _gettermname. The client answers with a name, or that it will not. -/
def gettermname (answer : σ → Option (List UInt8) × σ) (t : Terminal σ) : Terminal σ :=
  if ¬ t.will then t
  else
    let t := { t with asked := t.asked + 1 }
    match answer t.client with
    | (some name, client) => { t with client := client }.suboption name
    | (none, client) => { t with client := client, will := false }

/-- `tgetent`: it does not come back with 0. -/
def terminaltypeok (tgetent : List UInt8 → Bool) : Option (List UInt8) → Bool
  | none => true
  | some s => tgetent s

/-- The loop of getterminaltype, with a bound on the turns. -/
def getterminaltypeLoop (answer : σ → Option (List UInt8) × σ) (tgetent : List UInt8 → Bool)
    (first : Option (List UInt8)) : Nat → Terminal σ → Option (Terminal σ)
  | 0, _ => none
  | fuel + 1, t =>
    let last := t.terminaltype
    let t := t.gettermname answer
    if terminaltypeok tgetent t.terminaltype then some t
    else if last = t.terminaltype ∨ ¬ t.will then
      -- the end of the list
      if first = t.terminaltype then some t
      else
        let t := t.gettermname answer
        some (if first ≠ t.terminaltype then { t with terminaltype := first } else t)
    else getterminaltypeLoop answer tgetent first fuel t

/-- getterminaltype, from the first request for a name on. -/
def getterminaltype (answer : σ → Option (List UInt8) × σ) (tgetent : List UInt8 → Bool) (fuel : Nat)
    (t : Terminal σ) : Option (Terminal σ) :=
  let t := t.gettermname answer
  if t.will ∧ ¬ terminaltypeok tgetent t.terminaltype then
    getterminaltypeLoop answer tgetent t.terminaltype fuel t
  else some t

end Terminal

end Netutils.Telnetd
