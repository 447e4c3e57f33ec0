/-
  Netutils.Ftp.Nmap — the patterns of nmap as the manual has them (ftp/ftp.1), and what domap
  makes of a name with them.

  A pattern is a list of pieces; `mapped` is what the manual says of them. Matching goes from
  left to right, a variable takes the text up to the character behind it, and where a character
  of the name is another than that of the pattern, the text taken last is taken back ("last
  token mismatch").
-/

import Netutils.Ftp.DomapRoom

namespace Netutils.Ftp.Nmap

open Netutils.Arpa Netutils.Lib.Machine Netutils.Libc Netutils.Ftp.Domap

/-! ## Inpatterns -/

/-- A character that stands for itself in an inpattern. -/
def isIn (c : UInt8) : Bool := c ≠ NUL && c ≠ BACKSLASH && c ≠ DOLLAR

inductive InPiece where
  | char (c : { c : UInt8 // isIn c = true })
  | esc (c : { c : UInt8 // c ≠ NUL })
  /-- `$1` is 0. -/
  | var (i : Fin 9)

def digit (i : Fin 9) : UInt8 := ONE + UInt8.ofNat i

namespace InPiece

def render : InPiece → List UInt8
  | .char c => [c.val]
  | .esc c => [BACKSLASH, c.val]
  | .var i => [DOLLAR, digit i]

def var? : InPiece → Option (Fin 9)
  | .var i => some i
  | _ => none

def isEsc : InPiece → Bool
  | .esc _ => true
  | _ => false

/-- The character it stands for. -/
def literal? : InPiece → Option UInt8
  | .char c => some c.val
  | .esc c => some c.val
  | .var _ => none

end InPiece

/-- No two variables are adjacent. -/
def apart : List InPiece → Bool
  | [] => true
  | p :: ps => !(p.var?.isSome && ps.head?.any fun q => q.var?.isSome) && apart ps

structure Inpattern where
  pieces : List InPiece
  distinct : (pieces.filterMap InPiece.var?).Nodup
  apart : apart pieces = true

def renderIn (ps : List InPiece) : List UInt8 := ps.flatMap InPiece.render

/-- The character in front of which the text of a variable ends. -/
def stop (ps : List InPiece) : Option UInt8 := ps.head?.bind InPiece.literal?

/-- The variables with the texts they take, and whether name and pattern agree as far as they go. -/
def take : List InPiece → List UInt8 → List (Fin 9 × List UInt8) × Bool
  | [], _ => ([], true)
  | _ :: _, [] => ([], true)
  | .var i :: ps, x :: name =>
    let r := take ps ((x :: name).dropWhile fun y => some y ≠ stop ps)
    ((i, (x :: name).takeWhile fun y => some y ≠ stop ps) :: r.1, r.2)
  | .char c :: ps, x :: name => if c.val = x then take ps name else ([], false)
  | .esc c :: ps, x :: name => if c.val = x then take ps name else ([], false)

/-- Those with a text, behind others; on a mismatch without the last. -/
def kept (r : List (Fin 9 × List UInt8) × Bool) (before : List (Fin 9 × List UInt8)) : List (Fin 9 × List UInt8) :=
  let taken := before ++ r.1.filter fun v => v.2 ≠ []
  if r.2 = true then taken else taken.dropLast

/-- The variables that have a text. -/
def Inpattern.matched (inp : Inpattern) (name : List UInt8) : List (Fin 9 × List UInt8) :=
  kept (take inp.pieces name) []

/-! ## Outpatterns -/

/-- A character that stands for itself in an outpattern. -/
def isOut (c : UInt8) : Bool := c ≠ NUL && c ≠ BACKSLASH && c ≠ DOLLAR && c ≠ OPEN

/-- The same in brackets. -/
def isLit (c : UInt8) : Bool := isOut c && c ≠ COMMA && c ≠ CLOSE

/-- `$0`, or a variable of the inpattern. -/
inductive Ref where
  | name
  | tok (i : Fin 9)

def Ref.digit : Ref → UInt8
  | .name => ZERO
  | .tok i => Nmap.digit i

inductive Part where
  | var (v : Ref)
  | lit (t : List { c : UInt8 // isLit c = true })

def Part.render : Part → List UInt8
  | .var v => [DOLLAR, v.digit]
  | .lit t => t.map Subtype.val

inductive OutPiece where
  | char (c : { c : UInt8 // isOut c = true })
  | esc (c : { c : UInt8 // c ≠ NUL })
  | var (v : Ref)
  /-- `[s₁,s₂]` -/
  | pair (s₁ s₂ : Part)

def OutPiece.render : OutPiece → List UInt8
  | .char c => [c.val]
  | .esc c => [BACKSLASH, c.val]
  | .var v => [DOLLAR, v.digit]
  | .pair s₁ s₂ => OPEN :: (s₁.render ++ COMMA :: (s₂.render ++ [CLOSE]))

def renderOut (ps : List OutPiece) : List UInt8 := ps.flatMap OutPiece.render

/-! ## What the manual says -/

/-- What a variable stands for, if it has a text. -/
def Ref.value (name : List UInt8) (matched : List (Fin 9 × List UInt8)) : Ref → Option (List UInt8)
  | .name => some name
  | .tok i => matched.lookup i

section

variable (value : Ref → Option (List UInt8))

def Ref.means (v : Ref) : List UInt8 := (value v).getD []

def Part.means : Part → List UInt8
  | .var v => v.means value
  | .lit t => t.map Subtype.val

def OutPiece.means : OutPiece → List UInt8
  | .char c => [c.val]
  | .esc c => [c.val]
  | .var v => v.means value
  | .pair s₁ s₂ => if s₁.means value ≠ [] then s₁.means value else s₂.means value

def meansAll (out : List OutPiece) : List UInt8 := out.flatMap (OutPiece.means value)

end

/-- What the variables stand for. -/
def Inpattern.value (inp : Inpattern) (name : List UInt8) : Ref → Option (List UInt8) :=
  Ref.value name (inp.matched name)

/-- The new name. -/
def mapped (name : List UInt8) (inp : Inpattern) (out : List OutPiece) : List UInt8 :=
  if meansAll (inp.value name) out = [] then name else meansAll (inp.value name) out

end Netutils.Ftp.Nmap
