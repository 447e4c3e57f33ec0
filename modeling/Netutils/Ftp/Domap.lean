/-
  Netutils.Ftp.Domap — nmap rewrites a file name (ftp/cmds.c, domap and cp_subst).

  A machine over name, mapin and mapout. It stops at the first access that is out of place: a
  character behind a NUL, an element behind toks, a store that is not in the buffer.
-/

import Netutils.Arpa
import Netutils.Lib.Machine
import Netutils.Libc.Ctype
import Netutils.Libc.Stdio

namespace Netutils.Ftp.Domap

open Netutils.Arpa Netutils.Lib.Machine Netutils.Libc

def BACKSLASH : UInt8 := 0x5c
def DOLLAR : UInt8 := 0x24
def OPEN : UInt8 := 0x5b
def CLOSE : UInt8 := 0x5d
def COMMA : UInt8 := 0x2c
def ZERO : UInt8 := 0x30
def ONE : UInt8 := 0x31

/-! ## Memory -/

/-- An access that is out of place. -/
inductive Fault where
  /-- A character behind a NUL is read. -/
  | past
  /-- toks, tp and te have nine elements. -/
  | toks
  /-- A store is not in the buffer. -/
  | buffer
  deriving DecidableEq

/-- `cp[k]`, of a pointer into a string with its NUL. -/
def peek (cp : List UInt8) (k : Nat) : Except Fault UInt8 :=
  match cp[k]? with
  | some c => .ok c
  | none => .error .past

/-- The buffer of the result. -/
structure Buf where
  /-- What has been stored through `cp1`. -/
  text : List UInt8
  /-- buf_len -/
  len : Nat
  /-- The buffer is elsewhere than `cp1` points to. -/
  moved : Bool
  /-- The calls of realloc. -/
  calls : Nat

/-- `*cp1++ = c;` -/
def Buf.put (b : Buf) (c : UInt8) : Except Fault Buf :=
  if b.moved = false ∧ b.text.length < b.len then .ok { b with text := b.text ++ [c] } else .error .buffer

/-- `while (src_len--) *(*to_p)++ = *src++;` -/
def Buf.copy (b : Buf) : List UInt8 → Except Fault Buf
  | [] => .ok b
  | c :: src => b.put c >>= fun b => b.copy src

/-! ## Variables -/

/-- The text from tp to te of each variable with toks set. -/
def Toks : Type := Nat → Option (List UInt8)

def Toks.set (t : Toks) (i : Nat) (v : Option (List UInt8)) : Toks := fun j => if j = i then v else t j

/-- What `$c` stands for. -/
def Toks.source (t : Toks) (name : List UInt8) (c : UInt8) : Option (List UInt8) :=
  if c = ZERO then some name else t (c - ONE).toNat

structure Env where
  name : List UInt8
  mapin : List UInt8
  mapout : List UInt8
  /-- Whether this call of realloc moves the buffer. -/
  moves : Nat → Bool

/-- A text is copied; one of more than two characters gets more room first. -/
def Buf.subst (env : Env) (b : Buf) (src : List UInt8) : Except Fault Buf :=
  if 2 < src.length then
    { b with len := b.len + (src.length - 2), moved := b.moved || env.moves b.calls, calls := b.calls + 1 }.copy src
  else b.copy src

/-- Whether the variable at `*from_p` was set, and the buffer. -/
def cpSubst (env : Env) (t : Toks) (b : Buf) (from_p : List UInt8) : Except Fault (Bool × Buf) := do
  let c ← peek from_p 1
  match t.source env.name c with
  | some src =>
    let b ← b.subst env src
    return (true, b)
  | none => return (false, b)

/-- `*cp == '$' && isdigit (*(cp + 1))` -/
def isvar (cp : List UInt8) : Except Fault Bool := do
  let c ← peek cp 0
  if c = DOLLAR then
    let d ← peek cp 1
    return isdigit d
  else return false

/-! ## domap -/

inductive Pc where
  /-- The loop over name and mapin. -/
  | mapin
  /-- The loop over mapout. -/
  | mapout
  /-- `LOOP` -/
  | bracket
  /-- The loop over a literal in brackets. -/
  | literal
  /-- The loop to the closing bracket. -/
  | skip
  deriving DecidableEq

structure State where
  pc : Pc
  /-- The name from cp1 on, in the first loop. -/
  cp1 : List UInt8
  cp2 : List UInt8
  matched : Bool
  toknum : Nat
  toks : Toks
  buf : Buf

/-- What domap returns and prints. -/
structure Result where
  new : List UInt8
  printed : List UInt8
  deriving DecidableEq

/-- `*cp1 = '\0'; if (!*buf) strcpy (buf, name); return buf;` -/
def Buf.finish (env : Env) (b : Buf) : Except Fault Result :=
  b.put NUL >>= fun _ =>
    if b.text = [] then b.copy (env.name ++ [NUL]) >>= fun _ => .ok ⟨env.name, []⟩ else .ok ⟨b.text, []⟩

def unbalanced : List UInt8 := text "nmap: unbalanced brackets\n"

/-- `c >= '1'`, of a signed character -/
def fromOne (c : UInt8) : Bool := ONE ≤ c && c < 0x80

namespace State

/-- `if (match && *cp1) cp1++; if (match && *cp2) cp2++;` -/
def advance (s : State) : Except Fault State := do
  let x ← peek s.cp1 0
  let c ← peek s.cp2 0
  return { s with
    cp1 := if s.matched = true ∧ x ≠ NUL then s.cp1.drop 1 else s.cp1
    cp2 := if s.matched = true ∧ c ≠ NUL then s.cp2.drop 1 else s.cp2 }

/-- `if (*cp2 != *cp1) match = 0;` -/
def compare (s : State) : Except Fault State := do
  let x ← peek s.cp1 0
  let c ← peek s.cp2 0
  return if c ≠ x then { s with matched := false } else s

/-- A variable of mapin, `d` behind its `$`. -/
def token (s : State) (d : UInt8) : Except Fault State := do
  let x ← peek s.cp1 0
  let stop ← peek s.cp2 2
  let s := { s with cp2 := s.cp2.drop 2 }
  if x = stop then return s
  let toknum := (d - ONE).toNat
  if toknum < 9 then
    let goes := fun c => c ≠ NUL && c ≠ stop
    return { s with
      toknum
      toks := s.toks.set toknum (some (x :: (s.cp1.drop 1).takeWhile goes))
      cp1 := (s.cp1.drop 1).dropWhile goes }
  else .error .toks

/-- A turn of the first loop. -/
def stepMapin (env : Env) (s : State) : Except Fault State := do
  let x ← peek s.cp1 0
  let c ← peek s.cp2 0
  if s.matched = true ∧ x ≠ NUL ∧ c ≠ NUL then
    if c = BACKSLASH then
      let s ← { s with cp2 := s.cp2.drop 1 }.compare
      s.advance
    else if c = DOLLAR then
      let d ← peek s.cp2 1
      -- the second comparison is `(*cp2 + 1) <= '9'`
      if fromOne d = true ∧ c + 1 ≤ 0x39 then
        let s ← s.token d
        s.advance
      else
        let s ← s.compare
        s.advance
    else
      let s ← s.compare
      s.advance
  else
    -- last token mismatch
    let toks := if s.matched = false ∧ x ≠ NUL then s.toks.set s.toknum none else s.toks
    let _ ← s.buf.put NUL
    return { s with pc := .mapout, toks, cp2 := env.mapout ++ [NUL] }

def stepMapout (env : Env) (s : State) : Except Fault (State ⊕ Result) := do
  let c ← peek s.cp2 0
  if c = NUL then
    let r ← s.buf.finish env
    return .inr r
  let s := { s with matched := false }
  if c = BACKSLASH then
    let d ← peek s.cp2 1
    if d ≠ NUL then
      let buf ← s.buf.put d
      return .inl { s with buf, cp2 := s.cp2.drop 2 }
    else return .inl { s with cp2 := s.cp2.drop 1 }
  else if c = OPEN then return .inl { s with pc := .bracket }
  else
    let isVar ← isvar s.cp2
    if isVar = true then
      let (found, buf) ← cpSubst env s.toks s.buf s.cp2
      return .inl { s with buf, matched := found, cp2 := s.cp2.drop 2 }
    else
      let buf ← s.buf.put c
      return .inl { s with buf, cp2 := s.cp2.drop 1 }

/-- From `LOOP` on, which begins with `++cp2`. -/
def stepBracket (env : Env) (s : State) : Except Fault (State ⊕ Result) := do
  let isVar ← isvar (s.cp2.drop 1)
  if isVar = true then
    let (_, buf) ← cpSubst env s.toks s.buf (s.cp2.drop 1)
    -- cp_subst leaves cp2 at the digit
    if s.matched = true then return .inl { s with buf, pc := .skip, cp2 := s.cp2.drop 3 }
    else
      let e ← peek (s.cp2.drop 2) 1
      if e = COMMA then return .inl { s with buf, cp2 := s.cp2.drop 3 }
      else if e = CLOSE then return .inl { s with buf, pc := .mapout, cp2 := s.cp2.drop 4 }
      else return .inl { s with buf, cp2 := s.cp2.drop 2 }
  else return .inl { s with pc := .literal, cp2 := s.cp2.drop 1 }

def stepLiteral (env : Env) (s : State) : Except Fault (State ⊕ Result) := do
  let c ← peek s.cp2 0
  if c = NUL then return .inr ⟨env.name, unbalanced⟩
  -- cp2-- here, and ++cp2 in front of the first turn of the next loop
  if c = COMMA ∨ c = CLOSE then return .inl { s with matched := true, pc := .skip }
  if c = BACKSLASH then return .inl { s with cp2 := s.cp2.drop 1 }
  let isVar ← isvar s.cp2
  if isVar = true then
    let (found, buf) ← cpSubst env s.toks s.buf s.cp2
    if found = true then return .inl { s with buf, matched := true, cp2 := s.cp2.drop 1 }
    else
      -- the `else` that was meant for the test of the variable
      let d ← peek s.cp2 1
      let buf ← buf.put d
      return .inl { s with buf, cp2 := s.cp2.drop 2 }
  else return .inl s

def stepSkip (env : Env) (s : State) : Except Fault (State ⊕ Result) := do
  let c ← peek s.cp2 0
  if c = NUL then return .inr ⟨env.name, unbalanced⟩
  if c = CLOSE then return .inl { s with pc := .mapout, cp2 := s.cp2.drop 1 }
  let d ← if c = BACKSLASH then peek s.cp2 1 else .ok NUL
  if d ≠ NUL then return .inl { s with cp2 := s.cp2.drop 2 }
  else return .inl { s with cp2 := s.cp2.drop 1 }

end State

def step (env : Env) (s : State) : Except Fault (State ⊕ Result) :=
  match s.pc with
  | .mapin => s.stepMapin env >>= fun s => .ok (.inl s)
  | .mapout => s.stepMapout env
  | .bracket => s.stepBracket env
  | .literal => s.stepLiteral env
  | .skip => s.stepSkip env

def start (env : Env) : State :=
  ⟨.mapin, env.name ++ [NUL], env.mapin ++ [NUL], true, 0, fun _ => none, ⟨[], env.name.length + 1, false, 0⟩⟩

/-- The result of domap for these strings, in so many steps. -/
def domap (n : Nat) (name mapin mapout : List UInt8) (moves : Nat → Bool) : Option (Except Fault Result) :=
  let env : Env := ⟨cstring name, cstring mapin, cstring mapout, moves⟩
  run (step env) n (start env)

end Netutils.Ftp.Domap
