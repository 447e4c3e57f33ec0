/-
  Netutils.Ftpd.Lexer — how ftpd reads its control connection: telnet_fgets and the
  scanner yylex (ftpd/ftpcmd.y).
-/

import Mathlib.Algebra.Group.Int.Defs
import Mathlib.Algebra.Group.Nat.Defs
import Mathlib.Data.List.TakeWhile
import Netutils.Arpa
import Netutils.Ftpd.Login

namespace Netutils.Ftpd

open Netutils.Arpa

/-! ## Tokens -/

inductive Kind where
  | A | B | C | E | F | I | L | N | P | R | S | T
  | SP | CRLF | COMMA
  | USER | PASS | ACCT | REIN | QUIT | PORT | PASV | TYPE | STRU | MODE | RETR | STOR
  | APPE | MLFL | MAIL | MSND | MSOM | MSAM | MRSQ | MRCP | ALLO | REST | RNFR | RNTO
  | ABOR | DELE | CWD | LIST | NLST | SITE | STAT | HELP | NOOP | MKD | RMD | PWD
  | CDUP | STOU | SMNT | SYST | SIZE | MDTM
  | UMASK | IDLE | CHMOD
  | STRING | NUMBER
  deriving DecidableEq

/-- A token with its `yylval`. -/
inductive Token where
  | key (k : Kind)
  | string (s : Str)
  | number (n : Int)
  deriving DecidableEq

def Token.kind : Token → Kind
  | .key k => k
  | .string _ => .STRING
  | .number _ => .NUMBER

/-! ## The tables -/

/-- The states of the scanner. -/
inductive LexState where
  | cmd | args | str1 | str2 | ostr | zstr1 | zstr2 | sitecmd | nstr
  deriving DecidableEq

structure Tab where
  name : Str
  token : Kind
  state : LexState
  implemented : Bool
  deriving DecidableEq

def ascii (l : List Char) : Str := l.map fun c => UInt8.ofNat c.toNat

/-- In order defined in RFC 765 -/
def cmdtab : List Tab := [
  ⟨ascii ['U', 'S', 'E', 'R'], .USER, .str1, true⟩,
  ⟨ascii ['P', 'A', 'S', 'S'], .PASS, .zstr1, true⟩,
  ⟨ascii ['A', 'C', 'C', 'T'], .ACCT, .str1, false⟩,
  ⟨ascii ['S', 'M', 'N', 'T'], .SMNT, .args, false⟩,
  ⟨ascii ['R', 'E', 'I', 'N'], .REIN, .args, false⟩,
  ⟨ascii ['Q', 'U', 'I', 'T'], .QUIT, .args, true⟩,
  ⟨ascii ['P', 'O', 'R', 'T'], .PORT, .args, true⟩,
  ⟨ascii ['P', 'A', 'S', 'V'], .PASV, .args, true⟩,
  ⟨ascii ['T', 'Y', 'P', 'E'], .TYPE, .args, true⟩,
  ⟨ascii ['S', 'T', 'R', 'U'], .STRU, .args, true⟩,
  ⟨ascii ['M', 'O', 'D', 'E'], .MODE, .args, true⟩,
  ⟨ascii ['R', 'E', 'T', 'R'], .RETR, .str1, true⟩,
  ⟨ascii ['S', 'T', 'O', 'R'], .STOR, .str1, true⟩,
  ⟨ascii ['A', 'P', 'P', 'E'], .APPE, .str1, true⟩,
  ⟨ascii ['M', 'L', 'F', 'L'], .MLFL, .ostr, false⟩,
  ⟨ascii ['M', 'A', 'I', 'L'], .MAIL, .ostr, false⟩,
  ⟨ascii ['M', 'S', 'N', 'D'], .MSND, .ostr, false⟩,
  ⟨ascii ['M', 'S', 'O', 'M'], .MSOM, .ostr, false⟩,
  ⟨ascii ['M', 'S', 'A', 'M'], .MSAM, .ostr, false⟩,
  ⟨ascii ['M', 'R', 'S', 'Q'], .MRSQ, .ostr, false⟩,
  ⟨ascii ['M', 'R', 'C', 'P'], .MRCP, .str1, false⟩,
  ⟨ascii ['A', 'L', 'L', 'O'], .ALLO, .args, true⟩,
  ⟨ascii ['R', 'E', 'S', 'T'], .REST, .args, true⟩,
  ⟨ascii ['R', 'N', 'F', 'R'], .RNFR, .str1, true⟩,
  ⟨ascii ['R', 'N', 'T', 'O'], .RNTO, .str1, true⟩,
  ⟨ascii ['A', 'B', 'O', 'R'], .ABOR, .args, true⟩,
  ⟨ascii ['D', 'E', 'L', 'E'], .DELE, .str1, true⟩,
  ⟨ascii ['C', 'W', 'D'], .CWD, .ostr, true⟩,
  ⟨ascii ['X', 'C', 'W', 'D'], .CWD, .ostr, true⟩,
  ⟨ascii ['L', 'I', 'S', 'T'], .LIST, .ostr, true⟩,
  ⟨ascii ['N', 'L', 'S', 'T'], .NLST, .ostr, true⟩,
  ⟨ascii ['S', 'I', 'T', 'E'], .SITE, .sitecmd, true⟩,
  ⟨ascii ['S', 'Y', 'S', 'T'], .SYST, .args, true⟩,
  ⟨ascii ['S', 'T', 'A', 'T'], .STAT, .ostr, true⟩,
  ⟨ascii ['H', 'E', 'L', 'P'], .HELP, .ostr, true⟩,
  ⟨ascii ['N', 'O', 'O', 'P'], .NOOP, .args, true⟩,
  ⟨ascii ['M', 'K', 'D'], .MKD, .str1, true⟩,
  ⟨ascii ['X', 'M', 'K', 'D'], .MKD, .str1, true⟩,
  ⟨ascii ['R', 'M', 'D'], .RMD, .str1, true⟩,
  ⟨ascii ['X', 'R', 'M', 'D'], .RMD, .str1, true⟩,
  ⟨ascii ['P', 'W', 'D'], .PWD, .args, true⟩,
  ⟨ascii ['X', 'P', 'W', 'D'], .PWD, .args, true⟩,
  ⟨ascii ['C', 'D', 'U', 'P'], .CDUP, .args, true⟩,
  ⟨ascii ['X', 'C', 'U', 'P'], .CDUP, .args, true⟩,
  ⟨ascii ['S', 'T', 'O', 'U'], .STOU, .str1, true⟩,
  ⟨ascii ['S', 'I', 'Z', 'E'], .SIZE, .ostr, true⟩,
  ⟨ascii ['M', 'D', 'T', 'M'], .MDTM, .ostr, true⟩]

def sitetab : List Tab := [
  ⟨ascii ['U', 'M', 'A', 'S', 'K'], .UMASK, .args, true⟩,
  ⟨ascii ['I', 'D', 'L', 'E'], .IDLE, .args, true⟩,
  ⟨ascii ['C', 'H', 'M', 'O', 'D'], .CHMOD, .nstr, true⟩,
  ⟨ascii ['H', 'E', 'L', 'P'], .HELP, .ostr, true⟩]

def lookup (tab : List Tab) (cmd : Str) : Option Tab := tab.find? (cmd = ·.name)

/-! ## Characters -/

/-- A blank. -/
def BLANK : UInt8 := 0x20

def isDigit (c : UInt8) : Bool := 0x30 ≤ c && c ≤ 0x39

def toUpper (c : UInt8) : UInt8 := if 0x61 ≤ c && c ≤ 0x7a then c - 0x20 else c

def upper (s : Str) : Str := s.map toUpper

/-- strtol stops at LONG_MAX, and int takes the low 32 bits. -/
def atoi (s : Str) : Int :=
  let n : Nat := min (s.foldl (fun n c => 10 * n + (c.toNat - 0x30)) 0) (2 ^ 63 - 1) % 2 ^ 32
  if n < 2 ^ 31 then n else (n : Int) - 2 ^ 32

/-- One of `" \n"`. -/
def isStop (c : UInt8) : Bool := c = BLANK || c = LF

/-! ## telnet_fgets

  tmpline is empty, as long as no urgent data has come in. -/

/-- What is stored while at most `n` bytes may be, and what is left of the stream. -/
def telnetFgets : Nat → List UInt8 → Str × List UInt8
  | 0, l => ([], l)
  | _ + 1, [] => ([], [])
  | n + 1, c :: l =>
    if c = IAC then
      match l with
      -- EOF is stored, as a char
      | [] => ([IAC], [])
      | d :: l' =>
        if d = WILL ∨ d = WONT ∨ d = DO ∨ d = DONT then
          match l' with
          | [] => ([], [])
          | _ :: l'' => telnetFgets (n + 1) l''
        else if d = IAC then
          let r := telnetFgets n l'
          (IAC :: r.1, r.2)
        else telnetFgets (n + 1) l'
    else if c = LF then ([c], l)
    else
      let r := telnetFgets n l
      (c :: r.1, r.2)

/-- `sizeof (cbuf)` -/
def CBUFSIZE : Nat := 512

/-! ## The scanner -/

/-- cbuf with the static variables of yylex. -/
structure Lexer where
  cbuf : List UInt8
  cpos : Nat
  state : LexState

def Lexer.init : Lexer := ⟨List.replicate CBUFSIZE 0, 0, .cmd⟩

/-- What a call of yylex comes to. -/
inductive Lexed where
  | token (t : Token)
  /-- `nack`, and out by `longjmp (errcatch, 0)` -/
  | nack
  /-- `yyerror`, and out by `longjmp (errcatch, 0)` -/
  | error
  deriving DecidableEq

/-- The string at `p`. -/
def strAt (cbuf : List UInt8) (p : Nat) : Str := (cbuf.drop p).takeWhile (· ≠ 0)

/-- `c = cbuf[q]; cbuf[q] = '\0'; upper (&cbuf[p]);` -/
def upperTo (cbuf : List UInt8) (p q : Nat) : List UInt8 :=
  let b := cbuf.set q 0
  b.take p ++ upper (strAt b p) ++ (b.drop p).dropWhile (· ≠ 0)

/-- The word that is looked up then. -/
def wordTo (cbuf : List UInt8) (p q : Nat) : Str := strAt (upperTo cbuf p q) p

/-- `cbuf[q] = c;` -/
def upperedTo (cbuf : List UInt8) (p q : Nat) : List UInt8 := (upperTo cbuf p q).set q (cbuf.getD q 0)

/-- What yyerror does to the buffer. -/
def Lexer.yyerror (L : Lexer) : Lexer :=
  if LF ∈ strAt L.cbuf 0 then { L with cbuf := L.cbuf.set ((strAt L.cbuf 0).idxOf LF) 0 } else L

def Lexer.fail (L : Lexer) : Lexed × Lexer := (.error, { L.yyerror with state := .cmd })

/-- The line as telnet_fgets leaves it in cbuf. -/
def fill (line : Str) (cbuf : List UInt8) : List UInt8 := line ++ 0 :: cbuf.drop (line.length + 1)

/-- `if ((cp = strchr (cbuf, '\r'))) { *cp++ = '\n'; *cp = '\0'; }` -/
def endAtCr (cbuf : List UInt8) : List UInt8 :=
  if CR ∈ strAt cbuf 0 then
    let i := (strAt cbuf 0).idxOf CR
    (cbuf.set i LF).set (i + 1) 0
  else cbuf

/-- `if ((cp = strpbrk (&cbuf[p], " \n"))) cpos = cp - cbuf;` -/
def stopAt (cbuf : List UInt8) (p cpos : Nat) : Nat :=
  if (strAt cbuf p).any isStop then p + (strAt cbuf p).findIdx isStop else cpos

/-- `case CMD`, with the line read. -/
def lexCmd (line : Str) (L : Lexer) : Lexed × Lexer :=
  let cbuf := endAtCr (fill line L.cbuf)
  let cpos := stopAt cbuf 0 L.cpos
  let cpos := if cpos = 0 then 4 else cpos
  let L := { L with cbuf := upperedTo cbuf 0 cpos, cpos := cpos }
  match lookup cmdtab (wordTo cbuf 0 cpos) with
  | some p => if p.implemented then (.token (.key p.token), { L with state := p.state }) else (.nack, L)
  | none => L.fail

def Lexer.current (L : Lexer) : UInt8 := L.cbuf.getD L.cpos 0

/-- `while (isdigit (cbuf[++cpos]));` -/
def Lexer.digits (L : Lexer) : Str := (L.cbuf.drop L.cpos).takeWhile isDigit

def Lexer.number (L : Lexer) (state : LexState) : Lexed × Lexer :=
  (.token (.number (atoi L.digits)), { L with cpos := L.cpos + L.digits.length, state := state })

/-- `dostr1`; `next` is the state that follows. -/
def Lexer.dostr1 (L : Lexer) (next : LexState) : Lexed × Lexer :=
  if L.current = BLANK then (.token (.key .SP), { L with cpos := L.cpos + 1, state := next }) else L.fail

/-- `case STR2` -/
def Lexer.str2 (L : Lexer) : Lexed × Lexer :=
  let s := strAt L.cbuf L.cpos
  let L := { L with cpos := L.cpos + s.length - 1 }
  -- Make sure the string is nonempty and \n terminated.
  if s.length > 1 ∧ L.current = LF then (.token (.string s.dropLast), { L with state := .args }) else L.fail

/-- The letters of `case ARGS`. -/
def letter (c : UInt8) : Option Kind :=
  if c = 0x41 then some .A
  else if c = 0x42 then some .B
  else if c = 0x43 then some .C
  else if c = 0x45 then some .E
  else if c = 0x46 then some .F
  else if c = 0x49 then some .I
  else if c = 0x4c then some .L
  else if c = 0x4e then some .N
  else if c = 0x50 then some .P
  else if c = 0x52 then some .R
  else if c = 0x53 then some .S
  else if c = 0x54 then some .T
  else none

/-- A character of `case ARGS` that is no digit. -/
def argToken (c : UInt8) : Option Kind :=
  if c = LF then some .CRLF
  else if c = BLANK then some .SP
  else if c = 0x2c then some .COMMA
  else letter (toUpper c)

/-- `case ARGS` -/
def Lexer.args (L : Lexer) : Lexed × Lexer :=
  if isDigit L.current then L.number .args
  else
    let L' := { L with cpos := L.cpos + 1 }
    match argToken L.current with
    | some .CRLF => (.token (.key .CRLF), { L' with state := .cmd })
    | some k => (.token (.key k), L')
    | none => L'.fail

/-- `case SITECMD` -/
def Lexer.sitecmd (L : Lexer) : Lexed × Lexer :=
  if L.current = BLANK then (.token (.key .SP), { L with cpos := L.cpos + 1 })
  else
    let q := stopAt L.cbuf L.cpos L.cpos
    let L' := { L with cbuf := upperedTo L.cbuf L.cpos q, cpos := q }
    match lookup sitetab (wordTo L.cbuf L.cpos q) with
    | some p =>
      if p.implemented then (.token (.key p.token), { L' with state := p.state })
      else (.nack, { L' with state := .cmd })
    | none => L'.fail

/-- A call of yylex within a line. -/
def yylex (L : Lexer) : Lexed × Lexer :=
  match L.state with
  | .cmd => L.fail
  | .sitecmd => L.sitecmd
  | .ostr =>
    if L.current = LF then (.token (.key .CRLF), { L with state := .cmd }) else L.dostr1 .str2
  | .str1 => L.dostr1 .str2
  | .zstr1 => L.dostr1 .zstr2
  | .zstr2 => if L.current = LF then (.token (.key .CRLF), { L with state := .cmd }) else L.str2
  | .str2 => L.str2
  | .nstr =>
    if L.current = BLANK then (.token (.key .SP), { L with cpos := L.cpos + 1 })
    else if isDigit L.current then L.number .str1
    else L.dostr1 .str2
  | .args => L.args

/-! ## A command

  The parser takes tokens up to CRLF, or until yylex jumps out of it. On the first token
  that can not stand where it does it calls yyerror, and then discards what comes up to
  CRLF. -/

inductive Exit where
  /-- Up to CRLF; `recovered` after a syntax error. -/
  | crlf (recovered : Bool)
  /-- By longjmp. -/
  | jump
  deriving DecidableEq

/-- The tokens yylex has delivered, and how they end. -/
structure Sequence where
  tokens : List Token
  exit : Exit
  deriving DecidableEq

/-- The tokens from one that has been lexed on; `bad` is the parser's verdict on the tokens so
    far, `recovering` whether it has been false before. -/
def sequence (bad : List Token → Bool) : Nat → Lexed × Lexer → List Token → Bool → Sequence × Lexer
  | n + 1, (.token t, L), tokens, recovering =>
    let tokens := tokens ++ [t]
    let error := !recovering && bad tokens
    let L := if error then L.yyerror else L
    if t = .key .CRLF then (⟨tokens, .crlf (recovering || error)⟩, L)
    else sequence bad n (yylex L) tokens (recovering || error)
  | _, (_, L), tokens, _ => (⟨tokens, .jump⟩, L)

/-- The tokens of the line read, with turns enough for all of them. -/
def Lexer.line (bad : List Token → Bool) (line : Str) (L : Lexer) : Sequence × Lexer :=
  sequence bad (CBUFSIZE + 2) (lexCmd line L) [] false

end Netutils.Ftpd
