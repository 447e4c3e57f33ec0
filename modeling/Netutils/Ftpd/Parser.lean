/-
  Netutils.Ftpd.Parser — the commands of ftpd's grammar (ftpd/ftpcmd.y), and which tokens
  yyparse takes.

  Every rule for a command is a finite choice of token strings, so the grammar is given by
  them. `SITE SP check_login IDLE SP NUMBER CRLF` is not among them: between it and
  `SITE SP IDLE CRLF` bison shifts IDLE.
-/

import Netutils.Ftpd.Lexer

namespace Netutils.Ftpd

/-! ## The grammar -/

/-- `command check_login SP pathname CRLF` -/
def withPathname (k : Kind) : List Kind := [k, .SP, .STRING, .CRLF]

/-- `type_code` -/
def typeCodes : List (List Kind) :=
  let formCodes : List Kind := [.N, .T, .C]
  [[.A]] ++ formCodes.map (fun f => [.A, .SP, f]) ++ [[.E]] ++ formCodes.map (fun f => [.E, .SP, f]) ++
    [[.I], [.L], [.L, .SP, .NUMBER], [.L, .NUMBER]]

/-- `host_port` -/
def hostPort : List Kind :=
  [.NUMBER, .COMMA, .NUMBER, .COMMA, .NUMBER, .COMMA, .NUMBER, .COMMA, .NUMBER, .COMMA, .NUMBER]

/-- What follows `SITE SP`. -/
def siteCommands : List (List Kind) := [
  [.HELP], [.HELP, .SP, .STRING],
  [.UMASK], [.UMASK, .SP, .NUMBER],
  [.CHMOD, .SP, .NUMBER, .SP, .STRING],
  [.IDLE]]

/-- `cmd`, less `error CRLF`. -/
def cmds : List (List Kind) :=
  [withPathname .USER, [.PASS, .SP, .CRLF], withPathname .PASS,
   [.PORT, .SP] ++ hostPort ++ [.CRLF],
   [.PASV, .CRLF]] ++
  typeCodes.map (fun t => [.TYPE, .SP] ++ t ++ [.CRLF]) ++
  [Kind.F, .R, .P].map (fun c => [.STRU, .SP, c, .CRLF]) ++
  [Kind.S, .B, .C].map (fun c => [.MODE, .SP, c, .CRLF]) ++
  [[.ALLO, .SP, .NUMBER, .CRLF], [.ALLO, .SP, .NUMBER, .SP, .R, .SP, .NUMBER, .CRLF],
   withPathname .RETR, withPathname .STOR, withPathname .APPE,
   [.NLST, .CRLF], withPathname .NLST, [.LIST, .CRLF], withPathname .LIST,
   withPathname .STAT, [.STAT, .CRLF], withPathname .DELE, withPathname .RNTO,
   [.ABOR, .CRLF], [.CWD, .CRLF], withPathname .CWD, [.HELP, .CRLF], withPathname .HELP,
   [.NOOP, .CRLF], withPathname .MKD, withPathname .RMD, [.PWD, .CRLF], [.CDUP, .CRLF]] ++
  siteCommands.map (fun s => [.SITE, .SP] ++ s ++ [.CRLF]) ++
  [withPathname .STOU, [.SYST, .CRLF], withPathname .SIZE, withPathname .MDTM, [.QUIT, .CRLF]]

def rcmds : List (List Kind) := [withPathname .RNFR, [.REST, .SP, .NUMBER, .CRLF]]

/-! ## yyparse -/

/-- The last of the tokens can not stand where it does. -/
def syntaxError (tokens : List Token) : Bool :=
  !(cmds ++ rcmds).any ((tokens.map Token.kind).isPrefixOf ·)

/-! ## The commands

  A command with what its action is given. The commands whose actions touch neither the
  login, nor the data connection, nor fromname and restart_point are told by their token. -/

/-- `host_port`: the numbers of the address and of the port. -/
structure HostPort where
  h1 : Int
  h2 : Int
  h3 : Int
  h4 : Int
  p1 : Int
  p2 : Int
  deriving DecidableEq

inductive Command where
  | user (name : Str)
  | pass (passwd : Str)
  | port (h : HostPort)
  | pasv
  | retr (path : Str)
  | stor (path : Str)
  | appe (path : Str)
  | stou (path : Str)
  | nlst (path : Option Str)
  | list (path : Option Str)
  | rnfr (path : Str)
  | rnto (path : Str)
  | rest (n : Int)
  | quit
  | other (k : Kind)
  deriving DecidableEq

/-- `PORT SP host_port`, at the front of the tokens. -/
def hostPortOf : List Token → Option HostPort
  | .key .PORT :: .key .SP :: .number h1 :: .key .COMMA :: .number h2 :: .key .COMMA :: .number h3 :: .key .COMMA ::
      .number h4 :: .key .COMMA :: .number p1 :: .key .COMMA :: .number p2 :: _ => some ⟨h1, h2, h3, h4, p1, p2⟩
  | _ => none

/-- `command SP STRING CRLF` -/
def withString (k : Kind) (s : Str) : Command :=
  match k with
  | .USER => .user s
  | .PASS => .pass s
  | .RETR => .retr s
  | .STOR => .stor s
  | .APPE => .appe s
  | .STOU => .stou s
  | .NLST => .nlst (some s)
  | .LIST => .list (some s)
  | .RNFR => .rnfr s
  | .RNTO => .rnto s
  | k => .other k

/-- The command of tokens that the grammar takes. -/
def command (tokens : List Token) : Command :=
  match tokens with
  | [.key .PASS, .key .SP, .key .CRLF] => .pass []
  | [.key .PASV, .key .CRLF] => .pasv
  | [.key .NLST, .key .CRLF] => .nlst none
  | [.key .LIST, .key .CRLF] => .list none
  | [.key .QUIT, .key .CRLF] => .quit
  | [.key .REST, .key .SP, .number n, .key .CRLF] => .rest n
  | [.key k, .key .SP, .string s, .key .CRLF] => withString k s
  | tokens =>
    match hostPortOf tokens with
    | some h => .port h
    | none => .other ((tokens.head?.map Token.kind).getD .CRLF)

/-- `cmd_list rcmd` -/
def Command.isRcmd : Command → Bool
  | .rnfr _ => true
  | .rest _ => true
  | _ => false

end Netutils.Ftpd
