/-
  Netutils.Ftpd.Server — a session of ftpd, control line by control line (ftpd/ftpcmd.y,
  ftpd/ftpd.c): the login, the data connection, and what RNFR and REST leave for the next
  command.

  A line goes through the scanner and the parser. `host_port` writes the destination of the
  data connection as soon as it is reduced, whatever becomes of the line; an action is run
  once its CRLF has been read; fromname and restart_point are cleared after every `cmd`,
  but not where yylex jumps out of the parser.
-/

import Netutils.Ftpd.Stream

namespace Netutils.Ftpd

open Netutils.Lib.Transition

/-! ## Addresses -/

structure InAddr where
  a : UInt8
  b : UInt8
  c : UInt8
  d : UInt8
  deriving DecidableEq

/-- `struct sockaddr_in`; `inet` is `sin_family == AF_INET`. -/
structure Sockaddr where
  inet : Bool
  addr : InAddr
  port : Nat
  deriving DecidableEq

def IPPORT_RESERVED : Nat := 1024

/-- What `memset (&data_dest, 0, sizeof (data_dest))` leaves. -/
def Sockaddr.zero : Sockaddr := ⟨false, ⟨0, 0, 0, 0⟩, 0⟩

/-- An int as a char. -/
def byteOf (n : Int) : UInt8 := UInt8.ofNat (n % 256).toNat

/-- What the action of `host_port` writes. -/
def HostPort.sockaddr (h : HostPort) : Sockaddr :=
  ⟨true, ⟨byteOf h.h1, byteOf h.h2, byteOf h.h3, byteOf h.h4⟩, 256 * (byteOf h.p1).toNat + (byteOf h.p2).toNat⟩

/-! ## The world -/

/-- What send_file_list finds. -/
inductive Listing where
  /-- glob or the first stat fails. -/
  | missing
  /-- `ls -l` with NLST: retrieve ("/bin/ls %s", dirname) -/
  | options
  /-- No file to list. -/
  | empty
  /-- Files, and whether a stat fails after the first of them. -/
  | files
  /-- Files; `ABOR` in urgent data then jumps to the end. -/
  | aborted
  deriving DecidableEq

/-- What one command meets. -/
structure World extends Calls where
  site : Site
  socket : Bool
  setsockopt : Bool
  /-- In one of its tries. -/
  bind : Bool
  fdopen : Bool
  /-- In one of its tries. -/
  connect : Bool
  accept : Bool
  getsockname : Bool
  listen : Bool
  /-- The file can be opened, the program started. -/
  fopen : Bool
  /-- It is a plain file. -/
  regular : Bool
  /-- restart_point can be reached in it. -/
  seek : Bool
  /-- STOU finds a name. -/
  gunique : Bool
  listing : Listing
  stat : Bool
  /-- The first name a pathname with ~ stands for. -/
  glob : Option Str

/-! ## The server -/

/-- What the line before was. -/
inductive Line where
  /-- RNFR, answered 350. -/
  | rnfr (name : Str)
  | rest (n : Int)
  | any
  deriving DecidableEq

/-- What others see of the server, with the line before the one that made it do so. -/
inductive Event where
  /-- dataconn: `connect (data, &data_dest)`; whether usedefault was set. -/
  | connect (dest : Sockaddr) (byDefault : Bool)
  /-- RETR, STOR, APPE or STOU moves data from this offset on. -/
  | start (offset : Int) (before : Line)
  /-- renamecmd -/
  | rename (source : Str) (dest : Option Str) (before : Line)
  deriving DecidableEq

structure Server where
  process : Process
  /-- `data >= 0` -/
  data : Bool
  /-- `pdata >= 0` -/
  pdata : Bool
  usedefault : Bool
  dataDest : Sockaddr
  fromname : Option Str
  restartPoint : Int
  before : Line
  log : List Event
  deriving DecidableEq

def Server.init : Server := ⟨.init, false, false, true, .zero, none, 0, .any, []⟩

/-- `seteuid ((uid_t) 0)` -/
def asRoot (k : Calls) (p : Process) : Process := if k.seteuidRoot then { p with euid := 0 } else p

/-- `seteuid ((uid_t) cred.uid)` -/
def asUser (k : Calls) (p : Process) : Process := if k.seteuid then { p with euid := p.cred.uid } else p

/-! ## The data connection -/

/-- With no data connection yet; whether it does not return NULL. -/
def getdatasock (w : World) (s : Server) : Server × Bool :=
  let s := { s with process := asRoot w.toCalls s.process }
  let ok := w.socket && w.setsockopt && w.bind
  ({ s with process := asUser w.toCalls s.process }, ok && w.fdopen)

def dataconn (his : Sockaddr) (w : World) (s : Server) : Server × Bool :=
  if s.pdata then
    if w.accept then (s, w.fdopen) else ({ s with pdata := false }, false)
  else if s.data then ({ s with usedefault := true }, w.fdopen)
  else
    let byDefault := s.usedefault
    let s := if byDefault then { s with dataDest := his } else s
    let r := getdatasock w { s with usedefault := true }
    if r.2 = false then (r.1, false)
    else
      let s := { r.1 with data := true, log := r.1.log ++ [.connect r.1.dataDest byDefault] }
      if w.connect then (s, true) else ({ s with data := false }, false)

/-- `data = -1; pdata = -1;` -/
def Server.closed (s : Server) : Server := { s with data := false, pdata := false }

/-- `cmd` is not 0 for the output of a program. -/
def retrieve (his : Sockaddr) (cmd : Bool) (w : World) (s : Server) : Server :=
  if w.fopen = false then s
  else if !cmd && !w.regular then s
  else if s.restartPoint ≠ 0 && !w.seek then s
  else
    let r := dataconn his w s
    if r.2 = false then r.1
    else
      let log := if cmd then r.1.log else r.1.log ++ [Event.start s.restartPoint s.before]
      { r.1 with log := log }.closed

def store (his : Sockaddr) (unique : Bool) (w : World) (s : Server) : Server :=
  if unique && !w.gunique then s
  else if w.fopen = false then s
  else if s.restartPoint ≠ 0 && !w.seek then s
  else
    let r := dataconn his w s
    if r.2 = false then r.1
    else { r.1 with log := r.1.log ++ [Event.start s.restartPoint s.before] }.closed

def sendFileList (his : Sockaddr) (w : World) (s : Server) : Server :=
  match w.listing with
  | .missing => s
  | .options => retrieve his true w s
  | .empty => s.closed
  | .files =>
    let r := dataconn his w s
    if r.2 = false then r.1 else r.1.closed
  | .aborted => (dataconn his w s).1

def passive (w : World) (s : Server) : Server :=
  if w.socket = false then { s with pdata := false }
  else
    let s := { s with process := asUser w.toCalls (asRoot w.toCalls s.process) }
    { s with pdata := w.bind && w.getsockname && w.listen }

/-! ## The actions -/

/-- `memcmp (&his_addr.sin_addr, &data_dest.sin_addr) == 0`, and the port is not reserved. -/
def Sockaddr.legal (d his : Sockaddr) : Bool := his.addr = d.addr && IPPORT_RESERVED < d.port

section Action

variable (anonOnly : Bool) (crypt : Str → Str → Option Str) (his : Sockaddr)

/-- PORT, with the destination written already. -/
def port (s : Server) : Server :=
  let s := { s with usedefault := false, pdata := false }
  if s.process.cred.loggedIn && !s.dataDest.legal his then { s with dataDest := .zero } else s

/-- `pathname`, `none` for NULL. -/
def pathname (w : World) (path : Str) (s : Server) : Option Str :=
  if s.process.cred.loggedIn && path.head? = some 0x7e then w.glob else some path

/-- `if ($2 && $4 != NULL)` -/
def Server.withPathname (w : World) (path : Str) (s : Server) (act : Str → Server) : Server :=
  if s.process.cred.loggedIn then ((pathname w path s).map act).getD s else s

/-- `if ($2)` -/
def Server.withLogin (s : Server) (act : Server) : Server := if s.process.cred.loggedIn then act else s

/-- RNFR -/
def rnfr (w : World) (path : Str) (s : Server) : Server :=
  ({ s with restartPoint := 0 } : Server).withPathname w path fun name =>
    if w.stat then { s with restartPoint := 0, fromname := some name }
    else { s with restartPoint := 0, fromname := none }

/-- RNTO -/
def rnto (w : World) (path : Str) (s : Server) : Server :=
  if s.process.cred.loggedIn then
    match s.fromname with
    | some source => { s with fromname := none, log := s.log ++ [.rename source (pathname w path s) s.before] }
    | none => s
  else s

/-- The action of a command. -/
def action (c : Command) (w : World) (s : Server) : Server :=
  match c with
  | .user name => { s with process := (user anonOnly w.site name w.toCalls s.process).1 }
  | .pass passwd => { s with process := pass crypt passwd w.toCalls s.process }
  | .port _ => port his s
  | .pasv => s.withLogin (passive w s)
  | .retr path => s.withPathname w path fun _ => retrieve his false w s
  | .stor path => s.withPathname w path fun _ => store his false w s
  | .appe path => s.withPathname w path fun _ => store his false w s
  | .stou path => s.withPathname w path fun _ => store his true w s
  | .nlst _ => s.withLogin (sendFileList his w s)
  | .list none => s.withLogin (retrieve his true w s)
  | .list (some path) => s.withPathname w path fun _ => retrieve his true w s
  | .rnfr path => rnfr w path s
  | .rnto path => rnto w path s
  | .rest n => { s with fromname := none, restartPoint := n }
  | .quit => { s with process := { s.process with exited := true } }
  | .other _ => s

/-- `cmd_list cmd` -/
def Server.forget (s : Server) : Server := { s with fromname := none, restartPoint := 0 }

/-- What the line was, as the next one sees it. -/
def lineOf (c : Command) (w : World) (s : Server) : Line :=
  match c with
  | .rnfr path =>
    match pathname w path s with
    | some name => if s.process.cred.loggedIn && w.stat then .rnfr name else .any
    | none => .any
  | .rest n => .rest n
  | _ => .any

/-- `host_port` is reduced, if it is there. -/
def Server.reduced (q : Sequence) (s : Server) : Server :=
  { s with dataDest := ((hostPortOf q.tokens).map HostPort.sockaddr).getD s.dataDest }

/-- What the tokens of a line make the server do. -/
def Server.obey (q : Sequence) (w : World) (s : Server) : Server :=
  let s := s.reduced q
  match q.exit with
  | .jump => { s with before := .any }
  | .crlf true => { s.forget with before := .any }
  | .crlf false =>
    let c := command q.tokens
    let t := action anonOnly crypt his c w s
    { (if c.isRcmd then t else t.forget) with before := lineOf c w s }

/-! ## A session -/

structure Session where
  lexer : Lexer
  server : Server

def Session.init : Session := ⟨.init, .init⟩

/-- A line as telnet_fgets hands it on, and what its command meets. -/
def Session.step : Str × World → Session → Option Session
  | (line, w), s =>
    if s.server.process.exited then none
    else
      let r := s.lexer.line syntaxError line
      some ⟨r.2, s.server.obey anonOnly crypt his r.1 w⟩

end Action

/-! ## Transfers -/

section Transfer

variable (his : Sockaddr) (w : World) (s : Server)

/-- dataconn calls getdatasock. -/
def Server.opensSocket : Bool := !s.pdata && !s.data

/-- retrieve or store comes as far as dataconn; `found` says that it has got its file. -/
def Server.transfers (found : Bool) : Bool := w.fopen && found && (s.restartPoint = 0 || w.seek)

/-- It connects where usedefault and PORT have it. -/
theorem log_dataconn : (dataconn his w s).1.log = s.log ∨
    (dataconn his w s).1.log = s.log ++ [Event.connect (if s.usedefault then his else s.dataDest) s.usedefault] := by
  unfold dataconn getdatasock
  cases s.pdata with
  | true => cases w.accept <;> exact Or.inl rfl
  | false =>
    cases s.data with
    | true => exact Or.inl rfl
    | false =>
      cases s.usedefault <;> simp only [Bool.false_eq_true, if_false, if_true]
      all_goals
        split
        · exact Or.inl rfl
        · split <;> exact Or.inr rfl

/-- And no PORT is in force after it, unless it takes the connection of a PASV. -/
theorem dest_dataconn : (dataconn his w s).1.usedefault = true ∨
    (dataconn his w s).1.usedefault = s.usedefault ∧ (dataconn his w s).1.dataDest = s.dataDest := by
  unfold dataconn getdatasock
  cases s.pdata with
  | true => cases w.accept <;> exact Or.inr ⟨rfl, rfl⟩
  | false =>
    cases s.data with
    | true => exact Or.inl rfl
    | false =>
      cases s.usedefault <;> simp only [Bool.false_eq_true, if_false, if_true]
      all_goals
        split
        · exact Or.inl rfl
        · split <;> exact Or.inl rfl

theorem retrieve_eq (cmd : Bool) : retrieve his cmd w s =
    if s.transfers w (cmd || w.regular) then
      if (dataconn his w s).2 then
        { (dataconn his w s).1 with
          log := (dataconn his w s).1.log ++ if cmd then [] else [Event.start s.restartPoint s.before] }.closed
      else (dataconn his w s).1
    else s := by
  unfold retrieve Server.transfers
  generalize dataconn his w s = r
  obtain ⟨t, b⟩ := r
  cases w.fopen with
  | false => rfl
  | true => cases cmd <;> cases w.regular <;> by_cases hz : s.restartPoint = 0 <;> cases w.seek <;> cases b <;> simp [hz]

theorem store_eq (unique : Bool) : store his unique w s =
    if s.transfers w (!unique || w.gunique) then
      if (dataconn his w s).2 then
        { (dataconn his w s).1 with log := (dataconn his w s).1.log ++ [Event.start s.restartPoint s.before] }.closed
      else (dataconn his w s).1
    else s := by
  unfold store Server.transfers
  generalize dataconn his w s = r
  obtain ⟨t, b⟩ := r
  cases w.fopen with
  | false => simp
  | true => cases unique <;> cases w.gunique <;> by_cases hz : s.restartPoint = 0 <;> cases w.seek <;> cases b <;> simp [hz]

end Transfer

end Netutils.Ftpd
