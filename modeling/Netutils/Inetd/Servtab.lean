/-
  Netutils.Inetd.Servtab — the services of inetd and the descriptors it waits for
  (inetd/inetd.c): the main loop, reapchild, config, retry, setup and close_sep.

  se_wait is 0 for a service that does not wait, 1 for one that does, and the pid of the child
  that it waits for. The kernel has given the services the descriptors in `opened`; a new
  socket gets another one. Signals come between the steps: a reload is one step for each entry
  that is read and one for each purge.
-/

import Mathlib.Data.Finset.Card
import Netutils.Lib.Transition

namespace Netutils.Inetd

abbrev Str := List UInt8

def CNT_INTVL : Int := 60

/-! ## State -/

inductive Socktype where
  | STREAM | DGRAM | RDM | SEQPACKET | RAW | bad
  deriving DecidableEq

inductive Muxtype where
  | NORM | MUX | MUXPLUS
  deriving DecidableEq

/-- What matters of a built-in service. -/
structure Biltin where
  service : Str
  fork : Bool
  deriving DecidableEq

/-- A pid that fork gives. -/
abbrev Pid := {p : Nat // 1 < p}

structure Servtab where
  /-- Where it is in memory. -/
  id : Nat
  service : Str
  socktype : Socktype
  proto : Str
  wait : Nat
  max : Nat
  checked : Bool := false
  user : Str
  bi : Option Biltin
  server : Str
  argv : List Str
  /-- `none` for -1. -/
  fd : Option Nat := none
  type : Muxtype
  port : Nat := 0
  count : Nat := 0
  time : Int := 0

def Servtab.isMux (sep : Servtab) : Bool := sep.type = .MUX || sep.type = .MUXPLUS

/-- Everything but the table. -/
structure Globals where
  allsock : Finset Nat := ∅
  nsock : Int := 0
  maxsock : Nat := 0
  timingout : Bool := false
  opened : Finset Nat := ∅
  /-- What select has left of a pass: the descriptors, how many of them are to come, and the
      services that the loop has not come to. -/
  readable : Finset Nat := ∅
  n : Nat := 0
  rest : List Nat := []
  /-- Memory that enter has not used. -/
  nextId : Nat := 0

structure Daemon where
  servtab : List Servtab := []
  globals : Globals := {}

/-! ## Sockets -/

/-- How setup ends. -/
inductive Answer where
  | listening (fd : Nat)
  /-- `bind`: it is to be tried again later. -/
  | failed (bind : Bool)

structure Kernel where
  socket : Servtab → Finset Nat → Answer
  fresh : ∀ sep opened fd, socket sep opened = .listening fd → fd ∉ opened

def setup (k : Kernel) (g : Globals) (sep : Servtab) : Globals × Servtab :=
  match k.socket sep g.opened with
  | .listening fd =>
    ({ g with
        allsock := insert fd g.allsock
        nsock := g.nsock + 1
        maxsock := Nat.max g.maxsock fd
        opened := insert fd g.opened },
      { sep with fd := some fd })
  | .failed bind => ({ g with timingout := g.timingout || bind }, { sep with fd := none })

def closeSep (g : Globals) (sep : Servtab) : Globals × Servtab :=
  (match sep.fd with
    | some fd => { g with nsock := g.nsock - 1, allsock := g.allsock.erase fd, opened := g.opened.erase fd }
    | none => g,
    { sep with fd := none, count := 0, wait := if 1 < sep.wait then 1 else sep.wait })

/-! ## Connections -/

/-- What happens when a service is wanted. -/
structure Connection where
  accepted : Bool
  now : Int
  /-- `none` where fork fails. -/
  fork : Option Pid

/-- The service starts too often. -/
def Servtab.tooMany (toomany : Nat) (sep : Servtab) : Bool :=
  (sep.max ≠ 0 && sep.max < sep.count) || toomany ≤ sep.count

/-- The count of what has been started, with one more; `none` for too many. -/
def Servtab.start (toomany : Nat) (now : Int) (sep : Servtab) : Option Servtab :=
  let next := { sep with count := sep.count + 1 }
  if sep.count = 0 then some { next with time := now }
  else if next.tooMany toomany then
    if CNT_INTVL < now - sep.time then some { next with time := now, count := 1 } else none
  else some next

/-- The parent behind the fork. -/
def forked (pid : Pid) (g : Globals) (sep : Servtab) : Globals × Servtab :=
  if sep.wait = 0 then (g, sep)
  else
    (match sep.fd with
      | some fd => { g with allsock := g.allsock.erase fd, nsock := g.nsock - 1 }
      | none => g,
      { sep with wait := pid })

/-- The body of the loop, for a service that is wanted. -/
def connection (toomany : Nat) (c : Connection) (g : Globals) (sep : Servtab) : Globals × Servtab :=
  if sep.wait = 0 ∧ sep.socktype = .STREAM ∧ c.accepted = false then (g, sep)
  else if sep.bi.all Biltin.fork then
    match sep.start toomany c.now with
    | none =>
      let r := closeSep g { sep with count := sep.count + 1 }
      ({ r.1 with timingout := true }, r.2)
    | some sep =>
      match c.fork with
      | none => (g, sep)
      | some pid => forked pid g sep
  else (g, sep)

/-! ## Loops over the table -/

/-- The table with what a service has become. -/
def replace (sep : Servtab) (l : List Servtab) : List Servtab := l.map fun t => if t.id = sep.id then sep else t

/-- A loop that looks at each service and may take it out. -/
def sweep (f : Globals → Servtab → Globals × Option Servtab) (g : Globals) : List Servtab → Globals × List Servtab
  | [] => (g, [])
  | sep :: l =>
    let r := f g sep
    let t := sweep f r.1 l
    (t.1, r.2.toList ++ t.2)

/-- The first loop of config, on one service -/
def uncheck (g : Globals) (sep : Servtab) : Globals × Option Servtab := (g, some { sep with checked := false })

/-- reapchild, on one service -/
def reap (pid : Pid) (g : Globals) (sep : Servtab) : Globals × Option Servtab :=
  if sep.wait = pid then
    ({ g with allsock := sep.fd.elim g.allsock (insert · g.allsock), nsock := g.nsock + 1 }, some { sep with wait := 1 })
  else (g, some sep)

/-- retry, on one service -/
def retry (k : Kernel) (g : Globals) (sep : Servtab) : Globals × Option Servtab :=
  if sep.fd = none ∧ sep.isMux = false then
    let r := setup k g sep
    (r.1, some r.2)
  else (g, some sep)

/-- "Purge anything not looked at above." -/
def purge (g : Globals) (sep : Servtab) : Globals × Option Servtab :=
  if sep.checked then (g, some sep)
  else (if sep.fd.isSome then (closeSep g sep).1 else g, none)

/-! ## Reloading -/

/-- What getconfigent makes of a line. -/
structure Entry where
  service : Str
  socktype : Socktype
  proto : Str
  wait : Bool
  max : Nat
  user : Str
  bi : Option Biltin
  server : Str
  argv : List Str
  type : Muxtype

/-- What there is to know about a service's port; built for IPv6, nextconfig does not ask. -/
inductive Lookup where
  | notAsked
  | unknown
  | port (p : Nat)
  deriving DecidableEq

/-- The users and services of the host. -/
structure Host where
  user : Str → Bool
  lookup : Str → Str → Lookup

def Entry.isMux (e : Entry) : Bool := e.type = .MUX || e.type = .MUXPLUS

def Entry.waits (e : Entry) : Nat := if e.wait then 1 else 0

/-- The test for duplicates. -/
def Entry.names (e : Entry) (sep : Servtab) : Bool :=
  sep.service = e.service && sep.proto = e.proto && sep.isMux = e.isMux

/-- "REDO" -/
def Entry.merge (e : Entry) (sep : Servtab) : Servtab :=
  { sep with
    wait := if e.bi.isNone && (sep.wait = 1 || !e.wait) then e.waits else sep.wait
    user := e.user
    server := e.server
    argv := e.argv }

/-- enter, "ADD" -/
def Entry.enter (e : Entry) (id : Nat) : Servtab :=
  { id, service := e.service, socktype := e.socktype, proto := e.proto, wait := e.waits, max := e.max, user := e.user,
    bi := e.bi, server := e.server, argv := e.argv, type := e.type }

/-- The port, which closes the socket of another one. -/
def setPort (p : Nat) (g : Globals) (sep : Servtab) : Globals × Servtab :=
  if p = sep.port then (g, sep)
  else if sep.fd.isSome then closeSep g { sep with port := p }
  else (g, { sep with port := p })

def ensureOpen (k : Kernel) (r : Globals × Servtab) : Globals × Servtab :=
  if r.2.fd = none then setup k r.1 r.2 else r

/-- The rest of the turn of nextconfig, on the service that has been found or made. -/
def update (h : Host) (k : Kernel) (g : Globals) (sep : Servtab) : Globals × Servtab :=
  if sep.isMux then (g, { sep with checked := true, fd := none })
  else
    match h.lookup sep.service sep.proto with
    | .unknown => (g, { sep with checked := false })
    | .notAsked => ensureOpen k (g, { sep with checked := true })
    | .port p => ensureOpen k (setPort p g { sep with checked := true })

/-- A turn of nextconfig. -/
def nextconfig (h : Host) (k : Kernel) (e : Entry) (s : Daemon) : Daemon :=
  if !h.user e.user then s
  else
    match s.servtab.find? e.names with
    | some sep =>
      let r := update h k s.globals (e.merge sep)
      { servtab := replace r.2 s.servtab, globals := r.1 }
    | none =>
      let r := update h k { s.globals with nextId := s.globals.nextId + 1 } (e.enter s.globals.nextId)
      { servtab := r.2 :: s.servtab, globals := r.1 }

/-! ## The daemon -/

inductive Event where
  /-- select says that these are readable. -/
  | select (ready : Finset Nat)
  /-- The loop comes to the next service. -/
  | visit (c : Connection)
  /-- reapchild gets this pid. -/
  | reapchild (pid : Pid)
  | retry (k : Kernel)
  /-- config starts. -/
  | config
  /-- nextconfig reads an entry. -/
  | nextconfig (h : Host) (k : Kernel) (e : Entry)
  /-- nextconfig comes to the end of its file. -/
  | purge

namespace Daemon

def sweep (f : Globals → Servtab → Globals × Option Servtab) (s : Daemon) : Daemon :=
  let r := Inetd.sweep f s.globals s.servtab
  { globals := r.1, servtab := r.2 }

/-- A pass begins, with the services in the order of the table. -/
def select (ready : Finset Nat) (s : Daemon) : Daemon :=
  let readable := ready ∩ s.globals.allsock
  { s with globals := { s.globals with readable, n := readable.card, rest := s.servtab.map Servtab.id } }

/-- The next service of the pass; it may be gone. -/
def visit (toomany : Nat) (c : Connection) (i : Nat) (rest : List Nat) (s : Daemon) : Daemon :=
  let g := { s.globals with rest }
  match s.servtab.find? fun sep => sep.id = i with
  | none => { s with globals := g }
  | some sep =>
    if sep.fd.any (· ∈ g.readable) then
      let r := connection toomany c { g with n := g.n - 1 } sep
      { globals := r.1, servtab := replace r.2 s.servtab }
    else { s with globals := g }

def step (toomany : Nat) : Event → Daemon → Option Daemon
  | .select ready, s =>
    if s.globals.nsock ≠ 0 ∧ (s.globals.n = 0 ∨ s.globals.rest = []) then some (s.select ready) else none
  | .visit c, s =>
    match s.globals.rest with
    | [] => none
    | i :: rest => if s.globals.n = 0 then none else some (s.visit toomany c i rest)
  | .reapchild pid, s => some (s.sweep (reap pid))
  | .retry k, s => some ({ s with globals := { s.globals with timingout := false } }.sweep (Inetd.retry k))
  | .config, s => some (s.sweep uncheck)
  | .nextconfig h k e, s => some (Inetd.nextconfig h k e s)
  | .purge, s => some (s.sweep Inetd.purge)

end Daemon

/-! ## What a service keeps -/

variable {sep : Servtab}

/-- What a service is by its entry does not change, and it waits if it did. -/
structure Servtab.Steady (sep sep' : Servtab) : Prop where
  id : sep'.id = sep.id
  service : sep'.service = sep.service
  proto : sep'.proto = sep.proto
  type : sep'.type = sep.type
  port : sep'.port = sep.port
  wait : sep'.wait = 0 ↔ sep.wait = 0

theorem Servtab.Steady.refl (sep : Servtab) : sep.Steady sep := ⟨rfl, rfl, rfl, rfl, rfl, Iff.rfl⟩

theorem setup_eq (k : Kernel) (g : Globals) (sep : Servtab) : ∃ fd, (setup k g sep).2 = { sep with fd } := by
  rw [setup]
  split
  · exact ⟨_, rfl⟩
  · exact ⟨none, rfl⟩

theorem Servtab.start_some {toomany : Nat} {now : Int} {next : Servtab} (h : sep.start toomany now = some next) :
    ∃ count time, next = { sep with count, time } := by
  rw [Servtab.start] at h
  simp only at h
  split at h
  · exact ⟨_, _, (Option.some.inj h).symm⟩
  · split at h
    · split at h
      · exact ⟨_, _, (Option.some.inj h).symm⟩
      · exact nomatch h
    · exact ⟨_, _, (Option.some.inj h).symm⟩

theorem steady_connection (toomany : Nat) (c : Connection) (g : Globals) (sep : Servtab) :
    sep.Steady (connection toomany c g sep).2 := by
  rw [connection]
  split
  · exact .refl sep
  · split
    · cases hstart : sep.start toomany c.now with
      | none =>
        refine ⟨rfl, rfl, rfl, rfl, rfl, ?_⟩
        simp only [closeSep]
        split <;> omega
      | some next =>
        obtain ⟨count, time, rfl⟩ := Servtab.start_some hstart
        cases c.fork with
        | none => exact ⟨rfl, rfl, rfl, rfl, rfl, Iff.rfl⟩
        | some pid =>
          simp only [forked]
          split
          · exact ⟨rfl, rfl, rfl, rfl, rfl, Iff.rfl⟩
          · rename_i hwait
            have hpid : pid.val ≠ 0 := Nat.ne_of_gt (Nat.lt_trans Nat.zero_lt_one pid.property)
            exact ⟨rfl, rfl, rfl, rfl, rfl, iff_of_false hpid hwait⟩
    · exact .refl sep

theorem steady_reap (pid : Pid) (g : Globals) (sep : Servtab) : ∃ sep', (reap pid g sep).2 = some sep' ∧ sep.Steady sep' := by
  rw [reap]
  split
  · rename_i heq
    have hpid : sep.wait ≠ 0 := heq ▸ Nat.ne_of_gt (Nat.lt_trans Nat.zero_lt_one pid.property)
    exact ⟨_, rfl, rfl, rfl, rfl, rfl, rfl, iff_of_false Nat.one_ne_zero hpid⟩
  · exact ⟨sep, rfl, .refl sep⟩

theorem steady_retry (k : Kernel) (g : Globals) (sep : Servtab) :
    ∃ sep', (retry k g sep).2 = some sep' ∧ sep.Steady sep' := by
  rw [retry]
  split
  · obtain ⟨fd, heq⟩ := setup_eq k g sep
    exact ⟨{ sep with fd }, congrArg some heq, rfl, rfl, rfl, rfl, rfl, Iff.rfl⟩
  · exact ⟨sep, rfl, .refl sep⟩

end Netutils.Inetd
