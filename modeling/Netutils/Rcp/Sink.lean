/-
  Netutils.Rcp.Sink — sink of rcp/rcp.c, over any file system.

  sink puts the names it is sent behind the path of its target as they are. So every path it
  creates, opens for writing or changes is the target with names from C and D records behind
  it (`sink_paths`): below the target if each of them is a component of a path, and anywhere
  else if the other side wants it (`sink_goes_outside`).
-/

import Netutils.Rcp.Record

namespace Netutils.Rcp

open Netutils.Arpa (LF NUL)
open Netutils.Libc (text)

/-! ## The file system -/

abbrev Errno := Nat

def EIO : Errno := 5
def ENOTDIR : Errno := 20

/-- What sink asks of it; each call may change it, and `some` errno is a failure. -/
structure Files (σ : Type) where
  /-- Whether it is a directory. -/
  stat : σ → Path → Except Errno Bool
  chmod : σ → Path → Nat → σ × Option Errno
  mkdir : σ → Path → Nat → σ × Option Errno
  /-- `open (path, O_WRONLY | O_CREAT, mode)` -/
  creat : σ → Path → Nat → σ × Option Errno
  /-- At the offset of the descriptor, of this file; how much of it is written. -/
  write : σ → Path → Nat → List UInt8 → σ × Except Errno Nat
  ftruncate : σ → Path → Int → σ × Option Errno
  fchmod : σ → Path → Nat → σ × Option Errno
  utimes : σ → Path → Times → σ × Option Errno

/-- The calls that create, open for writing or change what is at a path. -/
inductive Op where
  | chmod
  | mkdir
  | creat
  | ftruncate
  | fchmod
  | utimes
  deriving DecidableEq

/-! ## sink -/

structure Conf where
  pflag : Bool
  targetshouldbedirectory : Bool
  /-- `mask = umask (0)` -/
  mask : Nat
  strerror : Errno → List UInt8

inductive WrErr where
  | no
  | yes (wrerrno : Errno)
  | displayed

/-- The variables of a call that are kept from record to record. -/
structure Frame where
  targ : Path
  targisdir : Bool
  first : Bool
  setimes : Bool
  times : Times

/-- A call that has called sink for a D record. -/
structure Caller where
  frame : Frame
  np : Path
  mode : Nat
  modFlag : Bool

/-- The variables for a C record; ofd is of `np`. -/
structure Receiving where
  np : Path
  existed : Bool
  omode : Nat
  size : Int
  /-- The bytes of the file that are still to be read. -/
  left : Nat
  /-- What has been written, and what is in the buffer. -/
  offset : Nat
  buf : List UInt8
  wrerr : WrErr

/-- Where the next byte goes. -/
inductive Phase where
  /-- Into a line. -/
  | line (buf : List UInt8)
  | data (d : Receiving)
  /-- To response, as its first byte or into the message. -/
  | response (d : Receiving)
  | message (d : Receiving) (resp : UInt8) (rbuf : List UInt8)
  /-- The outermost call has returned, or exit (1) has been called. -/
  | returned
  | exited

structure Sink (σ : Type) where
  fs : σ
  frame : Frame
  callers : List Caller
  phase : Phase
  errs : Nat
  /-- What has been written to the other side. -/
  out : List UInt8
  /-- Ghost: the calls on paths, the names of the C and D records, and the targets of calls
      that were directories. -/
  touched : List (Op × Path)
  named : List Path
  dirs : List Path

/-- `"%s%s%s", targ, *targ ? "/" : "", cp` -/
def child (targ cp : Path) : Path := targ ++ (if targ = [] then [] else [SLASH]) ++ cp

def S_IWRITE : Nat := 0o200
def S_IRWXU : Nat := 0o700

namespace Sink

variable {σ : Type} (F : Files σ) (conf : Conf)

/-- `write (rem, "", 1)` -/
def ok (s : Sink σ) : Sink σ := { s with out := s.out ++ [0] }

/-- In the remote rcp; the message of a local one to its user is left out. -/
def runErr (msg : List UInt8) (s : Sink σ) : Sink σ := { s with errs := s.errs + 1, out := s.out ++ errorLine msg }

def exit (s : Sink σ) : Sink σ := { s with phase := .exited }

def screwup (why : List UInt8) (s : Sink σ) : Sink σ := (s.runErr (text "protocol error: " ++ why)).exit

/-- To the next record. -/
def next (s : Sink σ) : Sink σ := { s with frame := { s.frame with first := false }, phase := .line [] }

/-- `"%s: %s"` -/
def perror (np : Path) (e : Errno) (s : Sink σ) : Sink σ := s.runErr (np ++ text ": " ++ conf.strerror e)

/-- `bad:` -/
def bad (np : Path) (e : Errno) (s : Sink σ) : Sink σ := (s.perror conf np e).next

/-- A call on a path. -/
def touch (op : Op) (np : Path) (fs : σ) (s : Sink σ) : Sink σ := { s with fs := fs, touched := s.touched ++ [(op, np)] }

/-- `sink (1, &targ)`, up to its loop. -/
def call (targ : Path) (s : Sink σ) : Sink σ :=
  match F.stat s.fs targ with
  | .ok isdir =>
    -- verifydir
    if conf.targetshouldbedirectory ∧ isdir = false then (s.perror conf targ ENOTDIR).exit
    else { s.ok with
      frame := ⟨targ, isdir, true, false, ⟨0, 0, 0, 0⟩⟩
      phase := .line []
      dirs := if isdir then targ :: s.dirs else s.dirs }
  | .error e =>
    if conf.targetshouldbedirectory then (s.perror conf targ e).exit
    else { s.ok with frame := ⟨targ, false, true, false, ⟨0, 0, 0, 0⟩⟩, phase := .line [] }

/-- The first call. -/
def start (targ : Path) (fs : σ) : Sink σ :=
  call F conf targ ⟨fs, ⟨targ, false, true, false, ⟨0, 0, 0, 0⟩⟩, [], .line [], 0, [], [], [], []⟩

def utimes (np : Path) (s : Sink σ) : Sink σ × Bool :=
  let r := F.utimes s.fs np s.frame.times
  let s := { s.touch .utimes np r.1 with frame := { s.frame with setimes := false } }
  match r.2 with
  | some e => (s.runErr (np ++ text ": set times: " ++ conf.strerror e), false)
  | none => (s, true)

/-- `if (setimes)`, where a call for a D record has returned. -/
def dirTimes (np : Path) (s : Sink σ) : Sink σ := if s.frame.setimes then (s.utimes F conf np).1 else s

/-- sink returns. -/
def ret (s : Sink σ) : Sink σ :=
  match s.callers with
  | [] => { s with phase := .returned }
  | c :: callers =>
    let s := dirTimes F conf c.np { s with frame := c.frame, callers := callers }
    (if c.modFlag then s.touch .chmod c.np (F.chmod s.fs c.np c.mode).1 else s).next

/-- A D record. -/
def dir (np : Path) (mode : Nat) (s : Sink σ) : Sink σ :=
  match F.stat s.fs np with
  | .ok false => s.bad conf np ENOTDIR
  | .ok true =>
    let s := if conf.pflag then s.touch .chmod np (F.chmod s.fs np mode).1 else s
    call F conf np { s with callers := ⟨s.frame, np, mode, conf.pflag⟩ :: s.callers }
  | .error _ =>
    let r := F.mkdir s.fs np (mode ||| S_IRWXU)
    let s := s.touch .mkdir np r.1
    match r.2 with
    | some e => s.bad conf np e
    | none => call F conf np { s with callers := ⟨s.frame, np, mode, true⟩ :: s.callers }

/-- `write (ofd, bp->buf, count)`, unless it has failed before. -/
def flush (d : Receiving) (s : Sink σ) : Sink σ × Receiving :=
  match d.wrerr with
  | .no =>
    let r := F.write s.fs d.np d.offset d.buf
    let s := { s with fs := r.1 }
    match r.2 with
    | .ok j =>
      (s, { d with offset := d.offset + j, buf := [], wrerr := if j ≠ d.buf.length then .yes EIO else .no })
    | .error e => (s, { d with buf := [], wrerr := .yes e })
  | _ => (s, { d with buf := [] })

/-- fchmod to this mode. -/
def setMode (np : Path) (mode : Nat) (s : Sink σ) : Sink σ :=
  let r := F.fchmod s.fs np mode
  let s := s.touch .fchmod np r.1
  match r.2 with
  | some e => s.runErr (np ++ text ": set mode: " ++ conf.strerror e)
  | none => s

/-- A byte of the file. -/
def store (d : Receiving) (c : UInt8) (s : Sink σ) : Sink σ × Receiving :=
  let d := { d with buf := d.buf ++ [c], left := d.left - 1 }
  if d.buf.length = BUFSIZ then s.flush F d else (s, d)

/-- What is left in the buffer. -/
def flushRest (d : Receiving) (s : Sink σ) : Sink σ × Receiving := if d.buf = [] then (s, d) else s.flush F d

def truncate (d : Receiving) (s : Sink σ) : Sink σ × Receiving :=
  let r := F.ftruncate s.fs d.np d.size
  let s := s.touch .ftruncate d.np r.1
  match r.2 with
  | some e => (s.runErr (d.np ++ text ": truncate: " ++ conf.strerror e), { d with wrerr := .displayed })
  | none => (s, d)

/-- `omode`, if the file has another mode than open was to give it. -/
def fixMode (d : Receiving) (s : Sink σ) : Sink σ :=
  let changed := d.omode ≠ d.omode ||| S_IWRITE
  if conf.pflag then if d.existed ∨ changed then s.setMode F conf d.np d.omode else s
  else if d.existed = false ∧ changed then s.setMode F conf d.np (d.omode &&& (0o7777 ^^^ conf.mask)) else s

/-- All bytes of the file have been read. -/
def finish (d : Receiving) (s : Sink σ) : Sink σ :=
  let r := s.flushRest F d
  let r := r.1.truncate F conf r.2
  { r.1.fixMode F conf r.2 with phase := .response r.2 }

/-- response has returned. -/
def answer (d : Receiving) (s : Sink σ) : Sink σ :=
  match d.wrerr with
  | .no =>
    if s.frame.setimes then
      let r := s.utimes F conf d.np
      (if r.2 then r.1.ok else r.1).next
    else s.ok.next
  | .yes e => (s.perror conf d.np e).next
  | .displayed => s.next

/-- A C record. allocbuf succeeds: its fstat is of the file that has just been opened. -/
def file (np : Path) (mode : Nat) (size : Int) (s : Sink σ) : Sink σ :=
  let existed := match F.stat s.fs np with
    | .ok _ => true
    | .error _ => false
  let r := F.creat s.fs np (mode ||| S_IWRITE)
  let s := s.touch .creat np r.1
  match r.2 with
  | some e => s.bad conf np e
  | none =>
    let d : Receiving := ⟨np, existed, mode, size, size.toNat, 0, [], .no⟩
    if size ≤ 0 then s.ok.finish F conf d else { s.ok with phase := .data d }

/-- A line has been read. -/
def record (line : List UInt8) (s : Sink σ) : Sink σ :=
  match parse line with
  | .message fatal => if fatal then s.exit else { s.next with errs := s.errs + 1 }
  | .endDir => s.ok.ret F conf
  | .times t => { s.ok.next with frame := { s.frame with first := false, setimes := true, times := t } }
  | .unexpected =>
    if s.frame.first then (s.runErr (Libc.cstring (if line.getLast? = some LF then line.dropLast else line))).exit
    else s.screwup (text "expected control record")
  | .screwup why => s.screwup why
  | .node isD mode size name =>
    let s := { s with named := s.named ++ [name] }
    let np := if s.frame.targisdir then child s.frame.targ name else s.frame.targ
    if isD then s.dir F conf np mode else s.file F conf np mode size

/-- One byte more. -/
def byte (s : Sink σ) (c : UInt8) : Sink σ :=
  match s.phase with
  | .line [] => if c = LF then s.screwup (text "unexpected <newline>") else { s with phase := .line [c] }
  | .line (b :: buf) =>
    let line := b :: buf ++ [c]
    if line.length < BUFSIZ - 1 ∧ c ≠ LF then { s with phase := .line line }
    else { s with phase := .line [] }.record F conf line
  | .data d =>
    let r := s.store F d c
    if r.2.left = 0 then r.1.finish F conf r.2 else { r.1 with phase := .data r.2 }
  | .response d =>
    if c = 0 then s.answer F conf d
    else { s with phase := .message d c (if c = 1 ∨ c = 2 then [] else [c]) }
  | .message d resp rbuf =>
    let rbuf := rbuf ++ [c]
    if rbuf.length < BUFSIZ ∧ c ≠ LF then { s with phase := .message d resp rbuf }
    else
      let s := { s with errs := s.errs + 1 }
      if resp = 1 then s.answer F conf d else s.exit
  | .returned => s
  | .exited => s

/-- One call after the other finds nothing to read. -/
def rets : Nat → Sink σ → Sink σ
  | 0, s => s
  | n + 1, s => rets n (s.ret F conf)

/-- The other side has closed, or read fails with this errno. -/
def closed (s : Sink σ) (e : Option Errno) : Sink σ :=
  match s.phase with
  | .line [] => rets F conf (s.callers.length + 1) s
  | .line _ => s.screwup (text "lost connection")
  | .data _ => (s.runErr (match e with | some e => conf.strerror e | none => text "dropped connection")).exit
  | .response _ => s.exit
  | .message _ _ _ => s.exit
  | .returned => s
  | .exited => s

/-- What read brings: a byte, or that there will be none. -/
inductive Input where
  | byte (c : UInt8)
  | closed (e : Option Errno)

def input (s : Sink σ) : Input → Sink σ
  | .byte c => s.byte F conf c
  | .closed e => s.closed F conf e

/-! ## Paths -/

/-- The target, or a path of names behind it where it has been seen to be a directory. -/
def Named (targ : Path) (named dirs : List Path) (p : Path) : Prop :=
  ∃ names, p = names.foldl child targ ∧ (∀ n ∈ names, n ∈ named) ∧ (names ≠ [] → targ ∈ dirs)

/-- A file is received for a record with this path, and no more is written than its size. -/
structure Inside (targ : Path) (named dirs : List Path) (d : Receiving) : Prop where
  np : Named targ named dirs d.np
  size : d.size < 2 ^ 31
  room : d.wrerr = .no → d.offset + d.buf.length + d.left ≤ d.size.toNat

/-- What the phase has of a line, or the file it receives. -/
def Expects (targ : Path) (named dirs : List Path) : Phase → Prop
  | .line buf => LF ∉ buf
  | .data d => Inside targ named dirs d ∧ 0 < d.left
  | .response d => Inside targ named dirs d
  | .message d _ _ => Inside targ named dirs d
  | .returned => True
  | .exited => True

/-- What no call of sink's breaks, of the file system and the calls so far. -/
structure Respects (F : Files σ) (P : List (Op × Path) → σ → Prop) : Prop where
  chmod : ∀ l fs p mode, P l fs → P (l ++ [(.chmod, p)]) (F.chmod fs p mode).1
  mkdir : ∀ l fs p mode, P l fs → P (l ++ [(.mkdir, p)]) (F.mkdir fs p mode).1
  creat : ∀ l fs p mode, P l fs → P (l ++ [(.creat, p)]) (F.creat fs p mode).1
  write : ∀ l fs p offset buf, offset + buf.length < 2 ^ 31 → P l fs → P l (F.write fs p offset buf).1
  ftruncate : ∀ l fs p size, size < 2 ^ 31 → P l fs → P (l ++ [(.ftruncate, p)]) (F.ftruncate fs p size).1
  fchmod : ∀ l fs p mode, P l fs → P (l ++ [(.fchmod, p)]) (F.fchmod fs p mode).1
  utimes : ∀ l fs p times, P l fs → P (l ++ [(.utimes, p)]) (F.utimes fs p times).1

structure Inv (P : List (Op × Path) → σ → Prop) (targ : Path) (s : Sink σ) : Prop where
  files : P s.touched s.fs
  touched : ∀ t ∈ s.touched, Named targ s.named s.dirs t.2
  frame : Named targ s.named s.dirs s.frame.targ
  isdir : s.frame.targisdir = true → targ ∈ s.dirs
  callers : ∀ c ∈ s.callers, Named targ s.named s.dirs c.frame.targ ∧ Named targ s.named s.dirs c.np ∧
    (c.frame.targisdir = true → targ ∈ s.dirs)
  phase : Expects targ s.named s.dirs s.phase
  named : ∀ n ∈ s.named, NUL ∉ n ∧ LF ∉ n

variable {F conf} {P : List (Op × Path) → σ → Prop} {targ : Path} {s : Sink σ}

theorem Named.mono {named named' dirs dirs' : List Path} {p : Path} (h : Named targ named dirs p) (hn : named ⊆ named')
    (hd : dirs ⊆ dirs') : Named targ named' dirs' p := by
  obtain ⟨names, h1, h2, h3⟩ := h
  exact ⟨names, h1, fun n hm => hn (h2 n hm), fun h0 => hd (h3 h0)⟩

theorem Named.child {named dirs : List Path} {p name : Path} (h : Named targ named dirs p) (hn : name ∈ named)
    (hd : targ ∈ dirs) : Named targ named dirs (Rcp.child p name) := by
  obtain ⟨names, rfl, h2, -⟩ := h
  refine ⟨names ++ [name], by rw [List.foldl_append]; rfl, ?_, fun _ => hd⟩
  intro n hm
  rcases List.mem_append.mp hm with hm | hm
  · exact h2 n hm
  · obtain rfl := List.mem_singleton.mp hm
    exact hn

theorem Inside.mono {named named' dirs dirs' : List Path} {d : Receiving} (h : Inside targ named dirs d)
    (hn : named ⊆ named') (hd : dirs ⊆ dirs') : Inside targ named' dirs' d :=
  { h with np := h.np.mono hn hd }

theorem Expects.mono {named named' dirs dirs' : List Path} {ph : Phase} (h : Expects targ named dirs ph)
    (hn : named ⊆ named') (hd : dirs ⊆ dirs') : Expects targ named' dirs' ph := by
  cases ph with
  | line buf => exact h
  | data d => exact ⟨Inside.mono h.1 hn hd, h.2⟩
  | response d => exact Inside.mono h hn hd
  | message d _ _ => exact Inside.mono h hn hd
  | returned => trivial
  | exited => trivial

/-! ## The invariant -/

/-- No record has been read, and no call of sink made. -/
structure Same (s s' : Sink σ) : Prop where
  named : s'.named = s.named
  dirs : s'.dirs = s.dirs

theorem Named.same {s' : Sink σ} {p : Path} (h : Named targ s.named s.dirs p) (hs : Same s s') :
    Named targ s'.named s'.dirs p := by
  rw [hs.named, hs.dirs]
  exact h

theorem Inside.same {s' : Sink σ} {d : Receiving} (h : Inside targ s.named s.dirs d) (hs : Same s s') :
    Inside targ s'.named s'.dirs d :=
  { h with np := h.np.same hs }

theorem same_utimes (np : Path) : Same s (s.utimes F conf np).1 := by
  unfold utimes
  simp only
  split <;> exact ⟨rfl, rfl⟩

theorem same_setMode (np : Path) (mode : Nat) : Same s (s.setMode F conf np mode) := by
  unfold setMode
  simp only
  split <;> exact ⟨rfl, rfl⟩

theorem same_dirTimes (np : Path) : Same s (dirTimes F conf np s) := by
  unfold dirTimes
  split
  · exact same_utimes np
  · exact ⟨rfl, rfl⟩

theorem inv_runErr (h : Inv P targ s) (msg : List UInt8) : Inv P targ (s.runErr msg) := { h with }

theorem inv_ok (h : Inv P targ s) : Inv P targ s.ok := { h with }

theorem inv_exit (h : Inv P targ s) : Inv P targ s.exit := { h with phase := trivial }

theorem inv_next (h : Inv P targ s) : Inv P targ s.next := { h with phase := List.not_mem_nil }

theorem inv_touch (h : Inv P targ s) {op : Op} {np : Path} (hnp : Named targ s.named s.dirs np) {fs : σ}
    (hP : P (s.touched ++ [(op, np)]) fs) : Inv P targ (s.touch op np fs) := by
  refine { h with files := hP, touched := ?_ }
  intro t ht
  rcases List.mem_append.mp ht with ht | ht
  · exact h.touched t ht
  · obtain rfl := List.mem_singleton.mp ht
    exact hnp

theorem inv_utimes (hF : Respects F P) (h : Inv P targ s) {np : Path} (hnp : Named targ s.named s.dirs np) :
    Inv P targ (s.utimes F conf np).1 := by
  have ht := inv_touch h hnp (hF.utimes _ _ np s.frame.times h.files)
  have hs : Inv P targ { s.touch .utimes np (F.utimes s.fs np s.frame.times).1 with
      frame := { s.frame with setimes := false } } := { ht with }
  unfold utimes
  simp only
  split
  · exact inv_runErr hs _
  · exact hs

theorem inv_setMode (hF : Respects F P) (h : Inv P targ s) {np : Path} (hnp : Named targ s.named s.dirs np)
    (mode : Nat) : Inv P targ (s.setMode F conf np mode) := by
  have ht := inv_touch h hnp (hF.fchmod _ _ np mode h.files)
  unfold setMode
  simp only
  split
  · exact inv_runErr ht _
  · exact ht

theorem inv_call (h : Inv P targ s) {p : Path} (hp : Named targ s.named s.dirs p) : Inv P targ (s.call F conf p) := by
  unfold call
  split
  · rename_i isdir _
    split
    · exact inv_exit (inv_runErr h _)
    · cases isdir with
      | false => exact { h with frame := hp, isdir := nofun, phase := List.not_mem_nil }
      | true =>
        have hsub : s.dirs ⊆ p :: s.dirs := List.subset_cons_self _ _
        -- the target of the first call is the first of the directories
        have htarg : targ ∈ p :: s.dirs := by
          obtain ⟨names, rfl, -, h3⟩ := hp
          by_cases h0 : names = []
          · subst h0
            exact List.mem_cons_self
          · exact hsub (h3 h0)
        refine { h with touched := ?_, frame := hp.mono (List.Subset.refl _) hsub, isdir := fun _ => htarg,
                        callers := ?_, phase := List.not_mem_nil }
        · exact fun t ht => (h.touched t ht).mono (List.Subset.refl _) hsub
        · intro c hc
          obtain ⟨h1, h2, h3⟩ := h.callers c hc
          exact ⟨h1.mono (List.Subset.refl _) hsub, h2.mono (List.Subset.refl _) hsub, fun hd => hsub (h3 hd)⟩
  · split
    · exact inv_exit (inv_runErr h _)
    · exact { h with frame := hp, isdir := nofun, phase := List.not_mem_nil }

theorem inv_ret (hF : Respects F P) (h : Inv P targ s) : Inv P targ (s.ret F conf) := by
  unfold ret
  split
  · exact { h with phase := trivial }
  · rename_i c callers hcallers
    have hc := h.callers
    rw [hcallers] at hc
    obtain ⟨hframe, hnp, hisdir⟩ := hc c List.mem_cons_self
    have hback : Inv P targ { s with frame := c.frame, callers := callers } :=
      { h with frame := hframe, isdir := hisdir, callers := fun x hx => hc x (List.mem_cons_of_mem _ hx) }
    have htimes : Inv P targ (dirTimes F conf c.np { s with frame := c.frame, callers := callers }) := by
      unfold dirTimes
      split
      · exact inv_utimes hF hback hnp
      · exact hback
    apply inv_next
    split
    · have hnp : Named targ { s with frame := c.frame, callers := callers }.named s.dirs c.np := hnp
      exact inv_touch htimes (hnp.same (same_dirTimes c.np)) (hF.chmod _ _ _ _ htimes.files)
    · exact htimes

theorem inv_rets (hF : Respects F P) (n : Nat) (h : Inv P targ s) : Inv P targ (rets F conf n s) := by
  induction n generalizing s with
  | zero => exact h
  | succ n ih => exact ih (inv_ret hF h)

/-- A call for a D record. -/
theorem inv_dirCall (h : Inv P targ s) {np : Path} (hnp : Named targ s.named s.dirs np) (mode : Nat) (modFlag : Bool) :
    Inv P targ (call F conf np { s with callers := ⟨s.frame, np, mode, modFlag⟩ :: s.callers }) := by
  have hpush : Inv P targ { s with callers := ⟨s.frame, np, mode, modFlag⟩ :: s.callers } := by
    refine { h with callers := ?_ }
    intro c hc
    rcases List.mem_cons.mp hc with rfl | hc
    · exact ⟨h.frame, hnp, h.isdir⟩
    · exact h.callers c hc
  exact inv_call hpush hnp

theorem inv_dir (hF : Respects F P) (h : Inv P targ s) {np : Path} (hnp : Named targ s.named s.dirs np) (mode : Nat) :
    Inv P targ (s.dir F conf np mode) := by
  unfold dir
  split
  · exact inv_next (inv_runErr h _)
  · simp only
    split
    · exact inv_dirCall (inv_touch h hnp (hF.chmod _ _ _ _ h.files)) hnp mode conf.pflag
    · exact inv_dirCall h hnp mode conf.pflag
  · have ht := inv_touch h hnp (hF.mkdir _ _ np (mode ||| S_IRWXU) h.files)
    simp only
    split
    · exact inv_next (inv_runErr ht _)
    · exact inv_dirCall ht hnp mode true

/-- What is done with the file keeps the invariant. -/
structure Kept (P : List (Op × Path) → σ → Prop) (targ : Path) (s : Sink σ) (r : Sink σ × Receiving) : Prop where
  inv : Inv P targ r.1
  same : Same s r.1
  inside : Inside targ r.1.named r.1.dirs r.2

theorem kept_flush (hF : Respects F P) (h : Inv P targ s) {d : Receiving} (hd : Inside targ s.named s.dirs d) :
    Kept P targ s (s.flush F d) := by
  obtain ⟨hnp, hsize, hroom⟩ := hd
  unfold flush
  split
  · rename_i hno
    have hroom := hroom hno
    have hfiles := hF.write s.touched s.fs d.np d.offset d.buf (by omega) h.files
    simp only
    split
    · rename_i j hj
      refine ⟨{ h with files := hfiles }, ⟨rfl, rfl⟩, hnp, hsize, ?_⟩
      intro hw
      have hj : j = d.buf.length := by
        by_contra hne
        rw [if_pos hne] at hw
        cases hw
      simp only [List.length_nil]
      omega
    · exact ⟨{ h with files := hfiles }, ⟨rfl, rfl⟩, hnp, hsize, nofun⟩
  · rename_i hw
    exact ⟨h, ⟨rfl, rfl⟩, hnp, hsize, fun hno => absurd hno hw⟩

theorem kept_store (hF : Respects F P) (h : Inv P targ s) {d : Receiving} (hd : Inside targ s.named s.dirs d)
    (hleft : 0 < d.left) (c : UInt8) : Kept P targ s (s.store F d c) := by
  have hnext : Inside targ s.named s.dirs { d with buf := d.buf ++ [c], left := d.left - 1 } := by
    refine { hd with room := fun hno => ?_ }
    have := hd.room hno
    simp only [List.length_append, List.length_singleton]
    omega
  unfold store
  simp only
  split
  · exact kept_flush hF h hnext
  · exact ⟨h, ⟨rfl, rfl⟩, hnext⟩

theorem kept_flushRest (hF : Respects F P) (h : Inv P targ s) {d : Receiving} (hd : Inside targ s.named s.dirs d) :
    Kept P targ s (s.flushRest F d) := by
  unfold flushRest
  split
  · exact ⟨h, ⟨rfl, rfl⟩, hd⟩
  · exact kept_flush hF h hd

theorem kept_truncate (hF : Respects F P) (h : Inv P targ s) {d : Receiving} (hd : Inside targ s.named s.dirs d) :
    Kept P targ s (s.truncate F conf d) := by
  have ht := inv_touch h hd.np (hF.ftruncate _ _ d.np d.size hd.size h.files)
  unfold truncate
  simp only
  split
  · exact ⟨inv_runErr ht _, ⟨rfl, rfl⟩, hd.np, hd.size, nofun⟩
  · exact ⟨ht, ⟨rfl, rfl⟩, hd⟩

theorem kept_fixMode (hF : Respects F P) (h : Inv P targ s) {d : Receiving} (hd : Inside targ s.named s.dirs d) :
    Kept P targ s (s.fixMode F conf d, d) := by
  unfold fixMode
  simp only
  repeat' split
  all_goals first
    | exact ⟨inv_setMode hF h hd.np _, same_setMode _ _, hd.same (same_setMode _ _)⟩
    | exact ⟨h, ⟨rfl, rfl⟩, hd⟩

theorem inv_finish (hF : Respects F P) (h : Inv P targ s) {d : Receiving} (hd : Inside targ s.named s.dirs d) :
    Inv P targ (s.finish F conf d) := by
  have hflush := kept_flushRest hF h hd
  have htruncate : Kept P targ _ (truncate F conf _ _) := kept_truncate hF hflush.inv hflush.inside
  have hmode : Kept P targ _ (fixMode F conf _ _, _) := kept_fixMode hF htruncate.inv htruncate.inside
  exact { hmode.inv with phase := hmode.inside }

theorem inv_answer (hF : Respects F P) (h : Inv P targ s) {d : Receiving} (hnp : Named targ s.named s.dirs d.np) :
    Inv P targ (s.answer F conf d) := by
  unfold answer
  split
  · split
    · have hu : Inv P targ (s.utimes F conf d.np).1 := inv_utimes hF h hnp
      simp only
      apply inv_next
      split
      · exact inv_ok hu
      · exact hu
    · exact inv_next (inv_ok h)
  · exact inv_next (inv_runErr h _)
  · exact inv_next h

theorem inv_file (hF : Respects F P) (h : Inv P targ s) {np : Path} (hnp : Named targ s.named s.dirs np) (mode : Nat)
    {size : Int} (hsize : size < 2 ^ 31) : Inv P targ (s.file F conf np mode size) := by
  have ht := inv_touch h hnp (hF.creat _ _ np (mode ||| S_IWRITE) h.files)
  unfold file
  simp only
  split
  · exact inv_next (inv_runErr ht _)
  · split
    · exact inv_finish hF (inv_ok ht) ⟨hnp, hsize, fun _ => Nat.le_of_eq (Nat.zero_add _)⟩
    · have hpos : 0 < size.toNat := by omega
      exact { ht with phase := ⟨⟨hnp, hsize, fun _ => Nat.le_of_eq (Nat.zero_add _)⟩, hpos⟩ }

/-- The name of a record is added, and its path formed. -/
theorem inv_node (hF : Respects F P) (h : Inv P targ s) {name : Path} (hname : NUL ∉ name ∧ LF ∉ name) (isD : Bool)
    (mode : Nat) {size : Int} (hsize : size < 2 ^ 31) :
    let t := { s with named := s.named ++ [name] }
    let np := if t.frame.targisdir then child t.frame.targ name else t.frame.targ
    Inv P targ (if isD then t.dir F conf np mode else t.file F conf np mode size) := by
  intro t np
  have hsub : s.named ⊆ s.named ++ [name] := List.subset_append_left _ _
  have hdirs := List.Subset.refl s.dirs
  have hmem : name ∈ s.named ++ [name] := List.mem_append_right _ (List.mem_singleton_self name)
  have ht : Inv P targ t := by
    refine { files := h.files, touched := ?_, frame := h.frame.mono hsub hdirs, isdir := h.isdir, callers := ?_,
             phase := h.phase.mono hsub hdirs, named := ?_ }
    · exact fun x hx => (h.touched x hx).mono hsub hdirs
    · intro c hc
      obtain ⟨h1, h2, h3⟩ := h.callers c hc
      exact ⟨h1.mono hsub hdirs, h2.mono hsub hdirs, h3⟩
    · intro n hn
      rcases List.mem_append.mp hn with hn | hn
      · exact h.named n hn
      · obtain rfl := List.mem_singleton.mp hn
        exact hname
  have hnp : Named targ t.named t.dirs np := by
    show Named targ _ _ (if t.frame.targisdir then _ else _)
    split
    · rename_i hd
      exact ht.frame.child hmem (h.isdir hd)
    · exact ht.frame
  split
  · exact inv_dir hF ht hnp mode
  · exact inv_file hF ht hnp mode hsize

theorem inv_record (hF : Respects F P) (h : Inv P targ s) {line : List UInt8} (hline : LF ∉ line.dropLast) :
    Inv P targ (s.record F conf line) := by
  unfold record
  split
  · split
    · exact inv_exit h
    · exact { inv_next h with }
  · exact inv_ret hF (inv_ok h)
  · exact { inv_next (inv_ok h) with }
  · split
    · exact inv_exit (inv_runErr h _)
    · exact inv_exit (inv_runErr h _)
  · exact inv_exit (inv_runErr h _)
  · rename_i hparse
    obtain ⟨hnul, hlf, hsize⟩ := parse_node hparse hline
    exact inv_node hF h ⟨hnul, hlf⟩ _ _ hsize

theorem inv_byte (hF : Respects F P) (h : Inv P targ s) (c : UInt8) : Inv P targ (s.byte F conf c) := by
  have hphase := h.phase
  unfold byte
  split
  · split
    · exact inv_exit (inv_runErr h _)
    · rename_i hc
      refine { h with phase := ?_ }
      exact fun hm => hc (List.mem_singleton.mp hm).symm
  · rename_i b buf hp
    rw [hp] at hphase
    have hbuf : LF ∉ b :: buf := hphase
    simp only
    split
    · rename_i hc
      refine { h with phase := ?_ }
      intro hm
      rcases List.mem_append.mp (hm : LF ∈ b :: buf ++ [c]) with hm | hm
      · exact hbuf hm
      · exact hc.2 (List.mem_singleton.mp hm).symm
    · have hline : Inv P targ { s with phase := .line [] } := { h with phase := List.not_mem_nil }
      apply inv_record hF hline
      rw [List.dropLast_concat]
      exact hbuf
  · rename_i d hp
    rw [hp] at hphase
    obtain ⟨hd, hleft⟩ := hphase
    have hkept := kept_store hF h hd hleft c
    simp only
    split
    · exact inv_finish hF hkept.inv hkept.inside
    · rename_i hleft
      exact { hkept.inv with phase := ⟨hkept.inside, Nat.pos_of_ne_zero hleft⟩ }
  · rename_i d hp
    rw [hp] at hphase
    have hd : Inside targ s.named s.dirs d := hphase
    split
    · exact inv_answer hF h hd.np
    · exact { h with phase := hphase }
  · rename_i d resp rbuf hp
    rw [hp] at hphase
    have hd : Inside targ s.named s.dirs d := hphase
    simp only
    split
    · exact { h with phase := hphase }
    · have herr : Inv P targ { s with errs := s.errs + 1 } := { h with }
      split
      · exact inv_answer hF herr hd.np
      · exact inv_exit herr
  · exact h
  · exact h

theorem inv_closed (hF : Respects F P) (h : Inv P targ s) (e : Option Errno) : Inv P targ (s.closed F conf e) := by
  unfold closed
  split
  · exact inv_rets hF _ h
  · exact inv_exit (inv_runErr h _)
  · exact inv_exit (inv_runErr h _)
  · exact inv_exit h
  · exact inv_exit h
  · exact h
  · exact h

theorem inv_start (targ : Path) {fs : σ} (hfs : P [] fs) : Inv P targ (start F conf targ fs) := by
  have hnamed : ∀ dirs, Named targ [] dirs targ := fun _ => ⟨[], rfl, List.forall_mem_nil _, fun h => absurd rfl h⟩
  apply inv_call _ (hnamed _)
  exact { files := hfs, touched := List.forall_mem_nil _, frame := hnamed _, isdir := nofun,
          callers := List.forall_mem_nil _, phase := List.not_mem_nil, named := List.forall_mem_nil _ }

theorem inv_inputs (hF : Respects F P) (h : Inv P targ s) (l : List Input) : Inv P targ (l.foldl (input F conf) s) := by
  induction l generalizing s with
  | nil => exact h
  | cons i l ih =>
    apply ih
    cases i with
    | byte c => exact inv_byte hF h c
    | closed e => exact inv_closed hF h e

end Sink

/-! ## Containment -/

/-- A single component of a path, neither "." nor "..". -/
structure Proper (name : Path) : Prop where
  ne_nil : name ≠ []
  slash : SLASH ∉ name
  dot : name ≠ [0x2E]
  dotdot : name ≠ [0x2E, 0x2E]

instance (name : Path) : Decidable (Proper name) :=
  decidable_of_iff (name ≠ [] ∧ SLASH ∉ name ∧ name ≠ [0x2E] ∧ name ≠ [0x2E, 0x2E])
    ⟨fun ⟨h1, h2, h3, h4⟩ => ⟨h1, h2, h3, h4⟩, fun ⟨h1, h2, h3, h4⟩ => ⟨h1, h2, h3, h4⟩⟩

/-- The target itself, or a path of components behind the target, which is a directory. -/
def Contained (targ : Path) (dirs : List Path) (p : Path) : Prop :=
  ∃ names, p = names.foldl child targ ∧ (∀ n ∈ names, Proper n) ∧ (names ≠ [] → targ ∈ dirs)

/-- The path is the target with names of C and D records behind it, as they were sent. -/
structure Placed {σ : Type} (targ : Path) (s : Sink σ) (p : Path) : Prop where
  named : Sink.Named targ s.named s.dirs p
  names : ∀ n ∈ s.named, NUL ∉ n ∧ LF ∉ n
  contained : (∀ n ∈ s.named, Proper n) → Contained targ s.dirs p

/-- For everything the other side may send, and everything the file system may answer. -/
theorem sink_paths {σ : Type} (F : Files σ) (conf : Conf) (targ : Path) (fs : σ) (l : List Sink.Input) :
    let s := l.foldl (Sink.input F conf) (.start F conf targ fs)
    ∀ t ∈ s.touched, Placed targ s t.2 := by
  intro s t ht
  have hF : Sink.Respects F fun _ _ => True := by
    constructor <;> intros <;> trivial
  have hinv : Sink.Inv (fun _ _ => True) targ s := Sink.inv_inputs hF (Sink.inv_start targ trivial) l
  obtain ⟨names, hp, hnames, hdirs⟩ := hinv.touched t ht
  refine ⟨⟨names, hp, hnames, hdirs⟩, hinv.named, ?_⟩
  intro hproper
  exact ⟨names, hp, fun n hn => hproper n (hnames n hn), hdirs⟩

/-- A file system with one directory, where everything succeeds. -/
def oneDir (d : Path) : Files Unit where
  stat _ p := if p = d then .ok true else .error 2
  chmod _ _ _ := ((), none)
  mkdir _ _ _ := ((), none)
  creat _ _ _ := ((), none)
  write _ _ _ l := ((), .ok l.length)
  ftruncate _ _ _ := ((), none)
  fchmod _ _ _ := ((), none)
  utimes _ _ _ := ((), none)

def plainConf : Conf := ⟨false, false, 0o22, fun _ => []⟩

theorem sink_paths_one_file :
    ∃ s : Sink Unit, s = ((text "C0644 0 x\n").map Sink.Input.byte).foldl (Sink.input (oneDir (text "d")) plainConf)
        (.start (oneDir (text "d")) plainConf (text "d") ()) ∧
      (Op.creat, text "d/x") ∈ s.touched ∧ Placed (text "d") s (text "d/x") := by
  have hmem : (Op.creat, text "d/x") ∈ (((text "C0644 0 x\n").map Sink.Input.byte).foldl
      (Sink.input (oneDir (text "d")) plainConf) (.start (oneDir (text "d")) plainConf (text "d") ())).touched := by
    decide +kernel
  exact ⟨_, rfl, hmem, sink_paths _ _ _ _ _ _ hmem⟩

theorem foldl_child {p : Path} (hp : p ≠ []) (names : List Path) :
    names.foldl child p = p ++ names.flatMap (SLASH :: ·) := by
  induction names generalizing p with
  | nil => exact (List.append_nil p).symm
  | cons n names ih =>
    have hc : child p n = p ++ SLASH :: n := by
      rw [child, if_neg hp, List.append_assoc]
      rfl
    have h0 : p ++ SLASH :: n ≠ [] := List.append_ne_nil_of_left_ne_nil hp _
    rw [List.foldl_cons, hc, ih h0, List.flatMap_cons, List.append_assoc]

/-- The other side sends a file "../x", and sink opens what is beside its target. -/
theorem sink_goes_outside :
    ∃ s : Sink Unit, s = ((text "C0644 0 ../x\n").map Sink.Input.byte).foldl (Sink.input (oneDir (text "d")) plainConf)
        (.start (oneDir (text "d")) plainConf (text "d") ()) ∧
      (Op.creat, text "d/../x") ∈ s.touched ∧ ¬ Contained (text "d") s.dirs (text "d/../x") := by
  refine ⟨_, rfl, by decide +kernel, ?_⟩
  intro h
  obtain ⟨names, hp, hproper, -⟩ := h
  rw [foldl_child (by decide)] at hp
  rcases names with _ | ⟨n, names⟩
  · exact absurd hp (by decide)
  have hn := hproper n List.mem_cons_self
  have hp : [0x64, SLASH] ++ [0x2E, 0x2E, SLASH, 0x78] = [0x64, SLASH] ++ (n ++ names.flatMap (SLASH :: ·)) := hp
  have hp := List.append_cancel_left hp
  -- the first component is what is in front of the first slash
  rcases n with _ | ⟨a, _ | ⟨b, _ | ⟨c, n⟩⟩⟩
  · exact hn.ne_nil rfl
  · obtain ⟨rfl, -⟩ := List.cons.inj hp
    exact hn.dot rfl
  · simp only [List.cons_append, List.cons.injEq] at hp
    obtain ⟨rfl, rfl, -⟩ := hp
    exact hn.dotdot rfl
  · simp only [List.cons_append, List.cons.injEq] at hp
    obtain ⟨-, -, rfl, -⟩ := hp
    exact hn.slash (by simp)

end Netutils.Rcp
