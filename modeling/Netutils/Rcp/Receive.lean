/-
  Netutils.Rcp.Receive — what sink of rcp/rcp.c makes of a record, of the data of a file and
  of the reply behind it, over a file system on which nothing fails that can be done.

  After a record that source or rsource has written sink has replied with one byte, and is
  where they take it to be: in the directory (`record_dir`), back from it (`record_end`), or
  at the data of the file (`record_file`). The data is what the file then has
  (`takes_data`), whatever the reply is (`answer_ok`, `answer_error`).
-/

import Mathlib.Logic.Function.Basic
import Netutils.Rcp.Sink

namespace Netutils.Rcp

open Netutils.Arpa (LF NUL)
open Netutils.Libc (text)
open Function (update)

/-! ## The file system -/

inductive Entry where
  | dir
  | file (content : List UInt8)
  deriving DecidableEq

/-- What is at each path, without modes and times. -/
abbrev Fs := Path → Option Entry

def ENOENT : Errno := 2
def EBADF : Errno := 9
def EEXIST : Errno := 17
def EISDIR : Errno := 21
def EINVAL : Errno := 22

/-- Cut, or filled up with zeros. -/
def resize (content : List UInt8) (n : Nat) : List UInt8 := content.take n ++ List.replicate (n - content.length) 0

def overwrite (content : List UInt8) (offset : Nat) (l : List UInt8) : List UInt8 :=
  resize content offset ++ l ++ content.drop (offset + l.length)

def posix : Files Fs where
  stat fs p := match fs p with
    | some .dir => .ok true
    | some (.file _) => .ok false
    | none => .error ENOENT
  chmod fs _ _ := (fs, none)
  mkdir fs p _ := match fs p with
    | none => (update fs p (some .dir), none)
    | some _ => (fs, some EEXIST)
  creat fs p _ := match fs p with
    | none => (update fs p (some (.file [])), none)
    | some (.file _) => (fs, none)
    | some .dir => (fs, some EISDIR)
  write fs p offset l := match fs p with
    | some (.file content) => (update fs p (some (.file (overwrite content offset l))), .ok l.length)
    | _ => (fs, .error EBADF)
  ftruncate fs p size := match fs p with
    | some (.file content) =>
      if size < 0 then (fs, some EINVAL) else (update fs p (some (.file (resize content size.toNat))), none)
    | _ => (fs, some EINVAL)
  fchmod fs _ _ := (fs, none)
  utimes fs _ _ := (fs, none)

theorem resize_length (content : List UInt8) : resize content content.length = content := by
  rw [resize, List.take_length, Nat.sub_self, List.replicate_zero, List.append_nil]

theorem length_resize (content : List UInt8) (n : Nat) : (resize content n).length = n := by
  rw [resize, List.length_append, List.length_take, List.length_replicate]
  omega

/-- At the end of the file. -/
theorem overwrite_end (content l : List UInt8) : overwrite content content.length l = content ++ l := by
  rw [overwrite, resize_length, List.drop_of_length_le (by omega), List.append_nil]

theorem length_overwrite (content l : List UInt8) (offset : Nat) :
    (overwrite content offset l).length = max content.length (offset + l.length) := by
  rw [overwrite, List.length_append, List.length_append, length_resize, List.length_drop]
  omega

namespace Sink

/-! ## Lines -/

section

variable {σ : Type} {F : Files σ} {conf : Conf} {s : Sink σ}

theorem feed_line {buf line : List UInt8} (hs : s.phase = .line buf) (hne : buf ≠ []) (hlf : LF ∉ line)
    (hlen : buf.length + line.length + 1 < BUFSIZ) :
    (line ++ [LF]).foldl (byte F conf) s =
      ({ s with phase := .line [] } : Sink σ).record F conf (buf ++ line ++ [LF]) := by
  induction line generalizing s buf with
  | nil =>
    obtain ⟨b, buf, rfl⟩ := List.exists_cons_of_ne_nil hne
    rw [List.append_nil, List.nil_append, List.foldl_cons, List.foldl_nil, byte, hs]
    simp only
    rw [if_neg (fun h => h.2 rfl)]
  | cons c line ih =>
    obtain ⟨b, buf, rfl⟩ := List.exists_cons_of_ne_nil hne
    rw [List.mem_cons, not_or] at hlf
    simp only [List.length_cons] at hlen
    have hstep : byte F conf s c = { s with phase := .line (b :: buf ++ [c]) } := by
      have hroom : (b :: buf ++ [c]).length < BUFSIZ - 1 := by
        simp only [List.length_append, List.length_cons, List.length_nil]
        unfold BUFSIZ at *
        omega
      rw [byte, hs]
      exact if_pos ⟨hroom, Ne.symm hlf.1⟩
    rw [List.cons_append, List.foldl_cons, hstep, ih rfl (by simp) hlf.2, List.append_assoc _ [c]]
    · rfl
    · simp only [List.length_append, List.length_cons, List.length_nil]
      omega

theorem feed_record {l : List UInt8} (hs : s.phase = .line []) (hl : IsLine l) :
    l.foldl (byte F conf) s = s.record F conf l := by
  obtain ⟨line, rfl, hne, hlf, hlen⟩ := hl
  obtain ⟨b, line, rfl⟩ := List.exists_cons_of_ne_nil hne
  rw [List.mem_cons, not_or] at hlf
  simp only [List.length_append, List.length_cons, List.length_nil] at hlen
  have hstep : byte F conf s b = { s with phase := .line [b] } := by
    rw [byte, hs]
    exact if_neg (Ne.symm hlf.1)
  have hback : ({ s with phase := .line [] } : Sink σ) = s := by
    rw [← hs]
  rw [List.cons_append, List.foldl_cons, hstep, feed_line rfl (List.cons_ne_nil _ _) hlf.2]
  · show ({ s with phase := .line [] } : Sink σ).record F conf _ = _
    rw [hback]
    rfl
  · rw [List.length_singleton]
    omega

end

/-! ## Records -/

variable {conf : Conf} {s : Sink Fs} {a : Path} {callers : List Caller}

/-- sink waits for a record, in a call for this directory. -/
structure Waits (a : Path) (callers : List Caller) (s : Sink Fs) : Prop where
  phase : s.phase = .line []
  targ : s.frame.targ = a
  targisdir : s.frame.targisdir = true
  callers : s.callers = callers

/-- One reply, and this is the file system then. -/
structure Replies (fs : Fs) (s s' : Sink Fs) : Prop where
  out : s'.out = s.out ++ [0]
  fs : s'.fs = fs

theorem record_times (h : Waits a callers s) (t : Times) :
    Waits a callers (s.record posix conf (timesRecord t)) ∧ Replies s.fs s (s.record posix conf (timesRecord t)) := by
  rw [record, parse_timesRecord]
  exact ⟨⟨rfl, h.targ, h.targisdir, h.callers⟩, rfl, rfl⟩

theorem call_dir {np : Path} (h : s.fs np = some .dir) :
    Waits np s.callers (s.call posix conf np) ∧ Replies s.fs s (s.call posix conf np) := by
  have hstat : posix.stat s.fs np = .ok true := by
    simp only [posix, h]
  have hcall : s.call posix conf np =
      { s.ok with
        frame := ⟨np, true, true, false, ⟨0, 0, 0, 0⟩⟩
        phase := .line []
        dirs := np :: s.dirs } := by
    unfold call
    rw [hstat]
    simp only
    rw [if_neg (fun h => Bool.noConfusion h.2), if_pos trivial]
  rw [hcall]
  exact ⟨⟨rfl, rfl, rfl, rfl⟩, rfl, rfl⟩

theorem dir_free {np : Path} (mode : Nat) (h : s.fs np = none) :
    Waits np (⟨s.frame, np, mode, true⟩ :: s.callers) (s.dir posix conf np mode) ∧
      Replies (update s.fs np (some .dir)) s (s.dir posix conf np mode) := by
  have hstat : posix.stat s.fs np = .error ENOENT := by
    simp only [posix, h]
  have hmkdir : posix.mkdir s.fs np (mode ||| S_IRWXU) = (update s.fs np (some .dir), none) := by
    simp only [posix, h]
  have hmade : ({ s.touch .mkdir np (update s.fs np (some .dir)) with
      callers := ⟨s.frame, np, mode, true⟩ :: s.callers } : Sink Fs).fs np = some .dir := Function.update_self _ _ _
  unfold dir
  rw [hstat, hmkdir]
  obtain ⟨hwaits, hreplies⟩ := call_dir hmade
  exact ⟨hwaits, hreplies.out, hreplies.fs⟩

/-- sink is called for the directory that it has made. -/
theorem record_dir (h : Waits a callers s) (mode : Nat) {name : Path} (hnul : NUL ∉ name)
    (hfree : s.fs (child a name) = none) :
    ∃ c : Caller, c.frame.targ = a ∧ c.frame.targisdir = true ∧
      Waits (child a name) (c :: callers) (s.record posix conf (dirRecord mode name)) ∧
      Replies (update s.fs (child a name) (some .dir)) s (s.record posix conf (dirRecord mode name)) := by
  refine ⟨⟨s.frame, child a name, mode % 4096, true⟩, h.targ, h.targisdir, ?_⟩
  rw [record, parse_dirRecord mode hnul]
  simp only [if_pos h.targisdir, h.targ, if_true]
  obtain ⟨hwaits, hreplies⟩ := dir_free (s := { s with named := s.named ++ [name] }) (mode % 4096) hfree
  rw [← h.callers]
  exact ⟨hwaits, hreplies.out, hreplies.fs⟩

/-- And returns. -/
theorem record_end {c : Caller} {b : Path} (h : Waits b (c :: callers) s) (htarg : c.frame.targ = a)
    (hdir : c.frame.targisdir = true) :
    Waits a callers (s.record posix conf [letterE, LF]) ∧ Replies s.fs s (s.record posix conf [letterE, LF]) := by
  have hret : s.record posix conf [letterE, LF] = s.ok.ret posix conf := rfl
  have htimes : ∀ t : Sink Fs, t.frame = c.frame → t.callers = callers → t.fs = s.fs → t.out = s.out ++ [0] →
      let t' := dirTimes posix conf c.np t
      t'.frame.targ = a ∧ t'.frame.targisdir = true ∧ t'.callers = callers ∧ t'.fs = s.fs ∧
        t'.out = s.out ++ [0] := by
    intro t hframe hcallers hfs hout
    rw [← hframe] at htarg hdir
    unfold dirTimes
    split
    · exact ⟨htarg, hdir, hcallers, hfs, hout⟩
    · exact ⟨htarg, hdir, hcallers, hfs, hout⟩
  have hcallers : s.ok.callers = c :: callers := h.callers
  rw [hret, ret, hcallers]
  obtain ⟨h1, h2, h3, h4, h5⟩ := htimes { s.ok with frame := c.frame, callers := callers } rfl rfl rfl rfl
  simp only
  split
  · exact ⟨⟨rfl, h1, h2, h3⟩, h5, h4⟩
  · exact ⟨⟨rfl, h1, h2, h3⟩, h5, h4⟩

/-! ## Files -/

/-- What the calls for a file leave alone. -/
structure Stays (s s' : Sink Fs) : Prop where
  frame : s'.frame = s.frame
  callers : s'.callers = s.callers
  out : s'.out = s.out

/-- The file at `p` has what has been written of `got`, and `n` bytes are to come. -/
structure Receives (fs : Fs) (p : Path) (got : List UInt8) (n : Nat) (s : Sink Fs) (d : Receiving) : Prop where
  np : d.np = p
  wrerr : d.wrerr = .no
  left : d.left = n
  size : d.size = (got.length + n : Nat)
  written : s.fs = update fs p (some (.file (got.take d.offset)))
  offset : d.offset ≤ got.length
  buf : d.buf = got.drop d.offset

/-- All bytes of the file have come, and sink waits for the reply. -/
structure Received (fs : Fs) (p : Path) (got : List UInt8) (s : Sink Fs) (d : Receiving) : Prop where
  phase : s.phase = .response d
  np : d.np = p
  wrerr : d.wrerr = .no
  fs : s.fs = update fs p (some (.file got))

/-- Between the record and the reply, with `n` bytes to come. -/
inductive Takes (fs : Fs) (p : Path) (got : List UInt8) : Nat → Sink Fs → Prop where
  | data {n : Nat} {s : Sink Fs} (d : Receiving) : s.phase = .data d → d.buf.length < BUFSIZ →
      Receives fs p got (n + 1) s d → Takes fs p got (n + 1) s
  | done {s : Sink Fs} (d : Receiving) : Received fs p got s d → Takes fs p got 0 s

variable {fs : Fs} {p : Path} {got : List UInt8} {n : Nat} {d : Receiving}

theorem flush_receives (h : Receives fs p got n s d) :
    let r := s.flush posix d
    Receives fs p got n r.1 r.2 ∧ r.2.buf = [] ∧ Stays s r.1 := by
  have hlen : (got.take d.offset).length = d.offset := by
    rw [List.length_take]
    exact Nat.min_eq_left h.offset
  have hall : got.take d.offset ++ d.buf = got := by
    rw [h.buf, List.take_append_drop]
  have hfile : s.fs d.np = some (.file (got.take d.offset)) := by
    rw [h.written, h.np, Function.update_self]
  have hover : overwrite (got.take d.offset) d.offset d.buf = got := by
    have hend := overwrite_end (got.take d.offset) d.buf
    rw [hlen, hall] at hend
    exact hend
  have hwrite : posix.write s.fs d.np d.offset d.buf = (update fs p (some (.file got)), .ok d.buf.length) := by
    simp only [posix, hfile, hover]
    rw [h.written, h.np, Function.update_idem]
  have hend : d.offset + d.buf.length = got.length := by
    rw [h.buf, List.length_drop]
    have := h.offset
    omega
  unfold flush
  rw [h.wrerr]
  simp only [hwrite]
  rw [if_neg (fun h => h rfl)]
  refine ⟨⟨h.np, rfl, h.left, h.size, ?_, ?_, ?_⟩, trivial, rfl, rfl, rfl⟩
  · simp only [hend, List.take_length]
  · exact Nat.le_of_eq hend
  · simp only [hend, List.drop_length]

theorem flushRest_receives (h : Receives fs p got n s d) :
    let r := s.flushRest posix d
    Receives fs p got n r.1 r.2 ∧ r.2.buf = [] ∧ Stays s r.1 := by
  unfold flushRest
  split
  · exact ⟨h, ‹_›, rfl, rfl, rfl⟩
  · exact flush_receives h

theorem fixMode_stays (d : Receiving) : Stays s (s.fixMode posix conf d) ∧ (s.fixMode posix conf d).fs = s.fs := by
  unfold fixMode
  simp only
  repeat' split
  all_goals exact ⟨⟨rfl, rfl, rfl⟩, rfl⟩

/-- With all of it written, the file has what has come. -/
theorem finish_receives (h : Receives fs p got 0 s d) :
    Stays s (s.finish posix conf d) ∧ Takes fs p got 0 (s.finish posix conf d) := by
  obtain ⟨hr, hbuf, hstays⟩ := flushRest_receives h
  unfold finish
  simp only
  generalize s.flushRest posix d = r at hr hbuf hstays
  obtain ⟨t, e⟩ := r
  have hdrop : got.drop e.offset = [] := hr.buf.symm.trans hbuf
  have hfs : t.fs = update fs p (some (.file got)) := by
    rw [hr.written, List.take_of_length_le (List.drop_eq_nil_iff.mp hdrop)]
  have hfile : t.fs e.np = some (.file got) := by
    rw [hfs, hr.np, Function.update_self]
  have hsize : e.size = (got.length : Nat) := hr.size
  have htruncate : posix.ftruncate t.fs e.np e.size = (update fs p (some (.file got)), none) := by
    have hpos : ¬ ((got.length : Nat) : Int) < 0 := by omega
    simp only [posix, hfile, hsize, if_neg hpos, Int.toNat_natCast, resize_length]
    rw [hfs, hr.np, Function.update_idem]
  simp only [truncate, htruncate]
  obtain ⟨hmode, hmodefs⟩ :
      _ ∧ (fixMode posix conf e (t.touch .ftruncate e.np (update fs p (some (.file got))))).fs = _ :=
    fixMode_stays e
  exact ⟨⟨hmode.frame.trans hstays.frame, hmode.callers.trans hstays.callers, hmode.out.trans hstays.out⟩,
    .done e ⟨rfl, hr.np, hr.wrerr, hmodefs⟩⟩

/-- A byte comes, and may fill the buffer. -/
theorem store_receives (h : Receives fs p got (n + 1) s d) (hroom : d.buf.length < BUFSIZ) (c : UInt8) :
    let r := s.store posix d c
    Receives fs p (got ++ [c]) n r.1 r.2 ∧ r.2.buf.length < BUFSIZ ∧ Stays s r.1 := by
  have hnext : Receives fs p (got ++ [c]) n s { d with buf := d.buf ++ [c], left := d.left - 1 } := by
    refine ⟨h.np, h.wrerr, ?_, ?_, ?_, ?_, ?_⟩
    · simp only [h.left, Nat.add_sub_cancel]
    · rw [List.length_append, List.length_singleton]
      simp only [h.size]
      omega
    · rw [List.take_append_of_le_length h.offset]
      exact h.written
    · rw [List.length_append]
      exact Nat.le_add_right_of_le h.offset
    · rw [List.drop_append_of_le_length h.offset, ← h.buf]
  have hlen : (d.buf ++ [c]).length = d.buf.length + 1 := List.length_append
  unfold store
  simp only
  split
  · obtain ⟨hflush, hbuf, hstays⟩ := flush_receives hnext
    refine ⟨hflush, ?_, hstays⟩
    rw [hbuf]
    decide
  · exact ⟨hnext, by simp only; omega, rfl, rfl, rfl⟩

theorem takes_byte (h : Takes fs p got (n + 1) s) (c : UInt8) :
    Stays s (s.byte posix conf c) ∧ Takes fs p (got ++ [c]) n (s.byte posix conf c) := by
  cases h with
  | data d hphase hroom hreceives =>
    obtain ⟨hr, hlen, hstays⟩ := store_receives hreceives hroom c
    unfold byte
    rw [hphase]
    simp only
    generalize s.store posix d c = r at hr hlen hstays
    obtain ⟨t, e⟩ := r
    have hleft : e.left = n := hr.left
    cases n with
    | zero =>
      obtain ⟨hfinish, htakes⟩ : _ ∧ Takes _ _ _ 0 (t.finish posix conf e) := finish_receives hr
      rw [if_pos hleft]
      exact ⟨⟨hfinish.frame.trans hstays.frame, hfinish.callers.trans hstays.callers,
        hfinish.out.trans hstays.out⟩, htakes⟩
    | succ n =>
      have hmore : e.left ≠ 0 := by omega
      rw [if_neg hmore]
      exact ⟨⟨hstays.frame, hstays.callers, hstays.out⟩, .data e rfl hlen
        ⟨hr.np, hr.wrerr, hr.left, hr.size, hr.written, hr.offset, hr.buf⟩⟩

/-- The data is what the file has. -/
theorem takes_data (l : List UInt8) (h : Takes fs p got l.length s) :
    Stays s (l.foldl (byte posix conf) s) ∧ Takes fs p (got ++ l) 0 (l.foldl (byte posix conf) s) := by
  induction l generalizing s got with
  | nil =>
    rw [List.append_nil]
    exact ⟨⟨rfl, rfl, rfl⟩, h⟩
  | cons c l ih =>
    obtain ⟨hstays, htakes⟩ : _ ∧ Takes _ _ _ l.length (s.byte posix conf c) := takes_byte h c
    obtain ⟨hstays', htakes'⟩ := ih htakes
    rw [List.append_assoc] at htakes'
    exact ⟨⟨hstays'.frame.trans hstays.frame, hstays'.callers.trans hstays.callers,
      hstays'.out.trans hstays.out⟩, htakes'⟩

/-- The file is made, and its data awaited. -/
theorem file_free {np : Path} (mode n : Nat) (h : s.fs np = none) :
    (s.file posix conf np mode n).frame = s.frame ∧ (s.file posix conf np mode n).callers = s.callers ∧
      (s.file posix conf np mode n).out = s.out ++ [0] ∧ Takes s.fs np [] n (s.file posix conf np mode n) := by
  have hcreat : posix.creat s.fs np (mode ||| S_IWRITE) = (update s.fs np (some (.file [])), none) := by
    simp only [posix, h]
  unfold file
  simp only [hcreat]
  generalize hd : Receiving.mk np _ mode (n : Int) (n : Int).toNat 0 [] .no = d
  have hreceives : Receives s.fs np [] n (s.touch .creat np (update s.fs np (some (.file [])))).ok d := by
    subst hd
    exact ⟨rfl, rfl, Int.toNat_natCast n, (Nat.zero_add n).symm ▸ rfl, rfl, Nat.le_refl 0, rfl⟩
  cases n with
  | zero =>
    rw [if_pos (by omega)]
    obtain ⟨hstays, htakes⟩ : _ ∧ Takes _ _ _ 0 (finish posix conf d _) := finish_receives hreceives
    exact ⟨hstays.frame, hstays.callers, hstays.out, htakes⟩
  | succ n =>
    rw [if_neg (by omega)]
    refine ⟨rfl, rfl, rfl, .data d rfl ?_ ?_⟩
    · subst hd
      show (0 : Nat) < BUFSIZ
      decide
    · exact { hreceives with }

theorem record_file (h : Waits a callers s) {line : List UInt8} {mode : Nat} {name : Path}
    (hparse : parse line = .node false mode n name) (hfree : s.fs (child a name) = none) :
    (s.record posix conf line).frame = s.frame ∧ (s.record posix conf line).callers = s.callers ∧
      (s.record posix conf line).out = s.out ++ [0] ∧ Takes s.fs (child a name) [] n (s.record posix conf line) := by
  rw [record, hparse]
  simp only [if_pos h.targisdir, h.targ]
  exact file_free (s := { s with named := s.named ++ [name] }) mode n hfree

/-! ## Replies -/

theorem answer_waits (hd : d.wrerr = .no) (htarg : s.frame.targ = a) (hdir : s.frame.targisdir = true)
    (hcallers : s.callers = callers) :
    Waits a callers (s.answer posix conf d) ∧ Replies s.fs s (s.answer posix conf d) := by
  unfold answer
  rw [hd]
  simp only
  split
  · exact ⟨⟨rfl, htarg, hdir, hcallers⟩, rfl, rfl⟩
  · exact ⟨⟨rfl, htarg, hdir, hcallers⟩, rfl, rfl⟩

theorem answer_ok (h : Takes fs p got 0 s) (htarg : s.frame.targ = a) (hdir : s.frame.targisdir = true)
    (hcallers : s.callers = callers) :
    Waits a callers (s.byte posix conf 0) ∧ Replies (update fs p (some (.file got))) s (s.byte posix conf 0) := by
  cases h with
  | done d hd =>
    unfold byte
    rw [hd.phase, ← hd.fs]
    exact answer_waits hd.wrerr htarg hdir hcallers

theorem feed_message {rbuf line : List UInt8} (hs : s.phase = .message d 1 rbuf) (hlf : LF ∉ line)
    (hlen : rbuf.length + line.length < BUFSIZ) :
    (line ++ [LF]).foldl (byte posix conf) s =
      ({ s with phase := .message d 1 (rbuf ++ line), errs := s.errs + 1 } : Sink Fs).answer posix conf d := by
  induction line generalizing s rbuf with
  | nil =>
    rw [List.append_nil, List.nil_append, List.foldl_cons, List.foldl_nil, byte, hs]
    simp only
    rw [if_neg (fun h => h.2 rfl), if_pos trivial, ← hs]
  | cons c line ih =>
    rw [List.mem_cons, not_or] at hlf
    rw [List.length_cons] at hlen
    have hlength : (rbuf ++ [c]).length = rbuf.length + 1 := List.length_append
    have hstep : byte posix conf s c = { s with phase := .message d 1 (rbuf ++ [c]) } := by
      have hroom : (rbuf ++ [c]).length < BUFSIZ := by omega
      rw [byte, hs]
      exact if_pos ⟨hroom, Ne.symm hlf.1⟩
    rw [List.cons_append, List.foldl_cons, hstep, ih rfl hlf.2 (by omega), List.append_assoc]
    rfl

/-- An error that the other side has had does not keep sink from going on. -/
theorem answer_error (h : Takes fs p got 0 s) (htarg : s.frame.targ = a) (hdir : s.frame.targisdir = true)
    (hcallers : s.callers = callers) {msg : List UInt8} (hlf : LF ∉ msg) (hlen : (errorLine msg).length ≤ BUFSIZ) :
    Waits a callers ((errorLine msg).foldl (byte posix conf) s) ∧
      Replies (update fs p (some (.file got))) s ((errorLine msg).foldl (byte posix conf) s) := by
  have hline : errorLine msg = 1 :: (text "rcp: " ++ msg ++ [LF]) := rfl
  cases h with
  | done d hd =>
    have hstep : byte posix conf s 1 = { s with phase := .message d 1 [] } := by
      rw [byte, hd.phase]
      rfl
    have hrcp : LF ∉ text "rcp: " ++ msg := by
      rw [List.mem_append, not_or]
      exact ⟨by decide, hlf⟩
    have hroom : ([] : List UInt8).length + (text "rcp: " ++ msg).length < BUFSIZ := by
      rw [hline, List.length_cons, List.length_append, List.length_singleton] at hlen
      rw [List.length_nil]
      omega
    rw [hline, List.foldl_cons, hstep, feed_message rfl hrcp hroom, ← hd.fs]
    obtain ⟨hwaits, hreplies⟩ : Waits a callers (answer posix conf d { s with
        phase := .message d 1 ([] ++ (text "rcp: " ++ msg)), errs := s.errs + 1 }) ∧ Replies s.fs _ _ :=
      answer_waits hd.wrerr htarg hdir hcallers
    exact ⟨hwaits, hreplies.out, hreplies.fs⟩

end Sink

end Netutils.Rcp
