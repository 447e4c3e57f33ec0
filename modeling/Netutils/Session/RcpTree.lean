/-
  Netutils.Session.RcpTree — a tree copied with rcp -r (rcp/rcp.c): source and rsource on one
  side, sink on the other, into a directory that has nothing of its name.

  Each record has its reply, also behind a file with a read that fails, and in the end the tree
  is there, each file with its length and its content up to that read (`tree_reproduced`), if
  and only if no name in it has a newline, no file is longer than an int holds, and a read fails
  only if source is the remote rcp. For a record ends at the first newline, the size of a file is
  read into an int, and a local rcp does not come through run_err (`not_reproduced`).
-/

import Netutils.Rcp.Receive
import Netutils.Rcp.Source

namespace Netutils.Session.RcpTree

open Netutils.Arpa (LF NUL)
open Netutils.Libc (text)
open Netutils.Rcp
open Function (update)

/-! ## The copy -/

/-- What is there for a node: of a file, its length, and what could be read. -/
def Holds : Node → Option Entry → Prop
  | .file f, e => ∃ content, e = some (.file content) ∧ content.length = f.content.length ∧
      content.take f.good = f.content.take f.good
  | .dir _ _, e => e = some .dir

theorem Holds.ne_none {n : Node} {e : Option Entry} (h : Holds n e) : e ≠ none := by
  cases n with
  | file f =>
    obtain ⟨content, rfl, -⟩ := h
    exact Option.some_ne_none _
  | dir mode times =>
    obtain rfl := h
    exact Option.some_ne_none _

/-- The nodes are at these paths, and nothing else has changed. -/
structure There (nodes : List (Path × Node)) (fs fs' : Fs) : Prop where
  holds : ∀ x ∈ nodes, Holds x.2 (fs' x.1)
  others : ∀ q, (∀ x ∈ nodes, x.1 ≠ q) → fs' q = fs q

/-- sink has come to its end, and each of its replies has been read for the record before it. -/
structure InStep (c : Conn Fs) : Prop where
  inStep : c.inStep = true
  read : c.read = c.sink.out.length
  returned : c.sink.phase = .returned

/-- A tree with this name, into the directory. -/
def Reproduced (iamremote : Bool) (conf : Conf) (name : Path) (t : Tree) (targ : Path) (fs : Fs) (buffer : Nat → UInt8) : Prop :=
  ∃ c, copyTree posix conf iamremote name t targ fs buffer = some c ∧ InStep c ∧
    There (t.nodes (child targ (last name))) fs c.sink.fs

/-- Of a file, that no read of it fails. -/
def Readable : Node → Prop
  | .file f => f.Readable
  | .dir _ _ => True

/-- No path in the tree has a newline, no file more bytes than an int holds, and the rcp that
    sends it is the remote one or can read all of it. -/
structure Sendable (iamremote : Bool) (root : Name) (t : Tree) : Prop where
  oneLine : ∀ x ∈ t.nodes root.bytes, LF ∉ x.1
  small : ∀ x ∈ t.nodes root.bytes, ∀ f, x.2 = .file f → f.content.length < 2 ^ 31
  readable : iamremote = true ∨ ∀ x ∈ t.nodes root.bytes, Readable x.2

/-- strerror's texts are of one line, and short. -/
def Strerror (conf : Conf) : Prop := ∀ e, LF ∉ conf.strerror e ∧ (conf.strerror e).length ≤ 1024

def times : Node → Times
  | .file f => f.times
  | .dir _ t => t

/-- What goes over the connection for a node fits into the lines of the other side. -/
structure Fits (conf : Conf) (p : Path) (n : Node) : Prop where
  line : LF ∉ last p
  path : p.length < PATH_MAX
  small : ∀ f, n = .file f → f.content.length < 2 ^ 31
  message : ¬ Readable n → LF ∉ p
  times : conf.pflag = true → (times n).Fits

/-! ## Exchanges -/

variable {conf : Conf} {iamremote : Bool} {a : Path} {callers : List Caller} {c : Conn Fs}

/-- sink waits for a record, and all of its replies have been read. -/
structure Ready (a : Path) (callers : List Caller) (fs : Fs) (c : Conn Fs) : Prop where
  waits : c.sink.Waits a callers
  fs : c.sink.fs = fs
  read : c.read = c.sink.out.length
  inStep : c.inStep = true

theorem response_ok {out : List UInt8} (hread : c.read = out.length) (hout : c.sink.out = out ++ [0])
    (hstep : c.inStep = true) :
    ∃ c', c.response = some (true, c') ∧ c'.sink = c.sink ∧ c'.read = c'.sink.out.length ∧ c'.inStep = true := by
  have hdrop : c.sink.out.drop c.read = [0] := by
    rw [hread, hout, List.drop_left]
  have hresponse : c.response = some (true, { c with read := c.read + 1, inStep := c.inStep && true }) := by
    unfold Conn.response
    rw [hdrop]
    rfl
  refine ⟨_, hresponse, rfl, ?_, ?_⟩
  · show c.read + 1 = c.sink.out.length
    rw [hread, hout, List.length_append, List.length_singleton]
  · show (c.inStep && true) = true
    rw [hstep, Bool.and_true]

variable {fs : Fs}

/-- A record is written, and sink's reply read. -/
theorem exchange_record (h : Ready a callers fs c) {l : List UInt8} (hl : IsLine l)
    (hout : (c.sink.record posix conf l).out = c.sink.out ++ [0]) :
    ∃ c', c.exchange posix conf l = some (true, c') ∧ c'.sink = c.sink.record posix conf l ∧
      c'.read = c'.sink.out.length ∧ c'.inStep = true := by
  have hsink : (c.write posix conf l).sink = c.sink.record posix conf l := Sink.feed_record h.waits.phase hl
  obtain ⟨c', hresponse, hsame, hread, hstep⟩ :=
    response_ok (c := c.write posix conf l) h.read (hsink ▸ hout) h.inStep
  exact ⟨c', hresponse, hsame.trans hsink, hread, hstep⟩

/-- And sink waits for the next. -/
theorem exchange_ready (h : Ready a callers fs c) {l : List UInt8} (hl : IsLine l) {b : Path} {callers' : List Caller}
    {fs' : Fs} (hwaits : (c.sink.record posix conf l).Waits b callers')
    (hreplies : Sink.Replies fs' c.sink (c.sink.record posix conf l)) :
    ∃ c', c.exchange posix conf l = some (true, c') ∧ Ready b callers' fs' c' := by
  obtain ⟨c', hexchange, hsink, hread, hstep⟩ := exchange_record h hl hreplies.out
  refine ⟨c', hexchange, ?_, ?_, hread, hstep⟩
  · rw [hsink]
    exact hwaits
  · rw [hsink]
    exact hreplies.fs

theorem sendTimes_ready (h : Ready a callers fs c) {t : Times} (ht : conf.pflag = true → t.Fits) :
    ∃ c', c.sendTimes posix conf t = some (true, c') ∧ Ready a callers fs c' := by
  unfold Conn.sendTimes
  by_cases hp : conf.pflag = true
  · rw [if_pos hp]
    obtain ⟨hwaits, hreplies⟩ : _ ∧ Sink.Replies _ c.sink (c.sink.record posix conf (timesRecord t)) :=
      Sink.record_times h.waits t
    rw [h.fs] at hreplies
    exact exchange_ready h (isLine_timesRecord (ht hp)) hwaits hreplies
  · rw [if_neg hp]
    exact ⟨c, rfl, h⟩

/-! ## Files -/

/-- sink's reply is read, and it waits for the next record. -/
theorem response_ready {out : List UInt8} (hread : c.read = out.length) (hout : c.sink.out = out ++ [0])
    (hstep : c.inStep = true) (hwaits : c.sink.Waits a callers) (hfs : c.sink.fs = fs) :
    ∃ c', c.response = some (true, c') ∧ Ready a callers fs c' := by
  obtain ⟨c', hresponse, hsink, hread', hstep'⟩ := response_ok hread hout hstep
  refine ⟨c', hresponse, ?_, ?_, hread', hstep'⟩
  · rw [hsink]
    exact hwaits
  · rw [hsink]
    exact hfs

/-- The line of run_err is one that response reads whole. -/
theorem errorLine_fits (hstrerror : Strerror conf) {name : Path} {f : File} (hfits : Fits conf name (.file f))
    (hfails : ¬ f.Readable) (e : Errno) : LF ∉ name ++ text ": " ++ conf.strerror e ∧
      (errorLine (name ++ text ": " ++ conf.strerror e)).length ≤ BUFSIZ := by
  obtain ⟨hline, hshort⟩ := hstrerror e
  have hpath := hfits.path
  have hrcp : (text "rcp: ").length = 5 := by decide
  have hcolon : (text ": ").length = 2 := by decide
  unfold PATH_MAX at hpath
  constructor
  · rw [List.mem_append, List.mem_append, not_or, not_or]
    exact ⟨⟨hfits.message hfails, by decide⟩, hline⟩
  · simp only [errorLine, List.length_cons, List.length_append, hrcp, hcolon, List.length_nil]
    unfold BUFSIZ
    omega

/-- The data goes into the file, and whatever follows it is answered. -/
theorem sendData_ready (hstrerror : Strerror conf) {p name : Path} {f : File} (hfits : Fits conf name (.file f))
    (hcan : iamremote = true ∨ f.Readable)
    (htakes : Sink.Takes fs p [] f.content.length c.sink) (htarg : c.sink.frame.targ = a)
    (hdir : c.sink.frame.targisdir = true) (hcallers : c.sink.callers = callers)
    (hread : c.read = c.sink.out.length) (hstep : c.inStep = true) :
    ∃ d, c.sendData posix conf iamremote name f = some d ∧ ∃ c', d.response = some (true, c') ∧
      Ready a callers (update fs p (some (.file (f.copy c.buffer).bytes))) c' := by
  rw [← f.length_copy c.buffer] at htakes
  obtain ⟨hstays, hall⟩ : _ ∧ Sink.Takes fs p _ 0 ((f.copy c.buffer).bytes.foldl (Sink.byte posix conf) c.sink) :=
    Sink.takes_data _ htakes
  rw [List.nil_append] at hall
  rw [← hstays.frame] at htarg hdir
  rw [← hstays.callers] at hcallers
  rw [← hstays.out] at hread
  unfold Conn.sendData
  simp only
  split
  · obtain ⟨hwaits, hreplies⟩ : Sink.Waits a callers (Sink.byte posix conf _ 0) ∧ Sink.Replies _ _ _ :=
      Sink.answer_ok hall htarg hdir hcallers
    exact ⟨_, rfl, response_ready hread hreplies.out hstep hwaits hreplies.fs⟩
  · rename_i e he
    have hfails : ¬ f.Readable := by
      rw [← f.haderr_copy c.buffer, he]
      exact Option.some_ne_none e
    obtain ⟨hlf, hlen⟩ := errorLine_fits hstrerror hfits hfails e
    obtain ⟨hwaits, hreplies⟩ :
        Sink.Waits a callers ((errorLine _).foldl (Sink.byte posix conf) _) ∧ Sink.Replies _ _ _ :=
      Sink.answer_error hall htarg hdir hcallers hlf hlen
    exact ⟨_, if_pos (hcan.resolve_right hfails), response_ready hread hreplies.out hstep hwaits hreplies.fs⟩

/-- A local rcp does not come through run_err. -/
theorem sendData_unreadable {name : Path} {f : File} (hfails : ¬ f.Readable) :
    c.sendData posix conf false name f = none := by
  unfold Conn.sendData
  simp only
  split
  · rename_i hnone
    exact absurd ((f.haderr_copy c.buffer).mp hnone) hfails
  · rfl

theorem length_last (p : Path) : (last p).length ≤ p.length := by
  rw [last, List.length_reverse]
  exact (List.takeWhile_sublist _).length_le.trans (Nat.le_of_eq List.length_reverse)

/-- The records of a file are answered, and sink waits for its data. -/
theorem sendFile_sent (h : Ready a callers fs c) {name : Path} {f : File} (hfits : Fits conf name (.file f))
    (hnul : NUL ∉ last name) (hfree : fs (child a (last name)) = none) :
    ∃ d : Conn Fs, c.sendFile posix conf iamremote name f =
        ((d.sendData posix conf iamremote name f).bind fun d => d.response.map Prod.snd) ∧
      Sink.Takes fs (child a (last name)) [] f.content.length d.sink ∧ d.sink.frame.targ = a ∧
      d.sink.frame.targisdir = true ∧ d.sink.callers = callers ∧ d.read = d.sink.out.length ∧ d.inStep = true := by
  have hlen : (last name).length ≤ PATH_MAX := (length_last name).trans (Nat.le_of_lt hfits.path)
  have hsize := hfits.small f rfl
  obtain ⟨c1, htimes, h1⟩ : ∃ c1, c.sendTimes posix conf f.times = some (true, c1) ∧ _ :=
    sendTimes_ready h hfits.times
  rw [← h1.fs] at hfree
  obtain ⟨hframe, hcallers, hout, htakes⟩ :
      (c1.sink.record posix conf (fileRecord f.mode f.content.length (last name))).frame = _ ∧ _ :=
    Sink.record_file h1.waits (parse_fileRecord f.mode hsize hnul hlen) hfree
  obtain ⟨c2, hrecord, hsink, hread, hstep⟩ :=
    exchange_record h1 (isLine_fileRecord f.mode (by omega) hfits.line hlen) hout
  rw [← hsink] at hframe hcallers htakes
  rw [h1.fs] at htakes
  refine ⟨c2, ?_, htakes, hframe ▸ h1.waits.targ, hframe ▸ h1.waits.targisdir, hcallers.trans h1.waits.callers, hread, hstep⟩
  rw [Conn.sendFile, htimes]
  simp only [Option.bind_some, Bool.true_eq_false, if_false, hrecord]

/-- source, for a file. -/
theorem sendFile_ready (hstrerror : Strerror conf) (h : Ready a callers fs c)
    {name : Path} {f : File} (hfits : Fits conf name (.file f)) (hcan : iamremote = true ∨ f.Readable)
    (hnul : NUL ∉ last name) (hfree : fs (child a (last name)) = none) :
    ∃ c' content, c.sendFile posix conf iamremote name f = some c' ∧
      Ready a callers (update fs (child a (last name)) (some (.file content))) c' ∧
      Holds (.file f) (some (.file content)) := by
  obtain ⟨d, hsend, htakes, htarg, hdir, hcallers, hread, hstep⟩ := sendFile_sent h hfits hnul hfree
  obtain ⟨d', hdata, c', hresponse, hready⟩ :=
    sendData_ready hstrerror hfits hcan htakes htarg hdir hcallers hread hstep
  refine ⟨c', _, ?_, hready, _, rfl, f.length_copy _, f.take_copy _⟩
  rw [hsend, hdata, Option.bind_some, hresponse, Option.map_some]

/-- The records of a directory are answered; then the entries are sent, and the end. -/
theorem sendDir_sent (h : Ready a callers fs c) {name : Path} {mode : Nat} {t : Times}
    (hfits : Fits conf name (.dir mode t)) (hnul : NUL ∉ last name) (hfree : fs (child a (last name)) = none) :
    ∃ caller d, (∀ send : Conn Fs → Option (Conn Fs), c.sendDir posix conf name mode t send =
        ((send d).bind fun d => (d.exchange posix conf [letterE, LF]).map Prod.snd)) ∧
      caller.frame.targ = a ∧ caller.frame.targisdir = true ∧
      Ready (child a (last name)) (caller :: callers) (update fs (child a (last name)) (some .dir)) d := by
  have hlen : (last name).length ≤ PATH_MAX := (length_last name).trans (Nat.le_of_lt hfits.path)
  obtain ⟨c1, htimes, h1⟩ : ∃ c1, c.sendTimes posix conf t = some (true, c1) ∧ _ :=
    sendTimes_ready h hfits.times
  rw [← h1.fs] at hfree
  obtain ⟨caller, htarg, hdir, hwaits, hreplies⟩ :
      ∃ _, _ ∧ _ ∧ _ ∧ Sink.Replies _ c1.sink (c1.sink.record posix conf (dirRecord mode (last name))) :=
    Sink.record_dir h1.waits mode hnul hfree
  rw [h1.fs] at hreplies
  obtain ⟨c2, hrecord, h2⟩ := exchange_ready h1 (isLine_dirRecord mode hfits.line hlen) hwaits hreplies
  refine ⟨caller, c2, fun send => ?_, htarg, hdir, h2⟩
  rw [Conn.sendDir, htimes]
  simp only [Option.bind_some, Bool.true_eq_false, if_false, hrecord]

/-- rsource, when the entries have been sent. -/
theorem sendDir_ready (h : Ready a callers fs c) {name : Path} {mode : Nat} {t : Times}
    (hfits : Fits conf name (.dir mode t)) (hnul : NUL ∉ last name) (hfree : fs (child a (last name)) = none)
    {send : Conn Fs → Option (Conn Fs)} {P : Fs → Prop}
    (hsend : ∀ callers c, Ready (child a (last name)) callers (update fs (child a (last name)) (some .dir)) c →
      ∃ fs' c', send c = some c' ∧ Ready (child a (last name)) callers fs' c' ∧ P fs') :
    ∃ fs' c', c.sendDir posix conf name mode t send = some c' ∧ Ready a callers fs' c' ∧ P fs' := by
  obtain ⟨caller, c2, hsent, htarg, hdir, h2⟩ := sendDir_sent h hfits hnul hfree
  obtain ⟨fs', c3, hentries, h3, hP⟩ := hsend _ c2 h2
  obtain ⟨hwaits', hreplies'⟩ : _ ∧ Sink.Replies _ c3.sink (c3.sink.record posix conf [letterE, LF]) :=
    Sink.record_end h3.waits htarg hdir
  rw [h3.fs] at hreplies'
  obtain ⟨c4, hend, h4⟩ := exchange_ready h3 isLine_end hwaits' hreplies'
  refine ⟨fs', c4, ?_, h4, hP⟩
  rw [hsent, hentries, Option.bind_some, hend, Option.map_some]

/-! ## Trees -/

variable {fs' fs'' : Fs}

theorem there_file {p : Path} {f : File} {content : List UInt8} (h : Holds (.file f) (some (.file content))) :
    There [(p, .file f)] fs (update fs p (some (.file content))) := by
  refine ⟨?_, ?_⟩
  · intro x hx
    obtain rfl := List.mem_singleton.mp hx
    rw [Function.update_self]
    exact h
  · intro q hq
    exact Function.update_of_ne (hq _ (List.mem_singleton_self _)).symm _ _

/-- A directory, with its entries in it. -/
theorem there_dir {p : Path} {mode : Nat} {t : Times} {es : Entries}
    (h : There (es.nodes p) (update fs p (some .dir)) fs') : There ((p, .dir mode t) :: es.nodes p) fs fs' := by
  have hp : ∀ x ∈ es.nodes p, x.1 ≠ p := by
    rintro x hx rfl
    obtain ⟨n, -, hn⟩ := es.nodes_under _ x hx
    exact under_self hn
  refine ⟨?_, ?_⟩
  · intro x hx
    rcases List.mem_cons.mp hx with rfl | hx
    · show fs' p = some .dir
      rw [h.others p hp, Function.update_self]
    · exact h.holds x hx
  · intro q hq
    rw [h.others q (fun x hx => hq x (List.mem_cons_of_mem _ hx))]
    exact Function.update_of_ne (hq _ List.mem_cons_self).symm _ _

/-- One after the other, at different paths. -/
theorem there_append {l l' : List (Path × Node)} (h : There l fs fs') (h' : There l' fs' fs'')
    (hne : ∀ x ∈ l, ∀ y ∈ l', y.1 ≠ x.1) : There (l ++ l') fs fs'' := by
  refine ⟨?_, ?_⟩
  · intro x hx
    rcases List.mem_append.mp hx with hx | hx
    · rw [h'.others x.1 (hne x hx)]
      exact h.holds x hx
    · exact h'.holds x hx
  · intro q hq
    rw [h'.others q (fun x hx => hq x (List.mem_append_right _ hx)),
      h.others q (fun x hx => hq x (List.mem_append_left _ hx))]

theorem child_of_ne_nil (ha : a ≠ []) (n : Path) : child a n = a ++ SLASH :: n := by
  rw [child, if_neg ha, List.append_assoc]
  rfl

/-- What is below the other names is none of the tree's. -/
theorem other_names {n : Name} {rest : Entries} (hnew : n.bytes ∉ rest.names) (t : Tree) :
    ∀ m ∈ rest.names, ∀ q, Under (a ++ SLASH :: m) q → ∀ x ∈ t.nodes (below a n), x.1 ≠ q := by
  rintro m hm q hq x hx rfl
  have hmn := under_unique n.proper.slash (rest.names_slash m hm) (t.nodes_under _ x hx) hq
  exact hnew (hmn ▸ hm)

/-- In a new directory nothing is below its entries' names. -/
theorem free_entries {p : Path} (hfree : ∀ q, Under p q → fs q = none) (n q : Path) (hq : Under (p ++ SLASH :: n) q) :
    update fs p (some .dir) q = none := by
  have hne : q ≠ p := by
    rintro rfl
    exact under_self hq
  rw [Function.update_of_ne hne]
  exact hfree q (under_below hq)

theorem child_ne_nil (ha : a ≠ []) (n : Path) : child a n ≠ [] := by
  rw [child_of_ne_nil ha]
  exact List.append_ne_nil_of_left_ne_nil ha _

theorem child_last (ha : a ≠ []) (name : Path) (n : Name) : child a (last (below name n)) = below a n := by
  rw [last_below, child_of_ne_nil ha]
  rfl

mutual
theorem source_tree (hstrerror : Strerror conf) (t : Tree) {name : Path}
    {a : Path} {callers : List Caller} {fs : Fs} {c : Conn Fs} (ha : a ≠ []) (h : Ready a callers fs c)
    (hfits : ∀ x ∈ t.nodes name, Fits conf x.1 x.2) (hcan : iamremote = true ∨ ∀ x ∈ t.nodes name, Readable x.2)
    (hnul : NUL ∉ last name) (hdistinct : t.Distinct) (hfree : ∀ q, Under (child a (last name)) q → fs q = none) :
    ∃ fs' c', t.source posix conf iamremote name c = some c' ∧ Ready a callers fs' c' ∧
      There (t.nodes (child a (last name))) fs fs' := by
  have hnone := hfree _ (under_refl _)
  cases t with
  | file f =>
    obtain ⟨c', content, hsend, hready, hholds⟩ :=
      sendFile_ready hstrerror h (hfits (name, .file f) List.mem_cons_self)
        (hcan.imp_right fun hall => hall (name, .file f) List.mem_cons_self) hnul hnone
    exact ⟨_, c', hsend, hready, there_file hholds⟩
  | dir mode t es =>
    apply sendDir_ready h (hfits (name, .dir mode t) List.mem_cons_self) hnul hnone
    intro callers' c' hready
    obtain ⟨fs'', c'', hsend, hready', hthere⟩ :=
      source_entries hstrerror es (child_ne_nil ha _) hready (fun x hx => hfits x (List.mem_cons_of_mem _ hx))
        (hcan.imp_right fun hall x hx => hall x (List.mem_cons_of_mem _ hx)) hdistinct (fun n _ => free_entries hfree n)
    exact ⟨fs'', c'', hsend, hready', there_dir hthere⟩

theorem source_entries (hstrerror : Strerror conf) (es : Entries)
    {name : Path} {a : Path} {callers : List Caller} {fs : Fs} {c : Conn Fs} (ha : a ≠ []) (h : Ready a callers fs c)
    (hfits : ∀ x ∈ es.nodes name, Fits conf x.1 x.2) (hcan : iamremote = true ∨ ∀ x ∈ es.nodes name, Readable x.2)
    (hdistinct : es.Distinct) (hfree : ∀ n ∈ es.names, ∀ q, Under (a ++ SLASH :: n) q → fs q = none) :
    ∃ fs' c', es.source posix conf iamremote name c = some c' ∧ Ready a callers fs' c' ∧ There (es.nodes a) fs fs' := by
  cases es with
  | nil => exact ⟨fs, c, rfl, h, List.forall_mem_nil _, fun _ _ => rfl⟩
  | cons n t rest =>
    obtain ⟨hnew, htree, hrest⟩ := hdistinct
    have hchild : child a (last (below name n)) = below a n := child_last ha name n
    obtain ⟨fs1, c1, hsend, h1, hthere⟩ := source_tree hstrerror t ha h
      (fun x hx => hfits x (List.mem_append_left _ hx))
      (hcan.imp_right fun hall x hx => hall x (List.mem_append_left _ hx)) (last_below name n ▸ n.nul) htree
      (by rw [hchild]; exact hfree n.bytes List.mem_cons_self)
    rw [hchild] at hthere
    have hother := other_names hnew t (a := a)
    obtain ⟨fs2, c2, hsend', h2, hthere'⟩ := source_entries hstrerror rest ha h1
      (fun x hx => hfits x (List.mem_append_right _ hx))
      (hcan.imp_right fun hall x hx => hall x (List.mem_append_right _ hx)) hrest (by
        intro m hm q hq
        rw [hthere.others q (hother m hm q hq)]
        exact hfree m (List.mem_cons_of_mem _ hm) q hq)
    refine ⟨fs2, c2, ?_, h2, there_append hthere hthere' ?_⟩
    · rw [Entries.source, hsend]
      exact hsend'
    · intro x hx y hy heq
      obtain ⟨m, hm, hu⟩ := rest.nodes_under a y hy
      exact hother m hm y.1 hu x hx heq.symm
end

mutual
/-- A local rcp comes as far as the first read that fails. -/
theorem tree_unreadable (hstrerror : Strerror conf) (t : Tree) {name : Path}
    {a : Path} {callers : List Caller} {fs : Fs} {c : Conn Fs} (ha : a ≠ []) (h : Ready a callers fs c)
    (hfits : ∀ x ∈ t.nodes name, Fits conf x.1 x.2) (hfails : ∃ x ∈ t.nodes name, ¬ Readable x.2)
    (hnul : NUL ∉ last name) (hdistinct : t.Distinct) (hfree : ∀ q, Under (child a (last name)) q → fs q = none) :
    t.source posix conf false name c = none := by
  have hnone := hfree _ (under_refl _)
  obtain ⟨x, hx, hfails⟩ := hfails
  cases t with
  | file f =>
    obtain rfl := List.mem_singleton.mp hx
    obtain ⟨d, hsend, -⟩ : ∃ d, c.sendFile posix conf false name f = _ ∧ _ :=
      sendFile_sent h (hfits (name, .file f) hx) hnul hnone
    rw [Tree.source, hsend, sendData_unreadable hfails, Option.bind_none]
  | dir mode t es =>
    obtain ⟨caller, d, hsent, -, -, hready⟩ :=
      sendDir_sent h (hfits (name, .dir mode t) List.mem_cons_self) hnul hnone
    rcases List.mem_cons.mp hx with rfl | hx
    · exact absurd trivial hfails
    rw [Tree.source, hsent, entries_unreadable hstrerror es (child_ne_nil ha _) hready
      (fun x hx => hfits x (List.mem_cons_of_mem _ hx)) ⟨x, hx, hfails⟩ hdistinct (fun n _ => free_entries hfree n),
      Option.bind_none]

theorem entries_unreadable (hstrerror : Strerror conf) (es : Entries)
    {name : Path} {a : Path} {callers : List Caller} {fs : Fs} {c : Conn Fs} (ha : a ≠ []) (h : Ready a callers fs c)
    (hfits : ∀ x ∈ es.nodes name, Fits conf x.1 x.2) (hfails : ∃ x ∈ es.nodes name, ¬ Readable x.2)
    (hdistinct : es.Distinct) (hfree : ∀ n ∈ es.names, ∀ q, Under (a ++ SLASH :: n) q → fs q = none) :
    es.source posix conf false name c = none := by
  cases es with
  | nil =>
    obtain ⟨x, hx, -⟩ := hfails
    cases hx
  | cons n t rest =>
    obtain ⟨hnew, htree, hrest⟩ := hdistinct
    have hchild : child a (last (below name n)) = below a n := child_last ha name n
    have hfirst : ∀ q, Under (child a (last (below name n))) q → fs q = none := by
      rw [hchild]
      exact hfree n.bytes List.mem_cons_self
    have hnul : NUL ∉ last (below name n) := last_below name n ▸ n.nul
    have hfit : ∀ x ∈ t.nodes (below name n), Fits conf x.1 x.2 := fun x hx => hfits x (List.mem_append_left _ hx)
    by_cases hall : ∀ x ∈ t.nodes (below name n), Readable x.2
    · obtain ⟨fs1, c1, hsend, h1, hthere⟩ : ∃ fs1 c1, t.source posix conf false (below name n) c = some c1 ∧ _ :=
        source_tree hstrerror t ha h hfit (Or.inr hall) hnul htree hfirst
      rw [hchild] at hthere
      have hlater : ∃ x ∈ rest.nodes name, ¬ Readable x.2 := by
        obtain ⟨x, hx, hfails⟩ := hfails
        exact ⟨x, (List.mem_append.mp hx).resolve_left fun hx => hfails (hall x hx), hfails⟩
      rw [Entries.source, hsend, Option.bind_some]
      refine entries_unreadable hstrerror rest ha h1 (fun x hx => hfits x (List.mem_append_right _ hx)) hlater hrest ?_
      intro m hm q hq
      rw [hthere.others q (other_names hnew t m hm q hq)]
      exact hfree m (List.mem_cons_of_mem _ hm) q hq
    · push Not at hall
      rw [Entries.source, tree_unreadable hstrerror t ha h hfit hall hnul htree hfirst, Option.bind_none]
end

/-! ## What sink can make -/

/-- Every path that is new is one that sink has named, and no new file is longer than an int
    holds. -/
def Made (fs : Fs) (touched : List (Op × Path)) (fs' : Fs) : Prop :=
  ∀ p, fs p = none → fs' p ≠ none →
    p ∈ touched.map Prod.snd ∧ ∀ content, fs' p = some (.file content) → content.length < 2 ^ 31

theorem made_touch {l : List (Op × Path)} (h : Made fs l fs') (t : Op × Path) : Made fs (l ++ [t]) fs' := by
  intro p hp hp'
  obtain ⟨hmem, hlen⟩ := h p hp hp'
  rw [List.map_append]
  exact ⟨List.mem_append_left _ hmem, hlen⟩

theorem made_update {l : List (Op × Path)} (h : Made fs l fs') {p : Path} {e : Entry}
    (hp : fs p = none → p ∈ l.map Prod.snd ∧ ∀ content, e = .file content → content.length < 2 ^ 31) :
    Made fs l (update fs' p (some e)) := by
  intro q hq hq'
  by_cases heq : q = p
  · subst heq
    obtain ⟨hmem, hlen⟩ := hp hq
    rw [Function.update_self]
    exact ⟨hmem, fun content hc => hlen content (Option.some.inj hc)⟩
  · rw [Function.update_of_ne heq] at hq' ⊢
    exact h q hq hq'

theorem made_respects (fs : Fs) : Sink.Respects posix (Made fs) := by
  have hmem : ∀ (l : List (Op × Path)) (op : Op) (p : Path), p ∈ (l ++ [(op, p)]).map Prod.snd := by
    intro l op p
    rw [List.map_append]
    exact List.mem_append_right _ (List.mem_singleton_self p)
  refine { chmod := ?_, mkdir := ?_, creat := ?_, write := ?_, ftruncate := ?_, fchmod := ?_, utimes := ?_ }
  · exact fun _ _ _ _ h => made_touch h _
  · intro l fs' p mode h
    simp only [posix]
    split
    · refine made_update (made_touch h _) (fun _ => ⟨hmem l _ p, ?_⟩)
      intro _ hdir
      cases hdir
    · exact made_touch h _
  · intro l fs' p mode h
    simp only [posix]
    split
    · refine made_update (made_touch h _) (fun _ => ⟨hmem l _ p, ?_⟩)
      rintro _ ⟨⟩
      decide
    · exact made_touch h _
    · exact made_touch h _
  · intro l fs' p offset buf hroom h
    simp only [posix]
    split
    · rename_i content hfile
      refine made_update h ?_
      intro hp
      obtain ⟨hold, hlen⟩ := h p hp (by rw [hfile]; exact Option.some_ne_none _)
      refine ⟨hold, ?_⟩
      rintro _ ⟨⟩
      have := hlen content hfile
      rw [length_overwrite]
      omega
    · exact h
  · intro l fs' p size hsize h
    simp only [posix]
    split
    · split
      · exact made_touch h _
      · refine made_update (made_touch h _) (fun _ => ⟨hmem l _ p, ?_⟩)
        rintro _ ⟨⟩
        rw [length_resize]
        omega
    · exact made_touch h _
  · exact fun _ _ _ _ h => made_touch h _
  · exact fun _ _ _ _ h => made_touch h _

/-- Nothing is at the place of the tree in the directory. -/
structure Target (targ : Path) (root : Name) (fs : Fs) : Prop where
  ne_nil : targ ≠ []
  dir : fs targ = some .dir
  free : ∀ q, Under (child targ root.bytes) q → fs q = none

theorem notMem_flatMap {names : List Path} (h : ∀ n ∈ names, LF ∉ n) : LF ∉ names.flatMap (SLASH :: ·) := by
  intro hm
  obtain ⟨n, hn, hm⟩ := List.mem_flatMap.mp hm
  rcases List.mem_cons.mp hm with heq | hm
  · exact absurd heq (by decide)
  · exact h n hn hm

theorem named_of_reproduced {name targ : Path} {root : Name} {t : Tree} {buffer : Nat → UInt8}
    (hlast : last name = root.bytes) (htarget : Target targ root fs)
    (h : Reproduced iamremote conf name t targ fs buffer) :
    (∀ x ∈ t.nodes root.bytes, LF ∉ x.1) ∧
      ∀ x ∈ t.nodes root.bytes, ∀ f, x.2 = .file f → f.content.length < 2 ^ 31 := by
  obtain ⟨c, hcopy, -, hthere⟩ := h
  obtain ⟨l, hrun⟩ := copyTree_run hcopy
  have hinv : Sink.Inv (Made fs) targ c.sink := by
    rw [hrun]
    exact Sink.inv_inputs (made_respects fs) (Sink.inv_start targ (fun p hp hp' => absurd hp hp')) l
  rw [hlast] at hthere
  have hnodes : t.nodes (child targ root.bytes) = (t.nodes root.bytes).map fun x => (targ ++ [SLASH] ++ x.1, x.2) := by
    rw [← t.nodes_append, child_of_ne_nil htarget.ne_nil, List.append_assoc]
    rfl
  -- a node that has come has been made under its path
  have hmade : ∀ x ∈ t.nodes root.bytes, Holds x.2 (c.sink.fs (targ ++ [SLASH] ++ x.1)) ∧
      targ ++ [SLASH] ++ x.1 ∈ c.sink.touched.map Prod.snd ∧
      ∀ content, c.sink.fs (targ ++ [SLASH] ++ x.1) = some (.file content) → content.length < 2 ^ 31 := by
    intro x hx
    have hmem : (targ ++ [SLASH] ++ x.1, x.2) ∈ t.nodes (child targ root.bytes) := by
      rw [hnodes]
      exact List.mem_map_of_mem hx
    have hfree := htarget.free _ (t.nodes_under _ _ hmem)
    have hholds := hthere.holds _ hmem
    exact ⟨hholds, hinv.files _ hfree hholds.ne_none⟩
  refine ⟨?_, ?_⟩
  · intro x hx
    obtain ⟨-, htouched, -⟩ := hmade x hx
    obtain ⟨y, hy, hpath⟩ := List.mem_map.mp htouched
    obtain ⟨names, hnames, hnamed, -⟩ := hinv.touched y hy
    rw [hpath, foldl_child htarget.ne_nil, List.append_assoc] at hnames
    have htail : [SLASH] ++ x.1 = names.flatMap (SLASH :: ·) := List.append_cancel_left hnames
    intro hm
    apply notMem_flatMap (fun n hn => (hinv.named n (hnamed n hn)).2)
    rw [← htail]
    exact List.mem_append_right _ hm
  · intro x hx f hnode
    obtain ⟨hholds, -, hshort⟩ := hmade x hx
    rw [hnode] at hholds
    obtain ⟨content, hcontent, hlen, -⟩ := hholds
    rw [← hlen]
    exact hshort content hcontent

/-! ## Reproduction -/

/-- What the sending system promises: the tree has been opened by these paths, no name is twice
    in a directory, and the messages of rcp are lines. -/
structure Openable (conf : Conf) (dir : Path) (root : Name) (t : Tree) : Prop where
  dirname : Dirname dir
  distinct : t.Distinct
  path : ∀ x ∈ t.nodes (dir ++ root.bytes), x.1.length < PATH_MAX
  times : conf.pflag = true → ∀ x ∈ t.nodes (dir ++ root.bytes), (times x.2).Fits
  strerror : Strerror conf
  message : ∀ x ∈ t.nodes (dir ++ root.bytes), ¬ Readable x.2 → LF ∉ dir

theorem fits_of_openable {dir : Path} {root : Name} {t : Tree} (ho : Openable conf dir root t)
    (honeLine : ∀ x ∈ t.nodes root.bytes, LF ∉ x.1)
    (hsmall : ∀ x ∈ t.nodes root.bytes, ∀ f, x.2 = .file f → f.content.length < 2 ^ 31) :
    ∀ x ∈ t.nodes (dir ++ root.bytes), Fits conf x.1 x.2 := by
  intro x hx
  have hpath := ho.path x hx
  have htimes : conf.pflag = true → (times x.2).Fits := fun hp => ho.times hp x hx
  have hmessage := ho.message x hx
  rw [t.nodes_append, List.mem_map] at hx
  obtain ⟨y, hy, rfl⟩ := hx
  have hline := honeLine y hy
  refine ⟨?_, hpath, hsmall y hy, ?_, htimes⟩
  · rw [last_dirname ho.dirname]
    intro hm
    apply hline
    exact List.mem_reverse.mp ((List.takeWhile_sublist _).subset (List.mem_reverse.mp hm))
  · intro hfails
    rw [List.mem_append, not_or]
    exact ⟨hmessage hfails, hline⟩

theorem ready_start (conf : Conf) {targ : Path} (h : fs targ = some .dir) (buffer : Nat → UInt8) :
    ∃ c, Conn.response ⟨.start posix conf targ fs, 0, buffer, 0, true⟩ = some (true, c) ∧ Ready targ [] fs c := by
  obtain ⟨hwaits, hreplies⟩ : Sink.Waits targ [] (Sink.start posix conf targ fs) ∧
      Sink.Replies fs _ (Sink.start posix conf targ fs) :=
    Sink.call_dir (s := ⟨fs, ⟨targ, false, true, false, ⟨0, 0, 0, 0⟩⟩, [], .line [], 0, [], [], [], []⟩) h
  exact response_ready (c := ⟨.start posix conf targ fs, 0, buffer, 0, true⟩) rfl hreplies.out rfl hwaits hreplies.fs

theorem last_root {dir : Path} {root : Name} {t : Tree} (ho : Openable conf dir root t) :
    last (dir ++ root.bytes) = root.bytes := by
  rw [last_dirname ho.dirname, last_component root.proper.slash]

theorem nul_root {dir : Path} {root : Name} {t : Tree} (ho : Openable conf dir root t) : NUL ∉ last (dir ++ root.bytes) := by
  rw [last_root ho]
  exact root.nul

theorem free_root {dir targ : Path} {root : Name} {t : Tree} (ho : Openable conf dir root t) (htarget : Target targ root fs) :
    ∀ q, Under (child targ (last (dir ++ root.bytes))) q → fs q = none := by
  rw [last_root ho]
  exact htarget.free

theorem readable_append (t : Tree) (dir : Path) (root : Name) :
    (∀ x ∈ t.nodes (dir ++ root.bytes), Readable x.2) ↔ ∀ x ∈ t.nodes root.bytes, Readable x.2 := by
  rw [t.nodes_append]
  exact List.forall_mem_map

theorem readable_of_reproduced {dir targ : Path} {root : Name} {t : Tree} {buffer : Nat → UInt8}
    (ho : Openable conf dir root t) (htarget : Target targ root fs)
    (h : Reproduced false conf (dir ++ root.bytes) t targ fs buffer) : ∀ x ∈ t.nodes root.bytes, Readable x.2 := by
  obtain ⟨honeLine, hsmall⟩ := named_of_reproduced (last_root ho) htarget h
  obtain ⟨c, hresponse, hready⟩ := ready_start conf htarget.dir buffer
  obtain ⟨c', hcopy, -⟩ := h
  rw [copyTree, hresponse] at hcopy
  by_contra hfails
  rw [← readable_append t dir root] at hfails
  push Not at hfails
  have hnone := tree_unreadable ho.strerror t htarget.ne_nil hready (fits_of_openable ho honeLine hsmall) hfails
    (nul_root ho) ho.distinct (free_root ho htarget)
  simp only [Option.bind_some, Bool.true_eq_false, if_false, hnone, Option.map_none, reduceCtorEq] at hcopy

/-- Whatever the tree, the contents of its files and the reads of them that fail. -/
theorem tree_reproduced (iamremote : Bool) (conf : Conf) (dir : Path) (root : Name) (t : Tree)
    (ho : Openable conf dir root t) (targ : Path) (fs : Fs) (htarget : Target targ root fs) (buffer : Nat → UInt8) :
    Reproduced iamremote conf (dir ++ root.bytes) t targ fs buffer ↔ Sendable iamremote root t := by
  constructor
  · intro h
    obtain ⟨honeLine, hsmall⟩ := named_of_reproduced (last_root ho) htarget h
    refine ⟨honeLine, hsmall, ?_⟩
    cases iamremote with
    | true => exact Or.inl rfl
    | false => exact Or.inr (readable_of_reproduced ho htarget h)
  · intro h
    obtain ⟨c, hresponse, hready⟩ := ready_start conf htarget.dir buffer
    obtain ⟨fs', c', hsource, hready', hthere⟩ := source_tree ho.strerror t htarget.ne_nil hready
      (fits_of_openable ho h.oneLine h.small) (h.readable.imp_right (readable_append t dir root).mpr)
      (nul_root ho) ho.distinct (free_root ho htarget)
    have hclosed : c'.sink.closed posix conf none = { c'.sink with phase := .returned } := by
      unfold Sink.closed
      rw [hready'.waits.phase, hready'.waits.callers]
      simp only [List.length_nil, Sink.rets, Sink.ret, hready'.waits.callers]
    refine ⟨{ c' with sink := c'.sink.closed posix conf none }, ?_, ?_, ?_⟩
    · rw [copyTree, hresponse]
      simp only [Option.bind_some, Bool.true_eq_false, if_false, hsource, Option.map_some]
    · rw [hclosed]
      exact ⟨hready'.inStep, hready'.read, rfl⟩
    · rw [hclosed]
      show There _ fs c'.sink.fs
      rw [hready'.fs]
      exact hthere

/-- An empty directory, and nothing else. -/
def emptyDir (targ : Path) : Fs := update (fun _ => none) targ (some .dir)

theorem target_emptyDir {targ : Path} (h : targ ≠ []) (root : Name) : Target targ root (emptyDir targ) := by
  refine ⟨h, Function.update_self _ _ _, ?_⟩
  intro q hq
  refine Function.update_of_ne ?_ _ _
  rintro rfl
  rw [child_of_ne_nil h] at hq
  exact under_self hq

def nameD : Name := ⟨text "d", by decide, by decide⟩
def nameA : Name := ⟨text "a", by decide, by decide⟩
def nameB : Name := ⟨text "b", by decide, by decide⟩

/-- d/a, and d/b with a read that fails. -/
def twoFiles : Tree :=
  .dir 0o755 ⟨0, 0, 0, 0⟩ (.cons nameA (.file ⟨0o644, ⟨0, 0, 0, 0⟩, text "hi", none⟩)
    (.cons nameB (.file ⟨0o644, ⟨0, 0, 0, 0⟩, text "ho", some (0, .errno EIO)⟩) .nil))

theorem openable_two_files : Openable plainConf [] nameD twoFiles := by
  have hdistinct : twoFiles.Distinct := ⟨by decide, trivial, by decide, trivial, trivial⟩
  have hstrerror : Strerror plainConf := fun _ => ⟨List.not_mem_nil, Nat.zero_le _⟩
  exact ⟨Or.inl rfl, hdistinct, by decide, nofun, hstrerror, fun _ _ _ => List.not_mem_nil⟩

theorem tree_reproduced_two_files :
    Reproduced true plainConf (text "d") twoFiles (text "t") (emptyDir (text "t")) (fun _ => 0) := by
  have hsend : Sendable true nameD twoFiles := by
    refine ⟨by decide, ?_, Or.inl rfl⟩
    intro x hx f hf
    rcases List.mem_cons.mp hx with rfl | hx
    · cases hf
    rcases List.mem_cons.mp hx with rfl | hx
    · cases hf
      decide
    obtain rfl := List.mem_singleton.mp hx
    cases hf
    decide
  exact (tree_reproduced true plainConf [] nameD twoFiles openable_two_files (text "t") _
    (target_emptyDir (by decide) nameD) _).mpr hsend

/-- Of a file of 2^31 bytes sink reads the size as a negative number, and of the name "a\nb" it
    reads the "a"; and a local rcp ends at the read that fails. -/
theorem not_reproduced :
    ¬ Reproduced true plainConf (text "a") (.file ⟨0o644, ⟨0, 0, 0, 0⟩, List.replicate (2 ^ 31) 0, none⟩) (text "t")
        (emptyDir (text "t")) (fun _ => 0) ∧
      ¬ Reproduced true plainConf (text "a\nb") (.file ⟨0o644, ⟨0, 0, 0, 0⟩, [], none⟩) (text "t") (emptyDir (text "t"))
        (fun _ => 0) ∧
      ¬ Reproduced false plainConf (text "d") twoFiles (text "t") (emptyDir (text "t")) (fun _ => 0) := by
  refine ⟨?_, ?_, ?_⟩
  · intro h
    have hlast : last (text "a") = nameA.bytes := rfl
    obtain ⟨-, hsmall⟩ := named_of_reproduced hlast (target_emptyDir (by decide) nameA) h
    have hshort := hsmall _ List.mem_cons_self _ rfl
    rw [List.length_replicate] at hshort
    exact absurd hshort (Nat.lt_irrefl _)
  · intro h
    have hlast : last (text "a\nb") = (⟨text "a\nb", by decide, by decide⟩ : Name).bytes := rfl
    obtain ⟨honeLine, -⟩ := named_of_reproduced hlast (target_emptyDir (by decide) _) h
    exact absurd (honeLine _ List.mem_cons_self) (by decide)
  · intro h
    have hall := readable_of_reproduced openable_two_files (target_emptyDir (by decide) nameD) h
    have hfile := hall (text "d/b", .file ⟨0o644, ⟨0, 0, 0, 0⟩, text "ho", some (0, .errno EIO)⟩)
      (List.mem_cons_of_mem _ (List.mem_cons_of_mem _ List.mem_cons_self)) 0 _ rfl
    exact absurd hfile (by decide)

end Netutils.Session.RcpTree
