/-
  Netutils.Syslogd.Forward — the priorities of forwarded messages (syslogd/syslogd.c, logmsg and
  fprintlog for a destination of type F_FORW), with every send succeeding.

  The header of a datagram is f_prevpri. A long message is sent without being saved, so that it
  goes with the priority of the last short one; and a repeat is told by its text and host alone,
  so that it is sent with the priority of the message it repeats. As long as no message comes
  so with another priority, every datagram has that of its messages, and where everything is
  forwarded only then (`priorities_iff`).
-/

import Netutils.Lib.Transition
import Netutils.Syslogd.Duplicates
import Netutils.Syslogd.Printline

namespace Netutils.Syslogd.Forward

open Netutils.Libc
open Netutils.Lib.Transition (Meets run run_inv_meets)

/-! ## State -/

structure Datagram where
  line : Str
  /-- The priorities of the messages that it is sent for. -/
  of : List Nat
  deriving DecidableEq

structure Forw where
  filed : Filed
  /-- The priorities of the messages that prevcount counts. -/
  counted : List Nat := []
  /-- What has been sent. -/
  sent : List Datagram := []

structure Options where
  st : Settings
  NoHops : Bool
  NoForward : Bool
  /-- There is a socket. -/
  finet : Bool

variable (o : Options)

/-! ## One destination -/

def Options.forwards (host : Str) : Bool :=
  !(!strcaseeq host o.st.LocalHostName && o.NoHops) && !o.NoForward && o.finet

/-- `"<%d>%.15s %s"`, as far as there is room. -/
def line (f : Filed) (text : Str) : Str :=
  (less :: (decimal f.prevpri ++ greater :: (f.lasttime.take 15 ++ space :: text))).take MAXLINE

namespace Forw

/-- `iov[4]` -/
def text (f : Forw) : Option Str → Str
  | some msg => msg
  | none => if 1 < f.filed.prevcount then repeated f.filed.prevcount else f.filed.prevline

/-- fprintlog, for messages of the priorities `of`; `host` is `from`. -/
def fprintlog (now : Int) (host : Str) (of : List Nat) (msg : Option Str) (f : Forw) : Forw :=
  let f :=
    if o.forwards host then
      { f with filed := { f.filed with time := now }, sent := f.sent ++ [⟨line f.filed (f.text msg), of⟩] }
    else f
  { f with filed := { f.filed with prevcount := 0 }, counted := [] }

/-- BACKOFF -/
def backoff (f : Forw) : Forw := { f with filed := f.filed.backoff }

/-- The duplicate is counted. -/
def count (f : Forw) (c : Call) : Forw := { f with filed := f.filed.count o.st c, counted := f.counted ++ [c.pri] }

/-- What has been counted is sent. -/
def flush (now : Int) (host : Str) (f : Forw) : Forw :=
  if f.filed.prevcount ≠ 0 then f.fprintlog o now host f.counted none else f

/-- "New line, save it." -/
def save (f : Forw) (c : Call) : Forw :=
  let filed := { f.filed with repeatcount := 0, lasttime := c.timestamp o.st, prevhost := some c.host }
  if c.text.length < MAXSVLINE then
    fprintlog o c.now c.host [c.pri] none
      { f with filed := { filed with prevlen := c.text.length, prevpri := c.pri, prevline := c.text } }
  else fprintlog o c.now c.host [c.pri] (some c.text) { f with filed := { filed with prevline := [], prevlen := 0 } }

/-- logmsg, as far as this destination goes -/
def logmsg (f : Forw) (c : Call) : Forw :=
  if !f.filed.admits c then f
  else if f.filed.withholds o.st c then f
  else if f.filed.isRepeat c then
    let f := f.count o c
    if f.filed.repeatTime < c.now then (f.fprintlog o c.now c.host f.counted none).backoff else f
  else (f.flush o c.now c.host).save o c

/-- The flush of domark, behind the mark. -/
def tick (now : Int) (f : Forw) : Forw :=
  if f.filed.prevcount ≠ 0 ∧ f.filed.repeatTime ≤ now then
    (f.fprintlog o now o.st.LocalHostName f.counted none).backoff
  else f

end Forw

/-! ## The daemon -/

structure State where
  forw : Forw
  MarkSeq : Nat := 0

namespace State

/-- It is time for a mark. -/
def marks (s : State) : Bool := 0 < o.st.MarkInterval && o.st.MarkInterval ≤ s.MarkSeq + TIMERINTVL

/-- The call of logmsg in an event. -/
def call (s : State) : Event → Option Call
  | .logmsg c => some c
  | .domark _ later => if s.marks o then some (State.mark o.st later) else none

def step (s : State) : Event → State
  | .logmsg c => { s with forw := s.forw.logmsg o c }
  | .domark now later =>
    if s.marks o then ⟨(s.forw.logmsg o (State.mark o.st later)).tick o later, 0⟩
    else ⟨s.forw.tick o now, if 0 < o.st.MarkInterval then s.MarkSeq + TIMERINTVL else s.MarkSeq⟩

/-- A destination as cfline leaves it, at any point between two marks. -/
def init (pmask : Pmask) (MarkSeq : Nat) : State := ⟨{ filed := { pmask } }, MarkSeq⟩

end State

/-- The steps, as those of a transition system. -/
def next (e : Event) (s : State) : Option State := some (s.step o e)

/-! ## What the header is to be -/

/-- The header, as printline reads it, has the priority of each message that is sent with it. -/
def Datagram.Right (d : Datagram) : Prop := ∀ p ∈ d.of, numberOf d.line = some p

/-- What the priority of a message is to be if the header cannot be its own. -/
def Allowed (f : Forw) (c : Call) : Prop :=
  f.filed.admits c = true → f.filed.withholds o.st c = false →
    (f.filed.isRepeat c = true → c.pri = f.filed.prevpri) ∧
    (f.filed.isRepeat c = false → MAXSVLINE ≤ c.text.length → o.forwards c.host = true → c.pri = f.filed.prevpri)

def Keeps (e : Event) (s : State) : Prop := ∀ c, s.call o e = some c → Allowed o s.forw c

/-- A priority is an int. -/
def IsInt : Event → Prop
  | .logmsg c => c.pri < 2 ^ 31
  | .domark _ _ => True

/-! ## One send -/

variable {o} {f g h : Forw} {c : Call} {ok ok' : Prop}

theorem numberOf_line {f : Filed} (hpri : f.prevpri < 2 ^ 31) (text : Str) : numberOf (line f text) = some f.prevpri := by
  have hlen : (decimal f.prevpri).length ≤ 10 := length_decimal (by decide) (by omega)
  have hline : line f text = less :: (decimal f.prevpri ++ greater ::
      (f.lasttime.take 15 ++ space :: text).take (MAXLINE - 2 - (decimal f.prevpri).length)) := by
    have hroom : MAXLINE - 1 - (decimal f.prevpri).length = MAXLINE - 2 - (decimal f.prevpri).length + 1 := by
      rw [MAXLINE]
      omega
    rw [line, show MAXLINE = MAXLINE - 1 + 1 from rfl, List.take_succ_cons, List.take_append,
      List.take_of_length_le (by rw [MAXLINE]; omega), hroom, List.take_succ_cons]
    rfl
  rw [hline, numberOf, List.head?_cons, if_pos rfl, List.tail_cons, (span_append (fun c hc => isdigit_decimal hc) rfl).1,
    number_decimal, Nat.mod_eq_of_lt (by omega)]

structure Books (f : Forw) : Prop where
  pri : f.filed.prevpri < 2 ^ 31
  counted : f.counted.length = f.filed.prevcount

/-- What has been sent is right, and what has been counted will be. -/
def Own (f : Forw) : Prop := (∀ d ∈ f.sent, d.Right) ∧ ∀ p ∈ f.counted, p = f.filed.prevpri

theorem Books.counted_nil (hf : Books f) (hzero : f.filed.prevcount = 0) : f.counted = [] :=
  List.length_eq_zero_iff.mp (hf.counted.trans hzero)

theorem books_fprintlog (hpri : f.filed.prevpri < 2 ^ 31) (now : Int) (host : Str) (of : List Nat) (msg : Option Str) :
    Books (f.fprintlog o now host of msg) := by
  rw [Forw.fprintlog]
  split <;> exact ⟨hpri, rfl⟩

/-- The header is right for the messages whose priority is the saved one. -/
theorem own_fprintlog (hpri : f.filed.prevpri < 2 ^ 31) (now : Int) (host : Str) (of : List Nat) (msg : Option Str) :
    Own (f.fprintlog o now host of msg) ↔
      (∀ d ∈ f.sent, d.Right) ∧ (o.forwards host = true → ∀ p ∈ of, p = f.filed.prevpri) := by
  have hdone : ∀ p ∈ ([] : List Nat), p = f.filed.prevpri := nofun
  cases hforwards : o.forwards host with
  | true =>
    have hright : ∀ text, Datagram.Right ⟨line f.filed text, of⟩ ↔ ∀ p ∈ of, p = f.filed.prevpri := by
      intro text
      simp only [Datagram.Right, numberOf_line hpri, Option.some.injEq]
      exact forall₂_congr fun p _ => eq_comm
    rw [Own, Forw.fprintlog]
    simp only [hforwards, if_true, List.forall_mem_append, List.forall_mem_singleton, hright, forall_const]
    exact and_iff_left hdone
  | false =>
    rw [Own, Forw.fprintlog]
    simp only [hforwards, Bool.false_eq_true, if_false, false_implies, and_true]
    exact and_iff_left hdone

/-! ## What a call keeps -/

/-- From `f` to `g` the priorities stay right under the condition `ok`, and where everything is
    forwarded only under it. -/
structure Follows (o : Options) (f g : Forw) (ok : Prop) : Prop where
  books : Books g
  own : Own f → ok → Own g
  only : (∀ host, o.forwards host = true) → Own g → Own f ∧ ok

theorem Follows.refl (hf : Books f) : Follows o f f True := ⟨hf, fun h _ => h, fun _ h => ⟨h, trivial⟩⟩

theorem Follows.trans (hfg : Follows o f g ok) (hgh : Follows o g h ok') : Follows o f h (ok ∧ ok') := by
  refine ⟨hgh.books, fun hf hok => hgh.own (hfg.own hf hok.1) hok.2, fun hall hh => ?_⟩
  obtain ⟨hg, hok'⟩ := hgh.only hall hh
  obtain ⟨hf, hok⟩ := hfg.only hall hg
  exact ⟨hf, hok, hok'⟩

theorem Follows.congr (hfg : Follows o f g ok) (hok : ok ↔ ok') : Follows o f g ok' := propext hok ▸ hfg

theorem Follows.backoff (hfg : Follows o f g ok) : Follows o f g.backoff ok :=
  ⟨⟨hfg.books.pri, hfg.books.counted⟩, hfg.own, hfg.only⟩

theorem follows_fprintlog (hf : Books f) (now : Int) (host : Str) :
    Follows o f (f.fprintlog o now host f.counted none) True := by
  have hown := own_fprintlog (o := o) hf.pri now host f.counted none
  refine ⟨books_fprintlog hf.pri _ _ _ _, fun h _ => hown.mpr ⟨h.1, fun _ => h.2⟩, fun hall h => ⟨?_, trivial⟩⟩
  obtain ⟨hsent, hcounted⟩ := hown.mp h
  exact ⟨hsent, hcounted (hall host)⟩

theorem follows_flush (hf : Books f) (now : Int) (host : Str) : Follows o f (f.flush o now host) True := by
  rw [Forw.flush]
  split
  · exact follows_fprintlog hf now host
  · exact Follows.refl hf

theorem flush_filed (now : Int) (host : Str) :
    (f.flush o now host).filed.prevcount = 0 ∧ (f.flush o now host).filed.prevpri = f.filed.prevpri := by
  rw [Forw.flush]
  split
  · rw [Forw.fprintlog]
    split <;> exact ⟨rfl, rfl⟩
  · rename_i hzero
    exact ⟨not_not.mp hzero, rfl⟩

theorem follows_count (hf : Books f) : Follows o f (f.count o c) (c.pri = f.filed.prevpri) := by
  have hown : Own (f.count o c) ↔ Own f ∧ c.pri = f.filed.prevpri := by
    rw [Own, Own, and_assoc]
    simp only [Forw.count, Filed.count, List.forall_mem_append, List.forall_mem_singleton]
  refine ⟨⟨hf.pri, ?_⟩, fun h hok => hown.mpr ⟨h, hok⟩, fun _ h => hown.mp h⟩
  rw [Forw.count, List.length_append, hf.counted]
  rfl

/-- A long message goes with the saved priority. -/
theorem follows_save (hf : Books f) (hzero : f.filed.prevcount = 0) (hpri : c.pri < 2 ^ 31) :
    Follows o f (f.save o c) (MAXSVLINE ≤ c.text.length → o.forwards c.host = true → c.pri = f.filed.prevpri) := by
  have hnil : Own f ↔ ∀ d ∈ f.sent, d.Right := by
    rw [Own, hf.counted_nil hzero]
    exact and_iff_left nofun
  by_cases hlen : c.text.length < MAXSVLINE
  · have hown : Own (f.save o c) ↔ Own f := by
      rw [hnil, Forw.save]
      simp only [if_pos hlen]
      refine (own_fprintlog ?_ _ _ _ _).trans ?_
      · exact hpri
      · exact and_iff_left fun _ p hp => List.mem_singleton.mp hp
    refine ⟨?_, fun h _ => hown.mpr h, fun _ h => ⟨hown.mp h, fun hlong => absurd hlen (Nat.not_lt.mpr hlong)⟩⟩
    rw [Forw.save]
    simp only [if_pos hlen]
    exact books_fprintlog hpri _ _ _ _
  · have hown : Own (f.save o c) ↔ Own f ∧ (o.forwards c.host = true → c.pri = f.filed.prevpri) := by
      rw [hnil, Forw.save]
      simp only [if_neg hlen]
      refine (own_fprintlog ?_ _ _ _ _).trans ?_
      · exact hf.pri
      · simp only [List.forall_mem_singleton]
    refine ⟨?_, fun h hok => hown.mpr ⟨h, hok (Nat.le_of_not_lt hlen)⟩, fun _ h => ⟨(hown.mp h).1, fun _ => (hown.mp h).2⟩⟩
    rw [Forw.save]
    simp only [if_neg hlen]
    apply books_fprintlog
    exact hf.pri

theorem follows_logmsg (hf : Books f) (hpri : c.pri < 2 ^ 31) : Follows o f (f.logmsg o c) (Allowed o f c) := by
  rw [Forw.logmsg, Allowed]
  cases hadmits : f.filed.admits c with
  | false => exact (Follows.refl hf).congr (by simp)
  | true =>
    cases hwith : f.filed.withholds o.st c with
    | true => exact (Follows.refl hf).congr (by simp)
    | false =>
      simp only [Bool.not_true, Bool.false_eq_true, if_false, forall_const]
      cases hrep : f.filed.isRepeat c with
      | true =>
        simp only [if_true, forall_const, Bool.true_eq_false, false_implies, and_true]
        have hcount : Follows o f (f.count o c) (c.pri = f.filed.prevpri) := follows_count hf
        split
        · exact ((hcount.trans (follows_fprintlog hcount.books _ _)).congr (and_iff_left trivial)).backoff
        · exact hcount
      | false =>
        simp only [Bool.false_eq_true, if_false, false_implies, true_and, forall_const]
        have hflush : Follows o f (f.flush o c.now c.host) True := follows_flush hf _ _
        obtain ⟨hzero, hsame⟩ := @flush_filed o f c.now c.host
        have hsave := hflush.trans (follows_save (o := o) hflush.books hzero hpri)
        rw [hsame] at hsave
        exact hsave.congr (Iff.of_eq (true_and _))

theorem follows_tick (hf : Books f) (now : Int) : Follows o f (f.tick o now) True := by
  rw [Forw.tick]
  split
  · exact (follows_fprintlog hf now _).backoff
  · exact Follows.refl hf

/-! ## All events -/

variable {s : State} {e : Event}

theorem follows_step (hs : Books s.forw) (he : IsInt e) : Follows o s.forw (s.step o e).forw (Keeps o e s) := by
  have hkeeps : ∀ {c}, s.call o e = some c → (Allowed o s.forw c ↔ Keeps o e s) := by
    intro c hc
    simp only [Keeps, hc, Option.some.injEq, forall_eq']
  cases e with
  | logmsg c => exact (follows_logmsg hs he).congr (hkeeps rfl)
  | domark now later =>
    rw [State.step]
    cases hmarks : s.marks o with
    | true =>
      have hcall : s.call o (.domark now later) = some (State.mark o.st later) := by rw [State.call, hmarks, if_pos rfl]
      have hmark : Follows o s.forw (s.forw.logmsg o (State.mark o.st later)) _ := follows_logmsg hs (show LOG_INFO < 2 ^ 31 by decide)
      exact (hmark.trans (follows_tick hmark.books later)).congr ((and_iff_left trivial).trans (hkeeps hcall))
    | false =>
      have hcall : s.call o (.domark now later) = none := by rw [State.call, hmarks, if_neg Bool.false_ne_true]
      have hquiet : Keeps o (.domark now later) s := fun c hc => nomatch hcall.symm.trans hc
      exact (follows_tick hs now).congr (iff_of_true trivial hquiet)

theorem follows_run {es : List Event} (hs : Books s.forw) (hes : ∀ e ∈ es, IsInt e) {t : State} (h : run (next o) es s = some t) :
    Follows o s.forw t.forw (Meets (next o) (Keeps o) es s) := by
  induction es generalizing s with
  | nil =>
    obtain rfl := Option.some.inj h
    exact Follows.refl hs
  | cons e es ih =>
    have hstep : Follows o s.forw (s.step o e).forw _ := follows_step hs (hes e List.mem_cons_self)
    have hrest := ih hstep.books (fun x hx => hes x (List.mem_cons_of_mem e hx)) h
    refine (hstep.trans hrest).congr ?_
    simp only [Meets, next, Option.some.injEq, forall_eq']

theorem books_init (pmask : Pmask) (MarkSeq : Nat) : Books (State.init pmask MarkSeq).forw ∧ Own (State.init pmask MarkSeq).forw :=
  ⟨⟨show 0 < 2 ^ 31 by decide, rfl⟩, nofun, nofun⟩

/-- In a run in which no message is counted as a repeat, and no long one forwarded, whose priority
    is not the saved one, every datagram has the priority of its messages. Where everything is
    forwarded, and what is counted in the end sent, this is so in no other run. -/
theorem priorities_iff (o : Options) (pmask : Pmask) (MarkSeq : Nat) (es : List Event) (hes : ∀ e ∈ es, IsInt e) :
    (Meets (next o) (Keeps o) es (State.init pmask MarkSeq) →
      ∀ bs u, bs <+: es → run (next o) bs (State.init pmask MarkSeq) = some u → ∀ d ∈ u.forw.sent, d.Right) ∧
    ((∀ host, o.forwards host = true) → ∀ u now host, run (next o) es (State.init pmask MarkSeq) = some u →
      ((∀ d ∈ (u.forw.flush o now host).sent, d.Right) ↔ Meets (next o) (Keeps o) es (State.init pmask MarkSeq))) := by
  obtain ⟨hbooks, hown⟩ := books_init pmask MarkSeq
  constructor
  · intro hmeets bs u hbs hu
    have hrun := follows_run hbooks (fun e he => hes e (hbs.subset he)) hu
    exact (hrun.own hown (hmeets.initial hbs)).1
  · intro hall u now host hu
    have hrun := follows_run hbooks hes hu
    have hflush : Follows o u.forw (u.forw.flush o now host) True := follows_flush hrun.books now host
    have hempty : (u.forw.flush o now host).counted = [] := hflush.books.counted_nil (flush_filed now host).1
    have hsent : (∀ d ∈ (u.forw.flush o now host).sent, d.Right) ↔ Own (u.forw.flush o now host) := by
      rw [Own, hempty]
      exact (and_iff_left nofun).symm
    rw [hsent]
    exact ⟨fun h => (hrun.only hall (hflush.only hall h).1).2, fun h => hflush.own (hrun.own hown h) trivial⟩

instance (d : Datagram) : Decidable d.Right := inferInstanceAs (Decidable (∀ p ∈ d.of, _ = some p))

instance (f : Forw) (c : Call) : Decidable (Allowed o f c) :=
  inferInstanceAs (Decidable (_ → _ → (_ → _) ∧ (_ → _ → _ → _)))

instance (e : Event) (s : State) : Decidable (Keeps o e s) :=
  decidable_of_iff (∀ c ∈ s.call o e, Allowed o s.forw c) Iff.rfl

instance : DecidablePred IsInt
  | .logmsg c => inferInstanceAs (Decidable (c.pri < 2 ^ 31))
  | .domark _ _ => .isTrue trivial

/-- A message of this priority, from here. -/
def message (pri : Nat) (msg : Str) : Event := .logmsg { now := 0, pri, msg, host := text "h", flags := {} }

/-- The messages from here are forwarded. -/
def local_ : Options := ⟨dateless, true, false, true⟩

/-- Three messages, two of which are one, and the count of the second. -/
def three : List Event := [message 14 (text "a"), message 14 (text "a"), .domark 60 60, message 11 (text "b")]

theorem priorities_three :
    (∀ e ∈ three, IsInt e) ∧ ∀ u, run (next local_) three (State.init everything 0) = some u → ∀ d ∈ u.forw.sent, d.Right :=
  ⟨by decide, fun u hu =>
    (priorities_iff local_ everything 0 three (by decide)).1 (by decide +kernel) three u (List.prefix_refl three) hu⟩

/-- A long message goes with the priority of the one before, and so does one that repeats it. -/
theorem priority_of_the_last :
    (∀ e ∈ [message 14 (text "a"), message 11 (List.replicate MAXSVLINE 0x61)], IsInt e) ∧
    (∃ u, run (next local_) [message 14 (text "a"), message 11 (List.replicate MAXSVLINE 0x61)] (State.init everything 0) = some u ∧
      u.forw.sent.map (fun d => (numberOf d.line, d.of)) = [(some 14, [14]), (some 14, [11])]) ∧
    ∃ u, run (next local_) [message 14 (text "a"), message 11 (text "a"), .domark 60 60] (State.init everything 0) = some u ∧
      u.forw.sent.map (fun d => (numberOf d.line, d.of)) = [(some 14, [14]), (some 14, [11])] := by
  refine ⟨by decide, ⟨_, rfl, ?_⟩, ⟨_, rfl, ?_⟩⟩
  · decide +kernel
  · decide +kernel

end Netutils.Syslogd.Forward
