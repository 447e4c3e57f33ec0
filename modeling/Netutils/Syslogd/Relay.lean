/-
  Netutils.Syslogd.Relay — what the syslogd that messages are forwarded to makes of them
  (syslogd/syslogd.c: logmsg and fprintlog here, printline and logmsg there).

  A destination of type F_FORW and a file with the same selectors go through the same states, if
  every message has a facility that there is a mask for: behind the masks each finds something
  else. So with every message forwarded there is one datagram for each line that the file would
  get, and the other syslogd takes it apart into the date and the text of that line
  (`forwarded_log`): a date that fprintlog puts in front of a text is one that logmsg finds there.
-/

import Netutils.Syslogd.Forward

namespace Netutils.Syslogd.Relay

open Netutils.Arpa Netutils.Libc
open Netutils.Lib.Transition (run run_sim)
open Forward (Datagram Forw Options)

/-! ## A datagram -/

/-- The characters of ctime that lasttime has room for, as in "Jan  1 00:00:00". -/
structure Stamp (t : Str) : Prop where
  length : t.length = 15
  spaces : t[3]? = some space ∧ t[6]? = some space
  colons : t[9]? = some colon ∧ t[12]? = some colon
  clean : ∀ b ∈ t, isClean b = true

/-- `"<%d>%.15s "` has no more characters. -/
def header : Nat := 22

/-- What the other syslogd logs for a datagram is the line, its control characters visible; the
    priority is that of the messages if the header has it. -/
structure Carries (st : Settings) (now : Int) (host : Str) (d : Datagram) (l : Line) : Prop where
  heard : (printline false d.line).calls.map (fun s => ((s.call now host).timestamp st, (s.call now host).text)) =
    [(l.lasttime, encode l.text)]
  inside : (printline false d.line).stores ≤ MAXLINE + 1
  pri : d.Right → ∀ p ∈ d.of, ∀ s ∈ (printline false d.line).calls, s.pri = userPri p

theorem encodeChar_clean {c : UInt8} (hc : isClean c = true) : encodeChar c = [c] := by
  simp only [isClean, Bool.or_eq_true, Bool.not_eq_true', beq_iff_eq, decide_eq_true_eq] at hc
  unfold encodeChar
  rcases hc with (hc | rfl) | hc
  · rw [hc, if_neg Bool.false_ne_true]
  · decide
  · have hlf : c ≠ LF := by
      rintro rfl
      exact absurd hc (by decide)
    have htab : c ≠ tab := by
      rintro rfl
      exact absurd hc (by decide)
    rw [if_neg hlf, if_neg htab, if_pos hc, ite_self]

theorem encode_clean {t : Str} (ht : ∀ c ∈ t, isClean c = true) : encode t = t := by
  induction t with
  | nil => rfl
  | cons c t ih =>
    rw [encode_cons, encodeChar_clean (ht c List.mem_cons_self), ih fun d hd => ht d (List.mem_cons_of_mem c hd)]
    rfl

theorem length_le_encode (t : Str) : t.length ≤ (encode t).length := by
  induction t with
  | nil => exact Nat.le_refl 0
  | cons c t ih =>
    rw [encode_cons, List.length_append, List.length_cons]
    have hc := length_encodeChar c
    omega

section datagram

variable {f : Filed} {text : Str}

theorem line_eq (hstamp : Stamp f.lasttime) (hpri : f.prevpri < 0x400) (hroom : (encode text).length + header ≤ MAXLINE) :
    Forward.line f text = less :: (decimal f.prevpri ++ greater :: (f.lasttime ++ space :: text)) := by
  have hlen := length_le_encode text
  have hdigits : (decimal f.prevpri).length ≤ 4 := length_decimal (by decide) (by omega)
  have hlast := hstamp.length
  rw [Forward.line, List.take_of_length_le (Nat.le_of_eq hlast), List.take_of_length_le]
  simp only [List.length_cons, List.length_append, hlast]
  rw [header] at hroom
  omega

theorem afterPri_line (n : Nat) (t : Str) : afterPri (less :: (decimal n ++ greater :: t)) = t := by
  have hgreater : (greater :: t).head?.all (!isdigit ·) = true := rfl
  obtain ⟨-, hdrop⟩ := span_append (s := decimal n) (fun b hb => isdigit_decimal hb) hgreater
  rw [afterPri, List.head?_cons, if_pos rfl, List.tail_cons, hdrop]
  rfl

/-- The number in front is the priority, if it is one. -/
theorem priority_of_number {t : Str} {p : Nat} (h : numberOf t = some p) (hp : p < 0x400) : priority DEFUPRI t = p := by
  rw [← priNumber_eq] at h
  obtain ⟨v, hv, rfl⟩ := Option.map_eq_some_iff.mp h
  have hmask := (masked_iff v).not.mpr (Nat.not_le.mpr hp)
  rw [priority, hv, Option.map_some, Option.getD_some, orDefault, if_neg hmask]

/-- The date stands where logmsg looks for it. -/
theorem dated_call (hstamp : Stamp f.lasttime) (now : Int) (pri : Nat) (host : Str) (t : Str) (st : Settings) :
    let c : Call := { now, pri, msg := f.lasttime ++ space :: t, host, flags := {} }
    c.timestamp st = f.lasttime ∧ c.text = t := by
  intro c
  have hlast := hstamp.length
  obtain ⟨h3, h6⟩ := hstamp.spaces
  obtain ⟨h9, h12⟩ := hstamp.colons
  have hinside : ∀ i < 15, c.msg[i]? = f.lasttime[i]? := fun i hi => List.getElem?_append_left (by rw [hlast]; exact hi)
  have hspace : c.msg[15]? = some space := by
    rw [show c.msg = f.lasttime ++ space :: t from rfl, List.getElem?_append_right (Nat.le_of_eq hlast), hlast]
    rfl
  have hlen : 16 ≤ c.msg.length := by
    rw [show c.msg = f.lasttime ++ space :: t from rfl, List.length_append, List.length_cons, hlast]
    omega
  have hdate : c.addDate = false := by
    rw [Call.addDate, Call.dated, hinside 3 (by decide), hinside 6 (by decide), hinside 9 (by decide),
      hinside 12 (by decide), h3, h6, h9, h12, hspace, decide_eq_true hlen]
    rfl
  constructor
  · rw [Call.timestamp, hdate, if_neg Bool.false_ne_true, List.take_append_of_le_length (Nat.le_of_eq hlast.symm),
      List.take_of_length_le (Nat.le_of_eq hlast)]
  · rw [Call.text, hdate, if_neg Bool.false_ne_true, show c.msg = f.lasttime ++ ([space] ++ t) from rfl, ← List.append_assoc]
    exact List.drop_left' (by rw [List.length_append, hlast]; rfl)

theorem carries_line (hstamp : Stamp f.lasttime) (hpri : f.prevpri < 0x400) (hroom : (encode text).length + header ≤ MAXLINE)
    (st : Settings) (now : Int) (host source : Str) (of : List Nat) :
    Carries st now host ⟨Forward.line f text, of⟩ ⟨f.lasttime, source, text⟩ := by
  have hlast := hstamp.length
  have hencode : encode (f.lasttime ++ space :: text) = f.lasttime ++ space :: encode text := by
    rw [encode_append, encode_clean hstamp.clean]
    rfl
  have hfit : (encode (f.lasttime ++ space :: text)).length ≤ MAXLINE := by
    rw [hencode, List.length_append, List.length_cons, hlast]
    rw [header] at hroom
    omega
  have hcopy : copyLine 0 (afterPri (Forward.line f text)) = f.lasttime ++ space :: encode text := by
    rw [line_eq hstamp hpri hroom, afterPri_line]
    obtain ⟨a, b, h⟩ := copyLine_copies (f.lasttime ++ space :: text) 0
    rw [h.stored, h.whole hfit, hencode]
  have hcalls : (printline false (Forward.line f text)).calls =
      [{ pri := userPri (priority DEFUPRI (Forward.line f text)), msg := f.lasttime ++ space :: encode text }] := by
    simp only [printline, hcopy]
    rfl
  refine ⟨?_, ?_, ?_⟩
  · obtain ⟨htime, htext⟩ := dated_call hstamp now (userPri (priority DEFUPRI (Forward.line f text))) host (encode text) st
    rw [hcalls]
    exact congrArg (fun x => [x]) (Prod.ext htime htext)
  · simp only [printline, hcopy]
    rw [← hencode]
    exact Nat.succ_le_succ hfit
  · intro hright p hp s hs
    have hnumber := hright p hp
    have hsame : p = f.prevpri := Option.some.inj (hnumber.symm.trans (Forward.numberOf_line (by omega) text))
    rw [printline_pri false _ s hs, priority_of_number hnumber (by omega)]

end datagram

/-! ## The two destinations -/

/-- The file that is in the state of the other destination, with these lines in it. -/
def asFile (f : Forw) (written : List Line) : Filed := { f.filed with written := written }

theorem asFile_prevcount (f : Forw) (w : List Line) : (asFile f w).prevcount = f.filed.prevcount := rfl

theorem asFile_repeatTime (f : Forw) (w : List Line) : (asFile f w).repeatTime = f.filed.repeatTime := rfl

/-- What has been sent is what the file has; what has been saved can be sent. There are `n` messages
    still to come. -/
structure Mirrors (st : Settings) (now : Int) (host : Str) (n : Nat) (f : Forw) (written : List Line) : Prop where
  saved : f.filed.prevline.take f.filed.prevlen = f.filed.prevline
  room : (encode f.filed.prevline).length + header ≤ MAXLINE
  pri : f.filed.prevpri < 0x400
  stamp : f.filed.prevcount ≠ 0 → Stamp f.filed.lasttime
  count : f.filed.prevcount + n < 2 ^ 31
  sent : List.Forall₂ (Carries st now host) f.sent written

/-- The facility has a mask; the text of a message fits a datagram behind its header, and its date,
    if it has one of its own, is a text. -/
structure Good (c : Call) : Prop where
  known : c.fac < LOG_NFACILITIES + 1
  room : (encode c.text).length + header ≤ MAXLINE
  pri : c.pri < 0x400
  clean : c.addDate = false → ∀ b ∈ c.msg.take 15, isClean b = true

/-- The messages of an event. -/
def GoodEvent : Event → Prop
  | .logmsg c => Good c
  | .domark _ _ => True

/-- The same event at another destination, which may have something else behind its masks. -/
inductive SameEvent : Event → Event → Prop
  | logmsg (c : Call) (behind : UInt8) : SameEvent (.logmsg c) (.logmsg { c with behind })
  | domark (now later : Int) : SameEvent (.domark now later) (.domark now later)

theorem SameEvent.refl (e : Event) : SameEvent e e := by
  cases e with
  | logmsg c => exact .logmsg c c.behind
  | domark now later => exact .domark now later

/-- What is behind the masks does not count for a facility that has one. -/
theorem step_same {st : Settings} {e e' : Event} (h : SameEvent e e') (hgood : GoodEvent e) (s : State) :
    s.step st e' = s.step st e := by
  cases h with
  | domark now later => rfl
  | logmsg c behind =>
    have hadmits : s.file.admits { c with behind } = s.file.admits c := by
      rw [Filed.admits, Filed.admits, if_pos hgood.known]
      exact if_pos hgood.known
    rw [State.step, Filed.logmsg, hadmits]
    rfl

theorem run_same {st : Settings} {es es' : List Event} (h : List.Forall₂ SameEvent es es') (hgood : ∀ e ∈ es, GoodEvent e)
    (s : State) : run (next st) es' s = run (next st) es s := by
  induction h generalizing s with
  | nil => rfl
  | cons he _ ih =>
    have hstep : s.step st _ = s.step st _ := step_same he (hgood _ List.mem_cons_self) s
    have hrest := fun t => ih (fun e he => hgood e (List.mem_cons_of_mem _ he)) t
    simp only [run, next, hstep, Option.bind_some, hrest]

theorem stamp_timestamp {st : Settings} {c : Call} (hdate : ∀ now, Stamp ((st.date now).take 15)) (hc : Good c) :
    Stamp (c.timestamp st) := by
  rw [Call.timestamp]
  cases hadd : c.addDate with
  | true => exact hdate c.now
  | false =>
    rw [if_neg Bool.false_ne_true]
    have hdated : c.dated = true := by
      rw [Call.addDate, Bool.or_eq_false_iff, Bool.not_eq_false'] at hadd
      exact hadd.2
    simp only [Call.dated, Bool.and_eq_true, decide_eq_true_eq, beq_iff_eq] at hdated
    obtain ⟨⟨⟨⟨⟨hlen, h3⟩, h6⟩, h9⟩, h12⟩, -⟩ := hdated
    have hfirst : ∀ i < 15, (c.msg.take 15)[i]? = c.msg[i]? := fun i hi => List.getElem?_take_of_lt hi
    refine ⟨?_, ?_, ?_, hc.clean hadd⟩
    · rw [List.length_take]
      omega
    · rw [hfirst 3 (by decide), hfirst 6 (by decide)]
      exact ⟨h3, h6⟩
    · rw [hfirst 9 (by decide), hfirst 12 (by decide)]
      exact ⟨h9, h12⟩

theorem room_nil : (encode []).length + header ≤ MAXLINE := by decide

/-- A notice has room. -/
theorem room_repeated {n : Nat} (hn : n < 2 ^ 31) : (encode (repeated n)).length + header ≤ MAXLINE := by
  have hdigits : (decimal n).length ≤ 10 := length_decimal (by decide) (by omega)
  have hclean : ∀ b ∈ repeated n, isClean b = true := by
    have hends : (repeatedHead ++ repeatedTail).all isClean = true := by decide
    intro b hb
    rw [repeated, List.append_assoc, List.mem_append, List.mem_append] at hb
    rcases hb with hb | hb | hb
    · exact List.all_eq_true.mp hends b (List.mem_append_left _ hb)
    · have hdigit := isdigit_decimal hb
      simp only [isdigit, Bool.and_eq_true, decide_eq_true_eq, UInt8.le_iff_toNat_le] at hdigit
      have hcntrl : iscntrl b = false := by
        have hlow : 0x30 ≤ b.toNat ∧ b.toNat ≤ 0x39 := hdigit
        rw [iscntrl, Bool.or_eq_false_iff]
        refine ⟨decide_eq_false fun h => ?_, beq_eq_false_iff_ne.mpr ?_⟩
        · have h : b.toNat < 0x20 := UInt8.lt_iff_toNat_lt.mp h
          omega
        · rintro rfl
          exact absurd hlow (by decide)
      rw [isClean, hcntrl]
      rfl
    · exact List.all_eq_true.mp hends b (List.mem_append_right _ hb)
  have hhead : repeatedHead.length = 22 := by decide
  have htail : repeatedTail.length = 6 := by decide
  rw [encode_clean hclean, repeated, List.length_append, List.length_append, hhead, htail, header, MAXLINE]
  omega

section simulation

variable {o : Options} {st : Settings} {now : Int} {host : Str} {n : Nat} {f : Forw} {w : List Line} {c : Call}

theorem Mirrors.fprintlog (h : Mirrors st now host n f w) {source : Str} (hall : o.forwards source = true)
    (hstamp : Stamp f.filed.lasttime) {msg : Option Str} (hmsg : (encode (f.text msg)).length + header ≤ MAXLINE)
    (time : Int) (of : List Nat) :
    ∃ v, (asFile f w).fprintlog time msg = asFile (f.fprintlog o time source of msg) v ∧
      Mirrors st now host n (f.fprintlog o time source of msg) v := by
  have hcarries := carries_line hstamp h.pri hmsg st now host (f.filed.prevhost.getD []) of
  refine ⟨w ++ [⟨f.filed.lasttime, f.filed.prevhost.getD [], f.text msg⟩], ?_, ?_⟩
  · have htext : ((asFile f w).fprintlog time msg).written =
        w ++ [⟨f.filed.lasttime, f.filed.prevhost.getD [], f.text msg⟩] := by
      cases msg with
      | some msg => rfl
      | none =>
        show w ++ [⟨_, _, if 1 < f.filed.prevcount then _ else f.filed.prevline.take f.filed.prevlen⟩] = _
        rw [h.saved]
        rfl
    rw [← htext, Forw.fprintlog, hall, if_pos rfl]
    rfl
  · rw [Forw.fprintlog, hall, if_pos rfl]
    have hcount := h.count
    exact ⟨h.saved, h.room, h.pri, fun hne => absurd rfl hne, by simp only; omega,
      List.rel_append h.sent (.cons hcarries .nil)⟩

theorem Mirrors.room_text (h : Mirrors st now host n f w) : (encode (f.text none)).length + header ≤ MAXLINE := by
  show (encode (if 1 < f.filed.prevcount then _ else _)).length + header ≤ MAXLINE
  have hcount := h.count
  split
  · exact room_repeated (by omega)
  · exact h.room

theorem Mirrors.backoff (h : Mirrors st now host n f w) : Mirrors st now host n f.backoff w :=
  ⟨h.saved, h.room, h.pri, h.stamp, h.count, h.sent⟩

theorem Mirrors.weaken (h : Mirrors st now host (n + 1) f w) : Mirrors st now host n f w :=
  ⟨h.saved, h.room, h.pri, h.stamp, by have := h.count; omega, h.sent⟩

theorem Mirrors.flush (h : Mirrors st now host n f w) {source : Str} (hall : o.forwards source = true) (time : Int) :
    ∃ v, (asFile f w).flush time = asFile (f.flush o time source) v ∧ Mirrors st now host n (f.flush o time source) v := by
  rw [Filed.flush, Forw.flush, asFile_prevcount]
  by_cases hcount : f.filed.prevcount ≠ 0
  · rw [if_pos hcount, if_pos hcount]
    exact h.fprintlog hall (h.stamp hcount) h.room_text _ _
  · rw [if_neg hcount, if_neg hcount]
    exact ⟨w, rfl, h⟩

/-- A short message is saved, of a long one only that it has been sent. -/
theorem Mirrors.save (h : Mirrors st now host n f w) (hall : o.forwards c.host = true) (hstamp : Stamp (c.timestamp o.st))
    (hc : Good c) :
    ∃ v, (asFile f w).save o.st c = asFile (f.save o c) v ∧ Mirrors st now host n (f.save o c) v := by
  rw [Filed.save, Forw.save]
  by_cases hshort : c.text.length < MAXSVLINE
  · simp only [if_pos hshort]
    have hsaved : Mirrors st now host n { f with filed := { f.filed with
        repeatcount := 0, lasttime := c.timestamp o.st, prevhost := some c.host, prevlen := c.text.length,
        prevpri := c.pri, prevline := c.text } } w :=
      ⟨List.take_length, hc.room, hc.pri, fun _ => hstamp, h.count, h.sent⟩
    exact hsaved.fprintlog hall hstamp hsaved.room_text _ _
  · simp only [if_neg hshort]
    have hsaved : Mirrors st now host n { f with filed := { f.filed with
        repeatcount := 0, lasttime := c.timestamp o.st, prevhost := some c.host, prevline := [], prevlen := 0 } } w :=
      ⟨rfl, room_nil, h.pri, fun _ => hstamp, h.count, h.sent⟩
    refine hsaved.fprintlog hall hstamp ?_ _ _
    exact hc.room

theorem Mirrors.logmsg (h : Mirrors st now host (n + 1) f w) (hall : ∀ source, o.forwards source = true)
    (hstamp : Stamp (c.timestamp o.st)) (hc : Good c) :
    ∃ v, (asFile f w).logmsg o.st c = asFile (f.logmsg o c) v ∧ Mirrors st now host n (f.logmsg o c) v := by
  have hadmits : (asFile f w).admits c = f.filed.admits c := rfl
  have hwithholds : (asFile f w).withholds o.st c = f.filed.withholds o.st c := rfl
  have hrepeat : (asFile f w).isRepeat c = f.filed.isRepeat c := rfl
  rw [Filed.logmsg, Forw.logmsg, hadmits, hwithholds, hrepeat]
  cases f.filed.admits c with
  | false => exact ⟨w, rfl, h.weaken⟩
  | true =>
    cases f.filed.withholds o.st c with
    | true => exact ⟨w, rfl, h.weaken⟩
    | false =>
      cases f.filed.isRepeat c with
      | true =>
        have hcounted : Mirrors st now host n (f.count o c) w := by
          have hcount := h.count
          exact ⟨h.saved, h.room, h.pri, fun _ => hstamp, by simp only [Forw.count, Filed.count]; omega, h.sent⟩
        obtain ⟨v, hv, hmirrors⟩ := hcounted.fprintlog (hall c.host) hstamp hcounted.room_text c.now (f.count o c).counted
        have hsame : (asFile f w).count o.st c = asFile (f.count o c) w := rfl
        simp only [Bool.not_true, Bool.false_eq_true, if_false, if_true, hsame]
        rw [asFile_repeatTime]
        by_cases hlate : (f.count o c).filed.repeatTime < c.now
        · rw [if_pos hlate, if_pos hlate, hv]
          exact ⟨v, rfl, hmirrors.backoff⟩
        · rw [if_neg hlate, if_neg hlate]
          exact ⟨w, rfl, hcounted⟩
      | false =>
        obtain ⟨v, hv, hflushed⟩ := h.weaken.flush (hall c.host) c.now
        simp only [Bool.not_true, Bool.false_eq_true, if_false, hv]
        exact hflushed.save (hall c.host) hstamp hc

theorem Mirrors.tick (h : Mirrors st now host n f w) (hall : ∀ source, o.forwards source = true) (time : Int) :
    ∃ v, (asFile f w).tick time = asFile (f.tick o time) v ∧ Mirrors st now host n (f.tick o time) v := by
  rw [Filed.tick, Forw.tick, asFile_prevcount, asFile_repeatTime]
  by_cases hdue : f.filed.prevcount ≠ 0 ∧ f.filed.repeatTime ≤ time
  · rw [if_pos hdue, if_pos hdue]
    obtain ⟨v, hv, hmirrors⟩ := h.fprintlog (hall o.st.LocalHostName) (h.stamp hdue.1) h.room_text time f.counted
    rw [hv]
    exact ⟨v, rfl, hmirrors.backoff⟩
  · rw [if_neg hdue, if_neg hdue]
    exact ⟨w, rfl, h⟩

/-! ## All events -/

/-- Two daemons, one with each destination, that have these events still before them. -/
def Alike (st : Settings) (now : Int) (host : Str) (es : List Event) (s : Forward.State) (t : State) : Prop :=
  s.MarkSeq = t.MarkSeq ∧ (∀ e ∈ es, GoodEvent e) ∧ ∃ w, t.file = asFile s.forw w ∧ Mirrors st now host es.length s.forw w

theorem good_mark (later : Int) : Good (State.mark o.st later) :=
  have hknown : LOG_NFACILITIES < LOG_NFACILITIES + 1 := by decide
  have hlength : (encode (text "-- MARK --")).length + header ≤ MAXLINE := by decide
  ⟨hknown, hlength, (by decide : LOG_INFO < 0x400), nofun⟩

theorem alike_step (hall : ∀ source, o.forwards source = true) (hdate : ∀ now, Stamp ((o.st.date now).take 15)) {e : Event}
    {es : List Event} {s : Forward.State} {t : State} (h : Alike st now host (e :: es) s t) :
    Alike st now host es (s.step o e) (t.step o.st e) := by
  obtain ⟨f, MarkSeq⟩ := s
  obtain ⟨g, MarkSeq'⟩ := t
  obtain ⟨hmark, hgood, w, hw, hmirrors⟩ := h
  obtain rfl : MarkSeq = MarkSeq' := hmark
  obtain rfl : g = asFile f w := hw
  have hrest : ∀ x ∈ es, GoodEvent x := fun x hx => hgood x (List.mem_cons_of_mem e hx)
  cases e with
  | logmsg c =>
    have hc : Good c := hgood _ List.mem_cons_self
    obtain ⟨v, hv, hnext⟩ := hmirrors.logmsg hall (stamp_timestamp hdate hc) hc
    exact ⟨rfl, hrest, v, hv, hnext⟩
  | domark time later =>
    rw [Forward.State.step, State.step]
    have hmarks : State.marks o.st ⟨asFile f w, MarkSeq⟩ = Forward.State.marks o ⟨f, MarkSeq⟩ := rfl
    rw [hmarks]
    cases Forward.State.marks o ⟨f, MarkSeq⟩ with
    | true =>
      have hc := @good_mark o later
      obtain ⟨v, hv, hnext⟩ := hmirrors.logmsg hall (stamp_timestamp hdate hc) hc
      obtain ⟨u, hu, hticked⟩ := hnext.tick hall later
      refine ⟨rfl, hrest, u, ?_, hticked⟩
      show ((asFile f w).logmsg o.st (State.mark o.st later)).tick later = _
      rw [hv, hu]
      rfl
    | false =>
      obtain ⟨v, hv, hticked⟩ := hmirrors.weaken.tick hall time
      exact ⟨rfl, hrest, v, hv, hticked⟩

end simulation

/-- Where every message is forwarded, the other syslogd logs what a file with the same selectors has
    here: the same dates and texts, one for each line and in their order, and with the priority of
    the messages where the header has it. -/
theorem forwarded_log (o : Options) (hall : ∀ source, o.forwards source = true) (hdate : ∀ now, Stamp ((o.st.date now).take 15))
    (pmask : Pmask) (MarkSeq : Nat) {es es' : List Event} (hes : ∀ e ∈ es, GoodEvent e)
    (hsame : List.Forall₂ SameEvent es es') (hlen : es.length < 2 ^ 31) (st : Settings) (now : Int) (host : Str) :
    ∃ u v, run (Forward.next o) es (Forward.State.init pmask MarkSeq) = some u ∧
      run (next o.st) es' (State.init pmask MarkSeq) = some v ∧
      List.Forall₂ (Carries st now host) u.forw.sent v.file.written := by
  rw [run_same hsame hes]
  have hstart : Alike st now host es (Forward.State.init pmask MarkSeq) (State.init pmask MarkSeq) :=
    ⟨rfl, hes, [], rfl, rfl, room_nil, (by decide : 0 < 0x400), fun hne => absurd rfl hne,
      (by omega : 0 + es.length < 2 ^ 31), .nil⟩
  have htotal : ∀ (es : List Event) (s : Forward.State), ∃ u, run (Forward.next o) es s = some u := by
    intro es
    induction es with
    | nil => exact fun s => ⟨s, rfl⟩
    | cons e es ih => exact fun s => ih (s.step o e)
  obtain ⟨u, hu⟩ := htotal es (Forward.State.init pmask MarkSeq)
  obtain ⟨v, hv, halike⟩ : ∃ v, run (next o.st) es (State.init pmask MarkSeq) = some v ∧ Alike st now host [] u v := by
    refine run_sim (R := Alike st now host) (fun e es s s' t h hs => ?_) hstart hu
    obtain rfl := Option.some.inj hs
    exact ⟨_, rfl, alike_step hall hdate h⟩
  obtain ⟨-, -, w, hw, hmirrors⟩ := halike
  refine ⟨u, v, hu, hv, ?_⟩
  rw [hw]
  exact hmirrors.sent

instance (t : Str) : Decidable (Stamp t) :=
  decidable_of_iff (t.length = 15 ∧ (t[3]? = some space ∧ t[6]? = some space) ∧
      (t[9]? = some colon ∧ t[12]? = some colon) ∧ t.all isClean)
    ⟨fun ⟨h₁, h₂, h₃, h₄⟩ => ⟨h₁, h₂, h₃, List.all_eq_true.mp h₄⟩,
      fun h => ⟨h.length, h.spaces, h.colons, List.all_eq_true.mpr h.clean⟩⟩

instance (c : Call) : Decidable (Good c) :=
  decidable_of_iff (c.fac < LOG_NFACILITIES + 1 ∧ (encode c.text).length + header ≤ MAXLINE ∧ c.pri < 0x400 ∧
      (c.addDate = false → (c.msg.take 15).all isClean))
    ⟨fun ⟨h₁, h₂, h₃, h₄⟩ => ⟨h₁, h₂, h₃, fun h => List.all_eq_true.mp (h₄ h)⟩,
      fun h => ⟨h.known, h.room, h.pri, fun hdate => List.all_eq_true.mpr (h.clean hdate)⟩⟩

/-- Everything is forwarded, and it is always the same second. -/
def always : Options := ⟨⟨text "h", 20 * 60, fun _ => text "Jan  1 00:00:00 1970"⟩, false, false, true⟩

/-- The second of three messages that are one is counted when the time is over, and told. -/
theorem forwarded_log_three :
    ∃ u v, run (Forward.next always) Forward.three (Forward.State.init everything 0) = some u ∧
      run (next always.st) Forward.three (State.init everything 0) = some v ∧ v.file.written.length = 3 ∧
      List.Forall₂ (Carries always.st 0 (text "g")) u.forw.sent v.file.written := by
  have hall : ∀ source, always.forwards source = true := by
    intro source
    simp [Options.forwards, always]
  have hdate : Stamp ((text "Jan  1 00:00:00 1970").take 15) := by decide +kernel
  have hfirst : Good { now := 0, pri := 14, msg := text "a", host := text "h", flags := {} } := by decide
  have hlast : Good { now := 0, pri := 11, msg := text "b", host := text "h", flags := {} } := by decide
  have hes : ∀ e ∈ Forward.three, GoodEvent e := by
    intro e he
    simp only [Forward.three, List.mem_cons, List.not_mem_nil, or_false] at he
    rcases he with rfl | rfl | rfl | rfl
    exacts [hfirst, hfirst, trivial, hlast]
  obtain ⟨u, v, hu, hv, hlog⟩ := forwarded_log always hall (fun _ => hdate) everything 0 hes
    (List.forall₂_same.mpr fun e _ => .refl e) (by decide) always.st 0 (text "g")
  refine ⟨u, v, hu, hv, ?_, hlog⟩
  obtain rfl := Option.some.inj hv
  decide +kernel

end Netutils.Syslogd.Relay
