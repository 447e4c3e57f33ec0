/-
  Netutils.Syslogd.Duplicates — what a log file says about the messages that were not written
  because they repeat the one before (syslogd/syslogd.c, logmsg and fprintlog).

  A line of MAXSVLINE characters or more is written but not saved: an empty line is saved in its
  place. So empty messages behind it count as repeats of the empty line, and the notice about
  two or more of them stands behind the long line. Reading the notices as copies of the line
  before gives the messages back exactly where no second repeat is counted there, and nothing
  is written of a facility that has no mask (`reconstructs_iff`).
-/

import Netutils.Lib.Repeats
import Netutils.Lib.Transition
import Netutils.Syslogd.Logmsg

namespace Netutils.Syslogd

open Netutils.Libc Netutils.Lib.Repeats
open Netutils.Lib.Transition (Meets)

/-! ## Reading the file -/

/-- The number in a notice. -/
def repeatOf (t : Str) : Option Nat :=
  let rest := t.drop repeatedHead.length
  let digits := rest.takeWhile isdigit
  if repeatedHead.isPrefixOf t ∧ digits ≠ [] ∧ rest.dropWhile isdigit = repeatedTail then some (number 10 digits) else none

theorem repeatOf_repeated (n : Nat) : repeatOf (repeated n) = some n := by
  have hdigits : ∀ c ∈ decimal n, isdigit c = true := fun c hc => isdigit_decimal hc
  have hdrop : (repeated n).drop repeatedHead.length = decimal n ++ repeatedTail := by
    rw [repeated, List.append_assoc, List.drop_left]
  have hhead : repeatedHead.isPrefixOf (repeated n) = true := by
    rw [List.isPrefixOf_iff_prefix, repeated, List.append_assoc]
    exact List.prefix_append _ _
  have htail : repeatedTail.head?.all (!isdigit ·) = true := by decide
  obtain ⟨htake, hrest⟩ := span_append hdigits htail
  simp only [repeatOf, hdrop, htake, hrest, hhead, true_and, and_true]
  rw [if_pos (decimal_ne_nil n), number_decimal]

def Line.token (l : Line) : Token (Str × Str) :=
  match repeatOf l.text with
  | some n => .again n
  | none => .item (l.host, l.text)

namespace Filed

def tokens (f : Filed) : List (Token (Str × Str)) := f.written.map Line.token

/-- The lines of the file, each notice replaced by copies of the line before. -/
def shown (f : Filed) : List (Str × Str) := expand f.tokens

/-- The saved line. -/
def line (f : Filed) : Str × Str := (f.prevhost.getD [], f.prevline)

end Filed

/-! ## The messages -/

def Call.record (c : Call) : Str × Str := (c.host, c.text)

variable (st : Settings)

/-- The file is to get the message: no mark that is withheld. -/
def Filed.takes (f : Filed) (c : Call) : Bool := f.admits c && !f.withholds st c

/-- The same by the selectors. -/
def Filed.wants (f : Filed) (c : Call) : Bool := f.selects c && !f.withholds st c

/-- The message of an event, if it passes. -/
def State.message (passes : Filed → Call → Bool) (s : State) (e : Event) : List (Str × Str) :=
  ((s.call st e).filter (passes s.file)).toList.map Call.record

def State.messages (passes : Filed → Call → Bool) : List Event → State → List (Str × Str)
  | [], _ => []
  | e :: es, s => s.message st passes e ++ messages passes es (s.step st e)

/-- No text is one of a notice. -/
def Event.Plain : Event → Prop
  | .logmsg c => repeatOf c.text = none
  | .domark _ _ => True

/-- The last line that is no notice was too long to save. -/
def Filed.LongLast (f : Filed) : Prop := ∃ a, latest f.tokens = some a ∧ MAXSVLINE ≤ a.2.length

/-- The message is counted as a second repeat, or a later one, behind such a line. -/
def Filed.Misleads (f : Filed) (c : Call) : Prop :=
  f.takes st c = true ∧ f.isRepeat c = true ∧ f.prevcount ≠ 0 ∧ f.LongLast

def Tells (e : Event) (s : State) : Prop := ∀ c, s.call st e = some c → ¬ s.file.Misleads st c

/-- What the file gets is what the selectors admit. -/
def Known (e : Event) (s : State) : Prop := ∀ c, s.call st e = some c → s.file.takes st c = true → s.file.selects c = true

/-- No mark that the selectors admit is withheld. -/
def Due (e : Event) (s : State) : Prop := ∀ c, s.call st e = some c → s.file.selects c = true → s.file.withholds st c = false

instance (f : Filed) : Decidable f.LongLast :=
  decidable_of_iff ((latest f.tokens).any fun a => MAXSVLINE ≤ a.2.length) (by simp [Filed.LongLast, Option.any_eq_true])

instance (f : Filed) (c : Call) : Decidable (f.Misleads st c) := inferInstanceAs (Decidable (_ ∧ _ ∧ _ ∧ _))

instance (e : Event) (s : State) : Decidable (Tells st e s) :=
  decidable_of_iff (∀ c ∈ s.call st e, ¬ s.file.Misleads st c) Iff.rfl

instance (e : Event) (s : State) : Decidable (Known st e s) :=
  decidable_of_iff (∀ c ∈ s.call st e, s.file.takes st c = true → s.file.selects c = true) Iff.rfl

/-- The steps, as those of a transition system. -/
def next (e : Event) (s : State) : Option State := some (s.step st e)

/-! ## The invariant -/

/-- `m` are the messages so far. -/
structure Kept (f : Filed) (m : List (Str × Str)) : Prop where
  len : f.prevlen = f.prevline.length
  short : f.prevline.length < MAXSVLINE
  plain : repeatOf f.prevline = none
  idle : f.prevhost = none → f.prevcount = 0
  last : f.prevhost ≠ none → latest f.tokens = some f.line ∨
    f.prevline = [] ∧ ∃ t, latest f.tokens = some (f.line.1, t) ∧ MAXSVLINE ≤ t.length
  counted : ∃ m₀, m = m₀ ++ List.replicate f.prevcount f.line ∧ m₀.length = f.shown.length

/-- The file and the count give the messages back. -/
def Told (f : Filed) (m : List (Str × Str)) : Prop :=
  f.shown ++ List.replicate f.prevcount f.line = m ∧ (2 ≤ f.prevcount → latest f.tokens = some f.line)

variable {f : Filed} {m : List (Str × Str)} {c : Call} {now : Int}

theorem Kept.backoff (h : Kept f m) : Kept f.backoff m := ⟨h.len, h.short, h.plain, h.idle, h.last, h.counted⟩

theorem told_backoff : Told f.backoff m ↔ Told f m := Iff.rfl

/-- The last line is not the saved one exactly where it was too long to save. -/
theorem Kept.latest_iff (h : Kept f m) (hhost : f.prevhost ≠ none) : latest f.tokens = some f.line ↔ ¬ f.LongLast := by
  constructor
  · rintro hline ⟨a, ha, hlong⟩
    obtain rfl := Option.some.inj (hline.symm.trans ha)
    exact absurd h.short (Nat.not_lt.mpr hlong)
  · intro hnot
    rcases h.last hhost with hline | ⟨-, t, ht, hlong⟩
    · exact hline
    · exact absurd ⟨_, ht, hlong⟩ hnot

theorem tokens_fprintlog (msg : Option Str) :
    (f.fprintlog now msg).tokens = f.tokens ++ [Line.token ⟨f.lasttime, f.prevhost.getD [],
      msg.getD (if 1 < f.prevcount then repeated f.prevcount else f.prevline.take f.prevlen)⟩] := by
  cases msg <;> exact List.map_append

theorem token_plain {l : Line} (h : repeatOf l.text = none) : l.token = .item (l.host, l.text) := by
  rw [Line.token, h]

/-- Writing a notice. -/
theorem Kept.fprintlog_notice (h : Kept f m) (hmany : 1 < f.prevcount) (now : Int) :
    Kept (f.fprintlog now none) m ∧ (Told (f.fprintlog now none) m ↔ Told f m) := by
  have hhost : f.prevhost ≠ none := fun hnone => absurd (h.idle hnone) (by omega)
  obtain ⟨m₀, rfl, hlen⟩ := h.counted
  have hagain : (f.fprintlog now none).tokens = f.tokens ++ [.again f.prevcount] := by
    rw [tokens_fprintlog, Option.getD_none, if_pos hmany, Line.token, repeatOf_repeated]
  obtain ⟨a, ha⟩ : ∃ a, latest f.tokens = some a := by
    rcases h.last hhost with hline | ⟨-, t, ht, -⟩
    · exact ⟨_, hline⟩
    · exact ⟨_, ht⟩
  have hshown : (f.fprintlog now none).shown = f.shown ++ copies f.prevcount (some a) := by
    rw [Filed.shown, hagain, expand_concat_again, ha, Filed.shown]
  have hlatest : latest (f.fprintlog now none).tokens = latest f.tokens := by
    rw [hagain, latest_concat_again]
  refine ⟨⟨h.len, h.short, h.plain, fun _ => rfl, ?_, ?_⟩, ?_⟩
  · rw [hlatest]
    exact h.last
  · refine ⟨m₀ ++ List.replicate f.prevcount f.line, (List.append_nil _).symm, ?_⟩
    rw [hshown, List.length_append, List.length_append, hlen, copies_some, List.length_replicate, List.length_replicate]
  · have htold : Told (f.fprintlog now none) (m₀ ++ List.replicate f.prevcount f.line) ↔
        f.shown ++ copies f.prevcount (some a) = m₀ ++ List.replicate f.prevcount f.line := by
      rw [Told, hshown, show (f.fprintlog now none).prevcount = 0 from rfl, List.replicate_zero, List.append_nil]
      exact and_iff_left nofun
    rw [htold, append_copies_inj hlen.symm (by omega), Told, ha, Option.some.injEq, List.append_left_inj]
    exact and_congr_right fun _ => ⟨fun he _ => he, fun he => he hmany⟩

/-- Writing the line itself. -/
theorem Kept.fprintlog_line (h : Kept f m) (hone : f.prevcount = 1) (now : Int) :
    Kept (f.fprintlog now none) m ∧ (Told (f.fprintlog now none) m ↔ Told f m) := by
  obtain ⟨m₀, rfl, hlen⟩ := h.counted
  have hitem : (f.fprintlog now none).tokens = f.tokens ++ [.item f.line] := by
    rw [tokens_fprintlog, Option.getD_none, if_neg (by omega), h.len, List.take_length, token_plain h.plain]
    rfl
  have hshown : (f.fprintlog now none).shown = f.shown ++ [f.line] := by
    rw [Filed.shown, hitem, expand_concat_item, Filed.shown]
  rw [hone, List.replicate_one]
  refine ⟨⟨h.len, h.short, h.plain, fun _ => rfl, fun _ => Or.inl ?_, ?_⟩, ?_⟩
  · rw [hitem, latest_concat_item]
    rfl
  · refine ⟨m₀ ++ [f.line], (List.append_nil _).symm, ?_⟩
    rw [hshown, List.length_append, List.length_append, hlen]
  · rw [Told, Told, hshown, hone, show (f.fprintlog now none).prevcount = 0 from rfl, List.replicate_zero, List.append_nil]
    exact and_congr_right fun _ => ⟨nofun, nofun⟩

theorem Kept.fprintlog (h : Kept f m) (hcount : f.prevcount ≠ 0) (now : Int) :
    Kept (f.fprintlog now none) m ∧ (Told (f.fprintlog now none) m ↔ Told f m) := by
  by_cases hmany : 1 < f.prevcount
  · exact h.fprintlog_notice hmany now
  · exact h.fprintlog_line (by omega) now

theorem Kept.flush (h : Kept f m) (now : Int) :
    Kept (f.flush now) m ∧ (Told (f.flush now) m ↔ Told f m) ∧ (f.flush now).prevcount = 0 := by
  rw [Filed.flush]
  split
  · rename_i hcount
    obtain ⟨hkept, htold⟩ := h.fprintlog hcount now
    exact ⟨hkept, htold, rfl⟩
  · rename_i hcount
    exact ⟨h, Iff.rfl, Decidable.not_not.mp hcount⟩

/-- Counting a message. -/
theorem Kept.count (h : Kept f m) (hrep : f.isRepeat c = true) :
    Kept (f.count st c) (m ++ [c.record]) ∧
      (Told (f.count st c) (m ++ [c.record]) ↔ Told f m ∧ ¬(f.prevcount ≠ 0 ∧ f.LongLast)) := by
  simp only [Filed.isRepeat, Bool.and_eq_true, beq_iff_eq] at hrep
  obtain ⟨⟨-, htext⟩, hfrom⟩ := hrep
  have hhost : f.prevhost ≠ none := fun hnone => nomatch hfrom.trans hnone
  have hrecord : c.record = f.line := by rw [Call.record, Filed.line, ← hfrom, htext, Option.getD_some]
  have hpending : ∀ l : List (Str × Str), l ++ List.replicate (f.prevcount + 1) f.line =
      l ++ List.replicate f.prevcount f.line ++ [f.line] := by
    intro l
    rw [List.replicate_succ', List.append_assoc]
  obtain ⟨m₀, hm, hlen⟩ := h.counted
  rw [hrecord]
  refine ⟨⟨h.len, h.short, h.plain, fun hnone => absurd hnone hhost, h.last, m₀, ?_, hlen⟩, ?_⟩
  · rw [hm]
    exact (hpending m₀).symm
  · have hsame : f.shown ++ List.replicate (f.prevcount + 1) f.line = m ++ [f.line] ↔
        f.shown ++ List.replicate f.prevcount f.line = m := by
      rw [hpending, List.append_left_inj]
    have hlast := h.latest_iff hhost
    show (f.shown ++ List.replicate (f.prevcount + 1) f.line = m ++ [f.line] ∧
      (2 ≤ f.prevcount + 1 → latest f.tokens = some f.line)) ↔ _
    rw [hsame, Told, hlast, and_assoc, not_and]
    refine and_congr_right fun _ => ⟨fun hmore => ⟨fun htwo => hmore (by omega), fun hone => hmore (by omega)⟩, ?_⟩
    exact fun ⟨_, hone⟩ htwo => hone (by omega)

/-- Saving a line that is written. -/
theorem Kept.write {g : Filed} (h : Kept f m) (hcount : f.prevcount = 0) (hlen : g.prevlen = g.prevline.length)
    (hshort : g.prevline.length < MAXSVLINE) (hplain : repeatOf g.prevline = none) (hhost : g.prevhost = some c.host)
    (hzero : g.prevcount = 0) (htokens : g.tokens = f.tokens ++ [.item c.record])
    (hline : g.prevline = c.text ∨ g.prevline = [] ∧ MAXSVLINE ≤ c.text.length) :
    Kept g (m ++ [c.record]) ∧ (Told g (m ++ [c.record]) ↔ Told f m) := by
  have hshown : g.shown = f.shown ++ [c.record] := by rw [Filed.shown, htokens, expand_concat_item, Filed.shown]
  have hlatest : latest g.tokens = some c.record := by rw [htokens, latest_concat_item]
  have hfirst : g.line.1 = c.host := by rw [Filed.line, hhost, Option.getD_some]
  obtain ⟨m₀, hm, hlen₀⟩ := h.counted
  rw [hcount, List.replicate_zero, List.append_nil] at hm
  subst hm
  refine ⟨⟨hlen, hshort, hplain, fun _ => hzero, fun _ => ?_, ?_⟩, ?_⟩
  · rw [hlatest]
    rcases hline with hsame | ⟨hnil, hlong⟩
    · exact Or.inl (congrArg some (Prod.ext hfirst.symm hsame.symm))
    · exact Or.inr ⟨hnil, c.text, congrArg some (Prod.ext hfirst.symm rfl), hlong⟩
  · refine ⟨m ++ [c.record], ?_, ?_⟩
    · rw [hzero, List.replicate_zero, List.append_nil]
    · rw [hshown, List.length_append, List.length_append, hlen₀]
  · simp only [Told, hshown, hzero, hcount, List.replicate_zero, List.append_nil, List.append_left_inj]
    exact and_congr_right fun _ => ⟨nofun, nofun⟩

theorem Kept.save (h : Kept f m) (hcount : f.prevcount = 0) (hplain : repeatOf c.text = none) :
    Kept (f.save st c) (m ++ [c.record]) ∧ (Told (f.save st c) (m ++ [c.record]) ↔ Told f m) := by
  by_cases hlen : c.text.length < MAXSVLINE
  · rw [Filed.save]
    simp only [if_pos hlen]
    refine h.write hcount rfl hlen hplain rfl rfl ?_ (Or.inl rfl)
    rw [tokens_fprintlog, Option.getD_none]
    simp only [hcount, show ¬ 1 < 0 by decide, if_false, List.take_length]
    exact congrArg (f.tokens ++ [·]) (token_plain hplain)
  · rw [Filed.save]
    simp only [if_neg hlen]
    have hnone : repeatOf [] = none := by decide
    have hshort : ([] : Str).length < MAXSVLINE := by decide
    refine h.write hcount rfl hshort hnone rfl rfl ?_ (Or.inr ⟨rfl, Nat.le_of_not_lt hlen⟩)
    rw [tokens_fprintlog, Option.getD_some]
    exact congrArg (f.tokens ++ [·]) (token_plain hplain)

/-! ## One message -/

/-- The message is there, and the file with the count still tells all unless this one misleads. -/
theorem Kept.logmsg (h : Kept f m) (hplain : repeatOf c.text = none) :
    Kept (f.logmsg st c) (m ++ if f.takes st c then [c.record] else []) ∧
      (Told (f.logmsg st c) (m ++ if f.takes st c then [c.record] else []) ↔ Told f m ∧ ¬ f.Misleads st c) := by
  have hskip : f.takes st c = false → f.logmsg st c = f → Kept (f.logmsg st c) (m ++ if f.takes st c then [c.record] else []) ∧
      (Told (f.logmsg st c) (m ++ if f.takes st c then [c.record] else []) ↔ Told f m ∧ ¬ f.Misleads st c) := by
    intro htakes heq
    rw [heq, htakes, if_neg (by decide), List.append_nil]
    have hnot : ¬ f.Misleads st c := fun hmis => Bool.false_ne_true (htakes.symm.trans hmis.1)
    exact ⟨h, (and_iff_left hnot).symm⟩
  cases hadmits : f.admits c with
  | false => exact hskip (by rw [Filed.takes, hadmits]; rfl) (by rw [Filed.logmsg, hadmits]; rfl)
  | true =>
    cases hwith : f.withholds st c with
    | true => exact hskip (by rw [Filed.takes, hadmits, hwith]; rfl) (by rw [Filed.logmsg, hadmits, hwith]; rfl)
    | false =>
      have htakes : f.takes st c = true := by rw [Filed.takes, hadmits, hwith]; rfl
      rw [htakes, if_pos rfl, Filed.Misleads, htakes]
      simp only [Filed.logmsg, hadmits, hwith, Bool.not_true, Bool.false_eq_true, if_false]
      cases hrep : f.isRepeat c with
      | true =>
        obtain ⟨hkept, htold⟩ := h.count st hrep
        simp only [if_true, true_and]
        rw [← htold]
        split
        · obtain ⟨hkept', htold'⟩ := hkept.fprintlog (Nat.succ_ne_zero _) c.now
          exact ⟨hkept'.backoff, told_backoff.trans htold'⟩
        · exact ⟨hkept, Iff.rfl⟩
      | false =>
        obtain ⟨hkept, htold, hzero⟩ := h.flush c.now
        obtain ⟨hsaved, htold'⟩ := hkept.save st hzero hplain
        simp only [Bool.false_eq_true, if_false, false_and, and_false, not_false_iff, and_true]
        exact ⟨hsaved, htold'.trans htold⟩

theorem Kept.tick (h : Kept f m) (now : Int) : Kept (f.tick now) m ∧ (Told (f.tick now) m ↔ Told f m) := by
  rw [Filed.tick]
  split
  · rename_i hdue
    obtain ⟨hkept, htold⟩ := h.fprintlog hdue.1 now
    exact ⟨hkept.backoff, told_backoff.trans htold⟩
  · exact ⟨h, Iff.rfl⟩

/-! ## All events -/

variable {s : State} {e : Event}

theorem mark_plain (st : Settings) (later : Int) : repeatOf (State.mark st later).text = none :=
  show repeatOf (text "-- MARK --") = none by decide

theorem step_kept (h : Kept s.file m) (hplain : e.Plain) :
    Kept (s.step st e).file (m ++ s.message st (Filed.takes st) e) ∧
      (Told (s.step st e).file (m ++ s.message st (Filed.takes st) e) ↔ Told s.file m ∧ Tells st e s) := by
  have hone : ∀ c, (((some c).filter (s.file.takes st)).toList.map Call.record) =
      if s.file.takes st c then [c.record] else [] := by
    intro c
    cases htakes : s.file.takes st c <;> simp [Option.filter, htakes]
  have htells : ∀ {c}, s.call st e = some c → (Tells st e s ↔ ¬ s.file.Misleads st c) := by
    intro c hc
    simp only [Tells, hc, Option.some.injEq, forall_eq']
  cases e with
  | logmsg c =>
    rw [State.message, show s.call st (.logmsg c) = some c from rfl, hone, htells rfl]
    exact h.logmsg st hplain
  | domark now later =>
    rw [State.message, State.step]
    cases hmarks : s.marks st with
    | true =>
      have hcall : s.call st (.domark now later) = some (State.mark st later) := by rw [State.call, hmarks, if_pos rfl]
      rw [hcall, hone, htells hcall, if_pos rfl]
      obtain ⟨hkept, htold⟩ := h.logmsg st (mark_plain st later)
      obtain ⟨hkept', htold'⟩ := hkept.tick later
      exact ⟨hkept', htold'.trans htold⟩
    | false =>
      have hcall : s.call st (.domark now later) = none := by rw [State.call, hmarks, if_neg (by decide)]
      have hquiet : Tells st (.domark now later) s := fun c hc => nomatch hcall.symm.trans hc
      rw [hcall, if_neg (by decide)]
      simp only [Option.filter_none, Option.toList_none, List.map_nil, List.append_nil]
      obtain ⟨hkept, htold⟩ := h.tick now
      exact ⟨hkept, htold.trans (and_iff_left hquiet).symm⟩

theorem run_kept {es : List Event} (h : Kept s.file m) (hplain : ∀ e ∈ es, e.Plain) :
    Kept (s.run st es).file (m ++ State.messages st (Filed.takes st) es s) ∧
      (Told (s.run st es).file (m ++ State.messages st (Filed.takes st) es s) ↔
        Told s.file m ∧ Meets (next st) (Tells st) es s) := by
  induction es generalizing s m with
  | nil =>
    rw [State.messages, List.append_nil]
    exact ⟨h, (and_iff_left trivial).symm⟩
  | cons e es ih =>
    obtain ⟨hkept, htold⟩ := step_kept st h (hplain e List.mem_cons_self)
    obtain ⟨hkept', htold'⟩ := ih hkept fun x hx => hplain x (List.mem_cons_of_mem e hx)
    rw [State.messages, State.run, ← List.append_assoc]
    refine ⟨hkept', htold'.trans ?_⟩
    rw [htold, and_assoc]
    simp only [Meets, next, Option.some.injEq, forall_eq']

section messages

variable {p q : Filed → Call → Bool} {ok : Event → State → Prop}

/-- Of messages of which some pass a stricter test, as many pass it only where all do. -/
theorem length_messages (hpq : ∀ f c, p f c = true → q f c = true)
    (hok : ∀ e s, ok e s ↔ ∀ c, s.call st e = some c → q s.file c = true → p s.file c = true) (es : List Event) (s : State) :
    (State.messages st p es s).length ≤ (State.messages st q es s).length ∧
      ((State.messages st p es s).length = (State.messages st q es s).length ↔ Meets (next st) ok es s) ∧
      (Meets (next st) ok es s → State.messages st p es s = State.messages st q es s) := by
  induction es generalizing s with
  | nil => exact ⟨Nat.le_refl _, iff_of_true rfl trivial, fun _ => rfl⟩
  | cons e es ih =>
    obtain ⟨hle, heq, hsame⟩ := ih (s.step st e)
    have hhead : (s.message st p e = s.message st q e ∧ ok e s) ∨
        ((s.message st p e).length < (s.message st q e).length ∧ ¬ ok e s) := by
      rw [hok]
      simp only [State.message]
      cases s.call st e with
      | none => exact Or.inl ⟨rfl, nofun⟩
      | some c =>
        have hpass := hpq s.file c
        cases hp : p s.file c <;> cases hq : q s.file c <;> simp_all [Option.filter]
    have hmeets : Meets (next st) ok (e :: es) s ↔ ok e s ∧ Meets (next st) ok es (s.step st e) := by
      simp only [Meets, next, Option.some.injEq, forall_eq']
    rw [State.messages, State.messages, List.length_append, List.length_append, hmeets]
    rcases hhead with ⟨hhead, hhere⟩ | ⟨hlt, hhere⟩
    · rw [hhead, ← heq]
      exact ⟨by omega, ⟨fun h => ⟨hhere, by omega⟩, fun h => by rw [h.2]⟩, fun h => by rw [hsame (heq.mp h.2)]⟩
    · exact ⟨by omega, ⟨fun h => by omega, fun h => absurd h.1 hhere⟩, fun h => absurd h.1 hhere⟩

end messages

theorem admits_of_selects {f : Filed} {c : Call} (h : f.selects c = true) : f.admits c = true := by
  rw [Filed.admits]
  split
  · exact h
  · rename_i hno
    rw [Filed.selects, dif_neg hno] at h
    exact absurd h Bool.false_ne_true

/-- What is selected is not written less. -/
theorem length_wants (es : List Event) (s : State) :
    ((State.messages st (Filed.wants st) es s).length = (State.messages st (Filed.takes st) es s).length ↔
      Meets (next st) (Known st) es s) ∧
    (Meets (next st) (Known st) es s →
      State.messages st (Filed.wants st) es s = State.messages st (Filed.takes st) es s) := by
  refine (length_messages st ?_ ?_ es s).2
  · intro f c h
    rw [Filed.wants, Bool.and_eq_true] at h
    rw [Filed.takes, admits_of_selects h.1, h.2]
    rfl
  · intro e s
    refine forall₃_congr fun c _ htakes => ?_
    rw [Filed.takes, Bool.and_eq_true] at htakes
    rw [Filed.wants, htakes.2, Bool.and_true]

/-- Marks are withheld of what is selected. -/
theorem length_selects (es : List Event) (s : State) :
    ((State.messages st (Filed.wants st) es s).length = (State.messages st Filed.selects es s).length ↔
      Meets (next st) (Due st) es s) ∧
    (Meets (next st) (Due st) es s → State.messages st (Filed.wants st) es s = State.messages st Filed.selects es s) := by
  refine (length_messages st ?_ ?_ es s).2
  · intro f c h
    rw [Filed.wants, Bool.and_eq_true] at h
    exact h.1
  · intro e s
    refine forall₃_congr fun c _ hselects => ?_
    rw [Filed.wants, hselects, Bool.true_and, Bool.not_eq_true']

/-- A destination as cfline leaves it, at any point between two marks. -/
def State.init (pmask : Pmask) (MarkSeq : Nat) : State := ⟨{ pmask }, MarkSeq⟩

theorem init_kept (pmask : Pmask) (MarkSeq : Nat) :
    Kept (State.init pmask MarkSeq).file [] ∧ Told (State.init pmask MarkSeq).file [] := by
  refine ⟨⟨rfl, ?_, ?_, fun _ => rfl, fun hne => absurd rfl hne, [], rfl, rfl⟩, rfl, nofun⟩
  · show 0 < MAXSVLINE
    decide
  · show repeatOf [] = none
    decide

/-- The file, with what is still counted written to it, gives back the selected messages exactly
    where no message misleads and none is written unselected. Then they are all that the
    selectors admit exactly where no mark is withheld. -/
theorem reconstructs_iff (st : Settings) (pmask : Pmask) (MarkSeq : Nat) (es : List Event) (now : Int)
    (hplain : ∀ e ∈ es, e.Plain) :
    ((((State.init pmask MarkSeq).run st es).file.flush now).shown =
        State.messages st (Filed.wants st) es (State.init pmask MarkSeq) ↔
      Meets (next st) (Tells st) es (State.init pmask MarkSeq) ∧
        Meets (next st) (Known st) es (State.init pmask MarkSeq)) ∧
    (Meets (next st) (Known st) es (State.init pmask MarkSeq) →
      ((((State.init pmask MarkSeq).run st es).file.flush now).shown =
          State.messages st Filed.selects es (State.init pmask MarkSeq) ↔
        Meets (next st) (Tells st) es (State.init pmask MarkSeq) ∧
          Meets (next st) (Due st) es (State.init pmask MarkSeq))) := by
  obtain ⟨hstart, htold⟩ := init_kept pmask MarkSeq
  obtain ⟨hkept, hrun⟩ := run_kept st hstart hplain
  obtain ⟨⟨-, -, -, -, -, m₀, hm, hlen⟩, hflush, hzero⟩ := hkept.flush now
  rw [List.nil_append] at hrun hflush hm
  rw [hzero, List.replicate_zero, List.append_nil] at hm
  have hshown : (((State.init pmask MarkSeq).run st es).file.flush now).shown =
      State.messages st (Filed.takes st) es (State.init pmask MarkSeq) ↔
        Meets (next st) (Tells st) es (State.init pmask MarkSeq) := by
    rw [← (hrun.trans (and_iff_right htold)), ← hflush, Told, hzero, List.replicate_zero, List.append_nil]
    exact (and_iff_left nofun).symm
  obtain ⟨hwants, hknown⟩ := length_wants st es (State.init pmask MarkSeq)
  obtain ⟨hselects, hall⟩ := length_selects st es (State.init pmask MarkSeq)
  -- as many messages are shown as the file has got
  have hmany := congrArg List.length hm
  rw [hlen] at hmany
  constructor
  · constructor
    · intro h
      have hk := hwants.mp (by rw [hmany, h])
      exact ⟨hshown.mp (h.trans (hknown hk)), hk⟩
    · rintro ⟨htells, hk⟩
      exact (hshown.mpr htells).trans (hknown hk).symm
  · intro hk
    rw [← hknown hk] at hshown hmany
    constructor
    · intro h
      have hdue := hselects.mp (by rw [hmany, h])
      exact ⟨hshown.mp (h.trans (hall hdue).symm), hdue⟩
    · rintro ⟨htells, hdue⟩
      exact (hshown.mpr htells).trans (hall hdue)

instance : DecidablePred Event.Plain
  | .logmsg c => inferInstanceAs (Decidable (repeatOf c.text = none))
  | .domark _ _ => .isTrue trivial

/-- A message of level "info" from the host "h". -/
def sent (msg : Str) : Event := .logmsg { now := 0, pri := LOG_INFO, msg, host := text "h", flags := {} }

/-- One of the facility 127, where the masks are followed by what the line before has left. -/
def unknown (msg : Str) : Event :=
  .logmsg { now := 0, pri := 1022, msg, host := text "h", flags := {}, behind := 0x61 }

/-- Everything goes to the file. -/
def everything : Pmask := fun _ => 255

def dateless : Settings := ⟨text "h", 20 * 60, fun _ => []⟩

theorem reconstructs_twice :
    (((State.init everything 0).run dateless [sent (text "a"), sent (text "a"), sent (text "a")]).file.flush 1).shown =
      [(text "h", text "a"), (text "h", text "a"), (text "h", text "a")] :=
  (reconstructs_iff dateless everything 0 [sent (text "a"), sent (text "a"), sent (text "a")] 1 (by decide)).1.mpr
    (by decide)

/-- "Repeated 2 times", behind a long line: the file says that this came three times. And a
    message that no selector admits. -/
theorem empty_behind_long :
    (∀ e ∈ [sent (List.replicate MAXSVLINE 0x61), sent [], sent []], e.Plain) ∧
    (((State.init everything 0).run dateless [sent (List.replicate MAXSVLINE 0x61), sent [], sent []]).file.flush 1).shown =
      List.replicate 3 (text "h", List.replicate MAXSVLINE 0x61) ∧
    List.replicate 3 (text "h", List.replicate MAXSVLINE 0x61) ≠
      State.messages dateless (Filed.wants dateless) [sent (List.replicate MAXSVLINE 0x61), sent [], sent []]
        (State.init everything 0) ∧
    (∀ e ∈ [sent (List.replicate 80 0x61), unknown (text "b")], e.Plain) ∧
    (((State.init everything 0).run dateless [sent (List.replicate 80 0x61), unknown (text "b")]).file.flush 1).shown =
      [(text "h", List.replicate 80 0x61), (text "h", text "b")] ∧
    State.messages dateless (Filed.wants dateless) [sent (List.replicate 80 0x61), unknown (text "b")]
      (State.init everything 0) = [(text "h", List.replicate 80 0x61)] := by
  decide +kernel

end Netutils.Syslogd
