/-
  Netutils.Syslogd.Klog — how syslogd reads the kernel's log (syslogd/syslogd.c, main): reads
  that end anywhere, and a call of printsys for each line.

  What is behind the last newline is moved to the front of kline, and the loop goes round once
  more over it. As long as no line is longer than the buffer and none has a NUL in it, each read
  finds in front of kline just the unfinished line, and the calls are the lines, however they
  were cut (`klog_reads`).
-/

import Mathlib.Data.List.TakeWhile
import Netutils.Lib.Machine
import Netutils.Libc.Stdio
import Netutils.Syslogd.Cfline

namespace Netutils.Syslogd.Klog

open Netutils.Arpa Netutils.Libc
open Netutils.Lib.Machine (Returns returns_inl returns_inr)

/-! ## State -/

/-- The variables of main that outlast a read. -/
structure Vars where
  kline : Str
  kline_len : Int
  /-- The texts that printsys has been called with. -/
  calls : List Str

/-- `sizeof (kline)` -/
def KLINE : Nat := MAXLINE + 1

/-- kline is not initialised. -/
def Vars.init (kline : Str) : Vars := ⟨kline, 0, []⟩

/-- Something is read or stored outside of kline, or kline_len is not in it. -/
inductive Fault where
  | outOfBounds

inductive At where
  /-- `while (1)` -/
  | again
  /-- The loop over the lines. -/
  | lines (bol : Nat) (eol : Option Nat)
  /-- The loop over null bytes, and what is behind it. -/
  | nuls (bol : Nat)

structure State where
  at_ : At
  vars : Vars

/-! ## The loop -/

/-- `strchr (p, '\n')` -/
def strchr (kline : Str) (p : Nat) : Except Fault (Option Nat) :=
  let t := kline.drop p
  if LF ∈ cstring t then .ok (some (p + t.idxOf LF))
  else if NUL ∈ t then .ok none
  else .error .outOfBounds

/-- The priority signal in front of kline is `<`, a digit and `>`. -/
def signals (kline : Str) : Bool :=
  kline[0]? == some 0x3c && kline[1]?.any isdigit && kline[2]? == some 0x3e

def stepAgain (s : Vars) : Except Fault (State ⊕ Vars) :=
  if 0 ≤ s.kline_len ∧ s.kline_len < KLINE then
    let kline := s.kline.set s.kline_len.toNat NUL
    (strchr kline 0).map fun eol => .inl ⟨.lines 0 eol, { s with kline }⟩
  else .error .outOfBounds

def stepLine (s : Vars) (bol eol : Nat) : Except Fault (State ⊕ Vars) :=
  let kline := s.kline.set eol NUL
  let kline_len := s.kline_len - ((eol : Int) + 1 - bol)
  if kline_len < 0 then .error .outOfBounds
  else (strchr kline (eol + 1)).map fun next =>
    .inl ⟨.lines (eol + 1) next, ⟨kline, kline_len, s.calls ++ [cstring (kline.drop bol)]⟩⟩

/-- `memmove (kline, bol, kline_len)` -/
def shift (kline : Str) (bol len : Nat) : Str := (kline.drop bol).take len ++ kline.drop len

def stepNuls (s : Vars) (bol : Nat) : Except Fault (State ⊕ Vars) :=
  if s.kline_len = 0 then .ok (.inr s)
  else if KLINE ≤ bol then .error .outOfBounds
  else if s.kline[bol]? = some NUL then .ok (.inl ⟨.nuls (bol + 1), { s with kline_len := s.kline_len - 1 }⟩)
  else if bol ≠ 0 then
    if (KLINE : Int) < bol + s.kline_len then .error .outOfBounds
    else .ok (.inl ⟨.again, { s with kline := shift s.kline bol s.kline_len.toNat }⟩)
  else if s.kline_len < MAXLINE then .ok (.inr s)
  -- a single message that overfills the buffer
  else .ok (.inl ⟨.again, { s with calls := s.calls ++ [cstring s.kline], kline_len := if signals s.kline then 3 else 0 }⟩)

def step (s : State) : Except Fault (State ⊕ Vars) :=
  match s.at_ with
  | .again => stepAgain s.vars
  | .lines bol (some eol) => stepLine s.vars bol eol
  | .lines bol none => .ok (.inl ⟨.nuls bol, s.vars⟩)
  | .nuls bol => stepNuls s.vars bol

/-! ## Reads -/

/-- As many bytes as a read may give. -/
def Vars.room (s : Vars) : Int := (KLINE : Int) - s.kline_len - 1

/-- What a read puts behind the unfinished line. -/
def Vars.read (s : Vars) (c : Str) : Vars :=
  { s with
    kline := s.kline.take s.kline_len.toNat ++ c ++ s.kline.drop (s.kline_len.toNat + c.length)
    kline_len := s.kline_len + c.length }

/-- The reads there have been, and what they have led to. -/
inductive Reached (kline : Str) : List Str → Vars → Prop
  | start : Reached kline [] (.init kline)
  | read {cs : List Str} {s t : Vars} (c : Str) (h : Reached kline cs s) (hroom : (c.length : Int) ≤ s.room)
      (hloop : Returns step ⟨.again, s.read c⟩ t) : Reached kline (cs ++ [c]) t

/-! ## What it is for -/

/-- The lines that are ended by a newline. -/
def completeLines (stream : Str) : List Str := (stream.splitOn LF).dropLast

/-- What is behind the last newline. -/
def unfinished (stream : Str) : Str := (stream.splitOn LF).getLastD []

/-- No NUL, and no line of MAXLINE characters. -/
structure Orderly (stream : Str) : Prop where
  nul : NUL ∉ stream
  short : ∀ line ∈ stream.splitOn LF, line.length < MAXLINE

/-! ## Lines and a tail -/

/-- Lines with their ends. -/
def ended (lines : List Str) : Str := lines.flatMap (· ++ [LF])

/-- The text is these lines and an unfinished one. -/
structure Divides (text : Str) (lines : List Str) (tail : Str) : Prop where
  text_eq : text = ended lines ++ tail
  lines_lf : ∀ l ∈ lines, LF ∉ l
  tail_lf : LF ∉ tail

variable {text tail tail' l rest done junk kline : Str} {lines lines' : List Str} {calls : List Str} {s t : Vars}

theorem Divides.splitOn_eq (h : Divides text lines tail) : text.splitOn LF = lines ++ [tail] := by
  obtain ⟨rfl, hlines, htail⟩ := h
  induction lines with
  | nil => exact List.splitOn_eq_singleton htail
  | cons l lines ih =>
    rw [List.forall_mem_cons] at hlines
    rw [ended, List.flatMap_cons, List.append_assoc, List.append_assoc, List.singleton_append,
      List.splitOn_append_cons_self_of_not_mem hlines.1]
    exact congrArg (l :: ·) (ih hlines.2)

theorem exists_divides (text : Str) : ∃ lines tail, Divides text lines tail := by
  induction text with
  | nil => exact ⟨[], [], rfl, List.forall_mem_nil _, List.not_mem_nil⟩
  | cons c text ih =>
    obtain ⟨lines, tail, rfl, hlines, htail⟩ := ih
    by_cases hc : c = LF
    · exact ⟨[] :: lines, tail, by rw [hc]; rfl, List.forall_mem_cons.mpr ⟨List.not_mem_nil, hlines⟩, htail⟩
    · have hne : ∀ a : Str, LF ∉ a → LF ∉ c :: a := by
        intro a ha
        rw [List.mem_cons, not_or]
        exact ⟨fun h => hc h.symm, ha⟩
      cases lines with
      | nil => exact ⟨[], c :: tail, rfl, hlines, hne tail htail⟩
      | cons l lines =>
        rw [List.forall_mem_cons] at hlines
        exact ⟨(c :: l) :: lines, tail, rfl, List.forall_mem_cons.mpr ⟨hne l hlines.1, hlines.2⟩, htail⟩

/-- More text goes on with the unfinished line. -/
theorem Divides.append {more : Str} (h : Divides text lines tail)
    (h' : Divides (tail ++ more) lines' tail') : Divides (text ++ more) (lines ++ lines') tail' := by
  refine ⟨?_, ?_, h'.tail_lf⟩
  · rw [h.text_eq, List.append_assoc, h'.text_eq, ended, ended, ended, List.flatMap_append, List.append_assoc]
  · intro l hl
    exact (List.mem_append.mp hl).elim (h.lines_lf l) (h'.lines_lf l)

theorem Divides.completeLines_eq (h : Divides text lines tail) : completeLines text = lines := by
  rw [completeLines, h.splitOn_eq, List.dropLast_concat]

theorem Divides.unfinished_eq (h : Divides text lines tail) : unfinished text = tail := by
  rw [unfinished, h.splitOn_eq, List.getLastD_concat]

/-! ## One round -/

theorem strchr_text (hnul : NUL ∉ rest) (done junk : Str) :
    strchr (done ++ (rest ++ NUL :: junk)) done.length =
      .ok (if LF ∈ rest then some (done.length + rest.idxOf LF) else none) := by
  rw [strchr]
  simp only [List.drop_left, cstring_append_nul hnul]
  by_cases hlf : LF ∈ rest
  · rw [if_pos hlf, if_pos hlf, List.idxOf_append_of_mem hlf]
  · rw [if_neg hlf, if_neg hlf, if_pos (List.mem_append_right _ List.mem_cons_self)]

/-- A line is handed on, and the loop goes to what is behind it. -/
theorem step_line (hnul : NUL ∉ l ++ LF :: rest) (done junk : Str) (calls : List Str) :
    step ⟨.lines done.length (some (done.length + l.length)),
        ⟨done ++ (l ++ LF :: rest ++ NUL :: junk), (l ++ LF :: rest).length, calls⟩⟩ =
      .ok (.inl ⟨.lines (done ++ l ++ [NUL]).length
          (if LF ∈ rest then some ((done ++ l ++ [NUL]).length + rest.idxOf LF) else none),
        ⟨done ++ l ++ [NUL] ++ (rest ++ NUL :: junk), rest.length, calls ++ [l]⟩⟩) := by
  rw [List.mem_append, not_or, List.mem_cons, not_or] at hnul
  obtain ⟨hlnul, -, hrest⟩ := hnul
  have hset : (done ++ (l ++ LF :: rest ++ NUL :: junk)).set (done.length + l.length) NUL =
      done ++ l ++ [NUL] ++ (rest ++ NUL :: junk) := by
    rw [← List.append_assoc, ← List.append_assoc, List.append_assoc (done ++ l), ← List.length_append,
      List.set_append_right _ _ (Nat.le_refl _), Nat.sub_self]
    simp
  have hlen : (done ++ l ++ [NUL]).length = done.length + l.length + 1 := by simp; omega
  have hcall : cstring ((done ++ l ++ [NUL] ++ (rest ++ NUL :: junk)).drop done.length) = l := by
    rw [List.append_assoc, List.append_assoc, List.drop_left, List.singleton_append]
    exact cstring_append_nul hlnul _
  have hkline_len : ((l ++ LF :: rest).length : Int) - (((done.length + l.length : Nat) : Int) + 1 - done.length) = rest.length := by
    simp
    omega
  have hpos : ¬ ((rest.length : Int) < 0) := by omega
  simp only [step, stepLine, hset, hkline_len, if_neg hpos, hcall, ← hlen]
  rw [strchr_text hrest]
  rfl

theorem lines_returns (h : Divides text lines tail) (hnul : NUL ∉ text) (done junk : Str) (calls : List Str) :
    ∃ done', done'.length = done.length + (ended lines).length ∧ ∀ t,
      Returns step ⟨.lines done.length (if LF ∈ text then some (done.length + text.idxOf LF) else none),
          ⟨done ++ (text ++ NUL :: junk), text.length, calls⟩⟩ t ↔
        Returns step ⟨.nuls done'.length, ⟨done' ++ (tail ++ NUL :: junk), tail.length, calls ++ lines⟩⟩ t := by
  induction lines generalizing text done calls with
  | nil =>
    obtain rfl : text = tail := h.text_eq
    refine ⟨done, rfl, fun t => ?_⟩
    rw [if_neg h.tail_lf, List.append_nil]
    exact returns_inl rfl
  | cons l lines ih =>
    obtain ⟨hl, hlines⟩ := List.forall_mem_cons.mp h.lines_lf
    obtain ⟨rest, hrest⟩ : ∃ rest, rest = ended lines ++ tail := ⟨_, rfl⟩
    have htext : text = l ++ LF :: rest := by
      rw [h.text_eq, hrest, ended, List.flatMap_cons, List.append_assoc, List.append_assoc]
      rfl
    have hrestnul : NUL ∉ rest := by
      rw [htext, List.mem_append, not_or, List.mem_cons, not_or] at hnul
      exact hnul.2.2
    obtain ⟨done', hlen, hreturns⟩ := ih ⟨hrest, hlines, h.tail_lf⟩ hrestnul (done ++ l ++ [NUL]) (calls ++ [l])
    have hidx : text.idxOf LF = l.length := by
      rw [htext, List.idxOf_append_of_notMem hl, List.idxOf_cons_self]
      rfl
    have hmem : LF ∈ text := htext ▸ List.mem_append_right _ List.mem_cons_self
    refine ⟨done', ?_, fun t => ?_⟩
    · rw [hlen, ended, ended, List.flatMap_cons]
      simp only [List.length_append, List.length_singleton]
      omega
    · rw [if_pos hmem, hidx]
      subst htext
      rw [returns_inl (step_line hnul done junk calls), hreturns, List.append_assoc, List.singleton_append]

theorem step_again (hnul : NUL ∉ text) (hlen : text.length < KLINE) (c : UInt8) (junk : Str) (calls : List Str) :
    step ⟨.again, ⟨text ++ c :: junk, text.length, calls⟩⟩ =
      .ok (.inl ⟨.lines 0 (if LF ∈ text then some (0 + text.idxOf LF) else none), ⟨text ++ NUL :: junk, text.length, calls⟩⟩) := by
  have hset : (text ++ c :: junk).set text.length NUL = text ++ NUL :: junk := by
    rw [List.set_append_right _ _ (Nat.le_refl _), Nat.sub_self]
    rfl
  have hin : (0 : Int) ≤ text.length ∧ (text.length : Int) < KLINE := by omega
  have hstrchr := strchr_text hnul [] junk
  simp only [step, stepAgain, if_pos hin, Int.toNat_natCast, hset]
  rw [List.nil_append] at hstrchr
  rw [show (0 : Nat) = ([] : Str).length from rfl, hstrchr]
  rfl

/-- With the unfinished line in front the loop ends. -/
theorem step_front (hnul : NUL ∉ tail) (hlen : tail.length < MAXLINE) (junk : Str) (calls : List Str) :
    step ⟨.nuls 0, ⟨tail ++ NUL :: junk, tail.length, calls⟩⟩ = .ok (.inr ⟨tail ++ NUL :: junk, tail.length, calls⟩) := by
  simp only [step, stepNuls]
  cases tail with
  | nil => exact if_pos rfl
  | cons c tail =>
    rw [List.mem_cons, not_or] at hnul
    have hpos : ¬ (((c :: tail).length : Int) = 0) := by
      rw [List.length_cons]
      omega
    have hc : ¬ ((c :: tail ++ NUL :: junk)[0]? = some NUL) := by
      intro h
      exact hnul.1 (Option.some.inj h).symm
    have hshort : ((c :: tail).length : Int) < MAXLINE := by omega
    rw [if_neg hpos, if_neg (by decide), if_neg hc, if_neg (by decide), if_pos hshort]

/-- Anywhere else it is moved there. -/
theorem step_shift (hnul : NUL ∉ tail) (htail : tail ≠ []) (hdone : done ≠ []) (junk : Str) (calls : List Str)
    (hlen : (done ++ (tail ++ NUL :: junk)).length = KLINE) :
    ∃ c junk', step ⟨.nuls done.length, ⟨done ++ (tail ++ NUL :: junk), tail.length, calls⟩⟩ =
      .ok (.inl ⟨.again, ⟨tail ++ c :: junk', tail.length, calls⟩⟩) ∧ (tail ++ c :: junk').length = KLINE := by
  simp only [List.length_append, List.length_cons] at hlen
  have hd := List.length_pos_iff.mpr hdone
  obtain ⟨c, junk', hjunk⟩ : ∃ c junk', (done ++ (tail ++ NUL :: junk)).drop tail.length = c :: junk' := by
    apply List.exists_cons_of_ne_nil
    rw [ne_eq, List.drop_eq_nil_iff]
    simp only [List.length_append, List.length_cons]
    omega
  refine ⟨c, junk', ?_, ?_⟩
  · obtain ⟨d, tail, rfl⟩ := List.exists_cons_of_ne_nil htail
    rw [List.mem_cons, not_or] at hnul
    have hpos : ¬ (((d :: tail).length : Int) = 0) := by
      rw [List.length_cons]
      omega
    have hc : ¬ ((done ++ (d :: tail ++ NUL :: junk))[done.length]? = some NUL) := by
      rw [List.getElem?_append_right (Nat.le_refl _), Nat.sub_self]
      intro h
      exact hnul.1 (Option.some.inj h).symm
    have hshift : shift (done ++ (d :: tail ++ NUL :: junk)) done.length (d :: tail).length = d :: tail ++ c :: junk' := by
      rw [shift, List.drop_left, List.take_left, hjunk]
    have hroom : ¬ ((KLINE : Int) < done.length + (d :: tail).length) := by omega
    simp only [step, stepNuls]
    rw [if_neg hpos, if_neg (by omega), if_neg hc, if_pos (by omega), if_neg hroom, Int.toNat_natCast, hshift]
  · have hdrop := congrArg List.length hjunk
    simp only [List.length_drop, List.length_append, List.length_cons] at hdrop ⊢
    omega

/-! ## A read -/

/-- This text is in front of kline. -/
structure Holds (s : Vars) (text : Str) : Prop where
  size : s.kline.length = KLINE
  len : s.kline_len = text.length
  front : text <+: s.kline

/-- The loop behind a read: it ends, with the lines handed on and what is unfinished in front. -/
theorem loop_returns (hs : Holds s text) (h : Divides text lines tail) (hnul : NUL ∉ text) (hlen : text.length ≤ MAXLINE)
    (htail : tail.length < MAXLINE) :
    ∃ t, Returns step ⟨.again, s⟩ t ∧ Holds t tail ∧ t.calls = s.calls ++ lines := by
  obtain ⟨kline, kline_len, calls⟩ := s
  obtain ⟨hsize, rfl, ⟨junk, rfl⟩⟩ := hs
  obtain ⟨c, junk, rfl⟩ : ∃ c r, junk = c :: r := by
    apply List.exists_cons_of_ne_nil
    rintro rfl
    simp only [List.append_nil] at hsize
    rw [KLINE] at hsize
    omega
  have htailnul : NUL ∉ tail := by
    rw [h.text_eq, List.mem_append, not_or] at hnul
    exact hnul.2
  obtain ⟨done, hdone, hreturns⟩ := lines_returns h hnul [] junk calls
  have htext := congrArg List.length h.text_eq
  have hall : (done ++ (tail ++ NUL :: junk)).length = KLINE := by
    simp only [List.length_append, List.length_cons, List.length_nil] at hsize htext hdone ⊢
    omega
  have hfirst : ∀ t, Returns step ⟨.again, ⟨text ++ c :: junk, text.length, calls⟩⟩ t ↔
      Returns step ⟨.nuls done.length, ⟨done ++ (tail ++ NUL :: junk), tail.length, calls ++ lines⟩⟩ t := by
    intro t
    rw [returns_inl (step_again hnul (by rw [KLINE]; omega) c junk calls)]
    exact hreturns t
  by_cases hfront : done = []
  · subst hfront
    refine ⟨⟨tail ++ NUL :: junk, tail.length, calls ++ lines⟩, ?_, ⟨hall, rfl, List.prefix_append _ _⟩, rfl⟩
    rw [hfirst]
    exact (returns_inr (step_front htailnul htail junk _)).mpr rfl
  · by_cases hnil : tail = []
    · subst hnil
      refine ⟨⟨done ++ NUL :: junk, 0, calls ++ lines⟩, ?_, ⟨hall, rfl, List.nil_prefix⟩, rfl⟩
      rw [hfirst]
      exact (returns_inr rfl).mpr rfl
    · -- once more, from the front
      obtain ⟨d, junk', hshift, hsize'⟩ := step_shift htailnul hnil hfront junk (calls ++ lines) hall
      have hagain := step_again htailnul (by rw [KLINE]; omega) d junk' (calls ++ lines)
      rw [if_neg h.tail_lf] at hagain
      have hsame : (tail ++ NUL :: junk').length = KLINE := by
        rw [← hsize', List.length_append, List.length_append]
        rfl
      refine ⟨⟨tail ++ NUL :: junk', tail.length, calls ++ lines⟩, ?_, ⟨hsame, rfl, List.prefix_append _ _⟩, rfl⟩
      rw [hfirst, returns_inl hshift, returns_inl hagain, returns_inl rfl]
      exact (returns_inr (step_front htailnul htail junk' _)).mpr rfl

theorem Holds.read {c : Str} (hs : Holds s text) (hroom : (c.length : Int) ≤ s.room) :
    Holds (s.read c) (text ++ c) ∧ (text ++ c).length ≤ MAXLINE ∧ (s.read c).calls = s.calls := by
  obtain ⟨kline, kline_len, calls⟩ := s
  obtain ⟨hsize, rfl, ⟨junk, rfl⟩⟩ := hs
  have hsize' : (text ++ junk).length = KLINE := hsize
  rw [Vars.room, KLINE] at hroom
  rw [List.length_append, KLINE] at hsize'
  have hfit : text.length + c.length ≤ MAXLINE := by
    have hcast : (c.length : Int) ≤ ((MAXLINE + 1 : Nat) : Int) - text.length - 1 := hroom
    omega
  refine ⟨⟨?_, ?_, ?_⟩, by rw [List.length_append]; exact hfit, rfl⟩
  · simp only [Vars.read, Int.toNat_natCast, List.take_left, List.length_append, List.length_drop, KLINE]
    omega
  · simp only [Vars.read, List.length_append]
    omega
  · simp only [Vars.read, Int.toNat_natCast, List.take_left]
    exact List.prefix_append _ _

/-- What is true between the reads. -/
structure Between (s : Vars) (stream : Str) : Prop where
  calls : s.calls = completeLines stream
  front : ∃ lines tail, Divides stream lines tail ∧ Holds s tail

/-- A read of an orderly stream leads from one such state to another. -/
theorem Between.read {stream c : Str} (hs : Between s stream) (hroom : (c.length : Int) ≤ s.room)
    (hstream : Orderly (stream ++ c)) : ∃ t, Returns step ⟨.again, s.read c⟩ t ∧ Between t (stream ++ c) := by
  obtain ⟨hcalls, lines, tail, h, hholds⟩ := hs
  obtain ⟨hread, hlen, hsame⟩ := hholds.read hroom
  obtain ⟨lines', tail', h'⟩ := exists_divides (tail ++ c)
  have hmore := h.append h'
  have hnul : NUL ∉ tail ++ c := by
    intro hin
    apply hstream.nul
    rw [h.text_eq, List.append_assoc]
    exact List.mem_append_right _ hin
  have hshort : tail'.length < MAXLINE := hstream.short tail' (by rw [hmore.splitOn_eq]; simp)
  obtain ⟨t, ht, hholds', hcalls'⟩ := loop_returns hread h' hnul hlen hshort
  refine ⟨t, ht, ?_, _, _, hmore, hholds'⟩
  rw [hcalls', hsame, hcalls, h.completeLines_eq, hmore.completeLines_eq]

/-- An unfinished line goes on in the first of those that follow. -/
theorem Divides.tail_le {b : Str} (h : Divides text lines tail) (hb : Divides (tail ++ b) lines' tail') :
    ∃ l ∈ lines' ++ [tail'], tail.length ≤ l.length := by
  have heq := hb.text_eq
  cases lines' with
  | nil =>
    refine ⟨tail', List.mem_cons_self, ?_⟩
    have hlen := congrArg List.length heq
    rw [List.length_append, ended, List.flatMap_nil, List.nil_append] at hlen
    omega
  | cons l lines' =>
    refine ⟨l, List.mem_cons_self, ?_⟩
    rw [ended, List.flatMap_cons, List.append_assoc, List.append_assoc] at heq
    rcases List.append_eq_append_iff.mp heq with ⟨d, hd, -⟩ | ⟨d, hd, hrest⟩
    · rw [hd, List.length_append]
      omega
    · cases d with
      | nil => rw [hd, List.append_nil]
      | cons e d =>
        obtain ⟨rfl, -⟩ := List.cons.inj hrest
        exact absurd (hd ▸ List.mem_append_right l List.mem_cons_self) h.tail_lf

/-- What comes before is orderly too. -/
theorem Orderly.left {a b : Str} (h : Orderly (a ++ b)) : Orderly a := by
  obtain ⟨lines, tail, ha⟩ := exists_divides a
  obtain ⟨lines', tail', hb⟩ := exists_divides (tail ++ b)
  have hshort := h.short
  rw [(ha.append hb).splitOn_eq, List.append_assoc] at hshort
  refine ⟨fun hin => h.nul (List.mem_append_left _ hin), fun l hl => ?_⟩
  rw [ha.splitOn_eq] at hl
  rcases List.mem_append.mp hl with hl | hl
  · exact hshort l (List.mem_append_left _ hl)
  · rw [List.mem_singleton.mp hl]
    obtain ⟨l', hl', hle⟩ := ha.tail_le hb
    exact Nat.lt_of_le_of_lt hle (hshort l' (List.mem_append_right _ hl'))

/-! ## All reads -/

variable {cs : List Str}

theorem reached_between (hkline : kline.length = KLINE) (h : Reached kline cs s) (ho : Orderly cs.flatten) :
    Between s cs.flatten := by
  induction h with
  | start => exact ⟨rfl, [], [], ⟨rfl, List.forall_mem_nil _, List.not_mem_nil⟩, hkline, rfl, List.nil_prefix⟩
  | @read cs s t c h hroom hloop ih =>
    rw [List.flatten_append, List.flatten_singleton] at ho ⊢
    obtain ⟨t', ht', hbetween⟩ := (ih ho.left).read hroom ho
    rw [Lib.Machine.returns_unique hloop ht']
    exact hbetween

/-- Whatever the reads: the calls are the complete lines, kline_len is what is unfinished, which
    is in kline, and the loop behind the next read ends, in kline all the time. -/
theorem klog_reads (hkline : kline.length = KLINE) (h : Reached kline cs s) (ho : Orderly cs.flatten) :
    s.calls = completeLines cs.flatten ∧ s.kline_len = (unfinished cs.flatten).length ∧ s.kline_len < KLINE ∧
      ∀ c, (c.length : Int) ≤ s.room → Orderly (cs.flatten ++ c) → ∃ t, Returns step ⟨.again, s.read c⟩ t := by
  have hbetween := reached_between hkline h ho
  obtain ⟨lines, tail, hdivides, hholds⟩ := hbetween.front
  have hlen := hholds.len
  have hshort := ho.short tail (by rw [hdivides.splitOn_eq]; simp)
  refine ⟨hbetween.calls, by rw [hdivides.unfinished_eq, hlen], by rw [KLINE]; omega, fun c hroom hnext => ?_⟩
  obtain ⟨t, ht, -⟩ := hbetween.read hroom hnext
  exact ⟨t, ht⟩

/-- What kline has in it before. -/
def garbage : Str := List.replicate KLINE 0x78

/-- `<4>ab` in two reads. -/
theorem klog_cut_line : ∃ s, Reached garbage [Libc.text "<4>a", Libc.text "b" ++ [LF]] s ∧ s.calls = [Libc.text "<4>ab"] := by
  have hsize : garbage.length = KLINE := List.length_replicate
  have hroom : ∀ s : Vars, s.kline_len ≤ 4 → ∀ c : Str, c.length ≤ 4 → (c.length : Int) ≤ s.room := by
    intro s hs c hc
    have hkline : KLINE = 1025 := rfl
    rw [Vars.room, hkline]
    omega
  have hnone := klog_reads hsize .start ⟨by decide, by decide⟩
  obtain ⟨s, hs⟩ := hnone.2.2.2 (Libc.text "<4>a") (hroom _ (by decide) _ (by decide)) ⟨by decide, by decide⟩
  have hone := Reached.read (Libc.text "<4>a") (Reached.start : Reached garbage [] _) (hroom _ (by decide) _ (by decide)) hs
  have horderly : Orderly ([Libc.text "<4>a"] : List Str).flatten := ⟨by decide, by decide⟩
  have hlen := (klog_reads hsize hone horderly).2.1
  have hfour : (unfinished ([Libc.text "<4>a"] : List Str).flatten).length = 4 := by decide
  have hnext := hroom s (by rw [hlen]; exact Int.ofNat_le.mpr (Nat.le_of_eq hfour)) (Libc.text "b" ++ [LF]) (by decide)
  obtain ⟨t, ht⟩ := (klog_reads hsize hone horderly).2.2.2 _ hnext ⟨by decide, by decide⟩
  have htwo := Reached.read _ hone hnext ht
  exact ⟨t, htwo, (klog_reads hsize htwo ⟨by decide, by decide⟩).1⟩

end Netutils.Syslogd.Klog
