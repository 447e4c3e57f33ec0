/-
  Netutils.Ftp.Makeargv — a command line in words (ftp/main.c, makeargv and slurpstring).

  Every word is stored with its NUL behind the one before, so a line below MAXLINE fits
  into argbuf. Nothing counts the words: margv has room for 19 of them and the null pointer,
  and that is just what a line may have (`makeargv_iff`), where an empty word ends the line.
-/

import Mathlib.Data.List.TakeWhile
import Netutils.Arpa

namespace Netutils.Ftp.Makeargv

open Netutils.Arpa

/-! ## slurpstring -/

def MAXLINE : Nat := 200

/-- The elements of margv. -/
def MARGV : Nat := 20

def BLANK : UInt8 := 0x20
def TAB : UInt8 := 0x09
def BANG : UInt8 := 0x21
def QUOTE : UInt8 := 0x22
def DOLLAR : UInt8 := 0x24
def BACKSLASH : UInt8 := 0x5c

def isblank (c : UInt8) : Bool := c = BLANK || c = TAB

inductive State where
  | S1
  | S2
  | S3
  deriving DecidableEq

/-- What is stored from this state on, and what is left of the line. -/
def scan : State → List UInt8 → List UInt8 × List UInt8
  | _, [] => ([], [])
  | .S1, c :: sb =>
    if isblank c then ([], c :: sb)
    else if c = BACKSLASH then scan .S2 sb
    else if c = QUOTE then scan .S3 sb
    else (c :: (scan .S1 sb).1, (scan .S1 sb).2)
  | .S2, c :: sb => (c :: (scan .S1 sb).1, (scan .S1 sb).2)
  | .S3, c :: sb =>
    if c = QUOTE then scan .S1 sb
    else (c :: (scan .S3 sb).1, (scan .S3 sb).2)

/-- The variables of makeargv and slurpstring. -/
structure Slurp where
  /-- The line from stringbase on. -/
  stringbase : List UInt8
  /-- `argbase - argbuf` -/
  argbase : Nat
  slrflag : Nat
  /-- The line from altarg on, or the null pointer. -/
  altarg : Option (List UInt8)
  /-- What has been stored in argbuf. -/
  stores : List (Nat × UInt8)

/-- slrflag and altarg in front of a word. -/
def Slurp.flag (s : Slurp) (sb : Option (List UInt8)) : Slurp :=
  match s.slrflag with
  | 0 => { s with slrflag := 1 }
  | 1 => { s with slrflag := 2, altarg := sb }
  | _ => s

/-- The stores of a word and its NUL from an offset on. -/
def storeWord (ap : Nat) (word : List UInt8) : List (Nat × UInt8) := (word ++ [NUL]).zipIdx ap |>.map Prod.swap

/-- `S0` and what follows. -/
def Slurp.token (s : Slurp) : Option (List UInt8) × Slurp :=
  match s.stringbase.dropWhile isblank with
  | [] => (none, { s.flag none with stringbase := [] })
  | c :: sb =>
    let s := s.flag (some (c :: sb))
    let r := scan .S1 (c :: sb)
    if r.1 = [] then (none, { s.flag none with stringbase := r.2 })
    else
      (some r.1, { s with stringbase := r.2, argbase := s.argbase + r.1.length + 1,
                          stores := s.stores ++ storeWord s.argbase r.1 })

/-- The word that is returned, or the null pointer. -/
def slurpstring (s : Slurp) : Option (List UInt8) × Slurp :=
  match s.stringbase with
  | c :: sb =>
    if c = BANG ∨ c = DOLLAR then
      match s.slrflag with
      -- recognize ! as a token for shell and $ as token for macro invoke
      | 0 => (some [c], { s with slrflag := 1, stringbase := sb })
      | 1 => Slurp.token { s with slrflag := 2, altarg := some (c :: sb) }
      | _ => s.token
    else s.token
  | [] => s.token

/-- `while ((*argp++ = slurpstring ())) margc++;`, with turns enough. -/
def words : Nat → Slurp → Option (List (List UInt8) × Slurp)
  | n + 1, s =>
    match slurpstring s with
    | (none, s) => some ([], s)
    | (some w, s) => (words n s).map fun r => (w :: r.1, r.2)
  | 0, _ => none

structure Argv where
  /-- The words of margv in front of the null pointer. -/
  margv : List (List UInt8)
  altarg : Option (List UInt8)
  stores : List (Nat × UInt8)

/-- altarg is the one of an earlier line at first. -/
def makeargv (altarg : Option (List UInt8)) (line : List UInt8) : Option Argv :=
  (words (line.length + 1) ⟨line, 0, 0, altarg, []⟩).map fun r => ⟨r.1, r.2.altarg, r.2.stores⟩

/-- The elements of margv that are written. -/
def Argv.slots (a : Argv) : List Nat := List.range (a.margv.length + 1)

/-! ## Words -/

/-- What a character of the line is for its word. -/
inductive Mark where
  | gap
  /-- A backslash or a quote. -/
  | none
  | char (c : UInt8)
  deriving DecidableEq

inductive Mode where
  | unquoted
  | escaped
  | quoted

/-- Blanks that are not escaped and not within quotes are gaps. -/
def marks : Mode → List UInt8 → List Mark
  | _, [] => []
  | .unquoted, c :: l =>
    if isblank c then .gap :: marks .unquoted l
    else if c = BACKSLASH then .none :: marks .escaped l
    else if c = QUOTE then .none :: marks .quoted l
    else .char c :: marks .unquoted l
  | .escaped, c :: l => .char c :: marks .unquoted l
  | .quoted, c :: l => if c = QUOTE then .none :: marks .unquoted l else .char c :: marks .quoted l

def Mark.text : Mark → Option UInt8
  | .char c => some c
  | _ => Option.none

/-- The words of a line, one for each stretch between gaps. -/
def allWords (line : List UInt8) : List (List UInt8) :=
  (((marks .unquoted line).splitOnP (· = .gap)).filter (· ≠ [])).map (·.filterMap Mark.text)

/-- The words in front of the first empty one. -/
def wordsOf (line : List UInt8) : List (List UInt8) := (allWords line).takeWhile (· ≠ [])

/-- A `!` or `$` at the front is a word. -/
def commandWords : List UInt8 → List (List UInt8)
  | c :: l => if c = BANG ∨ c = DOLLAR then [c] :: wordsOf l else wordsOf (c :: l)
  | [] => []

/-- Words, margv and argbuf are as they should be. -/
def Stays (line : List UInt8) (a : Argv) : Prop :=
  a.margv = commandWords line ∧ (∀ i ∈ a.slots, i < MARGV) ∧ ∀ st ∈ a.stores, st.1 < MAXLINE

/-! ## A word -/

variable {l : List UInt8} {s : Slurp} {c : UInt8} {n : Nat}

def State.mode : State → Mode
  | .S1 => .unquoted
  | .S2 => .escaped
  | .S3 => .quoted

/-- At the end of the line, or at a blank. -/
def AtGap (l : List UInt8) : Prop := ∀ c ∈ l.head?, isblank c = true

theorem scan_S1 (c : UInt8) (sb : List UInt8) :
    scan .S1 (c :: sb) =
      if isblank c then ([], c :: sb)
      else if c = BACKSLASH then scan .S2 sb
      else if c = QUOTE then scan .S3 sb
      else (c :: (scan .S1 sb).1, (scan .S1 sb).2) :=
  rfl

theorem scan_S3 (c : UInt8) (sb : List UInt8) :
    scan .S3 (c :: sb) = if c = QUOTE then scan .S1 sb else (c :: (scan .S3 sb).1, (scan .S3 sb).2) :=
  rfl

theorem marks_unquoted (c : UInt8) (l : List UInt8) :
    marks .unquoted (c :: l) =
      if isblank c then .gap :: marks .unquoted l
      else if c = BACKSLASH then .none :: marks .escaped l
      else if c = QUOTE then .none :: marks .quoted l
      else .char c :: marks .unquoted l :=
  rfl

theorem marks_quoted (c : UInt8) (l : List UInt8) :
    marks .quoted (c :: l) = if c = QUOTE then .none :: marks .unquoted l else .char c :: marks .quoted l :=
  rfl

theorem scan_atGap (st : State) (l : List UInt8) : AtGap (scan st l).2 := by
  induction l generalizing st with
  | nil =>
    cases st <;> exact fun c hc => by cases hc
  | cons c l ih =>
    cases st with
    | S1 =>
      rw [scan_S1]
      split
      · rename_i hc
        intro d hd
        obtain rfl := Option.some.inj hd
        exact hc
      · split
        · exact ih .S2
        · split
          · exact ih .S3
          · exact ih .S1
    | S2 => exact ih .S1
    | S3 =>
      rw [scan_S3]
      split
      · exact ih .S1
      · exact ih .S3

theorem length_scan (st : State) (l : List UInt8) : (scan st l).1.length + (scan st l).2.length ≤ l.length := by
  induction l generalizing st with
  | nil => cases st <;> exact Nat.le_refl 0
  | cons c l ih =>
    have h1 := ih .S1
    have h2 := ih .S2
    have h3 := ih .S3
    cases st with
    | S1 =>
      rw [scan_S1]
      split
      · simp
      · split
        · exact Nat.le_succ_of_le h2
        · split
          · exact Nat.le_succ_of_le h3
          · simp only [List.length_cons]
            omega
    | S2 =>
      have hscan : scan .S2 (c :: l) = (c :: (scan .S1 l).1, (scan .S1 l).2) := rfl
      simp only [hscan, List.length_cons]
      omega
    | S3 =>
      rw [scan_S3]
      split
      · exact Nat.le_succ_of_le h1
      · simp only [List.length_cons]
        omega

/-- The characters that are gone through have no gap among them, and what is stored is their
    text. -/
theorem scan_marks (st : State) (l : List UInt8) :
    ∃ ms, (∀ m ∈ ms, m ≠ .gap) ∧ ms.filterMap Mark.text = (scan st l).1 ∧
      marks st.mode l = ms ++ marks .unquoted (scan st l).2 := by
  induction l generalizing st with
  | nil => exact ⟨[], fun m hm => absurd hm List.not_mem_nil, by cases st <;> rfl, by cases st <;> rfl⟩
  | cons c l ih =>
    have hcons : ∀ (m : Mark) (st' : State) (text : List UInt8), m ≠ .gap →
        (∀ ms : List Mark, ms.filterMap Mark.text = (scan st' l).1 → (m :: ms).filterMap Mark.text = text) →
        ∃ ms, (∀ m ∈ ms, m ≠ .gap) ∧ ms.filterMap Mark.text = text ∧
          m :: marks st'.mode l = ms ++ marks .unquoted (scan st' l).2 := by
      intro m st' text hm htext
      obtain ⟨ms, hgap, hms, hmarks⟩ := ih st'
      refine ⟨m :: ms, ?_, htext ms hms, congrArg (m :: ·) hmarks⟩
      intro m' hm'
      rcases List.mem_cons.mp hm' with rfl | hm'
      · exact hm
      · exact hgap m' hm'
    have hnone : ∀ st', ∃ ms, (∀ m ∈ ms, m ≠ .gap) ∧ ms.filterMap Mark.text = (scan st' l).1 ∧
        Mark.none :: marks st'.mode l = ms ++ marks .unquoted (scan st' l).2 :=
      fun st' => hcons .none st' _ (by decide) fun ms hms => hms
    have hchar : ∀ st', ∃ ms, (∀ m ∈ ms, m ≠ .gap) ∧ ms.filterMap Mark.text = c :: (scan st' l).1 ∧
        Mark.char c :: marks st'.mode l = ms ++ marks .unquoted (scan st' l).2 :=
      fun st' => hcons (.char c) st' _ (fun h => by cases h) fun ms hms => congrArg (c :: ·) hms
    cases st with
    | S1 =>
      by_cases hb : isblank c = true
      · refine ⟨[], fun m hm => absurd hm List.not_mem_nil, ?_, ?_⟩
        · rw [scan_S1, if_pos hb]
          rfl
        · rw [scan_S1, if_pos hb]
          rfl
      · by_cases hs : c = BACKSLASH
        · simp only [scan_S1, State.mode, marks_unquoted, if_neg hb, if_pos hs]
          exact hnone .S2
        · by_cases hq : c = QUOTE
          · simp only [scan_S1, State.mode, marks_unquoted, if_neg hb, if_neg hs, if_pos hq]
            exact hnone .S3
          · simp only [scan_S1, State.mode, marks_unquoted, if_neg hb, if_neg hs, if_neg hq]
            exact hchar .S1
    | S2 => exact hchar .S1
    | S3 =>
      by_cases hq : c = QUOTE
      · simp only [scan_S3, State.mode, marks_quoted, if_pos hq]
        exact hnone .S1
      · simp only [scan_S3, State.mode, marks_quoted, if_neg hq]
        exact hchar .S3

/-- The next word and what is left then. -/
def next (l : List UInt8) : List UInt8 × List UInt8 := scan .S1 (l.dropWhile isblank)

theorem allWords_blank (h : isblank c = true) : allWords (c :: l) = allWords l := by
  have hgap : decide (Mark.gap = Mark.gap) = true := rfl
  rw [allWords, marks_unquoted, if_pos h, List.splitOnP_cons_eq_if_modifyHead, if_pos hgap]
  rfl

theorem allWords_dropWhile (l : List UInt8) : allWords l = allWords (l.dropWhile isblank) := by
  induction l with
  | nil => rfl
  | cons c l ih =>
    by_cases h : isblank c = true
    · rw [allWords_blank h, List.dropWhile_cons_of_pos h, ih]
    · rw [List.dropWhile_cons_of_neg h]

theorem marks_cons (h : isblank c = false) : ∃ m r, m ≠ .gap ∧ marks .unquoted (c :: l) = m :: r := by
  have hb : ¬ isblank c = true := by rw [h]; decide
  rw [marks_unquoted, if_neg hb]
  by_cases hs : c = BACKSLASH
  · rw [if_pos hs]
    exact ⟨_, _, Mark.noConfusion, rfl⟩
  · rw [if_neg hs]
    by_cases hq : c = QUOTE
    · rw [if_pos hq]
      exact ⟨_, _, Mark.noConfusion, rfl⟩
    · rw [if_neg hq]
      exact ⟨_, _, Mark.noConfusion, rfl⟩

/-- A stretch of the line, and the words behind it. -/
theorem allWords_scan (h : isblank c = false) :
    allWords (c :: l) = (scan .S1 (c :: l)).1 :: allWords (scan .S1 (c :: l)).2 := by
  obtain ⟨ms, hgap, htext, hmarks⟩ := scan_marks .S1 (c :: l)
  have hend := scan_atGap .S1 (c :: l)
  have hne : ms ≠ [] := by
    rintro rfl
    obtain ⟨m, r, hm, hfirst⟩ := marks_cons (l := l) h
    rw [List.nil_append] at hmarks
    change marks .unquoted (c :: l) = _ at hmarks
    rw [hfirst] at hmarks
    cases hrest : (scan .S1 (c :: l)).2 with
    | nil =>
      rw [hrest] at hmarks
      cases hmarks
    | cons d rest =>
      rw [hrest] at hmarks hend
      rw [marks_unquoted, if_pos (hend d rfl)] at hmarks
      exact hm (List.cons.inj hmarks).1
  have hgap' : ∀ m ∈ ms, decide (m = Mark.gap) = false := fun m hm => decide_eq_false (hgap m hm)
  rw [← htext]
  cases hrest : (scan .S1 (c :: l)).2 with
  | nil =>
    rw [hrest] at hmarks
    rw [allWords, show marks .unquoted (c :: l) = ms by rw [← List.append_nil ms]; exact hmarks,
      List.splitOnP_eq_singleton hgap', List.filter_cons_of_pos (by simpa using hne)]
    rfl
  | cons d rest =>
    rw [hrest] at hmarks hend
    have hd : isblank d = true := hend d rfl
    have hcons : marks .unquoted (d :: rest) = Mark.gap :: marks .unquoted rest := by rw [marks_unquoted, if_pos hd]
    rw [allWords_blank hd, allWords, show marks .unquoted (c :: l) = ms ++ Mark.gap :: marks .unquoted rest by
      rw [← hcons]; exact hmarks, List.splitOnP_append_cons_of_forall_mem hgap' _ rfl,
      List.filter_cons_of_pos (by simpa using hne)]
    rfl

theorem wordsOf_next (l : List UInt8) :
    wordsOf l = if (next l).1 = [] then [] else (next l).1 :: wordsOf (next l).2 := by
  rw [wordsOf, allWords_dropWhile, next]
  cases hl : l.dropWhile isblank with
  | nil => rfl
  | cons c sb =>
    have hc : isblank c = false := by
      have hhead := List.head?_dropWhile_not isblank l
      rw [hl] at hhead
      exact hhead
    rw [allWords_scan hc]
    by_cases hword : (scan .S1 (c :: sb)).1 = []
    · rw [if_pos hword, hword]
      rfl
    · rw [if_neg hword, List.takeWhile_cons_of_pos (by simpa using hword), wordsOf]

/-! ## All the words -/

theorem flag_fields (s : Slurp) (sb : Option (List UInt8)) :
    (s.flag sb).stringbase = s.stringbase ∧ (s.flag sb).argbase = s.argbase ∧ (s.flag sb).stores = s.stores ∧
      (s.flag sb).slrflag ≠ 0 := by
  unfold Slurp.flag
  split
  · exact ⟨rfl, rfl, rfl, Nat.one_ne_zero⟩
  · exact ⟨rfl, rfl, rfl, Nat.succ_ne_zero 1⟩
  · rename_i h _
    exact ⟨rfl, rfl, rfl, h⟩

/-- What a call comes to: no word, or the next one, which is stored. -/
structure Slurped (s : Slurp) (r : Option (List UInt8) × Slurp) : Prop where
  word : r.1 = if (next s.stringbase).1 = [] then none else some (next s.stringbase).1
  stringbase : (next s.stringbase).1 ≠ [] → r.2.stringbase = (next s.stringbase).2
  argbase : (next s.stringbase).1 ≠ [] → r.2.argbase = s.argbase + (next s.stringbase).1.length + 1
  stores : r.2.stores = s.stores ++ if (next s.stringbase).1 = [] then [] else storeWord s.argbase (next s.stringbase).1
  slrflag : r.2.slrflag ≠ 0

theorem slurped_token (s : Slurp) : Slurped s s.token := by
  unfold Slurp.token
  cases hl : s.stringbase.dropWhile isblank with
  | nil =>
    have hnext : next s.stringbase = ([], []) := by rw [next, hl]; rfl
    obtain ⟨-, -, hst, hfl⟩ := flag_fields s none
    exact ⟨by rw [hnext]; rfl, fun h => absurd (by rw [hnext]) h, fun h => absurd (by rw [hnext]) h,
      by rw [hnext, if_pos rfl, List.append_nil]; exact hst, hfl⟩
  | cons c sb =>
    have hnext : next s.stringbase = scan .S1 (c :: sb) := by rw [next, hl]
    obtain ⟨-, hab, hst, hfl⟩ := flag_fields s (some (c :: sb))
    obtain ⟨-, -, hst', hfl'⟩ := flag_fields (s.flag (some (c :: sb))) none
    simp only
    by_cases hword : (scan .S1 (c :: sb)).1 = []
    · rw [if_pos hword]
      rw [← hnext] at hword
      exact ⟨by rw [if_pos hword], fun h => absurd hword h, fun h => absurd hword h,
        by rw [if_pos hword, List.append_nil]; exact hst'.trans hst, hfl'⟩
    · rw [if_neg hword, ← hnext]
      rw [← hnext] at hword
      exact ⟨by rw [if_neg hword], fun _ => rfl, fun _ => by rw [hab], by rw [if_neg hword, hst, hab], hfl⟩

/-- Behind the first word `!` and `$` are characters like others. -/
theorem slurped_slurpstring (h : s.slrflag ≠ 0) : Slurped s (slurpstring s) := by
  unfold slurpstring
  split
  · split
    · split
      · rename_i h0
        exact absurd h0 h
      · rename_i c sb _ _ _ _
        obtain ⟨h1, h2, h3, h4, h5⟩ := slurped_token { s with slrflag := 2, altarg := some (c :: sb) }
        exact ⟨h1, h2, h3, h4, h5⟩
      · exact slurped_token s
    · exact slurped_token s
  · exact slurped_token s

theorem slurped_first (h : ∀ c ∈ s.stringbase.head?, ¬ (c = BANG ∨ c = DOLLAR)) : Slurped s (slurpstring s) := by
  unfold slurpstring
  split
  · rename_i c sb hsb
    rw [hsb] at h
    rw [if_neg (h c rfl)]
    exact slurped_token s
  · exact slurped_token s

/-- The characters from the next word on. -/
def ahead (l : List UInt8) : Nat := (l.dropWhile isblank).length

theorem ahead_le (l : List UInt8) : ahead l ≤ l.length := (List.dropWhile_suffix _).length_le

/-- The next word goes into what is ahead, and a blank behind it. -/
theorem ahead_next (l : List UInt8) :
    (next l).1.length ≤ ahead l ∧ (ahead (next l).2 = 0 ∨ (next l).1.length + 1 + ahead (next l).2 ≤ ahead l) := by
  have hlen := length_scan .S1 (l.dropWhile isblank)
  have hgap := scan_atGap .S1 (l.dropWhile isblank)
  refine ⟨by rw [next, ahead]; omega, ?_⟩
  rw [next]
  cases hrest : (scan .S1 (l.dropWhile isblank)).2 with
  | nil => exact Or.inl rfl
  | cons d rest =>
    rw [hrest] at hlen hgap
    have hd : isblank d = true := hgap d rfl
    have hle := ahead_le rest
    right
    rw [ahead, List.dropWhile_cons_of_pos hd]
    change _ + 1 + ahead rest ≤ ahead l
    simp only [List.length_cons] at hlen
    unfold ahead at hle ⊢
    omega

theorem mem_storeWord {ap : Nat} {word : List UInt8} {st : Nat × UInt8} (h : st ∈ storeWord ap word) :
    st.1 < ap + word.length + 1 := by
  obtain ⟨⟨c, i⟩, hmem, rfl⟩ := List.mem_map.mp h
  have hi := (List.mk_mem_zipIdx_iff_le_and_getElem?_sub.mp hmem)
  obtain ⟨hle, hget⟩ := hi
  have hlt := (List.getElem?_eq_some_iff.mp hget).1
  rw [List.length_append, List.length_singleton] at hlt
  show i < _
  omega

/-- The words of what is left of the line, and where they are stored. -/
theorem words_slurped (hr : Slurped s (slurpstring s))
    (hrec : (slurpstring s).1 ≠ none → ∃ s', words n (slurpstring s).2 = some (wordsOf (slurpstring s).2.stringbase, s') ∧
      ∀ st ∈ s'.stores, st ∈ (slurpstring s).2.stores ∨
        st.1 < (slurpstring s).2.argbase + ahead (slurpstring s).2.stringbase + 1 ∧
          0 < ahead (slurpstring s).2.stringbase) :
    ∃ s', words (n + 1) s = some (wordsOf s.stringbase, s') ∧
      ∀ st ∈ s'.stores, st ∈ s.stores ∨ st.1 < s.argbase + ahead s.stringbase + 1 ∧ 0 < ahead s.stringbase := by
  rw [words]
  obtain ⟨hword, hsb, hab, hst, -⟩ := hr
  revert hrec hword hsb hab hst
  generalize slurpstring s = r
  obtain ⟨w, s₁⟩ := r
  intro hrec hword hsb hab hst
  simp only at hword hsb hab hst hrec
  rw [wordsOf_next]
  by_cases hnil : (next s.stringbase).1 = []
  · rw [if_pos hnil] at hword hst ⊢
    subst hword
    refine ⟨s₁, rfl, fun st hmem => Or.inl ?_⟩
    rw [hst, List.append_nil] at hmem
    exact hmem
  · rw [if_neg hnil] at hword hst ⊢
    subst hword
    obtain ⟨s', hwords, hstores⟩ := hrec (Option.some_ne_none _)
    obtain ⟨hlen, hnext⟩ := ahead_next s.stringbase
    have hpos := List.length_pos_iff.mpr hnil
    rw [hsb hnil] at hwords hstores
    refine ⟨s', by simp only [hwords, Option.map_some], fun st hmem => ?_⟩
    rcases hstores st hmem with h | ⟨hlt, hahead⟩
    · rw [hst] at h
      rcases List.mem_append.mp h with h | h
      · exact Or.inl h
      · have := mem_storeWord h
        right
        omega
    · rw [hab hnil] at hlt
      right
      omega

theorem words_spec (hn : s.stringbase.length < n) (hs : s.slrflag ≠ 0) :
    ∃ s', words n s = some (wordsOf s.stringbase, s') ∧
      ∀ st ∈ s'.stores, st ∈ s.stores ∨ st.1 < s.argbase + ahead s.stringbase + 1 ∧ 0 < ahead s.stringbase := by
  induction n generalizing s with
  | zero => omega
  | succ n ih =>
    have hr := slurped_slurpstring hs
    apply words_slurped hr
    intro hsome
    have hnil : (next s.stringbase).1 ≠ [] := by
      intro hnil
      rw [hr.word, if_pos hnil] at hsome
      exact hsome rfl
    have hlen := length_scan .S1 (s.stringbase.dropWhile isblank)
    have hle := ahead_le s.stringbase
    have hpos := List.length_pos_iff.mpr hnil
    apply ih ?_ hr.slrflag
    rw [hr.stringbase hnil]
    unfold ahead at hle
    unfold next at hpos ⊢
    omega

/-- The stores of a whole line are within its length. -/
theorem words_line (altarg : Option (List UInt8)) (line : List UInt8) :
    ∃ s', words (line.length + 1) ⟨line, 0, 0, altarg, []⟩ = some (commandWords line, s') ∧
      ∀ st ∈ s'.stores, st.1 < line.length + 1 := by
  by_cases hfirst : ∀ c ∈ line.head?, ¬ (c = BANG ∨ c = DOLLAR)
  · have hr := slurped_first (s := ⟨line, 0, 0, altarg, []⟩) hfirst
    have hcommand : commandWords line = wordsOf line := by
      cases line with
      | nil => rfl
      | cons c l => rw [commandWords, if_neg (hfirst c rfl)]
    have hspec := words_slurped (n := line.length) hr ?_
    · obtain ⟨s', hwords, hstores⟩ := hspec
      refine ⟨s', hwords.trans (by rw [hcommand]), fun st hst => ?_⟩
      have hle := ahead_le line
      have hlt := ((hstores st hst).resolve_left List.not_mem_nil).1
      simp only at hlt
      omega
    · intro hsome
      have hnil : (next line).1 ≠ [] := by
        intro hnil
        rw [hr.word, if_pos hnil] at hsome
        exact hsome rfl
      have hlen := length_scan .S1 (line.dropWhile isblank)
      have hle := ahead_le line
      have hpos := List.length_pos_iff.mpr hnil
      apply words_spec ?_ hr.slrflag
      rw [hr.stringbase hnil]
      change (scan .S1 (line.dropWhile isblank)).2.length < line.length
      unfold ahead at hle
      unfold next at hpos
      omega
  · obtain ⟨c, l, rfl, hc⟩ : ∃ c l, line = c :: l ∧ (c = BANG ∨ c = DOLLAR) := by
      cases line with
      | nil => exact absurd (fun c hc => by cases hc) hfirst
      | cons c l =>
        refine ⟨c, l, rfl, ?_⟩
        by_contra hc
        apply hfirst
        intro d hd
        obtain rfl := Option.some.inj hd
        exact hc
    obtain ⟨s', hwords, hstores⟩ := words_spec (n := (c :: l).length) (s := ⟨l, 0, 1, altarg, []⟩) (Nat.lt_succ_self _)
      Nat.one_ne_zero
    have hslurp : slurpstring ⟨c :: l, 0, 0, altarg, []⟩ = (some [c], ⟨l, 0, 1, altarg, []⟩) := if_pos hc
    refine ⟨s', ?_, fun st hst => ?_⟩
    · rw [words, hslurp]
      simp only [hwords, Option.map_some, commandWords, if_pos hc]
    · have hle := ahead_le l
      have hlt := ((hstores st hst).resolve_left List.not_mem_nil).1
      simp only [List.length_cons] at hlt ⊢
      omega

/-- Every line below MAXLINE stays in argbuf and gives its words; it stays in margv just if
    there are less than 20 of them. -/
theorem makeargv_iff (altarg : Option (List UInt8)) (line : List UInt8) (hline : line.length < MAXLINE) :
    ∃ a, makeargv altarg line = some a ∧ (Stays line a ↔ (commandWords line).length < MARGV) := by
  obtain ⟨s', hwords, hstores⟩ := words_line altarg line
  have hslots : (∀ i ∈ List.range ((commandWords line).length + 1), i < MARGV) ↔ (commandWords line).length < MARGV := by
    simp only [List.mem_range]
    exact ⟨fun h => h _ (Nat.lt_succ_self _), fun h i hi => by omega⟩
  refine ⟨⟨commandWords line, s'.altarg, s'.stores⟩, by rw [makeargv, hwords]; rfl, ?_⟩
  rw [Stays, Argv.slots, hslots]
  exact ⟨fun h => h.2.1, fun h => ⟨rfl, h, fun st hst => Nat.lt_of_lt_of_le (hstores st hst) hline⟩⟩

/-- `a b "c d"\ e` -/
def threeWords : List UInt8 := [0x61, BLANK, 0x62, BLANK, QUOTE, 0x63, BLANK, 0x64, QUOTE, BACKSLASH, BLANK, 0x65]

theorem makeargv_three_words : ∃ a, makeargv none threeWords = some a ∧
    (Stays threeWords a ↔ (commandWords threeWords).length < MARGV) :=
  makeargv_iff none threeWords (by decide)

/-- Twenty words of a letter. -/
def twentyWords : List UInt8 := (List.replicate 20 [0x61, BLANK]).flatten

set_option maxRecDepth 2000 in
/-- The null pointer behind twenty words is outside margv. -/
theorem twenty_words_overrun : ∃ a, makeargv none twentyWords = some a ∧ ¬ Stays twentyWords a := by
  obtain ⟨s', hwords, -⟩ := words_line none twentyWords
  refine ⟨⟨commandWords twentyWords, s'.altarg, s'.stores⟩, by rw [makeargv, hwords]; rfl, fun h => ?_⟩
  have hlen : (commandWords twentyWords).length = 20 := by decide
  have hslot := h.2.1 20 (by rw [Argv.slots, hlen]; decide)
  exact absurd hslot (by decide)

end Netutils.Ftp.Makeargv
