/-
  Netutils.Syslogd.Init — how init of syslogd (syslogd/syslogd.c) reads the configuration, and
  the logical lines that it is to hand to cfline.

  Five things are lost. A line that does not fit in the buffer is read on over its last
  character. What is behind the last newline is taken for such a line, and the file ends; with it
  goes a line that it continues. Whether a line is continued is decided by the last character
  of all that is joined: behind a blank continuation it is decided again by the line before it.
  And leading white space is removed by a strcpy that overlaps itself, which is undefined.
  A configuration whose lines fit is read as written, whatever strcpy does, exactly where none of
  the others matters (`init_iff`).
-/

import Mathlib.Data.List.DropRight
import Netutils.Libc.Stdio
import Netutils.Syslogd.Cfline

namespace Netutils.Syslogd

open Netutils.Arpa Netutils.Libc

def LINE_MAX : Nat := 2048

def hash : UInt8 := 0x23
def backslash : UInt8 := 0x5c

/-! ## The reader -/

/-- `strcpy (cline, p)`, with p that far behind cline, and what cline is then. Where they overlap
    any text no longer than the one at p will do. -/
structure Strcpy where
  run : Nat → Str → Str
  same : ∀ t, run 0 t = t
  length : ∀ k t, (run k t).length ≤ t.length
  nul : ∀ k t, NUL ∉ t → NUL ∉ run k t

structure Reader where
  line_max : Nat := LINE_MAX
  /-- What is in cbuf in front of cline. -/
  cbuf : Str := []
  cont_line : Bool := false
  /-- The lines that cfline has been called with. -/
  calls : List Str := []
  /-- cline is in front of cbuf. -/
  broken : Bool := false
  deriving DecidableEq

/-- Nothing, or a comment. -/
def isComment (t : Str) : Bool := (t.dropWhile isspace).head?.all (· == hash)

/-- The text, without the white space at its ends. -/
def Strcpy.trim (strcpy : Strcpy) (t : Str) : Str :=
  (strcpy.run (t.takeWhile isspace).length (t.dropWhile isspace)).rdropWhile isspace

/-- One turn of the loop, on what fgets has put at cline. -/
def Reader.turn (strcpy : Strcpy) (r : Reader) (s : Str) : Reader :=
  let s := if r.cont_line then s.dropWhile isBlank else s
  let cbuf := r.cbuf ++ s
  if LF ∉ s then
    -- "No newline, so the line is too big for the buffer."
    { r with line_max := r.line_max * 2, cbuf := cbuf.dropLast, cont_line := false, broken := cbuf.isEmpty }
  else if isComment cbuf then { r with cbuf := [], cont_line := false }
  else
    let cline := strcpy.trim cbuf
    if cline.getLast? = some backslash then { r with cbuf := cline.dropLast, cont_line := true }
    else { r with cbuf := [], cont_line := false, calls := r.calls ++ [cline] }

/-- At most so many turns. -/
def Reader.read (strcpy : Strcpy) : Nat → Reader → Str → Reader
  | 0, r, _ => r
  | k + 1, r, file =>
    if r.broken then r
    else
      match fgets (r.line_max - r.cbuf.length) file with
      | none => r
      | some (s, file) => Reader.read strcpy k (r.turn strcpy (cstring s)) file

/-- The calls of cfline; each turn takes some of the file. -/
def init (strcpy : Strcpy) (file : Str) : List Str := (Reader.read strcpy (file.length + 1) {} file).calls

/-! ## The logical lines -/

/-- A text without the white space at its ends. -/
def trim (t : Str) : Str := (t.dropWhile isspace).rdropWhile isspace

/-- The physical lines; the last one is not ended by a newline. -/
def physicalLines (file : Str) : List Str := file.splitOn LF

/-- The last character of a line that is no white space is a backslash. -/
def continues (line : Str) : Bool := (line.rdropWhile isspace).getLast? == some backslash

/-- The text without the backslash, and what is behind it. -/
def cut (t : Str) : Str := (trim t).dropLast

/-- The text of a logical line so far, with a physical line joined to it. -/
def join : Option Str → Str → Str
  | none, line => line
  | some t, line => t ++ line.dropWhile isBlank

/-- The physical line starts a logical line. -/
def starts (t : Option Str) : Bool := (t.getD []).all isspace

/-- The text to join the next line to, behind a physical line. -/
def pending (t : Option Str) (line : Str) : Option Str :=
  if starts t && isComment (join t line) then none
  else if continues line then some (cut (join t line))
  else none

/-- The logical line that ends with a physical line. -/
def ended (t : Option Str) (line : Str) : List Str :=
  if starts t && isComment (join t line) then []
  else if continues line then []
  else [trim (join t line)]

/-- The logical lines; at the end of the file the last one ends as it is. -/
def logicalLines (t : Option Str) : List Str → List Str
  | [] => (t.filter fun t => !t.all isspace).toList.map trim
  | line :: lines => ended t line ++ logicalLines (pending t line) lines

/-! ## What is read as written -/

/-- Each line that is ended by a newline fits in the buffer behind what it is joined to. -/
def Fits (t : Option Str) : List Str → Prop
  | [] | [_] => True
  | line :: lines => (t.getD []).length + line.length + 2 ≤ LINE_MAX ∧ Fits (pending t line) lines

/-- A blank line continues a line that has another backslash in front of its last one. -/
def Doubled (t : Option Str) (line : Str) : Prop := line.all isspace = true ∧ continues (t.getD []) = true

/-- No such line, and no logical line behind the last newline. -/
def Whole (t : Option Str) : List Str → Prop
  | [] => True
  | [line] => logicalLines t [line] = []
  | line :: lines => ¬ Doubled t line ∧ Whole (pending t line) lines

/-- A comment, or a text that starts with no white space. -/
def InPlace (t : Str) : Prop := isComment t = true ∨ t.head?.all (!isspace ·) = true

/-- No text that is to be read has leading white space; what is behind the last newline has not
    come to it. -/
def Placed (t : Option Str) : List Str → Prop
  | [] | [_] => True
  | line :: lines => InPlace (join t line) ∧ Placed (pending t line) lines

/-! ## The last character -/

/-- The last character that is no white space. -/
def lastChar (t : Str) : Option UInt8 := t.reverse.find? (!isspace ·)

variable {a b t line : Str}

theorem getLast?_rdropWhile (t : Str) : (t.rdropWhile isspace).getLast? = lastChar t := by
  rw [List.rdropWhile, List.getLast?_reverse, lastChar, List.find?_not_eq_head?_dropWhile]

theorem continues_eq (line : Str) : continues line = (lastChar line == some backslash) := by
  rw [continues, getLast?_rdropWhile]

theorem lastChar_append (a b : Str) : lastChar (a ++ b) = (lastChar b).or (lastChar a) := by
  rw [lastChar, List.reverse_append, List.find?_append]
  rfl

theorem lastChar_eq_none : lastChar t = none ↔ t.all isspace = true := by
  simp [lastChar, List.find?_eq_none]

theorem lastChar_dropWhile {p : UInt8 → Bool} (hp : ∀ c, p c = true → isspace c = true) (t : Str) :
    lastChar (t.dropWhile p) = lastChar t := by
  have hfront : lastChar (t.takeWhile p) = none := by
    rw [lastChar_eq_none, List.all_eq_true]
    exact fun c hc => hp c (List.mem_takeWhile_imp hc)
  calc lastChar (t.dropWhile p)
      = lastChar (t.takeWhile p ++ t.dropWhile p) := by rw [lastChar_append, hfront, Option.or_none]
    _ = lastChar t := by rw [List.takeWhile_append_dropWhile]

theorem getLast?_trim (t : Str) : (trim t).getLast? = lastChar t := by
  rw [trim, getLast?_rdropWhile, lastChar_dropWhile fun _ h => h]

theorem isspace_of_isBlank {c : UInt8} (h : isBlank c = true) : isspace c = true := by
  simp only [isBlank, Bool.or_eq_true, beq_iff_eq] at h
  rcases h with rfl | rfl <;> decide

/-! ## A line with its newline -/

/-- What a logical line is like once it has started. -/
def Led (t : Option Str) : Prop := starts t = false → isComment (t.getD []) = false

theorem isComment_append (h : a.all isspace = false) (b : Str) : isComment (a ++ b) = isComment a := by
  rw [isComment, isComment, List.dropWhile_append]
  have hne : (a.dropWhile isspace).isEmpty = false := by
    rw [List.isEmpty_eq_false_iff, Ne, List.dropWhile_eq_nil_iff]
    intro hall
    rw [List.all_eq_true.mpr hall] at h
    exact Bool.noConfusion h
  rw [if_neg (by rw [hne]; exact Bool.false_ne_true)]
  cases hdrop : a.dropWhile isspace with
  | nil => rw [hdrop] at hne; exact Bool.noConfusion hne
  | cons c l => rfl

theorem isComment_space (h : t.all isspace = true) : isComment t = true := by
  rw [isComment, List.dropWhile_eq_nil_iff.mpr (List.all_eq_true.mp h)]
  rfl

theorem isComment_lf (t : Str) : isComment (t ++ [LF]) = isComment t := by
  cases h : t.all isspace with
  | false => exact isComment_append h _
  | true =>
    have hall : (t ++ [LF]).all isspace = true := by
      rw [List.all_append, h]
      decide
    rw [isComment_space h, isComment_space hall]

theorem trim_lf (t : Str) : trim (t ++ [LF]) = trim t := by
  have hlf : isspace LF = true := by decide
  rw [trim, trim, List.dropWhile_append]
  split
  · rename_i hnil
    rw [List.isEmpty_iff.mp hnil]
    decide
  · rw [List.rdropWhile_concat, if_pos hlf]

theorem dropWhile_blank_lf (line : Str) : (line ++ [LF]).dropWhile isBlank = line.dropWhile isBlank ++ [LF] := by
  have hlf : isBlank LF = false := by decide
  rw [List.dropWhile_append]
  split
  · rename_i hnil
    rw [List.isEmpty_iff.mp hnil, List.dropWhile_cons, hlf, if_neg Bool.false_ne_true]
    rfl
  · rfl

/-! ## One turn -/

/-- The reader is behind a physical line, with this much of a logical one. -/
structure Reader.Holds (r : Reader) (t : Option Str) : Prop where
  line_max : r.line_max = LINE_MAX
  cbuf : r.cbuf = t.getD []
  cont_line : r.cont_line = t.isSome
  sound : r.broken = false

variable {strcpy : Strcpy} {r : Reader} {o : Option Str}

theorem join_nil (o : Option Str) (line : Str) : lastChar (join o line) = (lastChar line).or (lastChar (o.getD [])) := by
  cases o with
  | none => exact (Option.or_none).symm
  | some t => rw [join, lastChar_append, lastChar_dropWhile fun _ => isspace_of_isBlank, Option.getD_some]

/-- Nothing has been read of a logical line. -/
theorem led_none : Led none := by
  intro h
  cases h

/-- Only a line that starts a logical one can be a comment. -/
theorem Led.comment (h : Led o) (line : Str) : (starts o && isComment (join o line)) = isComment (join o line) := by
  cases hstarts : starts o with
  | true => exact Bool.true_and _
  | false =>
    cases o with
    | none => exact Bool.noConfusion hstarts
    | some t =>
      rw [Bool.false_and, join]
      exact ((isComment_append hstarts _).trans (h hstarts)).symm

theorem isComment_cons {c : UInt8} (hc : isspace c = false) (l : Str) : isComment (c :: l) = (c == hash) := by
  rw [isComment, List.dropWhile_cons, hc, if_neg Bool.false_ne_true]
  rfl

theorem led_cut (h : isComment t = false) : Led (some (cut t)) := by
  intro hstarts
  have hprefix : cut t <+: t.dropWhile isspace := (List.dropLast_prefix _).trans (List.rdropWhile_prefix _ _)
  rw [Option.getD_some]
  cases hcut : cut t with
  | nil =>
    rw [hcut] at hstarts
    exact Bool.noConfusion hstarts
  | cons c l =>
    obtain ⟨rest, hrest⟩ := hprefix
    rw [hcut, List.cons_append] at hrest
    have hc : isspace c = false := by
      have := List.head?_dropWhile_not isspace t
      rwa [← hrest] at this
    rw [isComment_cons hc]
    rw [isComment, ← hrest] at h
    exact h

/-- What decides in the source, and what is to decide. -/
theorem lastChar_join (o : Option Str) (line : Str) :
    lastChar (join o line) = some backslash ↔ continues line = true ∨ Doubled o line := by
  rw [join_nil, continues_eq, Doubled, continues_eq, beq_iff_eq, beq_iff_eq, ← lastChar_eq_none]
  cases lastChar line with
  | none => simp
  | some c => simp

/-- There is nothing to move. -/
theorem Strcpy.trim_inPlace (h : t.head?.all (!isspace ·) = true) : strcpy.trim t = Syslogd.trim t := by
  have hnone : t.takeWhile isspace = [] ∧ t.dropWhile isspace = t := by
    cases t with
    | nil => exact ⟨rfl, rfl⟩
    | cons c l =>
      have hc : ¬ isspace c = true := by simpa using h
      rw [List.takeWhile_cons, List.dropWhile_cons, if_neg hc, if_neg hc]
      exact ⟨rfl, rfl⟩
  rw [trim, hnone.1, hnone.2, List.length_nil, strcpy.same, Syslogd.trim, hnone.2]

/-- What is in the buffer when the line is read, and where the turn goes on. -/
theorem Reader.Holds.turn_line (h : r.Holds o) (line : Str) :
    r.turn strcpy (line ++ [LF]) =
      if isComment (join o line) then { r with cbuf := [], cont_line := false }
      else if (strcpy.trim (join o line ++ [LF])).getLast? = some backslash then
        { r with cbuf := (strcpy.trim (join o line ++ [LF])).dropLast, cont_line := true }
      else { r with cbuf := [], cont_line := false, calls := r.calls ++ [strcpy.trim (join o line ++ [LF])] } := by
  have hs : r.cbuf ++ (if r.cont_line then (line ++ [LF]).dropWhile isBlank else line ++ [LF]) = join o line ++ [LF] := by
    rw [h.cbuf, h.cont_line]
    cases o with
    | none => rfl
    | some t =>
      rw [Option.isSome_some, if_pos rfl, dropWhile_blank_lf, join, Option.getD_some, List.append_assoc]
  have hmem : LF ∈ (if r.cont_line then (line ++ [LF]).dropWhile isBlank else line ++ [LF]) := by
    split
    · rw [dropWhile_blank_lf]
      exact List.mem_concat_self
    · exact List.mem_concat_self
  rw [Reader.turn]
  simp only [hs, isComment_lf, not_not.mpr hmem, if_false]

/-- The turn on a line that is ended by a newline, with nothing to move. -/
theorem Reader.Holds.turn_inPlace (h : r.Holds o) {line : Str} (hplaced : InPlace (join o line)) :
    r.turn strcpy (line ++ [LF]) =
      if isComment (join o line) then { r with cbuf := [], cont_line := false }
      else if lastChar (join o line) = some backslash then { r with cbuf := cut (join o line), cont_line := true }
      else { r with cbuf := [], cont_line := false, calls := r.calls ++ [trim (join o line)] } := by
  rw [h.turn_line]
  rcases hplaced with hcomment | hplaced
  · rw [if_pos hcomment, if_pos hcomment]
  · split
    · rfl
    · rename_i hcomment
      have hhead : (join o line ++ [LF]).head?.all (!isspace ·) = true := by
        cases hjoin : join o line with
        | nil =>
          rw [hjoin] at hcomment
          exact absurd rfl hcomment
        | cons c l =>
          rw [hjoin] at hplaced
          exact hplaced
      rw [Strcpy.trim_inPlace hhead, trim_lf, getLast?_trim, cut]

theorem Reader.Holds.turn (h : r.Holds o) {line : Str} (hplaced : InPlace (join o line)) :
    ∃ r' : Reader, (∀ strcpy, r.turn strcpy (line ++ [LF]) = r') ∧
      ((isComment (join o line) = true ∧ r'.Holds none ∧ r'.calls = r.calls) ∨
        (isComment (join o line) = false ∧ lastChar (join o line) = some backslash ∧
          r'.Holds (some (cut (join o line))) ∧ r'.calls = r.calls) ∨
        (isComment (join o line) = false ∧ lastChar (join o line) ≠ some backslash ∧
          r'.Holds none ∧ r'.calls = r.calls ++ [trim (join o line)])) := by
  refine ⟨_, fun strcpy => h.turn_inPlace hplaced, ?_⟩
  cases hcomment : isComment (join o line) with
  | true => exact Or.inl ⟨rfl, ⟨h.line_max, rfl, rfl, h.sound⟩, rfl⟩
  | false =>
    right
    by_cases hlast : lastChar (join o line) = some backslash
    · rw [if_neg Bool.false_ne_true, if_pos hlast]
      exact Or.inl ⟨rfl, hlast, ⟨h.line_max, rfl, rfl, h.sound⟩, rfl⟩
    · rw [if_neg Bool.false_ne_true, if_neg hlast]
      exact Or.inr ⟨rfl, hlast, ⟨h.line_max, rfl, rfl, h.sound⟩, rfl⟩

/-! ## A text that is moved -/

/-- strcpy, if the two did not overlap. -/
def Strcpy.memmove : Strcpy where
  run _ t := t
  same _ := rfl
  length _ _ := Nat.le_refl _
  nul _ _ h := h

/-- Every character that is moved comes out as this one. -/
def Strcpy.garble (c : UInt8) (hc : c ≠ NUL) : Strcpy where
  run k t := if k = 0 then t else List.replicate t.length c
  same _ := if_pos rfl
  length k t := by
    split
    · exact Nat.le_refl _
    · rw [List.length_replicate]
  nul k t h := by
    split
    · exact h
    · exact fun hmem => hc (List.eq_of_mem_replicate hmem).symm

/-- A text that is moved and comes out so is handed to cfline. -/
theorem Reader.Holds.turn_moved (h : r.Holds o) {line : Str} (hmoved : ¬ InPlace (join o line)) :
    ∃ m, 0 < m ∧ ∀ c (hc : c ≠ NUL), isspace c = false → c ≠ backslash →
      (r.turn (.garble c hc) (line ++ [LF])).calls = r.calls ++ [List.replicate m c] := by
  rw [InPlace, not_or, Bool.not_eq_true] at hmoved
  obtain ⟨hcomment, hhead⟩ := hmoved
  generalize hjoin : join o line = t at hcomment hhead
  cases t with
  | nil => exact absurd rfl hhead
  | cons x l =>
  have hx : isspace x = true := by simpa using hhead
  have hdrop : (x :: l ++ [LF]).dropWhile isspace ≠ [] := by
    intro hnil
    rw [← isComment_lf, isComment, hnil] at hcomment
    exact Bool.noConfusion hcomment
  refine ⟨((x :: l ++ [LF]).dropWhile isspace).length, List.length_pos_iff.mpr hdrop, fun c hc hspace hback => ?_⟩
  have hk : ((x :: l ++ [LF]).takeWhile isspace).length ≠ 0 := by
    rw [List.cons_append, List.takeWhile_cons, if_pos hx]
    exact Nat.succ_ne_zero _
  have htrim : (Strcpy.garble c hc).trim (x :: l ++ [LF]) =
      List.replicate ((x :: l ++ [LF]).dropWhile isspace).length c := by
    rw [Strcpy.trim, Strcpy.garble]
    simp only [if_neg hk]
    rw [List.rdropWhile_eq_self_iff]
    intro hne
    rw [List.eq_of_mem_replicate (List.getLast_mem hne), hspace]
    exact Bool.false_ne_true
  have hlast : (List.replicate ((x :: l ++ [LF]).dropWhile isspace).length c).getLast? ≠ some backslash := by
    intro hlast
    exact hback (List.eq_of_mem_replicate (List.mem_of_getLast? hlast)).symm
  rw [h.turn_line, hjoin, htrim, hcomment, if_neg Bool.false_ne_true, if_neg hlast]

/-! ## The whole file -/

/-- A text that ends with a backslash is always taken for a continued one. -/
theorem turn_ends (h : ∀ x ∈ r.calls, lastChar x ≠ some backslash) (s : Str) :
    ∀ x ∈ (r.turn strcpy s).calls, lastChar x ≠ some backslash := by
  rw [Reader.turn]
  generalize (if r.cont_line then s.dropWhile isBlank else s) = s
  split
  · exact h
  · split
    · exact h
    · simp only
      split
      · exact h
      · rename_i hlast
        intro x hx
        rcases List.mem_append.mp hx with hx | hx
        · exact h x hx
        · rw [List.mem_singleton.mp hx, ← getLast?_rdropWhile, Strcpy.trim, List.rdropWhile_idempotent]
          exact hlast

theorem read_ends (k : Nat) (file : Str) (h : ∀ x ∈ r.calls, lastChar x ≠ some backslash) :
    ∀ x ∈ (Reader.read strcpy k r file).calls, lastChar x ≠ some backslash := by
  induction k generalizing r file with
  | zero => exact h
  | succ k ih =>
    rw [Reader.read]
    split
    · exact h
    · split
      · exact h
      · exact ih _ (turn_ends h _)

/-- What is behind the last newline comes to nothing. -/
theorem read_rest (k : Nat) {file : Str} (hlf : LF ∉ file) : (Reader.read strcpy k r file).calls = r.calls := by
  induction k generalizing r file with
  | zero => rfl
  | succ k ih =>
    rw [Reader.read]
    split
    · rfl
    · split
      · rfl
      · rename_i s rest hget
        rw [fgets] at hget
        split at hget
        · cases hget
        · obtain ⟨rfl, rfl⟩ := Prod.mk.inj (Option.some.inj hget)
          have hsplit := piece_append (r.line_max - r.cbuf.length - 1) file
          generalize piece (r.line_max - r.cbuf.length - 1) file = p at hsplit ⊢
          rw [← hsplit, List.mem_append, not_or] at hlf
          have hstring : LF ∉ cstring p.1 := fun h => hlf.1 ((cstring_prefix_self _).subset h)
          have hnot : LF ∉ (if r.cont_line then (cstring p.1).dropWhile isBlank else cstring p.1) := by
            split
            · exact fun h => hstring ((List.dropWhile_suffix _).subset h)
            · exact hstring
          rw [ih hlf.2, Reader.turn]
          simp only [hnot, not_false_iff, if_true]

theorem physicalLines_cons (ha : LF ∉ a) (b : Str) : physicalLines (a ++ LF :: b) = a :: physicalLines b :=
  List.splitOn_append_cons_self_of_not_mem ha b

theorem physicalLines_last (ha : LF ∉ a) : physicalLines a = [a] := List.splitOn_eq_singleton ha

theorem fits_cons {lines : List Str} (hne : lines ≠ []) : Fits o (line :: lines) ↔
    (o.getD []).length + line.length + 2 ≤ LINE_MAX ∧ Fits (pending o line) lines := by
  cases lines with
  | nil => exact absurd rfl hne
  | cons _ _ => exact Iff.rfl

theorem whole_cons {lines : List Str} (hne : lines ≠ []) : Whole o (line :: lines) ↔
    ¬ Doubled o line ∧ Whole (pending o line) lines := by
  cases lines with
  | nil => exact absurd rfl hne
  | cons _ _ => exact Iff.rfl

theorem placed_cons {lines : List Str} (hne : lines ≠ []) : Placed o (line :: lines) ↔
    InPlace (join o line) ∧ Placed (pending o line) lines := by
  cases lines with
  | nil => exact absurd rfl hne
  | cons _ _ => exact Iff.rfl

theorem not_doubled_of_comment (hled : Led o) (h : isComment (join o line) = true) : ¬ Doubled o line := by
  intro h
  obtain ⟨-, hcont⟩ := h
  have hstarts : starts o = true := by
    have := hled.comment line
    rw [h, Bool.and_true] at this
    exact this
  rw [continues_eq, beq_iff_eq] at hcont
  rw [starts, ← lastChar_eq_none, hcont] at hstarts
  exact nomatch hstarts

/-- What a line adds, by the two tests of the source. -/
theorem skipped_line (hled : Led o) (h : isComment (join o line) = true) : pending o line = none ∧ ended o line = [] := by
  rw [pending, ended, hled.comment, h]
  exact ⟨rfl, rfl⟩

theorem continued_line (hled : Led o) (h : isComment (join o line) = false) (hcont : continues line = true) :
    pending o line = some (cut (join o line)) ∧ ended o line = [] := by
  rw [pending, ended, hled.comment, h, hcont]
  exact ⟨rfl, rfl⟩

theorem ended_line (hled : Led o) (h : isComment (join o line) = false) (hcont : continues line = false) :
    pending o line = none ∧ ended o line = [trim (join o line)] := by
  rw [pending, ended, hled.comment, h, hcont]
  exact ⟨rfl, rfl⟩

theorem not_doubled_of_continues (h : continues line = true) : ¬ Doubled o line := by
  intro h
  obtain ⟨hblank, -⟩ := h
  rw [continues_eq, lastChar_eq_none.mpr hblank] at h
  exact Bool.noConfusion h

/-- fgets takes a line that fits. -/
theorem Reader.Holds.read (h : r.Holds o) (k : Nat) {rest : Str} (hline : LF ∉ line) (hnul : NUL ∉ line)
    (hfits : (o.getD []).length + line.length + 2 ≤ LINE_MAX) :
    Reader.read strcpy (k + 1) r (line ++ LF :: rest) = Reader.read strcpy k (r.turn strcpy (line ++ [LF])) rest := by
  have hget : fgets (r.line_max - r.cbuf.length) (line ++ LF :: rest) = some (line ++ [LF], rest) := by
    rw [fgets, if_neg (by simp), piece_line hline]
    rw [h.line_max, h.cbuf]
    omega
  have hstring : cstring (line ++ [LF]) = line ++ [LF] := by
    refine cstring_of_not_mem ?_
    rw [List.mem_append, not_or]
    exact ⟨hnul, by decide⟩
  rw [Reader.read, h.sound, if_neg Bool.false_ne_true, hget]
  simp only [hstring]

theorem turn_calls (r : Reader) (s : Str) : r.calls <+: (r.turn strcpy s).calls := by
  rw [Reader.turn]
  generalize (if r.cont_line then s.dropWhile isBlank else s) = s
  split
  · exact List.prefix_rfl
  · split
    · exact List.prefix_rfl
    · simp only
      split
      · exact List.prefix_rfl
      · exact List.prefix_append _ _

theorem read_calls (k : Nat) (r : Reader) (file : Str) : r.calls <+: (Reader.read strcpy k r file).calls := by
  induction k generalizing r file with
  | zero => exact List.prefix_rfl
  | succ k ih =>
    rw [Reader.read]
    split
    · exact List.prefix_rfl
    · split
      · exact List.prefix_rfl
      · exact (turn_calls r _).trans (ih _ _)

/-- What is called with a text that has been moved is not the same for every strcpy. -/
theorem read_moved (k : Nat) (h : r.Holds o) (hmoved : ¬ InPlace (join o line)) (rest : Str) (l : List Str) :
    ¬ ∀ strcpy, (Reader.read strcpy k (r.turn strcpy (line ++ [LF])) rest).calls = l := by
  intro hall
  obtain ⟨m, hm, hcalls⟩ := h.turn_moved hmoved
  have hprefix : ∀ c (hc : c ≠ NUL), isspace c = false → c ≠ backslash → r.calls ++ [List.replicate m c] <+: l := by
    intro c hc hspace hback
    rw [← hall (.garble c hc), ← hcalls c hc hspace hback]
    exact read_calls _ _ _
  have hx := hprefix 0x78 (by decide) (by decide) (by decide)
  have hy := hprefix 0x79 (by decide) (by decide) (by decide)
  have hle : (r.calls ++ [List.replicate m (0x78 : UInt8)]).length ≤ (r.calls ++ [List.replicate m (0x79 : UInt8)]).length := by
    simp only [List.length_append, List.length_singleton, Nat.le_refl]
  have heq := (List.prefix_of_prefix_length_le hx hy hle).eq_of_length (by simp only [List.length_append, List.length_singleton])
  have hsame := List.singleton_inj.mp (List.append_cancel_left heq)
  rw [List.replicate_inj] at hsame
  exact absurd (hsame.2.resolve_left (Nat.ne_of_gt hm)) (by decide)

theorem read_iff (k : Nat) (file : Str) (hk : file.length < k) (hnul : NUL ∉ file) (h : r.Holds o) (hled : Led o)
    (hfits : Fits o (physicalLines file)) (hends : ∀ x ∈ r.calls, lastChar x ≠ some backslash) :
    (∀ strcpy, (Reader.read strcpy k r file).calls = r.calls ++ logicalLines o (physicalLines file)) ↔
      Whole o (physicalLines file) ∧ Placed o (physicalLines file) := by
  induction k generalizing r o file with
  | zero => omega
  | succ k ih =>
    by_cases hlf : LF ∈ file
    · obtain ⟨line, rest, rfl, hline⟩ := List.eq_append_cons_of_mem hlf
      have hne : physicalLines rest ≠ [] := List.splitOn_ne_nil _ _
      simp only [List.mem_append, List.mem_cons, not_or] at hnul
      rw [physicalLines_cons hline, fits_cons hne] at hfits
      rw [physicalLines_cons hline, whole_cons hne, placed_cons hne, logicalLines]
      have hrest : rest.length < k := by
        rw [List.length_append, List.length_cons] at hk
        omega
      simp only [h.read k hline hnul.1 hfits.1]
      by_cases hplaced : InPlace (join o line)
      swap
      · exact iff_of_false (read_moved k h hplaced rest _) fun hw => hplaced hw.2.1
      obtain ⟨r', hturn, hcases⟩ := h.turn hplaced
      have hends' : ∀ x ∈ r'.calls, lastChar x ≠ some backslash := by
        rw [← hturn .memmove]
        exact turn_ends hends _
      have hlast := lastChar_join o line
      simp only [hturn]
      rcases hcases with ⟨hcomment, hholds, hcalls⟩ | ⟨hcomment, hback, hholds, hcalls⟩ | ⟨hcomment, hback, hholds, hcalls⟩
      · obtain ⟨hpending, hended⟩ := skipped_line hled hcomment
        rw [hpending] at hfits ⊢
        rw [hended, List.nil_append, ← hcalls, ih rest hrest hnul.2.2 hholds led_none hfits.2 hends',
          and_iff_right (not_doubled_of_comment hled hcomment), and_iff_right hplaced]
      · cases hcont : continues line with
        | true =>
          obtain ⟨hpending, hended⟩ := continued_line hled hcomment hcont
          rw [hpending] at hfits ⊢
          rw [hended, List.nil_append, ← hcalls, ih rest hrest hnul.2.2 hholds (led_cut hcomment) hfits.2 hends',
            and_iff_right (not_doubled_of_continues hcont), and_iff_right hplaced]
        | false =>
          -- the logical line ends with a backslash, and no call does
          have hdoubled : Doubled o line := (hlast.mp hback).resolve_left (by rw [hcont]; exact Bool.false_ne_true)
          refine iff_of_false (fun hall => ?_) fun hw => hw.1.1 hdoubled
          have hnone := @read_ends .memmove r' k rest hends'
          refine hnone (trim (join o line)) ?_ ?_
          · rw [hall .memmove, (ended_line hled hcomment hcont).2]
            exact List.mem_append_right _ List.mem_cons_self
          · rw [← getLast?_rdropWhile, trim, List.rdropWhile_idempotent]
            exact (getLast?_trim _).trans hback
      · have hnot := not_or.mp (mt hlast.mpr hback)
        obtain ⟨hpending, hended⟩ := ended_line hled hcomment (Bool.not_eq_true _ |>.mp hnot.1)
        rw [hpending] at hfits ⊢
        rw [hended, ← List.append_assoc, ← hcalls, ih rest hrest hnul.2.2 hholds led_none hfits.2 hends',
          and_iff_right hnot.2, and_iff_right hplaced]
    · rw [physicalLines_last hlf]
      simp only [read_rest _ hlf, List.self_eq_append_right]
      exact ⟨fun h => ⟨h .memmove, trivial⟩, fun h _ => h.1⟩

/-- A configuration whose lines fit in the buffer is read as written, by any strcpy, exactly where
    no blank line continues one with two backslashes, nothing to be read is behind the last
    newline, and none that is read has white space in front. -/
theorem init_iff (file : Str) (hnul : NUL ∉ file) (hfits : Fits none (physicalLines file)) :
    (∀ strcpy, init strcpy file = logicalLines none (physicalLines file)) ↔
      Whole none (physicalLines file) ∧ Placed none (physicalLines file) :=
  read_iff (r := {}) _ file (Nat.lt_succ_self _) hnul ⟨rfl, rfl, rfl, rfl⟩ led_none hfits nofun

instance Fits.decide : ∀ o lines, Decidable (Fits o lines)
  | _, [] | _, [_] => .isTrue trivial
  | o, line :: next :: lines =>
    have := Fits.decide (pending o line) (next :: lines)
    inferInstanceAs (Decidable (_ ∧ _))

instance (o : Option Str) (line : Str) : Decidable (Doubled o line) := inferInstanceAs (Decidable (_ ∧ _))

instance Whole.decide : ∀ o lines, Decidable (Whole o lines)
  | _, [] => .isTrue trivial
  | o, [line] => inferInstanceAs (Decidable (logicalLines o [line] = []))
  | o, line :: next :: lines =>
    have := Whole.decide (pending o line) (next :: lines)
    inferInstanceAs (Decidable (_ ∧ _))

instance (t : Str) : Decidable (InPlace t) := inferInstanceAs (Decidable (_ ∨ _))

instance Placed.decide : ∀ o lines, Decidable (Placed o lines)
  | _, [] | _, [_] => .isTrue trivial
  | o, line :: next :: lines =>
    have := Placed.decide (pending o line) (next :: lines)
    inferInstanceAs (Decidable (_ ∧ _))

/-- A continued line, and a comment. -/
def mailConf : Str := text "mail.*\\\n  /var/log/mail\n# all\n"

theorem init_mailConf : init .memmove mailConf = logicalLines none (physicalLines mailConf) :=
  (init_iff mailConf (by decide) (by decide +kernel)).mpr (by decide +kernel) _

example : init .memmove mailConf = [text "mail.*/var/log/mail"] := by decide +kernel

/-! ## A line that does not fit -/

/-- A text without white space and backslashes that is no comment. -/
structure Solid (t : Str) : Prop where
  chars : ∀ c ∈ t, isspace c = false ∧ c ≠ backslash ∧ c ≠ NUL
  head : ∃ c l, t = c :: l ∧ c ≠ hash

theorem Solid.lf (h : Solid t) : LF ∉ t := fun hmem => absurd (h.chars LF hmem).1 (by decide)

theorem Solid.nul (h : Solid t) : NUL ∉ t := fun hmem => (h.chars NUL hmem).2.2 rfl

theorem Solid.spec (h : Solid t) : isComment t = false ∧ trim t = t ∧ lastChar t ≠ some backslash := by
  obtain ⟨c, l, rfl, hc⟩ := h.head
  have hspace : ∀ x ∈ c :: l, isspace x = false := fun x hx => (h.chars x hx).1
  have hdrop : (c :: l).dropWhile isspace = c :: l := by
    rw [List.dropWhile_cons, hspace c List.mem_cons_self, if_neg Bool.false_ne_true]
  refine ⟨?_, ?_, ?_⟩
  · rw [isComment_cons (hspace c List.mem_cons_self), beq_eq_false_iff_ne]
    exact hc
  · rw [trim, hdrop, List.rdropWhile_eq_self_iff]
    intro hne
    rw [hspace _ (List.getLast_mem hne)]
    exact Bool.false_ne_true
  · intro hlast
    have hmem : backslash ∈ (c :: l).reverse := List.mem_of_find?_eq_some hlast
    exact (h.chars backslash (List.mem_reverse.mp hmem)).2.1 rfl

theorem Solid.drop {d l : Str} {x : UInt8} (h : Solid (d ++ x :: l)) (hd : d ≠ []) : Solid (d ++ l) := by
  refine ⟨fun c hc => h.chars c ?_, ?_⟩
  · rcases List.mem_append.mp hc with hc | hc
    · exact List.mem_append_left _ hc
    · exact List.mem_append_right _ (List.mem_cons_of_mem x hc)
  · obtain ⟨c, rest, heq, hne⟩ := h.head
    cases d with
    | nil => exact absurd rfl hd
    | cons y d => exact ⟨y, d ++ l, rfl, (List.cons.inj heq).1 ▸ hne⟩

/-- The turn on the end of such a line. -/
theorem turn_solid {l : Str} (hcont : r.cont_line = false) (hsolid : Solid (r.cbuf ++ l)) :
    (r.turn strcpy (l ++ [LF])).calls = r.calls ++ [r.cbuf ++ l] := by
  obtain ⟨hcomment, htrim, hlast⟩ := hsolid.spec
  have hmem : LF ∈ l ++ [LF] := List.mem_concat_self
  have hend : (r.cbuf ++ l).getLast? ≠ some backslash := by
    rw [← htrim, getLast?_trim]
    exact hlast
  have hhead : (r.cbuf ++ l ++ [LF]).head?.all (!isspace ·) = true := by
    obtain ⟨c, rest, heq, -⟩ := hsolid.head
    have hc := (hsolid.chars c (heq ▸ List.mem_cons_self)).1
    rw [heq]
    simp [hc]
  rw [Reader.turn]
  simp only [hcont, Bool.false_eq_true, if_false, hmem, not_true_eq_false, ← List.append_assoc, isComment_lf, hcomment,
    Strcpy.trim_inPlace hhead, trim_lf, htrim, hend]

/-- Each time the buffer is full, one character goes. -/
theorem read_solid (k : Nat) {l : Str} (rest : Str) (hk : l.length < k) (hsound : r.broken = false)
    (hcont : r.cont_line = false) (hcalls : r.calls = []) (hroom : r.cbuf.length + 2 ≤ r.line_max)
    (hmax : 3 ≤ r.line_max) (hsolid : Solid (r.cbuf ++ l)) :
    ∃ t, [t] <+: (Reader.read strcpy k r (l ++ LF :: rest)).calls ∧ t.length ≤ r.cbuf.length + l.length ∧
      (r.line_max < r.cbuf.length + l.length + 2 → t.length < r.cbuf.length + l.length) := by
  induction k generalizing r l with
  | zero => omega
  | succ k ih =>
    have hnul : NUL ∉ l := fun h => hsolid.nul (List.mem_append_right _ h)
    have hlf : LF ∉ l := fun h => hsolid.lf (List.mem_append_right _ h)
    by_cases hfit : r.cbuf.length + l.length + 2 ≤ r.line_max
    · have hget : fgets (r.line_max - r.cbuf.length) (l ++ LF :: rest) = some (l ++ [LF], rest) := by
        rw [fgets, if_neg (by simp), piece_line hlf (by omega)]
      have hstring : cstring (l ++ [LF]) = l ++ [LF] := by
        refine cstring_of_not_mem ?_
        rw [List.mem_append, not_or]
        exact ⟨hnul, by decide⟩
      have hturn : (r.turn strcpy (l ++ [LF])).calls = _ := turn_solid hcont hsolid
      rw [hcalls, List.nil_append] at hturn
      refine ⟨r.cbuf ++ l, ?_, Nat.le_of_eq List.length_append, fun h => by omega⟩
      rw [Reader.read, hsound, if_neg Bool.false_ne_true, hget]
      simp only [hstring]
      rw [← hturn]
      exact read_calls _ _ _
    · -- the buffer is full: its last character is read over
      obtain ⟨a, b, rfl, hlen⟩ : ∃ a b, l = a ++ b ∧ a.length = r.line_max - r.cbuf.length - 1 :=
        ⟨l.take _, l.drop _, (List.take_append_drop _ _).symm, List.length_take_of_le (by omega)⟩
      rw [List.mem_append, not_or] at hnul hlf
      have hget : fgets (r.line_max - r.cbuf.length) (a ++ b ++ LF :: rest) = some (a, b ++ LF :: rest) := by
        rw [fgets, if_neg (by simp), ← hlen, List.append_assoc, piece_full hlf.1]
      obtain ⟨d, x, hd⟩ : ∃ d x, r.cbuf ++ a = d ++ [x] := by
        rcases List.eq_nil_or_concat' (r.cbuf ++ a) with hnil | h
        · have := congrArg List.length hnil
          rw [List.length_append, List.length_nil] at this
          omega
        · exact h
      have hdlen : d.length + 2 = r.line_max := by
        have := congrArg List.length hd
        rw [List.length_append, List.length_append, List.length_singleton] at this
        omega
      have hturn : r.turn strcpy (cstring a) = { r with line_max := r.line_max * 2, cbuf := d } := by
        have hempty : (d ++ [x]).isEmpty = false := by cases d <;> rfl
        rw [cstring_of_not_mem hnul.1, Reader.turn]
        simp only [hcont, Bool.false_eq_true, if_false, hlf.1, not_false_iff, if_true, hd, List.dropLast_concat, hempty, hsound]
      have hsolid' : Solid (d ++ b) := by
        rw [← List.append_assoc, hd, List.append_assoc] at hsolid
        exact hsolid.drop (by rintro rfl; rw [List.length_nil] at hdlen; omega)
      obtain ⟨t, ht, hle, -⟩ := ih (r := { r with line_max := r.line_max * 2, cbuf := d }) (l := b)
        (by rw [List.length_append] at hk; omega) hsound hcont hcalls
        (show d.length + 2 ≤ r.line_max * 2 by omega) (show 3 ≤ r.line_max * 2 by omega) hsolid'
      have hle' : t.length ≤ d.length + b.length := hle
      rw [Reader.read, hsound, if_neg Bool.false_ne_true, hget]
      simp only [hturn]
      refine ⟨t, ht, ?_, fun _ => ?_⟩ <;> rw [List.length_append] <;> omega

/-- A first line like this is not read as written, whatever is behind it. -/
theorem init_overlong {line : Str} (hsolid : Solid line) (hlong : LINE_MAX < line.length + 2) (rest : Str) :
    init strcpy (line ++ LF :: rest) ≠ logicalLines none (physicalLines (line ++ LF :: rest)) := by
  obtain ⟨t, ⟨more, hmore⟩, -, hlt⟩ := read_solid (r := {}) (line ++ LF :: rest).length.succ rest
    (by rw [List.length_append]; omega) rfl rfl rfl (by decide) (by decide) hsolid
  obtain ⟨hcomment, htrim, hlast⟩ := hsolid.spec
  have hended : ended none line = [line] := by
    have hcont : continues line = false := by
      rw [continues_eq, beq_eq_false_iff_ne]
      exact hlast
    rw [ended, join, hcomment, hcont, htrim, Bool.and_false, if_neg Bool.false_ne_true, if_neg Bool.false_ne_true]
  intro heq
  rw [init, ← hmore, physicalLines_cons hsolid.lf, logicalLines, hended] at heq
  have hhead : t = line := (List.cons.inj heq).1
  have := hlt (by simpa using hlong)
  rw [hhead] at this
  simp at this

/-- The last line is not ended. -/
theorem init_unended :
    init .memmove (text "# all\nmail.* /var/log/mail") = [] ∧
      logicalLines none (physicalLines (text "# all\nmail.* /var/log/mail")) = [text "mail.* /var/log/mail"] := by
  decide +kernel

end Netutils.Syslogd
