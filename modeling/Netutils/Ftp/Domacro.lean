/-
  Netutils.Ftp.Domacro — a macro is run (ftp/domacro.c).

  A line of the macro is written to `line` with its arguments in it, split into words, and
  its command is run. Nothing asks how much room `line` has, and a line without a word ends
  the run where cmdscanner goes on with the next one. A pass over a macro of .netrc is as it
  should be just if the macro has a text, every line fits when its turn comes, and none but
  the last is without a word (`right_iff`).
-/

import Mathlib.Algebra.GroupWithZero.Nat
import Netutils.Ftp.Makeargv
import Netutils.Ftp.Ruserpass

namespace Netutils.Ftp.Domacro

open Netutils.Arpa Netutils.Lib.Transition Netutils.Libc
open Netutils.Ftp.Makeargv (makeargv commandWords)
open Netutils.Ftp.Ruserpass (Macel)

def DOLLAR : UInt8 := 0x24
def BACKSLASH : UInt8 := 0x5c
def LETTER_I : UInt8 := 0x69
def BELL : UInt8 := 0x07

/-! ## A line -/

/-- argc and argv, with what stands around the words, and the turn of the outer loop. -/
structure Args where
  argc : Int
  argv : Int → List UInt8
  count : Int

/-- An `int`, after an overflow too. -/
def wrap (x : Int) : Int := x.bmod 4294967296

/-- `while (isdigit (*++cp1)) j = 10 * j + *cp1 - '0';` -/
def argNumber (ds : List UInt8) : Int := ds.foldl (fun j c => wrap (10 * j + digit c)) 0

def Args.nth (a : Args) (j : Int) : List UInt8 := if a.argc - 2 ≥ j then a.argv (j + 1) else []

def Args.current (a : Args) : List UInt8 := if a.count < a.argc then a.argv a.count else []

/-- What is written to `line`, and loopflg; so many characters have been taken already. -/
def expand (a : Args) : Nat → List UInt8 → List UInt8 × Bool
  | _, [] => ([], false)
  | n + 1, _ :: cp1 => expand a n cp1
  | 0, c :: cp1 =>
    -- at the end of the line it is the NUL that is written
    if c = BACKSLASH then (cp1.headD NUL :: (expand a 1 cp1).1, (expand a 1 cp1).2)
    else if c = DOLLAR ∧ cp1.head?.any isdigit = true then
      let ds := cp1.takeWhile isdigit
      (a.nth (argNumber ds) ++ (expand a ds.length cp1).1, (expand a ds.length cp1).2)
    else if c = DOLLAR ∧ cp1.head? = some LETTER_I then (a.current ++ (expand a 1 cp1).1, true)
    else (c :: (expand a 0 cp1).1, (expand a 0 cp1).2)

/-! ## domacro -/

/-- `!strncmp (argv[1], macros[i].mac_name, 9)` -/
def named (macros : List Macel) (name : List UInt8) : Option Macel := macros.find? fun m => name.take 9 = m.mac_name.take 9

inductive Access where
  | load (cp1 : Int)
  /-- A store in `line`, and its size then. -/
  | line (i size : Nat)
  deriving DecidableEq

inductive Getcmd where
  | ambiguous
  | invalid
  | notConnected
  | found
  deriving DecidableEq

/-- What getcmd and the handler do. -/
structure Command where
  getcmd : Getcmd
  verbose : Bool
  /-- The command is one with a bell, and it is on behind the handler. -/
  bell : Bool
  /-- What margv has behind its words. -/
  stale : Int → List UInt8
  /-- The size of `line` behind the handler. -/
  size : Nat

structure Pass where
  cp1 : Int
  args : Args
  loopflg : Bool
  /-- The size of `line`. -/
  size : Nat
  /-- The lines of the macro of this turn. -/
  visited : List (List UInt8)
  /-- Those of the turns that are over. -/
  passes : List (List (List UInt8))
  printed : List (List UInt8)
  log : List Access
  returned : Bool

/-- The words of margv, and what it has behind them. -/
def margvOf (words : List (List UInt8)) (stale : Int → List UInt8) : Int → List UInt8 := fun i =>
  if 0 ≤ i then words.getD i.toNat (stale i) else stale i

def words (line : List UInt8) : List (List UInt8) := ((makeargv none (cstring line)).map (·.margv)).getD []

/-- The characters up to a NUL, if there is one among so many. -/
def lineAt (macbuf : Int → UInt8) : Nat → Int → Option (List UInt8)
  | 0, _ => none
  | n + 1, cp1 => if macbuf cp1 = NUL then some [] else (lineAt macbuf n (cp1 + 1)).map (macbuf cp1 :: ·)

def loads (cp1 : Int) (n : Nat) : List Access := (List.range n).map fun (i : Nat) => .load (cp1 + i)

def stores (size n : Nat) : List Access := (List.range n).map fun i => .line i size

namespace Pass

/-- The message for a command that is not run. -/
def message : Getcmd → List (List UInt8)
  | .ambiguous => [text "?Ambiguous command\n"]
  | .invalid => [text "?Invalid command\n"]
  | .notConnected => [text "Not connected.\n"]
  | .found => []

/-- The command in `line`. Behind it the line of the caller is back from line2, whose 200 bytes
    are taken to be enough. -/
def execute (line : List UInt8) (c : Command) (expanded : List UInt8) (s : Pass) : Pass :=
  if c.getcmd = .found then
    { s with
      size := c.size
      args := { s.args with argc := (words line).length, argv := margvOf (words line) c.stale }
      printed := s.printed ++ (if c.verbose = true then [cstring expanded ++ text "\n"] else []) ++
        if c.bell = true then [[BELL]] else [] }
  else { s with printed := s.printed ++ message c.getcmd, args := { s.args with argv := margvOf (words expanded) c.stale } }

/-- The line `l` of the macro. -/
def visit (m : Macel) (line : List UInt8) (c : Command) (l : List UInt8) (s : Pass) : Pass :=
  let r := expand s.args 0 (l.dropWhile isspace)
  let visited := s.visited ++ [l]
  let s : Pass := { s with
    visited
    loopflg := s.loopflg || r.2
    log := s.log ++ loads s.cp1 (l.length + 1) ++ stores s.size (r.1.length + 1) }
  if words r.1 = [] then { s with returned := true, passes := s.passes ++ [visited] }
  else
    let nul : Int := s.cp1 + l.length
    { s.execute line c r.1 with cp1 := if nul = m.mac_end then nul else nul + 1 }

end Pass

/-- A turn of the inner loop, or the end of one of the outer loop. -/
def step (m : Macel) (macbuf : Int → UInt8) (line : List UInt8) (c : Command) (s : Pass) : Option Pass :=
  if s.returned = true then none
  else if s.cp1 = m.mac_end then
    let s : Pass := { s with passes := s.passes ++ [s.visited] }
    if s.loopflg = true ∧ s.args.count + 1 < s.args.argc then
      some { s with args := { s.args with count := s.args.count + 1 }, cp1 := m.mac_start, visited := [] }
    else some { s with returned := true }
  else
    match lineAt macbuf (4096 - s.cp1).toNat s.cp1 with
    -- macbuf is read to its end
    | none => some { s with log := s.log ++ [.load 4096], returned := true }
    | some l => some (s.visit m line c l)

def start (m : Macel) (line : List UInt8) (size : Nat) (stale : Int → List UInt8) : Pass :=
  ⟨m.mac_start, ⟨(words line).length, margvOf (words line) stale, 2⟩, false, size, [], [], [], [], false⟩

/-- A message, or the macro that is run. -/
def domacro (macros : List Macel) (line : List UInt8) (size : Nat) (stale : Int → List UInt8) :
    Except (List UInt8) (Macel × Pass) :=
  match words line with
  | _ :: name :: _ =>
    match named macros name with
    | some m => .ok (m, start m line size stale)
    | none => .error (text "'" ++ name ++ text "' macro not found.\n")
  -- another word has been asked for
  | argv => .error (text "Usage: " ++ argv.headD [] ++ text " macro_name.\n")

/-! ## What a line of a macro is -/

inductive Piece where
  | char (c : UInt8)
  | nth (j : Int)
  | current

/-- Characters, a backslash with the one behind it, `$` with a number, and `$i`. -/
def pieces : List UInt8 → List Piece
  | [] => []
  | c :: l =>
    if c = BACKSLASH then .char (l.headD NUL) :: pieces l.tail
    else if c = DOLLAR ∧ l.head?.any isdigit = true then
      .nth (argNumber (l.takeWhile isdigit)) :: pieces (l.dropWhile isdigit)
    else if c = DOLLAR ∧ l.head? = some LETTER_I then .current :: pieces l.tail
    else .char c :: pieces l
  termination_by l => l.length
  decreasing_by
    · rw [List.length_tail]
      exact Nat.lt_succ_of_le (Nat.sub_le _ _)
    · exact Nat.lt_succ_of_le (List.dropWhile_suffix _).length_le
    · rw [List.length_tail]
      exact Nat.lt_succ_of_le (Nat.sub_le _ _)
    · exact Nat.lt_succ_self _

def Piece.text (a : Args) : Piece → List UInt8
  | .char c => [c]
  | .nth j => a.nth j
  | .current => a.current

/-- The text of a line, without the blanks in front of it. -/
def lineText (a : Args) (l : List UInt8) : List UInt8 := (pieces (l.dropWhile isspace)).flatMap (Piece.text a)

/-- The text of a line and its NUL have room. -/
def Fits (a : Args) (size : Nat) (l : List UInt8) : Prop :=
  ((pieces (l.dropWhile isspace)).map fun p => (p.text a).length).sum < size

/-- There is a word in the text of the line. -/
def HasWord (a : Args) (l : List UInt8) : Prop := commandWords (cstring (lineText a l)) ≠ []

/-! ## What a macro is -/

/-- What stands from `a` on in front of `b`. -/
def textOf (macbuf : Int → UInt8) (a b : Int) : List UInt8 := (List.range (b - a).toNat).map fun (i : Nat) => macbuf (a + i)

/-- The lines of a text; each but the last has to be ended by a NUL. -/
def linesOf (t : List UInt8) : List (List UInt8) :=
  if (t.splitOn NUL).getLast? = some [] then (t.splitOn NUL).dropLast else t.splitOn NUL

def macroLines (macbuf : Int → UInt8) (m : Macel) : List (List UInt8) := linesOf (textOf macbuf m.mac_start m.mac_end)

def Access.Inside (m : Macel) : Access → Prop
  | .load cp1 => m.mac_start ≤ cp1 ∧ cp1 ≤ m.mac_end
  | .line i size => i < size

/-- All accesses are inside the macro and `line`, and the lines are visited in their order; a
    turn that is over has visited all of them. -/
structure Right (m : Macel) (macbuf : Int → UInt8) (s : Pass) : Prop where
  log : ∀ a ∈ s.log, a.Inside m
  visited : s.visited <+: macroLines macbuf m
  passes : ∀ v ∈ s.passes, v = macroLines macbuf m

/-- The macro has a text, and its next line has room, and a word if it is not the last. -/
def Ready (m : Macel) (macbuf : Int → UInt8) (s : Pass) : Prop :=
  m.mac_start ≤ m.mac_end ∧
    ∀ l rest, linesOf (textOf macbuf s.cp1 m.mac_end) = l :: rest →
      Fits s.args s.size l ∧ (rest = [] ∨ HasWord s.args l)

/-! ## A line -/

variable {a : Args} {l t : List UInt8} {macbuf : Int → UInt8} {m : Macel} {line : List UInt8} {c : Command} {s u : Pass}

theorem expand_drop (a : Args) (n : Nat) (l : List UInt8) : expand a n l = expand a 0 (l.drop n) := by
  induction l generalizing n with
  | nil =>
    rw [List.drop_nil]
    cases n <;> rfl
  | cons c l ih =>
    cases n with
    | zero => rfl
    | succ n => exact ih n

theorem expand_text (a : Args) (l : List UInt8) : (expand a 0 l).1 = (pieces l).flatMap (Piece.text a) := by
  induction l using pieces.induct with
  | case1 =>
    rw [pieces]
    rfl
  | case2 l ih =>
    rw [pieces, if_pos rfl, List.flatMap_cons, ← ih, expand, if_pos rfl]
    simp only [expand_drop a 1, List.drop_one]
    rfl
  | case3 c l hc h ih =>
    rw [pieces, if_neg hc, if_pos h, List.flatMap_cons, ← ih, expand, if_neg hc, if_pos h]
    have hdrop : l.drop (l.takeWhile isdigit).length = l.dropWhile isdigit := by
      have happend := List.takeWhile_append_dropWhile (p := isdigit) (l := l)
      have hleft : (l.takeWhile isdigit ++ l.dropWhile isdigit).drop (l.takeWhile isdigit).length = l.dropWhile isdigit :=
        List.drop_left
      rwa [happend] at hleft
    simp only [expand_drop a (l.takeWhile isdigit).length, hdrop]
    rfl
  | case4 c l hc h h' ih =>
    rw [pieces, if_neg hc, if_neg h, if_pos h', List.flatMap_cons, ← ih, expand, if_neg hc, if_neg h, if_pos h']
    simp only [expand_drop a 1, List.drop_one]
    rfl
  | case5 c l hc h h' ih =>
    rw [pieces, if_neg hc, if_neg h, if_neg h', List.flatMap_cons, ← ih, expand, if_neg hc, if_neg h, if_neg h']
    rfl

theorem length_lineText (a : Args) (l : List UInt8) :
    (lineText a l).length = ((pieces (l.dropWhile isspace)).map fun p => (p.text a).length).sum := by
  rw [lineText, List.length_flatMap]

theorem words_eq (t : List UInt8) : words t = commandWords (cstring t) := by
  obtain ⟨s', hwords, -⟩ := Makeargv.words_line none (cstring t)
  rw [words, makeargv, hwords]
  rfl

/-! ## The text of a macro -/

theorem textOf_append {a b d : Int} (hab : a ≤ b) (hbd : b ≤ d) (macbuf : Int → UInt8) :
    textOf macbuf a d = textOf macbuf a b ++ textOf macbuf b d := by
  have hlen : (d - a).toNat = (b - a).toNat + (d - b).toNat := by omega
  rw [textOf, textOf, textOf, hlen, List.range_add, List.map_append, List.map_map]
  congr 1
  apply List.map_congr_left
  intro i _
  simp only [Function.comp]
  congr 1
  omega

theorem textOf_cons {a b : Int} (h : a < b) (macbuf : Int → UInt8) :
    textOf macbuf a b = macbuf a :: textOf macbuf (a + 1) b := by
  rw [textOf_append (b := a + 1) (by omega) (by omega), textOf, show (a + 1 - a).toNat = 1 by omega]
  simp [List.range_succ]

theorem textOf_self (macbuf : Int → UInt8) (a : Int) : textOf macbuf a a = [] := by
  rw [textOf, show (a - a).toNat = 0 by omega]
  rfl

theorem length_textOf (macbuf : Int → UInt8) (a b : Int) : (textOf macbuf a b).length = (b - a).toNat := by
  rw [textOf, List.length_map, List.length_range]

theorem linesOf_nil : linesOf [] = [] := rfl

theorem linesOf_last (h : NUL ∉ t) (hne : t ≠ []) : linesOf t = [t] := by
  rw [linesOf, List.splitOn_eq_singleton h, if_neg]
  intro hlast
  exact hne (Option.some.inj hlast)

theorem linesOf_cons (h : NUL ∉ l) (t : List UInt8) : linesOf (l ++ NUL :: t) = l :: linesOf t := by
  have hne := List.splitOn_ne_nil NUL t
  rw [linesOf, linesOf, List.splitOn_append_cons_self_of_not_mem h, List.getLast?_cons_of_ne_nil hne,
    List.dropLast_cons_of_ne_nil hne]
  split <;> rfl

theorem lineAt_some {n : Nat} {cp1 : Int} (h : NUL ∈ textOf macbuf cp1 (cp1 + n)) :
    lineAt macbuf n cp1 = some (cstring (textOf macbuf cp1 (cp1 + n))) := by
  induction n generalizing cp1 with
  | zero =>
    rw [Int.natCast_zero, Int.add_zero, textOf_self] at h
    cases h
  | succ n ih =>
    have hcons : textOf macbuf cp1 (cp1 + (n + 1 : Nat)) = macbuf cp1 :: textOf macbuf (cp1 + 1) (cp1 + 1 + n) := by
      rw [textOf_cons (by omega)]
      congr 2
      omega
    rw [hcons] at h ⊢
    rw [lineAt]
    by_cases hc : macbuf cp1 = NUL
    · rw [if_pos hc, cstring, List.takeWhile_cons_of_neg (by simp [hc])]
    · have hrest := ih ((List.mem_cons.mp h).resolve_left (Ne.symm hc))
      rw [if_neg hc, hrest, cstring, cstring, List.takeWhile_cons_of_pos (by simpa using hc)]
      rfl

/-- The next line of a macro, as it is read. -/
theorem lineAt_macro {cp1 e : Int} (hle : cp1 < e) (he : e < 4096) (hnul : macbuf e = NUL) :
    ∃ l, lineAt macbuf (4096 - cp1).toNat cp1 = some l ∧ cp1 + l.length ≤ e ∧
      linesOf (textOf macbuf cp1 e) =
        l :: linesOf (textOf macbuf (if cp1 + l.length = e then cp1 + l.length else cp1 + l.length + 1) e) := by
  have hchars : textOf macbuf cp1 4096 = textOf macbuf cp1 e ++ NUL :: textOf macbuf (e + 1) 4096 := by
    rw [textOf_append (Int.le_of_lt hle) (Int.le_of_lt he), textOf_cons he, hnul]
  have hsome : lineAt macbuf (4096 - cp1).toNat cp1 = some (cstring (textOf macbuf cp1 4096)) := by
    have hmem : NUL ∈ textOf macbuf cp1 (cp1 + (4096 - cp1).toNat) := by
      rw [show cp1 + ((4096 - cp1).toNat : Int) = 4096 by omega, hchars]
      exact List.mem_append_right _ List.mem_cons_self
    rw [lineAt_some hmem, show cp1 + ((4096 - cp1).toNat : Int) = 4096 by omega]
  have hlen := length_textOf macbuf cp1 e
  by_cases hin : NUL ∈ textOf macbuf cp1 e
  · -- a line in front of the last
    obtain ⟨l, t, heq, hl⟩ := List.eq_append_cons_of_mem hin
    have hline : cstring (textOf macbuf cp1 4096) = l := by
      rw [hchars, heq, List.append_assoc, cstring, List.takeWhile_append_of_pos, List.cons_append,
        List.takeWhile_cons_of_neg (by simp), List.append_nil]
      intro c hc
      rw [decide_eq_true_eq]
      rintro rfl
      exact hl hc
    rw [heq, List.length_append, List.length_cons] at hlen
    have hlt : cp1 + l.length < e := by omega
    have hsplit := textOf_append (a := cp1) (b := cp1 + l.length + 1) (d := e) (by omega) (by omega) macbuf
    have hrest : t = textOf macbuf (cp1 + l.length + 1) e := by
      rw [heq, List.append_cons] at hsplit
      apply List.append_inj_right hsplit
      rw [length_textOf, List.length_append, List.length_singleton]
      omega
    refine ⟨l, hsome.trans (congrArg some hline), by omega, ?_⟩
    rw [if_neg (by omega), heq, linesOf_cons hl, hrest]
  · have hline : cstring (textOf macbuf cp1 4096) = textOf macbuf cp1 e := by
      rw [hchars, cstring, List.takeWhile_append_of_pos, List.takeWhile_cons_of_neg (by simp), List.append_nil]
      intro c hc
      rw [decide_eq_true_eq]
      rintro rfl
      exact hin hc
    have hend : cp1 + (textOf macbuf cp1 e).length = e := by
      rw [hlen]
      omega
    refine ⟨_, hsome, ?_, ?_⟩
    · rw [hline, hend]
    · rw [hline, if_pos hend, hend, textOf_self, linesOf_nil]
      apply linesOf_last hin
      intro hnil
      rw [hnil] at hlen
      simp only [List.length_nil] at hlen
      omega

/-! ## A turn -/

/-- The macro ends with a NUL in macbuf. -/
structure Ends (macbuf : Int → UInt8) (m : Macel) : Prop where
  room : m.mac_end < 4096
  nul : macbuf m.mac_end = NUL

/-- What is true in every run. -/
structure Inv (m : Macel) (macbuf : Int → UInt8) (s : Pass) : Prop where
  along : s.returned = false → m.mac_start ≤ m.mac_end →
    m.mac_start ≤ s.cp1 ∧ s.cp1 ≤ m.mac_end ∧ s.visited ++ linesOf (textOf macbuf s.cp1 m.mac_end) = macroLines macbuf m
  empty : m.mac_end < m.mac_start → s.cp1 = m.mac_start ∨ ∃ p, .load p ∈ s.log

theorem stores_inside (size n : Nat) : (∀ a ∈ stores size n, a.Inside m) ↔ n ≤ size := by
  rw [stores, List.forall_mem_map]
  constructor
  · intro h
    by_contra hlt
    have : size < size := h size (List.mem_range.mpr (by omega))
    omega
  · intro h i hi
    exact Nat.lt_of_lt_of_le (List.mem_range.mp hi) h

theorem load_mem_loads (cp1 : Int) (n : Nat) : Access.load cp1 ∈ loads cp1 (n + 1) :=
  List.mem_map.mpr ⟨0, List.mem_range.mpr (Nat.succ_pos n), by rw [Int.natCast_zero, Int.add_zero]⟩

theorem loads_inside {cp1 : Int} {n : Nat} (h0 : m.mac_start ≤ cp1) (h : cp1 + n ≤ m.mac_end) :
    ∀ a ∈ loads cp1 (n + 1), a.Inside m := by
  rw [loads, List.forall_mem_map]
  intro i hi
  have := List.mem_range.mp hi
  exact ⟨by omega, by omega⟩

/-- Nothing can be read of a macro without a text. -/
theorem not_right_of_load {cp1 : Int} (hempty : m.mac_end < m.mac_start) (h : .load cp1 ∈ s.log) : ¬ Right m macbuf s := by
  intro hr
  have hin : Access.Inside m (.load cp1) := hr.log _ h
  exact absurd (Int.le_trans hin.1 hin.2) (by omega)

/-- The state behind a line. -/
structure Visited (m : Macel) (l : List UInt8) (s u : Pass) : Prop where
  log : u.log = s.log ++ loads s.cp1 (l.length + 1) ++ stores s.size ((lineText s.args l).length + 1)
  visited : u.visited = s.visited ++ [l]
  goes : HasWord s.args l → u.returned = s.returned ∧ u.passes = s.passes ∧
    u.cp1 = if s.cp1 + l.length = m.mac_end then s.cp1 + l.length else s.cp1 + l.length + 1
  ends : ¬ HasWord s.args l → u.returned = true ∧ u.passes = s.passes ++ [s.visited ++ [l]]

theorem execute_keeps (line : List UInt8) (c : Command) (e : List UInt8) (s : Pass) :
    (s.execute line c e).log = s.log ∧ (s.execute line c e).visited = s.visited ∧
      (s.execute line c e).returned = s.returned ∧ (s.execute line c e).passes = s.passes := by
  unfold Pass.execute
  split <;> exact ⟨rfl, rfl, rfl, rfl⟩

theorem visited_visit (m : Macel) (line : List UInt8) (c : Command) (l : List UInt8) (s : Pass) :
    Visited m l s (s.visit m line c l) := by
  have htext : (expand s.args 0 (l.dropWhile isspace)).1 = lineText s.args l := expand_text _ _
  unfold Pass.visit
  simp only [htext, words_eq]
  by_cases hword : commandWords (cstring (lineText s.args l)) = []
  · rw [if_pos hword]
    exact ⟨rfl, rfl, fun h => absurd hword h, fun _ => ⟨rfl, rfl⟩⟩
  · rw [if_neg hword]
    obtain ⟨hlog, hvisited, hreturned, hpasses⟩ := execute_keeps line c (lineText s.args l)
      { s with
        visited := s.visited ++ [l]
        loopflg := s.loopflg || (expand s.args 0 (l.dropWhile isspace)).2
        log := s.log ++ loads s.cp1 (l.length + 1) ++ stores s.size ((lineText s.args l).length + 1) }
    exact ⟨hlog, hvisited, fun _ => ⟨hreturned, hpasses, rfl⟩, fun h => absurd hword h⟩

/-- A line of a macro with a text. -/
theorem Visited.right {l : List UInt8} {rest : List (List UInt8)} (h : Visited m l s u) (h0 : m.mac_start ≤ s.cp1)
    (hle : s.cp1 + l.length ≤ m.mac_end) (hlines : s.visited ++ l :: rest = macroLines macbuf m) :
    Right m macbuf u ↔ Right m macbuf s ∧ Fits s.args s.size l ∧ (rest = [] ∨ HasWord s.args l) := by
  have hfits : (∀ a ∈ stores s.size ((lineText s.args l).length + 1), a.Inside m) ↔ Fits s.args s.size l := by
    rw [stores_inside, length_lineText]
    rfl
  have hprefix : u.visited <+: macroLines macbuf m := ⟨rest, by rw [h.visited, List.append_assoc]; exact hlines⟩
  have hall : s.visited ++ [l] = macroLines macbuf m ↔ rest = [] := by
    rw [← hlines]
    constructor
    · intro heq
      exact ((List.cons.inj (List.append_cancel_left heq)).2).symm
    · rintro rfl
      rfl
  constructor
  · intro hr
    have hlog := hr.log
    rw [h.log] at hlog
    refine ⟨⟨fun a ha => hlog a (List.mem_append_left _ (List.mem_append_left _ ha)), ?_, ?_⟩,
      hfits.mp fun a ha => hlog a (List.mem_append_right _ ha), ?_⟩
    · exact ⟨l :: rest, hlines⟩
    · intro v hv
      by_cases hword : HasWord s.args l
      · exact hr.passes v (by rw [(h.goes hword).2.1]; exact hv)
      · exact hr.passes v (by rw [(h.ends hword).2]; exact List.mem_append_left _ hv)
    · by_cases hword : HasWord s.args l
      · exact Or.inr hword
      · refine Or.inl (hall.mp (hr.passes _ ?_))
        rw [(h.ends hword).2]
        exact List.mem_append_right _ List.mem_cons_self
  · intro h
    obtain ⟨hr, hroom, hword⟩ := h
    refine ⟨?_, hprefix, ?_⟩
    · rw [h.log]
      intro a ha
      rcases List.mem_append.mp ha with ha | ha
      · rcases List.mem_append.mp ha with ha | ha
        · exact hr.log a ha
        · exact loads_inside h0 hle a ha
      · exact hfits.mpr hroom a ha
    · intro v hv
      by_cases hw : HasWord s.args l
      · rw [(h.goes hw).2.1] at hv
        exact hr.passes v hv
      · rw [(h.ends hw).2] at hv
        rcases List.mem_append.mp hv with hv | hv
        · exact hr.passes v hv
        · rw [List.mem_singleton.mp hv]
          exact hall.mpr (hword.resolve_right hw)

/-- A turn in a macro with a text. -/
theorem step_text (he : Ends macbuf m) (hm : m.mac_start ≤ m.mac_end) (hinv : Inv m macbuf s)
    (h : step m macbuf line c s = some u) : Inv m macbuf u ∧ (Right m macbuf u ↔ Right m macbuf s ∧ Ready m macbuf s) := by
  have hnot : ¬ m.mac_end < m.mac_start := Int.not_lt.mpr hm
  unfold step at h
  split at h
  · cases h
  · rename_i hret
    obtain ⟨h0, hle, hlines⟩ := hinv.along (eq_false_of_ne_true hret) hm
    split at h
    · -- the end of a turn of the outer loop
      rename_i hend
      rw [hend, textOf_self, linesOf_nil, List.append_nil] at hlines
      have hready : Ready m macbuf s := by
        refine ⟨hm, fun l rest hl => ?_⟩
        rw [hend, textOf_self] at hl
        cases hl
      have hvisited : s.visited <+: macroLines macbuf m := ⟨[], (List.append_nil _).trans hlines⟩
      have hright : ∀ v : Pass, v.log = s.log → v.passes = s.passes ++ [s.visited] → v.visited <+: macroLines macbuf m →
          (Right m macbuf v ↔ Right m macbuf s ∧ Ready m macbuf s) := by
        intro v hlog hpasses hprefix
        constructor
        · intro hr
          refine ⟨⟨fun a ha => hr.log a (by rw [hlog]; exact ha), hvisited, fun w hw => hr.passes w ?_⟩, hready⟩
          rw [hpasses]
          exact List.mem_append_left _ hw
        · intro h
          obtain ⟨hr, -⟩ := h
          refine ⟨fun a ha => hr.log a (by rw [← hlog]; exact ha), hprefix, fun w hw => ?_⟩
          rw [hpasses] at hw
          rcases List.mem_append.mp hw with hw | hw
          · exact hr.passes w hw
          · rw [List.mem_singleton.mp hw]
            exact hlines
      simp only at h
      split at h
      · obtain rfl := Option.some.inj h
        refine ⟨⟨fun _ _ => ⟨Int.le_refl _, hm, rfl⟩, fun hlt => absurd hlt hnot⟩, hright _ rfl rfl List.nil_prefix⟩
      · obtain rfl := Option.some.inj h
        exact ⟨⟨fun hr => absurd hr Bool.noConfusion, fun hlt => absurd hlt hnot⟩, hright _ rfl rfl hvisited⟩
    · rename_i hne
      obtain ⟨l, hat, hlen, hnext⟩ := lineAt_macro (show s.cp1 < m.mac_end by omega) he.room he.nul
      rw [hat] at h
      obtain rfl := Option.some.inj h
      have hv := visited_visit m line c l s
      rw [hnext] at hlines
      refine ⟨⟨fun hr _ => ?_, fun hlt => absurd hlt hnot⟩, ?_⟩
      · by_cases hword : HasWord s.args l
        · rw [(hv.goes hword).2.2, hv.visited, List.append_assoc]
          refine ⟨?_, ?_, hlines⟩
          · split <;> omega
          · split <;> omega
        · rw [(hv.ends hword).1] at hr
          cases hr
      · rw [hv.right h0 hlen hlines, Ready, hnext]
        constructor
        · intro h
          obtain ⟨hr, hfits, hword⟩ := h
          refine ⟨hr, hm, fun l' rest' heq => ?_⟩
          obtain ⟨rfl, rfl⟩ := List.cons.inj heq
          exact ⟨hfits, hword⟩
        · intro h
          obtain ⟨hr, -, hready⟩ := h
          exact ⟨hr, hready _ _ rfl⟩

/-- A turn in a macro without a text. -/
theorem step_empty (hm : m.mac_end < m.mac_start) (hinv : Inv m macbuf s)
    (h : step m macbuf line c s = some u) : ∃ cp1, .load cp1 ∈ u.log := by
  unfold step at h
  split at h
  · cases h
  · split at h
    · rename_i hend
      have hload : ∃ cp1, Access.load cp1 ∈ s.log := (hinv.empty hm).resolve_left fun hstart => by omega
      simp only at h
      split at h
      · obtain rfl := Option.some.inj h
        exact hload
      · obtain rfl := Option.some.inj h
        exact hload
    · split at h
      · obtain rfl := Option.some.inj h
        exact ⟨4096, List.mem_append_right _ List.mem_cons_self⟩
      · rename_i l _
        obtain rfl := Option.some.inj h
        refine ⟨s.cp1, ?_⟩
        rw [(visited_visit m line c l s).log]
        exact List.mem_append_left _ (List.mem_append_right _ (load_mem_loads _ _))

theorem step_right (he : Ends macbuf m) (hinv : Inv m macbuf s) (h : step m macbuf line c s = some u) :
    Inv m macbuf u ∧ (Right m macbuf u ↔ Right m macbuf s ∧ Ready m macbuf s) := by
  by_cases hm : m.mac_start ≤ m.mac_end
  · exact step_text he hm hinv h
  · have hlt : m.mac_end < m.mac_start := Int.not_le.mp hm
    obtain ⟨cp1, hload⟩ := step_empty hlt hinv h
    refine ⟨⟨fun _ hle => absurd hle hm, fun _ => Or.inr ⟨cp1, hload⟩⟩,
      fun hr => absurd hr (not_right_of_load hlt hload), ?_⟩
    intro h
    obtain ⟨-, hready⟩ := h
    exact absurd hready.1 hm

/-! ## A run -/

theorem inv_start (m : Macel) (macbuf : Int → UInt8) (line : List UInt8) (size : Nat) (stale : Int → List UInt8) :
    Inv m macbuf (start m line size stale) :=
  ⟨fun _ hm => ⟨Int.le_refl _, hm, rfl⟩, fun _ => Or.inl rfl⟩

theorem right_start (m : Macel) (macbuf : Int → UInt8) (line : List UInt8) (size : Nat) (stale : Int → List UInt8) :
    Right m macbuf (start m line size stale) :=
  ⟨fun _ ha => absurd ha List.not_mem_nil, List.nil_prefix, fun _ hv => absurd hv List.not_mem_nil⟩

theorem domacro_ok {macros : List Macel} {size : Nat} {stale : Int → List UInt8}
    (h : domacro macros line size stale = .ok (m, s)) : s = start m line size stale := by
  unfold domacro at h
  split at h
  · split at h
    · obtain ⟨rfl, rfl⟩ := Prod.mk.inj (Except.ok.inj h)
      rfl
    · cases h
  · cases h

/-- For every macro of a .netrc and every command line, a run is as it should be just if the
    macro has a text, and each of its lines has room when its turn comes, and a word if it is
    not the last. -/
theorem right_iff (env : Ruserpass.Env) (t : Ruserpass.Table) (cfile : List UInt8)
    (aname apass aacct : Option (List UInt8)) {rs : List Bool} {n : Ruserpass.Parse}
    (hn : run (Ruserpass.step env) rs (Ruserpass.start t cfile aname apass aacct) = some n)
    (line : List UInt8) (size : Nat) (stale : Int → List UInt8) (hd : domacro n.macros line size stale = .ok (m, s))
    (hm : m ∈ n.macros.drop t.macros.length) {cs : List Command} (h : run (step m n.macbuf line) cs s = some u) :
    Right m n.macbuf u ↔ Meets (step m n.macbuf line) (fun _ v => Ready m n.macbuf v) cs s := by
  obtain ⟨-, -, hroom, hnul⟩ := (Ruserpass.inv_of_run env t cfile aname apass aacct hn).built m hm
  obtain rfl := domacro_ok hd
  have hrun : Right m n.macbuf u ↔ Right m n.macbuf (start m line size stale) ∧
      Meets (step m n.macbuf line) (fun _ v => Ready m n.macbuf v) cs (start m line size stale) :=
    run_inv_iff (P := Inv m n.macbuf) (fun _ _ _ hinv hstep => step_right ⟨hroom, hnul⟩ hinv hstep)
      (inv_start m n.macbuf line size stale) h
  rw [hrun]
  exact ⟨fun hmeets => hmeets.2, fun hmeets => ⟨right_start m n.macbuf line size stale, hmeets⟩⟩

/-- What a .netrc with a macro `x` of these characters comes to. -/
def macroX (t : List UInt8) : Ruserpass.Parse :=
  (run (Ruserpass.step Ruserpass.anyHost) [false, false, false]
    (Ruserpass.start Ruserpass.noMacros (Ruserpass.macroFile t) none none none)).getD
    (Ruserpass.start Ruserpass.noMacros [] none none none)

/-- `$x` -/
def dollarX : List UInt8 := [DOLLAR, 0x78]

/-- The command is run. -/
def isRun : Command := ⟨.found, false, false, fun _ => [], 200⟩

/-- `ls -l` -/
def listing : List UInt8 := [0x6c, 0x73, 0x20, 0x2d, 0x6c, 0x0a, 0x0a]

theorem right_listing : ∃ m p s, domacro (macroX listing).macros dollarX 200 (fun _ => []) = .ok (m, p) ∧
    run (step m (macroX listing).macbuf dollarX) [isRun, isRun] p = some s ∧
    (Right m (macroX listing).macbuf s ↔
      Meets (step m (macroX listing).macbuf dollarX) (fun _ v => Ready m (macroX listing).macbuf v) [isRun, isRun] p) :=
  ⟨_, _, _, rfl, rfl, right_iff Ruserpass.anyHost Ruserpass.noMacros (Ruserpass.macroFile listing) none none none
    (show run (Ruserpass.step Ruserpass.anyHost) [false, false, false]
      (Ruserpass.start Ruserpass.noMacros (Ruserpass.macroFile listing) none none none) = some (macroX listing) from rfl)
    dollarX 200 (fun _ => []) rfl List.mem_cons_self rfl⟩

/-- `ls -l` does not go where `$x` came from. -/
theorem a_line_longer_than_its_call : ∃ m p s, domacro (macroX listing).macros dollarX 3 (fun _ => []) = .ok (m, p) ∧
    run (step m (macroX listing).macbuf dollarX) [isRun] p = some s ∧ ¬ Right m (macroX listing).macbuf s := by
  refine ⟨_, _, _, rfl, rfl, fun h => ?_⟩
  have hstore : Access.Inside _ (.line 3 3) := h.log _ (by decide)
  exact absurd hstore (Nat.lt_irrefl 3)

end Netutils.Ftp.Domacro
