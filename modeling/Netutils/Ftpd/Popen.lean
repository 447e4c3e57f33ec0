/-
  Netutils.Ftpd.Popen — how ftpd_popen (ftpd/popen.c) takes the commands of LIST, NLST and
  STAT apart: argv from strtok, gargv from what glob makes of each piece.

  The loop over the pieces knows where argv ends and leaves the rest of the command behind.
  The loops over what glob has found know nothing of the end of gargv: with as many files as
  `*` or some braces may stand for, gargv is left (`star_overruns`). The two vectors hold what
  they should exactly if no piece that has been left behind stands for anything and the
  others stand for less than MAX_GARGC - 1 arguments (`popen_iff`).
-/

import Netutils.Ftpd.Login
import Netutils.Lib.Cells
import Netutils.Libc.Ctype
import Netutils.Libc.Stdio

namespace Netutils.Ftpd.Popen

open Netutils.Lib.Cells Netutils.Libc

/-! ## strtok -/

/-- `" \t\n"` -/
def delim (c : UInt8) : Bool := c = 0x20 || c = 0x09 || c = 0x0a

/-- The next piece, and what is kept for the next call. -/
def strtok (s : Str) : Option (Str × Str) :=
  match s.dropWhile delim with
  | [] => none
  | c :: s => some ((c :: s).takeWhile (!delim ·), ((c :: s).dropWhile (!delim ·)).drop 1)

/-- The pieces of a string. -/
def words (s : Str) : List Str := (s.splitOnP delim).filter (· ≠ [])

/-! ## ftpd_popen -/

def MAX_ARGC : Nat := 100
def MAX_GARGC : Nat := 1000

/-- A vector of pointers, and the places that have been stored to. -/
structure Vec where
  cells : Nat → Option Str
  stored : List Nat

/-- `v[i] = p` -/
def Vec.set (v : Vec) (i : Nat) (p : Option Str) : Vec := ⟨Lib.Cells.store v.cells i [p], v.stored ++ [i]⟩

/-- "break up string into pieces", `left` more at most. -/
def breakUp : Nat → Nat → Str → Vec → Vec
  | 0, _, _, argv => argv
  | left + 1, argc, cp, argv =>
    match strtok cp with
    | none => argv.set argc none
    | some (piece, cp) => breakUp left (argc + 1) cp (argv.set argc (some piece))

/-- What the call of glob for argv[argc] gives; `none` if it fails. -/
abbrev Glob := Nat → Str → Option (List Str)

variable (glob : Glob)

def expand (argc : Nat) (piece : Str) : List Str := (glob argc piece).getD [piece]

/-- `gargv[gargc++] = strdup (*pop)` for all of them. -/
def strdups : List Str → Nat → Vec → Nat × Vec
  | [], gargc, gargv => (gargc, gargv)
  | pop :: pathv, gargc, gargv => strdups pathv (gargc + 1) (gargv.set gargc (some pop))

/-- "glob each piece", `left` of them at most. -/
def globEach (argv : Vec) : Nat → Nat → Nat → Vec → Nat × Vec
  | 0, _, gargc, gargv => (gargc, gargv)
  | left + 1, argc, gargc, gargv =>
    match argv.cells argc with
    | none => (gargc, gargv)
    | some piece =>
      let r := strdups (expand glob argc piece) gargc gargv
      globEach argv left (argc + 1) r.1 r.2

/-- The two vectors, before the command is run; `old` is what is there at first. -/
def ftpdPopen (old : (Nat → Option Str) × (Nat → Option Str)) (program : Str) : Vec × Vec :=
  let argv := (breakUp (MAX_ARGC - 1) 0 program ⟨old.1, []⟩).set (MAX_ARGC - 1) none
  let r := globEach glob argv MAX_ARGC 1 1 (Vec.set ⟨old.2, []⟩ 0 (argv.cells 0))
  (argv, r.2.set r.1 none)

/-! ## The commands -/

def BUFSIZ : Nat := 8192
def LINE_MAX : Nat := 2048

inductive Command where
  | list
  | listOf (pathname : Str)
  | nlst (dirname : Str)
  | stat (pathname : Str)

/-- `"/bin/ls"` -/
def ls : Str := Libc.text "/bin/ls"

/-- What is in `line`. -/
def Command.line : Command → Str
  | .list => (ls ++ Libc.text " -lgA").take (BUFSIZ - 1)
  | .listOf pathname => (ls ++ Libc.text " -lgA " ++ cstring pathname).take (BUFSIZ - 1)
  | .nlst dirname => (ls ++ Libc.text " " ++ cstring dirname).take (BUFSIZ - 1)
  | .stat pathname => (ls ++ Libc.text " -lgA " ++ cstring pathname).take (LINE_MAX - 1)

/-! ## What the vectors should hold -/

/-- What the pieces stand for, the first of them being argv[argc]. -/
def expansions : Nat → List Str → List Str
  | _, [] => []
  | argc, piece :: pieces => expand glob argc piece ++ expansions (argc + 1) pieces

/-- The pointers up to the NULL. -/
def Vec.Holds (v : Vec) (l : List Str) : Prop := slice v.cells 0 (l.length + 1) = l.map some ++ [none]

/-- Both vectors are kept to, and the second is the command with all its arguments. -/
structure Kept (old : (Nat → Option Str) × (Nat → Option Str)) (program : Str) : Prop where
  argv : ∀ i ∈ (ftpdPopen glob old program).1.stored, i < MAX_ARGC
  gargv : ∀ i ∈ (ftpdPopen glob old program).2.stored, i < MAX_GARGC
  args : (ftpdPopen glob old program).2.Holds (ls :: expansions glob 1 (words program).tail)

/-! ## The pieces -/

variable {s cp : Str}

theorem words_delim {c : UInt8} (h : delim c = true) : words (c :: s) = words s := by
  rw [words, List.splitOnP_cons_eq_if_modifyHead, if_pos h, List.filter_cons_of_neg (by simp)]
  rfl

theorem words_dropWhile (s : Str) : words s = words (s.dropWhile delim) := by
  induction s with
  | nil => rfl
  | cons c s ih =>
    by_cases h : delim c = true
    · rw [words_delim h, List.dropWhile_cons_of_pos h, ih]
    · rw [List.dropWhile_cons_of_neg h]

/-- A piece ends at a delimiter or with the string. -/
theorem words_piece {c : UInt8} (h : delim c = false) : words (c :: s) =
    (c :: s).takeWhile (!delim ·) :: words (((c :: s).dropWhile (!delim ·)).drop 1) := by
  have hne : (c :: s).takeWhile (!delim ·) ≠ [] := by
    rw [List.takeWhile_cons_of_pos (by simp [h])]
    exact List.cons_ne_nil _ _
  have hpiece : ∀ d ∈ (c :: s).takeWhile (!delim ·), delim d = false := by
    intro d hd
    simpa using List.mem_takeWhile_imp hd
  have happend := List.takeWhile_append_dropWhile (p := (!delim ·)) (l := c :: s)
  cases hrest : (c :: s).dropWhile (!delim ·) with
  | nil =>
    rw [hrest, List.append_nil] at happend
    rw [happend] at hpiece hne ⊢
    rw [words, List.splitOnP_eq_singleton hpiece, List.filter_cons_of_pos (by simp)]
    rfl
  | cons d rest =>
    have hd : delim d = true := by
      have hhead := List.head?_dropWhile_not (!delim ·) (c :: s)
      rw [hrest] at hhead
      simpa using hhead
    rw [hrest] at happend
    conv_lhs => rw [← happend]
    rw [words, List.splitOnP_append_cons_of_forall_mem hpiece _ hd, List.filter_cons_of_pos (by simpa using hne)]
    rfl

theorem strtok_none (h : strtok s = none) : words s = [] := by
  rw [words_dropWhile]
  rw [strtok] at h
  split at h
  · rename_i hdrop
    rw [hdrop]
    rfl
  · cases h

theorem strtok_some {piece : Str} (h : strtok s = some (piece, cp)) : words s = piece :: words cp := by
  rw [words_dropWhile]
  rw [strtok] at h
  split at h
  · cases h
  · rename_i c rest hdrop
    have hc : delim c = false := by
      have hhead := List.head?_dropWhile_not delim s
      rw [hdrop] at hhead
      simpa using hhead
    obtain ⟨rfl, rfl⟩ := Prod.mk.inj (Option.some.inj h)
    rw [hdrop, words_piece hc]

/-- Every command is `ls` with something behind it. -/
theorem words_line (c : Command) : ∃ rest, words c.line = ls :: rest := by
  have hls : ∀ n r, 7 ≤ n → r.head?.all delim = true → ∃ rest, words ((ls ++ r).take n) = ls :: rest := by
    intro n r hn hr
    have hnone : ∀ d ∈ ls, (!delim d) = true := List.all_eq_true.mp (by decide)
    have htake : (ls ++ r).take n = ls ++ r.take (n - 7) := by
      rw [List.take_append, List.take_of_length_le (by exact hn)]
      rfl
    have hend : (r.take (n - 7)).head?.all (fun d => !(!delim d)) = true := by
      rcases r with _ | ⟨d, r⟩
      · rw [List.take_nil]
        rfl
      · cases n - 7 with
        | zero => rfl
        | succ k => simpa using hr
    have hpiece := (span_append hnone hend).1
    have hwords := words_piece (c := 0x2f) (s := ls.tail ++ r.take (n - 7)) (by decide)
    rw [htake]
    rw [show ls ++ r.take (n - 7) = 0x2f :: (ls.tail ++ r.take (n - 7)) from rfl] at hpiece ⊢
    rw [hwords, hpiece]
    exact ⟨_, rfl⟩
  cases c with
  | list => exact hls _ _ (by decide) (by decide)
  | listOf pathname =>
    rw [Command.line, List.append_assoc]
    exact hls _ _ (by decide) rfl
  | nlst dirname =>
    rw [Command.line, List.append_assoc]
    exact hls _ _ (by decide) rfl
  | stat pathname =>
    rw [Command.line, List.append_assoc]
    exact hls _ _ (by decide) rfl

/-! ## argv -/

theorem set_same (v : Vec) (i : Nat) (p : Option Str) : (v.set i p).cells i = p := store_same p

variable {argv gargv : Vec} {left argc : Nat}

/-- As many pieces as there is room for, and the NULL behind them if there are fewer. -/
theorem breakUp_spec (left argc : Nat) (cp : Str) (argv : Vec) :
    slice (breakUp left argc cp argv).cells 0 (argc + ((words cp).take left).length) =
        slice argv.cells 0 argc ++ ((words cp).take left).map some ∧
      ((words cp).length < left → (breakUp left argc cp argv).cells (argc + (words cp).length) = none) ∧
      ∀ i ∈ (breakUp left argc cp argv).stored, i ∈ argv.stored ∨ i < argc + left := by
  induction left generalizing argc cp argv with
  | zero =>
    rw [breakUp, List.take_zero, List.length_nil, List.map_nil, List.append_nil]
    exact ⟨rfl, fun h => absurd h (Nat.not_lt_zero _), fun i hi => Or.inl hi⟩
  | succ left ih =>
    rw [breakUp]
    cases hcp : strtok cp with
    | none =>
      rw [strtok_none hcp, List.take_nil, List.length_nil, List.map_nil, List.append_nil]
      refine ⟨slice_store_before _ (Nat.le_refl argc), fun _ => store_same _, fun i hi => ?_⟩
      rcases List.mem_append.mp hi with hi | hi
      · exact Or.inl hi
      · exact Or.inr (by rw [List.mem_singleton.mp hi]; omega)
    | some r =>
      obtain ⟨piece, rest⟩ := r
      obtain ⟨hslice, hnull, hstored⟩ := ih (argc + 1) rest (argv.set argc (some piece))
      have hset : slice (argv.set argc (some piece)).cells 0 (argc + 1) = slice argv.cells 0 argc ++ [some piece] :=
        slice_store [some piece] (Nat.zero_le argc)
      rw [strtok_some hcp, List.take_succ_cons, List.length_cons, List.length_cons, List.map_cons]
      refine ⟨?_, fun hlt => ?_, fun i hi => ?_⟩
      · rw [hset, List.append_assoc, List.singleton_append] at hslice
        rw [← hslice]
        exact congrArg _ (by omega)
      · rw [← hnull (by omega)]
        exact congrArg _ (by omega)
      · rcases hstored i hi with hi | hi
        · rcases List.mem_append.mp hi with hi | hi
          · exact Or.inl hi
          · exact Or.inr (by rw [List.mem_singleton.mp hi]; omega)
        · exact Or.inr (by omega)

/-- The pieces from argv[argc] up to the NULL. -/
def Pieces (argv : Vec) (argc : Nat) (pieces : List Str) : Prop :=
  slice argv.cells argc (argc + pieces.length) = pieces.map some ∧ argv.cells (argc + pieces.length) = none

/-- argv is kept to, and ends behind the pieces that there has been room for. -/
theorem argv_spec (old : (Nat → Option Str) × (Nat → Option Str)) (program : Str) :
    Pieces (ftpdPopen glob old program).1 0 ((words program).take (MAX_ARGC - 1)) ∧
      ∀ i ∈ (ftpdPopen glob old program).1.stored, i < MAX_ARGC := by
  obtain ⟨hslice, hnull, hstored⟩ := breakUp_spec (MAX_ARGC - 1) 0 program ⟨old.1, []⟩
  have hle : ((words program).take (MAX_ARGC - 1)).length ≤ MAX_ARGC - 1 := List.length_take_le _ _
  rw [slice_self, List.nil_append, Nat.zero_add] at hslice
  have hargv : (ftpdPopen glob old program).1 =
      (breakUp (MAX_ARGC - 1) 0 program ⟨old.1, []⟩).set (MAX_ARGC - 1) none := rfl
  rw [hargv]
  refine ⟨⟨?_, ?_⟩, fun i hi => ?_⟩
  · rw [Nat.zero_add, ← hslice]
    exact slice_store_before _ hle
  · by_cases hlt : (words program).length < MAX_ARGC - 1
    · rw [List.take_of_length_le (Nat.le_of_lt hlt), ← hnull hlt]
      exact store_ne _ (by omega)
    · rw [List.length_take, Nat.min_eq_left (Nat.le_of_not_lt hlt), Nat.zero_add]
      exact set_same _ _ none
  · rcases List.mem_append.mp hi with hi | hi
    · rcases hstored i hi with hi | hi
      · cases hi
      · rw [MAX_ARGC] at hi ⊢
        omega
    · rw [List.mem_singleton.mp hi]
      decide

/-! ## gargv -/

/-- These have been stored, one behind the other. -/
structure Filled (gargv : Vec) (l : List Str) : Prop where
  cells : slice gargv.cells 0 l.length = l.map some
  stored : gargv.stored = List.range l.length

theorem set_filled {l : List Str} (h : Filled gargv l) (pop : Str) :
    Filled (gargv.set l.length (some pop)) (l ++ [pop]) := by
  refine ⟨?_, ?_⟩
  · rw [List.length_append, List.map_append, ← h.cells]
    exact slice_store [some pop] (Nat.zero_le _)
  · rw [List.length_append, List.length_singleton, List.range_succ, ← h.stored]
    rfl

theorem strdups_filled {l : List Str} (h : Filled gargv l) (pathv : List Str) :
    (strdups pathv l.length gargv).1 = (l ++ pathv).length ∧ Filled (strdups pathv l.length gargv).2 (l ++ pathv) := by
  induction pathv generalizing gargv l with
  | nil =>
    rw [List.append_nil]
    exact ⟨rfl, h⟩
  | cons pop pathv ih =>
    have hrest := ih (set_filled h pop)
    rw [List.length_append, List.length_singleton, List.append_assoc, List.singleton_append] at hrest
    exact hrest

theorem globEach_filled {l pieces : List Str} (hargv : Pieces argv argc pieces) (hleft : pieces.length < left)
    (h : Filled gargv l) :
    (globEach glob argv left argc l.length gargv).1 = (l ++ expansions glob argc pieces).length ∧
      Filled (globEach glob argv left argc l.length gargv).2 (l ++ expansions glob argc pieces) := by
  induction pieces generalizing left argc gargv l with
  | nil =>
    obtain ⟨left, rfl⟩ : ∃ k, left = k + 1 := ⟨left - 1, by rw [List.length_nil] at hleft; omega⟩
    have hnull : argv.cells argc = none := hargv.2
    rw [globEach, hnull, expansions, List.append_nil]
    exact ⟨rfl, h⟩
  | cons piece pieces ih =>
    rw [List.length_cons] at hleft
    obtain ⟨left, rfl⟩ : ∃ k, left = k + 1 := ⟨left - 1, by omega⟩
    have hcells := hargv.1
    rw [List.length_cons, slice_cons (by omega), List.map_cons] at hcells
    obtain ⟨hpiece, hcells⟩ := List.cons.inj hcells
    have hnext : Pieces argv (argc + 1) pieces := by
      refine ⟨?_, ?_⟩
      · rw [← hcells]
        exact congrArg _ (by omega)
      · rw [← hargv.2, List.length_cons]
        exact congrArg _ (by omega)
    obtain ⟨hgargc, hfilled⟩ := strdups_filled h (expand glob argc piece)
    have hlt : pieces.length < left := by omega
    have hrest := ih hnext hlt hfilled
    rw [List.append_assoc] at hrest
    rw [globEach, hpiece, expansions]
    simp only [hgargc]
    exact hrest

/-- The arguments of the pieces that argv has room for, behind the command. -/
def taken (program : Str) : List Str := expansions glob 1 (((words program).take (MAX_ARGC - 1)).tail)

/-- All of them are stored, and the NULL behind them. -/
theorem gargv_spec (old : (Nat → Option Str) × (Nat → Option Str)) (c : Command) :
    (ftpdPopen glob old c.line).2.Holds (ls :: taken glob c.line) ∧
      (ftpdPopen glob old c.line).2.stored = List.range ((taken glob c.line).length + 2) := by
  obtain ⟨rest, hwords⟩ := words_line c
  obtain ⟨hargv, -⟩ := argv_spec glob old c.line
  have htake : (words c.line).take (MAX_ARGC - 1) = ls :: rest.take (MAX_ARGC - 2) := by
    rw [hwords]
    rfl
  rw [taken, htake, List.tail_cons]
  rw [htake] at hargv
  have hcells := hargv.1
  rw [List.length_cons, slice_cons (by omega), List.map_cons] at hcells
  obtain ⟨hfirst, hcells⟩ := List.cons.inj hcells
  have hpieces : Pieces (ftpdPopen glob old c.line).1 1 (rest.take (MAX_ARGC - 2)) := by
    refine ⟨?_, ?_⟩
    · rw [← hcells]
      exact congrArg _ (by omega)
    · rw [← hargv.2, List.length_cons]
      exact congrArg _ (by omega)
  have hempty : Filled ⟨old.2, []⟩ [] := ⟨slice_self, rfl⟩
  have hlt : (rest.take (MAX_ARGC - 2)).length < MAX_ARGC := by
    have hle : (rest.take (MAX_ARGC - 2)).length ≤ MAX_ARGC - 2 := List.length_take_le _ _
    rw [MAX_ARGC] at hle ⊢
    omega
  obtain ⟨hgargc, hfilled⟩ := globEach_filled glob hpieces hlt (set_filled hempty ls)
  rw [List.nil_append, List.singleton_append] at hgargc hfilled
  have hfinal : (ftpdPopen glob old c.line).2 =
      (globEach glob (ftpdPopen glob old c.line).1 MAX_ARGC 1 1 (Vec.set ⟨old.2, []⟩ 0 (some ls))).2.set
        (ls :: expansions glob 1 (rest.take (MAX_ARGC - 2))).length none := by
    rw [← hgargc, ← hfirst]
    rfl
  rw [hfinal]
  refine ⟨?_, ?_⟩
  · rw [Vec.Holds, ← hfilled.cells]
    exact slice_store [none] (Nat.zero_le _)
  · rw [Vec.set, List.range_succ, List.length_cons]
    exact congrArg (· ++ _) hfilled.stored

theorem Vec.Holds.cell {v : Vec} {l : List Str} (h : v.Holds l) {k : Nat} (hk : k ≤ l.length) :
    (l.map some ++ [none])[k]? = some (v.cells k) := by
  rw [← h, slice, List.getElem?_map, List.getElem?_range (by omega), Option.map_some, Nat.zero_add]

/-- Nothing is behind the NULL. -/
theorem Vec.Holds.nil_of_append {v : Vec} {l m : List Str} (h : v.Holds l) (hm : v.Holds (l ++ m)) : m = [] := by
  cases m with
  | nil => rfl
  | cons p m =>
    have hnull := h.cell (Nat.le_refl l.length)
    have hset := hm.cell (k := l.length) (by simp)
    rw [List.getElem?_append_right (by simp)] at hnull
    rw [List.map_append, List.append_assoc, List.getElem?_append_right (by simp)] at hset
    rw [← hnull, List.length_map, Nat.sub_self, List.map_cons, List.cons_append, List.getElem?_cons_zero,
      List.getElem?_cons_zero] at hset
    cases Option.some.inj hset

theorem expansions_append (argc : Nat) (l m : List Str) :
    expansions glob argc (l ++ m) = expansions glob argc l ++ expansions glob (argc + l.length) m := by
  induction l generalizing argc with
  | nil => rfl
  | cons piece l ih =>
    rw [List.cons_append, expansions, expansions, ih, List.append_assoc, List.length_cons, Nat.add_right_comm,
      Nat.add_assoc]

/-- The pieces that argv has no room for. -/
def behind (program : Str) : List Str := (words program).drop (MAX_ARGC - 1)

theorem expansions_words (c : Command) : expansions glob 1 (words c.line).tail =
    taken glob c.line ++ expansions glob (MAX_ARGC - 1) (behind c.line) := by
  obtain ⟨rest, hwords⟩ := words_line c
  rw [taken, behind, hwords]
  show expansions glob 1 rest = expansions glob 1 (rest.take (MAX_ARGC - 2)) ++
    expansions glob (MAX_ARGC - 1) (rest.drop (MAX_ARGC - 2))
  conv_lhs => rw [← List.take_append_drop (MAX_ARGC - 2) rest, expansions_append]
  by_cases hlt : rest.length ≤ MAX_ARGC - 2
  · rw [List.drop_of_length_le hlt]
    rfl
  · rw [List.length_take, Nat.min_eq_left (by omega)]
    rfl

/-- The vectors are kept to and hold the whole command exactly if what is left behind stands for
    nothing and the NULL still fits. -/
theorem popen_iff (old : (Nat → Option Str) × (Nat → Option Str)) (c : Command) :
    Kept glob old c.line ↔
      expansions glob (MAX_ARGC - 1) (behind c.line) = [] ∧ (taken glob c.line).length + 1 < MAX_GARGC := by
  obtain ⟨hholds, hstored⟩ := gargv_spec glob old c
  have hall := expansions_words glob c
  constructor
  · intro h
    have hargs := h.args
    rw [hall] at hargs
    have hlast := h.gargv ((taken glob c.line).length + 1) (by rw [hstored]; exact List.mem_range.mpr (by omega))
    exact ⟨hholds.nil_of_append hargs, hlast⟩
  · intro ⟨hleft, hfits⟩
    refine ⟨(argv_spec glob old c.line).2, fun i hi => ?_, ?_⟩
    · rw [hstored] at hi
      have hlt := List.mem_range.mp hi
      omega
    · rw [hall, hleft, List.append_nil]
      exact hholds

/-- A directory of as many files for `*`; every other piece is what it is. -/
def starFiles (n : Nat) : Glob := fun _ piece => if piece = [0x2a] then some (List.replicate n [0x66]) else some [piece]

theorem taken_star (n : Nat) : (taken (starFiles n) (Command.listOf [0x2a]).line).length = n + 1 := by
  have hwords : words (Command.listOf [0x2a]).line = [ls, Libc.text "-lgA", [0x2a]] := by decide
  have hne : Libc.text "-lgA" ≠ [0x2a] := by decide
  rw [taken, hwords]
  simp [MAX_ARGC, expansions, expand, starFiles, hne]

/-- `LIST *` in a directory of 998 files: the NULL is stored behind the end. -/
theorem star_overruns : ¬ Kept (starFiles 998) (fun _ => none, fun _ => none) (Command.listOf [0x2a]).line := by
  intro h
  have hstored := (gargv_spec (starFiles 998) (fun _ => none, fun _ => none) (.listOf [0x2a])).2
  have hlast := h.gargv 1000 (by rw [hstored, taken_star]; exact List.mem_range.mpr (by decide))
  exact absurd hlast (by decide)

end Netutils.Ftpd.Popen
