/-
  Netutils.Rcp.Record — the lines of rcp's protocol: how sink reads them, and how source and
  rsource write them (rcp/rcp.c).

  A line is read back as the record it was written for (`parse_fileRecord`,
  `parse_dirRecord`), but of the size only what an int holds.
-/

import Mathlib.Data.List.Basic
import Mathlib.Data.Nat.Digits.Defs
import Netutils.Libc.Ctype
import Netutils.Libc.Stdio

namespace Netutils.Rcp

open Netutils.Arpa (LF NUL)
open Netutils.Libc (isdigit digit number decimal text cstring length_decimal)

abbrev Path := List UInt8

def BUFSIZ : Nat := 8192

def SLASH : UInt8 := 0x2F
def SPACE : UInt8 := 0x20
def ZERO : UInt8 := 0x30
def SEVEN : UInt8 := 0x37
def letterC : UInt8 := 0x43
def letterD : UInt8 := 0x44
def letterE : UInt8 := 0x45
def letterT : UInt8 := 0x54

/-- mtime and atime, in seconds and microseconds. -/
structure Times where
  mtimeSec : Nat
  mtimeUsec : Nat
  atimeSec : Nat
  atimeUsec : Nat
  deriving DecidableEq

inductive Record where
  /-- An error message, and whether it ends the transfer. -/
  | message (fatal : Bool)
  /-- E -/
  | endDir
  /-- T -/
  | times (t : Times)
  /-- C, or D with `dir`. -/
  | node (dir : Bool) (mode : Nat) (size : Int) (name : Path)
  /-- Neither of them. -/
  | unexpected
  | screwup (why : List UInt8)
  deriving DecidableEq

/-! ## Reading -/

/-- getnum -/
def getnum (cp : List UInt8) : Nat × List UInt8 := (number 10 (cp.takeWhile isdigit), cp.dropWhile isdigit)

/-- `if (*cp++ != c) SCREWUP (why)`; at the end `*cp` is a NUL. -/
def delimited (c : UInt8) (why : String) (cp : List UInt8) : Except (List UInt8) (List UInt8) :=
  match cp with
  | d :: cp => if d = c then .ok cp else .error (text why)
  | [] => .error (text why)

def parseTimes (cp : List UInt8) : Except (List UInt8) Times := do
  let (mtimeSec, cp) := getnum cp
  let cp ← delimited SPACE "mtime.sec not delimited" cp
  let (mtimeUsec, cp) := getnum cp
  let cp ← delimited SPACE "mtime.usec not delimited" cp
  let (atimeSec, cp) := getnum cp
  let cp ← delimited SPACE "atime.sec not delimited" cp
  let (atimeUsec, cp) := getnum cp
  if cp = [] then .ok ⟨mtimeSec, mtimeUsec, atimeSec, atimeUsec⟩ else .error (text "atime.usec not delimited")

/-- `for (++cp; cp < buf + 5; cp++)` -/
def getmode : Nat → Nat → List UInt8 → Except (List UInt8) (Nat × List UInt8)
  | 0, mode, cp => .ok (mode, cp)
  | n + 1, mode, c :: cp => if c < ZERO ∨ SEVEN < c then .error (text "bad mode") else getmode n (mode * 8 + digit c) cp
  | _ + 1, _, [] => .error (text "bad mode")

/-- `int size` -/
def intRange : Nat := 2 ^ 32

def getsize (ds : List UInt8) : Int := ds.foldl (fun n c => Int.bmod (n * 10 + digit c) intRange) 0

def parseNode (dir : Bool) (cp : List UInt8) : Except (List UInt8) Record := do
  let (mode, cp) ← getmode 4 0 cp
  let cp ← delimited SPACE "mode not delimited" cp
  let size := getsize (cp.takeWhile isdigit)
  let name ← delimited SPACE "size not delimited" (cp.dropWhile isdigit)
  .ok (.node dir mode size name)

def orScrewup : Except (List UInt8) Record → Record
  | .ok r => r
  | .error why => .screwup why

/-- The string in `buf`. -/
def parseControl (buf : List UInt8) : Record :=
  match buf with
  | c :: cp =>
    if c = letterT then orScrewup ((parseTimes cp).map .times)
    else if c = letterC then orScrewup (parseNode false cp)
    else if c = letterD then orScrewup (parseNode true cp)
    else .unexpected
  | [] => .unexpected

/-- The bytes of a line, with its newline if there was room for it. -/
def parse (line : List UInt8) : Record :=
  if line.head? = some 1 ∨ line.head? = some 2 then .message (line.head? = some 2)
  else if line.head? = some letterE then .endDir
  else parseControl (cstring (if line.getLast? = some LF then line.dropLast else line))

/-! ## Writing -/

/-- `%04o` of a mode with RCP_MODEMASK. -/
def octal (mode : Nat) : List UInt8 :=
  [mode / 512 % 8, mode / 64 % 8, mode / 8 % 8, mode % 8].map fun d => ZERO + UInt8.ofNat d

/-- `snprintf (buf, sizeof buf, "C%04o %ld %s\n", ...)` -/
def fileRecord (mode size : Nat) (last : Path) : List UInt8 :=
  (letterC :: octal mode ++ SPACE :: decimal size ++ SPACE :: last ++ [LF]).take (BUFSIZ - 1)

/-- `sprintf (buf, "D%04o %d %s\n", ..., 0, last)` -/
def dirRecord (mode : Nat) (last : Path) : List UInt8 :=
  letterD :: octal mode ++ SPACE :: decimal 0 ++ SPACE :: last ++ [LF]

/-- write_stat_time -/
def timesRecord (t : Times) : List UInt8 :=
  letterT :: decimal t.mtimeSec ++ SPACE :: decimal t.mtimeUsec ++ SPACE :: decimal t.atimeSec ++
    SPACE :: decimal t.atimeUsec ++ [LF]

/-- run_err: the line for the other side. -/
def errorLine (msg : List UInt8) : List UInt8 := 1 :: text "rcp: " ++ msg ++ [LF]

/-! ## Names and sizes -/

theorem getsize_lt (ds : List UInt8) : getsize ds < 2 ^ 31 := by
  have hall : ∀ (ds : List UInt8) (k : Int), k < 2 ^ 31 →
      ds.foldl (fun n c => Int.bmod (n * 10 + digit c) intRange) k < 2 ^ 31 := by
    intro ds
    induction ds with
    | nil => exact fun k hk => hk
    | cons c ds ih =>
      intro k _
      have hlt := @Int.bmod_lt (k * 10 + digit c) intRange (by decide)
      apply ih
      have hhalf : ((intRange : Int) + 1) / 2 = 2 ^ 31 := by decide
      rw [hhalf] at hlt
      exact hlt
  exact hall ds 0 (by decide)

theorem delimited_suffix {c : UInt8} {why : String} {cp rest : List UInt8} (h : delimited c why cp = .ok rest) :
    rest <:+ cp := by
  rcases cp with _ | ⟨d, cp⟩
  · cases h
  · rw [delimited] at h
    split at h
    · obtain rfl := Except.ok.inj h
      exact List.suffix_cons _ _
    · cases h

theorem getmode_suffix {n mode m : Nat} {cp rest : List UInt8} (h : getmode n mode cp = .ok (m, rest)) :
    rest <:+ cp := by
  induction n generalizing mode cp with
  | zero =>
    obtain ⟨-, rfl⟩ := Prod.mk.inj (Except.ok.inj h)
    exact List.suffix_rfl
  | succ n ih =>
    rcases cp with _ | ⟨c, cp⟩
    · cases h
    · rw [getmode] at h
      split at h
      · cases h
      · exact (ih h).trans (List.suffix_cons _ _)

theorem ok_of_bind {ε α β : Type} {x : Except ε α} {f : α → Except ε β} {b : β} (h : x.bind f = .ok b) :
    ∃ a, x = .ok a ∧ f a = .ok b := by
  cases x with
  | error e => cases h
  | ok a => exact ⟨a, rfl, h⟩

/-- The name is the end of the record, and the size an int. -/
theorem parseNode_ok {dir : Bool} {cp : List UInt8} {r : Record} (h : parseNode dir cp = .ok r) :
    ∃ mode size name, r = .node dir mode size name ∧ name <:+ cp ∧ size < 2 ^ 31 := by
  obtain ⟨⟨mode, cp1⟩, hmode, h⟩ := ok_of_bind h
  obtain ⟨cp2, hspace, h⟩ := ok_of_bind h
  obtain ⟨name, hname, h⟩ := ok_of_bind h
  refine ⟨mode, _, name, (Except.ok.inj h).symm, ?_, getsize_lt _⟩
  have hdigits := (delimited_suffix hname).trans (List.dropWhile_suffix isdigit)
  exact (hdigits.trans (delimited_suffix hspace)).trans (getmode_suffix hmode)

theorem parseControl_node {buf : List UInt8} {dir : Bool} {mode : Nat} {size : Int} {name : Path}
    (h : parseControl buf = .node dir mode size name) : name <:+ buf ∧ size < 2 ^ 31 := by
  have hnode : ∀ (d : Bool) (cp : List UInt8), orScrewup (parseNode d cp) = .node dir mode size name →
      name <:+ cp ∧ size < 2 ^ 31 := by
    intro d cp hd
    cases hp : parseNode d cp with
    | error why =>
      rw [hp] at hd
      cases hd
    | ok r =>
      obtain ⟨_, _, _, rfl, hsuffix, hsize⟩ := parseNode_ok hp
      rw [hp] at hd
      obtain ⟨-, -, rfl, rfl⟩ := Record.node.inj hd
      exact ⟨hsuffix, hsize⟩
  rcases buf with _ | ⟨c, cp⟩
  · cases h
  · rw [parseControl] at h
    split at h
    · cases ht : parseTimes cp <;> rw [ht] at h <;> cases h
    · split at h
      · exact ⟨(hnode _ _ h).1.trans (List.suffix_cons _ _), (hnode _ _ h).2⟩
      · split at h
        · exact ⟨(hnode _ _ h).1.trans (List.suffix_cons _ _), (hnode _ _ h).2⟩
        · cases h

/-- A line with no newline but at its end. -/
theorem parse_node {line : List UInt8} {dir : Bool} {mode : Nat} {size : Int} {name : Path}
    (h : parse line = .node dir mode size name) (hlf : LF ∉ line.dropLast) :
    NUL ∉ name ∧ LF ∉ name ∧ size < 2 ^ 31 := by
  unfold parse at h
  split at h
  · cases h
  split at h
  · cases h
  obtain ⟨hsuffix, hsize⟩ := parseControl_node h
  refine ⟨fun hm => Libc.cstring_nul _ (hsuffix.subset hm), fun hm => ?_, hsize⟩
  have hbuf := (Libc.cstring_prefix_self _).subset (hsuffix.subset hm)
  split at hbuf
  · exact hlf hbuf
  · rename_i hlast
    have hne := List.ne_nil_of_mem hbuf
    rw [← List.dropLast_append_getLast hne, List.mem_append, List.mem_singleton] at hbuf
    rcases hbuf with hb | hb
    · exact hlf hb
    · exact hlast (by rw [List.getLast?_eq_some_getLast hne, ← hb])

/-! ## What is read back -/

theorem getmode_octal (mode : Nat) (cp : List UInt8) : getmode 4 0 (octal mode ++ cp) = .ok (mode % 4096, cp) := by
  have hdigit : ∀ d, ¬ (ZERO + UInt8.ofNat (d % 8) < ZERO ∨ SEVEN < ZERO + UInt8.ofNat (d % 8)) ∧
      digit (ZERO + UInt8.ofNat (d % 8)) = d % 8 := by
    intro d
    have hlt : d % 8 < 8 := Nat.mod_lt _ (by decide)
    generalize d % 8 = e at hlt
    revert e
    decide
  obtain ⟨h1, h1'⟩ := hdigit (mode / 512)
  obtain ⟨h2, h2'⟩ := hdigit (mode / 64)
  obtain ⟨h3, h3'⟩ := hdigit (mode / 8)
  obtain ⟨h4, h4'⟩ := hdigit mode
  simp only [octal, List.map_cons, List.map_nil, List.cons_append, List.nil_append, getmode, if_neg h1, if_neg h2,
    if_neg h3, if_neg h4, h1', h2', h3', h4']
  congr 2
  omega

/-- The digits of an int are read modulo its range. -/
theorem getsize_from (ds : List UInt8) (k : Nat) :
    ds.foldl (fun n c => Int.bmod (n * 10 + digit c) intRange) (Int.bmod k intRange) =
      Int.bmod ((ds.foldl (fun n c => n * 10 + digit c) k : Nat) : Int) intRange := by
  induction ds generalizing k with
  | nil => rw [List.foldl_nil, List.foldl_nil]
  | cons c ds ih =>
    have hstep : Int.bmod (Int.bmod k intRange * 10 + digit c) intRange =
        Int.bmod ((k * 10 + digit c : Nat) : Int) intRange := by
      rw [← Int.bmod_add_bmod, Int.bmod_mul_bmod, Int.bmod_add_bmod]
      push_cast
      rfl
    rw [List.foldl_cons, List.foldl_cons, hstep, ih]

theorem getsize_decimal (n : Nat) : getsize (decimal n) = Int.bmod n intRange := by
  have h := getsize_from (decimal n) 0
  have hzero : Int.bmod ((0 : Nat) : Int) intRange = 0 := Int.zero_bmod
  rw [hzero] at h
  rw [getsize, h]
  exact congrArg (fun k : Nat => Int.bmod k intRange) (Libc.number_decimal n)

/-- A size that an int holds. -/
theorem bmod_small {n : Nat} (h : n < 2 ^ 31) : Int.bmod n intRange = n := by
  apply Int.bmod_eq_of_le
  · unfold intRange
    omega
  · unfold intRange
    omega

theorem takeWhile_decimal (n : Nat) (cp : List UInt8) :
    (decimal n ++ SPACE :: cp).takeWhile isdigit = decimal n ∧
      (decimal n ++ SPACE :: cp).dropWhile isdigit = SPACE :: cp := by
  have hdigits : ∀ c ∈ decimal n, isdigit c = true := fun c hc => Libc.isdigit_decimal hc
  have hspace : (SPACE :: cp).head?.all (!isdigit ·) = true := rfl
  exact Libc.span_append hdigits hspace

theorem parseNode_written (dir : Bool) (mode size : Nat) (name : Path) :
    parseNode dir (octal mode ++ SPACE :: decimal size ++ SPACE :: name) =
      .ok (.node dir (mode % 4096) (Int.bmod size intRange) name) := by
  obtain ⟨htake, hdrop⟩ := takeWhile_decimal size name
  have hspace : ∀ (why : String) (cp : List UInt8), delimited SPACE why (SPACE :: cp) = .ok cp := by
    intro why cp
    rw [delimited, if_pos rfl]
  rw [List.append_assoc, List.cons_append, parseNode, getmode_octal]
  simp only [bind, Except.bind, hspace, htake, hdrop, getsize_decimal]

theorem octal_range {mode : Nat} {c : UInt8} (h : c ∈ octal mode) : ZERO ≤ c := by
  have hdigits : ∀ d < 8, ZERO ≤ ZERO + UInt8.ofNat d := by decide
  obtain ⟨d, hd, rfl⟩ := List.mem_map.mp h
  apply hdigits
  simp only [List.mem_cons, List.not_mem_nil, or_false] at hd
  omega

/-- A line that is the text of a control record, with its newline. -/
theorem parse_line {c : UInt8} {cp : List UInt8} (hc : c = letterT ∨ c = letterC ∨ c = letterD) (h0 : NUL ∉ cp) :
    parse (c :: cp ++ [LF]) = parseControl (c :: cp) := by
  have hnul : NUL ∉ c :: cp := by
    rw [List.mem_cons, not_or]
    refine ⟨?_, h0⟩
    rcases hc with rfl | rfl | rfl <;> decide
  have hlast : (c :: cp ++ [LF]).getLast? = some LF := List.getLast?_concat
  have hinit : (c :: cp ++ [LF]).dropLast = c :: cp := List.dropLast_concat
  have hhead : (c :: cp ++ [LF]).head? = some c := rfl
  rw [parse, hlast, hinit, hhead, if_pos rfl, Libc.cstring_of_not_mem hnul]
  rcases hc with rfl | rfl | rfl
  · rw [if_neg (by decide), if_neg (by decide)]
  · rw [if_neg (by decide), if_neg (by decide)]
  · rw [if_neg (by decide), if_neg (by decide)]

/-- Neither of them is in what a record has besides the name. -/
theorem notMem_record {c : UInt8} (hc : c = NUL ∨ c = LF) {mode size : Nat} {name : Path} (h : c ∉ name) :
    c ∉ octal mode ++ SPACE :: decimal size ++ SPACE :: name := by
  have hzero : ¬ ZERO ≤ c := by rcases hc with rfl | rfl <;> decide
  have hspace : c ≠ SPACE := by rcases hc with rfl | rfl <;> decide
  have hdigit : ¬ isdigit c = true := by rcases hc with rfl | rfl <;> decide
  intro hmem
  rw [List.append_assoc, List.cons_append, List.mem_append, List.mem_cons, List.mem_append, List.mem_cons] at hmem
  rcases hmem with hm | hm | hm | hm | hm
  · exact hzero (octal_range hm)
  · exact hspace hm
  · exact hdigit (Libc.isdigit_decimal hm)
  · exact hspace hm
  · exact h hm

theorem parse_dirRecord (mode : Nat) {name : Path} (h : NUL ∉ name) :
    parse (dirRecord mode name) = .node true (mode % 4096) 0 name := by
  have hline : dirRecord mode name = letterD :: (octal mode ++ SPACE :: decimal 0 ++ SPACE :: name) ++ [LF] := by
    simp only [dirRecord, List.cons_append]
  rw [hline, parse_line (Or.inr (Or.inr rfl)) (notMem_record (Or.inl rfl) h), parseControl, if_neg (by decide),
    if_neg (by decide), if_pos rfl, parseNode_written]
  rfl

theorem getnum_decimal (n : Nat) (cp : List UInt8) : getnum (decimal n ++ SPACE :: cp) = (n, SPACE :: cp) := by
  obtain ⟨htake, hdrop⟩ := takeWhile_decimal n cp
  rw [getnum, htake, hdrop, Libc.number_decimal]

theorem getnum_end (n : Nat) : getnum (decimal n) = (n, []) := by
  have hdigits : ∀ c ∈ decimal n, isdigit c = true := fun c hc => Libc.isdigit_decimal hc
  rw [getnum, List.takeWhile_eq_self_iff.mpr hdigits, List.dropWhile_eq_nil_iff.mpr hdigits, Libc.number_decimal]

theorem parseTimes_written (t : Times) :
    parseTimes (decimal t.mtimeSec ++ SPACE :: (decimal t.mtimeUsec ++ SPACE :: (decimal t.atimeSec ++
      SPACE :: decimal t.atimeUsec))) = .ok t := by
  have hspace : ∀ (why : String) (cp : List UInt8), delimited SPACE why (SPACE :: cp) = .ok cp := by
    intro why cp
    rw [delimited, if_pos rfl]
  simp only [parseTimes, bind, Except.bind, getnum_decimal, getnum_end, hspace, if_pos]

theorem notMem_times {c : UInt8} (hc : c = NUL ∨ c = LF) (t : Times) :
    c ∉ decimal t.mtimeSec ++ SPACE :: (decimal t.mtimeUsec ++ SPACE :: (decimal t.atimeSec ++
      SPACE :: decimal t.atimeUsec)) := by
  have hdigit : ¬ isdigit c = true := by rcases hc with rfl | rfl <;> decide
  have hspace : c ≠ SPACE := by rcases hc with rfl | rfl <;> decide
  have hdigits : ∀ n, c ∉ decimal n := fun n hm => hdigit (Libc.isdigit_decimal hm)
  simp only [List.mem_append, List.mem_cons, hdigits, hspace, or_self, not_false_eq_true]

theorem timesRecord_eq (t : Times) :
    timesRecord t = letterT :: (decimal t.mtimeSec ++ SPACE :: (decimal t.mtimeUsec ++ SPACE :: (decimal t.atimeSec ++
      SPACE :: decimal t.atimeUsec))) ++ [LF] := by
  simp only [timesRecord, List.cons_append, List.append_assoc]

theorem parse_timesRecord (t : Times) : parse (timesRecord t) = .times t := by
  rw [timesRecord_eq, parse_line (Or.inl rfl) (notMem_times (Or.inl rfl) t), parseControl, if_pos rfl,
    parseTimes_written]
  rfl

/-! ## Lines -/

/-- open and opendir take no longer path. -/
def PATH_MAX : Nat := 4096

/-- A line that sink reads whole. -/
def IsLine (l : List UInt8) : Prop := ∃ line, l = line ++ [LF] ∧ line ≠ [] ∧ LF ∉ line ∧ l.length < BUFSIZ

/-- What a long holds. -/
def Times.Fits (t : Times) : Prop :=
  t.mtimeSec < 2 ^ 63 ∧ t.mtimeUsec < 2 ^ 63 ∧ t.atimeSec < 2 ^ 63 ∧ t.atimeUsec < 2 ^ 63

theorem isLine_end : IsLine [letterE, LF] := ⟨[letterE], rfl, List.cons_ne_nil _ _, by decide, by decide⟩

theorem isLine_timesRecord {t : Times} (h : t.Fits) : IsLine (timesRecord t) := by
  obtain ⟨h1, h2, h3, h4⟩ := h
  have hlen : ∀ n, n < 2 ^ 63 → (decimal n).length ≤ 19 := fun n hn => length_decimal (by decide) (by omega)
  have := hlen _ h1
  have := hlen _ h2
  have := hlen _ h3
  have := hlen _ h4
  refine ⟨_, timesRecord_eq t, List.cons_ne_nil _ _, ?_, ?_⟩
  · rw [List.mem_cons, not_or]
    exact ⟨by decide, notMem_times (Or.inr rfl) t⟩
  · rw [timesRecord_eq]
    simp only [List.length_append, List.length_cons, List.length_nil]
    unfold BUFSIZ
    omega

theorem length_record (mode size : Nat) (name : Path) :
    (octal mode ++ SPACE :: decimal size ++ SPACE :: name).length = 6 + (decimal size).length + name.length := by
  have hoctal : (octal mode).length = 4 := List.length_map _
  rw [List.append_assoc, List.length_append, hoctal, List.length_append, List.length_cons, List.length_cons]
  omega

theorem isLine_dirRecord (mode : Nat) {name : Path} (hlf : LF ∉ name) (hlen : name.length ≤ PATH_MAX) :
    IsLine (dirRecord mode name) := by
  have hline : dirRecord mode name = letterD :: (octal mode ++ SPACE :: decimal 0 ++ SPACE :: name) ++ [LF] := by
    simp only [dirRecord, List.cons_append]
  have hdigits : (decimal 0).length ≤ 1 := length_decimal (by decide) (by decide)
  refine ⟨_, hline, List.cons_ne_nil _ _, ?_, ?_⟩
  · rw [List.mem_cons, not_or]
    exact ⟨by decide, notMem_record (Or.inr rfl) hlf⟩
  · rw [hline, List.length_append, List.length_cons, length_record, List.length_singleton]
    unfold BUFSIZ
    unfold PATH_MAX at hlen
    omega

/-- There is room for it in `buf`. -/
theorem fileRecord_eq (mode : Nat) {size : Nat} {name : Path} (hsize : size < 2 ^ 63)
    (hlen : name.length ≤ PATH_MAX) : fileRecord mode size name = letterC :: (octal mode ++ SPACE :: decimal size ++ SPACE :: name) ++ [LF] := by
  have hdigits : (decimal size).length ≤ 19 := length_decimal (by decide) (by omega)
  have hroom : (letterC :: (octal mode ++ SPACE :: decimal size ++ SPACE :: name) ++ [LF]).length ≤ BUFSIZ - 1 := by
    rw [List.length_append, List.length_cons, length_record, List.length_singleton]
    unfold BUFSIZ
    unfold PATH_MAX at hlen
    omega
  exact List.take_of_length_le hroom

theorem isLine_fileRecord (mode : Nat) {size : Nat} {name : Path} (hsize : size < 2 ^ 63) (hlf : LF ∉ name)
    (hlen : name.length ≤ PATH_MAX) : IsLine (fileRecord mode size name) := by
  refine ⟨_, fileRecord_eq mode hsize hlen, List.cons_ne_nil _ _, ?_, ?_⟩
  · rw [List.mem_cons, not_or]
    exact ⟨by decide, notMem_record (Or.inr rfl) hlf⟩
  · rw [fileRecord, List.length_take]
    unfold BUFSIZ
    omega

theorem parse_fileRecord (mode : Nat) {size : Nat} {name : Path} (hsize : size < 2 ^ 31) (h : NUL ∉ name)
    (hlen : name.length ≤ PATH_MAX) : parse (fileRecord mode size name) = .node false (mode % 4096) size name := by
  rw [fileRecord_eq mode (by omega) hlen, parse_line (Or.inr (Or.inl rfl)) (notMem_record (Or.inl rfl) h), parseControl,
    if_neg (by decide), if_pos rfl, parseNode_written, bmod_small hsize]
  rfl

end Netutils.Rcp
