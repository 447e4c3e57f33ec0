/-
  Netutils.Ftp.Ruserpass — the parser of .netrc (ftp/ruserpass.c).

  A step takes a token of the file, or a macro definition. Nothing counts the characters of
  a token, a macro's name may be one character longer than mac_name has room for with its
  NUL, and a macro that begins with an empty line has its end in front of its start: the
  first one is looked for in front of macbuf. A run stays in its tables just if none of its
  steps meets such a token or macro (`stays_iff`), and every run ends (`length_le_of_run`).
-/

import Netutils.Arpa
import Netutils.Lib.Transition
import Netutils.Libc.Ctype
import Netutils.Libc.Stdio

namespace Netutils.Ftp.Ruserpass

open Netutils.Arpa Netutils.Lib.Transition Netutils.Libc

def BLANK : UInt8 := 0x20
def TAB : UInt8 := 0x09
def NEWLINE : UInt8 := 0x0a
def QUOTE : UInt8 := 0x22
def COMMA : UInt8 := 0x2c
def DOT : UInt8 := 0x2e
def BACKSLASH : UInt8 := 0x5c

/-- `(char) EOF` -/
def EOF : UInt8 := 0xff

/-! ## token -/

inductive Token where
  | none
  | default
  | login
  | passwd
  | account
  | macdef
  | id
  | machine
  deriving DecidableEq

def toktab : List (List UInt8 × Token) :=
  [(text "default", .default), (text "login", .login), (text "password", .passwd), (text "passwd", .passwd),
   (text "account", .account), (text "machine", .machine), (text "macdef", .macdef)]

def isseparator (c : UInt8) : Bool := c = NEWLINE || c = TAB || c = BLANK || c = COMMA

def isquote (c : UInt8) : Bool := c = QUOTE

/-- The loop that stores characters up to one of these, and what it leaves of the file. -/
def fill (isend : UInt8 → Bool) : List UInt8 → List UInt8 × List UInt8
  | [] => ([], [])
  | c :: cfile =>
    if isend c = true then ([], cfile)
    else if c = BACKSLASH then
      match cfile with
      | [] => ([EOF], [])
      | d :: cfile => (d :: (fill isend cfile).1, (fill isend cfile).2)
    else (c :: (fill isend cfile).1, (fill isend cfile).2)

structure Lexed where
  value : Token
  /-- tokval, up to its NUL. -/
  tokval : List UInt8
  /-- The characters stored in tokval. -/
  stores : Nat
  cfile : List UInt8

/-- At the end of the file `getc` says EOF once more, so feof need not be asked. -/
def token (tokval cfile : List UInt8) : Lexed :=
  match cfile.dropWhile isseparator with
  | [] => ⟨.none, tokval, 0, []⟩
  | c :: cfile =>
    let r := if c = QUOTE then fill isquote cfile else (c :: (fill isseparator cfile).1, (fill isseparator cfile).2)
    let tokval := cstring r.1
    ⟨if tokval = [] then .none else (toktab.lookup tokval).getD .id, tokval, r.1.length + 1, r.2⟩

/-! ## The parser -/

structure Macel where
  mac_name : List UInt8
  /-- `mac_start - macbuf` -/
  mac_start : Int
  /-- `mac_end - macbuf` -/
  mac_end : Int

/-- An access to one of the tables. -/
inductive Access where
  | tokval (i : Nat)
  /-- A character of the name of a macro. -/
  | mac_name (macnum i : Nat)
  | store (tmp : Int)
  | load (tmp : Int)
  deriving DecidableEq

inductive Value where
  | login
  | passwd
  | account
  deriving DecidableEq

inductive Pc where
  | next
  /-- A machine's name is read. -/
  | machine
  /-- The loop behind `match`. -/
  | matched
  /-- The mode of the file is asked for. -/
  | guard (v : Value)
  /-- The token behind a keyword is read. -/
  | value (v : Value)
  | macdef
  | done
  | bad
  deriving DecidableEq

structure Parse where
  pc : Pc
  cfile : List UInt8
  tokval : List UInt8
  usedefault : Bool
  aname : Option (List UInt8)
  apass : Option (List UInt8)
  aacct : Option (List UInt8)
  macros : List Macel
  /-- The memory from macbuf on, and in front of it. -/
  macbuf : Int → UInt8
  printed : List (List UInt8)
  log : List Access

structure Env where
  host : List UInt8
  hostname : List UInt8
  myname : List UInt8
  proxy : Bool

/-- From the first dot on. -/
def fromDot (s : List UInt8) : List UInt8 := s.dropWhile (· ≠ DOT)

/-- A name in the local domain without its domain. -/
def Env.incomplete (env : Env) (name tokval : List UInt8) : Bool :=
  fromDot name ≠ [] && strcaseeq (fromDot name) (fromDot env.myname) &&
    strcaseeq (name.takeWhile (· ≠ DOT)) (tokval.take (name.takeWhile (· ≠ DOT)).length) &&
    tokval.length = (name.takeWhile (· ≠ DOT)).length

/-- Allow match either for user's input host name or official hostname. -/
def Env.matches (env : Env) (tokval : List UInt8) : Bool :=
  strcaseeq env.host tokval || strcaseeq env.hostname tokval || env.incomplete env.hostname tokval ||
    env.incomplete env.host tokval

/-! ## macdef -/

def isblank (c : UInt8) : Bool := c = BLANK || c = TAB

/-- The loop that reads the name behind its first character; the last character read, and what
    is left of the file. -/
def readName : Nat → UInt8 → List UInt8 → List UInt8 × Option UInt8 × List UInt8
  | 0, c, cfile => ([], some c, cfile)
  | _ + 1, _, [] => ([], none, [])
  | i + 1, _, c :: cfile =>
    if isspace c = true then ([], some c, cfile)
    else (c :: (readName i c cfile).1, (readName i c cfile).2)

/-- How the text of a macro ends. -/
inductive Ending where
  | eof
  | exceeded
  | ended (mac_end : Int) (cfile : List UInt8)

structure Body where
  ending : Ending
  macbuf : Int → UInt8
  log : List Access

def put (macbuf : Int → UInt8) (tmp : Int) (c : UInt8) : Int → UInt8 := fun p => if p = tmp then c else macbuf p

/-- The loop that reads the text of a macro. -/
def body : List UInt8 → Int → (Int → UInt8) → Body
  | [], tmp, macbuf => if tmp = 4096 then ⟨.exceeded, macbuf, []⟩ else ⟨.eof, macbuf, []⟩
  | c :: cfile, tmp, macbuf =>
    if tmp = 4096 then ⟨.exceeded, macbuf, []⟩
    else if c = NEWLINE then
      if put macbuf tmp c (tmp - 1) = NUL then
        ⟨.ended (tmp - 1) cfile, put macbuf tmp c, [.store tmp, .load (tmp - 1)]⟩
      else
        let r := body cfile (tmp + 1) (put (put macbuf tmp c) tmp NUL)
        { r with log := .store tmp :: .load (tmp - 1) :: .store tmp :: r.log }
    else
      let r := body cfile (tmp + 1) (put macbuf tmp c)
      { r with log := .store tmp :: r.log }

/-- Where the next macro starts. -/
def macStart (macros : List Macel) : Int :=
  match macros.getLast? with
  | none => 0
  | some m => m.mac_end + 1

def missingName : List UInt8 := text "Missing macdef name argument.\n"
def limitReached : List UInt8 := text "Limit of 16 macros have already been defined\n"
def missingEnd : List UInt8 := text "Macro definition missing null line terminator.\n"
def bufferExceeded : List UInt8 := text "4K macro buffer exceeded\n"
def unknownKeyword (tokval : List UInt8) : List UInt8 := text "Unknown .netrc keyword " ++ tokval
def readable : List UInt8 := text "Error: .netrc file is readable by others."
def removeValue (what : String) : List UInt8 :=
  text "Remove " ++ text what ++ text " or make file unreadable by others."

namespace Parse

def fail (s : Parse) (message : List UInt8) : Parse := { s with pc := .bad, printed := s.printed ++ [message] }

/-- The text of a macro of this name. -/
def macroText (s : Parse) (mac_name cfile : List UInt8) : Parse :=
  let r := body cfile (macStart s.macros) s.macbuf
  let s := { s with macbuf := r.macbuf, log := s.log ++ r.log }
  match r.ending with
  | .eof => s.fail missingEnd
  | .exceeded => s.fail bufferExceeded
  | .ended mac_end cfile =>
    { s with pc := .matched, cfile, macros := s.macros ++ [⟨mac_name, macStart s.macros, mac_end⟩] }

/-- The stores of the characters of a name. -/
def nameStores (macnum len : Nat) : List Access := (List.range len).map (.mac_name macnum)

def macdef (s : Parse) : Parse :=
  match s.cfile.dropWhile isblank with
  | [] => s.fail missingName
  | c :: cfile =>
    if c = NEWLINE then s.fail missingName
    else if s.macros.length = 16 then s.fail limitReached
    else
      let r := readName 8 c cfile
      let mac_name := c :: r.1
      match r.2 with
      | (none, _) =>
        { s with log := s.log ++ nameStores s.macros.length mac_name.length }.fail missingEnd
      | (some c, cfile) =>
        let s := { s with log := s.log ++ nameStores s.macros.length (mac_name.length + 1) }
        if c = NEWLINE then s.macroText (cstring mac_name) cfile
        else
          match cfile.dropWhile (· ≠ NEWLINE) with
          | [] => s.fail missingEnd
          | _ :: cfile => s.macroText (cstring mac_name) cfile

/-- token is called. -/
def token (s : Parse) : Token × Parse :=
  let r := Ruserpass.token s.tokval s.cfile
  (r.value, { s with cfile := r.cfile, tokval := r.tokval, log := s.log ++ (List.range r.stores).map .tokval })

/-- What is done with the token behind a keyword. -/
def value (s : Parse) : Value → Token → Parse
  | _, .none => { s with pc := .matched }
  | .login, _ =>
    match s.aname with
    | none => { s with pc := .matched, aname := some s.tokval }
    | some name => if name = s.tokval then { s with pc := .matched } else { s with pc := .next }
  | .passwd, _ => { s with pc := .matched, apass := s.apass.or (some s.tokval) }
  | .account, _ => { s with pc := .matched, aacct := s.aacct.or (some s.tokval) }

/-- The mode of the file is asked for. -/
def guarded (s : Parse) (isreadable : Bool) : Value → Parse
  | .passwd =>
    if s.aname ≠ some (text "anonymous") ∧ isreadable = true then
      (s.fail readable).fail (removeValue "password")
    else { s with pc := .value .passwd }
  | .account =>
    if isreadable = true then (s.fail readable).fail (removeValue "account") else { s with pc := .value .account }
  | .login => { s with pc := .value .login }

/-- A keyword in the loop behind `match`. -/
def keyword (env : Env) (s : Parse) : Token → Parse
  | .none | .machine | .default => { s with pc := .done }
  | .login => { s with pc := .value .login }
  | .passwd => { s with pc := .guard .passwd }
  | .account => { s with pc := .guard .account }
  | .macdef => if env.proxy = true then { s with pc := .done } else { s with pc := .macdef }
  | .id => { s with printed := s.printed ++ [unknownKeyword s.tokval] }

/-- A keyword in the loop behind `next`. -/
def entry (s : Parse) : Token → Parse
  | .none => { s with pc := .done }
  | .default => { s with usedefault := true, pc := .matched }
  | .machine => if s.usedefault = true then { s with pc := .matched } else { s with pc := .machine }
  | _ => s

/-- The name behind `machine`. -/
def machine (env : Env) (s : Parse) (t : Token) : Parse :=
  if t = .id ∧ env.matches s.tokval = true then { s with pc := .matched } else { s with pc := .next }

end Parse

/-- A step, and whether the file is readable by others then. -/
def step (env : Env) (isreadable : Bool) (s : Parse) : Option Parse :=
  match s.pc with
  | .next => some (s.token.2.entry s.token.1)
  | .machine => some (s.token.2.machine env s.token.1)
  | .matched => some (s.token.2.keyword env s.token.1)
  | .guard v => some (s.guarded isreadable v)
  | .value v => some (s.token.2.value v s.token.1)
  | .macdef => some s.macdef
  | .done | .bad => none

/-- A macro table with its macros in macbuf. -/
structure Table where
  macros : List Macel
  macbuf : Int → UInt8
  macnum : macros.length ≤ 16
  within : ∀ m ∈ macros, 0 ≤ m.mac_start ∧ m.mac_start ≤ m.mac_end ∧ m.mac_end < 4096

def start (t : Table) (cfile : List UInt8) (aname apass aacct : Option (List UInt8)) : Parse :=
  ⟨.next, cfile, [], false, aname, apass, aacct, t.macros, t.macbuf, [], []⟩

/-! ## Tokens and macros that fit -/

/-- Characters, and pairs of a backslash and the character behind it. -/
def pieces : List UInt8 → List (List UInt8)
  | [] => []
  | [c] => [[c]]
  | c :: d :: l => if c = BACKSLASH then [c, d] :: pieces l else [c] :: pieces (d :: l)

/-- The characters in front of the first that is one of these, a pair counts as one. -/
def lengthUpTo (isend : UInt8 → Bool) (l : List UInt8) : Nat :=
  ((pieces l).takeWhile fun p => !(p.length = 1 && p.any isend)).length

/-- The next token has at most 99 characters. -/
def TokenFits (cfile : List UInt8) : Prop :=
  match cfile.dropWhile isseparator with
  | [] => True
  | c :: cfile => (if c = QUOTE then lengthUpTo isquote cfile else lengthUpTo isseparator cfile + 1) < 100

/-- The text of a macro does not begin with a newline, or there is no room for it, or what ends
    the macro in front of it is not a NUL. -/
def TextFits (macros : List Macel) (macbuf : Int → UInt8) (cfile : List UInt8) : Prop :=
  cfile.head? ≠ some NEWLINE ∨ macStart macros = 4096 ∨ (macros ≠ [] ∧ macbuf (macStart macros - 1) ≠ NUL)

/-- If a macro is defined, its name has at most 8 characters, and its text fits. -/
def MacroFits (macros : List Macel) (macbuf : Int → UInt8) (cfile : List UInt8) : Prop :=
  match cfile.dropWhile isblank with
  | [] => True
  | c :: cfile =>
    c = NEWLINE ∨ macros.length = 16 ∨
      ((cfile.takeWhile (!isspace ·)).length < 8 ∧ TextFits macros macbuf (cfile.dropWhile (· ≠ NEWLINE)).tail)

/-- What is read next. -/
def Parse.Fits (s : Parse) : Prop :=
  match s.pc with
  | .next | .machine | .matched | .value _ => TokenFits s.cfile
  | .macdef => MacroFits s.macros s.macbuf s.cfile
  | .guard _ | .done | .bad => True

/-! ## The tables -/

def Access.Inside : Access → Prop
  | .tokval i => i < 100
  | .mac_name macnum i => macnum < 16 ∧ i < 9
  | .store tmp => 0 ≤ tmp ∧ tmp < 4096
  | .load tmp => 0 ≤ tmp ∧ tmp < 4096

/-- An entry as it should be. -/
def Macel.Sound (macbuf : Int → UInt8) (m : Macel) : Prop :=
  0 ≤ m.mac_start ∧ m.mac_start ≤ m.mac_end ∧ m.mac_end < 4096 ∧ macbuf m.mac_end = NUL

/-- All accesses are inside the tables, and the macros behind the first ones are sound. -/
structure Stays (n : Nat) (s : Parse) : Prop where
  log : ∀ a ∈ s.log, a.Inside
  created : ∀ m ∈ s.macros.drop n, m.Sound s.macbuf

/-! ## A token -/

variable {isend : UInt8 → Bool} {s : Parse} {n : Nat}

theorem length_fill (hend : isend BACKSLASH = false) (l : List UInt8) : (fill isend l).1.length = lengthUpTo isend l := by
  induction l using pieces.induct with
  | case1 => rfl
  | case2 c =>
    rw [lengthUpTo, pieces, fill]
    by_cases hc : isend c = true
    · rw [if_pos hc, List.takeWhile_cons_of_neg (by simp [hc])]
      rfl
    · rw [if_neg hc, List.takeWhile_cons_of_pos (by simp [hc])]
      split <;> rfl
  | case3 d l ih =>
    rw [lengthUpTo, pieces, if_pos rfl, fill, if_neg (by rw [hend]; decide), if_pos rfl]
    rw [List.takeWhile_cons_of_pos (by simp)]
    exact congrArg (· + 1) ih
  | case4 c d l hc ih =>
    rw [lengthUpTo, pieces, if_neg hc, fill]
    by_cases hstop : isend c = true
    · rw [if_pos hstop, List.takeWhile_cons_of_neg (by simp [hstop])]
      rfl
    · rw [if_neg hstop, if_neg hc, List.takeWhile_cons_of_pos (by simp [hstop])]
      exact congrArg (· + 1) ih

theorem stores_token (tokval cfile : List UInt8) :
    (∀ i ∈ List.range (token tokval cfile).stores, i < 100) ↔ TokenFits cfile := by
  have hrange : ∀ k, (∀ i ∈ List.range (k + 1), i < 100) ↔ k < 100 := by
    intro k
    simp only [List.mem_range]
    exact ⟨fun h => h k (Nat.lt_succ_self k), fun h i hi => by omega⟩
  unfold token TokenFits
  split
  · exact ⟨fun _ => trivial, fun _ i hi => absurd hi List.not_mem_nil⟩
  · simp only [hrange]
    split
    · rw [length_fill rfl]
    · rw [List.length_cons, length_fill rfl]

theorem fill_le (isend : UInt8 → Bool) (l : List UInt8) : (fill isend l).2.length ≤ l.length := by
  induction l using pieces.induct with
  | case1 => exact Nat.le_refl 0
  | case2 c =>
    rw [fill]
    split
    · exact Nat.le_succ 0
    · split <;> exact Nat.le_succ 0
  | case3 d l ih =>
    rw [fill]
    split
    · exact Nat.le_succ _
    · rw [if_pos rfl]
      exact Nat.le_trans ih (Nat.le_add_right _ 2)
  | case4 c d l hc ih =>
    rw [fill]
    split
    · exact Nat.le_succ _
    · exact Nat.le_succ_of_le ih

/-- A token that is there is taken from the file. -/
theorem cfile_token (tokval cfile : List UInt8) : (token tokval cfile).cfile.length ≤ cfile.length ∧
    ((token tokval cfile).value ≠ .none → (token tokval cfile).cfile.length < cfile.length) := by
  have hle := (List.dropWhile_suffix (l := cfile) isseparator).length_le
  unfold token
  split
  · exact ⟨Nat.zero_le _, fun h => absurd rfl h⟩
  · rename_i c l hl
    rw [hl, List.length_cons] at hle
    have hlt : (if c = QUOTE then fill isquote l else (c :: (fill isseparator l).1, (fill isseparator l).2)).2.length <
        cfile.length := by
      split
      · exact Nat.lt_of_lt_of_le (Nat.lt_succ_of_le (fill_le _ _)) hle
      · exact Nat.lt_of_lt_of_le (Nat.lt_succ_of_le (fill_le _ _)) hle
    exact ⟨Nat.le_of_lt hlt, fun _ => hlt⟩

/-! ## The text of a macro -/

theorem put_of_ne {macbuf : Int → UInt8} {tmp p : Int} {c : UInt8} (h : p ≠ tmp) :
    put macbuf tmp c p = macbuf p := if_neg h

/-- What the loop does with the text from `tmp` on. -/
structure Body.Spec (tmp : Int) (macbuf : Int → UInt8) (r : Body) : Prop where
  frame : ∀ p < tmp, r.macbuf p = macbuf p
  ended : ∀ e l, r.ending = .ended e l → tmp - 1 ≤ e ∧ e < 4095 ∧ r.macbuf e = NUL
  log : ∀ a ∈ r.log, (∃ p, a = .store p ∧ tmp ≤ p ∧ p < 4096) ∨ ∃ p, a = .load p ∧ tmp - 1 ≤ p ∧ p < 4096

theorem Body.Spec.store {tmp : Int} {macbuf macbuf' : Int → UInt8} {r : Body} (as : List Access)
    (h : r.Spec (tmp + 1) macbuf') (hmem : ∀ p < tmp, macbuf' p = macbuf p)
    (has : ∀ a ∈ as, a = .store tmp ∨ a = .load (tmp - 1)) (hlt : tmp < 4096) :
    Body.Spec tmp macbuf { r with log := as ++ r.log } := by
  refine ⟨fun p hp => (h.frame p (by omega)).trans (hmem p hp), ?_, ?_⟩
  · intro e l he
    obtain ⟨h1, h2, h3⟩ := h.ended e l he
    exact ⟨by omega, h2, h3⟩
  · intro a ha
    rcases List.mem_append.mp ha with ha | ha
    · rcases has a ha with rfl | rfl
      · exact Or.inl ⟨tmp, rfl, by omega⟩
      · exact Or.inr ⟨tmp - 1, rfl, by omega⟩
    · rcases h.log a ha with ⟨p, rfl, hp⟩ | ⟨p, rfl, hp⟩
      · exact Or.inl ⟨p, rfl, by omega⟩
      · exact Or.inr ⟨p, rfl, by omega⟩

theorem Body.Spec.idle {tmp : Int} {macbuf : Int → UInt8} {ending : Ending} (h : ∀ e l, ending ≠ .ended e l) :
    Body.Spec tmp macbuf ⟨ending, macbuf, []⟩ :=
  ⟨fun _ _ => rfl, fun e l he => absurd he (h e l), fun _ ha => absurd ha List.not_mem_nil⟩

theorem body_spec (l : List UInt8) {tmp : Int} (macbuf : Int → UInt8) (h : tmp ≤ 4096) :
    (body l tmp macbuf).Spec tmp macbuf := by
  induction l generalizing tmp macbuf with
  | nil =>
    rw [body]
    split
    · exact Body.Spec.idle fun e l => Ending.noConfusion
    · exact Body.Spec.idle fun e l => Ending.noConfusion
  | cons c l ih =>
    rw [body]
    split
    · exact Body.Spec.idle fun e l => Ending.noConfusion
    · have hlt : tmp < 4096 := by omega
      have hput : ∀ p < tmp, put macbuf tmp c p = macbuf p := fun p hp => put_of_ne (by omega)
      split
      · split
        · rename_i hnul
          refine ⟨hput, ?_, ?_⟩
          · intro e l he
            obtain ⟨rfl, rfl⟩ := Ending.ended.inj he
            exact ⟨Int.le_refl _, by omega, hnul⟩
          · intro a ha
            rcases List.mem_cons.mp ha with rfl | ha
            · exact Or.inl ⟨tmp, rfl, by omega⟩
            · obtain rfl := List.mem_singleton.mp ha
              exact Or.inr ⟨tmp - 1, rfl, by omega⟩
        · refine (ih (put (put macbuf tmp c) tmp NUL) (by omega)).store [.store tmp, .load (tmp - 1), .store tmp] ?_ ?_ hlt
          · exact fun p hp => (put_of_ne (by omega)).trans (hput p hp)
          · intro a ha
            simp only [List.mem_cons, List.not_mem_nil, or_false] at ha
            rcases ha with rfl | rfl | rfl
            · exact Or.inl rfl
            · exact Or.inr rfl
            · exact Or.inl rfl
      · refine (ih (put macbuf tmp c) (by omega)).store [.store tmp] hput ?_ hlt
        intro a ha
        exact Or.inl (List.mem_singleton.mp ha)

/-- All accesses for the text are inside macbuf, and its end is not in front of its start. -/
def Body.Sound (tmp : Int) (r : Body) : Prop :=
  (∀ a ∈ r.log, a.Inside) ∧ ∀ e l, r.ending = .ended e l → tmp ≤ e

theorem Body.Sound.idle {tmp : Int} {macbuf : Int → UInt8} {ending : Ending} (h : ∀ e l, ending ≠ .ended e l) :
    Body.Sound tmp ⟨ending, macbuf, []⟩ :=
  ⟨fun _ ha => absurd ha List.not_mem_nil, fun e l he => absurd he (h e l)⟩

/-- Behind a character that does not end the text. -/
theorem Body.Spec.sound {tmp : Int} {macbuf : Int → UInt8} {r : Body} (as : List Access) (h : r.Spec (tmp + 1) macbuf)
    (h0 : 0 ≤ tmp) (has : ∀ a ∈ as, a.Inside) : Body.Sound tmp { r with log := as ++ r.log } := by
  constructor
  · intro a ha
    rcases List.mem_append.mp ha with ha | ha
    · exact has a ha
    · rcases h.log a ha with ⟨p, rfl, hp⟩ | ⟨p, rfl, hp⟩
      · exact ⟨by omega, hp.2⟩
      · exact ⟨by omega, hp.2⟩
  · intro e l he
    have := (h.ended e l he).1
    omega

theorem body_sound_iff (l : List UInt8) {tmp : Int} (macbuf : Int → UInt8) (h0 : 0 ≤ tmp) (h : tmp ≤ 4096) :
    (body l tmp macbuf).Sound tmp ↔ l.head? ≠ some NEWLINE ∨ tmp = 4096 ∨ (tmp ≠ 0 ∧ macbuf (tmp - 1) ≠ NUL) := by
  cases l with
  | nil =>
    refine ⟨fun _ => Or.inl (by decide), fun _ => ?_⟩
    rw [body]
    split
    · exact Body.Sound.idle fun e l => Ending.noConfusion
    · exact Body.Sound.idle fun e l => Ending.noConfusion
  | cons c l =>
    rw [body]
    by_cases hfull : tmp = 4096
    · rw [if_pos hfull]
      exact ⟨fun _ => Or.inr (Or.inl hfull), fun _ => Body.Sound.idle fun e l => Ending.noConfusion⟩
    · rw [if_neg hfull]
      have hstore : Access.Inside (.store tmp) := ⟨h0, by omega⟩
      have hput : put macbuf tmp c (tmp - 1) = macbuf (tmp - 1) := put_of_ne (by omega)
      by_cases hc : c = NEWLINE
      · rw [if_pos hc, hput]
        have hhead : ¬ (c :: l).head? ≠ some NEWLINE := fun hne => hne (congrArg some hc)
        by_cases hnul : macbuf (tmp - 1) = NUL
        · rw [if_pos hnul]
          refine ⟨fun hs => ?_, fun hfits => ?_⟩
          · have := hs.2 (tmp - 1) l rfl
            omega
          · rcases hfits with hne | heq | hne
            · exact absurd hne hhead
            · exact absurd heq hfull
            · exact absurd hnul hne.2
        · rw [if_neg hnul]
          refine ⟨fun hs => Or.inr (Or.inr ⟨?_, hnul⟩), fun hfits => ?_⟩
          · rintro rfl
            have := (hs.1 (.load (0 - 1)) (List.mem_cons_of_mem _ List.mem_cons_self)).1
            omega
          · have hpos : tmp ≠ 0 := by
              rcases hfits with hne | heq | hne
              · exact absurd hne hhead
              · exact absurd heq hfull
              · exact hne.1
            refine (body_spec l _ (by omega)).sound [.store tmp, .load (tmp - 1), .store tmp] h0 ?_
            intro a ha
            simp only [List.mem_cons, List.not_mem_nil, or_false] at ha
            rcases ha with rfl | rfl | rfl
            · exact hstore
            · exact ⟨by omega, by omega⟩
            · exact hstore
      · rw [if_neg hc]
        refine ⟨fun _ => Or.inl fun hhead => hc (Option.some.inj hhead), fun _ => ?_⟩
        refine (body_spec l _ (by omega)).sound [.store tmp] h0 ?_
        intro a ha
        obtain rfl := List.mem_singleton.mp ha
        exact hstore

/-! ## The name of a macro -/

theorem length_readName (i : Nat) (c : UInt8) (l : List UInt8) :
    (readName i c l).1.length = min i (l.takeWhile (!isspace ·)).length := by
  induction i generalizing c l with
  | zero => exact (Nat.zero_min _).symm
  | succ i ih =>
    cases l with
    | nil => rfl
    | cons d l =>
      rw [readName]
      by_cases hd : isspace d = true
      · rw [if_pos hd, List.takeWhile_cons_of_neg (by rw [hd]; decide)]
        rfl
      · rw [if_neg hd, List.takeWhile_cons_of_pos (by simpa using hd), List.length_cons, List.length_cons, ih]
        omega

/-- From the newline behind the name on. -/
def fromNewline (l : List UInt8) : List UInt8 := l.dropWhile (· ≠ NEWLINE)

theorem fromNewline_cons {c : UInt8} (l : List UInt8) (h : c ≠ NEWLINE) : fromNewline (c :: l) = fromNewline l :=
  List.dropWhile_cons_of_pos (decide_eq_true h)

theorem fromNewline_newline (l : List UInt8) : fromNewline (NEWLINE :: l) = NEWLINE :: l :=
  List.dropWhile_cons_of_neg (by decide)

/-- What is left behind the name, and the last character read. -/
theorem readName_rest (i : Nat) {c : UInt8} (l : List UInt8) (h : c ≠ NEWLINE) :
    ((readName i c l).2.1 = none → (l.takeWhile (!isspace ·)).length < i ∧ fromNewline l = []) ∧
      ∀ d, (readName i c l).2.1 = some d →
        fromNewline l = if d = NEWLINE then d :: (readName i c l).2.2 else fromNewline (readName i c l).2.2 := by
  induction i generalizing c l with
  | zero =>
    refine ⟨fun hnone => absurd hnone (Option.some_ne_none _), fun d hd => ?_⟩
    obtain rfl := Option.some.inj hd
    rw [if_neg h]
    rfl
  | succ i ih =>
    cases l with
    | nil => exact ⟨fun _ => ⟨Nat.succ_pos i, rfl⟩, fun d hd => by cases hd⟩
    | cons e l =>
      rw [readName]
      by_cases he : isspace e = true
      · rw [if_pos he]
        refine ⟨fun hnone => absurd hnone (Option.some_ne_none _), fun d hd => ?_⟩
        obtain rfl := Option.some.inj hd
        by_cases hnl : e = NEWLINE
        · rw [if_pos hnl, hnl]
          exact fromNewline_newline l
        · rw [if_neg hnl]
          exact fromNewline_cons l hnl
      · have hnl : e ≠ NEWLINE := by
          rintro rfl
          exact he rfl
        obtain ⟨hnone, hsome⟩ := ih l hnl
        rw [if_neg he, List.takeWhile_cons_of_pos (by simpa using he), fromNewline_cons l hnl, List.length_cons]
        refine ⟨fun h => ?_, hsome⟩
        obtain ⟨hlen, hrest⟩ := hnone h
        exact ⟨Nat.succ_lt_succ hlen, hrest⟩

theorem nameStores_inside {macnum len : Nat} (h : macnum < 16) :
    (∀ a ∈ Parse.nameStores macnum len, a.Inside) ↔ len ≤ 9 := by
  constructor
  · intro hall
    by_contra hlen
    have hmem : Access.mac_name macnum 9 ∈ Parse.nameStores macnum len :=
      List.mem_map.mpr ⟨9, List.mem_range.mpr (by omega), rfl⟩
    exact absurd (hall _ hmem).2 (by decide)
  · intro hlen a ha
    obtain ⟨i, hi, rfl⟩ := List.mem_map.mp ha
    have := List.mem_range.mp hi
    exact ⟨h, by omega⟩

namespace Parse

/-- More accesses. -/
def logged (s : Parse) (as : List Access) : Parse := { s with log := s.log ++ as }

theorem macdef_cases (s : Parse) (hmacnum : s.macros.length ≤ 16) :
    (MacroFits s.macros s.macbuf s.cfile ∧ ∃ m, s.macdef = s.fail m) ∨
      s.macros.length < 16 ∧ ∃ as,
        ((MacroFits s.macros s.macbuf s.cfile ↔ ∀ a ∈ as, a.Inside) ∧ ∃ m, s.macdef = (s.logged as).fail m) ∨
        ∃ mac_name cfile,
          (MacroFits s.macros s.macbuf s.cfile ↔ (∀ a ∈ as, a.Inside) ∧ TextFits s.macros s.macbuf cfile) ∧
            s.macdef = (s.logged as).macroText mac_name cfile := by
  unfold macdef MacroFits
  split
  · exact Or.inl ⟨trivial, _, rfl⟩
  · rename_i c l _
    by_cases hc : c = NEWLINE
    · rw [if_pos hc]
      exact Or.inl ⟨Or.inl hc, _, rfl⟩
    · rw [if_neg hc]
      by_cases h16 : s.macros.length = 16
      · rw [if_pos h16]
        exact Or.inl ⟨Or.inr (Or.inl h16), _, rfl⟩
      · rw [if_neg h16]
        have hlt : s.macros.length < 16 := by omega
        have hfits : ∀ P : Prop, (c = NEWLINE ∨ s.macros.length = 16 ∨ P) ↔ P := fun P =>
          ⟨fun h => (h.resolve_left hc).resolve_left h16, fun h => Or.inr (Or.inr h)⟩
        obtain ⟨hnone, hsome⟩ := readName_rest 8 l hc
        have hlen := length_readName 8 c l
        refine Or.inr ⟨hlt, ?_⟩
        rw [hfits]
        change ∃ as, ((_ ∧ TextFits _ _ (fromNewline l).tail ↔ _) ∧ _) ∨ ∃ mac_name cfile,
          (_ ∧ TextFits _ _ (fromNewline l).tail ↔ _) ∧ _
        have hempty : TextFits s.macros s.macbuf [] := Or.inl (by decide)
        simp only
        split
        · rename_i rest hr
          obtain ⟨hk, hrest⟩ := hnone (by rw [hr])
          refine ⟨_, Or.inl ⟨?_, _, rfl⟩⟩
          rw [nameStores_inside hlt, hrest, List.length_cons, hlen]
          exact ⟨fun _ => by omega, fun _ => ⟨hk, hempty⟩⟩
        · rename_i d rest hr
          have hrest := hsome d (by rw [hr])
          rw [hr] at hrest
          have hinside : (∀ a ∈ nameStores s.macros.length ((c :: (readName 8 c l).1).length + 1), a.Inside) ↔
              (l.takeWhile (!isspace ·)).length < 8 := by
            rw [nameStores_inside hlt, List.length_cons, hlen]
            omega
          by_cases hd : d = NEWLINE
          · rw [if_pos hd] at hrest ⊢
            refine ⟨_, Or.inr ⟨_, _, ?_, rfl⟩⟩
            rw [hinside, hrest]
            rfl
          · rw [if_neg hd] at hrest ⊢
            rw [hrest]
            cases hnl : fromNewline rest with
            | nil =>
              unfold fromNewline at hnl
              rw [hnl]
              refine ⟨_, Or.inl ⟨?_, _, rfl⟩⟩
              rw [hinside]
              exact ⟨fun h => h.1, fun h => ⟨h, hempty⟩⟩
            | cons e rest' =>
              unfold fromNewline at hnl
              rw [hnl]
              refine ⟨_, Or.inr ⟨_, _, ?_, rfl⟩⟩
              rw [hinside]
              rfl

end Parse

/-! ## A step -/

theorem macStart_concat (ms : List Macel) (m : Macel) : macStart (ms ++ [m]) = m.mac_end + 1 := by
  rw [macStart, List.getLast?_concat]

/-- What is true of the macro table in every run; the first `n` macros were there before. -/
structure Inv (n : Nat) (s : Parse) : Prop where
  first : n ≤ s.macros.length
  macnum : s.macros.length ≤ 16
  within : ∀ m ∈ s.macros.take n, 0 ≤ m.mac_start ∧ m.mac_start ≤ m.mac_end ∧ m.mac_end < 4096
  behind : ∀ m ∈ s.macros.drop n, m.mac_end < macStart s.macros
  built : ∀ m ∈ s.macros.drop n,
    0 ≤ m.mac_start ∧ m.mac_start ≤ m.mac_end + 1 ∧ m.mac_end < 4096 ∧ s.macbuf m.mac_end = NUL
  room : 0 ≤ macStart s.macros ∧ macStart s.macros ≤ 4096

theorem Inv.macStart (hinv : Inv n s) (hs : Stays n s) : macStart s.macros ≠ 0 ↔ s.macros ≠ [] := by
  rw [Ruserpass.macStart]
  cases hlast : s.macros.getLast? with
  | none => exact ⟨fun h => absurd rfl h, fun h => absurd (List.getLast?_eq_none_iff.mp hlast) h⟩
  | some m =>
    have hmem : m ∈ s.macros := List.mem_of_getLast? hlast
    have hpos : 0 ≤ m.mac_end := by
      rw [← List.take_append_drop n s.macros] at hmem
      rcases List.mem_append.mp hmem with hfirst | hcreated
      · have := hinv.within m hfirst
        omega
      · have := hs.created m hcreated
        rw [Macel.Sound] at this
        omega
    simp only
    exact ⟨fun _ => List.ne_nil_of_mem hmem, fun _ => by omega⟩

/-- A state with the same tables and file. -/
structure Same (s t : Parse) : Prop where
  cfile : t.cfile = s.cfile
  macros : t.macros = s.macros
  macbuf : t.macbuf = s.macbuf
  log : t.log = s.log

theorem Same.inv {t : Parse} (h : Same s t) (hinv : Inv n s) : Inv n t := by
  obtain ⟨h1, h2, h3, h4, h5, h6⟩ := hinv
  constructor <;> rw [h.macros]
  · exact h1
  · exact h2
  · exact h3
  · exact h4
  · rw [h.macbuf]
    exact h5
  · exact h6

theorem Same.stays {t : Parse} (h : Same s t) : Stays n t ↔ Stays n s := by
  constructor
  · intro h
    obtain ⟨hlog, hcreated⟩ := h
    rw [h.log] at hlog
    rw [h.macros, h.macbuf] at hcreated
    exact ⟨hlog, hcreated⟩
  · intro h
    obtain ⟨hlog, hcreated⟩ := h
    constructor
    · rw [h.log]
      exact hlog
    · rw [h.macros, h.macbuf]
      exact hcreated

theorem Inv.logged (hinv : Inv n s) (as : List Access) : Inv n (s.logged as) :=
  ⟨hinv.1, hinv.2, hinv.3, hinv.4, hinv.5, hinv.6⟩

theorem stays_logged (as : List Access) : Stays n (s.logged as) ↔ Stays n s ∧ ∀ a ∈ as, a.Inside := by
  constructor
  · intro h
    refine ⟨⟨fun a ha => h.log a (List.mem_append_left _ ha), h.created⟩, fun a ha => h.log a (List.mem_append_right _ ha)⟩
  · intro h
    obtain ⟨hs, has⟩ := h
    refine ⟨fun a ha => ?_, hs.created⟩
    rcases List.mem_append.mp ha with ha | ha
    · exact hs.log a ha
    · exact has a ha

namespace Parse

theorem same_fail (s : Parse) (m : List UInt8) : Same s (s.fail m) := ⟨rfl, rfl, rfl, rfl⟩

theorem same_entry (s : Parse) (t : Token) : Same s (s.entry t) := by
  unfold entry
  split
  · exact ⟨rfl, rfl, rfl, rfl⟩
  · exact ⟨rfl, rfl, rfl, rfl⟩
  · split <;> exact ⟨rfl, rfl, rfl, rfl⟩
  · exact ⟨rfl, rfl, rfl, rfl⟩

theorem same_machine (env : Env) (s : Parse) (t : Token) : Same s (s.machine env t) := by
  unfold machine
  split <;> exact ⟨rfl, rfl, rfl, rfl⟩

theorem same_keyword (env : Env) (s : Parse) (t : Token) : Same s (s.keyword env t) := by
  by_cases hmacdef : t = .macdef
  · rw [hmacdef, keyword]
    split <;> exact ⟨rfl, rfl, rfl, rfl⟩
  · unfold keyword
    split <;> first | exact ⟨rfl, rfl, rfl, rfl⟩ | exact absurd rfl hmacdef

theorem same_value (s : Parse) (v : Value) (t : Token) : Same s (s.value v t) := by
  unfold value
  split
  · exact ⟨rfl, rfl, rfl, rfl⟩
  · split
    · exact ⟨rfl, rfl, rfl, rfl⟩
    · split <;> exact ⟨rfl, rfl, rfl, rfl⟩
  · exact ⟨rfl, rfl, rfl, rfl⟩
  · exact ⟨rfl, rfl, rfl, rfl⟩

theorem same_guarded (s : Parse) (isreadable : Bool) (v : Value) : Same s (s.guarded isreadable v) := by
  unfold guarded
  split
  · split <;> exact ⟨rfl, rfl, rfl, rfl⟩
  · split <;> exact ⟨rfl, rfl, rfl, rfl⟩
  · exact ⟨rfl, rfl, rfl, rfl⟩

theorem inv_token (hinv : Inv n s) : Inv n s.token.2 := ⟨hinv.1, hinv.2, hinv.3, hinv.4, hinv.5, hinv.6⟩

theorem stays_token (s : Parse) : Stays n s.token.2 ↔ Stays n s ∧ TokenFits s.cfile := by
  have hmap : (∀ a ∈ (List.range (Ruserpass.token s.tokval s.cfile).stores).map Access.tokval, a.Inside) ↔
      TokenFits s.cfile := by
    rw [List.forall_mem_map]
    exact stores_token s.tokval s.cfile
  rw [← hmap, ← stays_logged]
  exact ⟨fun h => ⟨h.log, h.created⟩, fun h => ⟨h.log, h.created⟩⟩

/-- The tables behind the text of a macro. -/
theorem macroText_cases (s : Parse) (mac_name cfile : List UInt8) :
    (s.macroText mac_name cfile).log = s.log ++ (body cfile (macStart s.macros) s.macbuf).log ∧
      (s.macroText mac_name cfile).macbuf = (body cfile (macStart s.macros) s.macbuf).macbuf ∧
      (((∀ e l, (body cfile (macStart s.macros) s.macbuf).ending ≠ .ended e l) ∧
          (s.macroText mac_name cfile).macros = s.macros) ∨
        ∃ e l, (body cfile (macStart s.macros) s.macbuf).ending = .ended e l ∧
          (s.macroText mac_name cfile).macros = s.macros ++ [⟨mac_name, macStart s.macros, e⟩]) := by
  unfold macroText
  generalize body cfile (macStart s.macros) s.macbuf = r
  obtain ⟨ending, macbuf, log⟩ := r
  cases ending with
  | eof => exact ⟨rfl, rfl, Or.inl ⟨fun e l => Ending.noConfusion, rfl⟩⟩
  | exceeded => exact ⟨rfl, rfl, Or.inl ⟨fun e l => Ending.noConfusion, rfl⟩⟩
  | ended e l => exact ⟨rfl, rfl, Or.inr ⟨e, l, rfl, rfl⟩⟩

theorem inv_macroText (hinv : Inv n s) (h16 : s.macros.length < 16) (mac_name cfile : List UInt8) :
    Inv n (s.macroText mac_name cfile) := by
  have hspec := body_spec cfile s.macbuf hinv.room.2
  obtain ⟨-, hmacbuf, hmacros⟩ := macroText_cases s mac_name cfile
  have hbuilt : ∀ m ∈ s.macros.drop n, 0 ≤ m.mac_start ∧ m.mac_start ≤ m.mac_end + 1 ∧ m.mac_end < 4096 ∧
      (s.macroText mac_name cfile).macbuf m.mac_end = NUL := by
    intro m hm
    rw [hmacbuf, hspec.frame _ (hinv.behind m hm)]
    exact hinv.built m hm
  rcases hmacros with ⟨-, hmacros⟩ | ⟨e, l, he, hmacros⟩
  · constructor <;> rw [hmacros]
    · exact hinv.first
    · exact hinv.macnum
    · exact hinv.within
    · exact hinv.behind
    · exact hbuilt
    · exact hinv.room
  · obtain ⟨hle, hlt, hnul⟩ := hspec.ended e l he
    have hstart : macStart (s.macros ++ [⟨mac_name, macStart s.macros, e⟩]) = e + 1 := macStart_concat _ _
    constructor <;> rw [hmacros]
    · rw [List.length_append]
      exact Nat.le_add_right_of_le hinv.first
    · rw [List.length_append]
      exact h16
    · rw [List.take_append_of_le_length hinv.first]
      exact hinv.within
    · rw [hstart, List.drop_append_of_le_length hinv.first]
      intro m hm
      rcases List.mem_append.mp hm with hm | hm
      · have := hinv.behind m hm
        omega
      · obtain rfl := List.mem_singleton.mp hm
        exact Int.lt_succ e
    · rw [List.drop_append_of_le_length hinv.first]
      intro m hm
      rcases List.mem_append.mp hm with hm | hm
      · exact hbuilt m hm
      · obtain rfl := List.mem_singleton.mp hm
        rw [hmacbuf]
        exact ⟨hinv.room.1, by show macStart s.macros ≤ e + 1; omega, Int.lt_trans hlt (by decide), hnul⟩
    · rw [hstart]
      have := hinv.room.1
      omega

theorem stays_macroText (hinv : Inv n s) (mac_name cfile : List UInt8) :
    Stays n (s.macroText mac_name cfile) ↔ Stays n s ∧ TextFits s.macros s.macbuf cfile := by
  have hspec := body_spec cfile s.macbuf hinv.room.2
  obtain ⟨hlog, hmacbuf, hmacros⟩ := macroText_cases s mac_name cfile
  -- the macros in front of this one are where it does not write
  have hkeep : ∀ m ∈ s.macros.drop n, (m.Sound (s.macroText mac_name cfile).macbuf ↔ m.Sound s.macbuf) := by
    intro m hm
    rw [Macel.Sound, Macel.Sound, hmacbuf, hspec.frame _ (hinv.behind m hm)]
  have hfits : Stays n s → (TextFits s.macros s.macbuf cfile ↔
      (body cfile (macStart s.macros) s.macbuf).Sound (macStart s.macros)) := by
    intro hs
    have hne := hinv.macStart hs
    rw [body_sound_iff cfile s.macbuf hinv.room.1 hinv.room.2, hne]
    rfl
  constructor
  · intro ht
    have hs : Stays n s := by
      refine ⟨fun a ha => ht.log a ?_, fun m hm => (hkeep m hm).mp (ht.created m ?_)⟩
      · rw [hlog]
        exact List.mem_append_left _ ha
      · rcases hmacros with ⟨-, hmacros⟩ | ⟨e, l, -, hmacros⟩
        · rw [hmacros]
          exact hm
        · rw [hmacros, List.drop_append_of_le_length hinv.first]
          exact List.mem_append_left _ hm
    refine ⟨hs, (hfits hs).mpr ⟨fun a ha => ht.log a (by rw [hlog]; exact List.mem_append_right _ ha), ?_⟩⟩
    intro e l he
    rcases hmacros with ⟨hnone, -⟩ | ⟨e', l', he', hmacros⟩
    · exact absurd he (hnone e l)
    · obtain ⟨rfl, -⟩ := Ending.ended.inj (he'.symm.trans he)
      have hlast := ht.created ⟨mac_name, macStart s.macros, e'⟩ (by
        rw [hmacros, List.drop_append_of_le_length hinv.first]
        exact List.mem_append_right _ List.mem_cons_self)
      exact hlast.2.1
  · intro h
    obtain ⟨hs, htext⟩ := h
    obtain ⟨hinside, hend⟩ := (hfits hs).mp htext
    constructor
    · rw [hlog]
      intro a ha
      rcases List.mem_append.mp ha with ha | ha
      · exact hs.log a ha
      · exact hinside a ha
    · intro m hm
      rcases hmacros with ⟨-, hmacros⟩ | ⟨e, l, he, hmacros⟩
      · rw [hmacros] at hm
        exact (hkeep m hm).mpr (hs.created m hm)
      · rw [hmacros, List.drop_append_of_le_length hinv.first] at hm
        rcases List.mem_append.mp hm with hm | hm
        · exact (hkeep m hm).mpr (hs.created m hm)
        · obtain rfl := List.mem_singleton.mp hm
          obtain ⟨-, hlt, hnul⟩ := hspec.ended e l he
          rw [← hmacbuf] at hnul
          exact ⟨hinv.room.1, hend e l he, Int.lt_trans hlt (by decide), hnul⟩

theorem inv_macdef (hinv : Inv n s) : Inv n s.macdef := by
  rcases s.macdef_cases hinv.macnum with ⟨-, m, heq⟩ | ⟨h16, as, ⟨-, m, heq⟩ | ⟨mac_name, cfile, -, heq⟩⟩
  · rw [heq]
    exact (same_fail s m).inv hinv
  · rw [heq]
    exact (same_fail _ m).inv (hinv.logged as)
  · rw [heq]
    exact inv_macroText (hinv.logged as) h16 mac_name cfile

theorem stays_macdef (hinv : Inv n s) :
    Stays n s.macdef ↔ Stays n s ∧ MacroFits s.macros s.macbuf s.cfile := by
  rcases s.macdef_cases hinv.macnum with ⟨hfits, m, heq⟩ | ⟨-, as, ⟨hfits, m, heq⟩ | ⟨mac_name, cfile, hfits, heq⟩⟩
  · rw [heq, (same_fail s m).stays]
    exact ⟨fun hs => ⟨hs, hfits⟩, fun hs => hs.1⟩
  · rw [heq, (same_fail _ m).stays, stays_logged, hfits]
  · rw [heq, stays_macroText (hinv.logged as), stays_logged, hfits, and_assoc]
    rfl

end Parse

/-- A step stays in the tables just if what it reads fits. -/
theorem step_stays {env : Env} {isreadable : Bool} {t : Parse} (hinv : Inv n s) (h : step env isreadable s = some t) :
    Inv n t ∧ (Stays n t ↔ Stays n s ∧ s.Fits) := by
  have htoken : ∀ u : Parse, Same s.token.2 u → Inv n u ∧ (Stays n u ↔ Stays n s ∧ TokenFits s.cfile) :=
    fun u hu => ⟨hu.inv (Parse.inv_token hinv), hu.stays.trans s.stays_token⟩
  unfold step at h
  unfold Parse.Fits
  cases hpc : s.pc with
  | next =>
    rw [hpc] at h
    obtain rfl := Option.some.inj h
    exact htoken _ (Parse.same_entry _ _)
  | machine =>
    rw [hpc] at h
    obtain rfl := Option.some.inj h
    exact htoken _ (Parse.same_machine env _ _)
  | matched =>
    rw [hpc] at h
    obtain rfl := Option.some.inj h
    exact htoken _ (Parse.same_keyword env _ _)
  | guard v =>
    rw [hpc] at h
    obtain rfl := Option.some.inj h
    have hsame := s.same_guarded isreadable v
    exact ⟨hsame.inv hinv, hsame.stays.trans ⟨fun hs => ⟨hs, trivial⟩, fun hs => hs.1⟩⟩
  | value v =>
    rw [hpc] at h
    obtain rfl := Option.some.inj h
    exact htoken _ (Parse.same_value _ v _)
  | macdef =>
    rw [hpc] at h
    obtain rfl := Option.some.inj h
    exact ⟨Parse.inv_macdef hinv, Parse.stays_macdef hinv⟩
  | done =>
    rw [hpc] at h
    cases h
  | bad =>
    rw [hpc] at h
    cases h

/-! ## Runs -/

theorem inv_start (t : Table) (cfile : List UInt8) (aname apass aacct : Option (List UInt8)) :
    Inv t.macros.length (start t cfile aname apass aacct) := by
  have hnone : ∀ m, m ∉ (start t cfile aname apass aacct).macros.drop t.macros.length := by
    intro m hm
    rw [start, List.drop_length] at hm
    cases hm
  refine ⟨Nat.le_refl _, t.macnum, fun m hm => t.within m (List.mem_of_mem_take hm), fun m hm => absurd hm (hnone m),
    fun m hm => absurd hm (hnone m), ?_⟩
  rw [start, macStart]
  cases hlast : t.macros.getLast? with
  | none => exact ⟨by decide, by decide⟩
  | some m =>
    have := t.within m (List.mem_of_getLast? hlast)
    simp only
    omega

theorem stays_start (t : Table) (cfile : List UInt8) (aname apass aacct : Option (List UInt8)) :
    Stays t.macros.length (start t cfile aname apass aacct) := by
  refine ⟨fun a ha => absurd ha List.not_mem_nil, fun m hm => ?_⟩
  rw [start, List.drop_length] at hm
  cases hm

theorem inv_of_run (env : Env) (t : Table) (cfile : List UInt8) (aname apass aacct : Option (List UInt8))
    {rs : List Bool} {s : Parse} (h : run (step env) rs (start t cfile aname apass aacct) = some s) :
    Inv t.macros.length s :=
  run_inv (P := Inv t.macros.length) (fun _ _ _ hinv hstep => (step_stays hinv hstep).1)
    (inv_start t cfile aname apass aacct) h

/-- In every run, for every macro table, the parser stays in its tables just if everything it
    reads fits. -/
theorem stays_iff (env : Env) (t : Table) (cfile : List UInt8) (aname apass aacct : Option (List UInt8))
    {rs : List Bool} {s : Parse} (h : run (step env) rs (start t cfile aname apass aacct) = some s) :
    Stays t.macros.length s ↔ Meets (step env) (fun _ u => u.Fits) rs (start t cfile aname apass aacct) := by
  have hrun : Stays t.macros.length s ↔ Stays t.macros.length (start t cfile aname apass aacct) ∧
      Meets (step env) (fun _ u => u.Fits) rs (start t cfile aname apass aacct) :=
    run_inv_iff (P := Inv t.macros.length) (fun _ _ _ hinv hstep => step_stays hinv hstep)
      (inv_start t cfile aname apass aacct) h
  rw [hrun]
  exact ⟨fun hm => hm.2, fun hm => ⟨stays_start t cfile aname apass aacct, hm⟩⟩

/-! ## The end of a run -/

theorem body_le (l : List UInt8) (tmp : Int) (macbuf : Int → UInt8) :
    ∀ e l', (body l tmp macbuf).ending = .ended e l' → l'.length ≤ l.length := by
  induction l generalizing tmp macbuf with
  | nil =>
    intro e l' he
    rw [body] at he
    split at he <;> cases he
  | cons c l ih =>
    intro e l' he
    rw [body] at he
    split at he
    · cases he
    · split at he
      · split at he
        · obtain ⟨-, rfl⟩ := Ending.ended.inj he
          exact Nat.le_succ _
        · exact Nat.le_succ_of_le (ih _ _ e l' he)
      · exact Nat.le_succ_of_le (ih _ _ e l' he)

theorem readName_le (i : Nat) (c : UInt8) (l : List UInt8) : (readName i c l).2.2.length ≤ l.length := by
  induction i generalizing c l with
  | zero => exact Nat.le_refl _
  | succ i ih =>
    cases l with
    | nil => exact Nat.le_refl 0
    | cons d l =>
      rw [readName]
      split
      · exact Nat.le_succ _
      · exact Nat.le_succ_of_le (ih d l)

def Pc.rank : Pc → Nat
  | .guard _ => 3
  | .machine | .value _ | .macdef => 2
  | .next | .matched => 1
  | .done | .bad => 0

/-- The steps that are left at most. -/
def Parse.left (s : Parse) : Nat := 4 * s.cfile.length + s.pc.rank

namespace Parse

theorem left_macroText (s : Parse) (mac_name cfile : List UInt8) :
    (s.macroText mac_name cfile).left ≤ max (4 * s.cfile.length) (4 * cfile.length + 1) := by
  have hle := body_le cfile (macStart s.macros) s.macbuf
  unfold macroText
  revert hle
  generalize body cfile (macStart s.macros) s.macbuf = r
  obtain ⟨ending, macbuf, log⟩ := r
  intro hle
  cases ending with
  | eof => exact Nat.le_max_left _ _
  | exceeded => exact Nat.le_max_left _ _
  | ended e l =>
    have := hle e l rfl
    apply Nat.le_trans _ (Nat.le_max_right _ _)
    show 4 * l.length + 1 ≤ 4 * cfile.length + 1
    omega

theorem left_macdef (s : Parse) : s.macdef.left ≤ 4 * s.cfile.length + 1 := by
  have hfail : ∀ (u : Parse) (m : List UInt8), u.cfile = s.cfile → (u.fail m).left ≤ 4 * s.cfile.length + 1 := by
    intro u m hu
    show 4 * u.cfile.length + 0 ≤ _
    rw [hu]
    exact Nat.le_succ _
  have htext : ∀ (u : Parse) (mac_name l : List UInt8), u.cfile = s.cfile → l.length ≤ s.cfile.length →
      (u.macroText mac_name l).left ≤ 4 * s.cfile.length + 1 := by
    intro u mac_name l hu hl
    have hle := left_macroText u mac_name l
    rw [hu] at hle
    omega
  have hblank := (List.dropWhile_suffix (l := s.cfile) isblank).length_le
  unfold macdef
  split
  · exact hfail s _ rfl
  · rename_i c l hl
    rw [hl, List.length_cons] at hblank
    split
    · exact hfail s _ rfl
    · split
      · exact hfail s _ rfl
      · have hname := readName_le 8 c l
        simp only
        split
        · exact hfail _ _ rfl
        · rename_i d rest hr
          rw [hr] at hname
          simp only at hname
          split
          · exact htext _ _ rest rfl (by omega)
          · have hnl := (List.dropWhile_suffix (l := rest) (· ≠ NEWLINE)).length_le
            split
            · exact hfail _ _ rfl
            · rename_i e rest' hrest
              rw [hrest, List.length_cons] at hnl
              exact htext _ _ rest' rfl (by omega)

end Parse

theorem Pc.rank_le (pc : Pc) : pc.rank ≤ 3 := by
  unfold rank
  split <;> decide

/-- A token is taken from the file. -/
theorem left_taken {u : Parse} (hu : Same s.token.2 u) (hne : s.token.1 ≠ .none) : u.left < 4 * s.cfile.length := by
  have hrank := u.pc.rank_le
  have hshort : u.cfile.length < s.cfile.length := by
    rw [hu.cfile]
    exact (cfile_token s.tokval s.cfile).2 hne
  rw [Parse.left]
  omega

theorem left_kept {u : Parse} (hu : Same s.token.2 u) (hrank : u.pc.rank ≤ 1) : u.left ≤ 4 * s.cfile.length + 1 := by
  have hshort : u.cfile.length ≤ s.cfile.length := by
    rw [hu.cfile]
    exact (cfile_token s.tokval s.cfile).1
  rw [Parse.left]
  omega

/-- The end of the file. -/
theorem left_eof : ({ s.token.2 with pc := .done } : Parse).left < 4 * s.cfile.length + 1 := by
  have hshort := Nat.mul_le_mul_left 4 (cfile_token s.tokval s.cfile).1
  exact Nat.lt_succ_of_le hshort

theorem rank_machine (env : Env) (u : Parse) (t : Token) : (u.machine env t).pc.rank ≤ 1 := by
  unfold Parse.machine
  split <;> exact Nat.le_refl 1

theorem rank_value (u : Parse) (v : Value) (t : Token) : (u.value v t).pc.rank ≤ 1 := by
  unfold Parse.value
  split
  · exact Nat.le_refl 1
  · split
    · exact Nat.le_refl 1
    · split <;> exact Nat.le_refl 1
  · exact Nat.le_refl 1
  · exact Nat.le_refl 1

theorem rank_guarded (isreadable : Bool) (v : Value) : (s.guarded isreadable v).pc.rank ≤ 2 := by
  unfold Parse.guarded
  split
  · split
    · exact Nat.zero_le 2
    · exact Nat.le_refl 2
  · split
    · exact Nat.zero_le 2
    · exact Nat.le_refl 2
  · exact Nat.le_refl 2

theorem left_step {env : Env} {isreadable : Bool} {t : Parse} (h : step env isreadable s = some t) : t.left < s.left := by
  have hleft : ∀ pc, s.pc = pc → s.left = 4 * s.cfile.length + pc.rank := by
    rintro _ rfl
    rfl
  unfold step at h
  cases hpc : s.pc with
  | next =>
    rw [hpc] at h
    obtain rfl := Option.some.inj h
    rw [hleft _ hpc]
    by_cases hnone : s.token.1 = .none
    · rw [hnone]
      exact left_eof
    · exact Nat.lt_succ_of_lt (left_taken (Parse.same_entry _ _) hnone)
  | machine =>
    rw [hpc] at h
    obtain rfl := Option.some.inj h
    rw [hleft _ hpc]
    exact Nat.lt_succ_of_le (left_kept (Parse.same_machine env _ _) (rank_machine env _ _))
  | matched =>
    rw [hpc] at h
    obtain rfl := Option.some.inj h
    rw [hleft _ hpc]
    by_cases hnone : s.token.1 = .none
    · rw [hnone]
      exact left_eof
    · exact Nat.lt_succ_of_lt (left_taken (Parse.same_keyword env _ _) hnone)
  | guard v =>
    rw [hpc] at h
    obtain rfl := Option.some.inj h
    rw [hleft _ hpc, Parse.left, (s.same_guarded isreadable v).cfile]
    exact Nat.add_lt_add_left (Nat.lt_succ_of_le (rank_guarded isreadable v)) _
  | value v =>
    rw [hpc] at h
    obtain rfl := Option.some.inj h
    rw [hleft _ hpc]
    exact Nat.lt_succ_of_le (left_kept (Parse.same_value _ v _) (rank_value _ v _))
  | macdef =>
    rw [hpc] at h
    obtain rfl := Option.some.inj h
    rw [hleft _ hpc]
    exact Nat.lt_succ_of_le s.left_macdef
  | done =>
    rw [hpc] at h
    cases h
  | bad =>
    rw [hpc] at h
    cases h

/-- Every run ends, after so many steps at most. -/
theorem length_le_of_run (env : Env) (t : Table) (cfile : List UInt8) (aname apass aacct : Option (List UInt8))
    {rs : List Bool} {s : Parse} (h : run (step env) rs (start t cfile aname apass aacct) = some s) :
    rs.length ≤ 4 * cfile.length + 1 := by
  have hrun : ∀ (rs : List Bool) (u v : Parse), run (step env) rs u = some v → v.left + rs.length ≤ u.left := by
    intro rs
    induction rs with
    | nil =>
      intro u v hv
      obtain rfl := Option.some.inj hv
      exact Nat.le_refl _
    | cons r rs ih =>
      intro u v hv
      obtain ⟨w, hw, hv⟩ := run_cons.mp hv
      have := left_step hw
      have := ih w v hv
      rw [List.length_cons]
      omega
  have hle := hrun rs _ s h
  exact Nat.le_trans (Nat.le_add_left _ _) hle

def noMacros : Table := ⟨[], fun _ => NUL, Nat.zero_le 16, fun _ hm => absurd hm List.not_mem_nil⟩

def anyHost : Env := ⟨[0x68], [0x68], [], false⟩

/-- `default macdef x`, and the text of the macro. -/
def macroFile (t : List UInt8) : List UInt8 :=
  [0x64, 0x65, 0x66, 0x61, 0x75, 0x6c, 0x74, 0x20, 0x6d, 0x61, 0x63, 0x64, 0x65, 0x66, 0x20, 0x78, NEWLINE] ++ t

theorem stays_one_line : ∃ s,
    run (step anyHost) [false, false, false] (start noMacros (macroFile [0x6c, 0x73, NEWLINE, NEWLINE]) none none none) =
      some s ∧
    (Stays 0 s ↔ Meets (step anyHost) (fun _ u => u.Fits) [false, false, false]
      (start noMacros (macroFile [0x6c, 0x73, NEWLINE, NEWLINE]) none none none)) :=
  ⟨_, rfl, stays_iff anyHost noMacros (macroFile [0x6c, 0x73, NEWLINE, NEWLINE]) none none none rfl⟩

/-- For a first macro without a line, the character in front of macbuf is read. -/
theorem an_empty_macro_reads_before : ∃ s,
    run (step anyHost) [false, false, false] (start noMacros (macroFile [NEWLINE]) none none none) = some s ∧
      ¬ Stays 0 s := by
  refine ⟨_, rfl, fun h => ?_⟩
  have hload : Access.Inside (.load (-1)) := h.log _ (by decide)
  exact absurd hload.1 (by decide)

end Netutils.Ftp.Ruserpass
