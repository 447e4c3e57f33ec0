/-
  Netutils.Ftp.Getreply — how ftp reads the replies of the server (ftp/ftp.c, getreply).

  The code of a line is what the digits of its first three columns make, and a `-` in column
  four of a line that continues a reply clears it. A reply that is continued ends with the
  first line of the same code. So a stream of replies is read reply by reply
  (`inStep_iff`) unless a continued reply has the code 000, which stands for no code yet, or
  a line within it has the code of the reply and no `-` behind it, whatever else is there.
-/

import Mathlib.Data.List.Basic
import Mathlib.Data.List.Induction
import Netutils.Arpa
import Netutils.Libc.Inet

namespace Netutils.Ftp.Getreply

open Netutils.Arpa Netutils.Libc

/-! ## getreply -/

/-- `'-'` -/
def DASH : UInt8 := 0x2d

/-- `')'` -/
def PAREN : UInt8 := 0x29

def BUFSIZ : Nat := 8192

structure Locals where
  dig : Nat
  /-- The first character of the line. -/
  n : UInt8
  code : Nat
  /-- reply_string up to cp -/
  reply : List UInt8
  originalcode : Nat
  continuation : Nat
  pflag : Nat
  /-- `pt - pasv` -/
  pt : Nat
  /-- What has been stored through pt. -/
  stores : List (Nat × UInt8)
  /-- What has gone to cout. -/
  sent : List UInt8
  deriving DecidableEq

namespace Locals

/-- At the start of getreply. -/
def init : Locals := ⟨0, 0, 0, [], 0, 0, 0, 0, [], []⟩

/-- `dig = n = code = 0; cp = reply_string;` -/
def fresh (s : Locals) : Locals := { s with dig := 0, n := 0, code := 0, reply := [] }

/-- dig and code. -/
def count (s : Locals) (c : UInt8) : Locals :=
  { s with dig := s.dig + 1, code := if s.dig + 1 < 4 ∧ isdigit c = true then s.code * 10 + digit c else s.code }

/-- pflag 1 and 2. -/
def watch (s : Locals) (c : UInt8) : Locals :=
  let pflag := if s.pflag = 0 ∧ s.code = 227 then 1 else s.pflag
  { s with pflag := if s.dig > 4 ∧ pflag = 1 ∧ isdigit c = true then 2 else pflag }

def copy (s : Locals) (c : UInt8) : Locals :=
  if s.pflag = 2 then
    if c ≠ CR ∧ c ≠ PAREN then { s with stores := s.stores ++ [(s.pt, c)], pt := s.pt + 1 }
    else { s with stores := s.stores ++ [(s.pt, NUL)], pflag := 3 }
  else s

def dash (s : Locals) (c : UInt8) : Locals :=
  if s.dig = 4 ∧ c = DASH then
    { s with code := if s.continuation ≠ 0 then 0 else s.code, continuation := s.continuation + 1 }
  else s

def keep (s : Locals) (c : UInt8) : Locals :=
  { s with n := if s.n = 0 then c else s.n, reply := if s.reply.length < BUFSIZ - 1 then s.reply ++ [c] else s.reply }

/-- A character that is neither IAC nor a newline. -/
def char (s : Locals) (c : UInt8) : Locals := ((((s.count c).watch c).copy c).dash c).keep c

def send (s : Locals) (msg : List UInt8) : Locals := { s with sent := s.sent ++ msg }

end Locals

/-- The inner loop; `none` at EOF, which counts as a character and is 255 as an option. -/
def line : List UInt8 → Locals → Option (List UInt8) × Locals
  | [], s => (none, { s with dig := s.dig + 1 })
  | c :: cin, s =>
    if c = LF then (some cin, s)
    else if c = IAC then
      match cin with
      | [] => (none, { s with dig := s.dig + 1 })
      | d :: cin =>
        if d = WILL ∨ d = WONT then
          match cin with
          | [] => (none, { s.send [IAC, DONT, 0xff] with dig := s.dig + 1 })
          | o :: cin => line cin (s.send [IAC, DONT, o])
        else if d = DO ∨ d = DONT then
          match cin with
          | [] => (none, { s.send [IAC, WONT, 0xff] with dig := s.dig + 1 })
          | o :: cin => line cin (s.send [IAC, WONT, o])
        else line cin s
    else line cin (s.char c)

structure Outcome where
  ret : Int
  code : Nat
  /-- What cin has left. -/
  left : List UInt8
  locals : Locals
  /-- lostpeer has been called. -/
  lost : Bool

/-- `for (;;)`, with turns enough. -/
def loop (expecteof : Bool) : Nat → List UInt8 → Locals → Option Outcome
  | k + 1, cin, s =>
    match line cin s.fresh with
    | (none, s) => some (if expecteof then ⟨0, 221, [], s, false⟩ else ⟨4, 421, [], s, true⟩)
    | (some cin, s) =>
      if s.continuation ≠ 0 ∧ s.code ≠ s.originalcode then
        loop expecteof k cin (if s.originalcode = 0 then { s with originalcode := s.code } else s)
      else some ⟨(s.n.toNat : Int) - 0x30, s.code, cin, s, s.code = 421 || s.originalcode = 421⟩
  | 0, _, _ => none

def getreply (expecteof : Bool) (cin : List UInt8) : Option Outcome := loop expecteof (cin.length + 1) cin Locals.init

/-! ## Replies -/

/-- Three digits. -/
structure Code where
  d1 : UInt8
  d2 : UInt8
  d3 : UInt8
  isdigits : isdigit d1 = true ∧ isdigit d2 = true ∧ isdigit d3 = true

def Code.digits (c : Code) : List UInt8 := [c.d1, c.d2, c.d3]

def Code.val (c : Code) : Nat := number 10 c.digits

def BLANK : UInt8 := 0x20

inductive Reply where
  /-- `ddd text` -/
  | one (code : Code) (text : List UInt8)
  /-- `ddd-text`, lines, and `ddd text` -/
  | many (code : Code) (text : List UInt8) (inner : List (List UInt8)) (last : List UInt8)

def Reply.code : Reply → Code
  | .one code _ => code
  | .many code _ _ _ => code

/-- The lines, without their CR LF. -/
def Reply.lines : Reply → List (List UInt8)
  | .one code text => [code.digits ++ BLANK :: text]
  | .many code text inner last => (code.digits ++ DASH :: text) :: inner ++ [code.digits ++ BLANK :: last]

def crlf (t : List UInt8) : List UInt8 := t ++ [CR, LF]

def stream (rs : List Reply) : List UInt8 := (rs.flatMap Reply.lines).flatMap crlf

def Clean (t : List UInt8) : Prop := LF ∉ t ∧ IAC ∉ t ∧ NUL ∉ t

/-- No line within the reply starts with its code and a blank. -/
structure Reply.WellFormed (r : Reply) : Prop where
  clean : ∀ t ∈ r.lines, Clean t
  code : r.code.val ≠ 421
  inner : match r with
    | .one _ _ => True
    | .many code _ inner _ => ∀ t ∈ inner, ¬ code.digits ++ [BLANK] <+: t

/-- What the digits in the first three columns make. -/
def codeOf (t : List UInt8) : Nat := number 10 ((t.take 3).filter isdigit)

/-- The line ends a reply of this code. -/
def ends (v : Nat) (t : List UInt8) : Bool := codeOf t = v && t[3]? ≠ some DASH

/-- The reply is not ended before its last line. -/
def Reply.Closed : Reply → Prop
  | .one _ _ => True
  | .many code _ inner _ => code.val ≠ 0 ∧ ∀ t ∈ inner, ends code.val t = false

/-- Call by call, getreply reads the next reply. -/
def InStep (rest : List UInt8) : List Reply → Prop
  | [] => True
  | r :: rs =>
    (∃ o, getreply false (stream (r :: rs) ++ rest) = some o ∧ o.ret = digit r.code.d1 ∧ o.code = r.code.val ∧
      o.left = stream rs ++ rest) ∧ InStep rest rs

/-! ## A character -/

variable {s : Locals} {c : UInt8} {t l rest : List UInt8} {v k : Nat} {e : Bool}

namespace Locals

theorem copy_fields (s : Locals) (c : UInt8) :
    (s.copy c).dig = s.dig ∧ (s.copy c).n = s.n ∧ (s.copy c).code = s.code ∧ (s.copy c).originalcode = s.originalcode ∧
      (s.copy c).continuation = s.continuation := by
  unfold copy
  split
  · split <;> exact ⟨rfl, rfl, rfl, rfl, rfl⟩
  · exact ⟨rfl, rfl, rfl, rfl, rfl⟩

theorem char_dig (s : Locals) (c : UInt8) : (s.char c).dig = s.dig + 1 := by
  obtain ⟨hdig, -⟩ := copy_fields ((s.count c).watch c) c
  have hkeep : (s.char c).dig = ((((s.count c).watch c).copy c).dash c).dig := rfl
  rw [hkeep, dash]
  split <;> exact hdig

theorem char_n (s : Locals) (c : UInt8) : (s.char c).n = if s.n = 0 then c else s.n := by
  obtain ⟨-, hn, -⟩ := copy_fields ((s.count c).watch c) c
  have hdash : ((((s.count c).watch c).copy c).dash c).n = s.n := by
    rw [dash]
    split <;> exact hn
  rw [char, keep, hdash]

theorem char_originalcode (s : Locals) (c : UInt8) : (s.char c).originalcode = s.originalcode := by
  obtain ⟨-, -, -, horig, -⟩ := copy_fields ((s.count c).watch c) c
  have hkeep : (s.char c).originalcode = ((((s.count c).watch c).copy c).dash c).originalcode := rfl
  rw [hkeep, dash]
  split <;> exact horig

theorem char_continuation (s : Locals) (c : UInt8) :
    (s.char c).continuation = s.continuation + if s.dig + 1 = 4 ∧ c = DASH then 1 else 0 := by
  obtain ⟨hdig, -, -, -, hcont⟩ := copy_fields ((s.count c).watch c) c
  have hkeep : (s.char c).continuation = ((((s.count c).watch c).copy c).dash c).continuation := rfl
  have hcount : ((s.count c).watch c).dig = s.dig + 1 := rfl
  rw [hkeep, dash, hdig, hcount]
  split
  · exact congrArg (· + 1) hcont
  · exact hcont

theorem char_code (s : Locals) (c : UInt8) :
    (s.char c).code = if (s.dig + 1 = 4 ∧ c = DASH) ∧ s.continuation ≠ 0 then 0
      else if s.dig + 1 < 4 ∧ isdigit c = true then s.code * 10 + digit c else s.code := by
  obtain ⟨hdig, -, hcode, -, hcont⟩ := copy_fields ((s.count c).watch c) c
  have hkeep : (s.char c).code = ((((s.count c).watch c).copy c).dash c).code := rfl
  have hcount : ((s.count c).watch c).dig = s.dig + 1 := rfl
  have hcont' : (((s.count c).watch c).copy c).continuation = s.continuation := hcont
  rw [hkeep, dash, hdig, hcount]
  by_cases hd : s.dig + 1 = 4 ∧ c = DASH
  · rw [if_pos hd, hcont', hcode]
    show (if s.continuation ≠ 0 then 0 else ((s.count c).watch c).code) = _
    by_cases h0 : s.continuation ≠ 0
    · exact (if_pos h0).trans (if_pos (And.intro hd h0)).symm
    · exact (if_neg h0).trans (if_neg fun h => h0 h.2).symm
  · rw [if_neg hd, if_neg fun h => hd h.1]
    exact hcode

end Locals

/-! ## The characters of a line -/

theorem codeOf_concat (t : List UInt8) (c : UInt8) :
    codeOf (t ++ [c]) = if t.length + 1 < 4 ∧ isdigit c = true then codeOf t * 10 + digit c else codeOf t := by
  by_cases hlen : t.length + 1 < 4
  · have htake : (t ++ [c]).take 3 = t.take 3 ++ [c] := by
      have hlen' : (t ++ [c]).length ≤ 3 := by
        rw [List.length_append, List.length_singleton]
        omega
      rw [List.take_of_length_le hlen', List.take_of_length_le (by omega)]
    rw [codeOf, htake, List.filter_append]
    by_cases hc : isdigit c = true
    · rw [if_pos ⟨hlen, hc⟩, List.filter_cons_of_pos hc, List.filter_nil, number_concat]
      rfl
    · rw [if_neg fun h => hc h.2, List.filter_cons_of_neg hc, List.filter_nil, List.append_nil]
      rfl
  · rw [if_neg fun h => hlen h.1, codeOf, List.take_append_of_le_length (by omega)]
    rfl

theorem fourth_concat (t : List UInt8) (c d : UInt8) :
    (t ++ [c])[3]? = some d ↔ t[3]? = some d ∨ t.length + 1 = 4 ∧ c = d := by
  rcases Nat.lt_trichotomy t.length 3 with h | h | h
  · have hlen : (t ++ [c]).length ≤ 3 := by
      rw [List.length_append, List.length_singleton]
      omega
    rw [List.getElem?_eq_none hlen, List.getElem?_eq_none (by omega)]
    simp
    omega
  · rw [List.getElem?_append_right (by omega), h, List.getElem?_eq_none (show t.length ≤ 3 by omega)]
    simp
  · rw [List.getElem?_append_left h]
    constructor
    · exact Or.inl
    · intro hd
      exact hd.resolve_right (by omega)

/-- What the characters of a line make of the locals: dig is their number, and so on. -/
theorem foldl_char (s : Locals) (t : List UInt8) :
    (t.foldl Locals.char s.fresh).dig = t.length ∧
      (t.foldl Locals.char s.fresh).originalcode = s.originalcode ∧
      (t.foldl Locals.char s.fresh).continuation = s.continuation + (if t[3]? = some DASH then 1 else 0) ∧
      (t.foldl Locals.char s.fresh).code = if t[3]? = some DASH ∧ s.continuation ≠ 0 then 0 else codeOf t := by
  induction t using List.reverseRecOn with
  | nil => exact ⟨rfl, rfl, rfl, rfl⟩
  | append_singleton t c ih =>
    obtain ⟨hdig, horig, hcont, hcode⟩ := ih
    have hfirst : t[3]? = some DASH → ¬ (t.length + 1 = 4 ∧ c = DASH) := by
      intro h hlen
      rw [List.getElem?_eq_none (by omega)] at h
      cases h
    have hlong : t[3]? = some DASH → ¬ (t.length + 1 < 4 ∧ isdigit c = true) := by
      intro h hlen
      rw [List.getElem?_eq_none (by omega)] at h
      cases h
    rw [List.foldl_append, List.foldl_cons, List.foldl_nil]
    refine ⟨?_, ?_, ?_, ?_⟩
    · rw [Locals.char_dig, hdig, List.length_append, List.length_singleton]
    · rw [Locals.char_originalcode, horig]
    · rw [Locals.char_continuation, hcont, hdig]
      simp only [fourth_concat]
      by_cases hd : t[3]? = some DASH
      · simp only [hd, hfirst hd, if_true, if_false, true_or]
      · simp only [hd, if_false, false_or, Nat.add_zero]
    · rw [Locals.char_code, hcont, hcode, hdig, codeOf_concat]
      simp only [fourth_concat]
      by_cases hd : t[3]? = some DASH
      · simp only [hd, hfirst hd, hlong hd, if_true, if_false, true_or, false_and, true_and]
      · by_cases hc : t.length + 1 = 4 ∧ c = DASH
        · simp only [hd, hc, and_self, if_false, false_or, false_and, true_and, Nat.add_zero]
        · simp only [hd, hc, if_false, false_or, false_and, Nat.add_zero]

theorem foldl_n (s : Locals) (hnul : NUL ∉ t) : (t.foldl Locals.char s.fresh).n = t.headD 0 := by
  induction t using List.reverseRecOn with
  | nil => rfl
  | append_singleton t c ih =>
    rw [List.mem_append, not_or] at hnul
    rw [List.foldl_append, List.foldl_cons, List.foldl_nil, Locals.char_n, ih hnul.1]
    cases t with
    | nil => rfl
    | cons d t =>
      have hd : d ≠ 0 := fun h => hnul.1 (h ▸ List.mem_cons_self)
      exact if_neg hd

theorem line_append (hlf : LF ∉ t) (hiac : IAC ∉ t) : line (t ++ LF :: l) s = (some l, t.foldl Locals.char s) := by
  induction t generalizing s with
  | nil => rw [List.nil_append, line.eq_def]; rfl
  | cons c t ih =>
    rw [List.mem_cons, not_or] at hlf hiac
    rw [List.cons_append, line.eq_def, List.foldl_cons]
    simp only [if_neg fun h => hlf.1 (Eq.symm h), if_neg fun h => hiac.1 (Eq.symm h)]
    exact ih hlf.2 hiac.2

/-! ## A line of a reply -/

/-- Within a reply: the code of the reply is known. -/
structure Within (v : Nat) (s : Locals) : Prop where
  original : s.originalcode = v
  continued : s.continuation ≠ 0

theorem within_new (h : s.continuation ≠ 0) : Within v { s with originalcode := v } := ⟨rfl, h⟩

/-- The characters of a line within a reply: the code is the one of the reply just if the line
    ends it. -/
theorem within_foldl (hv : v ≠ 0) (hs : Within v s) (t : List UInt8) :
    Within v (t.foldl Locals.char s.fresh) ∧ ((t.foldl Locals.char s.fresh).code = v ↔ ends v t = true) := by
  obtain ⟨-, horig, hcont, hcode⟩ := foldl_char s t
  have hpos := hs.continued
  refine ⟨⟨horig.trans hs.original, by rw [hcont]; omega⟩, ?_⟩
  rw [hcode, ends, Bool.and_eq_true, decide_eq_true_eq, decide_eq_true_eq]
  by_cases hd : t[3]? = some DASH
  · rw [if_pos ⟨hd, hpos⟩]
    exact ⟨fun h => absurd h.symm hv, fun h => absurd hd h.2⟩
  · rw [if_neg fun h => hd h.1]
    exact ⟨fun h => ⟨h, hd⟩, And.left⟩

theorem codeOf_cr (t : List UInt8) : codeOf (t ++ [CR]) = codeOf t := by
  rw [codeOf_concat, if_neg fun h => absurd h.2 (by decide)]

theorem fourth_cr (t : List UInt8) : (t ++ [CR])[3]? = some DASH ↔ t[3]? = some DASH := by
  rw [fourth_concat]
  exact ⟨fun h => h.resolve_right fun h => absurd h.2 (by decide), Or.inl⟩

theorem ends_cr (v : Nat) (t : List UInt8) : ends v (t ++ [CR]) = ends v t := by
  simp only [ends, codeOf_cr, ne_eq, fourth_cr]

/-- The locals behind a line. -/
def behind (s : Locals) (t : List UInt8) : Locals := (t ++ [CR]).foldl Locals.char s.fresh

theorem behind_fields (s : Locals) (t : List UInt8) :
    (behind s t).originalcode = s.originalcode ∧
      (behind s t).continuation = s.continuation + (if t[3]? = some DASH then 1 else 0) ∧
      (behind s t).code = if t[3]? = some DASH ∧ s.continuation ≠ 0 then 0 else codeOf t := by
  obtain ⟨-, horig, hcont, hcode⟩ := foldl_char s (t ++ [CR])
  simp only [fourth_cr, codeOf_cr] at hcont hcode
  exact ⟨horig, hcont, hcode⟩

theorem loop_crlf (s : Locals) (ht : Clean t) :
    loop e (k + 1) (crlf t ++ l) s =
      if (behind s t).continuation ≠ 0 ∧ (behind s t).code ≠ (behind s t).originalcode then
        loop e k l
          (if (behind s t).originalcode = 0 then { behind s t with originalcode := (behind s t).code } else behind s t)
      else
        some ⟨((behind s t).n.toNat : Int) - 0x30, (behind s t).code, l, behind s t,
          (behind s t).code = 421 || (behind s t).originalcode = 421⟩ := by
  obtain ⟨hlf, hiac, -⟩ := ht
  have hline : line (crlf t ++ l) s.fresh = (some l, behind s t) := by
    have hlf' : LF ∉ t ++ [CR] := by
      rw [List.mem_append, not_or]
      exact ⟨hlf, by decide⟩
    have hiac' : IAC ∉ t ++ [CR] := by
      rw [List.mem_append, not_or]
      exact ⟨hiac, by decide⟩
    have hcrlf : crlf t ++ l = (t ++ [CR]) ++ LF :: l := by simp [crlf]
    rw [hcrlf, line_append hlf' hiac']
    rfl
  rw [loop, hline]

/-- Within a reply a line ends it, or leads on. -/
theorem loop_within (ht : Clean t) (hv : v ≠ 0) (hs : Within v s) :
    if ends v t = true then
      loop e (k + 1) (crlf t ++ l) s =
        some ⟨((behind s t).n.toNat : Int) - 0x30, v, l, behind s t, v = 421 || v = 421⟩
    else Within v (behind s t) ∧ loop e (k + 1) (crlf t ++ l) s = loop e k l (behind s t) := by
  obtain ⟨hw, hends⟩ := within_foldl hv hs (t ++ [CR])
  rw [ends_cr] at hends
  change Within v (behind s t) at hw
  change (behind s t).code = v ↔ _ at hends
  rw [loop_crlf s ht, hw.original]
  by_cases hend : ends v t = true
  · rw [if_pos hend, if_neg fun h => h.2 (hends.mpr hend), hends.mpr hend]
  · rw [if_neg hend, if_pos ⟨hw.continued, fun h => hend (hends.mp h)⟩, if_neg hv]
    exact ⟨hw, rfl⟩

/-- Lines that do not end the reply. -/
theorem loop_inner {ts : List (List UInt8)} (hv : v ≠ 0) (hs : Within v s) (hts : ∀ t ∈ ts, Clean t)
    (hno : ∀ t ∈ ts, ends v t = false) (hk : ts.length ≤ k) :
    ∃ s', Within v s' ∧ loop e k (ts.flatMap crlf ++ l) s = loop e (k - ts.length) l s' := by
  induction ts generalizing s k with
  | nil => exact ⟨s, hs, rfl⟩
  | cons t ts ih =>
    obtain ⟨k, rfl⟩ : ∃ j, k = j + 1 := ⟨k - 1, by rw [List.length_cons] at hk; omega⟩
    have hstep := loop_within (e := e) (k := k) (l := ts.flatMap crlf ++ l) (hts t List.mem_cons_self) hv hs
    rw [if_neg (by rw [hno t List.mem_cons_self]; decide)] at hstep
    obtain ⟨hw, hstep⟩ := hstep
    obtain ⟨s', hs', hrest⟩ := ih (k := k) hw (fun u hu => hts u (List.mem_cons_of_mem t hu))
      (fun u hu => hno u (List.mem_cons_of_mem t hu)) (Nat.le_of_succ_le_succ hk)
    refine ⟨s', hs', ?_⟩
    rw [List.flatMap_cons, List.append_assoc, hstep, hrest, List.length_cons, Nat.add_sub_add_right]

/-- With a line that ends the reply, getreply returns before it has come to what follows. -/
theorem loop_early {ts : List (List UInt8)} (hv : v ≠ 0) (hs : Within v s) (hts : ∀ t ∈ ts, Clean t)
    (hend : ∃ t ∈ ts, ends v t = true) (hk : ts.length ≤ k) :
    ∃ o, loop e k (ts.flatMap crlf ++ l) s = some o ∧ l.length ≤ o.left.length := by
  induction ts generalizing s k with
  | nil =>
    obtain ⟨t, ht, -⟩ := hend
    cases ht
  | cons t ts ih =>
    obtain ⟨k, rfl⟩ : ∃ j, k = j + 1 := ⟨k - 1, by rw [List.length_cons] at hk; omega⟩
    have hstep := loop_within (e := e) (k := k) (l := ts.flatMap crlf ++ l) (hts t List.mem_cons_self) hv hs
    rw [List.flatMap_cons, List.append_assoc]
    by_cases hhere : ends v t = true
    · rw [if_pos hhere] at hstep
      refine ⟨_, hstep, ?_⟩
      show l.length ≤ (ts.flatMap crlf ++ l).length
      rw [List.length_append]
      omega
    · rw [if_neg hhere] at hstep
      rw [hstep.2]
      apply ih hstep.1 (fun u hu => hts u (List.mem_cons_of_mem t hu)) ?_ (Nat.le_of_succ_le_succ hk)
      obtain ⟨u, hu, huend⟩ := hend
      rcases List.mem_cons.mp hu with rfl | hu
      · exact absurd huend hhere
      · exact ⟨u, hu, huend⟩

/-! ## A reply -/

theorem codeOf_digits (code : Code) (t : List UInt8) : codeOf (code.digits ++ t) = code.val := by
  obtain ⟨h1, h2, h3⟩ := code.isdigits
  have htake : (code.digits ++ t).take 3 = code.digits := rfl
  have hall : code.digits.filter isdigit = code.digits := by
    rw [Code.digits, List.filter_cons_of_pos h1, List.filter_cons_of_pos h2, List.filter_cons_of_pos h3,
      List.filter_nil]
  rw [codeOf, htake, hall]
  rfl

/-- The first character of a line that begins with a code. -/
theorem behind_n (code : Code) (h : Clean (code.digits ++ t)) : (behind s (code.digits ++ t)).n = code.d1 := by
  have hnul : NUL ∉ code.digits ++ t ++ [CR] := by
    rw [List.mem_append, not_or]
    exact ⟨h.2.2, by decide⟩
  rw [behind, foldl_n s hnul]
  rfl

theorem length_le_flatMap_crlf (ts : List (List UInt8)) : ts.length ≤ (ts.flatMap crlf).length := by
  induction ts with
  | nil => exact Nat.le_refl 0
  | cons t ts ih =>
    rw [List.flatMap_cons, List.length_append, crlf, List.length_append]
    simp only [List.length_cons, List.length_nil]
    omega

theorem ret_digit {d : UInt8} (hd : isdigit d = true) : (d.toNat : Int) - 0x30 = digit d := by
  simp only [isdigit, Bool.and_eq_true, decide_eq_true_eq, UInt8.le_iff_toNat_le] at hd
  have hmin : 0x30 ≤ d.toNat := hd.1
  rw [digit]
  omega

/-- A reply of one line is always read. -/
theorem getreply_one (code : Code) (ht : Clean (code.digits ++ BLANK :: t)) :
    ∃ o, getreply e (crlf (code.digits ++ BLANK :: t) ++ rest) = some o ∧ o.ret = digit code.d1 ∧ o.code = code.val ∧
      o.left = rest := by
  obtain ⟨-, hcont, hcode⟩ := behind_fields Locals.init (code.digits ++ BLANK :: t)
  have hfourth : ¬ (code.digits ++ BLANK :: t)[3]? = some DASH := by
    intro h
    have : BLANK = DASH := Option.some.inj h
    revert this
    decide
  have hzero : ¬ ((behind Locals.init (code.digits ++ BLANK :: t)).continuation ≠ 0 ∧
      (behind Locals.init (code.digits ++ BLANK :: t)).code ≠
        (behind Locals.init (code.digits ++ BLANK :: t)).originalcode) := by
    rw [hcont, if_neg hfourth]
    exact fun h => h.1 rfl
  rw [getreply, loop_crlf _ ht, if_neg hzero, hcode, if_neg fun h => hfourth h.1, behind_n code ht, codeOf_digits]
  exact ⟨_, rfl, ret_digit code.isdigits.1, rfl, rfl⟩

section Many

variable (code : Code) (text last : List UInt8) (inner : List (List UInt8))

/-- The first line of a continued reply, unless its code is 000. -/
theorem getreply_first (ht : Clean (code.digits ++ DASH :: text)) (l : List UInt8) :
    if code.val = 0 then ∃ o, getreply e (crlf (code.digits ++ DASH :: text) ++ l) = some o ∧ o.left = l
    else ∃ s, Within code.val s ∧ getreply e (crlf (code.digits ++ DASH :: text) ++ l) =
      loop e (crlf (code.digits ++ DASH :: text) ++ l).length l s := by
  obtain ⟨horig, hcont, hcode⟩ := behind_fields Locals.init (code.digits ++ DASH :: text)
  have hfourth : (code.digits ++ DASH :: text)[3]? = some DASH := rfl
  have hfirst : ¬ ((code.digits ++ DASH :: text)[3]? = some DASH ∧ Locals.init.continuation ≠ 0) := fun h => h.2 rfl
  rw [if_pos hfourth] at hcont
  rw [if_neg hfirst, codeOf_digits] at hcode
  rw [getreply, loop_crlf _ ht, hcont, hcode, horig]
  by_cases hzero : code.val = 0
  · rw [if_pos hzero, if_neg fun h => h.2 hzero]
    exact ⟨_, rfl, rfl⟩
  · rw [if_neg hzero, if_pos ⟨Nat.succ_ne_zero _, hzero⟩, if_pos (show Locals.init.originalcode = 0 from rfl)]
    exact ⟨{ behind Locals.init (code.digits ++ DASH :: text) with originalcode := code.val },
      within_new fun h => Nat.succ_ne_zero _ (hcont.symm.trans h), rfl⟩

theorem lines_many (rest : List UInt8) : (Reply.many code text inner last).lines.flatMap crlf ++ rest =
    crlf (code.digits ++ DASH :: text) ++ (inner.flatMap crlf ++ (crlf (code.digits ++ BLANK :: last) ++ rest)) := by
  simp only [Reply.lines, List.cons_append, List.flatMap_cons, List.flatMap_append, List.flatMap_nil, List.append_nil,
    List.append_assoc]

theorem length_lt_last (rest : List UInt8) : rest.length < (crlf (code.digits ++ BLANK :: last) ++ rest).length := by
  rw [List.length_append, crlf, List.length_append, List.length_cons]
  omega

theorem ends_last : ends code.val (code.digits ++ BLANK :: last) = true := by
  have hblank : (code.digits ++ BLANK :: last)[3]? ≠ some DASH := by
    intro h
    have : BLANK = DASH := Option.some.inj h
    revert this
    decide
  rw [ends, codeOf_digits, Bool.and_eq_true, decide_eq_true_eq, decide_eq_true_eq]
  exact ⟨rfl, hblank⟩

/-- No line within the reply seems to end it. -/
theorem loop_closed (rest : List UInt8) (hzero : code.val ≠ 0) {s : Locals} (hs : Within code.val s) (hinner : ∀ t ∈ inner, Clean t)
    (hlast : Clean (code.digits ++ BLANK :: last)) (hno : ∀ t ∈ inner, ends code.val t = false) {k : Nat}
    (hk : inner.length < k) :
    ∃ o, loop e k (inner.flatMap crlf ++ (crlf (code.digits ++ BLANK :: last) ++ rest)) s = some o ∧
      o.ret = digit code.d1 ∧ o.code = code.val ∧ o.left = rest := by
  obtain ⟨s', hs', hrun⟩ := loop_inner (e := e) (l := crlf (code.digits ++ BLANK :: last) ++ rest) hzero hs hinner hno
    (Nat.le_of_lt hk)
  obtain ⟨j, hj⟩ : ∃ j, k - inner.length = j + 1 := ⟨k - inner.length - 1, by omega⟩
  have hend := loop_within (e := e) (k := j) (l := rest) hlast hzero hs'
  rw [if_pos (ends_last code last)] at hend
  rw [hrun, hj, hend, behind_n code hlast]
  exact ⟨_, rfl, ret_digit code.isdigits.1, rfl, rfl⟩

/-- A continued reply is read as a whole just if nothing in it seems to end it. -/
theorem getreply_many (hclean : ∀ t ∈ (Reply.many code text inner last).lines, Clean t) :
    (∃ o, getreply e ((Reply.many code text inner last).lines.flatMap crlf ++ rest) = some o ∧ o.ret = digit code.d1 ∧
        o.code = code.val ∧ o.left = rest) ↔ (Reply.many code text inner last).Closed := by
  have hfirst : Clean (code.digits ++ DASH :: text) := hclean _ List.mem_cons_self
  have hinner : ∀ t ∈ inner, Clean t := fun t ht =>
    hclean t (List.mem_cons_of_mem _ (List.mem_append_left _ ht))
  have hlast : Clean (code.digits ++ BLANK :: last) :=
    hclean _ (List.mem_cons_of_mem _ (List.mem_append_right _ (List.mem_singleton.mpr rfl)))
  have hlen := length_lt_last code last rest
  have hfuel := length_le_flatMap_crlf inner
  have hstart := getreply_first (e := e) code text hfirst
    (inner.flatMap crlf ++ (crlf (code.digits ++ BLANK :: last) ++ rest))
  rw [lines_many]
  by_cases hzero : code.val = 0
  · -- the first line is taken for the reply
    rw [if_pos hzero] at hstart
    obtain ⟨o, ho, hleft⟩ := hstart
    rw [ho]
    constructor
    · intro ⟨o', ho', _, _, hrest⟩
      obtain rfl := Option.some.inj ho'
      have hsame := congrArg List.length (hleft.symm.trans hrest)
      simp only [List.length_append] at hlen hsame
      omega
    · intro h
      exact absurd hzero h.1
  · rw [if_neg hzero] at hstart
    obtain ⟨s, hs, hloop⟩ := hstart
    rw [hloop]
    by_cases hno : ∀ t ∈ inner, ends code.val t = false
    · have hclosed := loop_closed (e := e) code last inner rest hzero hs hinner hlast hno
        (k := (crlf (code.digits ++ DASH :: text) ++
          (inner.flatMap crlf ++ (crlf (code.digits ++ BLANK :: last) ++ rest))).length)
        (by simp only [List.length_append] at hlen ⊢; omega)
      exact ⟨fun _ => ⟨hzero, hno⟩, fun _ => hclosed⟩
    · have hearly : ∃ t ∈ inner, ends code.val t = true := by
        by_contra h
        apply hno
        intro t ht
        rw [Bool.eq_false_iff]
        exact fun hend => h ⟨t, ht, hend⟩
      obtain ⟨o, ho, hleft⟩ := loop_early (e := e) (l := crlf (code.digits ++ BLANK :: last) ++ rest)
        (k := (crlf (code.digits ++ DASH :: text) ++
          (inner.flatMap crlf ++ (crlf (code.digits ++ BLANK :: last) ++ rest))).length)
        hzero hs hinner hearly (by simp only [List.length_append]; omega)
      rw [ho]
      constructor
      · intro ⟨o', ho', _, _, hrest⟩
        obtain rfl := Option.some.inj ho'
        rw [hrest] at hleft
        omega
      · intro h
        exact absurd h.2 hno

end Many

/-! ## A stream of replies -/

theorem getreply_reply (rest : List UInt8) {r : Reply} (hr : r.WellFormed) :
    (∃ o, getreply e (r.lines.flatMap crlf ++ rest) = some o ∧ o.ret = digit r.code.d1 ∧ o.code = r.code.val ∧
      o.left = rest) ↔ r.Closed := by
  cases r with
  | one code text =>
    have hline : (Reply.one code text).lines.flatMap crlf ++ rest = crlf (code.digits ++ BLANK :: text) ++ rest := by
      simp [Reply.lines]
    rw [hline]
    exact ⟨fun _ => trivial, fun _ => getreply_one code (hr.clean _ (List.mem_singleton.mpr rfl))⟩
  | many code text inner last => exact getreply_many code text last inner hr.clean

/-- Call by call getreply reads one reply, with its code and its first digit, just if no
    continued reply has the code 000 or a line that ends it before its last one. -/
theorem inStep_iff (rs : List Reply) (rest : List UInt8) (hrs : ∀ r ∈ rs, r.WellFormed) :
    InStep rest rs ↔ ∀ r ∈ rs, r.Closed := by
  induction rs with
  | nil => exact ⟨fun _ r hr => absurd hr List.not_mem_nil, fun _ => trivial⟩
  | cons r rs ih =>
    have hstream : stream (r :: rs) ++ rest = r.lines.flatMap crlf ++ (stream rs ++ rest) := by
      simp only [stream, List.flatMap_cons, List.flatMap_append, List.append_assoc]
    rw [InStep, hstream, getreply_reply _ (hrs r List.mem_cons_self), ih fun q hq => hrs q (List.mem_cons_of_mem r hq),
      List.forall_mem_cons]

/-! ## Replies that are read, and not -/

/-- `226` -/
def transferComplete : Code := ⟨0x32, 0x32, 0x36, by decide⟩

/-- `226-a`, the line, and `226 c` -/
def around (t : List UInt8) : Reply := .many transferComplete [0x61] [t] [0x63]

theorem wellFormed_around {t : List UInt8} (ht : Clean t) (hcode : ¬ [0x32, 0x32, 0x36, BLANK] <+: t) :
    (around t).WellFormed := by
  have hclean : ∀ u ∈ (around t).lines, Clean u := by
    intro u hu
    simp only [around, Reply.lines, List.cons_append, List.nil_append, List.mem_cons, List.not_mem_nil, or_false] at hu
    rcases hu with rfl | rfl | rfl
    · exact ⟨by decide, by decide, by decide⟩
    · exact ht
    · exact ⟨by decide, by decide, by decide⟩
  exact ⟨hclean, show transferComplete.val ≠ 421 by decide, List.forall_mem_singleton.mpr hcode⟩

/-- ` 226 b` does not end the reply. -/
theorem inStep_indented : InStep [] [around [BLANK, 0x32, 0x32, 0x36, BLANK, 0x62]] := by
  have hwf := wellFormed_around (t := [BLANK, 0x32, 0x32, 0x36, BLANK, 0x62]) ⟨by decide, by decide, by decide⟩
    (by decide)
  exact (inStep_iff [around [BLANK, 0x32, 0x32, 0x36, BLANK, 0x62]] [] (List.forall_mem_singleton.mpr hwf)).mpr
    (List.forall_mem_singleton.mpr ⟨by decide, List.forall_mem_singleton.mpr (by decide)⟩)

/-- A line that is nothing but the code is taken for the last one. -/
theorem a_bare_code_ends_the_reply :
    (around [0x32, 0x32, 0x36]).WellFormed ∧ ¬ InStep [] [around [0x32, 0x32, 0x36]] := by
  have hwf := wellFormed_around (t := [0x32, 0x32, 0x36]) ⟨by decide, by decide, by decide⟩ (by decide)
  refine ⟨hwf, fun h => ?_⟩
  have hclosed := (getreply_reply (e := false) [] hwf).mp (by simpa [InStep, stream] using h)
  exact absurd (hclosed.2 _ (List.mem_singleton.mpr rfl)) (by decide)

end Netutils.Ftp.Getreply
