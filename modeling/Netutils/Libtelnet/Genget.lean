/-
  Netutils.Libtelnet.Genget — telnet's search for a command in a table (genget and isprefix of
  libtelnet/genget.c), by its name or an abbreviation, in either case.

  It stops at the second entry that begins with what is asked for, whatever comes behind. So it
  is right about a table for whatever is asked if and only if no entry stands behind two that
  begin with its whole name (`genget_right_iff`).
-/

import Netutils.Lib.Abbrev
import Netutils.Libc.Ctype

namespace Netutils.Libtelnet.Genget

open Netutils.Libc
open Netutils.Lib.Abbrev

/-- The loop of isprefix, with `s1 - os1`. -/
def compare (n : Int) : List UInt8 → List UInt8 → Int
  | [], [] => -n
  | [], _ :: _ => n
  | _ :: _, [] => 0
  | c1 :: s1, c2 :: s2 => if tolower c1 = tolower c2 then compare (n + 1) s1 s2 else 0

def isprefix (s1 s2 : List UInt8) : Int := if s1 = [] then -1 else compare 0 s1 s2

variable {α : Type} (word : α → List UInt8)

/-- The loop of genget; `word` is the name of an entry. -/
def gengetLoop (name : List UInt8) : Option α → List α → Found α
  | found, [] => only found.toList
  | found, c :: table =>
    let n := isprefix name (word c)
    if n = 0 then gengetLoop name found table
    else if n < 0 then .entry c
    else
      match found with
      | some _ => .ambiguous
      | none => gengetLoop name (some c) table

def genget (name : List UInt8) (table : List α) : Found α := gengetLoop word name none table

/-! ## What it finds -/

def same (s t : List UInt8) : Bool := strcaseeq s t

/-- `s` is the beginning of `t`, and not all of it. -/
def begins (s t : List UInt8) : Bool := (s.map tolower).isPrefixOf (t.map tolower) && !same s t

theorem compare_spec (s t : List UInt8) {n : Int} (hn : 0 ≤ n) (hs : s ≠ [] ∨ 0 < n) :
    (compare n s t < 0 ↔ same s t = true) ∧ (0 < compare n s t ↔ begins s t = true) := by
  induction s generalizing t n with
  | nil =>
    have hpos : 0 < n := hs.resolve_left fun h => h rfl
    cases t with
    | nil =>
      simp [compare, same, begins, strcaseeq, hpos, hn]
    | cons c t =>
      have hnot : ¬ n < 0 := by omega
      simp [compare, same, begins, strcaseeq, hpos, hnot]
  | cons c s ih =>
    cases t with
    | nil => simp [compare, same, begins, strcaseeq]
    | cons d t =>
      by_cases hcd : tolower c = tolower d
      · rw [compare, if_pos hcd]
        have hstep := ih t (n := n + 1) (by omega) (Or.inr (by omega))
        have hsame : same (c :: s) (d :: t) = same s t := by simp [same, strcaseeq, hcd]
        have hbegins : begins (c :: s) (d :: t) = begins s t := by simp [begins, hsame, hcd]
        rw [hsame, hbegins]
        exact hstep
      · simp [compare, same, begins, strcaseeq, hcd]

theorem isprefix_spec {s : List UInt8} (hs : s ≠ []) (t : List UInt8) :
    ( isprefix s t < 0 ↔ same s t = true) ∧ (0 < isprefix s t ↔ begins s t = true) := by
  rw [ isprefix, if_neg hs]
  exact compare_spec s t (Int.le_refl 0) (Or.inl hs)

theorem gengetLoop_eq {name : List UInt8} (hname : name ≠ []) (found : Option α) (table : List α) :
    gengetLoop word name found table = scan (fun c => same name (word c)) (fun c => begins name (word c)) found table := by
  induction table generalizing found with
  | nil => rfl
  | cons c table ih =>
    obtain ⟨hneg, hpos⟩ := isprefix_spec hname (word c)
    rw [gengetLoop.eq_def, scan.eq_def]
    by_cases hfull : same name (word c) = true
    · have hlt := hneg.mpr hfull
      simp only [hfull, if_true, if_neg (Int.ne_of_lt hlt), if_pos hlt]
    · have hnot : ¬ isprefix name (word c) < 0 := fun h => hfull (hneg.mp h)
      by_cases hbegins : begins name (word c) = true
      · have hlt := hpos.mpr hbegins
        simp only [hbegins, if_true, if_neg hfull, if_neg (Int.ne_of_gt hlt), if_neg hnot]
        cases found with
        | some f => rfl
        | none => exact ih (some c)
      · have hzero : isprefix name (word c) = 0 := by
          have hle : ¬ 0 < isprefix name (word c) := fun h => hbegins (hpos.mp h)
          omega
        simp only [hzero, if_true, if_neg hfull, if_neg hbegins]
        exact ih found

theorem same_congr {s s' : List UInt8} (h : same s s' = true) (t : List UInt8) :
    same s t = same s' t ∧ begins s t = begins s' t := by
  have heq : s.map tolower = s'.map tolower := by simpa [same, strcaseeq] using h
  simp [same, begins, strcaseeq, heq]

/-- No entry stands behind two that begin with its name, but for an entry without a name and
    one that has the name of an entry in front of it. -/
def Ordered (table : List α) : Prop :=
  ∀ pre c post, table = pre ++ c :: post → word c ≠ [] → (∀ e ∈ pre, same (word c) (word e) = false) →
    (pre.filter fun e => begins (word c) (word e)).length ≤ 1

variable {word} {name : List UInt8} {table : List α}

theorem genget_eq_lookup_iff (hname : name ≠ []) :
    genget word name table = lookup (fun c => same name (word c)) (fun c => begins name (word c)) table ↔
      ∀ pre c post, table = pre ++ c :: post → same name (word c) = true → (∀ e ∈ pre, same name (word e) = false) →
        (pre.filter fun e => begins name (word e)).length ≤ 1 := by
  rw [genget, gengetLoop_eq word hname, scan_eq_iff]
  constructor
  · intro hle pre c post htable hc hpre
    have hfind : table.find? (fun c => same name (word c)) = some c :=
      List.find?_eq_some_iff_append.mpr ⟨hc, pre, post, htable, fun e he => by rw [hpre e he]; rfl⟩
    have hbefore : before (fun c => same name (word c)) (fun c => begins name (word c)) table =
        pre.filter fun e => begins name (word e) := by
      rw [before, htable, List.takeWhile_append_of_pos fun e he => by rw [hpre e he]; rfl,
        List.takeWhile_cons_of_neg (by rw [hc]; decide), List.append_nil]
    rw [← hbefore]
    exact hle (by rw [hfind]; rfl)
  · intro hall hsome
    obtain ⟨c, hfind⟩ := Option.isSome_iff_exists.mp hsome
    obtain ⟨hc, pre, post, htable, hpre⟩ := List.find?_eq_some_iff_append.mp hfind
    have hpre : ∀ e ∈ pre, same name (word e) = false := fun e he => by simpa using hpre e he
    rw [before, htable, List.takeWhile_append_of_pos fun e he => by rw [hpre e he]; rfl,
      List.takeWhile_cons_of_neg (by rw [hc]; decide), List.append_nil]
    exact hall pre c post htable hc hpre

theorem genget_eq_lookup (hordered : Ordered word table) (hname : name ≠ []) :
    genget word name table = lookup (fun c => same name (word c)) (fun c => begins name (word c)) table := by
  rw [genget_eq_lookup_iff hname]
  intro pre c post htable hc hpre
  have hword : word c ≠ [] := by
    intro hnil
    rw [hnil] at hc
    exact hname (by simpa [same, strcaseeq] using hc)
  have hfilter : (pre.filter fun e => begins name (word e)) = pre.filter fun e => begins (word c) (word e) :=
    List.filter_congr fun e _ => (same_congr hc (word e)).2
  rw [hfilter]
  exact hordered pre c post htable hword fun e he => (same_congr hc (word e)).1 ▸ hpre e he

/-- In such a table, and in no other, it finds what is asked for by any name but the empty one, -/
theorem genget_right_iff :
    (∀ name, name ≠ [] →
      genget word name table = lookup (fun c => same name (word c)) (fun c => begins name (word c)) table) ↔
    Ordered word table := by
  have hrefl : ∀ s : List UInt8, same s s = true := by simp [same, strcaseeq]
  constructor
  · intro hall pre c post htable hc hpre
    exact (genget_eq_lookup_iff hc).mp (hall (word c) hc) pre c post htable (hrefl _) hpre
  · intro hordered name hname
    exact genget_eq_lookup hordered hname

/-- and by that the first entry. -/
theorem genget_empty : genget word [] table = table.head?.elim .none .entry := by
  cases table with
  | nil => rfl
  | cons c table => rfl

instance (word : α → List UInt8) (table : List α) : Decidable (Ordered word table) :=
  decidable_of_iff (∀ i : Fin table.length, word table[i] ≠ [] →
      (∀ e ∈ table.take i, same (word table[i]) (word e) = false) →
      ((table.take i).filter fun e => begins (word table[i]) (word e)).length ≤ 1) <| by
    constructor
    · intro hall pre c post htable
      subst htable
      have := hall ⟨pre.length, by simp⟩
      simpa using this
    · intro hordered i
      exact hordered (table.take i) table[i] (table.drop (i + 1)) (by simp)

end Netutils.Libtelnet.Genget
