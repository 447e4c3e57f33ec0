/-
  Netutils.Libc.Ctype — characters and texts in the C locale: white space, case, and how
  a number is printed.
-/

import Mathlib.Algebra.Group.Int.Defs
import Mathlib.Data.List.Basic
import Netutils.Libc.Inet

namespace Netutils.Libc

/-- Texts are looked up in tables. -/
instance lawfulBEqText : LawfulBEq (List UInt8) := inferInstance

/-! ## Characters -/

/-- isspace, in the C locale -/
def isspace (c : UInt8) : Bool := c == 0x20 || (0x09 ≤ c && c ≤ 0x0d)

def isupper (c : UInt8) : Bool := 0x41 ≤ c && c ≤ 0x5a

def tolower (c : UInt8) : UInt8 := if isupper c then c + 0x20 else c

/-- What is written in the place of a letter is no NUL. -/
theorem tolower_ne_zero {c : UInt8} (hc : isupper c = true) : tolower c ≠ 0 := by
  intro h
  have h0 := congrArg UInt8.toNat h
  rw [tolower, if_pos hc, UInt8.toNat_add] at h0
  rw [isupper, Bool.and_eq_true, decide_eq_true_eq, decide_eq_true_eq, UInt8.le_iff_toNat_le, UInt8.le_iff_toNat_le] at hc
  have hlow : (0x41 : UInt8).toNat = 65 := rfl
  have hhigh : (0x5a : UInt8).toNat = 90 := rfl
  have hstep : (0x20 : UInt8).toNat = 32 := rfl
  have hzero : (0 : UInt8).toNat = 0 := rfl
  omega

theorem tolower_eq_zero_iff {c : UInt8} : tolower c = 0 ↔ c = 0 := by
  constructor
  · intro h
    by_cases hc : isupper c = true
    · exact absurd h (tolower_ne_zero hc)
    · rwa [tolower, if_neg hc] at h
  · rintro rfl
    rfl

/-! ## Texts -/

def text (s : String) : List UInt8 := s.toList.map fun c => UInt8.ofNat c.toNat

/-- `!strcasecmp (s, t)` -/
def strcaseeq (s t : List UInt8) : Bool := s.map tolower == t.map tolower

/-- `%d` of a number that is not negative -/
def decimal (n : Nat) : List UInt8 := (Nat.toDigits 10 n).map fun c => UInt8.ofNat c.toNat

/-- `atoi` of a text that starts with a digit, without the overflow -/
def atoi (s : List UInt8) : Nat := number 10 (s.takeWhile isdigit)

def isxdigit (c : UInt8) : Bool := isdigit c || (0x61 ≤ tolower c && tolower c ≤ 0x66)

def xdigit (c : UInt8) : Nat := if isdigit c then digit c else (tolower c).toNat - 0x57

/-- White space, a sign and a number in the base that it begins with; whether there is a minus. -/
def signedNumber (s : List UInt8) : Bool × Nat :=
  let s := s.dropWhile isspace
  let ds := if s.head? = some 0x2d ∨ s.head? = some 0x2b then s.tail else s
  (s.head? = some 0x2d,
    if ds.head? = some 0x30 ∧ ds[1]?.map tolower = some 0x78 ∧ ds[2]?.any isxdigit then
      ((ds.drop 2).takeWhile isxdigit).foldl (fun n c => n * 16 + xdigit c) 0
    else
      let base := if ds.head? = some 0x30 then 8 else 10
      number base (ds.takeWhile (isdigitOf base)))

/-- `strtol (s, NULL, 0)` -/
def strtol (s : List UInt8) : Int :=
  let (minus, n) := signedNumber s
  if minus then max (-(n : Int)) (-2 ^ 63) else min n (2 ^ 63 - 1)

/-- `strtoul (s, NULL, 0)`, which negates in unsigned arithmetic. -/
def strtoulSigned (s : List UInt8) : BitVec 64 :=
  let (minus, n) := signedNumber s
  if ULONG_MAX < n then BitVec.ofNat 64 ULONG_MAX else if minus then -BitVec.ofNat 64 n else BitVec.ofNat 64 n

/-! ## Spans -/

/-- A span of such characters ends where none follows. -/
theorem span_append {p : UInt8 → Bool} {s rest : List UInt8} (hs : ∀ c ∈ s, p c = true)
    (hrest : rest.head?.all (!p ·) = true) : (s ++ rest).takeWhile p = s ∧ (s ++ rest).dropWhile p = rest := by
  rw [List.takeWhile_append_of_pos hs, List.dropWhile_append_of_pos hs]
  cases rest with
  | nil => exact ⟨List.append_nil s, rfl⟩
  | cons c rest =>
    have hc : ¬ p c = true := by simpa using hrest
    rw [List.takeWhile_cons_of_neg hc, List.dropWhile_cons_of_neg hc]
    exact ⟨List.append_nil s, rfl⟩

/-! ## Numbers that are printed -/

variable {c : Char}

theorem toNat_ofNat_digit (hc : c.isDigit = true) : (UInt8.ofNat c.toNat).toNat = c.toNat := by
  have hle : c.toNat ≤ 57 := (Char.isDigit_iff_toNat.mp hc).2
  exact Nat.mod_eq_of_lt (by omega)

theorem isdigit_digit (hc : c.isDigit = true) : isdigit (UInt8.ofNat c.toNat) = true := by
  have hdigit := Char.isDigit_iff_toNat.mp hc
  have hval := toNat_ofNat_digit hc
  simp only [isdigit, Bool.and_eq_true, decide_eq_true_eq, UInt8.le_iff_toNat_le, hval]
  exact hdigit

theorem isdigit_decimal {n : Nat} {b : UInt8} (hb : b ∈ decimal n) : isdigit b = true := by
  obtain ⟨c, hc, rfl⟩ := List.mem_map.mp hb
  exact isdigit_digit (Nat.isDigit_of_mem_toDigits (by decide) (Nat.le_refl 10) hc)

theorem decimal_ne_nil (n : Nat) : decimal n ≠ [] := fun h => Nat.toDigits_ne_nil (List.map_eq_nil_iff.mp h)

theorem length_decimal {n k : Nat} (hk : 0 < k) (h : n < 10 ^ k) : (decimal n).length ≤ k := by
  rw [decimal, List.length_map]
  exact (Nat.length_toDigits_le_iff (by decide) hk).mpr h

/-- What is printed is read back. -/
theorem number_decimal (n : Nat) : number 10 (decimal n) = n := by
  have hfold : ∀ (cs : List Char) (k : Nat), (∀ c ∈ cs, c.isDigit = true) →
      (cs.map fun c => UInt8.ofNat c.toNat).foldl (fun n c => n * 10 + digit c) k = Nat.ofDigitChars 10 cs k := by
    intro cs
    induction cs with
    | nil => intro k _; exact Nat.ofDigitChars_nil.symm
    | cons c cs ih =>
      intro k hcs
      have hc := hcs c List.mem_cons_self
      rw [List.map_cons, List.foldl_cons, Nat.ofDigitChars_cons, ih _ fun d hd => hcs d (List.mem_cons_of_mem c hd)]
      rw [digit, toNat_ofNat_digit hc, Nat.mul_comm k 10]
      rfl
  rw [number, decimal, hfold _ 0 fun c hc => Nat.isDigit_of_mem_toDigits (by decide) (Nat.le_refl 10) hc]
  exact Nat.ofDigitChars_ten_toDigits

end Netutils.Libc
