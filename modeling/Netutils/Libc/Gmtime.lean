/-
  Netutils.Libc.Gmtime — the calendar of the C library: seconds since 1970 as a broken-down
  time, and back.

  The order of the fields is the order of the seconds (`later_iff_timegm_lt`). A year is any
  integer here, before 1970 too.
-/

import Mathlib.Algebra.GroupWithZero.Nat
import Mathlib.Data.List.Basic

namespace Netutils.Libc

/-! ## Years and months -/

def isLeap (y : Int) : Bool := y % 4 = 0 && (y % 100 ≠ 0 || y % 400 = 0)

/-- From January on. -/
def monthLengths (y : Int) : List Nat := [31, if isLeap y then 29 else 28, 31, 30, 31, 30, 31, 31, 30, 31, 30, 31]

/-- The days from 1 January of year 1 to 1 January of year `y`. -/
def daysBeforeYear (y : Int) : Int := 365 * (y - 1) + (y - 1) / 4 - (y - 1) / 100 + (y - 1) / 400

/-- The year that a day is in, counted from 1 January of year 1. -/
def yearOfDay (d : Int) : Int :=
  let y := d * 400 / 146097 + 1
  if d < daysBeforeYear y then y - 1 else if d < daysBeforeYear (y + 1) then y else y + 1

/-- The month and the day in it, by the months' lengths. -/
def monthOfDay : List Nat → Nat → Nat × Nat
  | n :: ns, d =>
    if d < n then (0, d)
    else
      let r := monthOfDay ns (d - n)
      (r.1 + 1, r.2)
  | [], d => (0, d)

/-! ## struct tm -/

structure Tm where
  /-- Years since 1900. -/
  tm_year : Int
  /-- Months since January. -/
  tm_mon : Nat
  tm_mday : Nat
  tm_hour : Nat
  tm_min : Nat
  tm_sec : Nat
  deriving DecidableEq

def Tm.year (tm : Tm) : Int := tm.tm_year + 1900

structure Tm.Valid (tm : Tm) : Prop where
  mon : tm.tm_mon < 12
  mday_pos : 1 ≤ tm.tm_mday
  mday_le : tm.tm_mday ≤ (monthLengths tm.year).getD tm.tm_mon 0
  hour : tm.tm_hour < 24
  min : tm.tm_min < 60
  sec : tm.tm_sec < 60

/-- The days from 1 January of year 1 on. -/
def Tm.days (tm : Tm) : Int :=
  daysBeforeYear tm.year + (((monthLengths tm.year).take tm.tm_mon).sum + tm.tm_mday - 1 : Int)

def timegm (tm : Tm) : Int :=
  (tm.days - daysBeforeYear 1970) * 86400 + tm.tm_hour * 3600 + tm.tm_min * 60 + tm.tm_sec

def gmtime (t : Int) : Tm :=
  let d := t / 86400 + daysBeforeYear 1970
  let y := yearOfDay d
  let md := monthOfDay (monthLengths y) (d - daysBeforeYear y).toNat
  let s := (t % 86400).toNat
  { tm_year := y - 1900
    tm_mon := md.1
    tm_mday := md.2 + 1
    tm_hour := s / 3600
    tm_min := s / 60 % 60
    tm_sec := s % 60 }

/-- Field by field. -/
def Later (a b : Tm) : Prop :=
  a.tm_year > b.tm_year ∨ a.tm_year = b.tm_year ∧
    (a.tm_mon > b.tm_mon ∨ a.tm_mon = b.tm_mon ∧
      (a.tm_mday > b.tm_mday ∨ a.tm_mday = b.tm_mday ∧
        (a.tm_hour > b.tm_hour ∨ a.tm_hour = b.tm_hour ∧
          (a.tm_min > b.tm_min ∨ a.tm_min = b.tm_min ∧ a.tm_sec > b.tm_sec))))

instance (a b : Tm) : Decidable (Later a b) := by unfold Later; infer_instance

/-! ## Years -/

variable {a b tm : Tm} {y z d t : Int}

def yearLength (y : Int) : Nat := if isLeap y then 366 else 365

theorem daysBeforeYear_succ (y : Int) : daysBeforeYear (y + 1) = daysBeforeYear y + yearLength y := by
  unfold daysBeforeYear yearLength isLeap
  simp only [Bool.and_eq_true, Bool.or_eq_true, decide_eq_true_eq]
  split <;> omega

theorem sum_monthLengths (y : Int) : (monthLengths y).sum = yearLength y := by
  unfold monthLengths yearLength
  cases isLeap y <;> rfl

theorem daysBeforeYear_mono (h : y ≤ z) : daysBeforeYear y ≤ daysBeforeYear z := by
  unfold daysBeforeYear
  omega

theorem yearOfDay_spec (d : Int) : daysBeforeYear (yearOfDay d) ≤ d ∧ d < daysBeforeYear (yearOfDay d + 1) := by
  unfold yearOfDay
  simp only
  split
  · rename_i h
    unfold daysBeforeYear at h ⊢
    omega
  · rename_i h
    split
    · rename_i h'
      exact ⟨by omega, h'⟩
    · rename_i h'
      refine ⟨by omega, ?_⟩
      unfold daysBeforeYear at h' ⊢
      omega

/-! ## Months -/

theorem monthOfDay_spec {ns : List Nat} {d : Nat} (h : d < ns.sum) :
    (monthOfDay ns d).2 < ns.getD (monthOfDay ns d).1 0 ∧
      (ns.take (monthOfDay ns d).1).sum + (monthOfDay ns d).2 = d := by
  induction ns generalizing d with
  | nil => exact absurd h (Nat.not_lt_zero _)
  | cons n ns ih =>
    rw [List.sum_cons] at h
    unfold monthOfDay
    split
    · rename_i hlt
      exact ⟨hlt, by rw [List.take_zero]; exact Nat.zero_add d⟩
    · obtain ⟨hlt, hsum⟩ := ih (d := d - n) (by omega)
      refine ⟨hlt, ?_⟩
      simp only [List.take_succ_cons, List.sum_cons]
      omega

theorem lt_length_of_lt_getD {ns : List Nat} {i k : Nat} (h : k < ns.getD i 0) : i < ns.length := by
  by_contra hlen
  rw [List.getD_eq_getElem?_getD, List.getElem?_eq_none (Nat.not_lt.mp hlen)] at h
  exact absurd h (Nat.not_lt_zero k)

/-- A later month begins when this one is through. -/
theorem sum_take_lt (ns : List Nat) {i j : Nat} (hij : i < j) (hj : j ≤ ns.length) :
    (ns.take i).sum + ns.getD i 0 ≤ (ns.take j).sum := by
  induction ns generalizing i j with
  | nil => exact absurd (Nat.lt_of_lt_of_le hij hj) (Nat.not_lt_zero i)
  | cons n ns ih =>
    obtain ⟨j, rfl⟩ : ∃ k, j = k + 1 := ⟨j - 1, by omega⟩
    cases i with
    | zero => simp
    | succ i =>
      have hrest := ih (Nat.lt_of_succ_lt_succ hij) (Nat.le_of_succ_le_succ hj)
      simp only [List.take_succ_cons, List.sum_cons, List.getD_cons_succ]
      omega

/-! ## Back and forth -/

theorem gmtime_days (t : Int) :
    (gmtime t).tm_mon < 12 ∧ (gmtime t).tm_mday ≤ (monthLengths (gmtime t).year).getD (gmtime t).tm_mon 0 ∧
      (gmtime t).days = t / 86400 + daysBeforeYear 1970 := by
  obtain ⟨hlo, hhi⟩ := yearOfDay_spec (t / 86400 + daysBeforeYear 1970)
  generalize hd : t / 86400 + daysBeforeYear 1970 = d at hlo hhi
  have hyear : (gmtime t).year = yearOfDay d := by
    simp only [Tm.year, gmtime, hd]
    omega
  have hday : (d - daysBeforeYear (yearOfDay d)).toNat < (monthLengths (yearOfDay d)).sum := by
    rw [daysBeforeYear_succ] at hhi
    rw [sum_monthLengths]
    omega
  obtain ⟨hlt, hsum⟩ := monthOfDay_spec hday
  have hmon : (gmtime t).tm_mon =
      (monthOfDay (monthLengths (yearOfDay d)) (d - daysBeforeYear (yearOfDay d)).toNat).1 := by
    simp only [gmtime, hd]
  have hmday : (gmtime t).tm_mday =
      (monthOfDay (monthLengths (yearOfDay d)) (d - daysBeforeYear (yearOfDay d)).toNat).2 + 1 := by
    simp only [gmtime, hd]
  rw [Tm.days, hyear, hmon, hmday]
  exact ⟨lt_length_of_lt_getD hlt, hlt, by omega⟩

theorem gmtime_valid (t : Int) : (gmtime t).Valid := by
  obtain ⟨hmon, hmday, -⟩ := gmtime_days t
  have hsec : (t % 86400).toNat < 86400 := by omega
  exact {
    mon := hmon
    mday_pos := Nat.succ_pos _
    mday_le := hmday
    hour := by simp only [gmtime]; omega
    min := Nat.mod_lt _ (by decide)
    sec := Nat.mod_lt _ (by decide) }

theorem timegm_gmtime (t : Int) : timegm (gmtime t) = t := by
  obtain ⟨-, -, hdays⟩ := gmtime_days t
  rw [timegm, hdays]
  simp only [gmtime]
  omega

-- 2000-02-29 12:34:56, and the last second of 1969
example : gmtime 951827696 = ⟨100, 1, 29, 12, 34, 56⟩ := by decide
example : gmtime (-1) = ⟨69, 11, 31, 23, 59, 59⟩ := by decide

/-! ## The order of times -/

theorem Tm.Valid.day_le (h : tm.Valid) :
    ((monthLengths tm.year).take tm.tm_mon).sum + tm.tm_mday ≤ yearLength tm.year := by
  have hmonth := sum_take_lt (monthLengths tm.year) h.mon (Nat.le_refl _)
  have hall : (monthLengths tm.year).take 12 = monthLengths tm.year := rfl
  have hmday := h.mday_le
  rw [hall, sum_monthLengths] at hmonth
  omega

theorem days_lt_of_year (ha : a.Valid) (hb : b.Valid) (h : b.year < a.year) : b.days < a.days := by
  have hyear := daysBeforeYear_mono (show b.year + 1 ≤ a.year by omega)
  have hday := hb.day_le
  have hpos := ha.mday_pos
  rw [daysBeforeYear_succ] at hyear
  unfold Tm.days
  omega

theorem days_lt_of_mon (ha : a.Valid) (hb : b.Valid) (hyear : a.year = b.year) (h : b.tm_mon < a.tm_mon) :
    b.days < a.days := by
  have hmonth := sum_take_lt (monthLengths b.year) h (Nat.le_of_lt ha.mon)
  have hmday := hb.mday_le
  have hpos := ha.mday_pos
  unfold Tm.days
  rw [hyear]
  omega

/-- The fields below the day are less than a day. -/
theorem timegm_lt_of_days (hb : b.Valid) (h : b.days < a.days) : timegm b < timegm a := by
  have hhour := hb.hour
  have hmin := hb.min
  have hsec := hb.sec
  unfold timegm
  omega

theorem timegm_lt_of_later (ha : a.Valid) (hb : b.Valid) (h : Later a b) : timegm b < timegm a := by
  have hmin := hb.min
  have hsec := hb.sec
  rcases h with h | ⟨hy, h | ⟨hm, h | ⟨hd, h⟩⟩⟩
  · apply timegm_lt_of_days hb
    exact days_lt_of_year ha hb (by unfold Tm.year; omega)
  · apply timegm_lt_of_days hb
    exact days_lt_of_mon ha hb (by unfold Tm.year; omega) h
  · apply timegm_lt_of_days hb
    unfold Tm.days Tm.year
    rw [hy, hm]
    omega
  · have hdays : a.days = b.days := by
      unfold Tm.days Tm.year
      rw [hy, hm, hd]
    unfold timegm
    rw [hdays]
    omega

theorem later_or_eq_or_later (a b : Tm) : Later a b ∨ a = b ∨ Later b a := by
  obtain ⟨y, m, d, h, n, s⟩ := a
  obtain ⟨y', m', d', h', n', s'⟩ := b
  simp only [Later, Tm.mk.injEq]
  omega

/-- The time with the later fields is the later time. -/
theorem later_iff_timegm_lt (ha : a.Valid) (hb : b.Valid) : Later a b ↔ timegm b < timegm a := by
  constructor
  · exact timegm_lt_of_later ha hb
  · intro hlt
    rcases later_or_eq_or_later a b with h | rfl | h
    · exact h
    · exact absurd hlt (Int.lt_irrefl _)
    · have := timegm_lt_of_later hb ha h
      omega

end Netutils.Libc
