/-
  Netutils.Ftp.Newer — newer and reget: what getit does before the transfer (ftp/cmds.c).

  newer asks for the time of the remote file and compares it field by field with the local
  one. Only the month is compared under the condition that the year is the same; each
  field below is, when only the next field above it is (`newer_iff`).
-/

import Mathlib.Data.List.TakeWhile
import Netutils.Libc.Ctype
import Netutils.Libc.Gmtime

namespace Netutils.Ftp.Newer

open Netutils.Libc

/-! ## sscanf -/

/-- `%*s` -/
def skipWord (s : List UInt8) : List UInt8 := (s.dropWhile isspace).dropWhile fun c => !isspace c

/-- `%4d`, `%2d` and so on, and a blank in front of it. -/
def scanInt (width : Nat) (s : List UInt8) : Option (Int × List UInt8) :=
  let s := s.dropWhile isspace
  let minus := s.head? = some 0x2d
  let signed := minus ∨ s.head? = some 0x2b
  let width := if signed then width - 1 else width
  let s := if signed then s.tail else s
  let ds := (s.take width).takeWhile isdigit
  if ds = [] then none else some (if minus then -(number 10 ds : Int) else number 10 ds, s.drop ds.length)

/-- Up to the first that is no number. -/
def scanInts : List Nat → List UInt8 → List Int
  | [], _ => []
  | width :: widths, s =>
    match scanInt width s with
    | none => []
    | some (n, s) => n :: scanInts widths s

/-- `yy`, `mo`, `day`, `hour`, `min` and `sec`. -/
structure Fields where
  yy : Int
  mo : Int
  day : Int
  hour : Int
  min : Int
  sec : Int
  deriving DecidableEq

/-- `sscanf (reply_string, "%*s %04d%02d%02d%02d%02d%02d", ...)`; the variables have not been
    set before. -/
def scanFields (unset : Fields) (reply_string : List UInt8) : Fields :=
  let ns := scanInts [4, 2, 2, 2, 2, 2] (skipWord reply_string)
  { yy := ns.getD 0 unset.yy
    mo := ns.getD 1 unset.mo
    day := ns.getD 2 unset.day
    hour := ns.getD 3 unset.hour
    min := ns.getD 4 unset.min
    sec := ns.getD 5 unset.sec }

/-! ## getit -/

structure Stat where
  st_size : Int
  st_mtime : Int

/-- What getit finds. -/
structure World where
  /-- `stat (local, &stbuf)`; none if it fails. -/
  stat : Option Stat
  /-- What `command ("MDTM %s", argv[1])` returns, and the reply. -/
  mdtm : Int
  reply_string : List UInt8
  /-- The variables of the stack. -/
  unset : Fields

def COMPLETE : Int := 2

inductive Got where
  /-- recvrequest, from this restart_point on. -/
  | fetched (restart_point : Int)
  /-- `return (1)` -/
  | skipped
  /-- `return (0)` behind a message. -/
  | failed
  deriving DecidableEq

/-- The comparisons, after `tm->tm_mon++`. -/
def isLater (tm : Tm) (f : Fields) : Bool :=
  let tm_mon : Int := tm.tm_mon + 1
  if tm.tm_year + 1900 > f.yy then true
  else
    (tm.tm_year + 1900 = f.yy && tm_mon > f.mo) || (tm_mon = f.mo && tm.tm_mday > f.day) ||
      (tm.tm_mday = f.day && tm.tm_hour > f.hour) || (tm.tm_hour = f.hour && tm.tm_min > f.min) ||
      (tm.tm_min = f.min && tm.tm_sec > f.sec)

/-- getit with a name for the local file; restart_point is 0 before. -/
def getit (w : World) (restartit : Int) : Got :=
  if restartit = 0 then .fetched 0
  else if restartit = 1 then
    match w.stat with
    | none => .failed
    | some st => .fetched st.st_size
  else
    match w.stat with
    | none => .fetched 0
    | some st =>
      if w.mdtm = COMPLETE then
        if isLater (gmtime st.st_mtime) (scanFields w.unset w.reply_string) then .skipped else .fetched 0
      else .failed

/-! ## Replies to MDTM -/

/-- A number of `k` digits. -/
structure Field (k : Nat) where
  digits : List UInt8
  length : digits.length = k
  isdigits : ∀ c ∈ digits, isdigit c = true

def Field.val {k : Nat} (f : Field k) : Nat := number 10 f.digits

/-- `213 YYYYMMDDhhmmss` -/
structure Mdtm where
  year : Field 4
  mon : Field 2
  day : Field 2
  hour : Field 2
  min : Field 2
  sec : Field 2

/-- The reply, and what may stand behind the time. -/
def Mdtm.text (m : Mdtm) (rest : List UInt8) : List UInt8 :=
  Libc.text "213 " ++ (m.year.digits ++ (m.mon.digits ++ (m.day.digits ++ (m.hour.digits ++ (m.min.digits ++
    (m.sec.digits ++ rest))))))

def Mdtm.fields (m : Mdtm) : Fields := ⟨m.year.val, m.mon.val, m.day.val, m.hour.val, m.min.val, m.sec.val⟩

/-- The time in the reply. -/
def Mdtm.tm (m : Mdtm) : Tm :=
  { tm_year := (m.year.val : Int) - 1900
    tm_mon := m.mon.val - 1
    tm_mday := m.day.val
    tm_hour := m.hour.val
    tm_min := m.min.val
    tm_sec := m.sec.val }

/-- No field below the month is the larger one where the field above it is the same. -/
def NoneLarger (a b : Tm) : Prop :=
  ¬ (a.tm_mon = b.tm_mon ∧ a.tm_mday > b.tm_mday) ∧ ¬ (a.tm_mday = b.tm_mday ∧ a.tm_hour > b.tm_hour) ∧
    ¬ (a.tm_hour = b.tm_hour ∧ a.tm_min > b.tm_min) ∧ ¬ (a.tm_min = b.tm_min ∧ a.tm_sec > b.tm_sec)

/-! ## The fields are read -/

variable {k : Nat} {rest : List UInt8}

theorem isspace_of_isdigit {c : UInt8} (hc : isdigit c = true) : isspace c = false ∧ c ≠ 0x2d ∧ c ≠ 0x2b := by
  revert hc
  simp only [isdigit, isspace, Bool.and_eq_true, decide_eq_true_eq, Bool.or_eq_false_iff, Bool.and_eq_false_iff,
    decide_eq_false_iff_not, beq_eq_false_iff_ne]
  grind

theorem scanInt_field (f : Field (k + 1)) : scanInt (k + 1) (f.digits ++ rest) = some ((f.val : Int), rest) := by
  obtain ⟨ds, hlen, hds⟩ := f
  obtain ⟨d, ds, rfl⟩ := List.exists_cons_of_length_eq_add_one hlen
  obtain ⟨hspace, hminus, hplus⟩ := isspace_of_isdigit (hds d List.mem_cons_self)
  have hdrop : (d :: ds ++ rest).dropWhile isspace = d :: ds ++ rest :=
    List.dropWhile_cons_of_neg (by rw [hspace]; decide)
  have hhead : (d :: ds ++ rest).head? = some d := rfl
  have htake : ((d :: ds ++ rest).take (k + 1)).takeWhile isdigit = d :: ds := by
    rw [← hlen, List.take_left, List.takeWhile_eq_self_iff]
    exact hds
  rw [scanInt, hdrop]
  simp only [hhead, Option.some.injEq, hminus, hplus, or_self, if_false, htake, reduceCtorEq, List.drop_left]
  rfl

theorem scanInts_field {widths : List Nat} (f : Field (k + 1)) :
    scanInts ((k + 1) :: widths) (f.digits ++ rest) = (f.val : Int) :: scanInts widths rest := by
  rw [scanInts, scanInt_field]

theorem scanFields_text (unset : Fields) (m : Mdtm) : scanFields unset (m.text rest) = m.fields := by
  have hskip : skipWord (m.text rest) = 0x20 :: (m.text rest).drop 4 := rfl
  have hblank : ∀ s, scanInts [4, 2, 2, 2, 2, 2] (0x20 :: s) = scanInts [4, 2, 2, 2, 2, 2] s := fun _ => rfl
  have hdrop : (m.text rest).drop 4 = m.year.digits ++ (m.mon.digits ++ (m.day.digits ++ (m.hour.digits ++
      (m.min.digits ++ (m.sec.digits ++ rest))))) := rfl
  rw [scanFields, hskip, hblank, hdrop]
  simp only [scanInts_field]
  rfl

/-! ## The comparison -/

variable {a : Tm}

theorem isLater_eq_true (f : Fields) :
    isLater a f = true ↔ a.tm_year + 1900 > f.yy ∨ (a.tm_year + 1900 = f.yy ∧ (a.tm_mon : Int) + 1 > f.mo) ∨
      ((a.tm_mon : Int) + 1 = f.mo ∧ a.tm_mday > f.day) ∨ (a.tm_mday = f.day ∧ a.tm_hour > f.hour) ∨
      (a.tm_hour = f.hour ∧ a.tm_min > f.min) ∨ (a.tm_min = f.min ∧ a.tm_sec > f.sec) := by
  rw [isLater]
  by_cases hyear : a.tm_year + 1900 > f.yy
  · rw [if_pos hyear]
    exact ⟨fun _ => Or.inl hyear, fun _ => rfl⟩
  · rw [if_neg hyear]
    simp only [Bool.or_eq_true, Bool.and_eq_true, decide_eq_true_eq, hyear, false_or, or_assoc]

/-- The tests in terms of the two times; the reply's month is no 0. -/
theorem isLater_iff (m : Mdtm) (hmon : 1 ≤ m.mon.val) :
    isLater a m.fields = true ↔ Later a m.tm ∨ ¬ NoneLarger a m.tm := by
  have hyear : ∀ y : Int, (a.tm_year + 1900 > y ↔ a.tm_year > y - 1900) ∧ (a.tm_year + 1900 = y ↔ a.tm_year = y - 1900) :=
    fun y => ⟨by omega, by omega⟩
  have hmon : ((a.tm_mon : Int) + 1 > m.mon.val ↔ a.tm_mon > m.mon.val - 1) ∧
      ((a.tm_mon : Int) + 1 = m.mon.val ↔ a.tm_mon = m.mon.val - 1) := ⟨by omega, by omega⟩
  rw [isLater_eq_true]
  simp only [Mdtm.fields, Mdtm.tm, Later, NoneLarger, (hyear _).1, (hyear _).2, hmon.1, hmon.2, gt_iff_lt, Int.ofNat_lt,
    Int.natCast_inj]
  constructor
  · rintro (h | h | h | h | h | h)
    · exact Or.inl (Or.inl h)
    · exact Or.inl (Or.inr ⟨h.1, Or.inl h.2⟩)
    · exact Or.inr fun hnone => hnone.1 h
    · exact Or.inr fun hnone => hnone.2.1 h
    · exact Or.inr fun hnone => hnone.2.2.1 h
    · exact Or.inr fun hnone => hnone.2.2.2 h
  · rintro (hlater | hnot)
    · rcases hlater with h | ⟨hy, h | ⟨hm, h | ⟨hd, h | ⟨hh, h | h⟩⟩⟩⟩
      · exact Or.inl h
      · exact Or.inr (Or.inl ⟨hy, h⟩)
      · exact Or.inr (Or.inr (Or.inl ⟨hm, h⟩))
      · exact Or.inr (Or.inr (Or.inr (Or.inl ⟨hd, h⟩)))
      · exact Or.inr (Or.inr (Or.inr (Or.inr (Or.inl ⟨hh, h⟩))))
      · exact Or.inr (Or.inr (Or.inr (Or.inr (Or.inr h))))
    · by_contra hno
      rw [not_or, not_or, not_or, not_or, not_or] at hno
      exact hnot hno.2.2

/-- The transfer is skipped for a later local file and for no other, just where the local
    time is the later one, or none of its fields below the month is the larger where the field
    above it is the same. Field by field the later time is the later one in seconds. -/
theorem newer_iff (w : World) (st : Stat) (m : Mdtm) (rest : List UInt8) (restartit : Int) (h0 : restartit ≠ 0)
    (h1 : restartit ≠ 1) (hstat : w.stat = some st) (hmdtm : w.mdtm = COMPLETE) (hreply : w.reply_string = m.text rest)
    (hmon : 1 ≤ m.mon.val) :
    ((getit w restartit = .skipped ↔ Later (gmtime st.st_mtime) m.tm) ↔
        Later (gmtime st.st_mtime) m.tm ∨ NoneLarger (gmtime st.st_mtime) m.tm) ∧
      (m.tm.Valid → (Later (gmtime st.st_mtime) m.tm ↔ timegm m.tm < st.st_mtime)) := by
  have hgetit : getit w restartit = .skipped ↔ isLater (gmtime st.st_mtime) m.fields = true := by
    rw [getit, if_neg h0, if_neg h1, hstat, hreply]
    simp only [if_pos hmdtm, scanFields_text]
    split <;> simp [*]
  constructor
  · rw [hgetit, isLater_iff m hmon]
    by_cases hlater : Later (gmtime st.st_mtime) m.tm
    · simp only [hlater, true_or]
    · simp only [hlater, false_or, iff_false, not_not]
  · intro hvalid
    rw [later_iff_timegm_lt (gmtime_valid _) hvalid, timegm_gmtime]

/-- 2001-01-10 00:00:00 -/
def january2001 : Mdtm where
  year := ⟨[0x32, 0x30, 0x30, 0x31], rfl, List.all_eq_true.mp rfl⟩
  mon := ⟨[0x30, 0x31], rfl, List.all_eq_true.mp rfl⟩
  day := ⟨[0x31, 0x30], rfl, List.all_eq_true.mp rfl⟩
  hour := ⟨[0x30, 0x30], rfl, List.all_eq_true.mp rfl⟩
  min := ⟨[0x30, 0x30], rfl, List.all_eq_true.mp rfl⟩
  sec := ⟨[0x30, 0x30], rfl, List.all_eq_true.mp rfl⟩

/-- A local file of this time, where the remote one is of 2001-01-10. -/
def localFile (st_mtime : Int) : World where
  stat := some ⟨0, st_mtime⟩
  mdtm := COMPLETE
  reply_string := january2001.text []
  unset := ⟨0, 0, 0, 0, 0, 0⟩

/-- A second later. -/
theorem newer_a_second : getit (localFile 979084801) (-1) = .skipped ↔ Later (gmtime 979084801) january2001.tm := by
  have hiff := newer_iff (localFile 979084801) ⟨0, 979084801⟩ january2001 [] (-1) (by decide) (by decide) rfl rfl rfl
    (by decide)
  exact hiff.1.mpr (Or.inl (by decide))

/-- A file of 2000-01-15 is not later, but its day is larger, in the same month of the other
    year. -/
theorem an_older_file_is_kept :
    getit (localFile 947894400) (-1) = .skipped ∧ ¬ Later (gmtime 947894400) january2001.tm ∧
      ¬ timegm january2001.tm < 947894400 := by
  decide

end Netutils.Ftp.Newer
