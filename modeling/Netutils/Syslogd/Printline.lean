/-
  Netutils.Syslogd.Printline — printline of syslogd (syslogd/syslogd.c): how a received line
  becomes a message, its control characters made visible.

  The copy loop has room for one more byte whenever it looks, but a control character takes
  two; and with -S a line is logged a second time. So a line is logged once, whole and in
  bounds exactly where -S is off and no control character straddles the end of the buffer
  (`printline_iff`).
-/

import Mathlib.Data.List.TakeWhile
import Netutils.Syslogd.Cfline

namespace Netutils.Syslogd

open Netutils.Arpa Netutils.Libc

/-! ## Calls of logmsg -/

/-- A call of logmsg, with its flags. -/
structure Sent where
  pri : Nat
  msg : Str
  SYNC_FILE : Bool := false
  ADDDATE : Bool := false
  IGN_CONS : Bool := false
  deriving DecidableEq

/-- The call, when and from where it is made. -/
def Sent.call (s : Sent) (now : Int) (host : Str) : Call :=
  { now, pri := s.pri, msg := s.msg, host, flags := { ADDDATE := s.ADDDATE } }

/-! ## The priority -/

def less : UInt8 := 0x3c
def greater : UInt8 := 0x3e

def DEFUPRI : Nat := LOG_USER ||| LOG_NOTICE

/-- `pri = 10 * pri + (*p - '0')`, in an int. -/
def addDigit (pri : UInt32) (c : UInt8) : UInt32 := 10 * pri + (c.toUInt32 - 0x30)

/-- The number in front of a text, if there is one. -/
def priNumber (p : Str) : Option UInt32 :=
  if p.head? = some less then some ((p.tail.takeWhile isdigit).foldl addDigit 0) else none

/-- What is behind it. -/
def afterPri (p : Str) : Str :=
  if p.head? = some less then
    let p := p.tail.dropWhile isdigit
    if p.head? = some greater then p.tail else p
  else p

/-- `if (pri & ~(LOG_FACMASK | LOG_PRIMASK))` -/
def orDefault (default : Nat) (pri : UInt32) : Nat :=
  if pri &&& ~~~UInt32.ofNat (LOG_FACMASK ||| LOG_PRIMASK) ≠ 0 then default else pri.toNat

def priority (default : Nat) (p : Str) : Nat := ((priNumber p).map (orDefault default)).getD default

/-- The number, modulo the size of an int. -/
def numberOf (p : Str) : Option Nat :=
  if p.head? = some less then some (number 10 (p.tail.takeWhile isdigit) % 2 ^ 32) else none

/-- A number in front has a facility that there is a mask for, or counts as none. -/
def Listed (p : Str) : Prop := ∀ n ∈ numberOf p, n < 8 * (LOG_NFACILITIES + 1) ∨ LOG_FACMASK ||| LOG_PRIMASK < n

instance (p : Str) : Decidable (Listed p) :=
  match h : numberOf p with
  | none => .isTrue (by intro n hn; rw [h] at hn; cases hn)
  | some k =>
    decidable_of_iff (k < 8 * (LOG_NFACILITIES + 1) ∨ LOG_FACMASK ||| LOG_PRIMASK < k)
      ⟨fun hk n hn => Option.some.inj (h.symm.trans hn) ▸ hk, fun hall => hall k h⟩

/-! ## The copy -/

/-- iscntrl, in the C locale -/
def iscntrl (c : UInt8) : Bool := c < 0x20 || c == 0x7f

def caret : UInt8 := 0x5e

/-- What is stored for a character. A byte from 0200 on is negative, and no control character. -/
def encodeChar (c : UInt8) : Str :=
  if iscntrl c then
    if c = LF then [space]
    else if c = tab then [tab]
    else if 0x7f ≤ c then [c]
    else [caret, c ^^^ 0x40]
  else [c]

/-- The copy loop, from `&line[q]` on: what it stores. -/
def copyLine (q : Nat) : Str → Str
  | [] => []
  | c :: p => if q < MAXLINE then encodeChar c ++ copyLine (q + (encodeChar c).length) p else []

structure Printed where
  line : Str
  /-- As many bytes of line are stored to, with the terminator. -/
  stores : Nat
  calls : List Sent

/-- printline; `msg` is the line that has come in. -/
def printline (force_sync : Bool) (msg : Str) : Printed :=
  let pri := priority DEFUPRI msg
  -- don't allow users to log kernel messages
  let pri := if LOG_FAC pri = LOG_KERN then LOG_MAKEPRI LOG_USER (LOG_PRI pri) else pri
  let line := copyLine 0 (afterPri msg)
  ⟨line, line.length + 1, (if force_sync then [{ pri, msg := line, SYNC_FILE := true }] else []) ++ [{ pri, msg := line }]⟩

/-! ## What it is for -/

def encode (t : Str) : Str := t.flatMap encodeChar

/-- A character that a logged line may have. -/
def isClean (c : UInt8) : Bool := !iscntrl c || c == tab || 0x7f ≤ c

/-- In bounds, without control characters, cut only where it does not fit, and logged once. -/
structure Printed.Sanitises (r : Printed) (t : Str) : Prop where
  inside : r.stores ≤ MAXLINE + 1
  clean : ∀ c ∈ r.line, isClean c = true
  cut : r.line <+: encode t
  whole : (encode t).length ≤ MAXLINE → r.line = encode t
  once : r.calls.map Sent.msg = [r.line]

/-- A character that takes two bytes has only the last one of the buffer left. -/
def Straddles (t : Str) : Prop :=
  ∃ a c b, t = a ++ c :: b ∧ (encode a).length + 1 = MAXLINE ∧ (encodeChar c).length = 2

/-! ## The priority -/

theorem addDigit_toNat {pri : UInt32} {c : UInt8} {n : Nat} (hpri : pri.toNat = n % 2 ^ 32) (hc : isdigit c = true) :
    (addDigit pri c).toNat = (n * 10 + digit c) % 2 ^ 32 := by
  simp only [isdigit, Bool.and_eq_true, decide_eq_true_eq, UInt8.le_iff_toNat_le] at hc
  have hlow : 0x30 ≤ c.toNat := hc.1
  have hsub : (c.toUInt32 - 0x30).toNat = digit c := by
    rw [UInt32.toNat_sub_of_le _ _ (UInt32.le_iff_toNat_le.mpr (by simpa using hlow)), UInt8.toNat_toUInt32]
    rfl
  rw [addDigit, UInt32.toNat_add, UInt32.toNat_mul, hsub, hpri, show (10 : UInt32).toNat = 10 from rfl]
  omega

/-- The int wraps around. -/
theorem foldl_addDigit (ds : Str) (hds : ∀ c ∈ ds, isdigit c = true) :
    (ds.foldl addDigit 0).toNat = number 10 ds % 2 ^ 32 := by
  have hfold : ∀ (ds : Str) (pri : UInt32) (n : Nat), (∀ c ∈ ds, isdigit c = true) → pri.toNat = n % 2 ^ 32 →
      (ds.foldl addDigit pri).toNat = ds.foldl (fun n c => n * 10 + digit c) n % 2 ^ 32 := by
    intro ds
    induction ds with
    | nil => exact fun _ _ _ h => h
    | cons c ds ih =>
      intro pri n hds hpri
      exact ih _ _ (fun d hd => hds d (List.mem_cons_of_mem c hd)) (addDigit_toNat hpri (hds c List.mem_cons_self))
  exact hfold ds 0 0 hds rfl

theorem masked_iff (x : UInt32) : x &&& ~~~UInt32.ofNat (LOG_FACMASK ||| LOG_PRIMASK) ≠ 0 ↔ 0x400 ≤ x.toNat := by
  have hm : (~~~UInt32.ofNat (LOG_FACMASK ||| LOG_PRIMASK)).toNat = (2 ^ 22 - 1) <<< 10 := by decide
  rw [ne_eq, ← UInt32.toNat_inj, UInt32.toNat_and, hm, ← Nat.not_lt, not_iff_not]
  constructor
  · intro h
    have hs : (x.toNat &&& ((2 ^ 22 - 1) <<< 10)) >>> 10 = 0 := by rw [h]; rfl
    rw [Nat.shiftRight_and_distrib, Nat.shiftLeft_shiftRight, Nat.and_two_pow_sub_one_eq_mod, Nat.shiftRight_eq_div_pow] at hs
    have := x.toNat_lt
    omega
  · intro h
    apply Nat.eq_of_testBit_eq
    intro i
    rw [Nat.testBit_and, Nat.testBit_shiftLeft]
    by_cases hi : 10 ≤ i
    · rw [Nat.testBit_lt_two_pow (Nat.lt_of_lt_of_le h (Nat.pow_le_pow_right Nat.two_pos hi))]
      exact (Nat.zero_testBit i).symm
    · simp [hi]

theorem priNumber_eq (p : Str) : (priNumber p).map UInt32.toNat = numberOf p := by
  unfold priNumber numberOf
  split
  · exact congrArg some (foldl_addDigit _ fun _ hc => List.mem_takeWhile_imp hc)
  · rfl

/-- Behind the mask there is a facility for every number that is not listed. -/
theorem LOG_FAC_priority {default : Nat} (hdefault : LOG_FAC default ≤ LOG_NFACILITIES) (p : Str) :
    LOG_FAC (priority default p) ≤ LOG_NFACILITIES ↔ Listed p := by
  rw [Listed, ← priNumber_eq, priority]
  cases priNumber p with
  | none => exact iff_of_true hdefault (by intro n hn; cases hn)
  | some v =>
    rw [Option.map_some, Option.getD_some, Option.map_some]
    have hall : (∀ n ∈ some v.toNat, n < 8 * (LOG_NFACILITIES + 1) ∨ LOG_FACMASK ||| LOG_PRIMASK < n) ↔
        v.toNat < 200 ∨ 0x3ff < v.toNat := ⟨fun h => h _ rfl, fun h n hn => Option.some.inj hn ▸ h⟩
    rw [hall, orDefault]
    by_cases hv : 0x400 ≤ v.toNat
    · rw [if_pos ((masked_iff v).mpr hv)]
      exact iff_of_true hdefault (Or.inr hv)
    · rw [if_neg ((masked_iff v).not.mpr hv), LOG_FAC, LOG_NFACILITIES]
      omega

/-- What printline makes of the priority. -/
def userPri (pri : Nat) : Nat := if LOG_FAC pri = LOG_KERN then LOG_MAKEPRI LOG_USER (LOG_PRI pri) else pri

theorem LOG_FAC_user (pri : Nat) : LOG_FAC (LOG_MAKEPRI LOG_USER (LOG_PRI pri)) = 1 := by
  have hall : ∀ r < 8, LOG_FAC (LOG_MAKEPRI LOG_USER r) = 1 := by decide
  exact hall _ (Nat.mod_lt _ (by decide))

theorem LOG_FAC_userPri (pri : Nat) :
    LOG_FAC (userPri pri) ≠ LOG_KERN ∧ (LOG_FAC (userPri pri) ≤ LOG_NFACILITIES ↔ LOG_FAC pri ≤ LOG_NFACILITIES) := by
  unfold userPri
  split
  · rename_i hkern
    rw [LOG_FAC_user, hkern]
    decide
  · rename_i hkern
    exact ⟨hkern, Iff.rfl⟩

theorem printline_pri (force_sync : Bool) (msg : Str) :
    ∀ s ∈ (printline force_sync msg).calls, s.pri = userPri (priority DEFUPRI msg) := by
  intro s hs
  cases force_sync <;> simp only [printline, Bool.false_eq_true, if_false, if_true, List.nil_append, List.cons_append,
    List.mem_cons, List.not_mem_nil, or_false] at hs
  · rw [hs]
    rfl
  · rcases hs with rfl | rfl <;> rfl

/-! ## The copy -/

theorem length_encodeChar (c : UInt8) : (encodeChar c).length = 1 ∨ (encodeChar c).length = 2 := by
  unfold encodeChar
  repeat' split
  all_goals simp

theorem isClean_encodeChar {c d : UInt8} (hd : d ∈ encodeChar c) : isClean d = true := by
  by_cases hc : iscntrl c = true
  · have hlow : c.toNat < 0x20 ∨ c = 0x7f := by
      simp only [iscntrl, Bool.or_eq_true, decide_eq_true_eq, beq_iff_eq] at hc
      exact hc.imp_left UInt8.lt_iff_toNat_lt.mp
    rcases hlow with hlow | rfl
    · have hall : ∀ n < 0x20, (encodeChar (UInt8.ofNat n)).all isClean = true := by decide
      rw [← UInt8.ofNat_toNat (x := c)] at hd
      exact List.all_eq_true.mp (hall _ hlow) d hd
    · rw [List.mem_singleton.mp hd]
      decide
  · rw [encodeChar, if_neg hc] at hd
    rw [List.mem_singleton.mp hd, isClean, Bool.eq_false_iff.mpr hc]
    rfl

theorem encode_append (a b : Str) : encode (a ++ b) = encode a ++ encode b := List.flatMap_append

theorem encode_cons (c : UInt8) (t : Str) : encode (c :: t) = encodeChar c ++ encode t := rfl

theorem isClean_encode {t : Str} {d : UInt8} (hd : d ∈ encode t) : isClean d = true := by
  obtain ⟨c, -, hc⟩ := List.mem_flatMap.mp hd
  exact isClean_encodeChar hc

/-- The loop stores characters as long as there is room for a byte. -/
structure Copies (q : Nat) (t a b : Str) : Prop where
  text : t = a ++ b
  stored : copyLine q t = encode a
  full : b ≠ [] → MAXLINE ≤ q + (encode a).length
  room : ∀ a' c, a = a' ++ [c] → q + (encode a').length < MAXLINE

theorem copyLine_copies (t : Str) (q : Nat) : ∃ a b, Copies q t a b := by
  induction t generalizing q with
  | nil => exact ⟨[], [], rfl, rfl, fun h => absurd rfl h, fun a' c h => absurd h (by simp)⟩
  | cons c t ih =>
    by_cases hq : q < MAXLINE
    · obtain ⟨a, b, htext, hstored, hfull, hroom⟩ := ih (q + (encodeChar c).length)
      refine ⟨c :: a, b, by rw [htext]; rfl, by rw [copyLine, if_pos hq, hstored]; rfl, fun hb => ?_, fun a' d ha => ?_⟩
      · have hlen := hfull hb
        rw [encode_cons, List.length_append]
        omega
      · cases a' with
        | nil => exact hq
        | cons e a' =>
          obtain ⟨rfl, hrest⟩ := List.cons.inj ha
          have hlen := hroom a' d hrest
          rw [encode_cons, List.length_append]
          omega
    · exact ⟨[], c :: t, rfl, by rw [copyLine, if_neg hq]; rfl,
        fun _ => Nat.le_trans (Nat.not_lt.mp hq) (Nat.le_add_right _ _), fun a' d h => absurd h (by simp)⟩

/-- The last character stored may take one byte too many. -/
theorem Copies.inside_iff {t a b : Str} (h : Copies 0 t a b) : (encode a).length ≤ MAXLINE ↔ ¬ Straddles t := by
  constructor
  · intro hin ⟨a₁, c, b₁, ht, hlen, htwo⟩
    rcases List.append_eq_append_iff.mp (h.text.symm.trans ht) with ⟨d, rfl, hb⟩ | ⟨d, rfl, hb⟩
    · -- the loop has not come to it
      have hfull := h.full (by rw [hb]; simp)
      rw [encode_append, List.length_append] at hlen
      omega
    · cases d with
      | nil =>
        have hfull := h.full (by rw [List.nil_append] at hb; rw [← hb]; exact List.cons_ne_nil _ _)
        rw [List.append_nil] at hfull
        omega
      | cons e d =>
        obtain ⟨rfl, -⟩ := List.cons.inj hb
        rw [encode_append, encode_cons, List.length_append, List.length_append] at hin
        omega
  · intro hno
    by_contra hlen
    rcases List.eq_nil_or_concat' a with rfl | ⟨a', c, rfl⟩
    · exact hlen (Nat.zero_le _)
    · have hroom := h.room a' c rfl
      rw [encode_append, List.length_append, encode_cons, List.length_append] at hlen
      have hnil : (encode []).length = 0 := rfl
      have hc := length_encodeChar c
      exact hno ⟨a', c, b, by rw [h.text, List.append_assoc]; rfl, by omega, by omega⟩

/-- What fits is stored. -/
theorem Copies.whole {t a b : Str} (h : Copies 0 t a b) (hfit : (encode t).length ≤ MAXLINE) : encode a = encode t := by
  cases b with
  | nil => rw [h.text, List.append_nil]
  | cons c b =>
    have hfull := h.full (List.cons_ne_nil c b)
    have hc := length_encodeChar c
    rw [h.text, encode_append, encode_cons, List.length_append, List.length_append] at hfit
    omega

/-- A received line is logged as it should exactly where -S is off and no control character
    straddles the end of the buffer. -/
theorem printline_iff (force_sync : Bool) (msg : Str) :
    (printline force_sync msg).Sanitises (afterPri msg) ↔ force_sync = false ∧ ¬ Straddles (afterPri msg) := by
  obtain ⟨a, b, h⟩ := copyLine_copies (afterPri msg) 0
  have hline : (printline force_sync msg).line = encode a := h.stored
  have hstores : (printline force_sync msg).stores = (encode a).length + 1 := by rw [← hline]; rfl
  constructor
  · intro hs
    have hinside := hs.inside
    refine ⟨?_, h.inside_iff.mp (by omega)⟩
    cases force_sync with
    | false => rfl
    | true => exact absurd hs.once (by simp [printline])
  · intro h
    obtain ⟨rfl, hno⟩ := h
    have hin := h.inside_iff.mpr hno
    refine ⟨by omega, ?_, ?_, ?_, rfl⟩
    · rw [hline]
      exact fun c hc => isClean_encode hc
    · rw [hline, h.text, encode_append]
      exact List.prefix_append _ _
    · rw [hline]
      exact h.whole

/-- A datagram as long as syslogd receives, with a control character at its end. -/
def straddling : Str := List.replicate (MAXLINE - 1) 0x61 ++ [0x01]

theorem straddling_stores : (printline false straddling).stores = MAXLINE + 2 := by decide +kernel

/-- One overruns line, and with -S any is logged twice. -/
theorem straddling_overruns : ¬ (printline false straddling).Sanitises (afterPri straddling) ∧
    ¬ (printline true (text "x")).Sanitises (text "x") := by
  constructor
  · intro h
    have hinside := h.inside
    rw [straddling_stores] at hinside
    omega
  · intro h
    exact absurd h.once (by decide)

end Netutils.Syslogd
