/-
  Netutils.Ftpd.SiteModes — the modes of SITE UMASK and SITE CHMOD (ftpd/ftpcmd.y).

  yylex reads the mode as a decimal int, and `octal_number` reads its digits again as octal
  ones, with -1 for an 8 or a 9. UMASK answers 501 to -1, CHMOD does not: the mode -1 goes to
  chmod. From 2^31 on the int is no longer the number of the digits (`site_mode_iff`).
-/

import Mathlib.Algebra.Group.Int.Defs
import Mathlib.Data.List.Induction
import Netutils.Ftpd.Lines
import Netutils.Libc.Ctype

namespace Netutils.Ftpd.SiteModes

open Netutils.Arpa Netutils.Libc

/-! ## The actions -/

/-- `while (dec)`; an int has ten digits at most. -/
def octalLoop : Nat → Int → Int → Int → Int
  | n + 1, dec, multby, ret =>
    if dec = 0 then ret
    else if dec.tmod 10 > 7 then -1
    else octalLoop n (dec.tdiv 10) (multby * 8) (ret + dec.tmod 10 * multby)
  | 0, _, _, ret => ret

/-- Convert a number that was read as decimal number to what it would be if it had been
    read as octal. -/
def octalNumber (dec : Int) : Int := octalLoop 10 dec 1 0

inductive Call where
  | umask (mode : Int)
  | chmod (path : Str) (mode : Int)
  deriving DecidableEq

structure Outcome where
  calls : List Call
  replies : List (Nat × Str)
  deriving DecidableEq

/-- What the actions find. -/
structure World where
  loggedIn : Bool
  /-- The name that `pathname` makes of a string; none if it has replied 550. -/
  pathname : Str → Option Str
  /-- The mask that umask returns. -/
  oldmask : Nat
  /-- chmod does not fail. -/
  chmod : Str → Int → Bool
  strerror : Str

/-- `%03o` -/
def octal3 (n : Int) : Str :=
  let ds := (Nat.toDigits 8 (n % 2 ^ 32).toNat).map fun c => UInt8.ofNat c.toNat
  List.replicate (3 - ds.length) 0x30 ++ ds

def pleaseLogin : Outcome := ⟨[], [(530, Libc.text "Please login with USER and PASS.")]⟩

/-- `SITE SP UMASK check_login SP octal_number CRLF` -/
def siteUmask (w : World) (mode : Int) : Outcome :=
  if w.loggedIn then
    if mode = -1 ∨ mode > 0o777 then ⟨[], [(501, Libc.text "Bad UMASK value")]⟩
    else
      ⟨[.umask mode],
        [(200, Libc.text "UMASK set to " ++ octal3 mode ++ Libc.text " (was " ++ octal3 w.oldmask ++ Libc.text ")")]⟩
  else pleaseLogin

/-- `SITE SP CHMOD check_login SP octal_number SP pathname CRLF` -/
def siteChmod (w : World) (mode : Int) (s : Str) : Outcome :=
  if w.loggedIn then
    match w.pathname s with
    | none => ⟨[], [(550, Libc.text "not found")]⟩
    | some path =>
      if mode > 0o777 then ⟨[], [(501, Libc.text "CHMOD: Mode value must be between 0 and 0777")]⟩
      else if w.chmod path mode = false then ⟨[.chmod path mode], [(550, path ++ Libc.text ": " ++ w.strerror)]⟩
      else ⟨[.chmod path mode], [(200, Libc.text "CHMOD command successful.")]⟩
  else pleaseLogin

/-- The two commands, by the tokens of their lines. -/
def site (w : World) : List Token → Option Outcome
  | [.key .SITE, .key .SP, .key .UMASK, .key .SP, .number n, .key .CRLF] => some (siteUmask w (octalNumber n))
  | [.key .SITE, .key .SP, .key .CHMOD, .key .SP, .number n, .key .SP, .string s, .key .CRLF] =>
    some (siteChmod w (octalNumber n) s)
  | _ => none

/-! ## The lines -/

/-- A command that is given a mode. -/
inductive Change where
  | umask
  | chmod (path : Str)

def SITE_UMASK : Str := ascii ['S', 'I', 'T', 'E', ' ', 'U', 'M', 'A', 'S', 'K', ' ']

def SITE_CHMOD : Str := ascii ['S', 'I', 'T', 'E', ' ', 'C', 'H', 'M', 'O', 'D', ' ']

/-- The line with the mode `ds`, up to its CR LF. -/
def Change.line (ds : Str) : Change → Str
  | .umask => SITE_UMASK ++ ds
  | .chmod path => SITE_CHMOD ++ ds ++ BLANK :: path

/-- The calls that the mode `m` should lead to. -/
def Change.calls (w : World) (m : Int) : Change → List Call
  | .umask => [.umask m]
  | .chmod s => (w.pathname s).toList.map (.chmod · m)

/-- The path is a name that a line can hold. -/
def Change.Plain : Change → Prop
  | .umask => True
  | .chmod path => path ≠ [] ∧ LF ∉ path ∧ CR ∉ path ∧ 0 ∉ path

/-! ## Modes -/

def Octal (ds : Str) : Prop := ∀ c ∈ ds, isdigitOf 8 c = true

instance (ds : Str) : Decidable (Octal ds) := List.decidableBAll _ ds

/-- Octal digits that denote 0777 at most. -/
def Valid (ds : Str) : Prop := Octal ds ∧ number 8 ds ≤ 0o777

instance (ds : Str) : Decidable (Valid ds) := by unfold Valid; infer_instance

/-- Nothing is changed, and the answer is 501. -/
def Refused (o : Outcome) : Prop := o.calls = [] ∧ ∃ text, o.replies = [(501, text)]

/-- A valid mode goes to the call, and any other is refused. -/
def Obeys (w : World) (c : Change) (ds : Str) (o : Outcome) : Prop :=
  (Valid ds → o.calls = c.calls w (number 8 ds)) ∧ (¬ Valid ds → Refused o)

/-- The 32 bits that are left of the decimal number, where strtol has stopped at LONG_MAX. -/
def low (ds : Str) : Nat := min (number 10 ds) (2 ^ 63 - 1) % 2 ^ 32

/-- The number of the digits is an int, or what is left of it is a bad mode too: -1, or digits
    that are not valid (UMASK), or octal digits above 0777 (CHMOD). CHMOD needs octal digits,
    and a file that pathname finds. -/
def Sound (w : World) (ds : Str) : Change → Prop
  | .umask => number 10 ds < 2 ^ 31 ∨ low ds = 2 ^ 32 - 1 ∨ (low ds < 2 ^ 31 ∧ ¬ Valid (decimal (low ds)))
  | .chmod s =>
    Valid ds ∨
      ((w.pathname s).isSome = true ∧
        ((number 10 ds < 2 ^ 31 ∧ Octal ds) ∨
          (2 ^ 31 ≤ number 10 ds ∧ low ds < 2 ^ 31 ∧ Octal (decimal (low ds)) ∧ ¬ Valid (decimal (low ds)))))

/-! ## Numbers by their digits -/

variable {ds : Str} {k : Nat} {m r : Int}

theorem digits_concat {c : UInt8} (h : ∀ d ∈ ds ++ [c], isdigit d = true) :
    (∀ d ∈ ds, isdigit d = true) ∧ isdigit c = true :=
  ⟨fun d hd => h d (List.mem_append_left _ hd), h c (List.mem_append_right _ (List.mem_singleton.mpr rfl))⟩

theorem octal_nil : Octal [] := fun _ hc => absurd hc List.not_mem_nil

theorem octal_concat {c : UInt8} (hc : isdigit c = true) : Octal (ds ++ [c]) ↔ Octal ds ∧ digit c < 8 := by
  have hlast : isdigitOf 8 c = true ↔ digit c < 8 := by rw [isdigitOf, hc, Bool.true_and, decide_eq_true_eq]
  simp only [Octal, List.mem_append, List.mem_singleton, or_imp, forall_and, forall_eq, hlast]

theorem octalLoop_zero : octalLoop k 0 m r = r := by
  cases k with
  | zero => rfl
  | succ k => rw [octalLoop, if_pos rfl]

/-- The last digit of an int, and the int without it. -/
theorem tmod_tdiv (n d : Nat) (hd : d ≤ 9) :
    ((n * 10 + d : Nat) : Int).tmod 10 = d ∧ ((n * 10 + d : Nat) : Int).tdiv 10 = n := by
  have hmod : (n * 10 + d) % 10 = d := by omega
  have hdiv : (n * 10 + d) / 10 = n := by omega
  exact ⟨(Int.ofNat_tmod _ 10).symm.trans (congrArg _ hmod), (Int.ofNat_tdiv _ 10).symm.trans (congrArg _ hdiv)⟩

theorem number_eq_zero (hds : ∀ c ∈ ds, isdigit c = true) (h : number 10 ds = 0) : Octal ds ∧ number 8 ds = 0 := by
  induction ds using List.reverseRecOn with
  | nil => exact ⟨octal_nil, rfl⟩
  | append_singleton ds c ih =>
    obtain ⟨hds, hc⟩ := digits_concat hds
    rw [number_concat] at h
    obtain ⟨hoct, hnum⟩ := ih hds (by omega)
    rw [octal_concat hc, number_concat, hnum]
    exact ⟨⟨hoct, by omega⟩, by omega⟩

/-- The digits are gone through from the last one on. -/
theorem octalLoop_number (hds : ∀ c ∈ ds, isdigit c = true) (hk : number 10 ds < 10 ^ k) :
    octalLoop k (number 10 ds) m r = if Octal ds then r + m * number 8 ds else -1 := by
  induction ds using List.reverseRecOn generalizing k m r with
  | nil =>
    rw [if_pos octal_nil]
    exact octalLoop_zero.trans (by simp [number])
  | append_singleton ds c ih =>
    obtain ⟨hinit, hc⟩ := digits_concat hds
    by_cases hzero : number 10 (ds ++ [c]) = 0
    · obtain ⟨hoct, hnum⟩ := number_eq_zero hds hzero
      rw [hzero, if_pos hoct, hnum]
      exact octalLoop_zero.trans (by simp)
    · obtain ⟨k, rfl⟩ : ∃ j, k = j + 1 := by
        cases k with
        | zero => exact absurd (Nat.lt_one_iff.mp hk) hzero
        | succ k => exact ⟨k, rfl⟩
      rw [number_concat] at hk hzero
      obtain ⟨hmod, hdiv⟩ := tmod_tdiv (number 10 ds) (digit c) (digit_le hc)
      rw [number_concat, number_concat, octalLoop, if_neg (by omega), hmod, hdiv]
      by_cases hlast : digit c < 8
      · have hpow : 10 ^ (k + 1) = 10 ^ k * 10 := rfl
        rw [if_neg (by omega), ih hinit (by omega)]
        simp only [octal_concat hc, hlast, and_true]
        congr 1
        push_cast
        grind
      · rw [if_pos (by omega), if_neg fun hoct => hlast ((octal_concat hc).mp hoct).2]

/-- The digits of a negative int are negative, and none of them is above 7. -/
theorem octalLoop_neg (hds : ∀ c ∈ ds, isdigit c = true) (hk : number 10 ds < 10 ^ k) :
    octalLoop k (-number 10 ds) m r = r - m * number 8 ds := by
  induction ds using List.reverseRecOn generalizing k m r with
  | nil => exact octalLoop_zero.trans (by simp [number])
  | append_singleton ds c ih =>
    obtain ⟨hinit, hc⟩ := digits_concat hds
    by_cases hzero : number 10 (ds ++ [c]) = 0
    · rw [hzero, (number_eq_zero hds hzero).2]
      exact octalLoop_zero.trans (by simp)
    · obtain ⟨k, rfl⟩ : ∃ j, k = j + 1 := by
        cases k with
        | zero => exact absurd (Nat.lt_one_iff.mp hk) hzero
        | succ k => exact ⟨k, rfl⟩
      rw [number_concat] at hk hzero
      obtain ⟨hmod, hdiv⟩ := tmod_tdiv (number 10 ds) (digit c) (digit_le hc)
      have hpow : 10 ^ (k + 1) = 10 ^ k * 10 := rfl
      rw [number_concat, number_concat, octalLoop, if_neg (by omega), Int.neg_tmod, Int.neg_tdiv, hmod, hdiv,
        if_neg (by omega), ih hinit (by omega)]
      push_cast
      grind

theorem number_eight_pos (hds : ∀ c ∈ ds, isdigit c = true) (h : 0 < number 10 ds) :
    0 < number 8 ds ∧ (number 8 ds = 1 → number 10 ds = 1) := by
  induction ds using List.reverseRecOn with
  | nil => exact absurd h (by decide)
  | append_singleton ds c ih =>
    obtain ⟨hds, -⟩ := digits_concat hds
    rw [number_concat] at h
    rw [number_concat, number_concat]
    rcases Nat.eq_zero_or_pos (number 10 ds) with hzero | hpos
    · have := (number_eq_zero hds hzero).2
      omega
    · have := (ih hds hpos).1
      omega

/-- Octal digits for less than 8 ^ k are digits for less than 10 ^ k. -/
theorem number_lt_of_octal (hds : ∀ c ∈ ds, isdigit c = true) (hoct : Octal ds) (h : number 8 ds < 8 ^ k) :
    number 10 ds < 10 ^ k := by
  induction ds using List.reverseRecOn generalizing k with
  | nil => exact Nat.pow_pos (by decide)
  | append_singleton ds c ih =>
    obtain ⟨hds, hc⟩ := digits_concat hds
    rw [octal_concat hc] at hoct
    rw [number_concat] at h ⊢
    cases k with
    | zero =>
      have hpos := number_eight_pos hds
      rw [Nat.pow_zero] at h ⊢
      omega
    | succ k =>
      have hten : 10 ^ (k + 1) = 10 ^ k * 10 := rfl
      have height : 8 ^ (k + 1) = 8 ^ k * 8 := rfl
      have hinit : number 10 ds < 10 ^ k := ih hds hoct.1 (by omega)
      omega

theorem number_of_valid (hds : ∀ c ∈ ds, isdigit c = true) (h : Valid ds) : number 10 ds < 1000 :=
  number_lt_of_octal (k := 3) hds h.1 (Nat.lt_of_le_of_lt h.2 (by decide))

/-! ## The int of the digits -/

theorem atoi_digits (ds : Str) : Ftpd.atoi ds = if low ds < 2 ^ 31 then (low ds : Int) else low ds - 2 ^ 32 := by
  have hfold : ∀ n, ds.foldl (fun n c => 10 * n + (c.toNat - 0x30)) n = ds.foldl (fun n c => n * 10 + digit c) n := by
    induction ds with
    | nil => intro n; rfl
    | cons c ds ih =>
      intro n
      rw [List.foldl_cons, List.foldl_cons, Nat.mul_comm 10 n]
      exact ih _
  rw [Ftpd.atoi, hfold 0]
  rfl

theorem low_of_small (h : number 10 ds < 2 ^ 31) : low ds = number 10 ds := by
  rw [low, Nat.min_eq_left (by omega), Nat.mod_eq_of_lt (by omega)]

theorem low_lt (ds : Str) : low ds < 2 ^ 32 := Nat.mod_lt _ (by decide)

/-- The mode of a number that is an int. -/
theorem octalNumber_small (hds : ∀ c ∈ ds, isdigit c = true) (h : number 10 ds < 2 ^ 31) :
    octalNumber (Ftpd.atoi ds) = if Octal ds then (number 8 ds : Int) else -1 := by
  rw [atoi_digits, low_of_small h, if_pos h, octalNumber, octalLoop_number hds (by omega)]
  simp

/-- What is left of a number is not negative. -/
theorem octalNumber_low (h : low ds < 2 ^ 31) :
    octalNumber (Ftpd.atoi ds) = if Octal (decimal (low ds)) then (number 8 (decimal (low ds)) : Int) else -1 := by
  have hdigits : ∀ c ∈ decimal (low ds), isdigit c = true := fun c hc => isdigit_decimal hc
  have hloop := octalLoop_number (k := 10) (m := 1) (r := 0) hdigits (by rw [number_decimal]; omega)
  rw [number_decimal] at hloop
  rw [atoi_digits, if_pos h, octalNumber, hloop]
  simp

/-- What is left of a number is negative: so is the mode, and it is -1 for -1 only. -/
theorem octalNumber_neg (h : ¬ low ds < 2 ^ 31) :
    octalNumber (Ftpd.atoi ds) < 0 ∧ (octalNumber (Ftpd.atoi ds) = -1 ↔ low ds = 2 ^ 32 - 1) := by
  have hlt := low_lt ds
  have hdigits : ∀ c ∈ decimal (2 ^ 32 - low ds), isdigit c = true := fun c hc => isdigit_decimal hc
  have hloop := octalLoop_neg (k := 10) (m := 1) (r := 0) hdigits (by rw [number_decimal]; omega)
  have hpos := number_eight_pos hdigits (by rw [number_decimal]; omega)
  have hsub : ((low ds : Int) - 2 ^ 32) = -((2 ^ 32 - low ds : Nat) : Int) := by omega
  rw [number_decimal] at hloop hpos
  rw [atoi_digits, if_neg h, hsub, octalNumber, hloop]
  have hone : 2 ^ 32 - low ds = 1 → number 8 (decimal (2 ^ 32 - low ds)) = 1 := by
    intro heq
    rw [heq]
    rfl
  constructor
  · omega
  · omega

/-! ## The tokens -/

/-- The tokens of a line with a mode. -/
def Change.tokens (ds : Str) : Change → List Token
  | .umask => [.key .SITE, .key .SP, .key .UMASK, .key .SP, .number (Ftpd.atoi ds), .key .CRLF]
  | .chmod path =>
    [.key .SITE, .key .SP, .key .CHMOD, .key .SP, .number (Ftpd.atoi ds), .key .SP, .string path, .key .CRLF]

theorem text_crlf {t : Str} (hcr : CR ∉ t) (hnul : 0 ∉ t) : text (t ++ [CR, LF]) = t ++ [LF] := by
  have hall : (t ++ [CR, LF]).takeWhile (· ≠ 0) = t ++ [CR, LF] := by
    rw [List.takeWhile_eq_self_iff]
    intro c hc
    rw [decide_eq_true_eq]
    rintro rfl
    rcases List.mem_append.mp hc with hc | hc
    · exact hnul hc
    · revert hc
      decide
  rw [text, hall, takeWhile_ne_append hcr, if_pos (List.mem_append_right t List.mem_cons_self)]

theorem scan_number {c : UInt8} {rest : Str} (state : LexState) (hds : ∀ d ∈ ds, isdigit d = true)
    (hc : isDigit c = false) : scanNumber state (ds ++ c :: rest) = some (.number (Ftpd.atoi ds), state, c :: rest) := by
  have hall : ∀ d ∈ ds, isDigit d = true := hds
  have hstop : (c :: rest).head?.all (!isDigit ·) = true := by simp [hc]
  obtain ⟨htake, hdrop⟩ := span_append hall hstop
  rw [scanNumber, htake, hdrop]

theorem scan_sitecmd {c : UInt8} {t : Str} (hc : c ≠ BLANK) (hsettled : Settled (c :: t)) :
    scan .sitecmd (c :: t) = word sitetab (c :: t) := by
  have hblank : ¬ (c :: t).head? = some BLANK := fun h => hc (Option.some.inj h)
  rw [scan, if_neg hblank, if_pos hsettled]

theorem spell_token {bad : List Token → Bool} {n : Nat} {t : Token} {state : LexState} {rest : Str} {tokens : List Token}
    (ht : t ≠ .key .CRLF) (hbad : bad (tokens ++ [t]) = false) :
    spell bad (n + 1) (some (t, state, rest)) tokens false = spell bad n (scan state rest) (tokens ++ [t]) false := by
  simp only [spell, hbad, Bool.not_false, Bool.and_false, if_neg ht]
  rfl

theorem spell_crlf {bad : List Token → Bool} {n : Nat} {state : LexState} {rest : Str} {tokens : List Token}
    (hbad : bad (tokens ++ [.key .CRLF]) = false) :
    spell bad (n + 1) (some (.key .CRLF, state, rest)) tokens false = ⟨tokens ++ [.key .CRLF], .crlf false⟩ := by
  simp only [spell, hbad, Bool.not_false, Bool.and_false, if_true]
  rfl

theorem tokenize_umask (hne : ds ≠ []) (hds : ∀ c ∈ ds, isdigit c = true) :
    tokenize syntaxError (SITE_UMASK ++ ds ++ [LF]) = ⟨Change.umask.tokens ds, .crlf false⟩ := by
  have hscan : scan .args (ds ++ [LF]) = some (.number (Ftpd.atoi ds), .args, [LF]) := by
    obtain ⟨d, rest, rfl⟩ := List.exists_cons_of_ne_nil hne
    rw [← scan_number .args hds (show isDigit LF = false by decide)]
    exact if_pos (hds d List.mem_cons_self)
  have hword : word cmdtab (SITE_UMASK ++ ds ++ [LF]) =
      some (.key .SITE, .sitecmd, BLANK :: (ascii ['U', 'M', 'A', 'S', 'K', ' '] ++ (ds ++ [LF]))) := rfl
  have hsite : scan .sitecmd (ascii ['U', 'M', 'A', 'S', 'K', ' '] ++ (ds ++ [LF])) =
      some (.key .UMASK, .args, BLANK :: (ds ++ [LF])) := by
    have hsettled : Settled (ascii ['U', 'M', 'A', 'S', 'K', ' '] ++ (ds ++ [LF])) := ⟨LF, by simp, rfl⟩
    exact scan_sitecmd (show (0x55 : UInt8) ≠ BLANK by decide) hsettled
  rw [tokenize, hword, show CBUFSIZE + 2 = 508 + 1 + 1 + 1 + 1 + 1 + 1 from rfl]
  rw [spell_token (by decide) rfl, show scan .sitecmd (BLANK :: _) = some (.key .SP, .sitecmd, _) from rfl]
  rw [spell_token (by decide) rfl, hsite, spell_token (by decide) rfl]
  rw [show scan .args (BLANK :: (ds ++ [LF])) = some (.key .SP, .args, ds ++ [LF]) from rfl]
  rw [spell_token (by decide) rfl, hscan, spell_token (by simp) rfl]
  rw [show scan .args [LF] = some (.key .CRLF, .args, []) from rfl, spell_crlf rfl]
  rfl

theorem tokenize_chmod {path : Str} (hne : ds ≠ []) (hds : ∀ c ∈ ds, isdigit c = true) (hpath : path ≠ []) :
    tokenize syntaxError (SITE_CHMOD ++ ds ++ BLANK :: path ++ [LF]) = ⟨(Change.chmod path).tokens ds, .crlf false⟩ := by
  have hscan : scan .nstr (ds ++ BLANK :: (path ++ [LF])) =
      some (.number (Ftpd.atoi ds), .str1, BLANK :: (path ++ [LF])) := by
    obtain ⟨d, rest, rfl⟩ := List.exists_cons_of_ne_nil hne
    have hd : isDigit d = true := hds d List.mem_cons_self
    have hblank : ¬ some d = some BLANK := by
      intro h
      obtain ⟨⟩ := h
      revert hd
      decide
    rw [← scan_number .str1 hds (show isDigit BLANK = false by decide)]
    exact (if_neg hblank).trans (if_pos hd)
  have hword : word cmdtab (SITE_CHMOD ++ ds ++ BLANK :: path ++ [LF]) =
      some (.key .SITE, .sitecmd, BLANK :: (ascii ['C', 'H', 'M', 'O', 'D', ' '] ++ (ds ++ BLANK :: path ++ [LF]))) := rfl
  have hsite : scan .sitecmd (ascii ['C', 'H', 'M', 'O', 'D', ' '] ++ (ds ++ BLANK :: path ++ [LF])) =
      some (.key .CHMOD, .nstr, BLANK :: (ds ++ BLANK :: path ++ [LF])) := by
    have hsettled : Settled (ascii ['C', 'H', 'M', 'O', 'D', ' '] ++ (ds ++ BLANK :: path ++ [LF])) := ⟨LF, by simp, rfl⟩
    exact scan_sitecmd (show (0x43 : UInt8) ≠ BLANK by decide) hsettled
  have hstring : scan .str2 (path ++ [LF]) = some (.string path, .args, [LF]) := by
    have hlen : (path ++ [LF]).length > 1 := by
      have := List.length_pos_iff.mpr hpath
      rw [List.length_append]
      exact Nat.succ_lt_succ this
    rw [scan, scanString, if_pos ⟨hlen, List.getLast?_concat⟩, List.dropLast_concat]
  rw [tokenize, hword, show CBUFSIZE + 2 = 506 + 1 + 1 + 1 + 1 + 1 + 1 + 1 + 1 from rfl]
  rw [spell_token (by decide) rfl, show scan .sitecmd (BLANK :: _) = some (.key .SP, .sitecmd, _) from rfl]
  rw [spell_token (by decide) rfl, hsite, spell_token (by decide) rfl]
  rw [show scan .nstr (BLANK :: (ds ++ BLANK :: path ++ [LF])) = some (.key .SP, .nstr, _) from rfl]
  rw [spell_token (by decide) rfl, List.append_assoc, List.cons_append, hscan, spell_token (by simp) rfl]
  rw [show scan .str1 (BLANK :: (path ++ [LF])) = some (.key .SP, .str2, path ++ [LF]) from rfl]
  rw [spell_token (by decide) rfl, hstring, spell_token (by simp) rfl]
  rw [show scan .args [LF] = some (.key .CRLF, .args, []) from rfl, spell_crlf rfl]
  rfl

/-- Whatever earlier lines have left in the scanner. -/
theorem line_tokens (L : Lexer) (c : Change) (hc : c.Plain) (hne : ds ≠ []) (hds : ∀ d ∈ ds, isdigit d = true) :
    (L.line syntaxError (c.line ds ++ [CR, LF])).1 = ⟨c.tokens ds, .crlf false⟩ := by
  have hclean : ∀ d, isdigit d = false → d ∉ ds := by
    intro d hd hmem
    rw [hds d hmem] at hd
    cases hd
  have hcr := hclean CR (by decide)
  have hlf := hclean LF (by decide)
  have hnul := hclean 0 (by decide)
  have hplain : CR ∉ c.line ds ∧ LF ∉ c.line ds ∧ 0 ∉ c.line ds := by
    cases c with
    | umask =>
      simp only [Change.line, List.mem_append, hcr, hlf, hnul, or_false]
      decide
    | chmod path =>
      obtain ⟨-, hplf, hpcr, hpnul⟩ := hc
      simp only [Change.line, List.mem_append, List.mem_cons, hcr, hlf, hnul, hpcr, hplf, hpnul, or_false]
      decide
  have htext := text_crlf hplain.1 hplain.2.2
  have hend : LF ∉ (c.line ds ++ [CR, LF]).dropLast := by
    rw [List.dropLast_append_of_ne_nil (List.cons_ne_nil _ _), List.mem_append, not_or]
    exact ⟨hplain.2.1, by decide⟩
  have hsettled : Settled (text (c.line ds ++ [CR, LF])) := by
    rw [htext]
    exact ⟨LF, List.mem_append_right _ (List.mem_singleton.mpr rfl), rfl⟩
  rw [line_of_settled syntaxError hend hsettled, htext]
  cases c with
  | umask => exact tokenize_umask hne hds
  | chmod path => exact tokenize_chmod hne hds hc.1

/-! ## What the actions make of the mode -/

variable {w : World} {mode : Int}

theorem siteUmask_refused (hlogin : w.loggedIn = true) : Refused (siteUmask w mode) ↔ mode = -1 ∨ mode > 0o777 := by
  rw [siteUmask, if_pos hlogin]
  split
  · rename_i h
    exact ⟨fun _ => h, fun _ => ⟨rfl, _, rfl⟩⟩
  · rename_i h
    constructor
    · intro ⟨hcalls, _⟩
      cases hcalls
    · intro hmode
      exact absurd hmode h

theorem siteUmask_calls (hlogin : w.loggedIn = true) (hne : mode ≠ -1) (hle : mode ≤ 0o777) :
    (siteUmask w mode).calls = [.umask mode] := by
  rw [siteUmask, if_pos hlogin, if_neg (by omega)]

theorem siteChmod_refused {s path : Str} (hlogin : w.loggedIn = true) (hpath : w.pathname s = some path) :
    Refused (siteChmod w mode s) ↔ mode > 0o777 := by
  rw [siteChmod, if_pos hlogin, hpath]
  simp only
  split
  · rename_i h
    exact ⟨fun _ => h, fun _ => ⟨rfl, _, rfl⟩⟩
  · rename_i h
    constructor
    · intro ⟨hcalls, _⟩
      split at hcalls <;> cases hcalls
    · intro hmode
      exact absurd hmode h

theorem siteChmod_calls {s path : Str} (hlogin : w.loggedIn = true) (hpath : w.pathname s = some path)
    (hle : mode ≤ 0o777) : (siteChmod w mode s).calls = [.chmod path mode] := by
  rw [siteChmod, if_pos hlogin, hpath]
  simp only
  rw [if_neg (by omega)]
  split <;> rfl

/-- The mode of valid digits. -/
theorem octalNumber_valid (hds : ∀ c ∈ ds, isdigit c = true) (h : Valid ds) :
    octalNumber (Ftpd.atoi ds) = number 8 ds := by
  have := number_of_valid hds h
  rw [octalNumber_small hds (by omega), if_pos h.1]

/-- Digits that are not valid, of a number that is an int. -/
theorem octalNumber_invalid (hds : ∀ c ∈ ds, isdigit c = true) (h : ¬ Valid ds) (hsmall : number 10 ds < 2 ^ 31) :
    (octalNumber (Ftpd.atoi ds) = -1 ∧ ¬ Octal ds) ∨ (octalNumber (Ftpd.atoi ds) > 0o777 ∧ Octal ds) := by
  rw [octalNumber_small hds hsmall]
  by_cases hoct : Octal ds
  · have hbig : ¬ number 8 ds ≤ 0o777 := fun hle => h ⟨hoct, hle⟩
    rw [if_pos hoct]
    exact Or.inr ⟨by omega, hoct⟩
  · rw [if_neg hoct]
    exact Or.inl ⟨rfl, hoct⟩

/-- What is left of a number that is no int. -/
theorem octalNumber_big :
    (octalNumber (Ftpd.atoi ds) = -1 ↔ low ds = 2 ^ 32 - 1 ∨ (low ds < 2 ^ 31 ∧ ¬ Octal (decimal (low ds)))) ∧
      (octalNumber (Ftpd.atoi ds) > 0o777 ↔
        low ds < 2 ^ 31 ∧ Octal (decimal (low ds)) ∧ ¬ Valid (decimal (low ds))) := by
  by_cases hlow : low ds < 2 ^ 31
  · rw [octalNumber_low hlow]
    by_cases hoct : Octal (decimal (low ds))
    · simp only [hoct, hlow, Valid, if_true, true_and, not_true_eq_false, and_false, or_false]
      omega
    · simp only [hoct, hlow, if_false, not_false_eq_true, and_true, or_true, false_and, and_false]
      decide
  · obtain ⟨hneg, hone⟩ := octalNumber_neg hlow
    simp only [hone, hlow, false_and, or_false, iff_false, true_and]
    omega

theorem obeys_umask (hlogin : w.loggedIn = true) (hds : ∀ c ∈ ds, isdigit c = true) :
    Obeys w .umask ds (siteUmask w (octalNumber (Ftpd.atoi ds))) ↔ Sound w ds .umask := by
  by_cases hvalid : Valid ds
  · have hsmall := number_of_valid hds hvalid
    have hval := hvalid.2
    have hcalls : (siteUmask w (number 8 ds)).calls = [.umask (number 8 ds)] :=
      siteUmask_calls hlogin (by omega) (by omega)
    rw [octalNumber_valid hds hvalid]
    exact ⟨fun _ => Or.inl (by omega), fun _ => ⟨fun _ => hcalls, fun h => absurd hvalid h⟩⟩
  · have hobeys : ∀ o, Obeys w .umask ds o ↔ Refused o := fun o =>
      ⟨fun h => h.2 hvalid, fun h => ⟨fun hv => absurd hv hvalid, fun _ => h⟩⟩
    rw [hobeys, siteUmask_refused hlogin]
    by_cases hsmall : number 10 ds < 2 ^ 31
    · refine ⟨fun _ => Or.inl hsmall, fun _ => ?_⟩
      exact (octalNumber_invalid hds hvalid hsmall).imp And.left And.left
    · rw [octalNumber_big.1, octalNumber_big.2]
      simp only [Sound, hsmall, false_or]
      constructor
      · intro h
        rcases h with (h | ⟨hlow, hoct⟩) | ⟨hlow, -, hbad⟩
        · exact Or.inl h
        · exact Or.inr ⟨hlow, fun hv => hoct hv.1⟩
        · exact Or.inr ⟨hlow, hbad⟩
      · intro h
        rcases h with h | ⟨hlow, hbad⟩
        · exact Or.inl (Or.inl h)
        · by_cases hoct : Octal (decimal (low ds))
          · exact Or.inr ⟨hlow, hoct, hbad⟩
          · exact Or.inl (Or.inr ⟨hlow, hoct⟩)

theorem obeys_chmod {s : Str} (hlogin : w.loggedIn = true) (hds : ∀ c ∈ ds, isdigit c = true) :
    Obeys w (.chmod s) ds (siteChmod w (octalNumber (Ftpd.atoi ds)) s) ↔ Sound w ds (.chmod s) := by
  have hsound : Valid ds → Sound w ds (.chmod s) := Or.inl
  cases hpath : w.pathname s with
  | none =>
    have hout : siteChmod w (octalNumber (Ftpd.atoi ds)) s = ⟨[], [(550, Libc.text "not found")]⟩ := by
      rw [siteChmod, if_pos hlogin, hpath]
    rw [hout]
    constructor
    · intro ⟨_, h⟩
      by_cases hvalid : Valid ds
      · exact hsound hvalid
      · obtain ⟨-, text, hreply⟩ := h hvalid
        simp at hreply
    · intro h
      simp only [Sound, hpath, Option.isSome_none, Bool.false_eq_true, false_and, or_false] at h
      refine ⟨fun _ => ?_, fun hbad => absurd h hbad⟩
      simp only [Change.calls, hpath]
      rfl
  | some path =>
    by_cases hvalid : Valid ds
    · have hcalls : (siteChmod w (number 8 ds) s).calls = [.chmod path (number 8 ds)] :=
        siteChmod_calls hlogin hpath (by have := hvalid.2; omega)
      rw [octalNumber_valid hds hvalid]
      refine ⟨fun _ => hsound hvalid, fun _ => ⟨fun _ => ?_, fun h => absurd hvalid h⟩⟩
      rw [hcalls, Change.calls, hpath]
      rfl
    · have hobeys : ∀ o, Obeys w (.chmod s) ds o ↔ Refused o := fun o =>
        ⟨fun h => h.2 hvalid, fun h => ⟨fun hv => absurd hv hvalid, fun _ => h⟩⟩
      rw [hobeys, siteChmod_refused hlogin hpath]
      simp only [Sound, hvalid, false_or, hpath, Option.isSome_some, true_and]
      by_cases hsmall : number 10 ds < 2 ^ 31
      · simp only [hsmall, true_and, Nat.not_le.mpr hsmall, false_and, or_false]
        rcases octalNumber_invalid hds hvalid hsmall with ⟨hmode, hoct⟩ | ⟨hmode, hoct⟩
        · rw [hmode]
          exact ⟨fun h => absurd h (by decide), fun h => absurd h hoct⟩
        · exact ⟨fun _ => hoct, fun _ => hmode⟩
      · rw [octalNumber_big.2]
        simp only [hsmall, Nat.not_lt.mp hsmall, false_and, false_or, true_and]

/-- SITE UMASK and SITE CHMOD with any digits apply valid modes and answer 501 to all others
    just where the number is an int, or what is left of it is refused too; CHMOD moreover
    needs octal digits. Of a line telnet_fgets hands on the first 511 bytes. -/
theorem site_mode_iff (w : World) (L : Lexer) (c : Change) (ds : Str) (hlogin : w.loggedIn = true) (hc : c.Plain)
    (hne : ds ≠ []) (hds : ∀ d ∈ ds, isdigit d = true) :
    ∃ o, site w (L.line syntaxError (c.line ds ++ [CR, LF])).1.tokens = some o ∧ (Obeys w c ds o ↔ Sound w ds c) := by
  rw [line_tokens L c hc hne hds]
  cases c with
  | umask => exact ⟨_, rfl, obeys_umask hlogin hds⟩
  | chmod path => exact ⟨_, rfl, obeys_chmod hlogin hds⟩

/-- Every file is there, and chmod changes each of them. -/
def everyFile : World where
  loggedIn := true
  pathname := some
  oldmask := 0o22
  chmod := fun _ _ => true
  strerror := []

theorem site_mode_umask :
    ∃ o, site everyFile (Lexer.init.line syntaxError (Change.umask.line [0x37, 0x37] ++ [CR, LF])).1.tokens = some o ∧
      Obeys everyFile .umask [0x37, 0x37] o := by
  obtain ⟨o, hsite, hiff⟩ := site_mode_iff everyFile Lexer.init .umask [0x37, 0x37] rfl trivial
    (List.cons_ne_nil _ _) (List.all_eq_true.mp rfl)
  exact ⟨o, hsite, hiff.mpr (Or.inl (by decide))⟩

/-- `SITE CHMOD 8 f` gives the mode -1 to chmod. -/
theorem a_digit_eight_is_applied :
    ∃ o, site everyFile (Lexer.init.line syntaxError ((Change.chmod [0x66]).line [0x38] ++ [CR, LF])).1.tokens = some o ∧
      o.calls = [.chmod [0x66] (-1)] ∧ ¬ Obeys everyFile (.chmod [0x66]) [0x38] o := by
  have hplain : (Change.chmod [0x66]).Plain := ⟨by decide, by decide, by decide, by decide⟩
  rw [line_tokens Lexer.init (.chmod [0x66]) hplain (List.cons_ne_nil _ _) (List.all_eq_true.mp rfl)]
  refine ⟨_, rfl, rfl, fun h => ?_⟩
  have hcalls := (h.2 (by decide)).1
  cases hcalls

end Netutils.Ftpd.SiteModes
