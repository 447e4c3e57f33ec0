/-
  Netutils.Ftp.PasvAddress — the address that getreply copies to pasv (ftp/ftp.c).

  From a line with the code 227 on, the first digit behind column four starts the copying,
  in that line or a later one, and a carriage return or a closing parenthesis ends it.
  Nothing counts the characters: the stores stay within pasv, and pasv has the address as a
  string, just for addresses that fit and are ended, or are ended by what was there
  before (`safe_iff`).
-/

import Mathlib.Data.List.TakeWhile
import Netutils.Ftp.Getreply
import Netutils.Libc.Stdio

namespace Netutils.Ftp.Getreply

open Netutils.Arpa Netutils.Libc

/-! ## The lines of a call -/

/-- The characters without telnet commands. -/
def plain : List UInt8 → List UInt8
  | [] => []
  | c :: cin =>
    if c = IAC then
      match cin with
      | [] => []
      | d :: cin =>
        if d = WILL ∨ d = WONT ∨ d = DO ∨ d = DONT then
          match cin with
          | [] => []
          | _ :: cin => plain cin
        else plain cin
    else c :: plain cin

/-- The lines of a continued reply behind its first; the last of a stream's is not ended. -/
def readRest (v : Nat) : List (List UInt8) → List (List UInt8) × Bool
  | [] => ([], false)
  | [t] => ([t], false)
  | t :: ts => if ends v t = true then ([t], true) else (t :: (readRest v ts).1, (readRest v ts).2)

/-- The lines of the first reply, and whether it is there as a whole. -/
def reading : List (List UInt8) → List (List UInt8) × Bool
  | [] => ([], false)
  | [t] => ([t], false)
  | t :: ts =>
    if t[3]? = some DASH ∧ codeOf t ≠ 0 then (t :: (readRest (codeOf t) ts).1, (readRest (codeOf t) ts).2)
    else ([t], true)

/-- What a call of getreply reads. -/
def replyLines (cin : List UInt8) : List (List UInt8) := (reading ((plain cin).splitOn LF)).1

/-- It is a whole reply, and of the code 227. -/
def Is227 (cin : List UInt8) : Prop :=
  (reading ((plain cin).splitOn LF)).2 = true ∧ (replyLines cin).head?.map codeOf = some 227

instance (cin : List UInt8) : Decidable (Is227 cin) := by unfold Is227; infer_instance

/-! ## The address -/

/-- A line of the reply: whether 227 has been seen, and the text from the first digit on. -/
def addressLine (w : Bool × List UInt8) (t : List UInt8) : Bool × List UInt8 :=
  let seen := w.1 || codeOf t = 227
  (seen, if w.2 ≠ [] then w.2 ++ t else if seen then (t.drop 4).dropWhile fun c => !isdigit c else [])

/-- The text from the first digit on. -/
def fromDigit (ls : List (List UInt8)) : List UInt8 := (ls.foldl addressLine (false, [])).2

/-- Neither a carriage return nor a closing parenthesis. -/
def goes (c : UInt8) : Bool := c ≠ CR && c ≠ PAREN

/-- What is copied. -/
def address (ls : List (List UInt8)) : List UInt8 := (fromDigit ls).takeWhile goes

/-- Something ends the address. -/
def isEnded (ls : List (List UInt8)) : Bool := !(fromDigit ls).all goes

/-! ## pasv -/

structure Pasv where
  bytes : List UInt8
  length : bytes.length = 64

/-- pasv after these stores. -/
def stored (pasv : Pasv) (stores : List (Nat × UInt8)) : List UInt8 :=
  stores.foldl (fun m st => m.set st.1 st.2) pasv.bytes

/-- A string, of these characters only. -/
def IsText (chars m : List UInt8) : Prop := NUL ∈ m ∧ ∀ c ∈ cstring m, c ∈ chars

instance (chars m : List UInt8) : Decidable (IsText chars m) :=
  have : Decidable (∀ c ∈ cstring m, c ∈ chars) := List.decidableBAll _ _
  inferInstanceAs (Decidable (_ ∧ _))

/-- All stores are within pasv, and behind a 227 reply it has a string of characters of this
    reply. -/
def Safe (pasv : Pasv) (cin : List UInt8) (o : Outcome) : Prop :=
  (∀ st ∈ o.locals.stores, st.1 < 64) ∧
    (o.code = 227 → IsText (replyLines cin).flatten (stored pasv o.locals.stores))

/-- The address and the NUL behind it go into pasv, and in a 227 reply that does not end it, a
    NUL of the address does, or a string of characters of the reply that was there before. -/
def Fits (pasv : Pasv) (cin : List UInt8) : Prop :=
  (address (replyLines cin)).length + (if isEnded (replyLines cin) = true then 1 else 0) ≤ 64 ∧
    (Is227 cin → isEnded (replyLines cin) = true ∨ NUL ∈ address (replyLines cin) ∨
      IsText (replyLines cin).flatten (pasv.bytes.drop (address (replyLines cin)).length))

/-! ## What is copied of a line -/

variable {s : Locals} {c : UInt8} {t raw l : List UInt8} {seen : Bool} {v k : Nat} {e : Bool}

/-- The stores of a text, from offset 0 on. -/
def put (a : List UInt8) : List (Nat × UInt8) := a.zipIdx.map Prod.swap

theorem put_concat (a : List UInt8) (c : UInt8) : put (a ++ [c]) = put a ++ [(a.length, c)] := by
  rw [put, List.zipIdx_append, List.map_append, Nat.zero_add]
  rfl

/-- The stores for a text of which the address is the front. -/
def storesOf (raw : List UInt8) : List (Nat × UInt8) :=
  put (raw.takeWhile goes) ++ if raw.all goes = true then [] else [((raw.takeWhile goes).length, NUL)]

def pflagOf (seen : Bool) (raw : List UInt8) : Nat :=
  if raw.all goes = true then if raw ≠ [] then 2 else if seen = true then 1 else 0 else 3

/-- What the locals have of the address. -/
structure Watching (s : Locals) (seen : Bool) (raw : List UInt8) : Prop where
  stores : s.stores = storesOf raw
  pt : s.pt = (raw.takeWhile goes).length
  pflag : s.pflag = pflagOf seen raw
  started : raw ≠ [] → seen = true

theorem goes_of_isdigit (h : isdigit c = true) : goes c = true := by
  revert h
  simp only [isdigit, goes, Bool.and_eq_true, decide_eq_true_eq]
  intro h
  constructor
  · rintro rfl
    exact absurd h.1 (by decide)
  · rintro rfl
    exact absurd h.1 (by decide)

theorem takeWhile_concat (h : raw.all goes = true) :
    (raw ++ [c]).takeWhile goes = if goes c = true then raw ++ [c] else raw := by
  rw [List.takeWhile_append_of_pos (List.all_eq_true.mp h)]
  by_cases hc : goes c = true
  · rw [if_pos hc, List.takeWhile_cons_of_pos hc, List.takeWhile_nil]
  · rw [if_neg hc, List.takeWhile_cons_of_neg hc, List.append_nil]

theorem takeWhile_of_all (h : raw.all goes = true) : raw.takeWhile goes = raw :=
  List.takeWhile_eq_self_iff.mpr (List.all_eq_true.mp h)

/-- Behind the end of the address. -/
theorem takeWhile_of_not_all (h : ¬ raw.all goes = true) : (raw ++ [c]).takeWhile goes = raw.takeWhile goes := by
  induction raw with
  | nil => exact absurd rfl h
  | cons d raw ih =>
    by_cases hd : goes d = true
    · have hrest : ¬ raw.all goes = true := fun hall => h (by rw [List.all_cons, hd, hall]; rfl)
      rw [List.cons_append, List.takeWhile_cons_of_pos hd, List.takeWhile_cons_of_pos hd, ih hrest]
    · rw [List.cons_append, List.takeWhile_cons_of_neg hd, List.takeWhile_cons_of_neg hd]

theorem all_concat : (raw ++ [c]).all goes = (raw.all goes && goes c) := by
  rw [List.all_append, List.all_cons, List.all_nil, Bool.and_true]

namespace Locals

/-- Only watch and copy deal with the address. -/
theorem char_copy (s : Locals) (c : UInt8) :
    (s.char c).stores = (((s.count c).watch c).copy c).stores ∧ (s.char c).pt = (((s.count c).watch c).copy c).pt ∧
      (s.char c).pflag = (((s.count c).watch c).copy c).pflag := by
  have hkeep : ∀ w : Locals, (w.keep c).stores = w.stores ∧ (w.keep c).pt = w.pt ∧ (w.keep c).pflag = w.pflag :=
    fun w => ⟨rfl, rfl, rfl⟩
  have hdash : ∀ w : Locals, (w.dash c).stores = w.stores ∧ (w.dash c).pt = w.pt ∧ (w.dash c).pflag = w.pflag := by
    intro w
    unfold dash
    split <;> exact ⟨rfl, rfl, rfl⟩
  obtain ⟨h1, h2, h3⟩ := hkeep ((((s.count c).watch c).copy c).dash c)
  obtain ⟨h1', h2', h3'⟩ := hdash (((s.count c).watch c).copy c)
  exact ⟨h1.trans h1', h2.trans h2', h3.trans h3'⟩

theorem copy_of_ne {w : Locals} (h : w.pflag ≠ 2) : w.copy c = w := if_neg h

theorem copy_goes {w : Locals} (h : w.pflag = 2) (hc : goes c = true) :
    w.copy c = { w with stores := w.stores ++ [(w.pt, c)], pt := w.pt + 1 } := by
  have hgo : c ≠ CR ∧ c ≠ PAREN := by simpa [goes] using hc
  rw [copy, if_pos h, if_pos hgo]

theorem copy_ends {w : Locals} (h : w.pflag = 2) (hc : ¬ goes c = true) :
    w.copy c = { w with stores := w.stores ++ [(w.pt, NUL)], pflag := 3 } := by
  have hgo : ¬ (c ≠ CR ∧ c ≠ PAREN) := by simpa [goes] using hc
  rw [copy, if_pos h, if_neg hgo]

end Locals

theorem storesOf_concat (raw : List UInt8) (c : UInt8) (h : raw.all goes = true) (hc : goes c = true) :
    storesOf (raw ++ [c]) = storesOf raw ++ [(raw.length, c)] := by
  have hall : (raw ++ [c]).all goes = true := by rw [all_concat, h, hc]; rfl
  rw [storesOf, storesOf, if_pos h, if_pos hall, takeWhile_of_all h, takeWhile_of_all hall, put_concat, List.append_nil,
    List.append_nil]

theorem storesOf_end (h : raw.all goes = true) (hc : ¬ goes c = true) :
    storesOf (raw ++ [c]) = storesOf raw ++ [(raw.length, NUL)] := by
  have hall : ¬ (raw ++ [c]).all goes = true := by
    rw [all_concat, h, Bool.true_and]
    exact hc
  rw [storesOf, storesOf, if_pos h, if_neg hall, takeWhile_concat h, if_neg hc, takeWhile_of_all h, List.append_nil]

theorem storesOf_behind (h : ¬ raw.all goes = true) : storesOf (raw ++ [c]) = storesOf raw := by
  have hall : ¬ (raw ++ [c]).all goes = true := by
    rw [all_concat, Bool.and_eq_true]
    exact fun hall => h hall.1
  rw [storesOf, storesOf, if_neg h, if_neg hall, takeWhile_of_not_all h]

/-- While the address is copied, or behind its end. -/
theorem watching_more (h : Watching s seen raw) (hraw : raw ≠ []) (b : Bool) :
    Watching (s.char c) (seen || b) (raw ++ [c]) := by
  obtain ⟨hstores, hpt, hpflag, hstarted⟩ := h
  obtain ⟨hcs, hcp, hcf⟩ := s.char_copy c
  have hseen : seen = true := hstarted hraw
  have hne : raw ++ [c] ≠ [] := by simp
  have hkeep : s.pflag ≠ 0 → s.pflag ≠ 1 → ((s.count c).watch c).pflag = s.pflag := by
    intro h0 h1
    have hfirst : ¬ (s.pflag = 0 ∧ (s.count c).code = 227) := fun h => h0 h.1
    show (if s.dig + 1 > 4 ∧ (if s.pflag = 0 ∧ (s.count c).code = 227 then 1 else s.pflag) = 1 ∧ isdigit c = true then 2
      else (if s.pflag = 0 ∧ (s.count c).code = 227 then 1 else s.pflag)) = s.pflag
    rw [if_neg hfirst, if_neg fun h => h1 h.2.1]
  by_cases hall : raw.all goes = true
  · have hp : s.pflag = 2 := by rw [hpflag, pflagOf, if_pos hall, if_pos hraw]
    have hw : ((s.count c).watch c).pflag = 2 := (hkeep (by omega) (by omega)).trans hp
    rw [takeWhile_of_all hall] at hpt
    by_cases hc : goes c = true
    · have hall' : (raw ++ [c]).all goes = true := by rw [all_concat, hall, hc]; rfl
      rw [Locals.copy_goes hw hc] at hcs hcp hcf
      refine ⟨?_, ?_, ?_, fun _ => by rw [hseen]; rfl⟩
      · rw [hcs, storesOf_concat _ _ hall hc, ← hstores, ← hpt]
        rfl
      · rw [hcp, takeWhile_of_all hall', List.length_append]
        exact congrArg (· + 1) hpt
      · rw [hcf, pflagOf, if_pos hall', if_pos hne]
        exact hw
    · have hall' : ¬ (raw ++ [c]).all goes = true := by
        rw [all_concat, hall, Bool.true_and]
        exact hc
      rw [Locals.copy_ends hw hc] at hcs hcp hcf
      refine ⟨?_, ?_, ?_, fun _ => by rw [hseen]; rfl⟩
      · rw [hcs, storesOf_end hall hc, ← hstores, ← hpt]
        rfl
      · rw [hcp, takeWhile_concat hall, if_neg hc]
        exact hpt
      · rw [hcf, pflagOf, if_neg hall']
  · have hall' : ¬ (raw ++ [c]).all goes = true := by
      rw [all_concat, Bool.and_eq_true]
      exact fun h => hall h.1
    have hp : s.pflag = 3 := by rw [hpflag, pflagOf, if_neg hall]
    have hw : ((s.count c).watch c).pflag = 3 := (hkeep (by omega) (by omega)).trans hp
    rw [Locals.copy_of_ne (by rw [hw]; decide)] at hcs hcp hcf
    refine ⟨?_, ?_, ?_, fun _ => by rw [hseen]; rfl⟩
    · rw [hcs, storesOf_behind hall]
      exact hstores
    · rw [hcp, takeWhile_of_not_all hall]
      exact hpt
    · rw [hcf, hw, pflagOf, if_neg hall']

/-- Before the address: 227 may be seen, and the first digit. -/
theorem watching_nil (h : Watching s seen []) :
    Watching (s.char c) (seen || (s.count c).code = 227)
      (if (seen || (s.count c).code = 227) = true ∧ s.dig + 1 > 4 ∧ isdigit c = true then [c] else []) := by
  obtain ⟨hstores, hpt, hpflag, -⟩ := h
  obtain ⟨hcs, hcp, hcf⟩ := s.char_copy c
  have hseen : (if s.pflag = 0 ∧ (s.count c).code = 227 then 1 else s.pflag) =
      if (seen || (s.count c).code = 227) = true then 1 else 0 := by
    rw [hpflag]
    cases seen <;> simp [pflagOf]
  have hw : ((s.count c).watch c).pflag =
      if (seen || (s.count c).code = 227) = true ∧ s.dig + 1 > 4 ∧ isdigit c = true then 2
      else if (seen || (s.count c).code = 227) = true then 1 else 0 := by
    show (if s.dig + 1 > 4 ∧ (if s.pflag = 0 ∧ (s.count c).code = 227 then 1 else s.pflag) = 1 ∧ isdigit c = true then 2
      else (if s.pflag = 0 ∧ (s.count c).code = 227 then 1 else s.pflag)) = _
    rw [hseen]
    generalize (seen || (s.count c).code = 227 : Bool) = b
    cases b <;> simp
  have hst : ((s.count c).watch c).stores = s.stores := rfl
  have hp : ((s.count c).watch c).pt = s.pt := rfl
  by_cases hstart : (seen || (s.count c).code = 227) = true ∧ s.dig + 1 > 4 ∧ isdigit c = true
  · have hgo := goes_of_isdigit hstart.2.2
    rw [if_pos hstart] at hw ⊢
    rw [Locals.copy_goes hw hgo] at hcs hcp hcf
    have hall : [c].all goes = true := by rw [List.all_cons, hgo]; rfl
    refine ⟨?_, ?_, ?_, fun _ => hstart.1⟩
    · rw [hcs]
      show s.stores ++ [(s.pt, c)] = storesOf [c]
      have := storesOf_concat [] c rfl hgo
      rw [List.nil_append] at this
      rw [this, hstores, hpt]
      rfl
    · rw [hcp, takeWhile_of_all hall]
      show s.pt + 1 = 1
      rw [hpt]
      rfl
    · rw [hcf, pflagOf, if_pos hall, if_pos (List.cons_ne_nil _ _)]
      exact hw
  · rw [if_neg hstart] at hw ⊢
    rw [Locals.copy_of_ne (by rw [hw]; split <;> decide)] at hcs hcp hcf
    exact ⟨hcs.trans hstores, hcp.trans hpt, hcf.trans hw, fun h => absurd rfl h⟩

/-! ## A line, and the lines of a reply -/

theorem number_lt (ds : List UInt8) (hds : ∀ d ∈ ds, isdigit d = true) : number 10 ds < 10 ^ ds.length := by
  induction ds using List.reverseRecOn with
  | nil => exact Nat.one_pos
  | append_singleton ds d ih =>
    have hd : isdigit d = true := hds d (List.mem_append_right _ (List.mem_singleton.mpr rfl))
    have hinit := ih fun c hc => hds c (List.mem_append_left _ hc)
    have hmax := digit_le hd
    have hpow : 10 ^ (ds.length + 1) = 10 ^ ds.length * 10 := rfl
    rw [number_concat, List.length_append, List.length_singleton, hpow]
    omega

/-- Less than three characters are no code with three digits. -/
theorem codeOf_short (h : t.length < 3) : codeOf t < 227 := by
  have hdigits : ∀ d ∈ (t.take 3).filter isdigit, isdigit d = true := fun d hd => (List.mem_filter.mp hd).2
  have hlen : ((t.take 3).filter isdigit).length ≤ 2 := by
    have h1 := List.length_filter_le isdigit (t.take 3)
    have h2 := List.length_take_le 3 t
    rw [List.length_take] at h1
    omega
  calc codeOf t < 10 ^ ((t.take 3).filter isdigit).length := number_lt _ hdigits
    _ ≤ 10 ^ 2 := Nat.pow_le_pow_right (by decide) hlen
    _ < 227 := by decide

/-- 227 is seen at the third character of a line, or not at all. -/
theorem seen_concat (s : Locals) (seen : Bool) (t : List UInt8) (c : UInt8) :
    ((seen || codeOf t = 227) || ((t.foldl Locals.char s.fresh).count c).code = 227) =
      (seen || codeOf (t ++ [c]) = 227) := by
  obtain ⟨hdig, -, -, hcode⟩ := foldl_char s t
  have hcount : ((t.foldl Locals.char s.fresh).count c).code =
      if t.length + 1 < 4 ∧ isdigit c = true then (t.foldl Locals.char s.fresh).code * 10 + digit c
      else (t.foldl Locals.char s.fresh).code := by
    rw [Locals.count, hdig]
  rw [hcount, hcode, codeOf_concat]
  by_cases hshort : t.length + 1 < 4
  · have hnone : ¬ (t[3]? = some DASH ∧ s.continuation ≠ 0) := by
      rw [List.getElem?_eq_none (by omega)]
      exact fun h => by cases h.1
    have hno : codeOf t ≠ 227 := by
      have := codeOf_short (t := t) (by omega)
      omega
    rw [if_neg hnone, decide_eq_false hno, Bool.or_false]
  · simp only [hshort, false_and, if_false]
    by_cases hdash : t[3]? = some DASH ∧ s.continuation ≠ 0
    · rw [if_pos hdash]
      simp
    · rw [if_neg hdash, Bool.or_assoc, Bool.or_self]

/-- The text from the first digit on, with one more character. -/
theorem addressLine_concat (seen : Bool) (raw t : List UInt8) (c : UInt8)
    (hlate : 4 ≤ t.length → codeOf (t ++ [c]) = codeOf t) :
    (addressLine (seen, raw) (t ++ [c])).2 =
      if (addressLine (seen, raw) t).2 ≠ [] then (addressLine (seen, raw) t).2 ++ [c]
      else if (seen || codeOf (t ++ [c]) = 227) = true ∧ t.length + 1 > 4 ∧ isdigit c = true then [c] else [] := by
  simp only [addressLine]
  by_cases hraw : raw = []
  · simp only [hraw, ne_eq, not_true_eq_false, if_false]
    by_cases hlen : 4 ≤ t.length
    · rw [hlate hlen]
      by_cases hseen : (seen || codeOf t = 227) = true
      · simp only [hseen, if_true, true_and, List.drop_append_of_le_length hlen, List.dropWhile_append]
        cases hdw : (t.drop 4).dropWhile fun c => !isdigit c with
        | nil =>
          by_cases hc : isdigit c = true
          · have hlong : t.length + 1 > 4 := Nat.succ_lt_succ hlen
            simp only [List.isEmpty_nil, if_true, List.dropWhile_cons, hc, Bool.not_true, Bool.false_eq_true, if_false,
              not_true_eq_false, hlong, and_self]
          · simp [hc]
        | cons d ds => simp
      · simp [hseen]
    · have hdrop : (t ++ [c]).drop 4 = [] := by
        rw [List.drop_eq_nil_iff, List.length_append, List.length_singleton]
        omega
      have hdrop' : t.drop 4 = [] := List.drop_eq_nil_iff.mpr (by omega)
      have hfew : ¬ t.length + 1 > 4 := by omega
      simp only [hdrop, hdrop', List.dropWhile_nil, ite_self, not_true_eq_false, if_false, hfew, false_and, and_false]
  · have hne : raw ++ t ≠ [] := fun h => hraw (List.append_eq_nil_iff.mp h).1
    rw [if_pos hraw, if_pos hraw, if_pos hne, List.append_assoc]

theorem watching_line (h : Watching s seen raw) (t : List UInt8) :
    Watching (t.foldl Locals.char s.fresh) (addressLine (seen, raw) t).1 (addressLine (seen, raw) t).2 := by
  induction t using List.reverseRecOn with
  | nil =>
    have hw : addressLine (seen, raw) [] = (seen, raw) := by
      simp [addressLine, codeOf, number]
    rw [hw]
    exact ⟨h.stores, h.pt, h.pflag, h.started⟩
  | append_singleton t c ih =>
    obtain ⟨hdig, -, -, -⟩ := foldl_char s t
    have hlate : 4 ≤ t.length → codeOf (t ++ [c]) = codeOf t := by
      intro hlen
      rw [codeOf_concat, if_neg fun h => absurd h.1 (by omega)]
    rw [List.foldl_append, List.foldl_cons, List.foldl_nil, addressLine_concat seen raw t c hlate]
    have hfst : (addressLine (seen, raw) (t ++ [c])).1 =
        ((addressLine (seen, raw) t).1 || ((t.foldl Locals.char s.fresh).count c).code = 227) :=
      (seen_concat s seen t c).symm
    rw [hfst]
    by_cases hraw : (addressLine (seen, raw) t).2 = []
    · rw [if_neg fun h => h hraw]
      rw [hraw] at ih
      have hnext := watching_nil (c := c) ih
      rw [hdig] at hnext
      have hseen : ((addressLine (seen, raw) t).1 || ((t.foldl Locals.char s.fresh).count c).code = 227) =
          (seen || codeOf (t ++ [c]) = 227) := seen_concat s seen t c
      rw [hseen] at hnext ⊢
      exact hnext
    · rw [if_pos hraw]
      exact watching_more ih hraw _

/-! ## Telnet commands -/

theorem char_send (s : Locals) (m : List UInt8) (c : UInt8) : (s.send m).char c = (s.char c).send m := by
  have hcopy : ∀ w : Locals, (w.send m).copy c = (w.copy c).send m := by
    intro w
    unfold Locals.copy
    show (if w.pflag = 2 then _ else _) = _
    split
    · split <;> rfl
    · rfl
  have hdash : ∀ w : Locals, (w.send m).dash c = (w.dash c).send m := by
    intro w
    unfold Locals.dash
    show (if w.dig = 4 ∧ c = DASH then _ else _) = _
    split <;> rfl
  have hfront : ((s.send m).count c).watch c = ((s.count c).watch c).send m := rfl
  rw [Locals.char, hfront, hcopy, hdash]
  rfl

theorem foldl_send (s : Locals) (m t : List UInt8) :
    t.foldl Locals.char (s.send m) = (t.foldl Locals.char s).send m := by
  induction t generalizing s with
  | nil => rfl
  | cons c t ih => rw [List.foldl_cons, List.foldl_cons, char_send, ih]

/-- The inner loop takes the characters up to a newline, and answers the telnet commands. -/
def TakesLine (cin : List UInt8) (s : Locals) : Prop :=
  (LF ∉ plain cin ∧ ∃ m d, line cin s = (none, { ((plain cin).foldl Locals.char s).send m with dig := d })) ∨
    ∃ t cin' m, plain cin = t ++ LF :: plain cin' ∧ LF ∉ t ∧ cin'.length < cin.length ∧
      line cin s = (some cin', (t.foldl Locals.char s).send m)

/-- Behind a telnet command. -/
theorem takesLine_command {cin : List UInt8} (cin' m : List UInt8) (hplain : plain cin = plain cin')
    (hlen : cin'.length ≤ cin.length) (hline : line cin s = line cin' (s.send m)) (h : TakesLine cin' (s.send m)) : TakesLine cin s := by
  rcases h with ⟨hlf, m', d, hend⟩ | ⟨t, rest, m', ht, hlf, hshort, hend⟩
  · left
    rw [hplain, hline, hend, foldl_send]
    exact ⟨hlf, m ++ m', d, by simp only [Locals.send, List.append_assoc]⟩
  · right
    refine ⟨t, rest, m ++ m', hplain.trans ht, hlf, by omega, ?_⟩
    rw [hline, hend, foldl_send]
    simp only [Locals.send, List.append_assoc]

theorem send_nil (s : Locals) : s.send [] = s := by
  rw [Locals.send, List.append_nil]

/-- The stream ends in the middle of a line. -/
theorem takesLine_eof {cin : List UInt8} (m : List UInt8) (hplain : plain cin = [])
    (hline : line cin s = (none, { s.send m with dig := s.dig + 1 })) : TakesLine cin s := by
  left
  rw [hplain]
  exact ⟨List.not_mem_nil, m, s.dig + 1, hline⟩

theorem takesLine (cin : List UInt8) (s : Locals) : TakesLine cin s := by
  induction cin, s using line.induct with
  | case1 s => exact takesLine_eof [] rfl (by rw [send_nil]; rfl)
  | case2 cin s =>
    right
    refine ⟨[], cin, [], ?_, List.not_mem_nil, Nat.lt_succ_self _, ?_⟩
    · rw [plain.eq_def]
      exact if_neg (by decide)
    · rw [line.eq_def, List.foldl_nil, send_nil]
      rfl
  | case3 s hlf => exact takesLine_eof [] rfl (by rw [send_nil]; rfl)
  | case4 s d hd hlf =>
    apply takesLine_eof [IAC, DONT, 0xff]
    · rcases hd with rfl | rfl <;> rfl
    · rcases hd with rfl | rfl <;> rfl
  | case5 s d hd o cin hlf ih =>
    apply takesLine_command cin [IAC, DONT, o] ?_ ?_ ?_ ih
    · rcases hd with rfl | rfl <;> rfl
    · simp only [List.length_cons]
      omega
    · rcases hd with rfl | rfl <;> rfl
  | case6 s d hd hd' hlf =>
    apply takesLine_eof [IAC, WONT, 0xff]
    · rcases hd' with rfl | rfl <;> rfl
    · rcases hd' with rfl | rfl <;> rfl
  | case7 s d hd hd' o cin hlf ih =>
    apply takesLine_command cin [IAC, WONT, o] ?_ ?_ ?_ ih
    · rcases hd' with rfl | rfl <;> rfl
    · simp only [List.length_cons]
      omega
    · rcases hd' with rfl | rfl <;> rfl
  | case8 s d cin hd hd' hlf ih =>
    have hplain : plain (IAC :: d :: cin) = plain cin := by
      rw [not_or] at hd hd'
      rw [plain.eq_def]
      simp only [if_true, hd.1, hd.2, hd'.1, hd'.2, or_self, if_false]
    have hline : line (IAC :: d :: cin) s = line cin s := by
      rw [line.eq_def]
      simp only [hlf, hd, hd', if_true, if_false]
    apply takesLine_command cin [] hplain ?_ ?_ ?_
    · simp only [List.length_cons]
      omega
    · rw [send_nil]
      exact hline
    · rw [send_nil]
      exact ih
  | case9 c cin s hlf hiac ih =>
    have hplain : plain (c :: cin) = c :: plain cin := by
      rw [plain.eq_def]
      simp only [hiac, if_false]
    have hline : line (c :: cin) s = line cin (s.char c) := by
      rw [line.eq_def]
      simp only [hlf, hiac, if_false]
    rcases ih with ⟨hno, m, d, hend⟩ | ⟨t, rest, m, ht, hno, hshort, hend⟩
    · left
      rw [hplain, hline, hend, List.mem_cons, not_or]
      exact ⟨⟨fun h => hlf h.symm, hno⟩, m, d, rfl⟩
    · right
      refine ⟨c :: t, rest, m, ?_, ?_, Nat.lt_succ_of_lt hshort, ?_⟩
      · rw [hplain, ht]
        rfl
      · rw [List.mem_cons, not_or]
        exact ⟨fun h => hlf h.symm, hno⟩
      · rw [hline, hend]
        rfl

/-! ## A call -/

/-- What a call has copied, and whether its code can be 227. -/
def Copied (ls : List (List UInt8) × Bool) (w : Bool × List UInt8) (code : Nat) (o : Outcome) : Prop :=
  Watching o.locals (ls.1.foldl addressLine w).1 (ls.1.foldl addressLine w).2 ∧
    (o.code = 227 ↔ ls.2 = true ∧ code = 227)

theorem splitOn_ne_nil (cin : List UInt8) : (plain cin).splitOn LF ≠ [] := List.splitOn_ne_nil _ _

theorem readRest_cons {ts : List (List UInt8)} (h : ts ≠ []) :
    readRest v (t :: ts) = if ends v t = true then ([t], true) else (t :: (readRest v ts).1, (readRest v ts).2) := by
  obtain ⟨u, us, rfl⟩ := List.exists_cons_of_ne_nil h
  rfl

/-- A stream that ends within a line. -/
theorem loop_eof {cin m : List UInt8} {d : Nat} (hs : Watching s seen raw)
    (h : line cin s.fresh = (none, { ((plain cin).foldl Locals.char s.fresh).send m with dig := d })) (code : Nat) :
    ∃ o, loop e (k + 1) cin s = some o ∧ Copied ([plain cin], false) (seen, raw) code o := by
  have hw := watching_line hs (plain cin)
  rw [loop, h]
  refine ⟨_, rfl, ?_, ?_⟩
  · cases e <;> exact ⟨hw.stores, hw.pt, hw.pflag, hw.started⟩
  · cases e <;> simp

theorem loop_readRest {cin : List UInt8} (hv : v ≠ 0) (hin : Within v s) (hs : Watching s seen raw)
    (hk : cin.length < k) :
    ∃ o, loop e k cin s = some o ∧ Copied (readRest v ((plain cin).splitOn LF)) (seen, raw) v o := by
  induction k generalizing cin s seen raw with
  | zero => omega
  | succ k ih =>
    rcases takesLine cin s.fresh with ⟨hlf, m, d, hend⟩ | ⟨t, cin', m, ht, hlf, hshort, hend⟩
    · rw [List.splitOn_eq_singleton hlf]
      exact loop_eof hs hend v
    · obtain ⟨hw, hends⟩ := within_foldl hv hin t
      have hwatch := watching_line hs t
      rw [ht, List.splitOn_append_cons_self_of_not_mem hlf, readRest_cons (splitOn_ne_nil cin'), loop, hend]
      by_cases h : ends v t = true
      · have hstop : ¬ (((t.foldl Locals.char s.fresh).send m).continuation ≠ 0 ∧
            ((t.foldl Locals.char s.fresh).send m).code ≠ ((t.foldl Locals.char s.fresh).send m).originalcode) :=
          fun hgo => hgo.2 ((hends.mpr h).trans hw.original.symm)
        simp only [if_neg hstop, if_pos h]
        refine ⟨_, rfl, ⟨hwatch.stores, hwatch.pt, hwatch.pflag, hwatch.started⟩, ?_⟩
        show (t.foldl Locals.char s.fresh).code = 227 ↔ _
        rw [hends.mpr h]
        simp
      · have hgo : ((t.foldl Locals.char s.fresh).send m).continuation ≠ 0 ∧
            ((t.foldl Locals.char s.fresh).send m).code ≠ ((t.foldl Locals.char s.fresh).send m).originalcode :=
          ⟨hw.continued, fun hcode => h (hends.mp (hcode.trans hw.original))⟩
        have hknown : ¬ ((t.foldl Locals.char s.fresh).send m).originalcode = 0 :=
          fun h0 => hv (hw.original.symm.trans h0)
        simp only [if_pos hgo, if_neg hknown, if_neg h]
        have hsent : Watching ((t.foldl Locals.char s.fresh).send m) (addressLine (seen, raw) t).1
            (addressLine (seen, raw) t).2 := ⟨hwatch.stores, hwatch.pt, hwatch.pflag, hwatch.started⟩
        exact ih ⟨hw.original, hw.continued⟩ hsent (by omega)

theorem reading_cons {ts : List (List UInt8)} (h : ts ≠ []) :
    reading (t :: ts) =
      if t[3]? = some DASH ∧ codeOf t ≠ 0 then (t :: (readRest (codeOf t) ts).1, (readRest (codeOf t) ts).2)
      else ([t], true) := by
  obtain ⟨u, us, rfl⟩ := List.exists_cons_of_ne_nil h
  rfl

/-- The first line of what is read. -/
theorem head_reading {ts : List (List UInt8)} : (reading (t :: ts)).1.head? = some t := by
  cases ts with
  | nil => rfl
  | cons u us =>
    rw [reading_cons (List.cons_ne_nil u us)]
    split <;> rfl

/-- The reply is read as `reading` says. -/
theorem getreply_reading (cin : List UInt8) :
    ∃ o, getreply e cin = some o ∧
      Copied (reading ((plain cin).splitOn LF)) (false, []) (((replyLines cin).head?.map codeOf).getD 0) o := by
  have hinit : Watching Locals.init false [] := ⟨rfl, rfl, rfl, fun h => absurd rfl h⟩
  rcases takesLine cin Locals.init.fresh with ⟨hlf, m, d, hend⟩ | ⟨t, cin', m, ht, hlf, hshort, hend⟩
  · rw [replyLines, List.splitOn_eq_singleton hlf]
    exact loop_eof hinit hend _
  · obtain ⟨-, horig, hcont, hcode⟩ := foldl_char Locals.init t
    have hfresh : ¬ (t[3]? = some DASH ∧ Locals.init.continuation ≠ 0) := fun h => h.2 rfl
    have hwatch := watching_line hinit t
    rw [if_neg hfresh] at hcode
    have hhead : ((replyLines cin).head?.map codeOf).getD 0 = codeOf t := by
      rw [replyLines, ht, List.splitOn_append_cons_self_of_not_mem hlf, head_reading]
      rfl
    have hgo : ((t.foldl Locals.char Locals.init.fresh).send m).continuation ≠ 0 ∧
        ((t.foldl Locals.char Locals.init.fresh).send m).code ≠
          ((t.foldl Locals.char Locals.init.fresh).send m).originalcode ↔ t[3]? = some DASH ∧ codeOf t ≠ 0 := by
      show (t.foldl Locals.char Locals.init.fresh).continuation ≠ 0 ∧
        (t.foldl Locals.char Locals.init.fresh).code ≠ (t.foldl Locals.char Locals.init.fresh).originalcode ↔ _
      rw [hcont, hcode, horig]
      by_cases hdash : t[3]? = some DASH
      · rw [if_pos hdash]
        exact ⟨fun h => ⟨hdash, h.2⟩, fun h => ⟨Nat.succ_ne_zero _, h.2⟩⟩
      · rw [if_neg hdash]
        exact ⟨fun h => absurd rfl h.1, fun h => absurd h.1 hdash⟩
    rw [hhead, ht, List.splitOn_append_cons_self_of_not_mem hlf, reading_cons (splitOn_ne_nil cin'), getreply,
      loop, hend]
    by_cases h : t[3]? = some DASH ∧ codeOf t ≠ 0
    · have hknown : ((t.foldl Locals.char Locals.init.fresh).send m).originalcode = 0 := horig
      simp only [if_pos (hgo.mpr h), if_pos hknown, if_pos h]
      have hwithin : Within (codeOf t) { (t.foldl Locals.char Locals.init.fresh).send m with
          originalcode := ((t.foldl Locals.char Locals.init.fresh).send m).code } :=
        ⟨hcode, (hgo.mpr h).1⟩
      have hsent : Watching { (t.foldl Locals.char Locals.init.fresh).send m with
          originalcode := ((t.foldl Locals.char Locals.init.fresh).send m).code } (addressLine (false, []) t).1
          (addressLine (false, []) t).2 := ⟨hwatch.stores, hwatch.pt, hwatch.pflag, hwatch.started⟩
      exact loop_readRest h.2 hwithin hsent hshort
    · simp only [if_neg fun hc => h (hgo.mp hc), if_neg h]
      refine ⟨_, rfl, ⟨hwatch.stores, hwatch.pt, hwatch.pflag, hwatch.started⟩, ?_⟩
      show (t.foldl Locals.char Locals.init.fresh).code = 227 ↔ _
      rw [hcode]
      simp

/-! ## pasv -/

theorem foldl_put {m : List UInt8} (a : List UInt8) (h : a.length ≤ m.length) :
    (put a).foldl (fun m st => m.set st.1 st.2) m = a ++ m.drop a.length := by
  induction a using List.reverseRecOn with
  | nil => rfl
  | append_singleton a c ih =>
    rw [List.length_append, List.length_singleton] at h
    rw [put_concat, List.foldl_append, ih (by omega), List.foldl_cons, List.foldl_nil]
    rw [List.set_append_right _ _ (Nat.le_refl _), Nat.sub_self, List.drop_eq_getElem_cons (by omega),
      List.set_cons_zero, List.append_assoc, List.length_append]
    rfl

/-- The stores of an address of at most 64 characters, with its NUL. -/
theorem stored_storesOf (pasv : Pasv) (raw : List UInt8)
    (h : (raw.takeWhile goes).length + (if raw.all goes = true then 0 else 1) ≤ 64) :
    stored pasv (storesOf raw) = raw.takeWhile goes ++
      if raw.all goes = true then pasv.bytes.drop (raw.takeWhile goes).length
      else NUL :: pasv.bytes.drop ((raw.takeWhile goes).length + 1) := by
  have hlen := pasv.length
  rw [stored, storesOf, List.foldl_append, foldl_put _ (by omega)]
  by_cases hall : raw.all goes = true
  · rw [if_pos hall, if_pos hall, List.foldl_nil]
  · rw [if_neg hall] at h
    rw [if_neg hall, if_neg hall, List.foldl_cons, List.foldl_nil, List.set_append_right _ _ (Nat.le_refl _),
      Nat.sub_self, List.drop_eq_getElem_cons (by omega), List.set_cons_zero]

theorem offsets_put (a : List UInt8) (n : Nat) : (∀ st ∈ put a, st.1 < n) ↔ a.length ≤ n := by
  induction a using List.reverseRecOn with
  | nil => exact ⟨fun _ => Nat.zero_le n, fun _ st hst => absurd hst List.not_mem_nil⟩
  | append_singleton a c ih =>
    rw [put_concat, List.length_append, List.length_singleton]
    simp only [List.mem_append, List.mem_singleton, or_imp, forall_and, forall_eq, ih]
    omega

/-- All stores of an address are in pasv, if the address and its NUL go into it. -/
theorem offsets_storesOf (raw : List UInt8) :
    (∀ st ∈ storesOf raw, st.1 < 64) ↔ (raw.takeWhile goes).length + (if raw.all goes = true then 0 else 1) ≤ 64 := by
  rw [storesOf]
  by_cases hall : raw.all goes = true
  · rw [if_pos hall, if_pos hall, List.append_nil, offsets_put, Nat.add_zero]
  · rw [if_neg hall, if_neg hall]
    simp only [List.mem_append, List.mem_singleton, or_imp, forall_and, forall_eq, offsets_put]
    omega

theorem cstring_append_of_mem {a m : List UInt8} (h : NUL ∈ a) : cstring (a ++ m) = cstring a := by
  obtain ⟨b, d, rfl, hb⟩ := List.eq_append_cons_of_mem h
  have hnul : ∀ r, cstring (NUL :: r) = [] := fun r => List.takeWhile_cons_of_neg (by decide)
  rw [List.append_assoc, List.cons_append, cstring_append_of_not_mem hb, cstring_append_of_not_mem hb, hnul, hnul]

/-- The string in pasv, where all that has been copied is from the reply. -/
theorem isText_append {chars a m : List UInt8} (ha : ∀ c ∈ a, c ∈ chars) :
    IsText chars (a ++ m) ↔ NUL ∈ a ∨ IsText chars m := by
  by_cases hnul : NUL ∈ a
  · have hsub : ∀ c ∈ cstring a, c ∈ chars := fun c hc => ha c ((cstring_prefix_self a).subset hc)
    rw [IsText, cstring_append_of_mem hnul]
    exact ⟨fun _ => Or.inl hnul, fun _ => ⟨List.mem_append_left m hnul, hsub⟩⟩
  · rw [IsText, IsText, cstring_append_of_not_mem hnul]
    simp only [List.mem_append, hnul, false_or, or_imp, forall_and]
    exact ⟨fun h => ⟨h.1, h.2.2⟩, fun h => ⟨h.1, ha, h.2⟩⟩

theorem addressLine_subset (w : Bool × List UInt8) (t : List UInt8) : ∀ c ∈ (addressLine w t).2, c ∈ w.2 ∨ c ∈ t := by
  intro c hc
  simp only [addressLine] at hc
  split at hc
  · exact List.mem_append.mp hc
  · split at hc
    · exact Or.inr (List.mem_of_mem_drop ((List.dropWhile_suffix _).subset hc))
    · exact absurd hc List.not_mem_nil

theorem fromDigit_subset (ls : List (List UInt8)) : ∀ c ∈ fromDigit ls, c ∈ ls.flatten := by
  have hfold : ∀ (ls : List (List UInt8)) (w : Bool × List UInt8),
      ∀ c ∈ (ls.foldl addressLine w).2, c ∈ w.2 ∨ c ∈ ls.flatten := by
    intro ls
    induction ls with
    | nil => exact fun w c hc => Or.inl hc
    | cons t ls ih =>
      intro w c hc
      rw [List.flatten_cons, List.mem_append]
      rcases ih (addressLine w t) c hc with h | h
      · exact (addressLine_subset w t c h).imp_right Or.inl
      · exact Or.inr (Or.inr h)
  intro c hc
  exact (hfold ls (false, []) c hc).resolve_left List.not_mem_nil

/-- Whatever the server sends: getreply stores into pasv only, and leaves the address of a 227
    reply there as a string, just if it goes into pasv and something ends it. -/
theorem safe_iff (e : Bool) (pasv : Pasv) (cin : List UInt8) :
    ∃ o, getreply e cin = some o ∧ (Safe pasv cin o ↔ Fits pasv cin) := by
  obtain ⟨o, ho, hw, hcode⟩ := getreply_reading (e := e) cin
  refine ⟨o, ho, ?_⟩
  have hstores : o.locals.stores = storesOf (fromDigit (replyLines cin)) := hw.stores
  have h227 : o.code = 227 ↔ Is227 cin := by
    rw [hcode, Is227]
    cases (replyLines cin).head? with
    | none => simp
    | some t => simp
  have hend : isEnded (replyLines cin) = true ↔ ¬ (fromDigit (replyLines cin)).all goes = true := by
    rw [isEnded, Bool.not_eq_true', Bool.not_eq_true]
  have hroom : (if (fromDigit (replyLines cin)).all goes = true then 0 else 1) =
      if isEnded (replyLines cin) = true then 1 else 0 := by
    simp only [hend, ite_not]
  have haddr : ∀ c ∈ address (replyLines cin), c ∈ (replyLines cin).flatten := fun c hc =>
    fromDigit_subset _ c ((List.takeWhile_prefix goes).subset hc)
  rw [Safe, Fits, hstores, offsets_storesOf, hroom, h227]
  apply and_congr_right
  intro hfit
  apply imp_congr_right
  intro _
  rw [stored_storesOf pasv _ (by rw [hroom]; exact hfit)]
  change IsText _ (address (replyLines cin) ++ _) ↔ _
  rw [isText_append haddr]
  by_cases hall : (fromDigit (replyLines cin)).all goes = true
  · rw [if_pos hall]
    exact ⟨Or.inr, fun h => h.resolve_left fun h => hend.mp h hall⟩
  · rw [if_neg hall]
    refine ⟨fun _ => Or.inl (hend.mpr hall), fun _ => Or.inr ⟨List.mem_cons_self, fun c hc => ?_⟩⟩
    rw [show cstring (NUL :: _) = [] from List.takeWhile_cons_of_neg (by decide)] at hc
    cases hc

def zeroPasv : Pasv := ⟨List.replicate 64 0, List.length_replicate⟩

/-- `227 `, 65 digits and the end of the line. -/
def longAddress : List UInt8 := [0x32, 0x32, 0x37, BLANK] ++ List.replicate 65 0x31 ++ [CR, LF]

set_option maxRecDepth 4000 in
/-- The digits and their NUL do not go into pasv. -/
theorem a_long_address_overruns : ∃ o, getreply false longAddress = some o ∧ ¬ Safe zeroPasv longAddress o := by
  obtain ⟨o, ho, hw, -⟩ := getreply_reading (e := false) longAddress
  refine ⟨o, ho, fun h => ?_⟩
  have hstores : o.locals.stores = storesOf (fromDigit (replyLines longAddress)) := hw.stores
  have hin := h.1
  rw [hstores, offsets_storesOf] at hin
  exact absurd hin (by decide)

end Netutils.Ftp.Getreply
