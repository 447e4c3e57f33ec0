/-
  Netutils.Libinetutils.NormalizePath — normalize_path, and the path that ttymsg opens
  (libinetutils/ttymsg.c).

  Each `..` behind a delimiter is taken away with what lies between the delimiter in front of
  it and the one before that, and the search goes on there: nothing in front of p is a `..`,
  before and after (`step_kept`). It stops early at a `..` with no delimiter to go back to, and
  then the path begins with it. What does not begin with /dev/ is not opened (`opens_below_dev`).
-/

import Mathlib.Data.List.TakeDrop
import Mathlib.Data.Nat.Init
import Netutils.Libc.Ctype

namespace Netutils.Libinetutils.NormalizePath

open Netutils.Libc

/-! ## normalize_path -/

def SLASH : UInt8 := 0x2f
def DOT : UInt8 := 0x2e

/-- `strchr (path + p, '.')` -/
def strchr (path : List UInt8) (p : Nat) : Option Nat := ((path.drop p).idxOf? DOT).map (p + ·)

/-- The `.` at p begins a `..` behind a delimiter. -/
def upward (path : List UInt8) (p : Nat) : Bool :=
  0 < p && path[p - 1]? == some SLASH && path[p + 1]? == some DOT && (path[p + 2]? == none || path[p + 2]? == some SLASH)

/-- `*q`, from one byte before the path on. -/
def charAt (before : UInt8) (path : List UInt8) (q : Int) : UInt8 := if q < 0 then before else path.getD q.toNat 0

/-- `for (q = p - 2; *q != delim[0] && q >= path; q--)` for so many turns: where q is left. -/
def backward (before : UInt8) (path : List UInt8) : Nat → Int → Int
  | 0, q => q
  | n + 1, q => if charAt before path q ≠ SLASH ∧ 0 ≤ q then backward before path n (q - 1) else q

/-- `for (p = strchr (path, '.'); p; p = strchr (p, '.'))` for so many turns. -/
def eliminate (before : UInt8) : Nat → List UInt8 → Nat → Option (List UInt8)
  | 0, _, _ => none
  | n + 1, path, p =>
    match strchr path p with
    | none => some path
    | some p =>
      if upward path p then
        let q := backward before path p ((p : Int) - 2)
        if q < 0 then some path else eliminate before n (path.take q.toNat ++ path.drop (p + 2)) q.toNat
      else eliminate before n path (p + 1)

/-- normalize_path with "/" as delim, for so many turns; `before` is the byte in front of the path. -/
def normalizePath (before : UInt8) (n : Nat) (path : List UInt8) : Option (List UInt8) :=
  if path = [] then some path
  else
    let path := if path.getLast? = some SLASH then path.dropLast else path
    (eliminate before n path 0).map fun path => if path = [] then [SLASH] else path

/-- "/dev/" -/
def PATH_TTY_PFX : List UInt8 := text "/dev/"

/-- The path that ttymsg passes to open, if it does not say "bad line name". -/
def openPath (before : UInt8) (n : Nat) (line : List UInt8) : Option (Option (List UInt8)) :=
  (normalizePath before n (PATH_TTY_PFX ++ line)).map fun device => if PATH_TTY_PFX <+: device then some device else none

/-! ## Components -/

/-- It stands between two delimiters, or at an end. -/
def HasComponent (path c : List UInt8) : Prop :=
  ∃ a b, path = a ++ c ++ b ∧ (a = [] ∨ a.getLast? = some SLASH) ∧ (b = [] ∨ b.head? = some SLASH)

/-! ## The search for a delimiter -/

variable {before : UInt8} {path : List UInt8} {p q n : Nat}

theorem charAt_nat (before : UInt8) (path : List UInt8) (q : Nat) : charAt before path q = path.getD q 0 := by
  rw [charAt, if_neg (by omega)]
  rfl

/-- It comes to the last delimiter, or in front of the path, whatever is there. -/
theorem backward_spec (before : UInt8) (path : List UInt8) (n : Nat) :
    backward before path (n + 1) ((n : Int) - 1) = -1 ∧ (∀ k < n, path.getD k 0 ≠ SLASH) ∨
    ∃ q < n, backward before path (n + 1) ((n : Int) - 1) = (q : Int) ∧ path.getD q 0 = SLASH ∧ ∀ k < n, q < k → path.getD k 0 ≠ SLASH := by
  induction n with
  | zero =>
    refine .inl ⟨?_, nofun⟩
    rw [backward, if_neg (by omega)]
    rfl
  | succ n ih =>
    have hq : ((n + 1 : Nat) : Int) - 1 = (n : Int) := by omega
    rw [backward, hq, charAt_nat]
    by_cases hslash : path.getD n 0 = SLASH
    · rw [if_neg fun h => h.1 hslash]
      exact .inr ⟨n, Nat.lt_succ_self n, rfl, hslash, fun k hk hlt => by omega⟩
    · rw [if_pos ⟨hslash, by omega⟩]
      rcases ih with ⟨hend, hnone⟩ | ⟨q, hq, hend, hat, hnone⟩
      · refine .inl ⟨hend, fun k hk => ?_⟩
        rcases Nat.lt_succ_iff_lt_or_eq.mp hk with hk | rfl
        · exact hnone k hk
        · exact hslash
      · refine .inr ⟨q, by omega, hend, hat, fun k hk hlt => ?_⟩
        rcases Nat.lt_succ_iff_lt_or_eq.mp hk with hk | rfl
        · exact hnone k hk hlt
        · exact hslash

theorem strchr_none (h : strchr path p = none) (k : Nat) (hk : p ≤ k) : path[k]? ≠ some DOT := by
  intro hat
  obtain ⟨j, rfl⟩ := Nat.exists_eq_add_of_le hk
  apply List.idxOf?_eq_none_iff.mp (Option.map_eq_none_iff.mp h)
  apply List.mem_of_getElem? (i := j)
  rw [List.getElem?_drop, hat]

theorem strchr_some (h : strchr path p = some q) :
    p ≤ q ∧ path[q]? = some DOT ∧ ∀ k, p ≤ k → k < q → path[k]? ≠ some DOT := by
  obtain ⟨i, hi, rfl⟩ := Option.map_eq_some_iff.mp h
  obtain ⟨hlt, hat, hfirst⟩ := List.findIdx?_eq_some_iff_getElem.mp hi
  refine ⟨Nat.le_add_right p i, ?_, fun k hpk hk hdot => ?_⟩
  · rw [← List.getElem?_drop, List.getElem?_eq_getElem hlt, eq_of_beq hat]
  · obtain ⟨j, rfl⟩ := Nat.exists_eq_add_of_le hpk
    rw [← List.getElem?_drop] at hdot
    obtain ⟨hj, hdot⟩ := List.getElem?_eq_some_iff.mp hdot
    exact hfirst j (by omega) (beq_iff_eq.mpr hdot)

/-! ## What each turn keeps -/

/-- A `..` behind a delimiter begins at j. -/
def Up (path : List UInt8) (j : Nat) : Prop := path[j]? = some DOT ∧ upward path j = true

/-- The path begins with a delimiter, and in front of p there is no `..`. -/
structure Kept (path : List UInt8) (p : Nat) : Prop where
  root : path = [] ∨ path[0]? = some SLASH
  clear : ∀ j < p, ¬ Up path j
  le : p ≤ path.length

theorem upward_iff : upward path p = true ↔
    0 < p ∧ path[p - 1]? = some SLASH ∧ path[p + 1]? = some DOT ∧ (path[p + 2]? = none ∨ path[p + 2]? = some SLASH) := by
  simp [upward, and_assoc]

/-- It is not at the `.` that is found. -/
theorem Kept.next (h : Kept path p) (hq : strchr path p = some q) (hup : upward path q = false) : Kept path (q + 1) where
  root := h.root
  clear := by
    obtain ⟨hpq, -, hfirst⟩ := strchr_some hq
    intro j hj hat
    rcases Nat.lt_succ_iff_lt_or_eq.mp hj with hj | rfl
    · by_cases hjp : j < p
      · exact h.clear j hjp hat
      · exact hfirst j (by omega) hj hat.1
    · exact absurd (hup.symm.trans hat.2) nofun
  le := (List.getElem?_eq_some_iff.mp (strchr_some hq).2.1).1

/-- What stands behind the cut is a delimiter or the end, as before. -/
theorem Kept.cut {i : Nat} (h : Kept path p) (hpi : p ≤ i) (hfirst : ∀ k, p ≤ k → k < i → path[k]? ≠ some DOT)
    (hup : upward path i = true) (hqi : q < i - 1) (hq : path[q]? = some SLASH) :
    Kept (path.take q ++ path.drop (i + 2)) q := by
  obtain ⟨-, -, hdot, hend⟩ := upward_iff.mp hup
  have hlen : i + 1 < path.length := (List.getElem?_eq_some_iff.mp hdot).1
  have htake : (path.take q).length = q := List.length_take_of_le (by omega)
  have hbefore : ∀ k < q, (path.take q ++ path.drop (i + 2))[k]? = path[k]? := by
    intro k hk
    rw [List.getElem?_append_left (by omega), List.getElem?_take_of_lt hk]
  have hat : (path.take q ++ path.drop (i + 2))[q]? = path[i + 2]? := by
    rw [List.getElem?_append_right (by omega), htake, Nat.sub_self, List.getElem?_drop]
  refine ⟨?_, fun j hj hat' => ?_, ?_⟩
  · by_cases hq0 : q = 0
    · subst hq0
      rw [hat]
      rcases hend with hend | hend
      · left
        rw [List.take_zero, List.nil_append, List.drop_eq_nil_iff]
        exact List.getElem?_eq_none_iff.mp hend
      · exact .inr hend
    · right
      rw [hbefore 0 (by omega)]
      exact h.root.resolve_left (List.ne_nil_of_length_pos (by omega))
  · obtain ⟨hdotj, hupj⟩ := hat'
    obtain ⟨hpos, hslash, hdotj', hendj⟩ := upward_iff.mp hupj
    have hne : j + 1 ≠ q := by
      intro heq
      rw [heq, hat] at hdotj'
      rw [hdotj'] at hend
      rcases hend with hend | hend
      · cases hend
      · exact absurd (Option.some.inj hend) (by decide)
    -- so it is there before the cut, too
    have hclear : ∀ j < i, ¬ Up path j := fun k hk hup' =>
      if hkp : k < p then h.clear k hkp hup' else hfirst k (by omega) hk hup'.1
    apply hclear j (by omega)
    rw [hbefore j hj] at hdotj
    rw [hbefore (j - 1) (by omega)] at hslash
    rw [hbefore (j + 1) (by omega)] at hdotj'
    refine ⟨hdotj, upward_iff.mpr ⟨hpos, hslash, hdotj', ?_⟩⟩
    by_cases hj2 : j + 2 = q
    · exact .inr (hj2 ▸ hq)
    · rwa [hbefore (j + 2) (by omega)] at hendj
  · rw [List.length_append, htake]
    exact Nat.le_add_right q _

/-! ## The loop -/

/-- What is left: nothing goes up, or what is left begins with `..`. -/
structure Settled (path : List UInt8) : Prop where
  root : path = [] ∨ path[0]? = some SLASH
  clear : (∀ j, ¬ Up path j) ∨ path[1]? = some DOT

theorem slash_of_getD (h : path.getD q 0 = SLASH) : path[q]? = some SLASH := by
  rw [List.getD_eq_getElem?_getD] at h
  cases hq : path[q]? with
  | none =>
    rw [hq] at h
    exact absurd h (by decide)
  | some c =>
    rw [hq] at h
    exact congrArg some h

/-- There is nothing to go back to only at the root. -/
theorem Kept.stopped {i : Nat} (h : Kept path p) (hdot : path[i]? = some DOT) (hup : upward path i = true)
    (hnone : ∀ k < i - 1, path.getD k 0 ≠ SLASH) : path[1]? = some DOT := by
  have hpos := (upward_iff.mp hup).1
  have hne : path ≠ [] := List.ne_nil_of_length_pos (Nat.zero_lt_of_lt (List.getElem?_eq_some_iff.mp hdot).1)
  have hroot := h.root.resolve_left hne
  by_cases hi : i = 1
  · exact hi ▸ hdot
  · refine absurd ?_ (hnone 0 (by omega))
    rw [List.getD_eq_getElem?_getD, hroot]
    rfl

/-- Enough turns, for a path that gets shorter or is gone through. -/
theorem eliminate_settled (before : UInt8) (m : Nat) (path : List UInt8) (p : Nat) (hm : 2 * path.length - p ≤ m)
    (h : Kept path p) : ∃ r, Settled r ∧ ∀ n > m, eliminate before n path p = some r := by
  induction m using Nat.strong_induction_on generalizing path p with
  | _ m ih =>
    have hturn : ∀ n > m, ∃ k, n = k + 1 := fun n hn => ⟨n - 1, by omega⟩
    cases hq : strchr path p with
    | none =>
      refine ⟨path, ⟨h.root, .inl fun j hup => ?_⟩, fun n hn => ?_⟩
      · by_cases hj : j < p
        · exact h.clear j hj hup
        · exact strchr_none hq j (by omega) hup.1
      · obtain ⟨n, rfl⟩ := hturn n hn
        rw [eliminate, hq]
    | some i =>
      obtain ⟨hpi, hdot, hfirst⟩ := strchr_some hq
      have hi := (List.getElem?_eq_some_iff.mp hdot).1
      cases hup : upward path i with
      | false =>
        obtain ⟨r, hr, hrun⟩ := ih (m - 1) (by omega) path (i + 1) (by omega) (h.next hq hup)
        refine ⟨r, hr, fun n hn => ?_⟩
        obtain ⟨n, rfl⟩ := hturn n hn
        rw [eliminate, hq]
        simp only [hup]
        exact hrun n (by omega)
      | true =>
        obtain ⟨hpos, -, hdot', -⟩ := upward_iff.mp hup
        have hlen := (List.getElem?_eq_some_iff.mp hdot').1
        have hq2 : (i : Int) - 2 = ((i - 1 : Nat) : Int) - 1 := by omega
        have hi1 : i - 1 + 1 = i := by omega
        rcases hi1 ▸ backward_spec before path (i - 1) with ⟨hend, hnone⟩ | ⟨q, hqi, hend, hslash, -⟩
        · refine ⟨path, ⟨h.root, .inr (h.stopped hdot hup hnone)⟩, fun n hn => ?_⟩
          obtain ⟨n, rfl⟩ := hturn n hn
          rw [eliminate, hq]
          simp only [hup, if_true]
          rw [hq2, hend]
          rfl
        · have hcut := h.cut hpi hfirst hup hqi (slash_of_getD hslash)
          have hshort : (path.take q ++ path.drop (i + 2)).length = q + (path.length - (i + 2)) := by
            rw [List.length_append, List.length_take_of_le (by omega), List.length_drop]
          obtain ⟨r, hr, hrun⟩ := ih (m - 1) (by omega) _ q (by omega) hcut
          refine ⟨r, hr, fun n hn => ?_⟩
          obtain ⟨n, rfl⟩ := hturn n hn
          rw [eliminate, hq]
          simp only [hup, if_true]
          rw [hq2, hend, if_neg (by omega)]
          exact hrun n (by omega)

/-! ## What is opened -/

theorem up_of_component {path : List UInt8} (hroot : path[0]? = some SLASH) (h : HasComponent path [DOT, DOT]) :
    ∃ j, Up path j := by
  obtain ⟨a, b, rfl, ha, hb⟩ := h
  rcases ha with rfl | ha
  · exact absurd (Option.some.inj hroot) (by decide)
  · obtain ⟨a, rfl⟩ := List.getLast?_eq_some_iff.mp ha
    have hat : ∀ k, (a ++ [SLASH] ++ [DOT, DOT] ++ b)[a.length + k]? = (SLASH :: DOT :: DOT :: b)[k]? := by
      intro k
      rw [List.append_assoc, List.append_assoc, List.getElem?_append_right (by omega), Nat.add_sub_cancel_left]
      rfl
    refine ⟨a.length + 1, hat 1, upward_iff.mpr ⟨by omega, hat 0, hat 2, ?_⟩⟩
    rw [Nat.add_assoc, hat 3]
    rcases hb with rfl | hb
    · exact .inl rfl
    · obtain ⟨b, rfl⟩ := List.head?_eq_some_iff.mp hb
      exact .inr rfl

/-- The path without a last delimiter begins as before. -/
theorem normalizePath_settled (before : UInt8) (rest : List UInt8) : ∃ r, Settled r ∧
    ∀ n > 2 * (SLASH :: rest).length, normalizePath before n (SLASH :: rest) = some (if r = [] then [SLASH] else r) := by
  obtain ⟨path, hpath, hroot, hlen⟩ : ∃ path, path = (if (SLASH :: rest).getLast? = some SLASH then
      (SLASH :: rest).dropLast else SLASH :: rest) ∧ (path = [] ∨ path[0]? = some SLASH) ∧ path.length ≤ (SLASH :: rest).length := by
    refine ⟨_, rfl, ?_, ?_⟩
    · split
      · cases rest with
        | nil => exact .inl rfl
        | cons c rest => exact .inr rfl
      · exact .inr rfl
    · split
      · rw [List.length_dropLast]
        exact Nat.sub_le _ 1
      · exact Nat.le_refl _
  have hkept : Kept path 0 := ⟨hroot, fun j hj => absurd hj (Nat.not_lt_zero j), Nat.zero_le _⟩
  obtain ⟨r, hr, hrun⟩ := eliminate_settled before (2 * path.length) path 0 (Nat.sub_le _ _) hkept
  refine ⟨r, hr, fun n hn => ?_⟩
  rw [normalizePath, if_neg (List.cons_ne_nil _ _)]
  simp only
  rw [← hpath, hrun n (by omega)]
  rfl

theorem pfx_eq : PATH_TTY_PFX = [SLASH, 0x64, 0x65, 0x76, SLASH] := by decide

/-- What is left below "/dev/" does not begin with `..`. -/
theorem Settled.below {r : List UInt8} (h : Settled r) (hpre : PATH_TTY_PFX <+: (if r = [] then [SLASH] else r)) :
    ¬ HasComponent (if r = [] then [SLASH] else r) [DOT, DOT] := by
  obtain ⟨rest, hrest⟩ := hpre
  rw [pfx_eq] at hrest
  by_cases hnil : r = []
  · rw [if_pos hnil] at hrest
    cases hrest
  · rw [if_neg hnil] at hrest ⊢
    intro hcomp
    obtain ⟨j, hup⟩ := up_of_component (h.root.resolve_left hnil) hcomp
    rcases h.clear with hclear | hdot
    · exact hclear j hup
    · rw [← hrest] at hdot
      exact absurd (Option.some.inj hdot) (by decide)

/-- Whatever stands in front of the path: normalize_path ends, and a path that is opened begins with
    "/dev/" and has no component `..`. -/
theorem opens_below_dev (before : UInt8) (line : List UInt8) :
    ∃ r, (∀ n > 2 * (PATH_TTY_PFX ++ line).length, openPath before n line = some r) ∧
      ∀ device ∈ r, PATH_TTY_PFX <+: device ∧ ¬ HasComponent device [DOT, DOT] := by
  have hpath : PATH_TTY_PFX ++ line = SLASH :: (PATH_TTY_PFX.tail ++ line) := by
    rw [pfx_eq]
    rfl
  obtain ⟨r, hr, hrun⟩ := normalizePath_settled before (PATH_TTY_PFX.tail ++ line)
  rw [← hpath] at hrun
  refine ⟨if PATH_TTY_PFX <+: (if r = [] then [SLASH] else r) then some (if r = [] then [SLASH] else r) else none, ?_, ?_⟩
  · intro n hn
    rw [openPath, hrun n hn]
    rfl
  · intro device hdevice
    by_cases hpre : PATH_TTY_PFX <+: (if r = [] then [SLASH] else r)
    · rw [if_pos hpre, Option.mem_some_iff] at hdevice
      subst hdevice
      exact ⟨hpre, hr.below hpre⟩
    · rw [if_neg hpre] at hdevice
      cases hdevice

/-- Names of all kinds: one that goes up and down again, one that goes up behind a repeated
    delimiter, and two that are refused. -/
example : openPath 0x2f 40 (text "pts/../tty1") = some (some (text "/dev/tty1")) ∧
    openPath 0x2f 40 (text "/../tty1") = some (some (text "/dev/tty1")) ∧
    openPath 0x2f 40 (text "../../dev/tty1") = some none ∧ openPath 0x2f 40 (text "..") = some none := by
  decide +kernel

end Netutils.Libinetutils.NormalizePath
