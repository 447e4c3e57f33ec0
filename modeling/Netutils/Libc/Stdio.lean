/-
  Netutils.Libc.Stdio — fgets, as the programs that read lists and configurations use it, and
  the string that is in a buffer.
-/

import Mathlib.Data.List.Basic
import Mathlib.Data.List.TakeWhile
import Netutils.Arpa

namespace Netutils.Libc

open Netutils.Arpa

/-! ## fgets -/

/-- At most `n` bytes, up to a newline. -/
def piece : Nat → List UInt8 → List UInt8 × List UInt8
  | 0, f => ([], f)
  | _ + 1, [] => ([], [])
  | n + 1, c :: f =>
    if c = LF then ([c], f)
    else
      let r := piece n f
      (c :: r.1, r.2)

/-- `none` at the end of the file. -/
def fgets (n : Nat) (f : List UInt8) : Option (List UInt8 × List UInt8) :=
  if f = [] then none else some (piece (n - 1) f)

/-- The string in a buffer of these bytes. -/
def cstring (l : List UInt8) : List UInt8 := l.takeWhile (· ≠ NUL)

/-- The lines that at most `k` calls of `fgets (buf, size, fp)` find. -/
def fgetsLoop (size : Nat) : Nat → List UInt8 → List (List UInt8)
  | 0, _ => []
  | k + 1, f =>
    match fgets size f with
    | none => []
    | some (s, f) => s :: fgetsLoop size k f

/-- The lines up to the end of the file. -/
def fgetsAll (size : Nat) (f : List UInt8) : List (List UInt8) := fgetsLoop size f.length f

/-! ## One piece -/

variable {f a b : List UInt8} {n : Nat}

theorem piece_cons (n : Nat) (c : UInt8) (f : List UInt8) :
    piece (n + 1) (c :: f) = if c = LF then ([c], f) else (c :: (piece n f).1, (piece n f).2) := rfl

theorem piece_append (n : Nat) (f : List UInt8) : (piece n f).1 ++ (piece n f).2 = f := by
  induction f generalizing n with
  | nil => cases n <;> rfl
  | cons c f ih =>
    cases n with
    | zero => rfl
    | succ n =>
      rw [piece_cons]
      split
      · rfl
      · exact congrArg (c :: ·) (ih n)

/-- The file gets shorter. -/
theorem length_piece (hn : 0 < n) (hf : f ≠ []) : (piece n f).2.length < f.length := by
  obtain ⟨n, rfl⟩ : ∃ k, n = k + 1 := ⟨n - 1, by omega⟩
  cases f with
  | nil => exact absurd rfl hf
  | cons c f =>
    have hlen := congrArg List.length (piece_append n f)
    rw [List.length_append] at hlen
    rw [piece_cons]
    split
    · exact Nat.lt_succ_self _
    · simp only [List.length_cons]
      omega

theorem length_piece_le (n : Nat) (f : List UInt8) : (piece n f).1.length ≤ n := by
  induction f generalizing n with
  | nil => cases n <;> exact Nat.zero_le _
  | cons c f ih =>
    cases n with
    | zero => exact Nat.le_refl _
    | succ n =>
      rw [piece_cons]
      split
      · exact Nat.succ_le_succ (Nat.zero_le _)
      · exact Nat.succ_le_succ (ih n)

/-- A newline can only be the last byte. -/
theorem lf_not_mem_dropLast_piece (n : Nat) (f : List UInt8) : LF ∉ (piece n f).1.dropLast := by
  induction f generalizing n with
  | nil => cases n <;> exact List.not_mem_nil
  | cons c f ih =>
    cases n with
    | zero => exact List.not_mem_nil
    | succ n =>
      rw [piece_cons]
      split
      · exact List.not_mem_nil
      · rename_i hc
        have hrest := ih n
        show LF ∉ (c :: (piece n f).1).dropLast
        revert hrest
        rcases (piece n f).1 with _ | ⟨d, s⟩ <;> intro hrest
        · exact List.not_mem_nil
        · rw [List.dropLast_cons_cons, List.mem_cons, not_or]
          exact ⟨fun h => hc h.symm, hrest⟩

theorem piece_of_not_mem (h : LF ∉ f) : piece n f = (f.take n, f.drop n) := by
  induction f generalizing n with
  | nil => cases n <;> rfl
  | cons c f ih =>
    rw [List.mem_cons, not_or] at h
    cases n with
    | zero => rfl
    | succ n => rw [piece_cons, if_neg (fun hc => h.1 hc.symm), ih h.2, List.take_succ_cons, List.drop_succ_cons]

theorem piece_line (ha : LF ∉ a) (hlen : a.length < n) : piece n (a ++ LF :: b) = (a ++ [LF], b) := by
  induction a generalizing n with
  | nil =>
    obtain ⟨n, rfl⟩ : ∃ k, n = k + 1 := ⟨n - 1, by rw [List.length_nil] at hlen; omega⟩
    rfl
  | cons c a ih =>
    rw [List.mem_cons, not_or] at ha
    obtain ⟨n, rfl⟩ : ∃ k, n = k + 1 := ⟨n - 1, by omega⟩
    rw [List.cons_append, piece_cons, if_neg (fun hc => ha.1 hc.symm), ih ha.2 (Nat.lt_of_succ_lt_succ hlen)]
    rfl

theorem piece_full (ha : LF ∉ a) : piece a.length (a ++ f) = (a, f) := by
  induction a with
  | nil => cases f <;> rfl
  | cons c a ih =>
    rw [List.mem_cons, not_or] at ha
    rw [List.length_cons, List.cons_append, piece_cons, if_neg (fun hc => ha.1 hc.symm), ih ha.2]

/-- Each call reads something, so that as many as there are characters are enough. -/
theorem flatten_fgetsAll {size : Nat} (hsize : 2 ≤ size) (f : List UInt8) : (fgetsAll size f).flatten = f := by
  have hloop : ∀ k f, f.length ≤ k → (fgetsLoop size k f).flatten = f := by
    intro k
    induction k with
    | zero =>
      intro f hk
      rw [List.length_eq_zero_iff.mp (Nat.le_zero.mp hk), fgetsLoop, List.flatten_nil]
    | succ k ih =>
      intro f hk
      rw [fgetsLoop, fgets]
      by_cases hf : f = []
      · rw [if_pos hf, hf]
        rfl
      · rw [if_neg hf]
        have hlt : (piece (size - 1) f).2.length < f.length := length_piece (by omega) hf
        simp only [List.flatten_cons]
        rw [ih _ (by omega), piece_append]
  exact hloop _ f (Nat.le_refl _)

/-! ## Strings -/

theorem cstring_nul (l : List UInt8) : NUL ∉ cstring l := by
  intro h
  simpa using List.mem_takeWhile_imp h

theorem cstring_of_not_mem (h : NUL ∉ a) : cstring a = a := by
  rw [cstring, List.takeWhile_eq_self_iff]
  intro c hc
  have hne : c ≠ NUL := fun he => h (he ▸ hc)
  simpa using hne

theorem cstring_prefix_self (l : List UInt8) : cstring l <+: l := List.takeWhile_prefix _

theorem length_cstring_le (l : List UInt8) : (cstring l).length ≤ l.length := (cstring_prefix_self l).length_le

theorem cstring_append_of_not_mem (h : NUL ∉ a) (m : List UInt8) : cstring (a ++ m) = a ++ cstring m := by
  apply List.takeWhile_append_of_pos
  intro c hc
  rw [decide_eq_true_eq]
  intro hne
  exact h (hne ▸ hc)

/-- The string ends at the NUL. -/
theorem cstring_append_nul (h : NUL ∉ a) (m : List UInt8) : cstring (a ++ NUL :: m) = a := by
  rw [cstring_append_of_not_mem h]
  exact List.append_nil a

theorem cstring_append (hbuf : NUL ∉ buf) (ha : NUL ∉ a) : cstring (buf ++ a) = buf ++ a :=
  cstring_of_not_mem fun h => (List.mem_append.mp h).elim hbuf ha

end Netutils.Libc
