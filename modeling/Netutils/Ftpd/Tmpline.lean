/-
  Netutils.Ftpd.Tmpline — telnet_fgets with what an urgent interruption has left in tmpline
  (ftpd/ftpcmd.y), and the call of the urgent handler, whose buffer is tmpline itself
  (ftpd/ftpd.c).

  Both loops count down n. The first looks at it before it stores a byte, the second behind
  that, so that a line that is not over by then gets one byte more than n, with the NUL
  (`keeps_iff`). Seven bytes of urgent data without a newline are stored in tmpline with a
  NUL behind its end (`seven_bytes_overrun`). What is stored from s on is the same whether s
  is tmpline or not (`fgets_stored`).
-/

import Netutils.Ftpd.Stream
import Netutils.Lib.Cells
import Netutils.Libc.Stdio

namespace Netutils.Ftpd.Tmpline

open Netutils.Arpa Netutils.Lib.Cells
open Netutils.Libc (cstring)

/-! ## telnet_fgets -/

/-- Where s points. -/
inductive Dest where
  | tmpline
  | elsewhere
  deriving DecidableEq

/-- tmpline and what follows it, and what has been stored from s on. -/
structure Mem where
  tmpline : Nat → UInt8
  stored : Str

namespace Mem

/-- `*cs++ = c` -/
def put (s : Dest) (m : Mem) (c : UInt8) : Mem where
  tmpline := if s = .tmpline then Lib.Cells.store m.tmpline m.stored.length [c] else m.tmpline
  stored := m.stored ++ [c]

/-- `tmpline[0] = '\0'` -/
def clear (m : Mem) : Mem := { m with tmpline := Lib.Cells.store m.tmpline 0 [NUL] }

end Mem

/-- The first loop, and the n that the second is left with; `none` if the line has been returned. -/
def copySaved (s : Dest) : Nat → Nat → Mem → Mem × Option Nat
  | 0, _, m => (m, some 0)
  | n + 1, c, m =>
    if m.tmpline c = NUL then (m, some (n + 1))
    -- `--n > 0`
    else if n = 0 then (m, some 0)
    else
      let m := m.put s (m.tmpline c)
      if m.tmpline c = LF then ((m.put s NUL).clear, none)
      else copySaved s n (c + 1) (if c = 0 then m.clear else m)

structure Call where
  mem : Mem
  rest : List UInt8
  /-- s, and not NULL, is returned. -/
  line : Bool

/-- The second loop stores a byte before it looks at n. -/
def fgets (s : Dest) (tmpline : Nat → UInt8) (n : Nat) (iop : List UInt8) : Call :=
  match copySaved s n 0 ⟨tmpline, []⟩ with
  | (m, none) => ⟨m, iop, true⟩
  | (m, some n) =>
    let r := telnetFgets (max n 1) iop
    let m := r.1.foldl (Mem.put s) m
    -- `c == EOF && cs == s`
    if m.stored = [] then ⟨m, r.2, false⟩ else ⟨m.put s NUL, r.2, true⟩

/-- `sizeof (tmpline)`, and what myoob says it is. -/
def TMPLINE : Nat := 7

/-! ## What is to be stored -/

/-- What the stream says without its TELNET commands; an IAC before the end is a byte. -/
def strip : List UInt8 → Str
  | [] => []
  | c :: l =>
    if c = IAC then
      match l with
      | [] => [IAC]
      | d :: l' =>
        if d = WILL ∨ d = WONT ∨ d = DO ∨ d = DONT then
          match l' with
          | [] => []
          | _ :: l'' => strip l''
        else if d = IAC then IAC :: strip l'
        else strip l'
    else c :: strip l

/-- A text up to its first newline. -/
def firstLine (p : Str) : Str := p.take (p.idxOf LF + 1)

/-- The string in tmpline, as far as a call for n bytes may go. -/
def saved (tmpline : Nat → UInt8) (n : Nat) : Str := cstring (slice tmpline 0 (n - 1))

/-- No more than n bytes are stored, with the NUL. -/
def Keeps (s : Dest) (tmpline : Nat → UInt8) (n : Nat) (iop : List UInt8) : Prop :=
  (fgets s tmpline n iop).mem.stored.length ≤ n

/-! ## The second loop -/

variable {c d : UInt8} {l p : List UInt8} {n : Nat}

theorem firstLine_cons (c : UInt8) (p : Str) : firstLine (c :: p) = if c = LF then [c] else c :: firstLine p := by
  by_cases hc : c = LF
  · rw [if_pos hc, firstLine, hc, List.idxOf_cons_self]
    rfl
  · rw [if_neg hc, firstLine, List.idxOf_cons_ne _ hc, List.take_succ_cons]
    rfl

theorem strip_byte (hc : c ≠ IAC) : strip (c :: l) = c :: strip l := by
  rcases l with _ | ⟨d, _ | ⟨o, l⟩⟩
  · exact if_neg hc
  · exact if_neg hc
  · exact if_neg hc

theorem strip_iac : strip (IAC :: IAC :: l) = IAC :: strip l := by
  cases l with
  | nil => rfl
  | cons o l => rfl

theorem strip_command (hd : ¬(d = WILL ∨ d = WONT ∨ d = DO ∨ d = DONT)) (hiac : d ≠ IAC) :
    strip (IAC :: d :: l) = strip l := by
  cases l with
  | nil => exact (if_neg hd).trans (if_neg hiac)
  | cons o l => exact (if_neg hd).trans (if_neg hiac)

theorem strip_option (hd : d = WILL ∨ d = WONT ∨ d = DO ∨ d = DONT) (o : UInt8) :
    strip (IAC :: d :: o :: l) = strip l :=
  if_pos hd

/-- The line of the stream, as far as there is room for it. -/
theorem telnetFgets_line (n : Nat) (l : List UInt8) : (telnetFgets n l).1 = (firstLine (strip l)).take n := by
  induction n, l using telnetFgets.induct with
  | case1 l => rw [telnetFgets, List.take_zero]
  | case2 n => rfl
  | case3 n =>
    rw [telnetFgets.eq_def, strip.eq_def]
    simp [firstLine]
  | case4 n d hd =>
    rw [telnetFgets.eq_def, strip.eq_def]
    simp [hd, firstLine]
  | case5 n d hd o l ih => rw [telnetFgets_option n l hd, strip_option hd, ih]
  | case6 n l _ ih => rw [telnetFgets_iac, strip_iac, firstLine_cons, if_neg (by decide), List.take_succ_cons, ih]
  | case7 n d l hd hiac ih => rw [telnetFgets_command n l hd hiac, strip_command hd hiac, ih]
  | case8 n l hc =>
    rw [telnetFgets_byte n l hc, if_pos rfl, strip_byte hc, firstLine_cons, if_pos rfl, List.take_succ_cons, List.take_nil]
  | case9 n c l hc hlf ih =>
    rw [telnetFgets_byte n l hc, if_neg hlf, strip_byte hc, firstLine_cons, if_neg hlf, List.take_succ_cons, ih]

/-! ## The first loop -/

variable (s : Dest) {m : Mem} {tmp : Nat → UInt8}

theorem foldl_put (cs : Str) (m : Mem) : (cs.foldl (Mem.put s) m).stored = m.stored ++ cs := by
  induction cs generalizing m with
  | nil => exact (List.append_nil _).symm
  | cons c cs ih =>
    rw [List.foldl_cons, ih, Mem.put, List.append_assoc]
    rfl

/-- tmpline still is what it was from here on, and s has come as far if it is tmpline. -/
structure From (s : Dest) (tmp : Nat → UInt8) (c : Nat) (m : Mem) : Prop where
  same : ∀ i, c ≤ i → m.tmpline i = tmp i
  cs : s = .tmpline → m.stored.length = c

/-- Where s is tmpline the byte is put where it has been read. -/
theorem put_tmpline {c : Nat} (h : From s tmp c m) (i : Nat) (hi : c ≤ i) :
    (m.put s (m.tmpline c)).tmpline i = tmp i := by
  rw [← h.same i hi, Mem.put]
  split_ifs with hs
  · rw [h.cs hs]
    by_cases hic : i = c
    · rw [hic]
      exact store_same _
    · exact store_ne _ hic
  · rfl

theorem put_from {c : Nat} (h : From s tmp c m) :
    From s tmp (c + 1) (if c = 0 then (m.put s (m.tmpline c)).clear else m.put s (m.tmpline c)) := by
  refine ⟨fun i hi => ?_, fun hs => ?_⟩
  · have hput := put_tmpline s h i (by omega)
    split_ifs
    · rw [← hput]
      have hne : i ≠ 0 := by omega
      exact store_ne _ hne
    · exact hput
  · have hlength : (m.put s (m.tmpline c)).stored.length = c + 1 := by
      rw [Mem.put, List.length_append, h.cs hs]
      rfl
    split_ifs
    · exact hlength
    · exact hlength

/-- The text from here on, as far as there is room for it. -/
def savedFrom (tmp : Nat → UInt8) (c n : Nat) : Str := cstring (slice tmp c (c + (n - 1)))

theorem savedFrom_nul {c : Nat} (h : tmp c = NUL) : savedFrom tmp c (n + 1) = [] := by
  rw [savedFrom, Nat.add_sub_cancel]
  cases n with
  | zero => rw [Nat.add_zero, slice_self]; rfl
  | succ n =>
    rw [slice_cons (by omega), h]
    rfl

theorem savedFrom_cons {c : Nat} (h : tmp c ≠ NUL) :
    savedFrom tmp c (n + 2) = tmp c :: savedFrom tmp (c + 1) (n + 1) := by
  rw [savedFrom, savedFrom, slice_cons (by omega), cstring, List.takeWhile_cons_of_pos (by simpa using h)]
  congr 3
  omega

theorem length_savedFrom (tmp : Nat → UInt8) (c n : Nat) : (savedFrom tmp c n).length ≤ n - 1 := by
  have hle := Netutils.Libc.length_cstring_le (slice tmp c (c + (n - 1)))
  rw [length_slice] at hle
  rw [savedFrom]
  omega

/-- A saved line is returned; any other text is copied, and its length taken off n. -/
theorem copySaved_spec {c : Nat} (h : From s tmp c m) :
    if LF ∈ savedFrom tmp c n then
      (copySaved s n c m).2 = none ∧
        (copySaved s n c m).1.stored = m.stored ++ firstLine (savedFrom tmp c n) ++ [NUL]
    else
      (∃ k, (copySaved s n c m).2 = some k ∧ max k 1 = max (n - (savedFrom tmp c n).length) 1) ∧
        (copySaved s n c m).1.stored = m.stored ++ savedFrom tmp c n := by
  induction n generalizing c m with
  | zero =>
    have hnil : savedFrom tmp c 0 = [] := List.length_eq_zero_iff.mp (Nat.le_zero.mp (length_savedFrom tmp c 0))
    rw [hnil, if_neg List.not_mem_nil, copySaved, List.append_nil]
    exact ⟨⟨0, rfl, rfl⟩, rfl⟩
  | succ n ih =>
    rw [copySaved, h.same c (Nat.le_refl c)]
    by_cases hnul : tmp c = NUL
    · rw [savedFrom_nul hnul, if_neg List.not_mem_nil, if_pos hnul, List.append_nil]
      exact ⟨⟨n + 1, rfl, rfl⟩, rfl⟩
    · rw [if_neg hnul]
      cases n with
      | zero =>
        have hnil : savedFrom tmp c 1 = [] := List.length_eq_zero_iff.mp (Nat.le_zero.mp (length_savedFrom tmp c 1))
        rw [hnil, if_neg List.not_mem_nil, if_pos rfl, List.append_nil]
        exact ⟨⟨0, rfl, rfl⟩, rfl⟩
      | succ n =>
        have hput := put_tmpline s h c (Nat.le_refl c)
        have hfrom := put_from s h
        rw [h.same c (Nat.le_refl c)] at hput hfrom
        rw [if_neg (Nat.succ_ne_zero n), savedFrom_cons hnul]
        simp only [hput]
        by_cases hlf : tmp c = LF
        · rw [if_pos hlf, if_pos (by rw [hlf]; exact List.mem_cons_self), firstLine_cons, if_pos hlf]
          exact ⟨rfl, rfl⟩
        · have hmem : LF ∈ tmp c :: savedFrom tmp (c + 1) (n + 1) ↔ LF ∈ savedFrom tmp (c + 1) (n + 1) := by
            rw [List.mem_cons]
            exact or_iff_right fun he => hlf he.symm
          have hstored : (if c = 0 then (m.put s (tmp c)).clear else m.put s (tmp c)).stored = m.stored ++ [tmp c] := by
            split_ifs
            · rfl
            · rfl
          have hrest := ih hfrom
          rw [hstored] at hrest
          simp only [if_neg hlf, hmem, firstLine_cons, List.length_cons]
          simp only [List.append_assoc, List.singleton_append] at hrest ⊢
          have hsub : n + 1 + 1 - ((savedFrom tmp (c + 1) (n + 1)).length + 1) =
              n + 1 - (savedFrom tmp (c + 1) (n + 1)).length := by omega
          rw [hsub]
          exact hrest

/-! ## The whole call -/

theorem saved_eq (tmp : Nat → UInt8) (n : Nat) : saved tmp n = savedFrom tmp 0 n := by
  rw [saved, savedFrom, Nat.zero_add]

/-- What is stored: a saved line, or the saved text and the line of the stream behind it. -/
theorem fgets_stored (tmp : Nat → UInt8) (n : Nat) (iop : List UInt8) :
    if LF ∈ saved tmp n then (fgets s tmp n iop).mem.stored = firstLine (saved tmp n) ++ [NUL]
    else
      let line := saved tmp n ++ (firstLine (strip iop)).take (max (n - (saved tmp n).length) 1)
      (fgets s tmp n iop).mem.stored = if line = [] then [] else line ++ [NUL] := by
  have hcopy := copySaved_spec (n := n) s (show From s tmp 0 ⟨tmp, []⟩ from ⟨fun _ _ => rfl, fun _ => rfl⟩)
  rw [← saved_eq] at hcopy
  rw [fgets]
  split_ifs at hcopy ⊢ with hlf
  · obtain ⟨hnone, hstored⟩ := hcopy
    rw [show copySaved s n 0 ⟨tmp, []⟩ = ((copySaved s n 0 ⟨tmp, []⟩).1, none) from Prod.ext rfl hnone]
    exact hstored
  · obtain ⟨⟨k, hsome, hk⟩, hstored⟩ := hcopy
    rw [show copySaved s n 0 ⟨tmp, []⟩ = ((copySaved s n 0 ⟨tmp, []⟩).1, some k) from Prod.ext rfl hsome]
    simp only [foldl_put, hstored, List.nil_append, telnetFgets_line, hk]
    split_ifs with hnil
    · rw [foldl_put, hstored]
      exact hnil
    · rw [Mem.put, foldl_put, hstored]
      rfl

/-- Without anything saved it is the line that the scanner is given. -/
theorem fgets_empty {tmp : Nat → UInt8} (h : tmp 0 = NUL) (n : Nat) (iop : List UInt8) :
    (fgets s tmp (n + 1) iop).rest = (telnetFgets (n + 1) iop).2 ∧
      (fgets s tmp (n + 1) iop).mem.stored =
        if (telnetFgets (n + 1) iop).1 = [] then [] else (telnetFgets (n + 1) iop).1 ++ [NUL] := by
  have hcopy : copySaved s (n + 1) 0 ⟨tmp, []⟩ = (⟨tmp, []⟩, some (n + 1)) := by rw [copySaved, if_pos h]
  rw [fgets, hcopy]
  simp only [Nat.max_eq_left (Nat.succ_le_succ (Nat.zero_le n)), foldl_put, List.nil_append]
  split_ifs with hnil
  · exact ⟨rfl, by rw [foldl_put, hnil]; rfl⟩
  · exact ⟨rfl, by rw [Mem.put, foldl_put]; rfl⟩

/-- The call keeps to n exactly if a whole line has been saved, or the line that is begun with what
    has been saved ends, with room for the NUL, before n is used up. -/
theorem keeps_iff (tmp : Nat → UInt8) (n : Nat) (iop : List UInt8) :
    Keeps s tmp n iop ↔
      LF ∈ saved tmp n ∨ (saved tmp n).length + (firstLine (strip iop)).length ≤ n - 1 := by
  have hstored := fgets_stored s tmp n iop
  have hle : (saved tmp n).length ≤ n - 1 := saved_eq tmp n ▸ length_savedFrom tmp 0 n
  rw [Keeps]
  by_cases hlf : LF ∈ saved tmp n
  · rw [if_pos hlf] at hstored
    have hpos := List.length_pos_of_mem hlf
    have hfirst : (firstLine (saved tmp n)).length ≤ (saved tmp n).length := List.length_take_le' _ _
    rw [hstored, List.length_append, List.length_singleton]
    exact ⟨fun _ => Or.inl hlf, fun _ => by omega⟩
  · rw [if_neg hlf] at hstored
    rw [or_iff_right hlf, hstored]
    have hlength : (saved tmp n ++ (firstLine (strip iop)).take (max (n - (saved tmp n).length) 1)).length =
        (saved tmp n).length + min (max (n - (saved tmp n).length) 1) (firstLine (strip iop)).length := by
      rw [List.length_append, List.length_take]
    split_ifs with hnil
    · rw [hnil, List.length_nil] at hlength
      rw [List.length_nil]
      omega
    · have hpos := List.length_pos_of_ne_nil hnil
      rw [List.length_append, hlength, List.length_singleton]
      omega

/-- The handler of urgent data stores `STOR ab` in tmpline, and a NUL behind it. -/
theorem seven_bytes_overrun :
    ¬ Keeps .tmpline (fun _ => NUL) TMPLINE [0x53, 0x54, 0x4f, 0x52, 0x20, 0x61, 0x62, CR, LF] := by
  rw [Keeps]
  decide

end Netutils.Ftpd.Tmpline
