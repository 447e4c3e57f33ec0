/-
  Netutils.Ftp.Remglob — the names a list from the server has (ftp/cmds.c, remglob).

  The list is in a temporary file; each call reads on by fgets, into a buffer that is doubled
  until a newline ends what has been read. `remglob` gives the lines one by one
  (`names_eq_lines`) unless the list has NULs: fgets does not tell how much it has read, so the
  rest of a piece behind a NUL is lost and the next piece comes in its place.
-/

import Mathlib.Data.List.Basic
import Mathlib.Data.List.TakeWhile
import Netutils.Libc.Stdio

namespace Netutils.Ftp

open Netutils.Arpa Netutils.Libc

abbrev Name := List UInt8

namespace Remglob

/-! ## remglob -/

/-- What the heap is like, by how much of the file is left: no two turns of the loop find the
    same left. -/
structure Heap where
  /-- malloc and realloc find room. -/
  room : Nat → Bool
  /-- The byte in front of buf. -/
  below : Nat → UInt8

/-- `for (;;)`, with turns enough; `buf` up to `sofar`. The second file is what ftemp has left. -/
def loop (heap : Heap) : Nat → Nat → List UInt8 → List UInt8 → Option (Name × List UInt8)
  | n + 1, bufLen, buf, ftemp =>
    if heap.room ftemp.length = false then none
    else
      match fgets (bufLen - buf.length) ftemp with
      | none => none
      | some (s, ftemp) =>
        let buf := cstring (buf ++ s)
        -- `buf[sofar - 1]`, of an empty string too
        if buf.getLast?.getD (heap.below ftemp.length) = LF then some (buf.dropLast, ftemp)
        else loop heap n (bufLen + bufLen) buf ftemp
  | 0, _, _, _ => none

/-- With mflag and doglob set, and ftemp open. -/
def remglob (heap : Heap) (ftemp : List UInt8) : Option (Name × List UInt8) :=
  loop heap (ftemp.length + 1) 100 [] ftemp

/-- What the calls of remglob give, with calls enough. -/
def names (heap : Heap) : Nat → List UInt8 → List Name
  | n + 1, ftemp =>
    match remglob heap ftemp with
    | none => []
    | some (cp, ftemp) => cp :: names heap n ftemp
  | 0, _ => []

/-- The lines that are ended by a newline. -/
def lines (f : List UInt8) : List Name := (f.splitOn LF).dropLast

/-! ## One name -/

variable {heap : Heap} {f f' buf a b : List UInt8} {bufLen n : Nat} {cp : Name}

/-- The buffer after a turn. -/
def filled (bufLen : Nat) (buf f : List UInt8) : List UInt8 :=
  cstring (buf ++ (piece (bufLen - buf.length - 1) f).1)

/-- What the turn leaves of the file. -/
def left (bufLen : Nat) (buf f : List UInt8) : List UInt8 := (piece (bufLen - buf.length - 1) f).2

theorem loop_succ (hroom : heap.room f.length = true) (hf : f ≠ []) :
    loop heap (n + 1) bufLen buf f =
      if (filled bufLen buf f).getLast?.getD (heap.below (left bufLen buf f).length) = LF then
        some ((filled bufLen buf f).dropLast, left bufLen buf f)
      else loop heap n (bufLen + bufLen) (filled bufLen buf f) (left bufLen buf f) := by
  rw [loop, hroom, if_neg (by decide), fgets, if_neg hf]
  rfl

theorem room_of_loop {r : Name × List UInt8} (h : loop heap (n + 1) bufLen buf f = some r) :
    heap.room f.length = true ∧ f ≠ [] := by
  rw [loop] at h
  by_cases hroom : heap.room f.length = false
  · rw [if_pos hroom] at h
    cases h
  · rw [if_neg hroom, fgets] at h
    refine ⟨by simpa using hroom, ?_⟩
    rintro rfl
    cases h

theorem length_filled (hsize : buf.length < bufLen) : (filled bufLen buf f).length < bufLen := by
  have hlen := length_cstring_le (buf ++ (piece (bufLen - buf.length - 1) f).1)
  have hpiece := length_piece_le (bufLen - buf.length - 1) f
  rw [List.length_append] at hlen
  unfold filled
  omega

/-- The doubled buffer has room for two bytes at least. -/
theorem two_le_room (hsize : 2 ≤ bufLen - buf.length) : 2 ≤ bufLen + bufLen - (filled bufLen buf f).length := by
  have := length_filled (f := f) (show buf.length < bufLen by omega)
  omega

theorem length_left (hsize : 2 ≤ bufLen - buf.length) (hf : f ≠ []) : (left bufLen buf f).length < f.length :=
  length_piece (by omega) hf

theorem not_mem_dropLast_of_prefix {c : UInt8} (h : a <+: b) (hb : c ∉ b.dropLast) : c ∉ a.dropLast := by
  obtain ⟨t, rfl⟩ := h
  rcases t with _ | ⟨d, t⟩
  · rwa [List.append_nil] at hb
  · rw [List.dropLast_append_of_ne_nil (List.cons_ne_nil d t), List.mem_append, not_or] at hb
    exact fun hmem => hb.1 (List.dropLast_subset a hmem)

theorem lf_not_mem_dropLast_filled (hlf : LF ∉ buf) : LF ∉ (filled bufLen buf f).dropLast := by
  refine not_mem_dropLast_of_prefix (cstring_prefix_self _) ?_
  have hpiece := lf_not_mem_dropLast_piece (bufLen - buf.length - 1) f
  revert hpiece
  rcases (piece (bufLen - buf.length - 1) f).1 with _ | ⟨d, s⟩ <;> intro hpiece
  · rw [List.append_nil]
    exact fun hmem => hlf (List.dropLast_subset buf hmem)
  · rw [List.dropLast_append_of_ne_nil (List.cons_ne_nil d s), List.mem_append, not_or]
    exact ⟨hlf, hpiece⟩

theorem lf_not_mem_filled {c : UInt8} (hlf : LF ∉ buf) (hlast : (filled bufLen buf f).getLast?.getD c ≠ LF) :
    LF ∉ filled bufLen buf f := by
  have hinit : LF ∉ (filled bufLen buf f).dropLast := lf_not_mem_dropLast_filled hlf
  intro hmem
  rcases hl : (filled bufLen buf f).getLast? with _ | d
  · rw [List.getLast?_eq_none_iff.mp hl] at hmem
    cases hmem
  · rw [hl] at hlast
    rw [← List.dropLast_append_getLast? d hl, List.mem_append, List.mem_singleton] at hmem
    rcases hmem with hmem | rfl
    · exact hinit hmem
    · exact hlast rfl

/-- Whatever the list, a name has neither a newline nor a NUL, and some of the file is gone. -/
theorem loop_name (hsize : 2 ≤ bufLen - buf.length) (hlf : LF ∉ buf)
    (h : loop heap n bufLen buf f = some (cp, f')) : LF ∉ cp ∧ NUL ∉ cp ∧ f'.length < f.length := by
  induction n generalizing bufLen buf f with
  | zero => cases h
  | succ n ih =>
    obtain ⟨hroom, hf⟩ := room_of_loop h
    rw [loop_succ hroom hf] at h
    split at h
    · obtain ⟨rfl, rfl⟩ := Prod.mk.inj (Option.some.inj h)
      exact ⟨lf_not_mem_dropLast_filled hlf, fun hmem => cstring_nul _ (List.dropLast_subset _ hmem),
        length_left hsize hf⟩
    · rename_i hlast
      obtain ⟨hcp, hnul, hlen⟩ := ih (two_le_room hsize) (lf_not_mem_filled hlf hlast) h
      have := length_left hsize hf
      exact ⟨hcp, hnul, by omega⟩

/-- The turns are enough: more make no difference. -/
theorem loop_enough {k : Nat} (hsize : 2 ≤ bufLen - buf.length) (hn : f.length < n) (hk : f.length < k) :
    loop heap n bufLen buf f = loop heap k bufLen buf f := by
  induction n generalizing k bufLen buf f with
  | zero => omega
  | succ n ih =>
    obtain ⟨k, rfl⟩ : ∃ j, k = j + 1 := ⟨k - 1, by omega⟩
    by_cases hf : f = []
    · subst hf
      rfl
    cases hroom : heap.room f.length with
    | false => simp only [loop, hroom, if_true]
    | true =>
      have hlen := length_left hsize hf
      rw [loop_succ hroom hf, loop_succ hroom hf, ih (two_le_room hsize) (by omega) (show _ < k by omega)]

theorem remglob_name (h : remglob heap f = some (cp, f')) : LF ∉ cp ∧ NUL ∉ cp ∧ f'.length < f.length :=
  loop_name (by decide) List.not_mem_nil h

theorem remglob_nil : remglob heap [] = none := by
  rcases h : remglob heap [] with _ | ⟨cp, f'⟩
  · rfl
  · exact absurd (remglob_name h).2.2 (Nat.not_lt_zero _)

theorem names_enough {k : Nat} (hn : f.length < n) (hk : f.length < k) : names heap n f = names heap k f := by
  induction n generalizing k f with
  | zero => omega
  | succ n ih =>
    obtain ⟨k, rfl⟩ : ∃ j, k = j + 1 := ⟨k - 1, by omega⟩
    cases h : remglob heap f with
    | none => simp only [names, h]
    | some r =>
      obtain ⟨cp, f'⟩ := r
      have hlen := (remglob_name h).2.2
      simp only [names, h]
      rw [ih (by omega) (show f'.length < k by omega)]

/-! ## A list without NULs -/

/-- A piece without a newline only goes to the buffer. -/
theorem loop_more {s : List UInt8} (hroom : heap.room f.length = true) (hs : piece (bufLen - buf.length - 1) f = (s, f'))
    (hne : s ≠ []) (hlf : LF ∉ buf) (hnul : NUL ∉ buf) (hslf : LF ∉ s) (hsnul : NUL ∉ s) :
    loop heap (n + 1) bufLen buf f = loop heap n (bufLen + bufLen) (buf ++ s) f' := by
  have hf : f ≠ [] := by
    rintro rfl
    have := piece_append (bufLen - buf.length - 1) []
    rw [hs, List.append_eq_nil_iff] at this
    exact hne this.1
  have hbuf : buf ++ s ≠ [] := fun h => hne (List.append_eq_nil_iff.mp h).2
  have hlast : (buf ++ s).getLast?.getD (heap.below f'.length) ≠ LF := by
    rw [List.getLast?_eq_some_getLast hbuf, Option.getD_some]
    intro h
    exact (List.mem_append.mp (h ▸ List.getLast_mem hbuf)).elim hlf hslf
  rw [loop_succ hroom hf, filled, left, hs]
  simp only [cstring_append hnul hsnul, if_neg hlast]

/-- The next line, unless there is no memory for it. -/
theorem loop_line (hsize : 2 ≤ bufLen - buf.length) (hlf : LF ∉ buf) (hnul : NUL ∉ buf) (ha : LF ∉ a) (hanul : NUL ∉ a)
    (hn : (a ++ LF :: b).length < n) :
    loop heap n bufLen buf (a ++ LF :: b) = some (buf ++ a, b) ∨
      (loop heap n bufLen buf (a ++ LF :: b) = none ∧ ¬ ∀ k, heap.room k = true) := by
  induction n generalizing bufLen buf a with
  | zero => omega
  | succ n ih =>
    cases hroom : heap.room (a ++ LF :: b).length with
    | false =>
      right
      refine ⟨by simp only [loop, hroom, if_true], fun h => ?_⟩
      rw [h] at hroom
      cases hroom
    | true =>
      by_cases hlen : a.length < bufLen - buf.length - 1
      · -- the newline is in this piece
        have hstr : cstring (buf ++ (a ++ [LF])) = buf ++ a ++ [LF] := by
          rw [← List.append_assoc, cstring_append]
          · exact fun h => (List.mem_append.mp h).elim hnul hanul
          · exact fun h => absurd (List.mem_singleton.mp h) (by decide)
        left
        rw [loop_succ hroom (by simp), filled, left, piece_line ha hlen]
        simp only [hstr, List.getLast?_append, List.getLast?_singleton, Option.some_or, Option.getD_some, if_true,
          List.dropLast_concat]
      · -- the buffer is full before
        obtain ⟨a₁, a₂, rfl, hfull⟩ : ∃ a₁ a₂, a = a₁ ++ a₂ ∧ a₁.length = bufLen - buf.length - 1 :=
          ⟨a.take (bufLen - buf.length - 1), a.drop (bufLen - buf.length - 1), (List.take_append_drop _ _).symm, by
            rw [List.length_take]
            omega⟩
        rw [List.mem_append, not_or] at ha hanul
        have hpiece := piece_full (f := a₂ ++ LF :: b) ha.1
        rw [hfull] at hpiece
        have hne : a₁ ≠ [] := by
          rintro rfl
          simp only [List.length_nil] at hfull
          omega
        rw [List.append_assoc] at hroom ⊢
        rw [loop_more hroom hpiece hne hlf hnul ha.1 hanul.1, ← List.append_assoc]
        refine ih ?_ (fun h => (List.mem_append.mp h).elim hlf ha.1) (fun h => (List.mem_append.mp h).elim hnul hanul.1)
          ha.2 hanul.2 ?_
        · rw [List.length_append]
          omega
        · simp only [List.length_append, List.length_cons] at hn ⊢
          omega

theorem remglob_line (ha : LF ∉ a) (hanul : NUL ∉ a) :
    remglob heap (a ++ LF :: b) = some (a, b) ∨ (remglob heap (a ++ LF :: b) = none ∧ ¬ ∀ k, heap.room k = true) :=
  loop_line (by decide) List.not_mem_nil List.not_mem_nil ha hanul (Nat.lt_succ_self _)

/-- What comes behind the last newline is no line. -/
theorem loop_no_line (hsize : 2 ≤ bufLen - buf.length) (hlf : LF ∉ buf) (hnul : NUL ∉ buf) (hf : LF ∉ f)
    (hfnul : NUL ∉ f) : loop heap n bufLen buf f = none := by
  induction n generalizing bufLen buf f with
  | zero => rfl
  | succ n ih =>
    cases hroom : heap.room f.length with
    | false => simp only [loop, hroom, if_true]
    | true =>
      by_cases hnil : f = []
      · subst hnil
        simp only [loop, hroom, fgets, if_true]
        rfl
      · have hne : f.take (bufLen - buf.length - 1) ≠ [] := by
          rw [Ne, List.take_eq_nil_iff, not_or]
          exact ⟨by omega, hnil⟩
        rw [loop_more hroom (piece_of_not_mem hf) hne hlf hnul (fun h => hf (List.mem_of_mem_take h))
          fun h => hfnul (List.mem_of_mem_take h)]
        refine ih ?_ (fun h => (List.mem_append.mp h).elim hlf fun h => hf (List.mem_of_mem_take h))
          (fun h => (List.mem_append.mp h).elim hnul fun h => hfnul (List.mem_of_mem_take h))
          (fun h => hf (List.mem_of_mem_drop h)) (fun h => hfnul (List.mem_of_mem_drop h))
        rw [List.length_append, List.length_take]
        omega

theorem lines_cons (ha : LF ∉ a) : lines (a ++ LF :: b) = a :: lines b := by
  rw [lines, List.splitOn_append_cons_self_of_not_mem ha, List.dropLast_cons_of_ne_nil (List.splitOn_ne_nil _ _)]
  rfl

theorem lines_of_not_mem (h : LF ∉ f) : lines f = [] := by
  rw [lines, List.splitOn_eq_singleton h]
  rfl

/-- The names are the lines of the list, as far as there is memory for them. -/
theorem names_eq_lines (hn : f.length < n) (hnul : NUL ∉ f) :
    names heap n f <+: lines f ∧ ((∀ k, heap.room k = true) → names heap n f = lines f) := by
  induction n generalizing f with
  | zero => omega
  | succ n ih =>
    by_cases hlf : LF ∈ f
    · obtain ⟨a, b, rfl, ha⟩ := List.eq_append_cons_of_mem hlf
      simp only [List.mem_append, List.mem_cons, not_or] at hnul
      have hb : b.length < n := by
        simp only [List.length_append, List.length_cons] at hn
        omega
      rw [lines_cons ha]
      rcases @remglob_line heap a b ha hnul.1 with h | ⟨h, hroom⟩
      · obtain ⟨hpre, heq⟩ := ih hb hnul.2.2
        simp only [names, h]
        exact ⟨List.cons_prefix_cons.mpr ⟨rfl, hpre⟩, fun hroom => congrArg (a :: ·) (heq hroom)⟩
      · simp only [names, h]
        exact ⟨List.nil_prefix, fun hall => absurd hall hroom⟩
    · have hname : remglob heap f = none := loop_no_line (by decide) List.not_mem_nil List.not_mem_nil hlf hnul
      simp only [names, hname, lines_of_not_mem hlf]
      exact ⟨List.nil_prefix, fun _ => trivial⟩

end Remglob

end Netutils.Ftp
