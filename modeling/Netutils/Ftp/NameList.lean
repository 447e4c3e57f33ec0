/-
  Netutils.Ftp.NameList — remglob over whole lists, with the memory it touches (ftp/cmds.c).

  `loop` is that of Ftp/Remglob with the size of the allocation, buf_len as an int, and every
  access to the buffer. The lines come back one by one, and the accesses stay within the
  buffer, for just the lists of ended lines without NULs that buf_len can hold (`calls_iff`):
  what is behind the last newline is lost, a NUL hides the rest of its piece of the line,
  and with a NUL in front `buf[sofar - 1]` is the byte before the buffer.
-/

import Mathlib.Algebra.Group.Nat.Defs
import Netutils.Ftp.Remglob

namespace Netutils.Ftp.NameList

open Netutils.Arpa Netutils.Libc Remglob

/-! ## remglob -/

/-- A byte of the buffer, and the size of the allocation then. -/
structure Access where
  offset : Int
  size : Nat
  deriving DecidableEq

def Access.Inside (a : Access) : Prop := 0 ≤ a.offset ∧ a.offset < a.size

/-- The bytes from one offset up to another, which is one of them. -/
def span (size i j : Nat) : List Access := (List.range (j + 1 - i)).map fun k => ⟨(i + k : Nat), size⟩

/-- A turn: fgets stores a piece and a NUL, strlen goes up to the first NUL, and `sofar - 1`
    is read, and written where it is a newline. -/
def accesses (size bufLen : Nat) (buf ftemp : List UInt8) : List Access :=
  span size buf.length (buf.length + (piece (bufLen - buf.length - 1) ftemp).1.length) ++
    span size 0 (filled bufLen buf ftemp).length ++ [⟨(filled bufLen buf ftemp).length - 1, size⟩]

/-- `for (;;)`; an allocation of 2^31 bytes or more is one of a negative int. -/
def loop (heap : Heap) : Nat → Nat → Nat → List UInt8 → List UInt8 → Option (Name × List UInt8) × List Access
  | n + 1, size, bufLen, buf, ftemp =>
    if heap.room ftemp.length = false ∨ 2 ^ 31 ≤ bufLen then (none, [])
    else if ftemp = [] then (none, [])
    else
      let here := accesses size bufLen buf ftemp
      let ftemp' := left bufLen buf ftemp
      let buf := filled bufLen buf ftemp
      if buf.getLast?.getD (heap.below ftemp'.length) = LF then (some (buf.dropLast, ftemp'), here)
      else
        let r := loop heap n (bufLen + bufLen) (bufLen + bufLen) buf ftemp'
        (r.1, here ++ r.2)
  | 0, _, _, _, _ => (none, [])

/-- With mflag and doglob set, and ftemp open. -/
def remglob (heap : Heap) (ftemp : List UInt8) : Option (Name × List UInt8) × List Access :=
  loop heap (ftemp.length + 1) 101 100 [] ftemp

/-- The calls of remglob up to the first NULL, with calls enough. -/
def callsLoop (heap : Heap) : Nat → List UInt8 → List Name × List Access
  | n + 1, ftemp =>
    match remglob heap ftemp with
    | (none, here) => ([], here)
    | (some (cp, ftemp), here) =>
      let r := callsLoop heap n ftemp
      (cp :: r.1, here ++ r.2)
  | 0, _ => ([], [])

def calls (heap : Heap) (ftemp : List UInt8) : List Name × List Access := callsLoop heap (ftemp.length + 1) ftemp

/-! ## Lists -/

/-- The lines, with one that has no newline at the end. -/
def allLines (f : List UInt8) : List Name :=
  if (f.splitOn LF).getLast? = some [] then (f.splitOn LF).dropLast else f.splitOn LF

/-- The last size of the buffer below 2^31. -/
def MAXBUF : Nat := 100 * 2 ^ 24

/-- Lines that are all ended, without NULs, and with their newline and a NUL in the buffer. -/
def Plain (f : List UInt8) : Prop := NUL ∉ f ∧ (f = [] ∨ f.getLast? = some LF) ∧ ∀ l ∈ lines f, l.length + 2 ≤ MAXBUF

/-! ## One name -/

variable {heap : Heap} {f f' buf a b : List UInt8} {size bufLen n j : Nat} {cp : Name}

theorem loop_succ (hroom : heap.room f.length = true) (hlen : bufLen < 2 ^ 31) (hf : f ≠ []) :
    loop heap (n + 1) size bufLen buf f =
      if (filled bufLen buf f).getLast?.getD (heap.below (left bufLen buf f).length) = LF then
        (some ((filled bufLen buf f).dropLast, left bufLen buf f), accesses size bufLen buf f)
      else
        ((loop heap n (bufLen + bufLen) (bufLen + bufLen) (filled bufLen buf f) (left bufLen buf f)).1,
          accesses size bufLen buf f ++
            (loop heap n (bufLen + bufLen) (bufLen + bufLen) (filled bufLen buf f) (left bufLen buf f)).2) := by
  have hgo : ¬ (heap.room f.length = false ∨ 2 ^ 31 ≤ bufLen) := by
    rw [hroom]
    intro h
    rcases h with h | h
    · cases h
    · omega
  rw [loop, if_neg hgo, if_neg hf]

/-- A name that is given is one of Ftp/Remglob. -/
theorem loop_some (h : (loop heap n size bufLen buf f).1 = some (cp, f')) :
    Remglob.loop heap n bufLen buf f = some (cp, f') := by
  induction n generalizing size bufLen buf f with
  | zero => cases h
  | succ n ih =>
    rw [loop] at h
    split at h
    · cases h
    · rename_i hgo
      rw [not_or, Bool.not_eq_false] at hgo
      split at h
      · cases h
      · rename_i hf
        rw [Remglob.loop_succ hgo.1 hf]
        simp only at h
        split at h
        · rename_i hlast
          rw [if_pos hlast]
          exact h
        · rename_i hlast
          rw [if_neg hlast]
          exact ih h

theorem remglob_some (h : (remglob heap f).1 = some (cp, f')) : LF ∉ cp ∧ NUL ∉ cp ∧ f'.length < f.length :=
  remglob_name (loop_some h)

/-! ## The memory of a turn -/

theorem inside_span {i k : Nat} (h : k < size) : ∀ x ∈ span size i k, x.Inside := by
  intro x hx
  obtain ⟨m, hm, rfl⟩ := List.mem_map.mp hx
  have := List.mem_range.mp hm
  constructor
  · exact Int.natCast_nonneg _
  · show ((i + m : Nat) : Int) < size
    omega

theorem inside_accesses (hsize : bufLen ≤ size) (hbuf : buf.length < bufLen) (hne : filled bufLen buf f ≠ []) :
    ∀ x ∈ accesses size bufLen buf f, x.Inside := by
  have hpiece := length_piece_le (bufLen - buf.length - 1) f
  have hfilled := length_filled (f := f) hbuf
  have hpos := List.length_pos_iff.mpr hne
  intro x hx
  rcases List.mem_append.mp hx with hx | hx
  · rcases List.mem_append.mp hx with hx | hx
    · exact inside_span (by omega) x hx
    · exact inside_span (by omega) x hx
  · rw [List.mem_singleton] at hx
    subst hx
    constructor
    · show (0 : Int) ≤ (filled bufLen buf f).length - 1
      omega
    · show ((filled bufLen buf f).length : Int) - 1 < size
      omega

theorem filled_piece {s : List UInt8} (hs : piece (bufLen - buf.length - 1) f = (s, f')) (hnul : NUL ∉ buf)
    (hsnul : NUL ∉ s) : filled bufLen buf f = buf ++ s ∧ left bufLen buf f = f' := by
  rw [filled, left, hs]
  exact ⟨cstring_append hnul hsnul, rfl⟩

/-- Behind the last size there is none. -/
theorem loop_full (h : 2 ^ 31 ≤ bufLen) : loop heap n size bufLen buf f = (none, []) := by
  cases n with
  | zero => rfl
  | succ n => rw [loop, if_pos (Or.inr h)]

/-- The newline is in what fgets reads. -/
theorem loop_found (hroom : ∀ k, heap.room k = true) (hint : bufLen < 2 ^ 31) (hsize : bufLen ≤ size) (hnul : NUL ∉ buf)
    (ha : LF ∉ a) (hanul : NUL ∉ a) (hlen : a.length < bufLen - buf.length - 1) :
    (loop heap (n + 1) size bufLen buf (a ++ LF :: b)).1 = some (buf ++ a, b) ∧
      ∀ x ∈ (loop heap (n + 1) size bufLen buf (a ++ LF :: b)).2, x.Inside := by
  have hsnul : NUL ∉ a ++ [LF] := by
    rw [List.mem_append, not_or]
    exact ⟨hanul, by decide⟩
  obtain ⟨hfilled, hleft⟩ := filled_piece (piece_line (b := b) ha hlen) hnul hsnul
  have hlast : (filled bufLen buf (a ++ LF :: b)).getLast?.getD
      (heap.below (left bufLen buf (a ++ LF :: b)).length) = LF := by
    rw [hfilled, ← List.append_assoc, List.getLast?_concat]
    rfl
  have hne : filled bufLen buf (a ++ LF :: b) ≠ [] := by
    rw [hfilled]
    simp
  rw [loop_succ (hroom _) hint (by simp), if_pos hlast]
  refine ⟨?_, inside_accesses hsize (by omega) hne⟩
  rw [hfilled, hleft, ← List.append_assoc, List.dropLast_concat]

/-- The buffer is full in front of the newline: the rest is read to one of twice the size. -/
theorem loop_next (hroom : ∀ k, heap.room k = true) (hint : bufLen < 2 ^ 31) (htwo : 2 ≤ bufLen - buf.length)
    (hsize : bufLen ≤ size) (hlf : LF ∉ buf) (hnul : NUL ∉ buf) (ha : LF ∉ a) (hanul : NUL ∉ a)
    (hfull : a.length = bufLen - buf.length - 1) {l : List UInt8} (hl : l ≠ []) :
    (loop heap (n + 1) size bufLen buf (a ++ l)).1 =
        (loop heap n (bufLen + bufLen) (bufLen + bufLen) (buf ++ a) l).1 ∧
      ((∀ x ∈ (loop heap n (bufLen + bufLen) (bufLen + bufLen) (buf ++ a) l).2, x.Inside) →
        ∀ x ∈ (loop heap (n + 1) size bufLen buf (a ++ l)).2, x.Inside) := by
  have hpiece : piece (bufLen - buf.length - 1) (a ++ l) = (a, l) := by
    rw [← hfull]
    exact piece_full ha
  obtain ⟨hfilled, hleft⟩ := filled_piece hpiece hnul hanul
  have hne : filled bufLen buf (a ++ l) ≠ [] := by
    rw [hfilled, ← List.length_pos_iff, List.length_append]
    omega
  have hlast : ¬ (filled bufLen buf (a ++ l)).getLast?.getD (heap.below (left bufLen buf (a ++ l)).length) = LF := by
    rw [List.getLast?_eq_some_getLast hne, Option.getD_some]
    intro h
    have hmem := h ▸ List.getLast_mem hne
    rw [hfilled] at hmem
    exact (List.mem_append.mp hmem).elim hlf ha
  have hhere := inside_accesses hsize (by omega) hne
  rw [loop_succ (hroom _) hint (List.append_ne_nil_of_right_ne_nil a hl), if_neg hlast, hfilled, hleft]
  refine ⟨rfl, fun hrest x hx => ?_⟩
  exact (List.mem_append.mp hx).elim (hhere x) (hrest x)

/-- The next line, if it goes into a buffer of the last size. -/
theorem loop_line (hroom : ∀ k, heap.room k = true) (htwo : 2 ≤ bufLen - buf.length) (hsize : bufLen ≤ size)
    (hlf : LF ∉ buf) (hnul : NUL ∉ buf) (ha : LF ∉ a) (hanul : NUL ∉ a) (hj : bufLen * 2 ^ j = MAXBUF)
    (hn : (a ++ LF :: b).length < n) :
    (loop heap n size bufLen buf (a ++ LF :: b)).1 =
        (if (buf ++ a).length + 2 ≤ MAXBUF then some (buf ++ a, b) else none) ∧
      ∀ x ∈ (loop heap n size bufLen buf (a ++ LF :: b)).2, x.Inside := by
  induction n generalizing size bufLen buf a j with
  | zero => omega
  | succ n ih =>
    have hmax : bufLen ≤ MAXBUF := by
      rw [← hj]
      exact Nat.le_mul_of_pos_right bufLen (Nat.two_pow_pos j)
    have hint : bufLen < 2 ^ 31 := Nat.lt_of_le_of_lt hmax (by decide)
    by_cases hlen : a.length < bufLen - buf.length - 1
    · have hfit : (buf ++ a).length + 2 ≤ MAXBUF := by
        rw [List.length_append]
        omega
      rw [if_pos hfit]
      exact loop_found hroom hint hsize hnul ha hanul hlen
    · obtain ⟨a₁, a₂, rfl, hfull⟩ : ∃ a₁ a₂, a = a₁ ++ a₂ ∧ a₁.length = bufLen - buf.length - 1 :=
        ⟨a.take (bufLen - buf.length - 1), a.drop (bufLen - buf.length - 1), (List.take_append_drop _ _).symm, by
          rw [List.length_take]
          omega⟩
      rw [List.mem_append, not_or] at ha hanul
      have hsplit : a₁ ++ a₂ ++ LF :: b = a₁ ++ (a₂ ++ LF :: b) := List.append_assoc ..
      obtain ⟨hname, hinside⟩ := loop_next (n := n) hroom hint htwo hsize hlf hnul ha.1 hanul.1 hfull
        (List.append_ne_nil_of_right_ne_nil a₂ (List.cons_ne_nil LF b))
      rw [hsplit, hname]
      cases j with
      | zero =>
        have hbig : ¬ (buf ++ (a₁ ++ a₂)).length + 2 ≤ MAXBUF := by
          simp only [List.length_append, Nat.pow_zero, Nat.mul_one] at hlen hj ⊢
          omega
        have hdouble : 2 ^ 31 ≤ bufLen + bufLen := by
          rw [Nat.pow_zero, Nat.mul_one] at hj
          rw [hj]
          decide
        rw [if_neg hbig]
        rw [loop_full hdouble] at hinside ⊢
        exact ⟨rfl, hinside fun x hx => absurd hx List.not_mem_nil⟩
      | succ j =>
        have hj' : (bufLen + bufLen) * 2 ^ j = MAXBUF := by
          rw [← hj, Nat.pow_succ, ← Nat.mul_assoc, Nat.add_mul]
          omega
        have htwo' : 2 ≤ bufLen + bufLen - (buf ++ a₁).length := by
          rw [List.length_append]
          omega
        have hn' : (a₂ ++ LF :: b).length < n := by
          simp only [List.length_append, List.length_cons] at hn ⊢
          omega
        have hlf' : LF ∉ buf ++ a₁ := fun h => (List.mem_append.mp h).elim hlf ha.1
        have hnul' : NUL ∉ buf ++ a₁ := fun h => (List.mem_append.mp h).elim hnul hanul.1
        have hrest := ih htwo' (Nat.le_refl (bufLen + bufLen)) hlf' hnul' ha.2 hanul.2 hj' hn'
        rw [List.append_assoc] at hrest
        exact ⟨hrest.1, hinside hrest.2⟩

/-- What comes behind the last newline is no name. -/
theorem remglob_no_line (hf : LF ∉ f) (hnul : NUL ∉ f) : (remglob heap f).1 = none := by
  cases h : (remglob heap f).1 with
  | none => rfl
  | some r =>
    have hloop := loop_some h
    rw [loop_no_line (by decide) List.not_mem_nil List.not_mem_nil hf hnul] at hloop
    cases hloop

theorem remglob_line (hroom : ∀ k, heap.room k = true) (ha : LF ∉ a) (hanul : NUL ∉ a) :
    (remglob heap (a ++ LF :: b)).1 = (if a.length + 2 ≤ MAXBUF then some (a, b) else none) ∧
      ∀ x ∈ (remglob heap (a ++ LF :: b)).2, x.Inside :=
  loop_line (j := 24) hroom (by decide) (by decide) List.not_mem_nil List.not_mem_nil ha hanul rfl (Nat.lt_succ_self _)

/-! ## All the names -/

theorem callsLoop_spec (h : cp ∈ (callsLoop heap n f).1) : NUL ∉ cp := by
  induction n generalizing f with
  | zero => cases h
  | succ n ih =>
    rw [callsLoop] at h
    split at h
    · cases h
    · rename_i d f' here hr
      rcases List.mem_cons.mp h with rfl | h
      · exact (remglob_some (congrArg Prod.fst hr)).2.1
      · exact ih h

/-- Whether remglob has a buffer for the line. -/
def fits (l : Name) : Bool := l.length + 2 ≤ MAXBUF

theorem callsLoop_lines (hroom : ∀ k, heap.room k = true) (hn : f.length < n) (hnul : NUL ∉ f) :
    (callsLoop heap n f).1 = (lines f).takeWhile fits ∧
      ((f = [] ∨ f.getLast? = some LF) → ∀ x ∈ (callsLoop heap n f).2, x.Inside) := by
  induction n generalizing f with
  | zero => omega
  | succ n ih =>
    by_cases hlf : LF ∈ f
    · obtain ⟨a, b, rfl, ha⟩ := List.eq_append_cons_of_mem hlf
      simp only [List.mem_append, List.mem_cons, not_or] at hnul
      have hb : b.length < n := by
        simp only [List.length_append, List.length_cons] at hn
        omega
      obtain ⟨hname, hhere⟩ := remglob_line (b := b) hroom ha hnul.1
      obtain ⟨hnames, hrest⟩ := ih hb hnul.2.2
      have hend : b = [] ∨ (a ++ LF :: b).getLast? = b.getLast? := by
        cases b with
        | nil => exact Or.inl rfl
        | cons c b =>
          right
          rw [List.getLast?_append, List.getLast?_cons_cons]
          rfl
      rw [lines_cons ha, callsLoop]
      cases hr : remglob heap (a ++ LF :: b) with
      | mk r here =>
        rw [hr] at hname hhere
        simp only at hname
        by_cases hfit : a.length + 2 ≤ MAXBUF
        · rw [if_pos hfit] at hname
          subst hname
          simp only
          rw [List.takeWhile_cons_of_pos (by simpa [fits] using hfit), hnames]
          refine ⟨rfl, fun hlast x hx => (List.mem_append.mp hx).elim (hhere x) (hrest ?_ x)⟩
          rcases hend with rfl | hend
          · exact Or.inl rfl
          · rw [hend] at hlast
            exact Or.inr (hlast.resolve_left (by simp))
        · rw [if_neg hfit] at hname
          subst hname
          simp only
          rw [List.takeWhile_cons_of_neg (by simpa [fits] using hfit)]
          exact ⟨rfl, fun _ => hhere⟩
    · have hname : (remglob heap f).1 = none := remglob_no_line hlf hnul
      rw [lines_of_not_mem hlf, callsLoop]
      cases hr : remglob heap f with
      | mk r here =>
        rw [hr] at hname
        simp only at hname
        subst hname
        refine ⟨rfl, fun hlast => ?_⟩
        rcases hlast with rfl | hlast
        · -- at the end of the file there is no access
          have hempty : remglob heap [] = (none, []) := by
            rw [remglob, loop, if_pos rfl]
            split <;> rfl
          rw [hempty] at hr
          obtain ⟨-, rfl⟩ := Prod.mk.inj hr
          exact fun x hx => absurd hx List.not_mem_nil
        · exact absurd (List.mem_of_getLast? hlast) hlf

/-! ## Lists of lines -/

theorem getLast_splitOn (f : List UInt8) : (f.splitOn LF).getLast? = some [] ↔ f = [] ∨ f.getLast? = some LF := by
  induction hlen : f.length using Nat.strong_induction_on generalizing f with
  | _ k ih =>
    by_cases hlf : LF ∈ f
    · obtain ⟨a, b, rfl, ha⟩ := List.eq_append_cons_of_mem hlf
      have hb := ih b.length (by rw [← hlen, List.length_append, List.length_cons]; omega) b rfl
      obtain ⟨l, ls, hsplit⟩ := List.exists_cons_of_ne_nil (List.splitOn_ne_nil LF b)
      rw [List.splitOn_append_cons_self_of_not_mem ha, hsplit, List.getLast?_cons_cons, ← hsplit, hb]
      cases b with
      | nil => simp
      | cons c b => simp [List.getLast?_append]
    · rw [List.splitOn_eq_singleton hlf]
      constructor
      · intro h
        exact Or.inl (List.cons.inj (Option.some.inj h ▸ rfl : [f] = [[]])).1
      · intro h
        rcases h with rfl | h
        · rfl
        · exact absurd (List.mem_of_getLast? h) hlf

theorem allLines_eq_lines (h : f = [] ∨ f.getLast? = some LF) : allLines f = lines f := by
  rw [allLines, if_pos ((getLast_splitOn f).mpr h), lines]

/-- The names are one line short otherwise. -/
theorem length_allLines (h : ¬ (f = [] ∨ f.getLast? = some LF)) : (allLines f).length = (lines f).length + 1 := by
  have hne := List.length_pos_iff.mpr (List.splitOn_ne_nil LF f)
  rw [allLines, if_neg fun hlast => h ((getLast_splitOn f).mp hlast), lines, List.length_dropLast]
  omega

/-- A NUL of the list is in one of its lines. -/
theorem nul_mem_allLines (h : NUL ∈ f) : ∃ l ∈ allLines f, NUL ∈ l := by
  obtain ⟨l, hl, hmem⟩ : ∃ l ∈ f.splitOn LF, NUL ∈ l := by
    induction hlen : f.length using Nat.strong_induction_on generalizing f with
    | _ k ih =>
      by_cases hlf : LF ∈ f
      · obtain ⟨a, b, rfl, ha⟩ := List.eq_append_cons_of_mem hlf
        rw [List.splitOn_append_cons_self_of_not_mem ha]
        rcases List.mem_append.mp h with h | h
        · exact ⟨a, List.mem_cons_self, h⟩
        · have hb : NUL ∈ b := (List.mem_cons.mp h).resolve_left (by decide)
          obtain ⟨l, hl, hmem⟩ := ih b.length (by rw [← hlen, List.length_append, List.length_cons]; omega) hb rfl
          exact ⟨l, List.mem_cons_of_mem a hl, hmem⟩
      · rw [List.splitOn_eq_singleton hlf]
        exact ⟨f, List.mem_singleton.mpr rfl, h⟩
  rw [allLines]
  split
  · -- the line that is left out is the empty one
    rename_i hlast
    have hsplit := List.dropLast_append_getLast? [] hlast
    rw [← hsplit, List.mem_append, List.mem_singleton] at hl
    rcases hl with hl | rfl
    · exact ⟨l, hl, hmem⟩
    · exact absurd hmem List.not_mem_nil
  · exact ⟨l, hl, hmem⟩

/-- The calls of remglob give the lines and touch nothing but the buffer, just for the plain
    lists. -/
theorem calls_iff (heap : Heap) (f : List UInt8) (hroom : ∀ k, heap.room k = true) :
    ((calls heap f).1 = allLines f ∧ ∀ x ∈ (calls heap f).2, x.Inside) ↔ Plain f := by
  constructor
  · intro ⟨hnames, _⟩
    have hnul : NUL ∉ f := by
      intro hmem
      obtain ⟨l, hl, hlnul⟩ := nul_mem_allLines hmem
      rw [← hnames] at hl
      exact callsLoop_spec hl hlnul
    have hlines := (callsLoop_lines hroom (Nat.lt_succ_self _) hnul).1
    rw [← calls, hnames] at hlines
    have hend : f = [] ∨ f.getLast? = some LF := by
      by_contra hend
      have hlen := length_allLines hend
      have hle := (List.takeWhile_prefix fits (l := lines f)).length_le
      rw [← hlines] at hle
      omega
    rw [allLines_eq_lines hend, eq_comm, List.takeWhile_eq_self_iff] at hlines
    exact ⟨hnul, hend, fun l hl => by simpa [fits] using hlines l hl⟩
  · intro ⟨hnul, hend, hfit⟩
    obtain ⟨hlines, hinside⟩ := callsLoop_lines hroom (Nat.lt_succ_self _) hnul
    refine ⟨?_, hinside hend⟩
    rw [calls, hlines, allLines_eq_lines hend, List.takeWhile_eq_self_iff]
    exact fun l hl => by simpa [fits] using hfit l hl

/-- A heap that finds room for everything, with a NUL before each buffer. -/
def roomy : Heap := ⟨fun _ => true, fun _ => NUL⟩

theorem calls_two_lines :
    (calls roomy [0x61, LF, LF]).1 = allLines [0x61, LF, LF] ∧ ∀ x ∈ (calls roomy [0x61, LF, LF]).2, x.Inside := by
  have hfit : ∀ l ∈ lines [0x61, LF, LF], l.length + 2 ≤ MAXBUF := by
    intro l hl
    have hlines : lines [0x61, LF, LF] = [[0x61], []] := by decide
    rw [hlines, List.mem_cons, List.mem_singleton] at hl
    rcases hl with rfl | rfl <;> decide
  exact (calls_iff roomy [0x61, LF, LF] fun _ => rfl).mpr ⟨by decide, Or.inr rfl, hfit⟩

/-- The list `a`, without a newline, has a line that no call gives. -/
theorem a_last_line_is_lost : ¬ ((calls roomy [0x61]).1 = allLines [0x61]) := by
  decide

end Netutils.Ftp.NameList
