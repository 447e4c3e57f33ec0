/-
  Netutils.Libinetutils.ArgcvWords — argcv_scan and argcv_get (libinetutils/argcv.c) with the
  indices of the source and any delim: which parts of a command its arguments are.

  A quote that is not matched falls into the case of a plain word with the index at the end, and
  the word gets the character there as well. Where no quotation is open at the end the words
  are what they should be (`words_partition_iff`). With an empty delim they are those of the
  cut of a list (`argcvGet_list`).
-/

import Netutils.Lib.Cells
import Netutils.Libinetutils.Argcv

namespace Netutils.Libinetutils.Words

open Netutils.Lib.Cells Netutils.Libc

/-! ## argcv_scan and argcv_get -/

/-- `command[i]` -/
def char (command : List UInt8) (i : Nat) : UInt8 := command.getD i 0

/-- `isdelim (c, delim)`; strchr finds the NUL too. -/
def isdelim (delim : List UInt8) (c : UInt8) : Bool := c == dquote || c == 0 || delim.contains c

/-- `while (i < len && p (command[i])) i++`, with `left` characters up to len. -/
def skip (p : UInt8 → Bool) (command : List UInt8) : Nat → Nat → Nat
  | 0, i => i
  | left + 1, i => if p (char command i) then skip p command left (i + 1) else i

/-- A character within a plain word. -/
def inWord (delim : List UInt8) (c : UInt8) : Bool := !(isws c || isdelim delim c)

/-- Start and end; *save is the next character. -/
def argcvScan (delim command : List UInt8) (len save : Nat) : Nat × Nat :=
  let start := skip isws command (len - save) save
  let c := char command start
  let i := if c = dquote ∨ c = squote then skip (· ≠ c) command (len - (start + 1)) (start + 1) else start
  -- found matching quote
  if (c = dquote ∨ c = squote) ∧ i < len then (start, i)
  else if isdelim delim (char command i) then (start, i)
  else (start, skip (inWord delim) command (len - (i + 1)) (i + 1) - 1)

/-- The calls that count the arguments; `n` bounds their number. -/
def count (delim command : List UInt8) (len : Nat) : Nat → Nat → List (Nat × Nat)
  | 0, _ => []
  | n + 1, save =>
    let r := argcvScan delim command len save
    if r.2 + 1 < len then r :: count delim command len n (r.2 + 1) else [r]

/-- The calls that copy them. -/
def again (delim command : List UInt8) (len : Nat) : Nat → Nat → List (Nat × Nat)
  | 0, _ => []
  | argc + 1, save =>
    let r := argcvScan delim command len save
    r :: again delim command len argc (r.2 + 1)

/-- Start and end without the quotes. -/
def bare (command : List UInt8) (r : Nat × Nat) : Int × Int :=
  let first := char command r.1
  let last := char command r.2
  if first = dquote ∧ last = dquote ∨ first = squote ∧ last = squote then (r.1 + 1, r.2 - 1) else (r.1, r.2)

/-- `n = end - start + 1` -/
def size (r : Int × Int) : Int := r.2 - r.1 + 1

/-- `memcpy ((*argv)[i], &command[start], n)` -/
def copy (command : List UInt8) (r : Int × Int) : List UInt8 :=
  slice (char command) r.1.toNat (r.1 + size r).toNat

structure Args where
  argc : Nat
  argv : List (List UInt8)
  /-- What calloc and memcpy are given. -/
  sizes : List Int
  visited : List (Nat × Nat)

/-- The trimmed length. -/
def trimmed (command : List UInt8) : Nat := (command.rdropWhile isspace).length

def argcvGet (command delim : List UInt8) : Args :=
  let len := trimmed command
  if len < 1 then ⟨0, [], [], []⟩
  else
    let counted := count delim command len len 0
    let copied := again delim command len counted.length 0
    let words := copied.map (bare command)
    ⟨counted.length, words.map (copy command),
      (counted.length + 1) :: words.flatMap (fun r => [size r + 1, size r]), counted⟩

/-! ## Quotations -/

/-- Where the character in front of an index leaves the reader. -/
inductive Mode where
  | between
  | word
  | quoted (q : UInt8)
  deriving DecidableEq

def Mode.next (delim : List UInt8) (m : Mode) (c : UInt8) : Mode :=
  match m with
  | .quoted q => if c = q then .between else .quoted q
  | .between =>
    if isws c then .between
    else if c = dquote ∨ c = squote then .quoted c
    else if isdelim delim c then .between
    else .word
  | .word =>
    if isws c then .between
    else if isdelim delim c then (if c = dquote ∨ c = squote then .quoted c else .between)
    else .word

def mode (delim command : List UInt8) : Nat → Mode
  | 0 => .between
  | i + 1 => (mode delim command i).next delim (char command i)

def Mode.Quoted (m : Mode) : Prop := ∃ q, m = .quoted q

variable {delim command : List UInt8} {p : UInt8 → Bool} {len left save i j : Nat}

/-! ## One word -/

theorem skip_spec (p : UInt8 → Bool) (command : List UInt8) (left i : Nat) :
    i ≤ skip p command left i ∧ skip p command left i ≤ i + left ∧
      (∀ k, i ≤ k → k < skip p command left i → p (char command k) = true) ∧
      (skip p command left i < i + left → p (char command (skip p command left i)) = false) := by
  induction left generalizing i with
  | zero =>
    refine ⟨Nat.le_refl _, Nat.le_refl _, fun k h1 h2 => absurd h2 (Nat.not_lt.mpr h1), fun h => ?_⟩
    exact absurd h (Nat.lt_irrefl _)
  | succ left ih =>
    unfold skip
    split
    · rename_i hp
      obtain ⟨h1, h2, h3, h4⟩ := ih (i + 1)
      refine ⟨by omega, by omega, ?_, fun h => h4 (by omega)⟩
      intro k hk hlt
      rcases Nat.eq_or_lt_of_le hk with rfl | hk
      · exact hp
      · exact h3 k hk hlt
    · rename_i hp
      refine ⟨Nat.le_refl _, Nat.le_add_right _ _, fun k h1 h2 => absurd h2 (Nat.not_lt.mpr h1), fun _ => ?_⟩
      exact Bool.not_eq_true _ ▸ hp

/-- A call may begin here: the character here begins a word, whatever was before it. -/
structure Fresh (delim command : List UInt8) (len save : Nat) : Prop where
  outside : ¬ (mode delim command save).Quoted
  begins : save < len → (mode delim command save).next delim (char command save) =
    Mode.between.next delim (char command save)

theorem fresh_of_between (h : mode delim command i = .between) : Fresh delim command len i := by
  refine ⟨?_, fun _ => by rw [h]⟩
  intro ⟨q, hq⟩
  rw [h] at hq
  cases hq

/-- Blanks are between the words. -/
theorem Fresh.blanks (h : Fresh delim command len save) (hi : save ≤ i) (hlen : i < len)
    (hws : ∀ k, save ≤ k → k < i → isws (char command k) = true) : Fresh delim command len i := by
  induction i, hi using Nat.le_induction with
  | base => exact h
  | succ i hi ih =>
    have hfresh := ih (by omega) fun k h1 h2 => hws k h1 (by omega)
    apply fresh_of_between
    show (mode delim command i).next delim (char command i) = .between
    rw [hfresh.begins (by omega)]
    exact if_pos (hws i hi (Nat.lt_succ_self i))

/-- As long as a quote does not end it, a quotation goes on. -/
theorem mode_quoted {q : UInt8} (h : mode delim command i = .quoted q) (hj : i ≤ j)
    (hne : ∀ k, i ≤ k → k < j → char command k ≠ q) : mode delim command j = .quoted q := by
  induction j, hj using Nat.le_induction with
  | base => exact h
  | succ j hj ih =>
    have hquoted := ih fun k h1 h2 => hne k h1 (by omega)
    show (mode delim command j).next delim (char command j) = .quoted q
    rw [hquoted]
    exact if_neg (hne j hj (Nat.lt_succ_self j))

theorem mode_word (h : mode delim command i = .word) (hj : i ≤ j)
    (hin : ∀ k, i ≤ k → k < j → inWord delim (char command k) = true) : mode delim command j = .word := by
  induction j, hj using Nat.le_induction with
  | base => exact h
  | succ j hj ih =>
    have hword := ih fun k h1 h2 => hin k h1 (by omega)
    have hc := hin j hj (Nat.lt_succ_self j)
    unfold inWord at hc
    rw [Bool.not_eq_true', Bool.or_eq_false_iff] at hc
    show (mode delim command j).next delim (char command j) = .word
    rw [hword]
    simp [Mode.next, hc.1, hc.2]

/-- What ends a plain word begins the next. -/
theorem fresh_of_word (h : mode delim command i = .word) (hend : i < len → inWord delim (char command i) = false) :
    Fresh delim command len i := by
  refine ⟨?_, fun hlen => ?_⟩
  · intro ⟨q, hq⟩
    rw [h] at hq
    cases hq
  · have hc := hend hlen
    unfold inWord at hc
    rw [Bool.not_eq_false', Bool.or_eq_true] at hc
    rw [h]
    unfold Mode.next
    simp only
    by_cases hws : isws (char command i) = true
    · rw [if_pos hws, if_pos hws]
    · have hdelim := hc.resolve_left hws
      rw [if_neg hws, if_neg hws, if_pos hdelim, if_pos hdelim]

/-- A quotation ends with its quote, or not at all. -/
theorem quotation_end {q : UInt8} (h : mode delim command i = .quoted q) (hi : i ≤ len) :
    let j := skip (· ≠ q) command (len - i) i
    i ≤ j ∧ (j < len ∧ Fresh delim command len (j + 1) ∨ j = len ∧ (mode delim command len).Quoted) := by
  obtain ⟨hle, hle', hall, hstop⟩ := skip_spec (· ≠ q) command (len - i) i
  generalize skip (fun c => decide (c ≠ q)) command (len - i) i = j at hle hle' hall hstop
  have hopen : mode delim command j = .quoted q := mode_quoted h hle fun k h1 h2 => of_decide_eq_true (hall k h1 h2)
  refine ⟨hle, ?_⟩
  rcases Nat.lt_or_ge j len with hj | hj
  · refine Or.inl ⟨hj, fresh_of_between ?_⟩
    show (mode delim command j).next delim (char command j) = .between
    rw [hopen]
    exact if_pos (not_not.mp (of_decide_eq_false (hstop (by omega))))
  · obtain rfl : j = len := by omega
    exact Or.inr ⟨rfl, q, hopen⟩

theorem word_end (h : mode delim command i = .word) (hi : i ≤ len) :
    let j := skip (inWord delim) command (len - i) i
    i ≤ j ∧ j ≤ len ∧ Fresh delim command len j := by
  obtain ⟨hle, hle', hall, hstop⟩ := skip_spec (inWord delim) command (len - i) i
  exact ⟨hle, by omega, fresh_of_word (mode_word h hle hall) fun hlt => hstop (by omega)⟩

/-- There is a word left. -/
theorem skip_blanks (hsave : save < len) (hlast : isws (char command (len - 1)) = false) :
    skip isws command (len - save) save < len := by
  obtain ⟨hle, hle', hblank, -⟩ := skip_spec isws command (len - save) save
  by_contra hbeyond
  have hws := hblank (len - 1) (by omega) (by omega)
  rw [hlast] at hws
  cases hws

/-- `*start` -/
def start (command : List UInt8) (len save : Nat) : Nat := skip isws command (len - save) save

theorem argcvScan_start (delim command : List UInt8) (len save : Nat) :
    (argcvScan delim command len save).1 = start command len save := by
  unfold argcvScan start
  simp only [apply_ite Prod.fst, ite_self]

/-- From a quote on, also where the index comes to the end: the plain word does not leave that. -/
theorem argcvScan_quote (hstart : start command len save = i)
    (hquote : char command i = dquote ∨ char command i = squote) :
    argcvScan delim command len save = (i, skip (· ≠ char command i) command (len - (i + 1)) (i + 1)) := by
  obtain ⟨hle, hle', -, -⟩ := skip_spec (· ≠ char command i) command (len - (i + 1)) (i + 1)
  unfold start at hstart
  unfold argcvScan
  simp only [hstart, if_pos hquote]
  generalize skip (fun c => decide (c ≠ char command i)) command (len - (i + 1)) (i + 1) = j at hle hle'
  by_cases hj : j < len
  · rw [if_pos ⟨hquote, hj⟩]
  · rw [if_neg fun h => hj h.2, show len - (j + 1) = 0 by omega]
    split
    · rfl
    · rfl

theorem argcvScan_delim (hstart : start command len save = i)
    (hquote : ¬ (char command i = dquote ∨ char command i = squote)) (hdelim : isdelim delim (char command i) = true) :
    argcvScan delim command len save = (i, i) := by
  unfold start at hstart
  unfold argcvScan
  simp only [hstart, if_neg hquote]
  rw [if_neg fun h => hquote h.1, if_pos hdelim]

theorem argcvScan_word (hstart : start command len save = i)
    (hquote : ¬ (char command i = dquote ∨ char command i = squote)) (hdelim : ¬ isdelim delim (char command i) = true) :
    argcvScan delim command len save = (i, skip (inWord delim) command (len - (i + 1)) (i + 1) - 1) := by
  unfold start at hstart
  unfold argcvScan
  simp only [hstart, if_neg hquote]
  rw [if_neg fun h => hquote h.1, if_neg hdelim]

/-- One call: blanks, and a word that ends before `len`, or a quotation that does not end. -/
theorem argcvScan_spec (h : Fresh delim command len save) (hsave : save < len)
    (hlast : isws (char command (len - 1)) = false) :
    let r := argcvScan delim command len save
    save ≤ r.1 ∧ r.1 < len ∧
      (∀ k, save ≤ k → k < r.1 → isws (char command k) = true ∧ ¬ (mode delim command k).Quoted) ∧
      (r.1 ≤ r.2 ∧ r.2 < len ∧ Fresh delim command len (r.2 + 1) ∨ r.2 = len ∧ (mode delim command len).Quoted) := by
  obtain ⟨hle, -, hblank, hstop⟩ := skip_spec isws command (len - save) save
  have hlt := skip_blanks hsave hlast
  simp only [argcvScan_start]
  generalize hstart : start command len save = i
  unfold start at hstart
  rw [hstart] at hle hblank hstop hlt
  have hws : isws (char command i) = false := hstop (by omega)
  have hfresh := h.blanks hle hlt hblank
  have hbegin : mode delim command (i + 1) = Mode.between.next delim (char command i) := hfresh.begins hlt
  refine ⟨hle, hlt, fun k h1 h2 => ⟨hblank k h1 h2, ?_⟩, ?_⟩
  · exact (h.blanks h1 (by omega) fun m hm hmk => hblank m hm (by omega)).outside
  by_cases hquote : char command i = dquote ∨ char command i = squote
  · have hmode : mode delim command (i + 1) = .quoted (char command i) := by
      rw [hbegin]
      simp [Mode.next, hws, hquote]
    rw [argcvScan_quote hstart hquote]
    obtain ⟨hopen, hend⟩ := quotation_end hmode (Nat.succ_le_of_lt hlt)
    exact hend.imp_left fun hend => ⟨Nat.le_of_succ_le hopen, hend⟩
  by_cases hdelim : isdelim delim (char command i) = true
  · rw [argcvScan_delim hstart hquote hdelim]
    refine Or.inl ⟨Nat.le_refl _, hlt, fresh_of_between ?_⟩
    rw [hbegin]
    simp [Mode.next, hws, hquote, hdelim]
  · have hmode : mode delim command (i + 1) = .word := by
      rw [hbegin]
      simp [Mode.next, hws, hquote, hdelim]
    rw [argcvScan_word hstart hquote hdelim]
    obtain ⟨hafter, hend, hnext⟩ := word_end hmode (Nat.succ_le_of_lt hlt)
    generalize skip (inWord delim) command (len - (i + 1)) (i + 1) = j at hafter hend hnext ⊢
    obtain ⟨last, rfl⟩ : ∃ last, j = last + 1 := ⟨j - 1, by omega⟩
    exact Or.inl ⟨Nat.le_of_succ_le_succ hafter, hend, hnext⟩

/-- From a quote to the next one like it. -/
def Completed (command : List UInt8) (r : Nat × Nat) : Prop :=
  (char command r.1 = dquote ∨ char command r.1 = squote) ∧ r.1 < r.2 ∧ char command r.2 = char command r.1 ∧
    ∀ k < r.2, r.1 < k → char command k ≠ char command r.1

instance (r : Nat × Nat) : Decidable (Completed command r) := by unfold Completed; infer_instance

/-- A word that begins with a quote and ends before `len` is a completed one. -/
theorem completed_of_quote {r : Nat × Nat} (hr : argcvScan delim command len save = r)
    (hend : r.2 < len) (hquote : char command r.1 = dquote ∨ char command r.1 = squote) : Completed command r := by
  have hstart : start command len save = r.1 := by rw [← hr, argcvScan_start]
  obtain ⟨h1, -, hall, hstop⟩ := skip_spec (· ≠ char command r.1) command (len - (r.1 + 1)) (r.1 + 1)
  rw [argcvScan_quote hstart hquote] at hr
  have hj := congrArg Prod.snd hr
  simp only at hj
  rw [hj] at h1 hall hstop
  refine ⟨hquote, h1, not_not.mp (of_decide_eq_false (hstop (by omega))), fun k hk hlt => ?_⟩
  exact of_decide_eq_true (hall k hlt hk)

/-! ## All words -/

theorem mem_count {n : Nat} {r : Nat × Nat} (hr : r ∈ count delim command len n save) :
    ∃ i, argcvScan delim command len i = r := by
  induction n generalizing save with
  | zero => cases hr
  | succ n ih =>
    unfold count at hr
    simp only at hr
    split at hr
    · rcases List.mem_cons.mp hr with rfl | hr
      · exact ⟨save, rfl⟩
      · exact ih hr
    · exact ⟨save, (List.mem_singleton.mp hr).symm⟩

/-- The words are found again when they are copied. -/
theorem again_count (n : Nat) :
    again delim command len (count delim command len n save).length save = count delim command len n save := by
  induction n generalizing save with
  | zero => rfl
  | succ n ih =>
    unfold count
    simp only
    split
    · rw [List.length_cons, again, ih]
    · rfl

/-- What the calls from `save` on have found. -/
structure Found (delim command : List UInt8) (len save : Nat) (l : List (Nat × Nat)) : Prop where
  within : ∀ r ∈ l, save ≤ r.1 ∧ r.1 ≤ r.2
  increasing : l.Pairwise fun a b => a.2 < b.1
  covers : ∀ i, save ≤ i → i < len → isws (char command i) = true ∧ ¬ (mode delim command i).Quoted ∨
    ∃ r ∈ l, r.1 ≤ i ∧ i ≤ r.2
  ends : (∀ r ∈ l, r.2 < len) ∧ ¬ (mode delim command len).Quoted ∨
    (∃ r ∈ l, r.2 = len) ∧ (mode delim command len).Quoted

/-- A word with the words behind it. -/
theorem Found.cons {r : Nat × Nat} {l : List (Nat × Nat)} (hle : save ≤ r.1) (hpos : r.1 ≤ r.2) (hlt : r.2 < len)
    (hgap : ∀ i, save ≤ i → i < r.1 → isws (char command i) = true ∧ ¬ (mode delim command i).Quoted)
    (h : Found delim command len (r.2 + 1) l) : Found delim command len save (r :: l) where
  within := by
    intro a ha
    rcases List.mem_cons.mp ha with rfl | ha
    · exact ⟨hle, hpos⟩
    · have hafter := h.within a ha
      exact ⟨by omega, hafter.2⟩
  increasing := by
    refine List.pairwise_cons.mpr ⟨fun a ha => ?_, h.increasing⟩
    have hafter := h.within a ha
    omega
  covers := by
    intro i hi hlen
    rcases Nat.lt_or_ge r.2 i with hbehind | hto
    · refine (h.covers i hbehind hlen).imp_right fun ⟨a, ha, hia⟩ => ?_
      exact ⟨a, List.mem_cons_of_mem _ ha, hia⟩
    · rcases Nat.lt_or_ge i r.1 with hbefore | hfrom
      · exact Or.inl (hgap i hi hbefore)
      · exact Or.inr ⟨r, List.mem_cons_self, hfrom, hto⟩
  ends := by
    rcases h.ends with ⟨hall, hclosed⟩ | ⟨⟨a, ha, hlen⟩, hopen⟩
    · refine Or.inl ⟨fun a ha => ?_, hclosed⟩
      rcases List.mem_cons.mp ha with rfl | ha
      · exact hlt
      · exact hall a ha
    · exact Or.inr ⟨⟨a, List.mem_cons_of_mem _ ha, hlen⟩, hopen⟩

/-- A word that takes the rest. -/
theorem Found.last {r : Nat × Nat} (hle : save ≤ r.1) (hpos : r.1 ≤ r.2) (hmore : len ≤ r.2 + 1)
    (hgap : ∀ i, save ≤ i → i < r.1 → isws (char command i) = true ∧ ¬ (mode delim command i).Quoted)
    (hends : r.2 < len ∧ ¬ (mode delim command len).Quoted ∨ r.2 = len ∧ (mode delim command len).Quoted) :
    Found delim command len save [r] where
  within := by
    intro a ha
    obtain rfl := List.mem_singleton.mp ha
    exact ⟨hle, hpos⟩
  increasing := List.pairwise_singleton _ _
  covers := by
    intro i hi hlen
    rcases Nat.lt_or_ge i r.1 with hbefore | hfrom
    · exact Or.inl (hgap i hi hbefore)
    · exact Or.inr ⟨r, List.mem_singleton_self r, hfrom, by omega⟩
  ends := by
    rcases hends with ⟨hin, hclosed⟩ | ⟨hlen, hopen⟩
    · exact Or.inl ⟨fun a ha => List.mem_singleton.mp ha ▸ hin, hclosed⟩
    · exact Or.inr ⟨⟨r, List.mem_singleton_self r, hlen⟩, hopen⟩

theorem count_found {n : Nat} (hn : len - save ≤ n) (h : Fresh delim command len save) (hsave : save < len)
    (hlast : isws (char command (len - 1)) = false) :
    Found delim command len save (count delim command len n save) := by
  induction n generalizing save with
  | zero => omega
  | succ n ih =>
    obtain ⟨hle, hlt, hgap, hend⟩ := argcvScan_spec h hsave hlast
    unfold count
    generalize argcvScan delim command len save = r at hle hlt hgap hend
    simp only
    rcases hend with ⟨hpos, hin, hfresh⟩ | ⟨hlen, hopen⟩
    · by_cases hmore : r.2 + 1 < len
      · rw [if_pos hmore]
        exact (ih (by omega) hfresh hmore).cons hle hpos hin hgap
      · rw [if_neg hmore]
        obtain hall : r.2 + 1 = len := by omega
        refine Found.last hle hpos (Nat.le_of_eq hall.symm) hgap (Or.inl ⟨hin, ?_⟩)
        rw [← hall]
        exact hfresh.outside
    · rw [if_neg (by omega)]
      exact Found.last hle (by omega) (by omega) hgap (Or.inr ⟨hlen, hopen⟩)

/-! ## The arguments -/

/-- The text of an interval, without the quotes of a completed one. -/
def word (command : List UInt8) (r : Nat × Nat) : List UInt8 :=
  if Completed command r then slice (char command) (r.1 + 1) r.2 else slice (char command) r.1 (r.2 + 1)

structure Partitions (delim command : List UInt8) : Prop where
  inside : ∀ r ∈ (argcvGet command delim).visited, r.1 ≤ r.2 ∧ r.2 < trimmed command
  increasing : (argcvGet command delim).visited.Pairwise fun a b => a.2 < b.1
  covers : ∀ i < trimmed command, ¬ (isws (char command i) = true ∧ ¬ (mode delim command i).Quoted) →
    ∃ r ∈ (argcvGet command delim).visited, r.1 ≤ i ∧ i ≤ r.2
  words : (argcvGet command delim).argv = (argcvGet command delim).visited.map (word command)
  counted : (argcvGet command delim).argc = (argcvGet command delim).visited.length
  sizes : ∀ n ∈ (argcvGet command delim).sizes, 0 ≤ n

/-- The trimmed command does not end with a blank. -/
theorem isws_last (h : 0 < trimmed command) : isws (char command (trimmed command - 1)) = false := by
  have hne : command.rdropWhile isspace ≠ [] := List.ne_nil_of_length_pos h
  obtain ⟨t, ht⟩ := List.rdropWhile_prefix isspace command
  have hgraph := List.rdropWhile_last_not isspace command hne
  unfold trimmed at h ⊢
  generalize command.rdropWhile isspace = line at hne ht hgraph h ⊢
  have hlast : char command (line.length - 1) = line.getLast hne := by
    unfold char
    rw [← ht, List.getLast_eq_getElem, List.getD_eq_getElem?_getD, List.getElem?_append_left (by omega),
      List.getElem?_eq_getElem (by omega)]
    rfl
  rw [hlast]
  generalize line.getLast hne = c at hgraph ⊢
  by_contra hws
  refine hgraph ?_
  unfold isws at hws
  unfold isspace
  simp only [Bool.not_eq_false, Bool.or_eq_true, beq_iff_eq] at hws
  rcases hws with rfl | rfl
  · rfl
  · rfl

/-- Taking the quotes away is done for the completed quotations. -/
theorem copy_bare {r : Nat × Nat} (h : (char command r.1 = dquote ∨ char command r.1 = squote) → Completed command r)
    (hle : r.1 ≤ r.2) :
    copy command (bare command r) = word command r ∧ 0 ≤ size (bare command r) := by
  unfold bare word
  simp only
  by_cases hdone : Completed command r
  · have ⟨hquote, hlt, hsame, _⟩ := hdone
    have hboth : char command r.1 = dquote ∧ char command r.2 = dquote ∨
        char command r.1 = squote ∧ char command r.2 = squote := by
      rw [hsame]
      exact hquote.imp (fun h => ⟨h, h⟩) fun h => ⟨h, h⟩
    rw [if_pos hboth, if_pos hdone]
    have hsize : size ((r.1 : Int) + 1, (r.2 : Int) - 1) = (r.2 : Int) - r.1 - 1 := by
      unfold size
      simp only
      omega
    unfold copy
    rw [hsize]
    refine ⟨?_, by omega⟩
    congr 1
    simp only
    omega
  · have hplain : ¬ (char command r.1 = dquote ∧ char command r.2 = dquote ∨
        char command r.1 = squote ∧ char command r.2 = squote) := by
      intro hboth
      exact hdone (h (hboth.imp And.left And.left))
    rw [if_neg hplain, if_neg hdone]
    unfold copy size
    simp only
    refine ⟨?_, by omega⟩
    congr 1
    omega

/-- With no quotation open at the end, what is copied of each word is its text. -/
theorem count_copied {n : Nat} (h : ∀ r ∈ count delim command len n save, r.1 ≤ r.2 ∧ r.2 < len) :
    ∀ r ∈ count delim command len n save,
      copy command (bare command r) = word command r ∧ 0 ≤ size (bare command r) := by
  intro r hr
  obtain ⟨i, hi⟩ := mem_count hr
  exact copy_bare (completed_of_quote hi (h r hr).2) (h r hr).1

/-- The words are the parts of the command that they should be, and each argument is the text of
    its word, unless a quotation is left open at the end. -/
theorem words_partition_iff (delim command : List UInt8) :
    Partitions delim command ↔ ¬ (mode delim command (trimmed command)).Quoted := by
  rcases Nat.eq_zero_or_pos (trimmed command) with hzero | hpos
  · have hget : argcvGet command delim = ⟨0, [], [], []⟩ := by
      unfold argcvGet
      simp only
      rw [if_pos (by omega)]
    rw [hzero]
    refine iff_of_true ?_ ?_
    · constructor <;> simp [hget, hzero]
    · intro ⟨q, hq⟩
      cases hq
  · have hget : argcvGet command delim = _ := if_neg (Nat.not_lt.mpr hpos)
    have hfound := count_found (Nat.le_refl (trimmed command))
      (fresh_of_between rfl : Fresh delim command (trimmed command) 0) hpos (isws_last hpos)
    rw [again_count] at hget
    generalize hcount : count delim command (trimmed command) (trimmed command) 0 = l at hfound hget
    constructor
    · intro h hopen
      rcases hfound.ends with ⟨-, hclosed⟩ | ⟨⟨r, hr, hlen⟩, -⟩
      · exact hclosed hopen
      · have hin := h.inside r (by rw [hget]; exact hr)
        omega
    · intro hclosed
      have hends : ∀ r ∈ l, r.2 < trimmed command := by
        rcases hfound.ends with ⟨hall, -⟩ | ⟨-, hopen⟩
        · exact hall
        · exact absurd hopen hclosed
      have hcopy : ∀ r ∈ l, copy command (bare command r) = word command r ∧ 0 ≤ size (bare command r) := by
        subst hcount
        exact count_copied fun r hr => ⟨(hfound.within r hr).2, hends r hr⟩
      constructor
      · intro r hr
        rw [hget] at hr
        exact ⟨(hfound.within r hr).2, hends r hr⟩
      · rw [hget]
        exact hfound.increasing
      · intro i hi hne
        rw [hget]
        exact (hfound.covers i (Nat.zero_le i) hi).resolve_left hne
      · rw [hget]
        simp only [List.map_map]
        exact List.map_congr_left fun r hr => (hcopy r hr).1
      · rw [hget]
      · intro n hn
        rw [hget] at hn
        rcases List.mem_cons.mp hn with rfl | hn
        · omega
        · obtain ⟨w, hw, hn⟩ := List.mem_flatMap.mp hn
          obtain ⟨r, hr, rfl⟩ := List.mem_map.mp hw
          have hsize := (hcopy r hr).2
          rcases List.mem_cons.mp hn with rfl | hn
          · omega
          · rw [List.mem_singleton.mp hn]
            exact hsize

/-- The quote that is not matched: the argument is one character longer than the command, and gets
    its NUL. -/
theorem unmatched_quote_goes_on : ¬ Partitions [] (text "\"abc") := by
  intro h
  have hin := h.inside (0, 4) (by decide)
  exact absurd hin.2 (by decide)

/-! ## With an empty delim -/

/-- The text of an interval, with the character that stands behind the command. -/
def interval (command : List UInt8) (r : Nat × Nat) : List UInt8 := slice (char command) r.1 (r.2 + 1)

theorem skip_slice (p : UInt8 → Bool) (command : List UInt8) (left i : Nat) :
    (slice (char command) i (i + left)).dropWhile p = slice (char command) (skip p command left i) (i + left) ∧
      (slice (char command) i (i + left)).takeWhile p = slice (char command) i (skip p command left i) := by
  induction left generalizing i with
  | zero => simp [skip]
  | succ left ih =>
    obtain ⟨hdrop, htake⟩ := ih (i + 1)
    obtain ⟨hle, -⟩ := skip_spec p command left (i + 1)
    rw [show i + 1 + left = i + (left + 1) by omega] at hdrop htake
    rw [slice_cons (Nat.lt_add_of_pos_right (Nat.succ_pos left)), List.dropWhile_cons, List.takeWhile_cons]
    unfold skip
    split
    · exact ⟨hdrop, by rw [htake, ← slice_cons (Nat.lt_of_succ_le hle)]⟩
    · exact ⟨(slice_cons (Nat.lt_add_of_pos_right (Nat.succ_pos left))).symm, slice_self.symm⟩

/-- Up to `len`. -/
theorem skip_to (p : UInt8 → Bool) (command : List UInt8) (hi : i ≤ len) :
    (slice (char command) i len).dropWhile p = slice (char command) (skip p command (len - i) i) len ∧
      (slice (char command) i len).takeWhile p = slice (char command) i (skip p command (len - i) i) := by
  have h := skip_slice p command (len - i) i
  rwa [Nat.add_sub_cancel' hi] at h

theorem scanQuote_interval {q : UInt8} (hi : i < len) :
    let j := skip (· ≠ q) command (len - (i + 1)) (i + 1)
    scanQuote some (char command len) q (slice (char command) (i + 1) len) =
      (q :: slice (char command) (i + 1) (j + 1), slice (char command) (j + 1) len) := by
  have hne : (fun x : UInt8 => decide (some x ≠ some q)) = fun x => decide (x ≠ q) := by
    funext x
    simp
  obtain ⟨hle, hle', -, -⟩ := skip_spec (· ≠ q) command (len - (i + 1)) (i + 1)
  obtain ⟨hdrop, htake⟩ := skip_to (· ≠ q) command (Nat.succ_le_of_lt hi)
  unfold scanQuote
  rw [hne, hdrop, htake]
  generalize skip (fun x => decide (x ≠ q)) command (len - (i + 1)) (i + 1) = j at hle hle'
  simp only
  rw [slice_succ hle]
  rcases Nat.lt_or_ge j len with hj | hj
  · rw [slice_cons hj]
    rfl
  · obtain rfl : j = len := by omega
    have hnone : slice (char command) (j + 1) j = [] := by simp [slice]
    rw [slice_self, hnone]
    rfl

/-- One call is the one for the rest of the command. -/
theorem argcvScan_interval (hsave : save < len) (hlast : isws (char command (len - 1)) = false) :
    let r := argcvScan [] command len save
    Libinetutils.argcvScan some (char command len) (slice (char command) save len) =
      (interval command r, slice (char command) (r.2 + 1) len) := by
  have hblank : is some isws = isws := rfl
  have hword : Libinetutils.inWord some = inWord [] := by
    funext c
    simp [Libinetutils.inWord, inWord, is, Libinetutils.isdelim, isdelim]
  have hdelim : ∀ c, is some Libinetutils.isdelim c = isdelim [] c := by
    intro c
    simp [is, Libinetutils.isdelim, isdelim]
  have hlt := skip_blanks hsave hlast
  generalize hstart : start command len save = i
  unfold start at hstart
  rw [hstart] at hlt
  unfold Libinetutils.argcvScan
  rw [hblank, (skip_to isws command (Nat.le_of_lt hsave)).1, hstart, slice_cons hlt]
  simp only [Option.some.injEq, hdelim]
  by_cases hquote : char command i = dquote ∨ char command i = squote
  · obtain ⟨hle, -⟩ := skip_spec (· ≠ char command i) command (len - (i + 1)) (i + 1)
    rw [if_pos hquote, scanQuote_interval hlt, argcvScan_quote hstart hquote, interval,
      slice_cons (Nat.lt_succ_of_lt hle)]
  rw [if_neg hquote]
  by_cases hd : isdelim [] (char command i) = true
  · rw [if_pos hd, argcvScan_delim hstart hquote hd, interval, slice_cons (Nat.lt_succ_self i), slice_self]
  · obtain ⟨hdrop, htake⟩ := skip_to (inWord []) command (Nat.succ_le_of_lt hlt)
    obtain ⟨hle, -⟩ := skip_spec (inWord []) command (len - (i + 1)) (i + 1)
    rw [if_neg hd, hword, hdrop, htake, argcvScan_word hstart hquote hd, interval]
    generalize skip (inWord []) command (len - (i + 1)) (i + 1) = j at hle
    obtain ⟨last, rfl⟩ : ∃ last, j = last + 1 := ⟨j - 1, by omega⟩
    rw [Nat.add_sub_cancel, slice_cons (show i < last + 1 by omega)]

theorem count_interval {n : Nat} (hsave : save < len) (hlast : isws (char command (len - 1)) = false) :
    argcvAll some (char command len) n (slice (char command) save len) =
      (count [] command len n save).map (interval command) := by
  induction n generalizing save with
  | zero => rfl
  | succ n ih =>
    unfold argcvAll count
    rw [argcvScan_interval hsave hlast]
    generalize argcvScan [] command len save = r
    simp only
    by_cases hmore : r.2 + 1 < len
    · have hrest : slice (char command) (r.2 + 1) len ≠ [] := by
        rw [slice_cons hmore]
        exact List.cons_ne_nil _ _
      rw [if_neg hrest, if_pos hmore, ih hmore, List.map_cons]
    · have hrest : slice (char command) (r.2 + 1) len = [] := by
        rw [slice, Nat.sub_eq_zero_of_le (Nat.le_of_not_lt hmore)]
        rfl
      rw [if_pos hrest, if_neg hmore]
      rfl

/-- The quotes are taken away by the indices as by the ends of the list. -/
theorem unquote_interval {r : Nat × Nat} (hle : r.1 ≤ r.2) :
    unquote some (interval command r) = copy command (bare command r) := by
  have hhead : (interval command r).head?.bind some = some (char command r.1) := by
    rw [interval, slice_cons (Nat.lt_succ_of_le hle)]
    rfl
  have hlast : (interval command r).getLast?.bind some = some (char command r.2) := by
    rw [interval, slice_succ hle, List.getLast?_concat]
    rfl
  have hinner : (interval command r).tail.dropLast = slice (char command) (r.1 + 1) r.2 := by
    rw [interval, slice_cons (Nat.lt_succ_of_le hle), List.tail_cons]
    rcases Nat.eq_or_lt_of_le hle with heq | hlt
    · simp [slice, heq]
    · rw [slice_succ hlt, List.dropLast_concat]
  unfold unquote bare
  rw [hhead, hlast, hinner]
  simp only [Option.some.injEq]
  split
  · unfold copy size
    simp only
    congr 1
    omega
  · unfold copy size interval
    simp only
    congr 1
    omega

/-- The command without the blanks at its end. -/
theorem slice_trimmed (command : List UInt8) :
    slice (char command) 0 (trimmed command) = command.rdropWhile isspace := by
  have hline := List.rdropWhile_prefix isspace command
  rw [List.prefix_iff_eq_take.mp hline]
  exact slice_getD command 0 hline.length_le

/-- With an empty delim the arguments are those of the cut of a list. -/
theorem argcvGet_list (command : List UInt8) : (argcvGet command []).argv = Libinetutils.argcvGet some 0 command := by
  have hblank : is some isspace = isspace := rfl
  have hline := slice_trimmed command
  have hlen : (command.rdropWhile isspace).length = trimmed command := rfl
  have hbehind : (command.drop (trimmed command)).headD 0 = char command (trimmed command) := by
    rw [char, List.headD_eq_head?_getD, List.head?_drop, List.getD_eq_getElem?_getD]
  unfold Libinetutils.argcvGet
  rw [hblank]
  simp only
  rw [hlen, hbehind, ← hline]
  rcases Nat.eq_zero_or_pos (trimmed command) with hzero | hpos
  · rw [hzero, slice_self, if_pos rfl]
    unfold argcvGet
    simp only [hzero]
    rfl
  · have hsome : slice (char command) 0 (trimmed command) ≠ [] := by
      rw [slice_cons hpos]
      exact List.cons_ne_nil _ _
    have hfound := count_found (Nat.le_refl (trimmed command))
      (fresh_of_between rfl : Fresh [] command (trimmed command) 0) hpos (isws_last hpos)
    have hget : argcvGet command [] = _ := if_neg (Nat.not_lt.mpr hpos)
    rw [if_neg hsome, count_interval hpos (isws_last hpos), List.map_map, hget, again_count]
    simp only [List.map_map]
    exact List.map_congr_left fun r hr => (unquote_interval (hfound.within r hr).2).symm

end Netutils.Libinetutils.Words
