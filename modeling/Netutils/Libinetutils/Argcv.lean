/-
  Netutils.Libinetutils.Argcv — argcv_scan and argcv_get (libinetutils/argcv.c) with an empty
  delim: how a command is cut into arguments.

  The alphabet is a parameter, so that a text with places in it is cut in the same way. The
  arguments are as many as that has words, and those without a place in them are these
  words, as long as each place is filled with something that is not blank and has neither
  blanks nor quotes (`argcvGet_fills`).
-/

import Mathlib.Data.List.Forall2
import Netutils.Lib.Filling
import Netutils.Libc.Ctype

namespace Netutils.Libinetutils

open Netutils.Lib.Filling Netutils.Libc

/-! ## The characters -/

def dquote : UInt8 := 0x22
def squote : UInt8 := 0x27

/-- `isws (c)` -/
def isws (c : UInt8) : Bool := c == 0x20 || c == 0x09

/-- `isdelim (c, "")`; strchr finds a NUL in the empty string. -/
def isdelim (c : UInt8) : Bool := c == dquote || c == 0

/-! ## The scanner -/

section Scan

variable {α : Type} (byte : α → Option UInt8)

/-- The character of `x`, if it is one, is of the kind `p`. -/
def is (p : UInt8 → Bool) (x : α) : Bool := (byte x).any p

def inWord (x : α) : Bool := !(is byte isws x || is byte isdelim x)

/-- The quote `c` with `l` behind it; `atLen` is `command[len]`. -/
def scanQuote (atLen c : α) (l : List α) : List α × List α :=
  match l.dropWhile fun x => byte x ≠ byte c with
  -- found matching quote
  | q :: save => (c :: l.takeWhile (fun x => byte x ≠ byte c) ++ [q], save)
  | [] => (c :: l ++ [atLen], [])

/-- `rest` is what lies between `*save` and `len`. The result is what lies from `*start` to
    `*end`, and what is left. -/
def argcvScan (atLen : α) (rest : List α) : List α × List α :=
  match rest.dropWhile (is byte isws) with
  | [] => ([], [])
  | c :: l =>
    if byte c = some dquote ∨ byte c = some squote then scanQuote byte atLen c l
    else if is byte isdelim c then ([c], l)
    else (c :: l.takeWhile (inWord byte), l.dropWhile (inWord byte))

/-- What argcv_scan finds until nothing is left; `n` bounds the number of calls. -/
def argcvAll (atLen : α) : Nat → List α → List (List α)
  | 0, _ => []
  | n + 1, rest =>
    let r := argcvScan byte atLen rest
    if r.2 = [] then [r.1] else r.1 :: argcvAll atLen n r.2

/-- An argument without the quotes around it. -/
def unquote (w : List α) : List α :=
  if (w.head?.bind byte = some dquote ∧ w.getLast?.bind byte = some dquote) ∨
      (w.head?.bind byte = some squote ∧ w.getLast?.bind byte = some squote) then
    w.tail.dropLast
  else w

/-- The arguments; `nul` ends the command. -/
def argcvGet (nul : α) (command : List α) : List (List α) :=
  let line := command.rdropWhile (is byte isspace)
  if line = [] then []
  else (argcvAll byte ((command.drop line.length).headD nul) line.length line).map (unquote byte)

end Scan

/-! ## The calls end -/

variable {α : Type} {byte : α → Option UInt8}

theorem scanQuote_suffix (atLen c : α) (l : List α) : (scanQuote byte atLen c l).2 <:+ l := by
  unfold scanQuote
  split
  · rename_i q save hq
    have hs := List.dropWhile_suffix (fun x => decide (byte x ≠ byte c)) (l := l)
    rw [hq] at hs
    exact (List.suffix_cons q save).trans hs
  · exact List.nil_suffix

/-- What is left lies behind the first character that is not blank. -/
theorem argcvScan_suffix (atLen : α) (rest : List α) :
    (argcvScan byte atLen rest).2 <:+ (rest.dropWhile (is byte isws)).tail := by
  unfold argcvScan
  split
  · exact List.nil_suffix
  · rename_i c l hr
    rw [hr]
    split
    · exact scanQuote_suffix atLen c l
    · split
      · exact List.suffix_refl l
      · exact List.dropWhile_suffix _

theorem argcvScan_shorter (atLen : α) {rest : List α} (hr : rest ≠ []) :
    (argcvScan byte atLen rest).2.length < rest.length := by
  have h1 := (argcvScan_suffix atLen rest : (argcvScan byte atLen rest).2 <:+ _).length_le
  have h2 := (List.dropWhile_suffix (is byte isws) (l := rest)).length_le
  have h3 := List.length_pos_of_ne_nil hr
  rw [List.length_tail] at h1
  omega

/-- As many calls as there are characters are enough. -/
theorem argcvAll_eq (atLen : α) {n m : Nat} {rest : List α} (hr : rest ≠ []) (hn : rest.length ≤ n)
    (hm : rest.length ≤ m) : argcvAll byte atLen n rest = argcvAll byte atLen m rest := by
  induction n generalizing m rest with
  | zero => exact absurd (List.length_eq_zero_iff.mp (Nat.le_zero.mp hn)) hr
  | succ n ih =>
    obtain ⟨m, rfl⟩ : ∃ k, m = k + 1 := ⟨m - 1, by have := List.length_pos_of_ne_nil hr; omega⟩
    have hlt : (argcvScan byte atLen rest).2.length < rest.length := argcvScan_shorter atLen hr
    unfold argcvAll
    simp only
    split
    · rfl
    · rename_i hsave
      rw [ih (m := m) hsave (by omega) (by omega)]

/-! ## Commands with places -/

variable {ν : Type}

/-- A place is no character. -/
def charOf : Item ν UInt8 → Option UInt8
  | .chr c => some c
  | .place _ => none

/-- Something that a word may have in it: no blanks, quotes and NULs. -/
def Wordlike (v : List UInt8) : Prop := v ≠ [] ∧ ∀ c ∈ v, isws c = false ∧ isdelim c = false ∧ c ≠ squote

/-- And it is not all white space. -/
def Harmless (v : List UInt8) : Prop := Wordlike v ∧ ∃ c ∈ v, isspace c = false

-- The instances for lists, so that no search goes through all characters.
instance (v : List UInt8) : Decidable (Harmless v) :=
  have : Decidable (∀ c ∈ v, isws c = false ∧ isdelim c = false ∧ c ≠ squote) := List.decidableBAll _ v
  have : Decidable (∃ c ∈ v, isspace c = false) := List.decidableBEx (isspace · = false) v
  inferInstanceAs (Decidable ((_ ∧ _) ∧ _))

variable {rest : List (Item ν UInt8)} {rest' : List UInt8}

theorem fills_eq_nil (h : Fills Wordlike rest rest') : rest = [] ↔ rest' = [] := by
  cases h with
  | nil => exact ⟨fun _ => rfl, fun _ => rfl⟩
  | chr a h => simp
  | place x hv h => simp [hv.1]

/-- If `w` is text, `a` is the same. -/
def Same (w : List (Item ν UInt8)) (a : List UInt8) : Prop := ∀ t, w = t.map .chr → a = t

theorem same_of_fills {w : List (Item ν UInt8)} {a : List UInt8} (h : Fills Wordlike w a) : Same w a := by
  intro t ht
  rw [ht] at h
  exact h.text

theorem fills_inWord (h : Fills Wordlike rest rest') :
    Fills Wordlike (rest.takeWhile (inWord charOf)) (rest'.takeWhile (inWord some)) ∧
      Fills Wordlike (rest.dropWhile (inWord charOf)) (rest'.dropWhile (inWord some)) := by
  refine Fills.span (fun _ => rfl) ?_ h
  intro x v hv
  refine ⟨hv.1, fun c hc => ?_⟩
  obtain ⟨h1, h2, -⟩ := hv.2 c hc
  simp [inWord, is, charOf, h1, h2]

/-- Up to a quote. -/
theorem fills_quote {q : UInt8} (hq : q = dquote ∨ q = squote) (h : Fills Wordlike rest rest') :
    Fills Wordlike (rest.takeWhile fun x => charOf x ≠ some q) (rest'.takeWhile fun x => some x ≠ some q) ∧
      Fills Wordlike (rest.dropWhile fun x => charOf x ≠ some q) (rest'.dropWhile fun x => some x ≠ some q) := by
  refine Fills.span (fun _ => rfl) ?_ h
  intro x v hv
  refine ⟨hv.1, fun c hc => ?_⟩
  obtain ⟨-, h2, h3⟩ := hv.2 c hc
  have hne : c ≠ q := by
    rcases hq with rfl | rfl
    · rintro rfl
      exact absurd h2 (by decide)
    · exact h3
  simp [charOf, hne]

theorem append_singleton_eq_map {l : List (Item ν UInt8)} {x : Item ν UInt8} {t : List UInt8}
    (h : l ++ [x] = t.map .chr) : ∃ u z, t = u ++ [z] ∧ l = u.map .chr ∧ x = .chr z := by
  rcases List.eq_nil_or_concat t with rfl | ⟨u, z, rfl⟩
  · simp at h
  · rw [List.concat_eq_append, List.map_append] at h
    obtain ⟨h1, h2⟩ := List.append_inj' h rfl
    exact ⟨u, z, List.concat_eq_append, h1, (List.cons.inj h2).1⟩

/-- A quoted word; an unmatched quote takes the rest of the line with what is behind it. -/
theorem scanQuote_fills {q : UInt8} (hq : q = dquote ∨ q = squote) {atLen : Item ν UInt8} {atLen' : UInt8}
    (h : Fills Wordlike rest rest')
    (hat : ∀ t : List UInt8, .chr q :: rest = t.map .chr → atLen = .chr atLen') :
    Same (scanQuote charOf atLen (.chr q) rest).1 (scanQuote some atLen' q rest').1 ∧
      Fills Wordlike (scanQuote charOf atLen (.chr q) rest).2 (scanQuote some atLen' q rest').2 := by
  obtain ⟨h1, h2⟩ := fills_quote hq h
  unfold scanQuote
  rw [show charOf (.chr q : Item ν UInt8) = some q from rfl]
  have hstop : ∀ x save, rest.dropWhile (fun x => decide (charOf x ≠ some q)) = x :: save → x = .chr q := by
    intro x save hd
    have := List.head?_dropWhile_not (fun x => decide (charOf x ≠ some q)) rest
    rw [hd] at this
    cases x with
    | chr a => simpa [charOf] using this
    | place x => simp [charOf] at this
  rcases hd : rest.dropWhile (fun x => decide (charOf x ≠ some q)) with _ | ⟨x, save⟩
  · rw [hd] at h2
    rw [(fills_eq_nil h2).mp rfl]
    refine ⟨?_, .nil⟩
    intro t ht
    obtain ⟨u, z, rfl, hu, hz⟩ := append_singleton_eq_map ht
    obtain rfl : atLen' = z := Item.chr.inj ((hat u hu).symm.trans hz)
    have hall : Fills Wordlike (.chr q :: rest) (q :: rest') := .chr q h
    rw [hu] at hall
    rw [← hall.text]
  · obtain rfl := hstop x save hd
    rw [hd] at h2
    rcases hd' : rest'.dropWhile (fun x => decide (some x ≠ some q)) with _ | ⟨y, save'⟩
    · rw [hd'] at h2
      cases h2
    · rw [hd'] at h2
      obtain ⟨rfl, h3⟩ : y = q ∧ Fills Wordlike save save' := by
        cases h2
        exact ⟨rfl, by assumption⟩
      refine ⟨?_, h3⟩
      intro t ht
      obtain ⟨u, z, rfl, hu, hz⟩ := append_singleton_eq_map ht
      obtain rfl := Item.chr.inj hz
      have hall := Fills.chr y h1
      rw [hu] at hall
      exact congrArg (· ++ [y]) hall.text

/-- One argument of the command with places, and of the filled one. -/
theorem argcvScan_fills {atLen : Item ν UInt8} {atLen' : UInt8} (h : Fills Wordlike rest rest')
    (hat : (∃ a, rest.getLast? = some (.chr a)) → atLen = .chr atLen') :
    Same (argcvScan charOf atLen rest).1 (argcvScan some atLen' rest').1 ∧
      Fills Wordlike (argcvScan charOf atLen rest).2 (argcvScan some atLen' rest').2 := by
  have hspan : Fills Wordlike (rest.dropWhile (is charOf isws)) (rest'.dropWhile (is some isws)) := by
    refine (Fills.span (fun _ => rfl) ?_ h).2
    intro x v hv
    exact ⟨hv.1, fun c hc => (hv.2 c hc).1⟩
  have hsuffix : rest.dropWhile (is charOf isws) <:+ rest := List.dropWhile_suffix _
  unfold argcvScan
  generalize rest.dropWhile (is charOf isws) = r at hspan hsuffix ⊢
  generalize rest'.dropWhile (is some isws) = r' at hspan ⊢
  cases hspan with
  | nil => exact ⟨same_of_fills .nil, .nil⟩
  | @chr a l l' hl =>
    have hchr : charOf (.chr a : Item ν UInt8) = some a := rfl
    simp only [hchr]
    by_cases hq : some a = some dquote ∨ some a = some squote
    · rw [if_pos hq, if_pos hq]
      refine scanQuote_fills (hq.imp Option.some.inj Option.some.inj) hl fun t ht => hat ?_
      -- the word is the end of the line, so that ends with text too
      obtain ⟨m, hm⟩ := hsuffix
      rw [ht] at hm
      cases t using List.reverseRecOn with
      | nil => cases ht
      | append_singleton u z => exact ⟨z, by simp [← hm]⟩
    · rw [if_neg hq, if_neg hq]
      by_cases hdelim : is some isdelim a = true
      · have hdelim' : is charOf isdelim (.chr a : Item ν UInt8) = true := hdelim
        rw [if_pos hdelim, if_pos hdelim']
        exact ⟨same_of_fills (.chr a .nil), hl⟩
      · have hdelim' : ¬ is charOf isdelim (.chr a : Item ν UInt8) = true := hdelim
        rw [if_neg hdelim, if_neg hdelim']
        obtain ⟨h1, h2⟩ := fills_inWord hl
        exact ⟨same_of_fills (.chr a h1), h2⟩
  | @place x v l l' hv hl =>
    obtain ⟨c, v, rfl⟩ := List.exists_cons_of_ne_nil hv.1
    obtain ⟨-, h2, h3⟩ := hv.2 c List.mem_cons_self
    have hword : ∀ d ∈ v, inWord some d = true := by
      intro d hd
      obtain ⟨h4, h5, -⟩ := hv.2 d (List.mem_cons_of_mem _ hd)
      simp [inWord, is, h4, h5]
    have hq : ¬ (some c = some dquote ∨ some c = some squote) := by
      rintro (h | h)
      · rw [Option.some.inj h] at h2
        exact absurd h2 (by decide)
      · exact h3 (Option.some.inj h)
    have hdelim : ¬ is some isdelim c = true := by simp [is, h2]
    have hq' : ¬ (charOf (.place x) = some dquote ∨ charOf (.place x) = some squote) := by simp [charOf]
    have hdelim' : ¬ is charOf isdelim (.place x) = true := by simp [is, charOf]
    rw [List.cons_append]
    simp only [if_neg hq, if_neg hdelim, if_neg hq', if_neg hdelim', List.dropWhile_append_of_pos hword]
    refine ⟨?_, (fills_inWord hl).2⟩
    intro t ht
    cases t <;> cases ht

theorem argcvAll_fills {atLen : Item ν UInt8} {atLen' : UInt8} {n : Nat} (h : Fills Wordlike rest rest')
    (hat : (∃ a, rest.getLast? = some (.chr a)) → atLen = .chr atLen') :
    List.Forall₂ Same (argcvAll charOf atLen n rest) (argcvAll some atLen' n rest') := by
  induction n generalizing rest rest' with
  | zero => exact .nil
  | succ n ih =>
    obtain ⟨h1, h2⟩ := argcvScan_fills h hat
    unfold argcvAll
    simp only
    by_cases hs : (argcvScan charOf atLen rest).2 = []
    · rw [if_pos hs, if_pos ((fills_eq_nil h2).mp hs)]
      exact .cons h1 .nil
    · rw [if_neg hs, if_neg fun h' => hs ((fills_eq_nil h2).mpr h')]
      refine .cons h1 (ih h2 ?_)
      intro h
      obtain ⟨a, ha⟩ := h
      -- what is left ends as the line does
      obtain ⟨m, hm⟩ := (argcvScan_suffix atLen rest : (argcvScan charOf atLen rest).2 <:+ _).trans
        ((List.tail_suffix _).trans (List.dropWhile_suffix _))
      exact hat ⟨a, by rw [← hm, List.getLast?_append, ha]; rfl⟩

theorem charOf_eq_some {s : Item ν UInt8} {c : UInt8} (h : charOf s = some c) : s = .chr c := by
  cases s with
  | chr a => exact congrArg _ (Option.some.inj h)
  | place x => cases h

theorem ends_map (t : List UInt8) :
    (t.map (.chr : UInt8 → Item ν UInt8)).head?.bind charOf = t.head?.bind some ∧
      (t.map (.chr : UInt8 → Item ν UInt8)).getLast?.bind charOf = t.getLast?.bind some := by
  rw [List.head?_map, List.getLast?_map]
  cases t.head? <;> cases t.getLast? <;> exact ⟨rfl, rfl⟩

/-- Between two quotes there is text only if they are around text. -/
theorem quoted_text {w : List (Item ν UInt8)} {q : UInt8} {t : List UInt8} (hh : w.head?.bind charOf = some q)
    (hl : w.getLast?.bind charOf = some q) (ht : w.tail.dropLast = t.map .chr) :
    ∃ s : List UInt8, w = s.map .chr ∧ s.tail.dropLast = t := by
  rcases w with _ | ⟨x, l⟩
  · cases hh
  · obtain rfl := charOf_eq_some hh
    rcases List.eq_nil_or_concat l with rfl | ⟨m, y, rfl⟩
    · exact ⟨[q], rfl, (List.map_eq_nil_iff.mp ht.symm).symm⟩
    · rw [List.concat_eq_append] at hl ht ⊢
      rw [← List.cons_append, List.getLast?_concat] at hl
      obtain rfl := charOf_eq_some hl
      simp only [List.tail_cons, List.dropLast_concat] at ht
      exact ⟨q :: (t ++ [q]), by simp [ht], by simp⟩

theorem unquote_same {w : List (Item ν UInt8)} {a : List UInt8} (h : Same w a) :
    Same (unquote charOf w) (unquote some a) := by
  intro t ht
  unfold unquote at ht
  by_cases hq : (w.head?.bind charOf = some dquote ∧ w.getLast?.bind charOf = some dquote) ∨
      (w.head?.bind charOf = some squote ∧ w.getLast?.bind charOf = some squote)
  · rw [if_pos hq] at ht
    obtain ⟨s, rfl, hs⟩ : ∃ s : List UInt8, w = s.map .chr ∧ s.tail.dropLast = t := by
      rcases hq with ⟨h1, h2⟩ | ⟨h1, h2⟩
      · exact quoted_text h1 h2 ht
      · exact quoted_text h1 h2 ht
    rw [h s rfl, unquote]
    rw [(ends_map s).1, (ends_map s).2] at hq
    rw [if_pos hq, hs]
  · rw [if_neg hq] at ht
    subst ht
    rw [h t rfl, unquote]
    rw [(ends_map t).1, (ends_map t).2] at hq
    rw [if_neg hq]

/-- A command whose places are filled with harmless values has as many arguments as it has
    words, and the words without places are arguments as they are. -/
theorem argcvGet_fills {command : List (Item ν UInt8)} {command' : List UInt8} (h : Fills Harmless command command') :
    List.Forall₂ Same (argcvGet charOf (.chr 0) command) (argcvGet some 0 command') := by
  have hok : ∀ v, Harmless v → Wordlike v ∧ Wordlike (v.rdropWhile (is some isspace)) ∧
      ∃ c ∈ v, is some isspace c = false := by
    intro v ⟨hv, c, hc, hs⟩
    refine ⟨hv, ⟨?_, fun d hd => hv.2 d ((List.rdropWhile_prefix _ v).subset hd)⟩, c, hc, hs⟩
    intro hnil
    have := List.rdropWhile_eq_nil_iff.mp hnil c hc
    rw [show is some isspace c = isspace c from rfl, hs] at this
    cases this
  have hchr : ∀ a, is charOf isspace (.chr a : Item ν UInt8) = is some isspace a := fun _ => rfl
  have hstrip := Fills.strip hchr (fun _ => rfl) hok h
  unfold argcvGet
  simp only
  generalize command.rdropWhile (is charOf isspace) = line at hstrip ⊢
  generalize command'.rdropWhile (is some isspace) = line' at hstrip ⊢
  obtain ⟨hline, hend⟩ := hstrip
  by_cases hnil : line = []
  · rw [if_pos hnil, if_pos ((fills_eq_nil hline).mp hnil)]
    exact .nil
  have hnil' : line' ≠ [] := fun h' => hnil ((fills_eq_nil hline).mpr h')
  rw [if_neg hnil, if_neg hnil']
  have hat : (∃ a, line.getLast? = some (.chr a)) →
      (command.drop line.length).headD (.chr 0) = .chr ((command'.drop line'.length).headD 0) := by
    intro hl
    obtain ⟨t, rfl, rfl⟩ := hend hl
    rw [List.drop_left, List.drop_left]
    cases t <;> rfl
  rw [argcvAll_eq _ hnil (Nat.le_refl _) (Nat.le_max_left line.length line'.length),
    argcvAll_eq _ hnil' (Nat.le_refl _) (Nat.le_max_right line.length line'.length), List.forall₂_map_left_iff,
    List.forall₂_map_right_iff]
  exact (argcvAll_fills hline hat).imp fun _ _ => unquote_same

/-! ## What is not harmless -/

/-- With something left behind the first argument there is another one. -/
theorem two_le_argcvGet {nul : α} {command : List α} (hend : command.rdropWhile (is byte isspace) = command)
    (hrest : ∀ atLen, (argcvScan byte atLen command).2 ≠ []) : 2 ≤ (argcvGet byte nul command).length := by
  have hne : command ≠ [] := by
    rintro rfl
    exact hrest nul rfl
  unfold argcvGet
  simp only [hend, if_neg hne, List.length_map]
  generalize (command.drop command.length).headD nul = atLen
  have hshort : (argcvScan byte atLen command).2.length < command.length := argcvScan_shorter atLen hne
  have hpos := List.length_pos_of_ne_nil (hrest atLen)
  obtain ⟨n, hn⟩ : ∃ n, command.length = n + 1 + 1 := ⟨command.length - 2, by omega⟩
  rw [hn, argcvAll]
  simp only [if_neg (hrest atLen), List.length_cons]
  have hmore : argcvAll byte atLen (n + 1) (argcvScan byte atLen command).2 ≠ [] := by
    rw [argcvAll]
    split <;> exact List.cons_ne_nil _ _
  exact Nat.succ_le_succ (List.length_pos_of_ne_nil hmore)

theorem rdropWhile_graph {l : List UInt8} {c : UInt8} (hc : isspace c = false) :
    (l ++ [c]).rdropWhile (is some isspace) = l ++ [c] := by
  refine List.rdropWhile_concat_neg _ _ _ ?_
  rw [show is some isspace c = isspace c from rfl, hc]
  decide

/-- A blank or a double quote ends the word it is in. -/
theorem two_args_of_delim {v : List UInt8} (hv : ∃ c ∈ v, inWord some c = false) :
    2 ≤ (argcvGet some 0 ([0x78] ++ v ++ [0x78])).length := by
  refine two_le_argcvGet (rdropWhile_graph (by decide)) fun atLen => ?_
  have hscan : (argcvScan some atLen ([0x78] ++ v ++ [0x78])).2 = (v ++ [0x78]).dropWhile (inWord some) := rfl
  obtain ⟨c, hc, hw⟩ := hv
  rw [hscan, ne_eq, List.dropWhile_eq_nil_iff]
  intro hall
  have := hall c (List.mem_append_left _ hc)
  rw [hw] at this
  cases this

/-- A quote ends the quoted word it is in. -/
theorem two_args_of_squote {v : List UInt8} (hv : squote ∈ v) :
    2 ≤ (argcvGet some 0 ([squote] ++ v ++ [squote])).length := by
  refine two_le_argcvGet (rdropWhile_graph (by decide)) fun atLen => ?_
  have hscan : (argcvScan some atLen ([squote] ++ v ++ [squote])).2 = (scanQuote some atLen squote (v ++ [squote])).2 := rfl
  obtain ⟨l, r, rfl, hl⟩ := List.eq_append_cons_of_mem hv
  have hskip : ∀ c ∈ l, (some c ≠ some squote : Bool) = true := by
    intro c hc
    have hne : c ≠ squote := fun h => hl (h ▸ hc)
    simpa using hne
  have hdrop : (l ++ squote :: r ++ [squote]).dropWhile (fun x => some x ≠ some squote) = squote :: (r ++ [squote]) := by
    rw [List.append_assoc, List.dropWhile_append_of_pos hskip]
    exact List.dropWhile_cons_of_neg (by decide)
  rw [hscan, scanQuote, hdrop]
  simp

/-- White space at the end is no argument. -/
theorem one_arg_of_space {v : List UInt8} (hv : ∀ c ∈ v, isspace c = true) :
    (argcvGet some 0 ([0x78, 0x20] ++ v ++ [])).length = 1 := by
  have hline : ([0x78, 0x20] ++ v ++ []).rdropWhile (is some isspace) = [0x78] := by
    have hblank : ∀ c ∈ v.reverse, is some isspace c = true := fun c hc => hv c (List.mem_reverse.mp hc)
    rw [List.append_nil, List.rdropWhile, List.reverse_append, List.dropWhile_append_of_pos hblank]
    rfl
  unfold argcvGet
  simp only [hline]
  rfl

/-- Texts around a value, with which there is one word more or less than it should be. -/
def surroundings : List (List UInt8 × List UInt8) := [([0x78], [0x78]), ([squote], [squote]), ([0x78, 0x20], [])]

theorem not_harmless {v : List UInt8} (hv : ¬ Harmless v) (x : ν) :
    ∃ t ∈ surroundings, (argcvGet some 0 (t.1 ++ v ++ t.2)).length ≠
      (argcvGet charOf (.chr 0) (t.1.map .chr ++ [.place x] ++ t.2.map .chr)).length := by
  by_cases hdelim : ∃ c ∈ v, inWord some c = false
  · have h := two_args_of_delim hdelim
    refine ⟨([0x78], [0x78]), by decide, Nat.ne_of_gt ?_⟩
    exact h
  by_cases hquote : squote ∈ v
  · have h := two_args_of_squote hquote
    refine ⟨([squote], [squote]), by decide, Nat.ne_of_gt ?_⟩
    exact h
  by_cases hspace : ∀ c ∈ v, isspace c = true
  · have h := one_arg_of_space hspace
    refine ⟨([0x78, 0x20], []), by decide, Nat.ne_of_lt ?_⟩
    rw [h]
    exact Nat.lt_succ_self 1
  · refine absurd ⟨⟨?_, ?_⟩, ?_⟩ hv
    · rintro rfl
      exact hspace fun c hc => nomatch hc
    · intro c hc
      have hw : ¬ inWord some c = false := fun h => hdelim ⟨c, hc, h⟩
      have hne : c ≠ squote := fun h => hquote (h ▸ hc)
      simpa [inWord, is, hne] using hw
    · by_contra hall
      exact hspace fun c hc => by
        by_contra hs
        exact hall ⟨c, hc, Bool.not_eq_true _ ▸ hs⟩

end Netutils.Libinetutils
