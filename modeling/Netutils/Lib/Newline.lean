/-
  Netutils.Lib.Newline — lines ended by two symbols on the wire and by one at home: the code
  that writes the first of the two in front of every end of line and nothing else, and the
  decoder that also takes a filler behind the first symbol for its escape.

  Decoding the code gives the text back, except for a filler that stands behind the first
  symbol in the text itself (`decode_encode`). A code that also sends the first symbol with a
  filler behind it loses nothing (`decode_escape`).
-/

import Mathlib.Data.List.Basic

namespace Netutils.Lib.Newline

variable {α : Type} [DecidableEq α] (cr lf nul : α)

/-! ## The code -/

/-- What a symbol is sent as. -/
def code (c : α) : List α := if c = lf then [cr, lf] else [c]

def encode (l : List α) : List α := l.flatMap (code cr lf)

/-- The same, with a filler behind every `cr` of the text. -/
def escapeCode (c : α) : List α := if c = lf then [cr, lf] else if c = cr then [cr, nul] else [c]

def escape (l : List α) : List α := l.flatMap (escapeCode cr lf nul)

/-- `pending`: a `cr` has been read that is not written yet. -/
def decodeFrom (pending : Bool) : List α → List α
  | [] => if pending then [cr] else []
  | c :: l =>
    if pending then
      if c = lf then lf :: decodeFrom false l
      else if c = nul then cr :: decodeFrom false l
      else if c = cr then cr :: decodeFrom true l
      else cr :: c :: decodeFrom false l
    else if c = cr then decodeFrom true l
    else c :: decodeFrom false l

def decode (l : List α) : List α := decodeFrom cr lf nul false l

/-- The text without the fillers behind a `cr`; `behind` says that one was just seen. -/
def dropFrom (behind : Bool) : List α → List α
  | [] => []
  | c :: l => if behind && c = nul then dropFrom false l else c :: dropFrom (c = cr) l

def dropFillers (l : List α) : List α := dropFrom cr nul false l

/-- A filler stands behind a `cr`. -/
def Filled (l : List α) : Prop := ∃ a b, l = a ++ cr :: nul :: b

variable {cr lf nul}

/-! ## Lengths -/

@[simp] theorem encode_nil : encode cr lf [] = [] := rfl

theorem encode_cons (c : α) (l : List α) : encode cr lf (c :: l) = code cr lf c ++ encode cr lf l := rfl

theorem encode_append (a b : List α) : encode cr lf (a ++ b) = encode cr lf a ++ encode cr lf b := by
  simp [encode]

theorem length_code_pos (c : α) : 0 < (code cr lf c).length := by
  unfold code
  split <;> simp

theorem length_le_encode (l : List α) : l.length ≤ (encode cr lf l).length := by
  induction l with
  | nil => exact Nat.le_refl _
  | cons c l ih =>
    have : 0 < (code cr lf c).length := length_code_pos c
    rw [encode_cons, List.length_append, List.length_cons]
    omega

/-! ## There and back -/

@[simp] theorem escape_nil : escape cr lf nul [] = [] := rfl

theorem escape_cons (c : α) (l : List α) : escape cr lf nul (c :: l) = escapeCode cr lf nul c ++ escape cr lf nul l := rfl

/-- With every `cr` escaped, the decoder gives back the text. -/
theorem decode_escape (hlf : lf ≠ cr) (hne : nul ≠ lf) (l : List α) : decode cr lf nul (escape cr lf nul l) = l := by
  induction l with
  | nil => rfl
  | cons c l ih =>
    rw [decode] at ih ⊢
    rw [escape_cons, escapeCode]
    by_cases hl : c = lf
    · subst hl
      simp [decodeFrom, ih]
    · rw [if_neg hl]
      by_cases hc : c = cr
      · subst hc
        simp [decodeFrom, hne, ih]
      · simp [decodeFrom, hc, ih]

theorem decodeFrom_encode (hlf : lf ≠ cr) (hnul : nul ≠ cr) (hne : nul ≠ lf) (l : List α) :
    decodeFrom cr lf nul false (encode cr lf l) = dropFrom cr nul false l ∧
      decodeFrom cr lf nul true (encode cr lf l) = cr :: dropFrom cr nul true l := by
  induction l with
  | nil => exact ⟨rfl, rfl⟩
  | cons c l ih =>
    obtain ⟨hfalse, htrue⟩ := ih
    rw [encode_cons, code]
    by_cases hl : c = lf
    · subst hl
      simp [decodeFrom, dropFrom, hlf, hlf.symm, hfalse, hne.symm]
    · by_cases hc : c = cr
      · subst hc
        simp [decodeFrom, dropFrom, hl, htrue, hnul.symm]
      · by_cases hn : c = nul
        · subst hn
          simp [decodeFrom, dropFrom, hl, hc, hfalse]
        · simp [decodeFrom, dropFrom, hl, hc, hn, hfalse]

/-- The decoder gives back the text without its fillers behind a `cr`. -/
theorem decode_encode (hlf : lf ≠ cr) (hnul : nul ≠ cr) (hne : nul ≠ lf) (l : List α) :
    decode cr lf nul (encode cr lf l) = dropFillers cr nul l :=
  (decodeFrom_encode hlf hnul hne l).1

theorem length_dropFrom_le (behind : Bool) (l : List α) : (dropFrom cr nul behind l).length ≤ l.length := by
  induction l generalizing behind with
  | nil => exact Nat.le_refl _
  | cons c l ih =>
    simp only [dropFrom, List.length_cons]
    split
    · exact Nat.le_succ_of_le (ih _)
    · exact Nat.succ_le_succ (ih _)

theorem dropFrom_eq_self_iff (hnul : nul ≠ cr) (behind : Bool) (l : List α) :
    dropFrom cr nul behind l = l ↔ ¬ Filled cr nul l ∧ ¬(behind = true ∧ l.head? = some nul) := by
  induction l generalizing behind with
  | nil => simp [dropFrom, Filled]
  | cons c l ih =>
    have hcons : Filled cr nul (c :: l) ↔ (c = cr ∧ l.head? = some nul) ∨ Filled cr nul l := by
      constructor
      · intro h
        obtain ⟨a, b, hab⟩ := h
        cases a with
        | nil =>
          obtain ⟨rfl, rfl⟩ := List.cons.inj hab
          exact Or.inl ⟨rfl, rfl⟩
        | cons d a =>
          obtain ⟨rfl, rfl⟩ := List.cons.inj hab
          exact Or.inr ⟨a, b, rfl⟩
      · rintro (⟨rfl, hl⟩ | ⟨a, b, rfl⟩)
        · obtain ⟨b, rfl⟩ := List.head?_eq_some_iff.mp hl
          exact ⟨[], b, rfl⟩
        · exact ⟨c :: a, b, rfl⟩
    simp only [dropFrom, List.head?_cons, Option.some.injEq]
    by_cases hd : behind = true ∧ c = nul
    · obtain ⟨rfl, rfl⟩ := hd
      have hlen : (dropFrom cr c false l).length ≤ l.length := length_dropFrom_le false l
      constructor
      · intro h
        have := congrArg List.length h
        simp at this
        omega
      · intro h
        obtain ⟨-, h⟩ := h
        exact absurd ⟨rfl, rfl⟩ h
    · rw [if_neg (by simpa using hd), hcons, not_or]
      simp only [List.cons.injEq, true_and, ih, decide_eq_true_eq]
      tauto

theorem dropFillers_eq_self_iff (hnul : nul ≠ cr) (l : List α) : dropFillers cr nul l = l ↔ ¬ Filled cr nul l := by
  rw [dropFillers, dropFrom_eq_self_iff hnul]
  exact and_iff_left fun h => nomatch h.1

end Netutils.Lib.Newline
