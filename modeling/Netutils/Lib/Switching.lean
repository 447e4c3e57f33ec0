/-
  Netutils.Lib.Switching — a stream of messages coded in modes, where a message may switch
  the mode for what comes behind it.

  A receiver that decodes item by item, keeps in step with the coder's state and switches
  where a message that does so ends has the messages back (`recovers`), and of a part of the
  coded stream as many items as that has (`recovers_part`).
-/

import Mathlib.Data.List.Basic

namespace Netutils.Lib.Switching

variable {μ σ τ α β : Type}

/-- A message, and the mode that holds behind it if it switches. -/
structure Piece (μ α : Type) where
  items : List α
  switch : Option μ
  deriving DecidableEq

/-! ## The coder -/

section Coder

variable (enc : μ → σ → α → β × σ)

/-- Items in one mode. -/
def code (m : μ) : σ → List α → List β × σ
  | s, [] => ([], s)
  | s, a :: l => ((enc m s a).1 :: (code m (enc m s a).2 l).1, (code m (enc m s a).2 l).2)

/-- Messages: what is put out, the mode and the state behind them. -/
def send : μ → σ → List (Piece μ α) → List β × μ × σ
  | m, s, [] => ([], m, s)
  | m, s, p :: ps =>
    let r := code enc m s p.items
    let rest := send (p.switch.getD m) r.2 ps
    (r.1 ++ rest.1, rest.2)

theorem code_append (m : μ) (s : σ) (l l' : List α) :
    code enc m s (l ++ l') =
      ((code enc m s l).1 ++ (code enc m (code enc m s l).2 l').1, (code enc m (code enc m s l).2 l').2) := by
  induction l generalizing s with
  | nil => rfl
  | cons a l ih => simp [code, ih]

@[simp] theorem length_code (m : μ) (s : σ) (l : List α) : (code enc m s l).1.length = l.length := by
  induction l generalizing s with
  | nil => rfl
  | cons a l ih => simp [code, ih]

theorem send_concat (m : μ) (s : σ) (ps : List (Piece μ α)) (p : Piece μ α) :
    let r := send enc m s ps
    let last := code enc r.2.1 r.2.2 p.items
    send enc m s (ps ++ [p]) = (r.1 ++ last.1, p.switch.getD r.2.1, last.2) := by
  induction ps generalizing m s with
  | nil => simp [send]
  | cons q ps ih => simp [send, ih]

end Coder

def plain (ps : List (Piece μ α)) : List α := ps.flatMap Piece.items

/-- The items, with the mode that each is coded in. -/
def modes : μ → List (Piece μ α) → List (μ × α)
  | _, [] => []
  | m, p :: ps => p.items.map (m, ·) ++ modes (p.switch.getD m) ps

/-- The mode behind the messages. -/
def modeAfter (m : μ) (ps : List (Piece μ α)) : μ := ps.foldl (fun m p => p.switch.getD m) m

theorem modes_concat (m : μ) (ps : List (Piece μ α)) (p : Piece μ α) :
    modes m (ps ++ [p]) = modes m ps ++ p.items.map (modeAfter m ps, ·) := by
  induction ps generalizing m with
  | nil => simp [modes, modeAfter]
  | cons q ps ih => simp [modes, modeAfter, ih]

theorem send_mode (enc : μ → σ → α → β × σ) (m : μ) (s : σ) (ps : List (Piece μ α)) :
    (send enc m s ps).2.1 = modeAfter m ps := by
  induction ps generalizing m s with
  | nil => rfl
  | cons q ps ih => simp [send, modeAfter, ih]

theorem length_send (enc : μ → σ → α → β × σ) (m : μ) (s : σ) (ps : List (Piece μ α)) :
    (send enc m s ps).1.length = (plain ps).length := by
  induction ps generalizing m s with
  | nil => rfl
  | cons q ps ih => simp [send, plain, ih]

/-! ## The receiver -/

/-- What it has decoded, in which mode and state it is. -/
structure Receiver (μ τ α : Type) where
  mode : μ
  state : τ
  got : List α

/-- `announces` tells from what has come whether a message that switches ends there. -/
def Receiver.take (dec : μ → τ → β → α × τ) (announces : List α → Option μ) (r : Receiver μ τ α) (b : β) :
    Receiver μ τ α :=
  let a := (dec r.mode r.state b).1
  ⟨(announces (r.got ++ [a])).getD r.mode, (dec r.mode r.state b).2, r.got ++ [a]⟩

/-- Behind `got`, where a message comes, `announces` finds what it switches at its end, and
    nothing before. -/
def AtEnd (announces : List α → Option μ) (switch : Option μ) : List α → List α → Prop
  | _, [] => switch = none
  | got, [a] => announces (got ++ [a]) = switch
  | got, a :: b :: l => announces (got ++ [a]) = none ∧ AtEnd announces switch (got ++ [a]) (b :: l)

def Recognizes (announces : List α → Option μ) : List α → List (Piece μ α) → Prop
  | _, [] => True
  | got, p :: ps => AtEnd announces p.switch got p.items ∧ Recognizes announces (got ++ p.items) ps

section Decide

variable [DecidableEq μ] (announces : List α → Option μ)

instance AtEnd.decide (switch : Option μ) : ∀ got items, Decidable (AtEnd announces switch got items)
  | _, [] => inferInstanceAs (Decidable (switch = none))
  | got, [a] => inferInstanceAs (Decidable (announces (got ++ [a]) = switch))
  | got, a :: b :: l =>
    have := AtEnd.decide switch (got ++ [a]) (b :: l)
    inferInstanceAs (Decidable (announces (got ++ [a]) = none ∧ AtEnd announces switch (got ++ [a]) (b :: l)))

instance Recognizes.decide : ∀ got ps, Decidable (Recognizes announces got ps)
  | _, [] => .isTrue trivial
  | got, p :: ps =>
    have := Recognizes.decide (got ++ p.items) ps
    inferInstanceAs (Decidable (AtEnd announces p.switch got p.items ∧ Recognizes announces (got ++ p.items) ps))

end Decide

/-- `dec` undoes `enc` item by item, and `R` stays between their states. -/
def Decodes (enc : μ → σ → α → β × σ) (dec : μ → τ → β → α × τ) (R : σ → τ → Prop) : Prop :=
  ∀ m s t a, R s t → (dec m t (enc m s a).1).1 = a ∧ R (enc m s a).2 (dec m t (enc m s a).1).2

variable {enc : μ → σ → α → β × σ} {dec : μ → τ → β → α × τ} {R : σ → τ → Prop} {announces : List α → Option μ}

/-- One message, of which `got` is what has come before. -/
theorem recovers_piece (hd : Decodes enc dec R) {m : μ} {s : σ} {t : τ} (hR : R s t) {got items : List α}
    {switch : Option μ} (hs : AtEnd announces switch got items) :
    ∃ t', (code enc m s items).1.foldl (Receiver.take dec announces) ⟨m, t, got⟩ =
      ⟨switch.getD m, t', got ++ items⟩ ∧ R (code enc m s items).2 t' := by
  induction got, items using AtEnd.induct generalizing s t with
  | case1 got =>
    obtain rfl : switch = none := hs
    exact ⟨t, by simp [code], hR⟩
  | case2 got a =>
    obtain ⟨h1, h2⟩ := hd m s t a hR
    have hlast : announces (got ++ [a]) = switch := hs
    refine ⟨_, ?_, h2⟩
    simp only [code, List.foldl_cons, List.foldl_nil, Receiver.take, h1, hlast]
  | case3 got a b l ih =>
    obtain ⟨h1, h2⟩ := hd m s t a hR
    obtain ⟨hnone, hrest⟩ := hs
    obtain ⟨t', h3, h4⟩ := ih h2 hrest
    refine ⟨t', ?_, h4⟩
    rw [code, List.foldl_cons, Receiver.take, h1, hnone, Option.getD_none, h3]
    simp

theorem recovers (hd : Decodes enc dec R) {m : μ} {s : σ} {t : τ} (hR : R s t) {got : List α} {ps : List (Piece μ α)}
    (hs : Recognizes announces got ps) :
    ((send enc m s ps).1.foldl (Receiver.take dec announces) ⟨m, t, got⟩).got = got ++ plain ps := by
  induction ps generalizing m s t got with
  | nil => simp [send, plain]
  | cons p ps ih =>
    obtain ⟨h1, hrest⟩ := hs
    obtain ⟨t', h2, h3⟩ := recovers_piece (m := m) hd hR h1
    simp only [send, List.foldl_append, h2, ih h3 hrest, plain, List.flatMap_cons, List.append_assoc]

theorem got_foldl (dec : μ → τ → β → α × τ) (announces : List α → Option μ) (r : Receiver μ τ α) (l : List β) :
    ∃ m, (l.foldl (Receiver.take dec announces) r).got = r.got ++ m ∧ m.length = l.length := by
  induction l generalizing r with
  | nil => exact ⟨[], (List.append_nil _).symm, rfl⟩
  | cons b l ih =>
    obtain ⟨m, h1, h2⟩ := ih (r.take dec announces b)
    refine ⟨(dec r.mode r.state b).1 :: m, ?_, by simp [h2]⟩
    rw [List.foldl_cons, h1]
    simp [Receiver.take]

/-- The stream up to some place. -/
theorem recovers_part (hd : Decodes enc dec R) {m : μ} {s : σ} {t : τ} (hR : R s t) {ps : List (Piece μ α)}
    (hs : Recognizes announces [] ps) {l l' : List β} (hl : l ++ l' = (send enc m s ps).1) :
    ∃ rest, (l.foldl (Receiver.take dec announces) ⟨m, t, []⟩).got ++ rest = plain ps ∧ rest.length = l'.length := by
  have h := recovers (m := m) hd hR hs
  rw [← hl, List.foldl_append, List.nil_append] at h
  obtain ⟨rest, h1, h2⟩ := got_foldl dec announces (l.foldl (Receiver.take dec announces) ⟨m, t, []⟩) l'
  exact ⟨rest, h1.symm.trans h, h2⟩

end Netutils.Lib.Switching
