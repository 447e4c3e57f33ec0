/-
  Netutils.Syslogd.Printsys — printsys of syslogd (syslogd/syslogd.c): how a text from the
  kernel is cut into messages, and which masks the priorities of messages lead to.

  The loop that copies a line takes a character before it looks whether there is room for it,
  so that where a line is longer than the buffer one is lost (`printsys_iff`). A facility is
  masked by more bits than there are facilities, and indexes the masks of a destination as it
  is (`facilities_iff`).
-/

import Netutils.Syslogd.Printline

namespace Netutils.Syslogd

open Netutils.Arpa Netutils.Libc

/-! ## One message -/

def DEFSPRI : Nat := LOG_KERN ||| LOG_CRIT

/-- What all messages of the kernel start with. -/
def vmunix : Str := text "vmunix: "

/-- The bytes of line behind that, but for the last one. -/
def ROOM : Nat := MAXLINE - vmunix.length

/-- The copy loop, while so many bytes are left: what it stores, and p behind it. -/
def takeLine : Nat → Str → Str × Str
  | _, [] => ([], [])
  | room, c :: p =>
    if c = LF then ([], p)
    else
      match room with
      -- c has been taken
      | 0 => ([], p)
      | room + 1 =>
        let r := takeLine room p
        (c :: r.1, r.2)

/-- A turn of the loop: the call of logmsg, and p behind it. -/
def turn (p : Str) : Sent × Str :=
  let r := takeLine ROOM (afterPri p)
  ({ pri := priority DEFSPRI p, msg := vmunix ++ r.1, SYNC_FILE := true, ADDDATE := true
     IGN_CONS := p.head? ≠ some less }, r.2)

/-- At most so many turns. -/
def turns : Nat → Str → List Sent
  | 0, _ => []
  | k + 1, p => if p = [] then [] else (turn p).1 :: turns k (turn p).2

/-- printsys; each turn takes some of the text. -/
def printsys (msg : Str) : List Sent := turns msg.length msg

/-! ## What it is for -/

/-- As far as a piece of the text goes: a priority and a line with its end, or as much of the
    line as there is room for and a character more. -/
def pieceLength (p : Str) : Nat := (p.length - (afterPri p).length) + min ((afterPri p).idxOf LF) ROOM + 1

def cuts : Nat → Str → List Str
  | 0, _ => []
  | k + 1, p => if p = [] then [] else p.take (pieceLength p) :: cuts k (p.drop (pieceLength p))

def pieces (msg : Str) : List Str := cuts msg.length msg

/-- A piece without its priority and its newline. -/
def bare (piece : Str) : Str := (afterPri piece).filter (· ≠ LF)

/-- The texts of the messages are all that is in the pieces, and the pieces all of the text. -/
def Keeps (msg : Str) : Prop :=
  (pieces msg).flatten = msg ∧
    ((printsys msg).map fun s => s.msg.drop vmunix.length).flatten = ((pieces msg).map bare).flatten

/-- The line fits behind "vmunix: ". -/
def FitsLine (line : Str) : Prop := (afterPri line).length ≤ ROOM

/-! ## One piece -/

variable {p t : Str} {c : UInt8}

theorem takeLine_nil (room : Nat) : takeLine room [] = ([], []) := by rw [takeLine.eq_def]

theorem takeLine_lf (room : Nat) (t : Str) : takeLine room (LF :: t) = ([], t) := by
  rw [takeLine.eq_def]
  rfl

theorem takeLine_zero (hc : c ≠ LF) (t : Str) : takeLine 0 (c :: t) = ([], t) := by
  rw [takeLine.eq_def]
  simp only [if_neg hc]

theorem takeLine_succ (hc : c ≠ LF) (room : Nat) (t : Str) :
    takeLine (room + 1) (c :: t) = (c :: (takeLine room t).1, (takeLine room t).2) := by
  rw [takeLine.eq_def]
  simp only [if_neg hc]

/-- What the copy loop takes: it stores a line and takes its end, or fills the buffer and takes
    a character more. -/
theorem takeLine_spec (room : Nat) (t : Str) : ∃ e, t = (takeLine room t).1 ++ e ++ (takeLine room t).2 ∧
    LF ∉ (takeLine room t).1 ∧ (takeLine room t).1.length ≤ room ∧
    (e = [] ∧ (takeLine room t).2 = [] ∨ e = [LF] ∨ ∃ c, c ≠ LF ∧ e = [c] ∧ (takeLine room t).1.length = room) := by
  induction t generalizing room with
  | nil =>
    rw [takeLine_nil]
    exact ⟨[], rfl, List.not_mem_nil, Nat.zero_le _, Or.inl ⟨rfl, rfl⟩⟩
  | cons c t ih =>
    by_cases hc : c = LF
    · subst hc
      rw [takeLine_lf]
      exact ⟨[LF], rfl, List.not_mem_nil, Nat.zero_le _, Or.inr (Or.inl rfl)⟩
    · cases room with
      | zero =>
        rw [takeLine_zero hc]
        exact ⟨[c], rfl, List.not_mem_nil, Nat.zero_le _, Or.inr (Or.inr ⟨c, hc, rfl, rfl⟩)⟩
      | succ room =>
        obtain ⟨e, ht, hlf, hle, he⟩ := ih room
        rw [takeLine_succ hc]
        refine ⟨e, ?_, ?_, Nat.succ_le_succ hle, ?_⟩
        · show c :: t = c :: ((takeLine room t).1 ++ e ++ (takeLine room t).2)
          rw [← ht]
        · rw [List.mem_cons, not_or]
          exact ⟨fun h => hc h.symm, hlf⟩
        · rcases he with he | he | ⟨d, hd, he, hlen⟩
          · exact Or.inl he
          · exact Or.inr (Or.inl he)
          · exact Or.inr (Or.inr ⟨d, hd, he, congrArg (· + 1) hlen⟩)

/-- A line that fits is stored. -/
theorem takeLine_fits {a : Str} {room : Nat} (ha : LF ∉ a) (hroom : a.length ≤ room) :
    takeLine room a = (a, []) ∧ takeLine room (a ++ LF :: t) = (a, t) := by
  induction a generalizing room with
  | nil => exact ⟨takeLine_nil room, takeLine_lf room t⟩
  | cons c a ih =>
    rw [List.mem_cons, not_or] at ha
    obtain ⟨room, rfl⟩ : ∃ n, room = n + 1 := ⟨room - 1, by rw [List.length_cons] at hroom; omega⟩
    obtain ⟨hend, hline⟩ := ih ha.2 (Nat.le_of_succ_le_succ hroom)
    have hc : c ≠ LF := fun h => ha.1 h.symm
    constructor
    · rw [takeLine_succ hc, hend]
    · rw [List.cons_append, takeLine_succ hc, hline]

/-- Of any other a character is lost. -/
theorem takeLine_loses {a : Str} {room : Nat} (ha : LF ∉ a) (hroom : room < a.length) (t : Str) :
    takeLine room (a ++ t) = (a.take room, a.drop (room + 1) ++ t) := by
  induction a generalizing room with
  | nil => exact absurd hroom (Nat.not_lt_zero room)
  | cons c a ih =>
    rw [List.mem_cons, not_or] at ha
    have hc : c ≠ LF := fun h => ha.1 h.symm
    cases room with
    | zero => exact takeLine_zero hc _
    | succ room => rw [List.cons_append, takeLine_succ hc, ih ha.2 (Nat.lt_of_succ_lt_succ hroom)]; rfl

/-! ## The priority in front -/

theorem afterPri_digits {ds rest : Str} (hds : ∀ c ∈ ds, isdigit c = true) (hrest : rest.head?.all (!isdigit ·) = true) :
    afterPri (less :: (ds ++ rest)) = (if rest.head? = some greater then rest.tail else rest) ∧
      numberOf (less :: (ds ++ rest)) = some (number 10 ds % 2 ^ 32) := by
  obtain ⟨htake, hdrop⟩ := span_append hds hrest
  constructor
  · simp only [afterPri, List.head?_cons, if_true, List.tail_cons, hdrop]
  · simp only [numberOf, List.head?_cons, if_true, List.tail_cons, htake]

theorem afterPri_none (hp : p.head? ≠ some less) : afterPri p = p ∧ numberOf p = none :=
  ⟨if_neg hp, if_neg hp⟩

/-- A text has no priority, or a number and what does not go on with it. -/
theorem text_cases (p : Str) : p.head? ≠ some less ∨ ∃ ds rest, p = less :: (ds ++ rest) ∧
    (∀ c ∈ ds, isdigit c = true) ∧ rest.head?.all (!isdigit ·) = true := by
  cases p with
  | nil =>
    left
    intro h
    cases h
  | cons c p =>
    by_cases hc : c = less
    · subst hc
      refine Or.inr ⟨p.takeWhile isdigit, p.dropWhile isdigit, by rw [List.takeWhile_append_dropWhile],
        fun d hd => List.mem_takeWhile_imp hd, ?_⟩
      have hhead := List.head?_dropWhile_not isdigit p
      cases h : (p.dropWhile isdigit).head? with
      | none => rfl
      | some d =>
        rw [h] at hhead
        simpa using hhead
    · exact Or.inl fun h => hc (Option.some.inj h)

/-- The priority is in front of whatever is behind it. -/
theorem afterPri_append (p : Str) : ∃ pre, p = pre ++ afterPri p ∧
    ∀ a b, afterPri p = a ++ b → afterPri (pre ++ a) = a ∧ numberOf (pre ++ a) = numberOf p := by
  rcases text_cases p with hp | ⟨ds, rest, rfl, hds, hrest⟩
  · rw [(afterPri_none hp).1, (afterPri_none hp).2]
    refine ⟨[], rfl, fun a b h => afterPri_none ?_⟩
    cases a with
    | nil =>
      intro hnil
      cases hnil
    | cons c a => rwa [h] at hp
  · obtain ⟨hafter, hnumber⟩ := afterPri_digits hds hrest
    rw [hafter, hnumber]
    by_cases hgreater : rest.head? = some greater
    · obtain ⟨rest, rfl⟩ : ∃ r, rest = greater :: r := List.head?_eq_some_iff.mp hgreater
      refine ⟨less :: ds ++ [greater], by simp, fun a b _ => ?_⟩
      rw [List.append_assoc, List.cons_append, List.singleton_append]
      have hbehind : (greater :: a).head?.all (!isdigit ·) = true := rfl
      exact afterPri_digits hds hbehind
    · rw [if_neg hgreater]
      refine ⟨less :: ds, rfl, fun a b h => ?_⟩
      have hhead : a.head?.all (!isdigit ·) = true ∧ a.head? ≠ some greater := by
        cases a with
        | nil =>
          refine ⟨rfl, ?_⟩
          intro hnil
          cases hnil
        | cons c a =>
          rw [h] at hrest hgreater
          exact ⟨hrest, hgreater⟩
      have ha := afterPri_digits hds hhead.1
      rwa [if_neg hhead.2] at ha

/-- No newline is in it. -/
theorem afterPri_line (l t : Str) : afterPri (l ++ LF :: t) = afterPri l ++ LF :: t := by
  rcases text_cases l with hl | ⟨ds, rest, rfl, hds, hrest⟩
  · have hhead : (l ++ LF :: t).head? ≠ some less := by
      cases l with
      | nil => exact fun h => absurd (Option.some.inj h) (by decide)
      | cons c l => exact hl
    rw [(afterPri_none hl).1, (afterPri_none hhead).1]
  · rw [(afterPri_digits hds hrest).1, List.cons_append, List.append_assoc]
    have hhead : (rest ++ LF :: t).head?.all (!isdigit ·) = true := by
      cases rest with
      | nil => rfl
      | cons c rest => exact hrest
    rw [(afterPri_digits hds hhead).1]
    cases rest with
    | nil => rfl
    | cons c rest =>
      by_cases hc : (c :: rest).head? = some greater
      · rw [if_pos hc, if_pos (show (c :: rest ++ LF :: t).head? = some greater from hc)]
        rfl
      · rw [if_neg hc, if_neg (show (c :: rest ++ LF :: t).head? ≠ some greater from hc)]

/-! ## One turn -/

/-- What a turn takes: a priority, the text of the message, and what ended it. -/
structure Takes (p piece body e : Str) : Prop where
  split : p = piece ++ (turn p).2
  msg : (turn p).1.msg = vmunix ++ body
  text : afterPri p = body ++ (e ++ (turn p).2)
  after : afterPri piece = body ++ e
  number : numberOf piece = numberOf p
  line : LF ∉ body
  le : body.length ≤ ROOM
  ends : e = [] ∧ (turn p).2 = [] ∨ e = [LF] ∨ ∃ c, c ≠ LF ∧ e = [c] ∧ body.length = ROOM

theorem turn_takes (p : Str) : ∃ piece body e, Takes p piece body e := by
  obtain ⟨pre, hp, hpre⟩ := afterPri_append p
  obtain ⟨e, ht, hlf, hle, he⟩ := takeLine_spec ROOM (afterPri p)
  obtain ⟨hafter, hnumber⟩ := hpre _ _ ht
  refine ⟨pre ++ ((takeLine ROOM (afterPri p)).1 ++ e), _, e, ?_, rfl, ?_, hafter, hnumber, hlf, hle, he⟩
  · rw [List.append_assoc]
    exact hp.trans (congrArg (pre ++ ·) ht)
  · rw [← List.append_assoc]
    exact ht

section Takes

variable {piece body e : Str}

theorem Takes.idxOf_eq (h : Takes p piece body e) :
    min ((afterPri p).idxOf LF) ROOM + 1 = if e = [] then body.length + 1 else body.length + e.length := by
  have hle := h.le
  rw [h.text, List.idxOf_append_of_notMem h.line]
  rcases h.ends with ⟨rfl, hrest⟩ | rfl | ⟨c, hc, rfl, hfull⟩
  · rw [hrest, if_pos rfl, List.append_nil, List.idxOf_nil]
    omega
  · rw [if_neg (List.cons_ne_nil _ _), List.singleton_append, List.idxOf_cons_self, List.length_singleton]
    omega
  · rw [if_neg (List.cons_ne_nil _ _), List.singleton_append, List.idxOf_cons_ne _ hc, List.length_singleton]
    omega

/-- It is a piece of the text. -/
theorem Takes.piece_eq (h : Takes p piece body e) : p.take (pieceLength p) = piece ∧ p.drop (pieceLength p) = (turn p).2 := by
  have hsplit := congrArg List.length h.split
  have htext := congrArg List.length h.text
  have hidx := h.idxOf_eq
  have hpre : (afterPri p).length ≤ p.length := by
    obtain ⟨pre, hpre, -⟩ := afterPri_append p
    have hlen := congrArg List.length hpre
    rw [List.length_append] at hlen
    omega
  simp only [List.length_append] at hsplit htext
  by_cases he : e = []
  · have hrest : (turn p).2 = [] := by
      rcases h.ends with hnil | hlf | ⟨c, -, hc, -⟩
      · exact hnil.2
      · rw [he] at hlf
        cases hlf
      · rw [he] at hc
        cases hc
    rw [if_pos he] at hidx
    rw [he, hrest, List.length_nil] at htext
    have hp := h.split
    rw [hrest, List.append_nil] at hp
    have hlen : p.length ≤ pieceLength p := by
      rw [pieceLength]
      omega
    rw [hrest, List.take_of_length_le hlen, List.drop_eq_nil_of_le hlen]
    exact ⟨hp, rfl⟩
  · rw [if_neg he] at hidx
    have hlen : pieceLength p = piece.length := by
      rw [pieceLength]
      omega
    rw [hlen]
    constructor
    · conv_lhs => rw [h.split]
      exact List.take_left
    · conv_lhs => rw [h.split]
      exact List.drop_left

theorem Takes.bare_eq (h : Takes p piece body e) : bare piece = body ++ e.filter (· ≠ LF) := by
  rw [bare, h.after, List.filter_append]
  congr 1
  rw [List.filter_eq_self]
  intro c hc
  have hne : c ≠ LF := fun heq => h.line (heq ▸ hc)
  simpa using hne

/-- Each turn takes something. -/
theorem Takes.shorter (h : Takes p piece body e) (hp : p ≠ []) : (turn p).2.length < p.length := by
  have hlen := congrArg List.length h.split
  rw [List.length_append] at hlen
  have hpiece : piece ≠ [] := by
    intro hnil
    have hafter := h.after
    rw [hnil] at hafter
    obtain ⟨-, hnone⟩ := List.append_eq_nil_iff.mp hafter.symm
    rcases h.ends with ⟨-, hrest⟩ | hlf | ⟨c, -, hc, -⟩
    · rw [h.split, hnil, hrest] at hp
      exact hp rfl
    · rw [hlf] at hnone
      cases hnone
    · rw [hc] at hnone
      cases hnone
  have := List.length_pos_iff.mpr hpiece
  omega

/-- A line that fits is a message, without its end. -/
theorem Takes.fits {l : Str} (h : Takes p piece body e) (hl : LF ∉ l) (hfit : FitsLine l) :
    (p = l → e = [] ∧ (turn p).2 = []) ∧ (p = l ++ LF :: t → e = [LF] ∧ (turn p).2 = t) := by
  have hlf : LF ∉ afterPri l := by
    obtain ⟨pre, hpre, -⟩ := afterPri_append l
    rw [hpre, List.mem_append, not_or] at hl
    exact hl.2
  have hbody : (takeLine ROOM (afterPri p)).1 = body := List.append_cancel_left h.msg
  obtain ⟨hend, hline⟩ := takeLine_fits (t := t) hlf hfit
  constructor
  · rintro rfl
    have hrest : (turn p).2 = [] := congrArg Prod.snd hend
    have htext := h.text
    rw [← hbody, hend] at htext
    exact List.append_eq_nil_iff.mp (List.append_right_eq_self.mp htext.symm)
  · rintro rfl
    have hrest : (turn (l ++ LF :: t)).2 = t := by
      rw [turn, afterPri_line, hline]
    have htext := h.text
    rw [← hbody, afterPri_line, hline, hrest] at htext
    have hcut : LF :: t = e ++ t := List.append_cancel_left htext
    have hend : [LF] = e := List.append_cancel_right hcut
    exact ⟨hend.symm, hrest⟩

/-- Of any other something is lost. -/
theorem Takes.loses {l u : Str} (h : Takes p piece body e) (hl : LF ∉ l) (hp : p = l ∧ u = [] ∨ p = l ++ LF :: t ∧ u = LF :: t)
    (hfit : ¬ FitsLine l) : e.filter (· ≠ LF) ≠ [] := by
  have hlf : LF ∉ afterPri l := by
    obtain ⟨pre, hpre, -⟩ := afterPri_append l
    rw [hpre, List.mem_append, not_or] at hl
    exact hl.2
  have hlong : ROOM < (afterPri l).length := Nat.not_le.mp hfit
  have hafter : afterPri p = afterPri l ++ u := by
    rcases hp with ⟨rfl, rfl⟩ | ⟨rfl, rfl⟩
    · exact (List.append_nil _).symm
    · exact afterPri_line l t
  have hbody : (takeLine ROOM (afterPri p)).1 = body := List.append_cancel_left h.msg
  have htext := h.text
  rw [hafter, takeLine_loses hlf hlong] at hbody
  have hrest : (turn p).2 = (afterPri l).drop (ROOM + 1) ++ u := by rw [turn, hafter, takeLine_loses hlf hlong]
  have hsplit : afterPri l = (afterPri l).take ROOM ++ ([(afterPri l)[ROOM]] ++ (afterPri l).drop (ROOM + 1)) := by
    rw [List.singleton_append, ← List.drop_eq_getElem_cons hlong, List.take_append_drop]
  have he : e = [(afterPri l)[ROOM]] := by
    rw [← hbody, hafter, hrest] at htext
    conv_lhs at htext => rw [hsplit]
    rw [List.append_assoc, List.append_assoc] at htext
    exact (List.append_cancel_right (List.append_cancel_left htext)).symm
  have hne : (afterPri l)[ROOM] ≠ LF := fun heq => hlf (heq ▸ List.getElem_mem hlong)
  rw [he, List.filter_cons_of_pos (by simpa using hne)]
  exact List.cons_ne_nil _ _

end Takes

/-! ## The whole text -/

def texts (calls : List Sent) : Str := (calls.map fun s => s.msg.drop vmunix.length).flatten

theorem lines_cases (p : Str) : LF ∉ p ∧ p.splitOn LF = [p] ∨
    ∃ l t, LF ∉ l ∧ p = l ++ LF :: t ∧ p.splitOn LF = l :: t.splitOn LF := by
  by_cases hp : LF ∈ p
  · obtain ⟨l, t, rfl, hl⟩ := List.eq_append_cons_of_mem hp
    exact Or.inr ⟨l, t, hl, rfl, List.splitOn_append_cons_self_of_not_mem hl t⟩
  · exact Or.inl ⟨hp, List.splitOn_eq_singleton hp⟩

theorem turns_cons (hp : p ≠ []) (k : Nat) : turns (k + 1) p = (turn p).1 :: turns k (turn p).2 := if_neg hp

theorem cuts_cons (hp : p ≠ []) (k : Nat) :
    cuts (k + 1) p = p.take (pieceLength p) :: cuts k (p.drop (pieceLength p)) := if_neg hp

/-- The pieces are all of the text. -/
theorem cuts_flatten (k : Nat) (p : Str) (hk : p.length ≤ k) : (cuts k p).flatten = p := by
  induction k generalizing p with
  | zero =>
    rw [List.length_eq_zero_iff.mp (Nat.le_zero.mp hk)]
    rfl
  | succ k ih =>
    by_cases hp : p = []
    · rw [hp]
      rfl
    · obtain ⟨piece, body, e, h⟩ := turn_takes p
      have hlt := h.shorter hp
      rw [cuts_cons hp, List.flatten_cons, h.piece_eq.1, h.piece_eq.2, ih _ (by omega), ← h.split]

theorem texts_cons {piece body e : Str} (h : Takes p piece body e) (calls : List Sent) :
    texts ((turn p).1 :: calls) = body ++ texts calls := by
  rw [texts, List.map_cons, List.flatten_cons, h.msg, List.drop_left]
  rfl

/-- No text is made up. -/
theorem texts_le (k : Nat) (p : Str) (hk : p.length ≤ k) :
    (texts (turns k p)).length ≤ ((cuts k p).map bare).flatten.length := by
  induction k generalizing p with
  | zero => exact Nat.le_refl 0
  | succ k ih =>
    by_cases hp : p = []
    · rw [hp]
      exact Nat.le_refl 0
    · obtain ⟨piece, body, e, h⟩ := turn_takes p
      have hlt := h.shorter hp
      have hrest := ih (turn p).2 (by omega)
      rw [turns_cons hp, cuts_cons hp, texts_cons h, h.piece_eq.1, h.piece_eq.2, List.map_cons, List.flatten_cons, h.bare_eq]
      simp only [List.length_append]
      omega

theorem fitsLine_nil : FitsLine [] := Nat.zero_le ROOM

/-- The turns lose nothing where the lines fit, this one and those behind it. -/
theorem Takes.lines_iff {piece body e : Str} (h : Takes p piece body e) :
    (e.filter (· ≠ LF) = [] ∧ ∀ line ∈ (turn p).2.splitOn LF, FitsLine line) ↔ ∀ line ∈ p.splitOn LF, FitsLine line := by
  rcases lines_cases p with ⟨hlf, hsplit⟩ | ⟨l, t, hlf, hp, hsplit⟩
  · rw [hsplit, List.forall_mem_singleton]
    by_cases hfit : FitsLine p
    · obtain ⟨he, hrest⟩ := (h.fits (t := []) hlf hfit).1 rfl
      rw [he, hrest, List.splitOn_nil, List.forall_mem_singleton]
      exact iff_of_true ⟨rfl, fitsLine_nil⟩ hfit
    · exact iff_of_false (fun hall => h.loses (t := []) hlf (Or.inl ⟨rfl, rfl⟩) hfit hall.1) hfit
  · rw [hsplit, List.forall_mem_cons]
    by_cases hfit : FitsLine l
    · obtain ⟨he, hrest⟩ := (h.fits hlf hfit).2 hp
      rw [he, hrest]
      exact ⟨fun hall => ⟨hfit, hall.2⟩, fun hall => ⟨rfl, hall.2⟩⟩
    · exact iff_of_false (fun hall => h.loses hlf (Or.inr ⟨hp, rfl⟩) hfit hall.1) fun hall => hfit hall.1

/-- The text is kept exactly where its lines fit. -/
theorem texts_eq_iff (k : Nat) (p : Str) (hk : p.length ≤ k) :
    texts (turns k p) = ((cuts k p).map bare).flatten ↔ ∀ line ∈ p.splitOn LF, FitsLine line := by
  have hempty : ∀ line ∈ ([] : Str).splitOn LF, FitsLine line := by
    rw [List.splitOn_nil, List.forall_mem_singleton]
    exact fitsLine_nil
  induction k generalizing p with
  | zero =>
    rw [List.length_eq_zero_iff.mp (Nat.le_zero.mp hk)]
    exact iff_of_true rfl hempty
  | succ k ih =>
    by_cases hp : p = []
    · rw [hp]
      exact iff_of_true rfl hempty
    · obtain ⟨piece, body, e, h⟩ := turn_takes p
      have hlt := h.shorter hp
      have hle := texts_le k (turn p).2 (by omega)
      have hrest := ih (turn p).2 (by omega)
      rw [turns_cons hp, cuts_cons hp, texts_cons h, h.piece_eq.1, h.piece_eq.2, List.map_cons, List.flatten_cons, h.bare_eq,
        List.append_assoc, List.append_cancel_left_eq]
      refine Iff.trans ?_ ((and_congr_right fun _ => hrest).trans h.lines_iff)
      constructor
      · intro heq
        have hlen := congrArg List.length heq
        rw [List.length_append] at hlen
        have hnil : e.filter (· ≠ LF) = [] := List.length_eq_zero_iff.mp (by omega)
        rw [hnil] at heq
        exact ⟨hnil, heq⟩
      · intro ⟨hnil, heq⟩
        rw [hnil]
        exact heq

/-- printsys keeps a text exactly where each of its lines fits behind "vmunix: ". -/
theorem printsys_iff (msg : Str) : Keeps msg ↔ ∀ line ∈ msg.splitOn LF, FitsLine line := by
  rw [← texts_eq_iff msg.length msg (Nat.le_refl _)]
  exact ⟨fun h => h.2, fun h => ⟨cuts_flatten msg.length msg (Nat.le_refl _), h⟩⟩

/-- The shortest line that does not fit. -/
def tooLong : Str := List.replicate (ROOM + 1) 0x61

/-- Its last character is lost. -/
theorem tooLong_loses : ¬ Keeps tooLong := by
  intro h
  have htexts := h.2
  revert htexts
  decide +kernel

/-! ## Facilities -/

theorem listed_of_number {p q : Str} (h : numberOf p = numberOf q) : Listed p ↔ Listed q := by rw [Listed, Listed, h]

theorem turns_listed (k : Nat) (p : Str) :
    (∀ s ∈ turns k p, LOG_FAC s.pri ≤ LOG_NFACILITIES) ↔ ∀ piece ∈ cuts k p, Listed piece := by
  induction k generalizing p with
  | zero => exact iff_of_true (List.forall_mem_nil _) (List.forall_mem_nil _)
  | succ k ih =>
    by_cases hp : p = []
    · rw [hp]
      exact iff_of_true (List.forall_mem_nil _) (List.forall_mem_nil _)
    · obtain ⟨piece, body, e, h⟩ := turn_takes p
      rw [turns_cons hp, cuts_cons hp, h.piece_eq.1, h.piece_eq.2, List.forall_mem_cons, List.forall_mem_cons, ih,
        listed_of_number h.number]
      exact and_congr_left fun _ => LOG_FAC_priority (by decide) p

theorem call_fac (s : Sent) (now : Int) (host : Str) : (s.call now host).fac = LOG_FAC s.pri := rfl

/-- No received message is one of the kernel's. The facility of a message is one that there is a
    mask for exactly where the number in front is listed: of a received line, and of each piece
    of a text from the kernel. -/
theorem facilities_iff (force_sync : Bool) (msg : Str) (now : Int) (host : Str) :
    (∀ s ∈ (printline force_sync msg).calls, (s.call now host).fac ≠ LOG_KERN) ∧
      ((∀ s ∈ (printline force_sync msg).calls, (s.call now host).fac ≤ LOG_NFACILITIES) ↔ Listed msg) ∧
      ((∀ s ∈ printsys msg, (s.call now host).fac ≤ LOG_NFACILITIES) ↔ ∀ piece ∈ pieces msg, Listed piece) := by
  have hpri := printline_pri force_sync msg
  obtain ⟨hkern, huser⟩ := LOG_FAC_userPri (priority DEFUPRI msg)
  simp only [call_fac]
  refine ⟨fun s hs => by rw [hpri s hs]; exact hkern, ?_, turns_listed msg.length msg⟩
  have hdefault : LOG_FAC DEFUPRI ≤ LOG_NFACILITIES := by decide
  rw [← LOG_FAC_priority hdefault, ← huser]
  constructor
  · intro h
    obtain ⟨s, hs⟩ : ∃ s, s ∈ (printline force_sync msg).calls := ⟨_, List.mem_append_right _ List.mem_cons_self⟩
    rw [← hpri s hs]
    exact h s hs
  · intro h s hs
    rw [hpri s hs]
    exact h

/-- `<1016>x` is logged under a facility that there is no mask for. -/
theorem facility_127 : ¬ (∀ s ∈ (printline false (text "<1016>x")).calls, (s.call 0 []).fac ≤ LOG_NFACILITIES) ∧
    ¬ ∀ s ∈ printsys (text "<1016>x"), (s.call 0 []).fac ≤ LOG_NFACILITIES := by
  decide

end Netutils.Syslogd
