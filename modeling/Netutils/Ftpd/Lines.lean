/-
  Netutils.Ftpd.Lines — the token sequences of ftpd's control lines.

  The text of a line is what yylex finds in the buffer: up to a NUL, and up to the first
  carriage return, which counts as the end. Where the text has a blank or an end, the
  tokens are a function of it (`line_of_settled`), whatever an earlier line has left in the
  buffer and in cpos.
-/

import Netutils.Ftpd.Parser

namespace Netutils.Ftpd

open Netutils.Arpa

/-! ## The text of a line -/

/-- The string in cbuf once the line has been read. -/
def text (line : Str) : Str :=
  let t := line.takeWhile (· ≠ 0)
  if CR ∈ t then t.takeWhile (· ≠ CR) ++ [LF] else t

/-- Where the word for the command ends can be seen. -/
def Settled (t : Str) : Prop := ∃ c ∈ t, isStop c

instance (t : Str) : Decidable (Settled t) := by unfold Settled; infer_instance

/-- No beginning of the text is a command. -/
def Mute (t : Str) : Prop := ∀ q, ∀ p, lookup cmdtab (upper (t.take q)) = some p → p.implemented = false

/-! ## Scanning a text -/

/-- A token at the front of the text, with the state and the text that are left. -/
abbrev Scanned := Option (Token × LexState × Str)

/-- The word at the front, looked up. -/
def word (tab : List Tab) (t : Str) : Scanned :=
  match lookup tab (upper (t.takeWhile fun c => !isStop c)) with
  | some p => if p.implemented then some (.key p.token, p.state, t.dropWhile fun c => !isStop c) else none
  | none => none

def scanNumber (next : LexState) (t : Str) : Scanned :=
  some (.number (atoi (t.takeWhile isDigit)), next, t.dropWhile isDigit)

def scanBlank (next : LexState) (t : Str) : Scanned :=
  match t with
  | c :: t => if c = BLANK then some (.key .SP, next, t) else none
  | [] => none

def scanString (t : Str) : Scanned :=
  if t.length > 1 ∧ t.getLast? = some LF then some (.string t.dropLast, .args, [LF]) else none

def scanArgs (t : Str) : Scanned :=
  match t with
  | c :: t =>
    if isDigit c then scanNumber .args (c :: t)
    else (argToken c).map fun k => (.key k, .args, t)
  | [] => none

/-- What a state makes of the text. -/
def scan (state : LexState) (t : Str) : Scanned :=
  match state with
  | .cmd => none
  | .sitecmd =>
    if t.head? = some BLANK then scanBlank .sitecmd t
    else if Settled t then word sitetab t else none
  | .ostr => if t.head? = some LF then some (.key .CRLF, .cmd, t) else scanBlank .str2 t
  | .str1 => scanBlank .str2 t
  | .zstr1 => scanBlank .zstr2 t
  | .zstr2 => if t.head? = some LF then some (.key .CRLF, .cmd, t) else scanString t
  | .str2 => scanString t
  | .nstr =>
    if t.head? = some BLANK then scanBlank .nstr t
    else if t.head?.any isDigit then scanNumber .str1 t else none
  | .args => scanArgs t

/-- The tokens from one that has been scanned on. -/
def spell (bad : List Token → Bool) : Nat → Scanned → List Token → Bool → Sequence
  | n + 1, some (t, state, r), tokens, recovering =>
    let tokens := tokens ++ [t]
    let error := !recovering && bad tokens
    let r := if error then r.takeWhile (· ≠ LF) else r
    if t = .key .CRLF then ⟨tokens, .crlf (recovering || error)⟩
    else spell bad n (scan state r) tokens (recovering || error)
  | _, _, tokens, _ => ⟨tokens, .jump⟩

/-- The token sequence of a text. -/
def tokenize (bad : List Token → Bool) (t : Str) : Sequence :=
  spell bad (CBUFSIZE + 2) (word cmdtab t) [] false

/-! ## Strings in the buffer -/

theorem takeWhile_ne_append {a : UInt8} {t junk : Str} (h : a ∉ t) : (t ++ a :: junk).takeWhile (· ≠ a) = t := by
  rw [List.takeWhile_append_of_pos]
  · simp
  · intro c hc
    simp only [ne_eq, decide_eq_true_eq]
    rintro rfl
    exact h hc

theorem dropWhile_ne_append {a : UInt8} {t junk : Str} (h : a ∉ t) :
    (t ++ a :: junk).dropWhile (· ≠ a) = a :: junk := by
  have h1 := List.takeWhile_append_dropWhile (p := fun c => decide (c ≠ a)) (l := t ++ a :: junk)
  rw [takeWhile_ne_append h] at h1
  exact List.append_cancel_left h1

/-- `cbuf[q] = c;` -/
theorem set_middle (pre rest : Str) (c d : UInt8) : (pre ++ c :: rest).set pre.length d = pre ++ d :: rest := by
  rw [List.set_append_right _ _ (Nat.le_refl _)]
  simp

theorem strAt_string (pre : Str) {t junk : Str} (h : 0 ∉ t) : strAt (pre ++ t ++ 0 :: junk) pre.length = t := by
  rw [strAt, List.append_assoc, List.drop_left]
  exact takeWhile_ne_append h

theorem strAt_zero {t junk : Str} (h : 0 ∉ t) : strAt (t ++ 0 :: junk) 0 = t := strAt_string [] h

theorem toUpper_eq_iff {c d : UInt8} (hd : d < 0x41) : toUpper c = d ↔ c = d := by
  unfold toUpper
  split <;> grind

theorem mem_upper_iff {d : UInt8} (hd : d < 0x41) (w : Str) : d ∈ upper w ↔ d ∈ w := by
  simp [upper, toUpper_eq_iff hd]

/-- The word between `p` and `q` is looked up in capitals, and stays so. -/
theorem upperTo_string {cbuf pre w junk : Str} {q : Nat} (h : cbuf.set q 0 = pre ++ w ++ 0 :: junk) (hw : 0 ∉ w) :
    upperTo cbuf pre.length q = pre ++ upper w ++ 0 :: junk := by
  have hd : (pre ++ w ++ 0 :: junk).drop pre.length = w ++ 0 :: junk := by rw [List.append_assoc, List.drop_left]
  have ht : (pre ++ w ++ 0 :: junk).take pre.length = pre := by rw [List.append_assoc, List.take_left]
  rw [upperTo, h]
  simp only [strAt_string pre hw, hd, ht, dropWhile_ne_append hw]

theorem wordTo_string (pre : Str) {cbuf w junk : Str} {q : Nat} (h : cbuf.set q 0 = pre ++ w ++ 0 :: junk) (hw : 0 ∉ w) :
    wordTo cbuf pre.length q = upper w := by
  rw [wordTo, upperTo_string h hw]
  exact strAt_string pre fun h0 => hw ((mem_upper_iff (by decide) w).mp h0)

theorem set_word (pre w rest : Str) (c : UInt8) :
    (pre ++ w ++ c :: rest).set (pre.length + w.length) 0 = pre ++ w ++ 0 :: rest := by
  rw [← List.length_append]
  exact set_middle _ _ _ _

theorem upperedTo_string {pre w rest : Str} {c : UInt8} (hw : 0 ∉ w) :
    upperedTo (pre ++ w ++ c :: rest) pre.length (pre.length + w.length) = pre ++ upper w ++ c :: rest := by
  have hlen : pre.length + w.length = (pre ++ upper w).length := by simp [upper]
  have hc : (pre ++ w ++ c :: rest).getD (pre.length + w.length) 0 = c := by
    rw [← List.length_append, List.getD_eq_getElem?_getD, List.getElem?_append_right (Nat.le_refl _)]
    simp
  rw [upperedTo, upperTo_string (set_word pre w rest c) hw, hc, hlen]
  exact set_middle _ _ _ _

/-- Wherever cpos is left: the word is a beginning of the text. -/
theorem wordTo_text {t : Str} (junk : Str) (h : 0 ∉ t) (q : Nat) : wordTo (t ++ 0 :: junk) 0 q = upper (t.take q) := by
  have htake : 0 ∉ t.take q := fun h0 => h (List.mem_of_mem_take h0)
  suffices hset : ∃ rest, (t ++ 0 :: junk).set q 0 = [] ++ t.take q ++ 0 :: rest by
    obtain ⟨rest, hset⟩ := hset
    exact wordTo_string [] hset htake
  by_cases hq : q < t.length
  · refine ⟨t.drop (q + 1) ++ 0 :: junk, ?_⟩
    rw [List.set_append_left _ _ hq, List.set_eq_take_append_cons_drop, if_pos hq]
    simp
  · rw [List.set_append_right _ _ (by omega), List.take_of_length_le (by omega)]
    cases q - t.length with
    | zero => exact ⟨junk, rfl⟩
    | succ k => exact ⟨junk.set k 0, rfl⟩

/-! ## The line in the buffer -/

theorem zero_notMem_text (line : Str) : 0 ∉ text line := by
  have h0 : 0 ∉ line.takeWhile (· ≠ 0) := fun h => by simpa using List.mem_takeWhile_imp h
  unfold text
  simp only
  split
  · simp only [List.mem_append, List.mem_singleton, not_or]
    exact ⟨fun h => h0 ((List.takeWhile_prefix _).subset h), by decide⟩
  · exact h0

theorem endAtCr_fill (line cbuf : Str) : ∃ junk, endAtCr (fill line cbuf) = text line ++ 0 :: junk := by
  obtain ⟨junk, hj⟩ : ∃ junk, fill line cbuf = line.takeWhile (· ≠ 0) ++ 0 :: junk := by
    by_cases h : (0 : UInt8) ∈ line
    · obtain ⟨a, b, rfl, ha⟩ := List.eq_append_cons_of_mem h
      exact ⟨b ++ 0 :: cbuf.drop ((a ++ 0 :: b).length + 1), by rw [takeWhile_ne_append ha]; simp [fill]⟩
    · refine ⟨cbuf.drop (line.length + 1), ?_⟩
      rw [List.takeWhile_eq_self_iff.mpr fun c hc => by simpa using fun h0 : c = 0 => h (h0 ▸ hc)]
      rfl
  have h0 : 0 ∉ line.takeWhile (· ≠ 0) := fun h => by simpa using List.mem_takeWhile_imp h
  generalize ht : line.takeWhile (· ≠ 0) = t at hj h0
  have htext : text line = if CR ∈ t then t.takeWhile (· ≠ CR) ++ [LF] else t := by rw [text, ht]
  rw [hj, endAtCr, strAt_zero h0, htext]
  by_cases hcr : CR ∈ t
  · obtain ⟨a, b, rfl, ha⟩ := List.eq_append_cons_of_mem hcr
    have hi : (a ++ CR :: b).idxOf CR = a.length := by rw [List.idxOf_append_of_notMem ha]; simp
    simp only [hcr, if_true, hi, takeWhile_ne_append ha]
    rw [List.append_assoc, List.cons_append, set_middle]
    have hset : ∀ d rest, (a ++ LF :: d :: rest).set (a.length + 1) 0 = a ++ [LF] ++ 0 :: rest := by
      intro d rest
      simp [← set_middle (a ++ [LF]) rest d 0]
    cases b with
    | nil => exact ⟨junk, hset 0 junk⟩
    | cons d b => exact ⟨b ++ 0 :: junk, hset d (b ++ 0 :: junk)⟩
  · simp only [hcr, if_false]
    exact ⟨junk, rfl⟩

/-! ## Standing in a line -/

/-- The scanner stands in front of `r`, which is what is left of the text. -/
def At (L : Lexer) (r : Str) : Prop :=
  ∃ pre junk, L.cbuf = pre ++ r ++ 0 :: junk ∧ L.cpos = pre.length ∧ LF ∉ pre ∧ 0 ∉ pre ++ r ∧ LF ∉ r.dropLast

section At

variable {L : Lexer} {r : Str}

theorem At.strAt_eq (h : At L r) : strAt L.cbuf L.cpos = r := by
  obtain ⟨pre, junk, hbuf, hpos, -, h0, -⟩ := h
  rw [hbuf, hpos]
  exact strAt_string pre fun hr => h0 (List.mem_append_right _ hr)

theorem At.current_eq (h : At L r) : L.current = r.headD 0 := by
  obtain ⟨pre, junk, hbuf, hpos, -, -, -⟩ := h
  rw [Lexer.current, hbuf, hpos, List.append_assoc]
  cases r with
  | nil => simp [List.getD]
  | cons c r => simp [List.getD]

theorem At.digits_eq (h : At L r) : L.digits = r.takeWhile isDigit := by
  obtain ⟨pre, junk, hbuf, hpos, -, -, -⟩ := h
  have h0 : isDigit 0 = false := by decide
  rw [Lexer.digits, hbuf, hpos, List.append_assoc, List.drop_left]
  clear hbuf
  induction r with
  | nil => simp [h0]
  | cons c r ih => simp only [List.cons_append, List.takeWhile_cons, ih]

theorem At.dropLast (h : At L r) : LF ∉ r.dropLast := by
  obtain ⟨-, -, -, -, -, -, hr⟩ := h
  exact hr

/-- Steps over the front of the text. -/
theorem At.skip {a : Str} (h : At L (a ++ r)) (ha : LF ∉ a) (state : LexState) :
    At { L with cpos := L.cpos + a.length, state := state } r := by
  obtain ⟨pre, junk, hbuf, hpos, hlf, h0, hr⟩ := h
  refine ⟨pre ++ a, junk, by simp [hbuf], by simp [hpos], by simp [hlf, ha], by simpa using h0, ?_⟩
  intro hm
  apply hr
  cases r with
  | nil => simp at hm
  | cons c r =>
    rw [List.dropLast_append_of_ne_nil (by simp)]
    exact List.mem_append_right _ hm

theorem At.state (h : At L r) (state : LexState) : At { L with state := state } r := h

/-- A syntax error cuts the end of the line off. -/
theorem At.yyerror (h : At L r) : At L.yyerror (r.takeWhile (· ≠ LF)) := by
  obtain ⟨pre, junk, hbuf, hpos, hlf, h0, hr⟩ := h
  have hstr : strAt L.cbuf 0 = pre ++ r := by rw [hbuf]; exact strAt_zero h0
  unfold Lexer.yyerror
  by_cases hm : LF ∈ r
  · obtain ⟨a, b, rfl, ha⟩ := List.eq_append_cons_of_mem hm
    have hi : (pre ++ (a ++ LF :: b)).idxOf LF = (pre ++ a).length := by
      rw [List.idxOf_append_of_notMem hlf, List.idxOf_append_of_notMem ha]; simp
    rw [if_pos (by simp [hstr]), hstr, hi, takeWhile_ne_append ha]
    refine ⟨pre, b ++ 0 :: junk, ?_, hpos, hlf, ?_, fun h => ha (List.dropLast_subset _ h)⟩
    · have hbuf' : L.cbuf = (pre ++ a) ++ LF :: (b ++ 0 :: junk) := by simp [hbuf]
      simp only [hbuf', set_middle]
    · intro h
      apply h0
      simp only [List.mem_append] at h ⊢
      exact h.imp_right Or.inl
  · have hself : r.takeWhile (· ≠ LF) = r :=
      List.takeWhile_eq_self_iff.mpr fun c hc => by simpa using fun hl : c = LF => hm (hl ▸ hc)
    rw [if_neg (by simp [hstr, hlf, hm]), hself]
    exact ⟨pre, junk, hbuf, hpos, hlf, h0, hr⟩

end At

/-! ## The scanner does what the text says -/

theorem Lexer.yyerror_state (L : Lexer) : L.yyerror.state = L.state := by
  unfold Lexer.yyerror
  split <;> rfl

/-- What the scanner comes to, beside what is scanned. -/
def Agrees (x : Lexed × Lexer) : Scanned → Prop
  | some (t, state, r) => x.1 = .token t ∧ (t ≠ .key .CRLF → At x.2 r ∧ x.2.state = state)
  | none => ∀ t, x.1 ≠ .token t

theorem sequence_spell (bad : List Token → Bool)
    (hyylex : ∀ (L : Lexer) (r : Str), At L r → Agrees (yylex L) (scan L.state r)) (n : Nat)
    {x : Lexed × Lexer} {y : Scanned} (h : Agrees x y) (tokens : List Token) (recovering : Bool) :
    (sequence bad n x tokens recovering).1 = spell bad n y tokens recovering := by
  induction n generalizing x y tokens recovering with
  | zero => cases x; rfl
  | succ n ih =>
    obtain ⟨l, L⟩ := x
    cases y with
    | none =>
      cases l with
      | token t => exact absurd rfl (h t)
      | nack => rfl
      | error => rfl
    | some y =>
      obtain ⟨t, state, r⟩ := y
      obtain ⟨rfl, hat⟩ : l = .token t ∧ _ := h
      simp only [sequence, spell]
      by_cases ht : t = .key .CRLF
      · simp [ht]
      · obtain ⟨hL, rfl⟩ := hat ht
        simp only [ht, if_false]
        apply ih
        by_cases he : (!recovering && bad (tokens ++ [t])) = true
        · simp only [he, if_true, ← L.yyerror_state]
          exact hyylex _ _ hL.yyerror
        · simp only [he]
          exact hyylex _ _ hL

theorem agrees_fail {L : Lexer} {y : Scanned} (h : y = none) : Agrees L.fail y := by
  subst h
  exact fun _ => nofun

section Agrees

variable {L : Lexer} {r : Str}

theorem agrees_blank (h : At L r) (next : LexState) : Agrees (L.dostr1 next) (scanBlank next r) := by
  unfold Lexer.dostr1 scanBlank
  cases r with
  | nil => rw [h.current_eq]; exact agrees_fail rfl
  | cons c r =>
    simp only [h.current_eq, List.headD_cons]
    by_cases hc : c = BLANK
    · subst hc
      rw [if_pos rfl, if_pos rfl]
      exact ⟨rfl, fun _ => ⟨At.skip (a := [BLANK]) h (by decide) next, rfl⟩⟩
    · rw [if_neg hc, if_neg hc]
      exact agrees_fail rfl

theorem lf_not_digit : isDigit LF = false := by decide

theorem agrees_number (h : At L r) (next : LexState) : Agrees (L.number next) (scanNumber next r) := by
  unfold Lexer.number scanNumber
  rw [h.digits_eq]
  refine ⟨rfl, fun _ => ⟨At.skip ?_ ?_ next, rfl⟩⟩
  · rwa [List.takeWhile_append_dropWhile]
  · intro hm
    exact absurd (List.mem_takeWhile_imp hm) (by simp [lf_not_digit])

theorem agrees_str2 (h : At L r) : Agrees L.str2 (scanString r) := by
  unfold Lexer.str2 scanString
  rw [h.strAt_eq]
  by_cases hlen : r.length > 1
  · obtain ⟨a, d, rfl⟩ : ∃ a d, r = a ++ [d] := 
      ⟨r.dropLast, r.getLast (by grind), (List.dropLast_append_getLast _).symm⟩
    have ha : LF ∉ a := by simpa using h.dropLast
    have hat : ∀ state, At { L with cpos := L.cpos + (a ++ [d]).length - 1, state := state } [d] := by
      intro state
      simpa using h.skip ha state
    have hd := (hat L.state).current_eq
    simp only [List.headD_cons] at hd
    simp only [hd]
    by_cases hlf : d = LF
    · subst hlf
      simp only [hlen, List.getLast?_concat, and_self, if_true]
      exact ⟨rfl, fun _ => ⟨hat .args, rfl⟩⟩
    · simp only [hlf, and_false, if_false, List.getLast?_concat, Option.some.injEq]
      exact agrees_fail rfl
  · simp only [hlen, false_and, if_false]
    exact agrees_fail rfl

theorem agrees_args (h : At L r) (hst : L.state = .args) : Agrees L.args (scanArgs r) := by
  unfold Lexer.args scanArgs
  cases r with
  | nil => rw [h.current_eq]; exact agrees_fail rfl
  | cons c r =>
    simp only [h.current_eq, List.headD_cons]
    by_cases hd : isDigit c = true
    · simp only [hd, if_true]
      exact agrees_number h .args
    · simp only [hd]
      cases hk : argToken c with
      | none => exact agrees_fail rfl
      | some k =>
        by_cases hcr : k = .CRLF
        · subst hcr
          exact ⟨rfl, fun hne => absurd rfl hne⟩
        · have hc : LF ∉ [c] := by
            intro hm
            obtain rfl := List.mem_singleton.mp hm
            exact hcr (Option.some.inj hk).symm
          refine ⟨?_, fun _ => ?_⟩
          · cases k <;> rfl
          · have := At.skip (a := [c]) h hc L.state
            cases k
            case CRLF => exact absurd rfl hcr
            all_goals exact ⟨this, hst⟩

/-! ### Words -/

theorem length_takeWhile_not (p : UInt8 → Bool) (l : Str) : (l.takeWhile fun c => !p c).length = l.findIdx p := by
  induction l with
  | nil => rfl
  | cons c l ih => by_cases h : p c = true <;> simp [List.findIdx_cons, h, ih]

theorem stopAt_settled {cbuf : Str} {p : Nat} (cpos : Nat) (h : strAt cbuf p = r) (hs : Settled r) :
    stopAt cbuf p cpos = p + (r.takeWhile fun c => !isStop c).length := by
  rw [stopAt, h, if_pos (List.any_eq_true.mpr hs), length_takeWhile_not]

theorem dropWhile_settled (hs : Settled r) : ∃ c rest, isStop c = true ∧ r.dropWhile (fun c => !isStop c) = c :: rest := by
  obtain ⟨c, hc, hstop⟩ := hs
  cases hd : r.dropWhile fun c => !isStop c with
  | nil => simpa [hstop] using List.dropWhile_eq_nil_iff.mp hd c hc
  | cons d rest =>
    refine ⟨d, rest, ?_, rfl⟩
    have := List.head_dropWhile_not (p := fun c => !isStop c) (l := r) (by simp [hd])
    simpa [hd] using this

/-- A word is looked up, and the scanner then stands behind it. -/
theorem At.word (h : At L r) (hs : Settled r) (state : LexState) :
    let q := L.cpos + (r.takeWhile fun c => !isStop c).length
    wordTo L.cbuf L.cpos q = upper (r.takeWhile fun c => !isStop c) ∧
      At { L with cbuf := upperedTo L.cbuf L.cpos q, cpos := q, state := state } (r.dropWhile fun c => !isStop c) := by
  obtain ⟨pre, junk, hbuf, hpos, hlf, h0, hr⟩ := h
  obtain ⟨c, rest, hstop, hdrop⟩ := dropWhile_settled hs
  have hsplit := List.takeWhile_append_dropWhile (p := fun c => !isStop c) (l := r)
  rw [hdrop] at hsplit ⊢
  have hw0 : 0 ∉ r.takeWhile fun c => !isStop c := fun hm => h0 (List.mem_append_right _ ((List.takeWhile_prefix _).subset hm))
  have hwlf : LF ∉ r.takeWhile fun c => !isStop c := fun hm =>
    absurd (List.mem_takeWhile_imp hm) (by decide)
  generalize r.takeWhile (fun c => !isStop c) = w at hsplit hw0 hwlf ⊢
  subst hsplit
  have hbuf' : L.cbuf = pre ++ w ++ c :: (rest ++ 0 :: junk) := by simp [hbuf]
  simp only
  rw [hbuf', hpos, upperedTo_string hw0]
  refine ⟨wordTo_string pre (set_word _ _ _ _) hw0, pre ++ upper w, junk, ?_, ?_, ?_, ?_, ?_⟩
  · simp
  · simp [upper]
  · simp [hlf, mem_upper_iff (show LF < 0x41 by decide), hwlf]
  · simp only [List.mem_append, not_or] at h0 ⊢
    exact ⟨⟨h0.1, fun hm => hw0 ((mem_upper_iff (by decide) w).mp hm)⟩, h0.2.2⟩
  · intro hm
    apply hr
    rw [List.dropLast_append_of_ne_nil (by simp)]
    exact List.mem_append_right _ hm

theorem agrees_sitecmd (h : At L r) (hst : L.state = .sitecmd) : Agrees L.sitecmd (scan .sitecmd r) := by
  unfold Lexer.sitecmd scan
  by_cases hb : r.head? = some BLANK
  · obtain ⟨r, rfl⟩ := List.head?_eq_some_iff.mp hb
    rw [h.current_eq]
    exact ⟨rfl, fun _ => ⟨At.skip (a := [BLANK]) h (by decide) L.state, hst⟩⟩
  · have hc : L.current ≠ BLANK := by
      rw [h.current_eq]
      cases r with
      | nil => decide
      | cons c r => simpa using hb
    rw [if_neg hc, if_neg hb]
    by_cases hs : Settled r
    · simp only [if_pos hs, stopAt_settled L.cpos h.strAt_eq hs, (h.word hs L.state).1, Netutils.Ftpd.word]
      cases hl : lookup sitetab (upper (r.takeWhile fun c => !isStop c)) with
      | none => exact agrees_fail rfl
      | some p =>
        by_cases hi : p.implemented = true
        · simp only [hi, if_true]
          exact ⟨rfl, fun _ => ⟨(h.word hs p.state).2, rfl⟩⟩
        · simp only [hi]
          intro _ h
          cases h
    · -- the word is empty then
      have hq : stopAt L.cbuf L.cpos L.cpos = L.cpos := by
        rw [stopAt, h.strAt_eq, if_neg fun ha => hs (List.any_eq_true.mp ha)]
      have hw : wordTo L.cbuf L.cpos L.cpos = [] := by
        obtain ⟨pre, junk, hbuf, hpos, -, -, -⟩ := h
        obtain ⟨d, rest, hd⟩ : ∃ d rest, r ++ 0 :: junk = d :: rest := by cases r <;> simp
        rw [hbuf, hpos, List.append_assoc, hd]
        refine wordTo_string pre (w := []) (?_ : _ = pre ++ [] ++ 0 :: rest) (by simp)
        rw [set_middle]
        simp
      simp only [if_neg hs, hq, hw]
      exact agrees_fail rfl

theorem head_of_current (h : At L r) {c : UInt8} (hc : c ≠ 0) : L.current = c ↔ r.head? = some c := by
  rw [h.current_eq]
  cases r with
  | nil => simpa using hc.symm
  | cons d r => simp

/-- A call within a line is a step of the scan. -/
theorem yylex_agrees (h : At L r) : Agrees (yylex L) (scan L.state r) := by
  unfold yylex
  cases hst : L.state with
  | cmd => exact agrees_fail rfl
  | sitecmd => exact agrees_sitecmd h hst
  | ostr =>
    simp only [scan, head_of_current h (show LF ≠ 0 by decide)]
    split
    · exact ⟨rfl, fun hne => absurd rfl hne⟩
    · exact agrees_blank h .str2
  | str1 => exact agrees_blank h .str2
  | zstr1 => exact agrees_blank h .zstr2
  | zstr2 =>
    simp only [scan, head_of_current h (show LF ≠ 0 by decide)]
    split
    · exact ⟨rfl, fun hne => absurd rfl hne⟩
    · exact agrees_str2 h
  | str2 => exact agrees_str2 h
  | nstr =>
    simp only [scan, head_of_current h (show BLANK ≠ 0 by decide)]
    by_cases hb : r.head? = some BLANK
    · obtain ⟨r, rfl⟩ := List.head?_eq_some_iff.mp hb
      simp only [hb, if_true]
      exact ⟨rfl, fun _ => ⟨At.skip (a := [BLANK]) h (by decide) .nstr, rfl⟩⟩
    · have hd : isDigit L.current = r.head?.any isDigit := by
        rw [h.current_eq]
        cases r <;> simp; decide
      simp only [if_neg hb, hd]
      split
      · exact agrees_number h .str1
      · have hc : L.current ≠ BLANK := fun hc => hb ((head_of_current h (by decide)).mp hc)
        rw [Lexer.dostr1, if_neg hc]
        exact agrees_fail rfl
  | args => exact agrees_args h hst

end Agrees

/-! ## A line -/

theorem dropLast_text {line : Str} (h : LF ∉ line.dropLast) : LF ∉ (text line).dropLast := by
  have ht : LF ∉ (line.takeWhile (· ≠ 0)).dropLast := by
    obtain ⟨rest, hrest⟩ := List.takeWhile_prefix (p := fun c => decide (c ≠ 0)) (l := line)
    rw [← hrest] at h
    intro hm
    apply h
    cases rest with
    | nil => simpa using hm
    | cons c rest =>
      rw [List.dropLast_append_of_ne_nil (by simp)]
      exact List.mem_append_left _ (List.dropLast_subset _ hm)
  unfold text
  simp only
  split
  · rename_i hcr
    obtain ⟨a, b, hab, ha⟩ := List.eq_append_cons_of_mem hcr
    rw [hab] at ht ⊢
    rw [takeWhile_ne_append ha, List.dropLast_concat]
    intro hm
    apply ht
    rw [List.dropLast_append_of_ne_nil (by simp)]
    exact List.mem_append_left _ hm
  · exact ht

theorem not_stop_of_names : ∀ p ∈ cmdtab, ∀ c ∈ p.name, isStop c = false := by
  have hall : (cmdtab.all fun p => p.name.all fun c => !isStop c) = true := by decide +kernel
  intro p hp c hc
  exact Bool.not_eq_true' _ ▸ List.all_eq_true.mp (List.all_eq_true.mp hall p hp) c hc

theorem toUpper_of_stop {c : UInt8} (h : isStop c = true) : toUpper c = c := by
  simp only [isStop, Bool.or_eq_true, decide_eq_true_eq] at h
  rcases h with rfl | rfl <;> decide

/-- A word with a blank in it is no command. -/
theorem lookup_of_stop {s : Str} {c : UInt8} (hc : c ∈ s) (hstop : isStop c = true) : lookup cmdtab (upper s) = none := by
  rw [lookup, List.find?_eq_none]
  intro p hp hname
  have := not_stop_of_names p hp c (by rw [← of_decide_eq_true hname]; exact List.mem_map.mpr ⟨c, hc, toUpper_of_stop hstop⟩)
  rw [hstop] at this
  exact absurd this nofun

section Line

variable {line : Str} {L : Lexer}

theorem agrees_lexCmd (h : LF ∉ line.dropLast) (hs : Settled (text line)) :
    Agrees (lexCmd line L) (word cmdtab (text line)) := by
  obtain ⟨junk, hbuf⟩ := endAtCr_fill line L.cbuf
  have hat : At { L with cbuf := endAtCr (fill line L.cbuf), cpos := 0 } (text line) :=
    ⟨[], junk, by simp [hbuf], rfl, by simp, zero_notMem_text line, dropLast_text h⟩
  have hstop := stopAt_settled L.cpos hat.strAt_eq hs
  unfold lexCmd
  simp only at hstop ⊢
  rw [hstop, Nat.zero_add]
  by_cases hw : (text line).takeWhile (fun c => !isStop c) = []
  · have hlook : lookup cmdtab (wordTo (endAtCr (fill line L.cbuf)) 0 4) = none := by
      obtain ⟨c, rest, hc, hd⟩ := dropWhile_settled hs
      have htext := List.takeWhile_append_dropWhile (p := fun c => !isStop c) (l := text line)
      rw [hw, List.nil_append, hd] at htext
      rw [hbuf, wordTo_text junk (zero_notMem_text line), ← htext]
      exact lookup_of_stop (List.mem_cons_self ..) hc
    simp only [hw, List.length_nil, if_true, hlook]
    exact agrees_fail (by rw [word, hw]; rfl)
  · have hne : ¬((text line).takeWhile fun c => !isStop c).length = 0 := fun h0 => hw (List.eq_nil_of_length_eq_zero h0)
    have hword := (hat.word hs L.state).1
    simp only [Nat.zero_add] at hword
    simp only [if_neg hne, hword, Netutils.Ftpd.word]
    cases hl : lookup cmdtab (upper ((text line).takeWhile fun c => !isStop c)) with
    | none => exact agrees_fail rfl
    | some p =>
      by_cases hi : p.implemented = true
      · have := (hat.word hs p.state).2
        simp only [Nat.zero_add] at this
        simp only [hi, if_true]
        exact ⟨rfl, fun _ => ⟨this, rfl⟩⟩
      · simp only [hi]
        intro _ h
        cases h

/-- Where the end of the word can be seen, the tokens are those of the text. -/
theorem line_of_settled (bad : List Token → Bool) (h : LF ∉ line.dropLast) (hs : Settled (text line)) :
    (L.line bad line).1 = tokenize bad (text line) :=
  sequence_spell bad (fun _ _ => yylex_agrees) _ (agrees_lexCmd h hs) [] false

/-- The command of a line whose word has no end is what of it is before cpos. -/
theorem lexCmd_of_loose (h : ¬ Settled (text line)) :
    let q := if L.cpos = 0 then 4 else L.cpos
    match lookup cmdtab (upper ((text line).take q)) with
    | some p => (lexCmd line L).1 = if p.implemented then .token (.key p.token) else .nack
    | none => (lexCmd line L).1 = .error := by
  obtain ⟨junk, hbuf⟩ := endAtCr_fill line L.cbuf
  have hq : stopAt (endAtCr (fill line L.cbuf)) 0 L.cpos = L.cpos := by
    rw [stopAt, hbuf, strAt_zero (zero_notMem_text line), if_neg fun ha => h (List.any_eq_true.mp ha)]
  have hw := wordTo_text junk (zero_notMem_text line) (if L.cpos = 0 then 4 else L.cpos)
  rw [← hbuf] at hw
  unfold lexCmd
  simp only [hq, hw]
  cases lookup cmdtab (upper ((text line).take (if L.cpos = 0 then 4 else L.cpos))) with
  | none => rfl
  | some p => by_cases hi : p.implemented = true <;> simp [hi]

/-- With no beginning that is a command there are no tokens. -/
theorem line_of_mute (bad : List Token → Bool) (h : ¬ Settled (text line)) (hm : Mute (text line)) :
    (L.line bad line).1 = ⟨[], .jump⟩ := by
  have hjump : ∀ x : Lexed × Lexer, (∀ t, x.1 ≠ .token t) → (sequence bad (CBUFSIZE + 2) x [] false).1 = ⟨[], .jump⟩ := by
    intro h hl
    obtain ⟨l, L⟩ := h
    cases l with
    | token t => exact absurd rfl (hl t)
    | nack => rfl
    | error => rfl
  apply hjump
  have hcmd := lexCmd_of_loose (L := L) h
  simp only at hcmd
  intro t ht
  split at hcmd
  · rename_i p hp
    rw [hm _ p hp, ht] at hcmd
    exact absurd hcmd nofun
  · rw [ht] at hcmd
    exact absurd hcmd nofun

end Line

/-! ## The turns are enough -/

/-- Where a call has come to: a token is a step to the right, unless it ends the line. -/
def Progress (L : Lexer) (x : Lexed × Lexer) : Prop :=
  x.2.cbuf.length = L.cbuf.length ∧
    match x.1 with
    | .token t => if t = .key .CRLF then x.2.state = .cmd else L.cpos < x.2.cpos ∧ L.cpos < L.cbuf.length
    | _ => x.2.state = .cmd

theorem Lexer.length_yyerror (L : Lexer) : L.yyerror.cbuf.length = L.cbuf.length := by
  unfold Lexer.yyerror
  split <;> simp

theorem Lexer.yyerror_cpos (L : Lexer) : L.yyerror.cpos = L.cpos := by
  unfold Lexer.yyerror
  split <;> rfl

theorem length_upperedTo (cbuf : Str) (p q : Nat) : (upperedTo cbuf p q).length = cbuf.length := by
  have h := congrArg List.length (List.takeWhile_append_dropWhile (p := fun c => decide (c ≠ 0)) (l := (cbuf.set q 0).drop p))
  have h' := congrArg List.length (List.take_append_drop p (cbuf.set q 0))
  simp only [List.length_append, List.length_set] at h h'
  simp only [upperedTo, upperTo, strAt, upper, List.length_set, List.length_append, List.length_map]
  omega

section Progress

variable {L : Lexer}

theorem progress_fail {L' : Lexer} (h : L'.cbuf.length = L.cbuf.length) : Progress L L'.fail :=
  ⟨by simp [Lexer.fail, Lexer.length_yyerror, h], rfl⟩

/-- A token that does not end the line. -/
theorem progress_token {L' : Lexer} {t : Token} (ht : t ≠ .key .CRLF) (hlen : L'.cbuf.length = L.cbuf.length)
    (hpos : L.cpos < L'.cpos) (hlt : L.cpos < L.cbuf.length) : Progress L (.token t, L') :=
  ⟨hlen, by simp only [if_neg ht]; exact ⟨hpos, hlt⟩⟩

theorem lt_of_current {c : UInt8} (h : L.current = c) (hc : c ≠ 0) : L.cpos < L.cbuf.length := by
  by_contra hlt
  apply hc
  rw [← h, Lexer.current, List.getD_eq_getElem?_getD, List.getElem?_eq_none (by omega)]
  rfl

theorem progress_dostr1 (next : LexState) : Progress L (L.dostr1 next) := by
  unfold Lexer.dostr1
  split
  · rename_i hc
    exact progress_token nofun rfl (Nat.lt_succ_self _) (lt_of_current hc (by decide))
  · exact progress_fail rfl

theorem progress_number (next : LexState) (h : isDigit L.current = true) : Progress L (L.number next) := by
  have hlt : L.cpos < L.cbuf.length := lt_of_current rfl fun h0 => absurd (h0 ▸ h) (by decide)
  have hdigits : 0 < L.digits.length := by
    rw [Lexer.digits, List.drop_eq_getElem_cons hlt, List.takeWhile_cons_of_pos]
    · simp
    · simpa [Lexer.current, List.getD_eq_getElem?_getD, hlt] using h
  exact progress_token nofun rfl (by simp only; omega) hlt

theorem progress_str2 : Progress L L.str2 := by
  unfold Lexer.str2
  simp only
  split
  · rename_i h
    have hlen : (strAt L.cbuf L.cpos).length ≤ L.cbuf.length - L.cpos := by
      simpa [strAt] using (List.takeWhile_prefix (l := L.cbuf.drop L.cpos) (fun c => decide (c ≠ 0))).length_le
    exact progress_token nofun rfl (by simp only; omega) (by omega)
  · exact progress_fail rfl

theorem progress_args : Progress L L.args := by
  unfold Lexer.args
  split
  · exact progress_number .args ‹_›
  · have hlt : ∀ k, argToken L.current = some k → L.cpos < L.cbuf.length := fun k hk =>
      lt_of_current rfl fun h0 => by rw [h0, show argToken 0 = none by decide] at hk; exact absurd hk nofun
    simp only
    split
    · exact ⟨rfl, rfl⟩
    · rename_i k hne hk
      exact progress_token (fun h => hne (Token.key.inj h)) rfl (Nat.lt_succ_self _) (hlt k hk)
    · exact progress_fail rfl

theorem le_stopAt (cbuf : Str) (p : Nat) : p ≤ stopAt cbuf p p := by
  unfold stopAt
  split <;> omega

/-- No word stands between `p` and `p`, or behind the buffer. -/
theorem wordTo_empty {cbuf : Str} {p q : Nat} (h : q = p ∨ cbuf.length ≤ p) : wordTo cbuf p q = [] := by
  have hstr : strAt (cbuf.set q 0) p = [] := by
    by_cases hp : p < cbuf.length
    · obtain rfl := h.resolve_right (by omega)
      rw [strAt, List.drop_eq_getElem_cons (by simpa using hp)]
      simp
    · rw [strAt, List.drop_eq_nil_of_le (by simpa using hp)]
      rfl
  have hdrop := List.takeWhile_append_dropWhile (p := fun c => decide (c ≠ 0)) (l := (cbuf.set q 0).drop p)
  rw [show List.takeWhile _ _ = [] from hstr, List.nil_append] at hdrop
  rw [wordTo, upperTo, hdrop, hstr, show upper [] = [] from rfl, List.append_nil, List.take_append_drop]
  exact hstr

theorem lookup_eq_some {tab : List Tab} {s : Str} {p : Tab} (h : lookup tab s = some p) : p ∈ tab ∧ p.name = s := by
  unfold lookup at h
  have hname := List.find?_some h
  exact ⟨List.mem_of_find?_eq_some h, (of_decide_eq_true hname).symm⟩

theorem progress_sitecmd : Progress L L.sitecmd := by
  unfold Lexer.sitecmd
  split
  · rename_i hc
    exact progress_token nofun rfl (Nat.lt_succ_self _) (lt_of_current hc (by decide))
  · have hlen := length_upperedTo L.cbuf L.cpos (stopAt L.cbuf L.cpos L.cpos)
    simp only
    split
    · rename_i p hp
      split
      · obtain ⟨hmem, hname⟩ := lookup_eq_some hp
        have hsite : ∀ p ∈ sitetab, p.token ≠ .CRLF ∧ p.name ≠ [] := by decide +kernel
        have hword : ¬(stopAt L.cbuf L.cpos L.cpos = L.cpos ∨ L.cbuf.length ≤ L.cpos) :=
          fun h => (hsite p hmem).2 (hname.trans (wordTo_empty h))
        have hle := le_stopAt L.cbuf L.cpos
        exact progress_token (fun h => (hsite p hmem).1 (Token.key.inj h)) hlen (by simp only; omega) (by omega)
      · exact ⟨hlen, rfl⟩
    · exact progress_fail hlen

theorem progress_yylex : Progress L (yylex L) := by
  unfold yylex
  split
  · exact progress_fail rfl
  · exact progress_sitecmd
  · split
    · exact ⟨rfl, rfl⟩
    · exact progress_dostr1 .str2
  · exact progress_dostr1 .str2
  · exact progress_dostr1 .zstr2
  · split
    · exact ⟨rfl, rfl⟩
    · exact progress_str2
  · exact progress_str2
  · split
    · rename_i hc
      exact progress_token nofun rfl (Nat.lt_succ_self _) (lt_of_current hc (by decide))
    · split
      · exact progress_number .str1 ‹_›
      · exact progress_dostr1 .str2
  · exact progress_args

end Progress

/-- Between lines. -/
def Lexer.Ready (L : Lexer) : Prop := L.cbuf.length = CBUFSIZE ∧ L.state = .cmd

/-- Every token is a step to the right, so the scanner is through with the line in time. -/
theorem sequence_ends (bad : List Token → Bool) {n : Nat} {L : Lexer} {x : Lexed × Lexer} (hx : Progress L x)
    (hbuf : L.cbuf.length = CBUFSIZE) (hn : CBUFSIZE < n + L.cpos) (tokens : List Token) (recovering : Bool) :
    (sequence bad n x tokens recovering).2.Ready := by
  induction n generalizing L x tokens recovering with
  | zero =>
    obtain ⟨l, L'⟩ := x
    obtain ⟨hlen, hx⟩ := hx
    refine ⟨hlen.trans hbuf, ?_⟩
    cases l with
    | token t =>
      by_cases ht : t = .key .CRLF
      · simp only [if_pos ht] at hx
        exact hx
      · simp only [if_neg ht] at hx
        omega
    | nack => exact hx
    | error => exact hx
  | succ n ih =>
    obtain ⟨l, L'⟩ := x
    obtain ⟨hlen, hx⟩ := hx
    cases l with
    | token t =>
      -- yyerror moves nothing
      have hkeep : ∀ b : Bool, (if b = true then L'.yyerror else L').cbuf.length = CBUFSIZE ∧
          (if b = true then L'.yyerror else L').cpos = L'.cpos ∧ (if b = true then L'.yyerror else L').state = L'.state := by
        intro b
        cases b
        · exact ⟨hlen.trans hbuf, rfl, rfl⟩
        · exact ⟨L'.length_yyerror.trans (hlen.trans hbuf), L'.yyerror_cpos, L'.yyerror_state⟩
      obtain ⟨hlen', hpos, hst⟩ := hkeep (!recovering && bad (tokens ++ [t]))
      simp only [sequence]
      by_cases ht : t = .key .CRLF
      · simp only [if_pos ht] at hx ⊢
        exact ⟨hlen', hst.trans hx⟩
      · simp only [if_neg ht] at hx ⊢
        exact ih progress_yylex hlen' (by rw [hpos]; omega) _ _
    | nack => exact ⟨hlen.trans hbuf, hx⟩
    | error => exact ⟨hlen.trans hbuf, hx⟩

theorem length_endAtCr (cbuf : Str) : (endAtCr cbuf).length = cbuf.length := by
  unfold endAtCr
  split <;> simp

/-- A line leaves the scanner ready for the next one. -/
theorem line_ready (bad : List Token → Bool) {line : Str} {L : Lexer} (hlen : line.length < CBUFSIZE) (h : L.Ready) :
    (L.line bad line).2.Ready := by
  obtain ⟨hbuf, hst⟩ := h
  have hfill : (endAtCr (fill line L.cbuf)).length = CBUFSIZE := by
    rw [length_endAtCr, fill]
    simp only [List.length_append, List.length_cons, List.length_drop]
    omega
  -- the call that reads the line is as one from the front of it
  have hprog : Progress { L with cpos := 0 } (lexCmd line L) := by
    have hcmd : ∀ p ∈ cmdtab, p.token ≠ .CRLF := by decide +kernel
    unfold lexCmd
    simp only
    generalize stopAt (endAtCr (fill line L.cbuf)) 0 L.cpos = q
    have hlen := (length_upperedTo (endAtCr (fill line L.cbuf)) 0 (if q = 0 then 4 else q)).trans (hfill.trans hbuf.symm)
    split
    · rename_i p hp
      split
      · have hpos : 0 < if q = 0 then 4 else q := by split <;> omega
        exact progress_token (fun h => hcmd p (lookup_eq_some hp).1 (Token.key.inj h)) hlen hpos
          (by simp only [hbuf]; simp [CBUFSIZE])
      · exact ⟨hlen, hst⟩
    · exact progress_fail hlen
  exact sequence_ends bad hprog hbuf (by simp [CBUFSIZE]) [] false

end Netutils.Ftpd
