/-
  Netutils.Ftpd.Stream — the control connection as a stream of bytes (ftpd/ftpcmd.y):
  which token sequences telnet_fgets and yylex make of it.

  telnet_fgets hands a line on in pieces of at most 511 bytes, and every piece is lexed as a
  line of its own. Where a piece has neither a blank nor an end before a NUL, the word for
  the command ends where an earlier line has left cpos. So a line gives one token sequence,
  its own, exactly where it fits into the buffer, and either has a blank or an end before
  any NUL or starts with no command at all (`one_command_iff`).
-/

import Netutils.Ftpd.Lines

namespace Netutils.Ftpd

open Netutils.Arpa

/-! ## Reading the stream -/

/-- What telnet_fgets gives call by call, until it returns NULL. -/
def controlLines : Nat → List UInt8 → List Str
  | n + 1, stream =>
    let r := telnetFgets (CBUFSIZE - 1) stream
    if r.1 = [] then [] else r.1 :: controlLines n r.2
  | 0, _ => []

/-- The lines in turn. -/
def lexAll (bad : List Token → Bool) : List Str → Lexer → List Sequence × Lexer
  | [], L => ([], L)
  | line :: lines, L =>
    let r := L.line bad line
    let rs := lexAll bad lines r.2
    (r.1 :: rs.1, rs.2)

/-- The token sequences that a whole connection delivers. -/
def deliveries (bad : List Token → Bool) (stream : List UInt8) : List Sequence :=
  (lexAll bad (controlLines stream.length stream) .init).1

/-! ## Text without TELNET commands -/

/-- The stream is the text, between TELNET commands. -/
inductive Spells : List UInt8 → Str → Prop
  | nil : Spells [] []
  | option {l : List UInt8} {p : Str} (d o : UInt8) (hd : d = WILL ∨ d = WONT ∨ d = DO ∨ d = DONT) (h : Spells l p) :
      Spells (IAC :: d :: o :: l) p
  | command {l : List UInt8} {p : Str} (d : UInt8) (hd : ¬(d = WILL ∨ d = WONT ∨ d = DO ∨ d = DONT)) (hiac : d ≠ IAC)
      (h : Spells l p) : Spells (IAC :: d :: l) p
  | iac {l : List UInt8} {p : Str} (h : Spells l p) : Spells (IAC :: IAC :: l) (IAC :: p)
  | byte {l : List UInt8} {p : Str} (c : UInt8) (hc : c ≠ IAC) (h : Spells l p) : Spells (c :: l) (c :: p)

/-- A text as a stream. -/
def escape (p : Str) : List UInt8 := p.flatMap fun c => if c = IAC then [IAC, IAC] else [c]

/-- The text in pieces as telnet_fgets takes it. -/
def pieces : Nat → Str → List Str
  | n + 1, p =>
    let k := min (CBUFSIZE - 1) (p.idxOf LF + 1)
    if p = [] then [] else p.take k :: pieces n (p.drop k)
  | 0, _ => []

/-! ## The property -/

/-- Lines with their ends, or nothing. -/
def Whole (p : Str) : Prop := p = [] ∨ p.getLast? = some LF

/-- However the line is sent and whatever came before it, it delivers one token sequence, and
    always the same. -/
def OneCommand (bad : List Token → Bool) (line : Str) : Prop :=
  ∃ s, ∀ before raw p, Spells before p → Whole p → Spells raw line →
    deliveries bad (before ++ raw) = deliveries bad before ++ [s]

/-- The line fits into the buffer, and its word for the command ends in it, unless there is
    none to begin with. -/
def Fits (line : Str) : Prop := line.length ≤ CBUFSIZE - 1 ∧ (Settled (text line) ∨ Mute (text line))

/-! ## telnet_fgets -/

section

variable (n : Nat) (l : List UInt8) {c d : UInt8}

theorem telnetFgets_byte (hc : c ≠ IAC) :
    telnetFgets (n + 1) (c :: l) = if c = LF then ([c], l) else (c :: (telnetFgets n l).1, (telnetFgets n l).2) := by
  rcases l with _ | ⟨d, _ | ⟨o, l⟩⟩
  · exact if_neg hc
  · exact if_neg hc
  · exact if_neg hc

theorem telnetFgets_iac :
    telnetFgets (n + 1) (IAC :: IAC :: l) = (IAC :: (telnetFgets n l).1, (telnetFgets n l).2) := by
  cases l with
  | nil => rfl
  | cons o l => rfl

theorem telnetFgets_command (hd : ¬(d = WILL ∨ d = WONT ∨ d = DO ∨ d = DONT)) (hiac : d ≠ IAC) :
    telnetFgets (n + 1) (IAC :: d :: l) = telnetFgets (n + 1) l := by
  cases l with
  | nil => exact (if_neg hd).trans (if_neg hiac)
  | cons o l => exact (if_neg hd).trans (if_neg hiac)

theorem telnetFgets_option (hd : d = WILL ∨ d = WONT ∨ d = DO ∨ d = DONT) (o : UInt8) :
    telnetFgets (n + 1) (IAC :: d :: o :: l) = telnetFgets (n + 1) l :=
  if_pos hd

end

/-! ## Pieces -/

section Spells

variable {raw : List UInt8} {p : Str}

theorem Spells.append {b : List UInt8} {q : Str} (h : Spells raw p) (h' : Spells b q) : Spells (raw ++ b) (p ++ q) := by
  induction h with
  | nil => exact h'
  | option d o hd _ ih => exact .option d o hd ih
  | command d hd hiac _ ih => exact .command d hd hiac ih
  | iac _ ih => exact .iac ih
  | byte c hc _ ih => exact .byte c hc ih

theorem spells_escape (p : Str) : Spells (escape p) p := by
  induction p with
  | nil => exact .nil
  | cons c p ih =>
    rw [escape, List.flatMap_cons]
    split
    · rename_i hc
      subst hc
      exact .iac ih
    · rename_i hc
      exact .byte c hc ih

theorem Spells.length_le (h : Spells raw p) : p.length ≤ raw.length := by
  induction h <;> grind

/-- telnet_fgets takes `n` bytes of the text, or up to the end of the line. -/
def Reads (n : Nat) (raw : List UInt8) (p : Str) : Prop :=
  ∃ raw', telnetFgets n raw = (p.take (min n (p.idxOf LF + 1)), raw') ∧ Spells raw' (p.drop (min n (p.idxOf LF + 1)))

theorem reads_zero (h : Spells raw p) : Reads 0 raw p := ⟨raw, by simp [telnetFgets], by simpa using h⟩

/-- A byte that does not end the line. -/
theorem reads_cons {n : Nat} {l : List UInt8} {c : UInt8} (hc : c ≠ LF) (h : Reads n l p)
    (hraw : telnetFgets (n + 1) raw = (c :: (telnetFgets n l).1, (telnetFgets n l).2)) :
    Reads (n + 1) raw (c :: p) := by
  obtain ⟨raw', hr, hp⟩ := h
  have hk : min (n + 1) ((c :: p).idxOf LF + 1) = min n (p.idxOf LF + 1) + 1 := by
    rw [List.idxOf_cons_ne _ hc]
    omega
  rw [Reads, hk, hraw, hr]
  exact ⟨raw', rfl, hp⟩

theorem Spells.reads (h : Spells raw p) (n : Nat) : Reads n raw p := by
  induction h generalizing n with
  | nil => exact ⟨[], by cases n <;> simp [telnetFgets], by simpa using Spells.nil⟩
  | option d o hd h ih =>
    cases n with
    | zero => exact reads_zero (.option d o hd h)
    | succ n => rw [Reads, telnetFgets_option n _ hd]; exact ih (n + 1)
  | command d hd hiac h ih =>
    cases n with
    | zero => exact reads_zero (.command d hd hiac h)
    | succ n => rw [Reads, telnetFgets_command n _ hd hiac]; exact ih (n + 1)
  | @iac l p h ih =>
    cases n with
    | zero => exact reads_zero (.iac h)
    | succ n => exact reads_cons (by decide) (ih n) (telnetFgets_iac n l)
  | @byte l p c hc h ih =>
    cases n with
    | zero => exact reads_zero (.byte c hc h)
    | succ n =>
      by_cases hlf : c = LF
      · subst hlf
        exact ⟨l, by simp [telnetFgets_byte n l hc], by simpa using h⟩
      · exact reads_cons hlf (ih n) (by rw [telnetFgets_byte n l hc, if_neg hlf])

/-- telnet_fgets takes the text piece by piece. -/
theorem Spells.controlLines (h : Spells raw p) (n : Nat) : controlLines n raw = pieces n p := by
  induction n generalizing raw p with
  | zero => rfl
  | succ n ih =>
    obtain ⟨raw', hr, hp⟩ := h.reads (CBUFSIZE - 1)
    have hnil : p.take (min (CBUFSIZE - 1) (p.idxOf LF + 1)) = [] ↔ p = [] := by
      simp [List.take_eq_nil_iff, CBUFSIZE]
    simp only [Netutils.Ftpd.controlLines, pieces, hr, hnil, ih hp]

end Spells

theorem pieces_enough {n m : Nat} {p : Str} (hn : p.length ≤ n) (hm : p.length ≤ m) : pieces n p = pieces m p := by
  induction n generalizing p m with
  | zero =>
    obtain rfl := List.eq_nil_of_length_eq_zero (Nat.le_zero.mp hn)
    cases m <;> simp [pieces]
  | succ n ih =>
    cases m with
    | zero =>
      obtain rfl := List.eq_nil_of_length_eq_zero (Nat.le_zero.mp hm)
      simp [pieces]
    | succ m =>
      simp only [pieces]
      split
      · rfl
      · rename_i hp
        have := List.length_pos_of_ne_nil hp
        have hk : 0 < min (CBUFSIZE - 1) (p.idxOf LF + 1) := by simp [CBUFSIZE]
        rw [ih (m := m) (by simp; omega) (by simp; omega)]

theorem getLast?_drop {p : Str} {k : Nat} (h : p.getLast? = some LF) : Whole (p.drop k) := by
  by_cases hk : k < p.length
  · exact .inr (by rw [List.getLast?_drop, if_neg (by omega), h])
  · exact .inl (List.drop_eq_nil_of_le (by omega))

/-- Pieces do not reach over the end of a line. -/
theorem pieces_append {p : Str} (hp : Whole p) (q : Str) {n m k : Nat} (hn : (p ++ q).length ≤ n)
    (hm : p.length ≤ m) (hk : q.length ≤ k) : pieces n (p ++ q) = pieces m p ++ pieces k q := by
  induction m generalizing p n with
  | zero =>
    obtain rfl := List.eq_nil_of_length_eq_zero (Nat.le_zero.mp hm)
    exact pieces_enough hn hk
  | succ m ih =>
    rcases hp with rfl | hp
    · exact pieces_enough hn hk
    · have hlf : LF ∈ p := List.mem_of_getLast? hp
      have hne : p ≠ [] := List.ne_nil_of_mem hlf
      have hlen := List.length_pos_of_mem hlf
      simp only [List.length_append] at hn
      cases n with
      | zero => omega
      | succ n =>
        have hidx : (p ++ q).idxOf LF = p.idxOf LF := List.idxOf_append_of_mem hlf
        have hle : min (CBUFSIZE - 1) (p.idxOf LF + 1) ≤ p.length := by
          have := List.idxOf_lt_length_of_mem hlf
          omega
        have hpos : 0 < min (CBUFSIZE - 1) (p.idxOf LF + 1) := by simp [CBUFSIZE]
        simp only [pieces, hidx, List.append_eq_nil_iff, hne, false_and, if_false]
        rw [List.take_append_of_le_length hle, List.drop_append_of_le_length hle, List.cons_append,
          ih (getLast?_drop hp) (by simp; omega) (by simp; omega)]

/-- What ends a line, and is nowhere else in it. -/
def IsLine (line : Str) : Prop := ∃ body, line = body ++ [LF] ∧ LF ∉ body

theorem pieces_of_fitting {line : Str} (h : IsLine line) (hlen : line.length ≤ CBUFSIZE - 1) {n : Nat}
    (hn : line.length ≤ n) : pieces n line = [line] := by
  obtain ⟨body, rfl, hbody⟩ := h
  have hidx : (body ++ [LF]).idxOf LF = body.length := by rw [List.idxOf_append_of_notMem hbody]; simp
  simp only [List.length_append, List.length_singleton] at hlen hn
  cases n with
  | zero => omega
  | succ n =>
    have hk : min (CBUFSIZE - 1) (body.length + 1) = (body ++ [LF]).length := by simp; omega
    simp only [pieces, hidx, hk, List.take_length, List.drop_length]
    rw [if_neg (by simp)]
    cases n <;> simp [pieces]

/-- A line that is too long comes in two pieces or more. -/
theorem pieces_of_long {line : Str} (hlen : CBUFSIZE - 1 < line.length) :
    ∃ a b rest, pieces line.length line = a :: b :: rest := by
  obtain ⟨n, hn⟩ : ∃ n, line.length = n + 2 := ⟨line.length - 2, by simp [CBUFSIZE] at hlen; omega⟩
  have hne : line ≠ [] := List.ne_nil_of_length_pos (by omega)
  have hrest : line.drop (min (CBUFSIZE - 1) (line.idxOf LF + 1)) ≠ [] := by
    intro h
    have := List.drop_eq_nil_iff.mp h
    omega
  rw [hn]
  simp only [pieces, hne, hrest, if_false]
  exact ⟨_, _, _, rfl⟩

/-! ## Deliveries -/

section Deliveries

variable (bad : List Token → Bool)

theorem lexAll_append (a b : List Str) (L : Lexer) :
    (lexAll bad (a ++ b) L).1 = (lexAll bad a L).1 ++ (lexAll bad b (lexAll bad a L).2).1 := by
  induction a generalizing L with
  | nil => rfl
  | cons line a ih => simp [lexAll, ih]

theorem length_lexAll (lines : List Str) (L : Lexer) : (lexAll bad lines L).1.length = lines.length := by
  induction lines generalizing L with
  | nil => rfl
  | cons line lines ih => simp [lexAll, ih]

/-- The lexer after a stream. -/
def after (stream : List UInt8) : Lexer := (lexAll bad (controlLines stream.length stream) .init).2

theorem deliveries_append {before raw : List UInt8} {p line : Str} (hp : Spells before p) (hw : Whole p)
    (h : Spells raw line) : deliveries bad (before ++ raw) =
      deliveries bad before ++ (lexAll bad (pieces line.length line) (after bad before)).1 := by
  have hlen := (hp.append h).length_le
  rw [deliveries, deliveries, after, (hp.append h).controlLines, hp.controlLines,
    pieces_append hw line hlen hp.length_le (Nat.le_refl _), lexAll_append]

/-- A line that fits delivers what the scanner makes of it. -/
theorem deliveries_fitting {before raw : List UInt8} {p line : Str} (hp : Spells before p) (hw : Whole p)
    (h : Spells raw line) (hline : IsLine line) (hlen : line.length ≤ CBUFSIZE - 1) :
    deliveries bad (before ++ raw) = deliveries bad before ++ [((after bad before).line bad line).1] := by
  rw [deliveries_append bad hp hw h, pieces_of_fitting hline hlen (Nat.le_refl _)]
  rfl

theorem tokens_sequence (n : Nat) (x : Lexed × Lexer) (tokens : List Token) (recovering : Bool) :
    tokens <+: (sequence bad n x tokens recovering).1.tokens := by
  induction n generalizing x tokens recovering with
  | zero => obtain ⟨l, L⟩ := x; exact List.prefix_refl _
  | succ n ih =>
    obtain ⟨l, L⟩ := x
    cases l with
    | token t =>
      simp only [sequence]
      split
      · exact List.prefix_append _ _
      · exact (List.prefix_append _ _).trans (ih _ _ _)
    | nack => exact List.prefix_refl _
    | error => exact List.prefix_refl _

theorem tokens_sequence_ne_nil (n : Nat) (t : Token) (L : Lexer) : (sequence bad (n + 1) (.token t, L) [] false).1.tokens ≠ [] := by
  have hpre : ∀ x recovering, (sequence bad n x [t] recovering).1.tokens ≠ [] := by
    intro x recovering hnil
    have := tokens_sequence bad n x [t] recovering
    rw [hnil] at this
    exact absurd (List.prefix_nil.mp this) (List.cons_ne_nil _ _)
  simp only [sequence, List.nil_append]
  split
  · exact List.cons_ne_nil _ _
  · exact hpre _ _

/-! ## Lines without an end -/

/-- `k` letters that are no command. -/
def xs (k : Nat) : Str := List.replicate k 0x78 ++ [LF]

theorem text_xs (k : Nat) : text (xs k) = xs k := by
  have h0 : (0 : UInt8) ∉ xs k := by simp [xs, List.mem_replicate]; decide
  have hcr : CR ∉ xs k := by simp [xs, List.mem_replicate, show CR ≠ 0x78 by decide]
  have hself : (xs k).takeWhile (· ≠ 0) = xs k :=
    List.takeWhile_eq_self_iff.mpr fun c hc => by simpa using fun hz : c = 0 => h0 (hz ▸ hc)
  rw [text, hself]
  exact if_neg hcr

theorem xs_word (k : Nat) : (xs k).takeWhile (fun c => !isStop c) = List.replicate k 0x78 := by
  rw [xs, List.takeWhile_append_of_pos]
  · simp [show isStop LF = true by decide]
  · intro c hc
    obtain rfl := (List.mem_replicate.mp hc).2
    decide

theorem lookup_xs (k : Nat) : lookup cmdtab (upper (List.replicate k 0x78)) = none := by
  have hnames : ∀ p ∈ cmdtab, ∃ c ∈ p.name, c ≠ 0x58 := by decide +kernel
  rw [lookup, List.find?_eq_none]
  intro p hp hname
  obtain ⟨c, hc, hne⟩ := hnames p hp
  rw [← of_decide_eq_true hname] at hc
  simp only [upper, List.map_replicate, List.mem_replicate] at hc
  exact hne hc.2

/-- They leave cpos behind them. -/
theorem cpos_xs {k : Nat} (hk : 0 < k) (L : Lexer) : (L.line bad (xs k)).2.cpos = k := by
  obtain ⟨junk, hbuf⟩ := endAtCr_fill (xs k) L.cbuf
  have hs : Settled (xs k) := ⟨LF, by simp [xs], by decide⟩
  have hstr : strAt (endAtCr (fill (xs k) L.cbuf)) 0 = xs k := by
    rw [hbuf, strAt_zero (zero_notMem_text _), text_xs]
  have hstop := stopAt_settled L.cpos hstr hs
  rw [xs_word, List.length_replicate, Nat.zero_add] at hstop
  have hword : wordTo (endAtCr (fill (xs k) L.cbuf)) 0 k = upper (List.replicate k 0x78) := by
    rw [hbuf, wordTo_text junk (zero_notMem_text _), text_xs]
    simp [xs]
  have hlex : ∃ L', lexCmd (xs k) L = Lexer.fail L' ∧ L'.cpos = k := by
    unfold lexCmd
    simp only [hstop, if_neg (show ¬ k = 0 by omega), hword, lookup_xs k]
    exact ⟨_, rfl, rfl⟩
  obtain ⟨L', hlex, hpos⟩ := hlex
  rw [Lexer.line, hlex]
  show L'.yyerror.cpos = k
  unfold Lexer.yyerror
  split <;> exact hpos

/-- Where cpos is left, there the word of such a line ends. -/
theorem line_of_loose {line : Str} {L : Lexer} (h : ¬ Settled (text line)) (hpos : L.cpos ≠ 0) :
    (L.line bad line).1.tokens ≠ [] ↔ ∃ p, lookup cmdtab (upper ((text line).take L.cpos)) = some p ∧ p.implemented = true := by
  have hcmd := lexCmd_of_loose (L := L) h
  simp only [if_neg hpos] at hcmd
  unfold Lexer.line
  generalize hx : lexCmd line L = x at hcmd
  obtain ⟨l, L'⟩ := x
  cases hl : lookup cmdtab (upper ((text line).take L.cpos)) with
  | none =>
    simp only [hl] at hcmd
    subst hcmd
    simp [sequence]
  | some p =>
    simp only [hl] at hcmd
    subst hcmd
    by_cases hi : p.implemented = true
    · simp only [hi, if_true]
      exact ⟨fun _ => ⟨p, rfl, hi⟩, fun _ => tokens_sequence_ne_nil bad _ _ _⟩
    · simp [hi, sequence]

end Deliveries

/-! ## One control line, one command -/

theorem isLine_xs (k : Nat) : IsLine (xs k) := ⟨_, rfl, by simp [List.mem_replicate, show LF ≠ 0x78 by decide]⟩

theorem cpos_after_xs (bad : List Token → Bool) {k : Nat} (hk : 0 < k) (hk' : k < 5) :
    (after bad (escape (xs k))).cpos = k := by
  have hp := pieces_of_fitting (isLine_xs k) (by simp [xs, CBUFSIZE]; omega) (spells_escape (xs k)).length_le
  rw [after, (spells_escape _).controlLines, hp]
  exact cpos_xs bad hk _

theorem not_oneCommand_of_long (bad : List Token → Bool) {line : Str} (h : CBUFSIZE - 1 < line.length) :
    ¬ OneCommand bad line := by
  intro h
  obtain ⟨s, hs⟩ := h
  obtain ⟨a, b, rest, hpieces⟩ := pieces_of_long h
  have := hs [] (escape line) [] .nil (.inl rfl) (spells_escape line)
  rw [deliveries_append bad .nil (.inl rfl) (spells_escape line), hpieces] at this
  have := congrArg List.length this
  simp only [List.length_append, length_lexAll, List.length_cons, List.length_nil] at this
  omega

/-- The beginning that is a command is looked up after one line, and not after another. -/
theorem not_oneCommand_of_loose (bad : List Token → Bool) {line : Str} (hline : IsLine line)
    (hlen : line.length ≤ CBUFSIZE - 1) (hs : ¬ Settled (text line)) (hm : ¬ Mute (text line)) : ¬ OneCommand bad line := by
  intro h
  obtain ⟨s, hone⟩ := h
  have hs' : ∀ k, 0 < k → k < 5 → s = ((after bad (escape (xs k))).line bad line).1 := by
    intro k hk hk'
    have hw : Whole (xs k) := .inr (by simp [xs])
    have := hone _ _ _ (spells_escape (xs k)) hw (spells_escape line)
    rw [deliveries_fitting bad (spells_escape _) hw (spells_escape line) hline hlen] at this
    simpa using (List.append_cancel_left this).symm
  have hnames : ∀ p ∈ cmdtab, 1 < p.name.length ∧ p.name.length < 5 := by decide +kernel
  obtain ⟨q, p, hp, hi⟩ : ∃ q p, lookup cmdtab (upper ((text line).take q)) = some p ∧ p.implemented = true := by
    simpa [Mute] using hm
  obtain ⟨hmem, hname⟩ := lookup_eq_some hp
  have hk := hnames p hmem
  have htake : (text line).take p.name.length = (text line).take q := by
    rw [hname, upper, List.length_map, List.length_take]
    exact List.take_eq_take_min.symm
  have hsome := (line_of_loose bad (L := after bad (escape (xs p.name.length))) hs
    (by rw [cpos_after_xs bad (by omega) hk.2]; omega)).mpr (by rw [cpos_after_xs bad (by omega) hk.2, htake]; exact ⟨p, hp, hi⟩)
  have hnone := mt (line_of_loose bad (L := after bad (escape (xs 1))) hs
    (by rw [cpos_after_xs bad (by omega) (by omega)]; omega)).mp (by
      rw [cpos_after_xs bad (by omega) (by omega)]
      intro h
      obtain ⟨p, hp, -⟩ := h
      obtain ⟨hmem, hname⟩ := lookup_eq_some hp
      have := (hnames p hmem).1
      rw [hname, upper, List.length_map, List.length_take] at this
      omega)
  rw [← hs' _ (by omega) hk.2] at hsome
  rw [← hs' 1 (by omega) (by omega)] at hnone
  exact hnone hsome

/-- A line of the control connection delivers one token sequence, the same wherever it comes
    and however it is sent, exactly when it fits. -/
theorem one_command_iff (bad : List Token → Bool) {line : Str} (hline : IsLine line) :
    OneCommand bad line ↔ Fits line := by
  constructor
  · intro h
    by_contra hfits
    by_cases hlen : line.length ≤ CBUFSIZE - 1
    · have hloose : ¬(Settled (text line) ∨ Mute (text line)) := fun hor => hfits ⟨hlen, hor⟩
      exact not_oneCommand_of_loose bad hline hlen (fun hs => hloose (.inl hs)) (fun hm => hloose (.inr hm)) h
    · exact not_oneCommand_of_long bad (by omega) h
  · intro h
    obtain ⟨hlen, hword⟩ := h
    have hlf : LF ∉ line.dropLast := by
      obtain ⟨body, rfl, hbody⟩ := hline
      simpa using hbody
    by_cases hs : Settled (text line)
    · refine ⟨tokenize bad (text line), fun before raw p hp hw hraw => ?_⟩
      rw [deliveries_fitting bad hp hw hraw hline hlen, line_of_settled bad hlf hs]
    · refine ⟨⟨[], .jump⟩, fun before raw p hp hw hraw => ?_⟩
      rw [deliveries_fitting bad hp hw hraw hline hlen, line_of_mute bad hs (hword.resolve_left hs)]

theorem one_command_noop : OneCommand syntaxError (ascii ['N', 'O', 'O', 'P'] ++ [CR, LF]) :=
  (@one_command_iff syntaxError (ascii ['N', 'O', 'O', 'P'] ++ [CR, LF]) ⟨ascii ['N', 'O', 'O', 'P'] ++ [CR], rfl, by decide⟩).mpr
    ⟨by decide, .inl (by decide)⟩

/-- NOOP in the first piece of a line, QUIT in the second. -/
def noopQuit : Str :=
  ascii ['N', 'O', 'O', 'P'] ++ [CR] ++ List.replicate 506 0x78 ++ ascii ['Q', 'U', 'I', 'T'] ++ [CR, LF]

/-- PWD, then a NUL. -/
def pwdNul : Str := ascii ['P', 'W', 'D'] ++ [0, LF]

/-- A line that is two commands, and one that is a command or none. -/
theorem line_is_two_commands_or_an_earlier_one_decides :
    (deliveries syntaxError noopQuit =
        [⟨[.key .NOOP, .key .CRLF], .crlf false⟩, ⟨[.key .QUIT, .key .CRLF], .crlf false⟩] ∧
      ¬ OneCommand syntaxError noopQuit) ∧
    (deliveries syntaxError (ascii ['A', 'C', 'C', 'T'] ++ [LF] ++ pwdNul) =
        [⟨[], .jump⟩, ⟨[.key .PWD, .key .CRLF], .crlf false⟩] ∧
      deliveries syntaxError (ascii ['A'] ++ [LF] ++ pwdNul) = [⟨[], .jump⟩, ⟨[], .jump⟩] ∧
      ¬ OneCommand syntaxError pwdNul) := by
  refine ⟨⟨by decide +kernel, not_oneCommand_of_long _ (by decide +kernel)⟩, by decide +kernel, by decide +kernel, ?_⟩
  refine not_oneCommand_of_loose _ ⟨ascii ['P', 'W', 'D'] ++ [0], rfl, by decide⟩ (by decide) (by decide) ?_
  intro hm
  exact absurd (hm 3 ⟨ascii ['P', 'W', 'D'], .PWD, .args, true⟩ (by decide +kernel)) nofun

end Netutils.Ftpd
