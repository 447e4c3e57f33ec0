/-
  Netutils.Ifconfig.Join — what fh_join puts between its arguments (ifconfig/printif.c).

  A delimiter is put in front of an argument if the one before it has left had_output set,
  whether or not the argument prints anything; and had_output is not looked at behind the last
  one. `joinLog` is the loop with an account of what each argument has written and what it has
  left in had_output, and by this account `join_iff` tells where the delimiters are right, and
  where had_output is.
-/

import Netutils.Ifconfig.Growth
import Netutils.Ifconfig.PrintifBounds

namespace Netutils.Ifconfig

open Netutils.Lib.Faults Netutils.Libc

/-! ## The loop with an account -/

/-- What an argument has written to the streams, and had_output behind it. -/
structure Ran where
  out : Str
  err : Str
  had : Bool
  deriving DecidableEq

def ran (o o' : Out) : Ran := ⟨o'.stdout.drop o.stdout.length, o'.stderr.drop o.stderr.length, o'.had_output⟩

def Ran.prints (r : Ran) : Bool := !(r.out.isEmpty && r.err.isEmpty)

/-- What an argument is run on: behind a delimiter, if one is due. -/
def before (delimiter : Str) (o : Out) : Out :=
  if o.had_output then { putString delimiter o with had_output := false } else o

/-- joinLoop, with what it has run. -/
def joinLog (print : Print) (delimiter : Str) : List Str → Bool → Out → Except Stop (List Ran × Out)
  | [], saved, o => .ok ([], { o with had_output := saved })
  | arg :: rest, saved, o => do
    let after ← print arg (before delimiter o)
    let (log, o') ← joinLog print delimiter rest (saved || o.had_output) after
    .ok (ran (before delimiter o) after :: log, o')

inductive Piece where
  | delimiter
  | argument (out err : Str)
  deriving DecidableEq

def Ran.piece (r : Ran) : Piece := .argument r.out r.err

/-- What is put, in its order; `put` if a delimiter is due where an argument comes. -/
def pieces : Bool → List Ran → List Piece
  | _, [] => []
  | put, r :: log => (if put then [.delimiter] else []) ++ r.piece :: pieces r.had log

/-- The bytes of a piece that go to this stream; delimiters go to ostream. -/
def Piece.onto (delimiter : Str) (ostream stream : Stream) : Piece → Str
  | .delimiter => if ostream = stream then delimiter else []
  | .argument out err =>
    match stream with
    | .stdout => out
    | .stderr => err

def Piece.shows (delimiter : Str) : Piece → Bool
  | .delimiter => !delimiter.isEmpty
  | .argument out err => !(out.isEmpty && err.isEmpty)

/-! ## What it is to put -/

/-- What can be seen is the arguments that print anything, with a delimiter between them. -/
def Separates (delimiter : Str) (log : List Ran) : Prop :=
  (pieces false log).filter (Piece.shows delimiter) =
    (((log.filter Ran.prints).map Ran.piece).intersperse .delimiter).filter (Piece.shows delimiter)

instance (delimiter : Str) (log : List Ran) : Decidable (Separates delimiter log) := inferInstanceAs (Decidable (_ = _))

/-- In front of each argument that prints, as many have left had_output set as have printed; and
    of all but the last one, one less has left it set than there are that print. -/
def Due (log : List Ran) : Prop :=
  (∀ l r l', log = l ++ r :: l' → r.prints = true → l.countP Ran.had = l.countP Ran.prints) ∧
  log.dropLast.countP Ran.had = log.countP Ran.prints - 1

/-! ## The account -/

variable {print : Print} {delimiter : Str} {o o' : Out} {log : List Ran} {r : Ran} {saved : Bool} {args : List Str}

/-- The account is of the same loop. -/
theorem joinLog_snd (print : Print) (delimiter : Str) (args : List Str) (saved : Bool) (o : Out) :
    Prod.snd <$> joinLog print delimiter args saved o = joinLoop print delimiter args saved o := by
  induction args generalizing saved o with
  | nil => rfl
  | cons arg rest ih =>
    rw [joinLoop, joinLog, before]
    cases hhad : o.had_output with
    | true =>
      simp only [if_true, Bool.or_true]
      cases print arg { putString delimiter o with had_output := false } with
      | error e => rfl
      | ok after =>
        simp only [bind, Except.bind]
        rw [← ih]
        cases joinLog print delimiter rest true after <;> rfl
    | false =>
      simp only [Bool.false_eq_true, if_false, Bool.or_false]
      cases print arg o with
      | error e => rfl
      | ok after =>
        simp only [bind, Except.bind]
        rw [← ih]
        cases joinLog print delimiter rest saved after <;> rfl

theorem fhJoin_eq (print : Print) (n : Nat) (delimiter : Str) (args : List Str) (o : Out) :
    fhJoin print n (delimiter :: args) o = Prod.snd <$> joinLog print delimiter args o.had_output { o with had_output := false } := by
  cases args with
  | nil => rfl
  | cons arg rest =>
    rw [joinLog_snd]
    rfl

theorem stdout_putString (s : Str) (o : Out) :
    (putString s o).stdout = o.stdout ++ (if o.ostream = .stdout then s else []) ∧
    (putString s o).stderr = o.stderr ++ (if o.ostream = .stderr then s else []) := by
  induction s generalizing o with
  | nil => simp [putString]
  | cons c s ih =>
    obtain ⟨hout, herr⟩ := ih (putChar c o)
    have hstream : (putChar c o).ostream = o.ostream := (grows_putChar c o).ostream
    rw [hstream] at hout herr
    show (putString s (putChar c o)).stdout = _ ∧ (putString s (putChar c o)).stderr = _
    rw [hout, herr]
    cases h : o.ostream <;> simp [putChar, Out.setColumn, Out.putc, h]

theorem before_ostream (delimiter : Str) (o : Out) : (before delimiter o).ostream = o.ostream := by
  unfold before
  split
  · exact (grows_putString delimiter o).ostream
  · rfl

theorem before_streams (delimiter : Str) (o : Out) :
    (before delimiter o).stdout = o.stdout ++ (if o.had_output then Piece.delimiter.onto delimiter o.ostream .stdout else []) ∧
    (before delimiter o).stderr = o.stderr ++ (if o.had_output then Piece.delimiter.onto delimiter o.ostream .stderr else []) := by
  unfold before
  split
  · exact stdout_putString delimiter o
  · simp

theorem joinLog_cons {arg : Str} {rest : List Str} (h : joinLog print delimiter (arg :: rest) saved o = .ok (log, o')) :
    ∃ after log', print arg (before delimiter o) = .ok after ∧ log = ran (before delimiter o) after :: log' ∧
      joinLog print delimiter rest (saved || o.had_output) after = .ok (log', o') := by
  rw [joinLog] at h
  cases hafter : print arg (before delimiter o) with
  | error e =>
    rw [hafter] at h
    cases h
  | ok after =>
    rw [hafter] at h
    simp only [bind, Except.bind] at h
    cases hrest : joinLog print delimiter rest (saved || o.had_output) after with
    | error e =>
      rw [hrest] at h
      cases h
    | ok x =>
      rw [hrest] at h
      obtain ⟨log', o''⟩ := x
      cases h
      exact ⟨after, log', rfl, rfl, hrest⟩

/-- What an argument adds. -/
theorem ran_streams (h : Grows o o') : o'.stdout = o.stdout ++ (ran o o').out ∧ o'.stderr = o.stderr ++ (ran o o').err := by
  obtain ⟨out, hout⟩ := h.stdout
  obtain ⟨err, herr⟩ := h.stderr
  simp [ran, ← hout, ← herr]

/-- The loop puts the pieces, and leaves had_output set if an argument before the last has. -/
structure Accounts (delimiter : Str) (saved : Bool) (o : Out) (log : List Ran) (o' : Out) : Prop where
  stdout : o'.stdout = o.stdout ++ (pieces o.had_output log).flatMap (Piece.onto delimiter o.ostream .stdout)
  stderr : o'.stderr = o.stderr ++ (pieces o.had_output log).flatMap (Piece.onto delimiter o.ostream .stderr)
  had_output : o'.had_output = (saved || !log.isEmpty && o.had_output || log.dropLast.any Ran.had)

theorem accounts (hprint : ∀ s o, Grown o (print s o)) (h : joinLog print delimiter args saved o = .ok (log, o')) :
    Accounts delimiter saved o log o' := by
  induction args generalizing saved o log with
  | nil =>
    cases h
    exact ⟨by simp [pieces], by simp [pieces], by simp⟩
  | cons arg rest ih =>
    obtain ⟨after, log', hafter, rfl, hrest⟩ := joinLog_cons h
    have hgrows : Grows (before delimiter o) after := by
      have := hprint arg (before delimiter o)
      rwa [hafter] at this
    have hlater := ih hrest
    obtain ⟨hout, herr⟩ := before_streams delimiter o
    obtain ⟨hout', herr'⟩ := ran_streams hgrows
    have hstream : after.ostream = o.ostream := hgrows.ostream.trans (before_ostream delimiter o)
    have hhad : after.had_output = (ran (before delimiter o) after).had := rfl
    refine ⟨?_, ?_, ?_⟩
    · rw [hlater.stdout, hout', hout, hstream, hhad, pieces]
      cases o.had_output <;> simp [Ran.piece, Piece.onto]
    · rw [hlater.stderr, herr', herr, hstream, hhad, pieces]
      cases o.had_output <;> simp [Ran.piece, Piece.onto]
    · rw [hlater.had_output, hhad]
      cases log' <;> simp [Bool.or_assoc]

/-! ## Where it separates -/

/-- What can be seen of the rest, where a delimiter is seen. -/
def seen (put : Bool) (log : List Ran) : List Piece := (pieces put log).filter fun
  | .delimiter => true
  | .argument out err => !(out.isEmpty && err.isEmpty)

/-- The arguments that print with the delimiters between them, and before them if one has printed. -/
def separated (printed : Bool) (log : List Ran) : List Piece :=
  (if printed ∧ ∃ r ∈ log, r.prints = true then [.delimiter] else []) ++
    ((log.filter Ran.prints).map Ran.piece).intersperse .delimiter

/-- `Due`, where so many delimiters are put, and one is due if something has printed. -/
def Owed (put : Nat) (printed : Bool) (log : List Ran) : Prop :=
  (∀ l r l', log = l ++ r :: l' → r.prints = true → put + l.countP Ran.had = printed.toNat + l.countP Ran.prints) ∧
  put + log.dropLast.countP Ran.had = printed.toNat + log.countP Ran.prints - 1

/-- Whether a delimiter comes behind an argument. -/
def Ran.puts (r : Ran) (log : List Ran) : Nat := if r.had ∧ log ≠ [] then 1 else 0

theorem seen_cons (r : Ran) (log : List Ran) :
    seen false (r :: log) = (if r.prints then [r.piece] else []) ++ (List.replicate (r.puts log) .delimiter ++ seen false log) := by
  have hput : ∀ put, seen put log = (if put ∧ log ≠ [] then [.delimiter] else []) ++ seen false log := by
    intro put
    cases put <;> cases log <;> simp [seen, pieces]
  have hrest : seen r.had log = List.replicate (r.puts log) .delimiter ++ seen false log := by
    rw [hput, Ran.puts]
    split <;> rfl
  rw [← hrest]
  cases hp : r.prints <;> simp_all [seen, pieces, Ran.piece, Ran.prints]

theorem separated_cons (printed : Bool) (r : Ran) (log : List Ran) : separated printed (r :: log) =
    if r.prints then List.replicate printed.toNat .delimiter ++ r.piece :: separated true log else separated printed log := by
  cases hp : r.prints with
  | false => simp [separated, hp]
  | true =>
    have hsome : (∃ r' ∈ log, r'.prints = true) ↔ log.filter Ran.prints ≠ [] := by simp [List.filter_eq_nil_iff]
    simp only [separated, List.filter_cons_of_pos hp, List.map_cons, if_true, hsome]
    cases log.filter Ran.prints <;> cases printed <;> simp [hp]

theorem owed_nil (put : Nat) (printed : Bool) : Owed put printed [] ↔ put = 0 := by
  cases printed <;> simp [Owed]

theorem owed_cons (put : Nat) (printed : Bool) (r : Ran) (log : List Ran) : Owed put printed (r :: log) ↔
    if r.prints then put = printed.toNat ∧ Owed (r.puts log) true log else Owed (put + r.puts log) printed log := by
  have hsplits : ∀ P : List Ran → Ran → Prop, (∀ l r' l', r :: log = l ++ r' :: l' → P l r') ↔
      P [] r ∧ ∀ l r' l', log = l ++ r' :: l' → P (r :: l) r' := by
    intro P
    constructor
    · exact fun h => ⟨h [] r log rfl, fun l r' l' hl => h (r :: l) r' l' (by rw [hl, List.cons_append])⟩
    · rintro ⟨hr, h⟩ l r' l' hl
      cases l with
      | nil =>
        obtain ⟨rfl, -⟩ := List.cons.inj hl
        exact hr
      | cons s l =>
        obtain ⟨rfl, hl'⟩ := List.cons.inj hl
        exact h l r' l' hl'
  rw [Owed, hsplits fun l r' => r'.prints = true → put + l.countP Ran.had = printed.toNat + l.countP Ran.prints]
  have hlast : (r :: log).dropLast.countP Ran.had = r.puts log + log.dropLast.countP Ran.had := by
    cases log with
    | nil => simp [Ran.puts]
    | cons s log => cases hhad : r.had <;> simp [Ran.puts, hhad, Nat.add_comm]
  have hfirst : ∀ l r' l', log = l ++ r' :: l' → (r :: l).countP Ran.had = r.puts log + l.countP Ran.had := by
    rintro l r' l' rfl
    cases hhad : r.had <;> simp [Ran.puts, hhad, Nat.add_comm]
  rw [hlast]
  cases hp : r.prints with
  | false =>
    simp only [hp, Bool.false_eq_true, if_false, false_imp_iff, true_and, Owed, List.countP_cons_of_neg, not_false_eq_true, Nat.add_assoc]
    apply and_congr_left'
    constructor
    · intro h l r' l' hl hr'
      rw [← hfirst l r' l' hl]
      exact h l r' l' hl hr'
    · intro h l r' l' hl hr'
      rw [hfirst l r' l' hl]
      exact h l r' l' hl hr'
  | true =>
    simp only [hp, if_true, true_imp_iff, List.countP_nil, Nat.add_zero, Owed, List.countP_cons_of_pos]
    constructor
    · rintro ⟨⟨rfl, h⟩, hall⟩
      refine ⟨rfl, fun l r' l' hl hr' => ?_, ?_⟩
      · have := h l r' l' hl hr'
        rw [hfirst l r' l' hl] at this
        simp only [Bool.toNat_true]
        omega
      · simp only [Bool.toNat_true]
        omega
    · rintro ⟨rfl, h, hall⟩
      simp only [Bool.toNat_true] at h hall
      refine ⟨⟨rfl, fun l r' l' hl hr' => ?_⟩, by omega⟩
      rw [hfirst l r' l' hl]
      have := h l r' l' hl hr'
      omega

theorem replicate_piece {put k : Nat} {p : Piece} {l l' : List Piece} (hp : p ≠ .delimiter) :
    List.replicate put .delimiter ++ p :: l = List.replicate k .delimiter ++ p :: l' ↔ put = k ∧ l = l' := by
  induction put generalizing k with
  | zero => cases k <;> simp [List.replicate_succ, hp]
  | succ put ih => cases k <;> simp [List.replicate_succ, Ne.symm hp, ih]

theorem seen_iff (put : Nat) (printed : Bool) (log : List Ran) :
    List.replicate put .delimiter ++ seen false log = separated printed log ↔ Owed put printed log := by
  induction log generalizing put printed with
  | nil => simp [seen, pieces, separated, owed_nil]
  | cons r log ih =>
    rw [seen_cons, separated_cons, owed_cons]
    cases r.prints with
    | false =>
      rw [if_neg Bool.false_ne_true, if_neg Bool.false_ne_true, if_neg Bool.false_ne_true, List.nil_append, ← List.append_assoc,
        List.replicate_append_replicate]
      exact ih ..
    | true =>
      rw [if_pos rfl, if_pos rfl, if_pos rfl, List.singleton_append, replicate_piece Piece.noConfusion]
      exact and_congr_right' (ih ..)

theorem filter_shows (hd : delimiter ≠ []) (l : List Piece) : l.filter (Piece.shows delimiter) = l.filter fun
    | .delimiter => true
    | .argument out err => !(out.isEmpty && err.isEmpty) := by
  apply List.filter_congr
  intro p _
  cases p with
  | delimiter => simp [Piece.shows, hd]
  | argument out err => rfl

theorem filter_intersperse_neg {α : Type} {p : α → Bool} {sep : α} (h : p sep = false) (l : List α) :
    (l.intersperse sep).filter p = l.filter p := by
  fun_induction List.intersperse sep l with simp_all [List.filter_cons]

theorem filter_intersperse_pos {α : Type} {p : α → Bool} {sep : α} (h : p sep = true) {l : List α} (hl : ∀ a ∈ l, p a = true) :
    (l.intersperse sep).filter p = l.intersperse sep := by
  fun_induction List.intersperse sep l with simp_all

/-- Without a delimiter there is nothing between the arguments. -/
theorem filter_pieces (put : Bool) (log : List Ran) :
    (pieces put log).filter (Piece.shows []) = (log.filter Ran.prints).map Ran.piece := by
  induction log generalizing put with
  | nil => rfl
  | cons r log ih =>
    have hrest := ih r.had
    cases put <;> cases hp : r.prints <;> simp_all [pieces, Piece.shows, Ran.piece, Ran.prints]

theorem separates_iff (log : List Ran) : Separates delimiter log ↔ delimiter = [] ∨ Due log := by
  have hpieces : ∀ a ∈ (log.filter Ran.prints).map Ran.piece, a.shows delimiter = true := by
    simp only [List.forall_mem_map, List.mem_filter]
    exact fun r hr => hr.2
  unfold Separates
  by_cases hd : delimiter = []
  · subst hd
    rw [filter_pieces, filter_intersperse_neg rfl, List.filter_eq_self.mpr hpieces]
    simp
  · have hshown : Piece.delimiter.shows delimiter = true := by simp [Piece.shows, hd]
    have hdue : Owed 0 false log ↔ Due log := by simp [Owed, Due]
    rw [filter_shows hd, filter_intersperse_pos hshown hpieces, ← hdue, ← seen_iff, or_iff_right hd]
    simp [seen, separated]

/-- Where what prints sets had_output, and nothing else, the last argument is the one that counts. -/
theorem due_iff_last (h : ∀ r ∈ log, r.had = r.prints) :
    Due log ↔ (∀ r ∈ log, r.prints = false) ∨ ∃ r ∈ log.getLast?, r.prints = true := by
  have hcount : ∀ l : List Ran, (∀ r ∈ l, r ∈ log) → l.countP Ran.had = l.countP Ran.prints := by
    intro l hl
    exact List.countP_congr fun r hr => by rw [h r (hl r hr)]
  have hfirst : ∀ l r l', log = l ++ r :: l' → r.prints = true → l.countP Ran.had = l.countP Ran.prints := by
    rintro l r l' rfl -
    exact hcount l fun s hs => List.mem_append_left _ hs
  rw [Due, and_iff_right hfirst, hcount _ fun r => List.mem_of_mem_dropLast]
  rcases List.eq_nil_or_concat' log with rfl | ⟨l, r, rfl⟩
  · simp
  · have hnone : l.countP Ran.prints = 0 ↔ ∀ r ∈ l, r.prints = false := by simp [List.countP_eq_zero]
    rw [List.dropLast_concat, List.countP_append, List.getLast?_concat]
    cases hr : r.prints with
    | true => simp [hr]
    | false =>
      simp only [List.countP_singleton, hr, Bool.false_eq_true, if_false, Nat.add_zero, Option.mem_some_iff, exists_eq_left',
        or_false, List.forall_mem_append, List.forall_mem_singleton, and_true, ← hnone]
      omega

/-! ## fh_join -/

/-- It leaves had_output set where it was, or where anything has been printed. -/
def Remembers (o o' : Out) : Prop :=
  o.had_output = true ∨ o'.stdout ≠ o.stdout ∨ o'.stderr ≠ o.stderr → o'.had_output = true

theorem pieces_quiet (h : ∀ r ∈ log.dropLast, r.had = false) : pieces false log = log.map Ran.piece := by
  induction log with
  | nil => rfl
  | cons r log ih =>
    cases log with
    | nil => rfl
    | cons s log =>
      rw [List.dropLast_cons_of_ne_nil (List.cons_ne_nil s log), List.forall_mem_cons] at h
      rw [pieces, h.1, ih h.2]
      rfl

theorem remembers_iff (h : Accounts delimiter o.had_output { o with had_output := false } log o') :
    Remembers o o' ↔ o.had_output = true ∨ (∃ r ∈ log.dropLast, r.had = true) ∨ ∀ r ∈ log, r.prints = false := by
  have hout := h.stdout
  have herr := h.stderr
  have hhad := h.had_output
  simp only [Bool.and_false, Bool.or_false] at hout herr hhad
  by_cases hbefore : o.had_output = true
  · simp [Remembers, hhad, hbefore]
  by_cases hamong : ∃ r ∈ log.dropLast, r.had = true
  · have : o'.had_output = true := by rw [hhad, List.any_eq_true.mpr hamong, Bool.or_true]
    simp [Remembers, this, hamong]
  · have hquiet : pieces false log = log.map Ran.piece := by
      apply pieces_quiet
      intro r hr
      rw [Bool.eq_false_iff]
      exact fun hset => hamong ⟨r, hr, hset⟩
    have hclear : o'.had_output = false := by
      rw [hhad, Bool.eq_false_iff]
      simpa [hbefore] using hamong
    rw [or_iff_right hbefore, or_iff_right hamong, Remembers, or_iff_right hbefore, hclear, hout, herr, hquiet]
    simp [Ran.prints, Ran.piece, Piece.onto, forall_and]

theorem formatHandler_join (form : FormatData) : formatHandler form (text "join") = fhJoin := by
  have hlookup : (formatHandles form).lookup (text "join") = some fhJoin := by
    unfold formatHandles systemFormatHandler
    cases form.system <;> rfl
  funext print n argv o
  rw [formatHandler, hlookup]

theorem join_iff (form : FormatData) (n : Nat) (delimiter : Str) (args : List Str) (o : Out) :
    let print : Print := fun s o => Prod.snd <$> printX form n true false s o
    let run := joinLog print delimiter args o.had_output { o with had_output := false }
    formatHandler form (text "join") print n (delimiter :: args) o = Prod.snd <$> run ∧
    Upto (fun _ => True) (fun (log, o') =>
      o'.stdout = o.stdout ++ (pieces false log).flatMap (Piece.onto delimiter o.ostream .stdout) ∧
      o'.stderr = o.stderr ++ (pieces false log).flatMap (Piece.onto delimiter o.ostream .stderr) ∧
      (Separates delimiter log ∧ Remembers o o' ↔
        (delimiter = [] ∨ Due log) ∧
        (o.had_output = true ∨ (∃ r ∈ log.dropLast, r.had = true) ∨ ∀ r ∈ log, r.prints = false))) run := by
  intro print run
  have hprint : ∀ s o, Grown o (print s o) := by
    intro s o
    rw [Grown, upto_map]
    exact grows_printX n true false s o
  refine ⟨?_, ?_⟩
  · rw [formatHandler_join]
    exact fhJoin_eq print n delimiter args o
  · cases hrun : run with
    | error e => trivial
    | ok x =>
      obtain ⟨log, o'⟩ := x
      have haccounts := accounts hprint hrun
      refine ⟨haccounts.stdout, haccounts.stderr, ?_⟩
      rw [separates_iff, remembers_iff haccounts]

/-- Each of these has room for its argv. -/
def addresses : Str := template "$[join][, ][inet $[addr]][netmask $[netmask]][$[brdaddr?][broadcast $[brdaddr]]]"

def address : Str := template "$[join][, ][$[brdaddr?][broadcast $[brdaddr]]][inet $[addr]]"

/-- There is no broadcast address: behind the others it leaves a delimiter, and behind nothing
    the only one leaves had_output cleared. -/
theorem join_leaves_a_delimiter :
    let print : Print := fun s o => Prod.snd <$> printX loopback 8 true false s o
    let inet : Str := template "inet $[addr]"
    let netmask : Str := template "netmask $[netmask]"
    let broadcast : Str := template "$[brdaddr?][broadcast $[brdaddr]]"
    let put : Out := { column_stdout := 35, had_output := true, stdout := text "inet 127.0.0.1, netmask 255.0.0.0, " }
    let log : List Ran := [⟨text "inet 127.0.0.1", [], true⟩, ⟨text "netmask 255.0.0.0", [], true⟩, ⟨[], [], false⟩]
    let put' : Out := { column_stdout := 14, stdout := text "inet 127.0.0.1" }
    (printInterface loopback 9 addresses {} = .ok put ∧
      joinLog print (text ", ") [inet, netmask, broadcast] false {} = .ok (log, put) ∧ ¬ Separates (text ", ") log) ∧
    (printInterface loopback 9 address {} = .ok put' ∧
      joinLog print (text ", ") [broadcast, inet] false {} = .ok ([⟨[], [], false⟩, ⟨text "inet 127.0.0.1", [], true⟩], put') ∧
      ¬ Remembers {} put') := by
  refine ⟨⟨by decide +kernel, by decide +kernel, by decide +kernel⟩, by decide +kernel, by decide +kernel, fun h => ?_⟩
  have : text "inet 127.0.0.1" ≠ [] := by decide +kernel
  exact Bool.noConfusion (h (.inr (.inl this)))

end Netutils.Ifconfig
