/-
  Netutils.Ifconfig.Template — the grammar of formats: literal characters, `$$`, `$}`, and
  substitutions with templates for their arguments.

  A quiet run comes to the `}` behind a template, whatever its depth, and leaves the output as it
  is (`upto_spell`); so what is copied to argv are the arguments as they are spelled
  (`upto_spellArgs`).
-/

import Mathlib.Data.Option.Basic
import Netutils.Ifconfig.Scan

namespace Netutils.Ifconfig

open Netutils.Lib.Faults Netutils.Libc

/-! ## Templates -/

inductive Template where
  | nil
  | char (c : UInt8) (rest : Template)
  /-- `$$` -/
  | dollar (rest : Template)
  /-- `$}` -/
  | close (rest : Template)
  /-- `${id}{…}…{…}` -/
  | subst (id : Str) (args : List Template) (rest : Template)

mutual

def Template.spell : Template → Str
  | .nil => []
  | .char c t => c :: t.spell
  | .dollar t => DOLLAR :: DOLLAR :: t.spell
  | .close t => DOLLAR :: CLOSE :: t.spell
  | .subst id args t => DOLLAR :: OPEN :: (id ++ CLOSE :: (spellArgs args ++ t.spell))

def spellArgs : List Template → Str
  | [] => []
  | a :: as => OPEN :: (a.spell ++ CLOSE :: spellArgs as)

end

mutual

/-- No `$` as a literal, nor a `}` inside of an argument, or in a name, or a `{` right behind a
    substitution. -/
def Template.wellFormed (nested : Bool) : Template → Bool
  | .nil => true
  | .char c t => !stops nested c && t.wellFormed nested
  | .dollar t => t.wellFormed nested
  | .close t => t.wellFormed nested
  | .subst id args t => !id.contains CLOSE && argsWellFormed args && t.spell.head? != some OPEN && t.wellFormed nested

def argsWellFormed : List Template → Bool
  | [] => true
  | a :: as => a.wellFormed true && argsWellFormed as

end

theorem argsWellFormed_iff {args : List Template} : argsWellFormed args = true ↔ ∀ a ∈ args, a.wellFormed true = true := by
  induction args with
  | nil => simp [argsWellFormed]
  | cons a as ih => simp [argsWellFormed, ih]

theorem wellFormed_subst {nested : Bool} {id : Str} {args : List Template} {t : Template} :
    (Template.subst id args t).wellFormed nested = true ↔
      CLOSE ∉ id ∧ (∀ a ∈ args, a.wellFormed true = true) ∧ t.spell.head? ≠ some OPEN ∧ t.wellFormed nested = true := by
  simp [Template.wellFormed, argsWellFormed_iff, and_assoc]

theorem spell_eq_nil {t : Template} (h : t.spell = []) : t = .nil := by
  cases t with
  | nil => rfl
  | _ => simp [Template.spell] at h

theorem length_spellArgs (args : List Template) :
    args.length ≤ (spellArgs args).length ∧ ∀ a ∈ args, a.spell.length ≤ (spellArgs args).length := by
  induction args with
  | nil => simp
  | cons a as ih =>
    simp only [spellArgs, List.length_cons, List.length_append, List.forall_mem_cons]
    refine ⟨by omega, by omega, fun b hb => ?_⟩
    have := ih.2 b hb
    omega

/-- Induction, with the arguments of a substitution. -/
@[elab_as_elim, induction_eliminator]
theorem Template.ind {P : Template → Prop} (nil : P .nil) (char : ∀ c t, P t → P (.char c t)) (dollar : ∀ t, P t → P (.dollar t))
    (close : ∀ t, P t → P (.close t)) (subst : ∀ id args t, (∀ a ∈ args, P a) → P t → P (.subst id args t)) (t : Template) : P t :=
  @Template.rec P (fun as => ∀ a ∈ as, P a) nil char dollar close subst nofun
    (fun _ _ ha has => List.forall_mem_cons.mpr ⟨ha, has⟩) t

/-- In less depth a template is one as well. -/
theorem wellFormed_of_nested {t : Template} (ht : t.wellFormed true = true) (nested : Bool) : t.wellFormed nested = true := by
  cases nested with
  | true => exact ht
  | false =>
    induction t with
    | nil => rfl
    | char c t ih =>
      simp only [Template.wellFormed, stops, Bool.and_eq_true, Bool.not_eq_true', Bool.or_eq_false_iff, Bool.false_and] at ht ⊢
      exact ⟨⟨ht.1.1, trivial⟩, ih ht.2⟩
    | dollar t ih => exact ih ht
    | close t ih => exact ih ht
    | subst id args t _ ih =>
      rw [wellFormed_subst] at ht ⊢
      exact ⟨ht.1, ht.2.1, ht.2.2.1, ih ht.2.2.2⟩

/-! ## The first turn on a template -/

variable {form : FormatData} {nested quiet : Bool} {c : UInt8} {p r id : Str} {t : Template} {n : Nat} {o : Out}

theorem turn_char (h : stops nested c = false) (p : Str) : turn nested (c :: p) = turn nested p := by
  rw [turn, List.dropWhile_cons_of_pos (by rw [h]; rfl)]
  rfl

/-- A literal is put, or passed over, before the turn. -/
theorem printX_char (h : stops nested c = false) (n : Nat) (p : Str) (o : Out) :
    printX form n nested quiet (c :: p) o = printX form n nested quiet p (echo quiet [c] o) := by
  have hecho : ∀ s, echo quiet (c :: s) o = echo quiet s (echo quiet [c] o) := by
    intro s
    cases quiet <;> rfl
  cases n with
  | zero => rfl
  | succ n =>
    rw [printX, printX, turn_char h, List.takeWhile_cons_of_pos (by rw [h]; rfl), hecho]

theorem turn_dollar (nested : Bool) (p : Str) : turn nested (DOLLAR :: DOLLAR :: p) = .put [DOLLAR] p := rfl

theorem turn_close (nested : Bool) (p : Str) : turn nested (DOLLAR :: CLOSE :: p) = .put [CLOSE] p := rfl

theorem span_name (hid : CLOSE ∉ id) (p : Str) :
    (id ++ CLOSE :: p).takeWhile (· != CLOSE) = id ∧ (id ++ CLOSE :: p).dropWhile (· != CLOSE) = CLOSE :: p :=
  span_append (fun _ hc => bne_iff_ne.mpr fun h => hid (h ▸ hc)) rfl

/-- The name ends at the first `}`. -/
theorem turn_subst_spelled (nested : Bool) (hid : CLOSE ∉ id) (p : Str) :
    turn nested (DOLLAR :: OPEN :: (id ++ CLOSE :: p)) = .subst id p := by
  obtain ⟨htake, hdrop⟩ := span_name hid p
  have hclose : CLOSE ∈ id ++ CLOSE :: p := List.mem_append_right id List.mem_cons_self
  show dollarTurn (DOLLAR :: OPEN :: (id ++ CLOSE :: p)) = _
  rw [dollarTurn, if_neg (not_not_intro rfl)]
  simp only [if_true, if_pos hclose, htake, hdrop]
  rfl

/-- Behind a substitution there is no argument. -/
theorem behind_subst (ht : t.spell.head? ≠ some OPEN) (hr : r = [] ∨ (nested = true ∧ r.head? = some CLOSE)) :
    (t.spell ++ r).head? ≠ some OPEN := by
  cases hspell : t.spell with
  | cons c p => simpa [hspell] using ht
  | nil =>
    rcases hr with rfl | ⟨-, hr⟩
    · simp
    · rw [List.nil_append, hr]
      exact fun h => absurd (Option.some.inj h) (by decide)

/-! ## Quiet runs -/

/-- The arguments are those that are spelled, where the scanner comes to the end of each. -/
theorem upto_spellArgs (scanner : Str → Out → Except Stop (Str × Out)) {args : List Template}
    (hscan : ∀ a ∈ args, ∀ r o, Upto (¬ Stop.Exits ·) (· = (CLOSE :: r, o)) (scanner (a.spell ++ CLOSE :: r) o))
    (hr : r.head? ≠ some OPEN) (room : Option Nat) (n : Nat) (argv : List Str) (o : Out) :
    Upto (¬ Stop.Exits ·) (· = (argv ++ args.map Template.spell, r, o)) (argsLoop scanner room n argv (spellArgs args ++ r) o) := by
  induction n generalizing args argv with
  | zero => exact id
  | succ n ih =>
    rw [argsLoop]
    cases args with
    | nil =>
      rw [spellArgs, List.nil_append, if_neg hr]
      simp
    | cons a as =>
      rw [spellArgs, List.cons_append, List.append_assoc, List.cons_append, if_pos List.head?_cons, List.tail_cons, upto_bind]
      apply (hscan a List.mem_cons_self _ o).mono
      rintro x rfl
      have hcopy : (a.spell ++ CLOSE :: (spellArgs as ++ r)).take
          ((a.spell ++ CLOSE :: (spellArgs as ++ r)).length - (CLOSE :: (spellArgs as ++ r)).length) = a.spell := by
        rw [List.length_append, Nat.add_sub_cancel, List.take_left]
      simp only [hcopy]
      split
      · exact id
      · have hrest := ih (fun b hb => hscan b (List.mem_cons_of_mem a hb)) (argv ++ [a.spell])
        rwa [List.append_assoc] at hrest

/-- A quiet run comes to the `}` behind it, and nothing has been put. -/
theorem upto_spell (form : FormatData) (ht : t.wellFormed true = true) (n : Nat) (r : Str) (o : Out) :
    Upto (¬ Stop.Exits ·) (· = (CLOSE :: r, o)) (printX form n true true (t.spell ++ CLOSE :: r) o) := by
  induction t generalizing n r o with
  | nil =>
    cases n with
    | zero => exact id
    | succ n => exact rfl
  | char c t ih =>
    rw [Template.wellFormed, Bool.and_eq_true, Bool.not_eq_true'] at ht
    rw [Template.spell, List.cons_append, printX_char ht.1]
    exact ih ht.2 n r o
  | dollar t ih =>
    cases n with
    | zero => exact id
    | succ n => exact ih ht n r o
  | close t ih =>
    cases n with
    | zero => exact id
    | succ n => exact ih ht n r o
  | subst id args t iha ih =>
    obtain ⟨hid, hargs, hhead, ht⟩ := wellFormed_subst.mp ht
    cases n with
    | zero => exact fun h => h
    | succ n =>
      have hbehind := behind_subst hhead (.inr ⟨rfl, rfl⟩ : CLOSE :: r = [] ∨ (true = true ∧ (CLOSE :: r).head? = some CLOSE))
      rw [Template.spell, List.cons_append, List.cons_append, List.append_assoc, List.cons_append, List.append_assoc, printX,
        turn_subst_spelled true hid]
      simp only [if_true]
      rw [upto_bind]
      apply (upto_spellArgs _ (fun a ha => iha a ha (hargs a ha) n) hbehind none n [] _).mono
      rintro x rfl
      exact ih ht n r o

/-! ## Reading a text -/

/-- The arguments that begin here. -/
def readArgs (read : Str → Option (Template × Str)) : Nat → Str → Option (List Template × Str)
  | 0, _ => none
  | n + 1, p =>
    if p.head? = some OPEN then do
      let (a, q) ← read p.tail
      guard (q.head? = some CLOSE)
      let (as, r) ← readArgs read n q.tail
      return (a :: as, r)
    else some ([], p)

/-- The template up to the end, or up to the `}` if nested. -/
def readTemplate : Nat → Bool → Str → Option (Template × Str)
  | 0, _, _ => none
  | _ + 1, _, [] => some (.nil, [])
  | n + 1, nested, c :: p => do
    if c = DOLLAR then
      match p with
      | [] => none
      | d :: p =>
        if d = DOLLAR then
          let (t, r) ← readTemplate n nested p
          return (.dollar t, r)
        else if d = CLOSE then
          let (t, r) ← readTemplate n nested p
          return (.close t, r)
        else
          guard (d = OPEN ∧ CLOSE ∈ p)
          let (args, p') ← readArgs (readTemplate n true) n ((p.dropWhile (· != CLOSE)).drop 1)
          let (t, r) ← readTemplate n nested p'
          return (.subst (p.takeWhile (· != CLOSE)) args t, r)
    else if nested && c == CLOSE then some (.nil, c :: p)
    else
      let (t, r) ← readTemplate n nested p
      return (.char c t, r)

/-- The template that is spelled so. -/
def Template.ofText (s : Str) : Option Template := (readTemplate (s.length + 1) false s).map Prod.fst

theorem readArgs_spellArgs (read : Str → Option (Template × Str)) {args : List Template}
    (hread : ∀ a ∈ args, ∀ r, read (a.spell ++ CLOSE :: r) = some (a, CLOSE :: r)) (hr : r.head? ≠ some OPEN)
    (hn : args.length < n) : readArgs read n (spellArgs args ++ r) = some (args, r) := by
  induction args generalizing n with
  | nil =>
    obtain ⟨n, rfl⟩ := Nat.exists_eq_add_one_of_ne_zero (n := n) (by omega)
    rw [spellArgs, List.nil_append, readArgs, if_neg hr]
  | cons a as ih =>
    obtain ⟨n, rfl⟩ := Nat.exists_eq_add_one_of_ne_zero (n := n) (by omega)
    rw [List.length_cons] at hn
    have hrest := ih (n := n) (fun b hb => hread b (List.mem_cons_of_mem a hb)) (by omega)
    rw [spellArgs, List.cons_append, List.append_assoc, List.cons_append, readArgs, if_pos List.head?_cons, List.tail_cons,
      hread a List.mem_cons_self]
    simp [guard, hrest]

/-- A template is read as it was spelled. -/
theorem readTemplate_spell (ht : t.wellFormed nested = true) (hr : r = [] ∨ (nested = true ∧ r.head? = some CLOSE))
    (hn : t.spell.length < n) : readTemplate n nested (t.spell ++ r) = some (t, r) := by
  induction t generalizing nested n r with
  | nil =>
    obtain ⟨n, rfl⟩ := Nat.exists_eq_add_one_of_ne_zero (n := n) (by omega)
    rcases hr with rfl | ⟨rfl, hr⟩
    · rfl
    · obtain ⟨p, rfl⟩ := List.head?_eq_some_iff.mp hr
      rfl
  | char c t ih =>
    obtain ⟨n, rfl⟩ := Nat.exists_eq_add_one_of_ne_zero (n := n) (by omega)
    rw [Template.wellFormed, Bool.and_eq_true, Bool.not_eq_true', stops, Bool.or_eq_false_iff, beq_eq_false_iff_ne] at ht
    obtain ⟨⟨hdollar, hclose⟩, ht⟩ := ht
    rw [Template.spell, List.length_cons] at hn
    rw [Template.spell, List.cons_append, readTemplate.eq_def]
    simp only
    rw [if_neg hdollar, hclose, ih ht hr (by omega)]
    rfl
  | dollar t ih =>
    obtain ⟨n, rfl⟩ := Nat.exists_eq_add_one_of_ne_zero (n := n) (by omega)
    rw [Template.spell, List.length_cons, List.length_cons] at hn
    rw [Template.spell, List.cons_append, List.cons_append, readTemplate, if_pos rfl]
    simp only [if_true, ih ht hr (show t.spell.length < n by omega)]
    rfl
  | close t ih =>
    obtain ⟨n, rfl⟩ := Nat.exists_eq_add_one_of_ne_zero (n := n) (by omega)
    have hne : CLOSE ≠ DOLLAR := by decide
    rw [Template.spell, List.length_cons, List.length_cons] at hn
    rw [Template.spell, List.cons_append, List.cons_append, readTemplate, if_pos rfl]
    simp only [if_neg hne, if_true, ih ht hr (show t.spell.length < n by omega)]
    rfl
  | subst id args t iha ih =>
    obtain ⟨n, rfl⟩ := Nat.exists_eq_add_one_of_ne_zero (n := n) (by omega)
    obtain ⟨hid, hargs, hhead, ht⟩ := wellFormed_subst.mp ht
    have hdollar : OPEN ≠ DOLLAR := by decide
    have hclose : OPEN ≠ CLOSE := by decide
    have hmem : CLOSE ∈ id ++ CLOSE :: (spellArgs args ++ (t.spell ++ r)) := List.mem_append_right id List.mem_cons_self
    obtain ⟨htake, hdrop⟩ := span_name hid (spellArgs args ++ (t.spell ++ r))
    have hlen := length_spellArgs args
    simp only [Template.spell, List.length_cons, List.length_append] at hn
    have hread := readArgs_spellArgs (n := n) (readTemplate n true)
      (fun a ha r => iha a ha (hargs a ha) (.inr ⟨rfl, rfl⟩) (by have := hlen.2 a ha; omega)) (behind_subst hhead hr) (by omega)
    rw [Template.spell, List.cons_append, List.cons_append, List.append_assoc, List.cons_append, List.append_assoc,
      readTemplate, if_pos rfl]
    simp [hdollar, hclose, guard, hmem, htake, hdrop, hread, ih ht hr (show t.spell.length < n by omega)]

theorem ofText_spell (ht : t.wellFormed false = true) : Template.ofText t.spell = some t := by
  have h := readTemplate_spell (n := t.spell.length + 1) ht (.inl rfl) (Nat.lt_succ_self _)
  rw [List.append_nil] at h
  rw [Template.ofText, h]
  rfl

/-- The formats are templates, also inside of an argument. -/
theorem formats_wellFormed : ∀ frm ∈ formats, ∃ t, Template.ofText frm.templ = some t ∧ t.spell = frm.templ ∧ t.wellFormed true = true := by
  have hread : ∀ frm ∈ formats,
      (Template.ofText frm.templ).any (fun t => t.spell == frm.templ && t.wellFormed true) = true := by decide +kernel
  intro frm hfrm
  obtain ⟨t, ht, h⟩ := (Option.any_eq_true _ _).mp (hread frm hfrm)
  rw [Bool.and_eq_true, beq_iff_eq] at h
  exact ⟨t, ht, h⟩

end Netutils.Ifconfig
