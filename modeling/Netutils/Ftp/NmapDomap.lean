/-
  Netutils.Ftp.NmapDomap — what domap makes of the manual's patterns: its variables are those of
  the manual, unless one meets an escape (`tokens_renderIn`), and of a pair it copies the texts
  of both variables and no literal (`outline_renderOut`).
-/

import Netutils.Ftp.Nmap

namespace Netutils.Ftp.Nmap

open Netutils.Arpa Netutils.Lib.Machine Netutils.Libc Netutils.Ftp.Domap

/-! ## The inpattern in domap -/

/-- A variable directly in front of an escape is met with some of the name ahead: domap ends its
    text at the backslash. -/
def meetsEscape : List InPiece → List UInt8 → Bool
  | [], _ => false
  | _ :: _, [] => false
  | .var _ :: ps, x :: name =>
    ps.head?.any InPiece.isEsc || meetsEscape ps ((x :: name).dropWhile fun y => some y ≠ stop ps)
  | .char c :: ps, x :: name => c.val = x && meetsEscape ps name
  | .esc c :: ps, x :: name => c.val = x && meetsEscape ps name

/-- toks, for the variables that have a text. -/
def toksOf (matched : List (Fin 9 × List UInt8)) : Toks := fun j =>
  if h : j < 9 then matched.lookup ⟨j, h⟩ else none

/-- toknum -/
def last (matched : List (Fin 9 × List UInt8)) : Nat := (matched.getLast?.map fun v => v.1.val).getD 0

theorem toNat_digit (i : Fin 9) : (digit i - ONE).toNat = i := by
  have hall := List.all_eq_true.mp (show (List.finRange 9).all (fun i => (digit i - ONE).toNat = i) = true from rfl)
  exact of_decide_eq_true (hall i (List.mem_finRange i))

theorem fromOne_digit (i : Fin 9) : fromOne (digit i) = true :=
  List.all_eq_true.mp (show (List.finRange 9).all (fun i => fromOne (digit i)) = true from rfl) i (List.mem_finRange i)

variable {matched : List (Fin 9 × List UInt8)} {i : Fin 9} {v : List UInt8}

theorem lookup_of_not_mem (h : i ∉ matched.map Prod.fst) : matched.lookup i = none := by
  rw [List.lookup_eq_none_iff]
  intro p hp
  rw [bne_iff_ne]
  rintro rfl
  exact h (List.mem_map_of_mem hp)

theorem toksOf_append (h : i ∉ matched.map Prod.fst) :
    toksOf (matched ++ [(i, v)]) = (toksOf matched).set i (some v) := by
  funext j
  rw [Toks.set, toksOf, toksOf]
  by_cases hnine : j < 9
  · rw [dif_pos hnine, dif_pos hnine, List.lookup_append]
    by_cases hj : j = i
    · have hi : (⟨j, hnine⟩ : Fin 9) = i := Fin.ext hj
      rw [if_pos hj, hi, lookup_of_not_mem h, List.lookup_cons, beq_self_eq_true]
      rfl
    · have hi : ((⟨j, hnine⟩ : Fin 9) == i) = false := beq_eq_false_iff_ne.mpr fun heq => hj (congrArg Fin.val heq)
      rw [if_neg hj, List.lookup_cons, hi, List.lookup_nil, Option.or_none]
  · have hj : j ≠ i := fun heq => hnine (heq ▸ i.isLt)
    rw [dif_neg hnine, dif_neg hnine, if_neg hj]

theorem toks_set_set {t : Toks} {j : Nat} {u w : Option (List UInt8)} : (t.set j u).set j w = t.set j w := by
  funext k
  rw [Toks.set, Toks.set, Toks.set]
  by_cases hk : k = j
  · rw [if_pos hk, if_pos hk]
  · rw [if_neg hk, if_neg hk, if_neg hk]

theorem toks_set_none {t : Toks} {j : Nat} (h : t j = none) : t.set j none = t := by
  funext k
  rw [Toks.set]
  by_cases hk : k = j
  · rw [if_pos hk, hk, h]
  · rw [if_neg hk]

theorem toksOf_not_mem (h : i ∉ matched.map Prod.fst) : toksOf matched i = none := by
  rw [toksOf, dif_pos i.isLt]
  exact lookup_of_not_mem h

/-- On a mismatch the text taken last is taken back. -/
theorem toksOf_dropLast (h : (matched.map Prod.fst).Nodup) :
    (toksOf matched).set (last matched) none = toksOf matched.dropLast := by
  cases List.eq_nil_or_concat matched with
  | inl hnil =>
    rw [hnil]
    exact toks_set_none rfl
  | inr hconcat =>
    obtain ⟨init, p, hconcat⟩ := hconcat
    rw [List.concat_eq_append] at hconcat
    subst hconcat
    have hlast : last (init ++ [p]) = p.1 := by
      rw [last, List.getLast?_append, List.getLast?_singleton]
      rfl
    have hnot : p.1 ∉ init.map Prod.fst := by
      rw [List.map_append, List.nodup_append] at h
      intro hmem
      exact h.2.2 _ hmem _ List.mem_cons_self rfl
    rw [hlast, List.dropLast_concat, toksOf_append (v := p.2) hnot, toks_set_set, toks_set_none (toksOf_not_mem hnot)]

variable {x : UInt8} {name : List UInt8} {n : Nat} {t : Toks} {ps : List InPiece}

theorem tokens_nil_name (l : List UInt8) : tokens l [] n t = some t := by
  cases l <;> rw [tokens]

theorem tokens_plain {c : UInt8} (hb : c ≠ BACKSLASH) (hd : c ≠ DOLLAR) (l : List UInt8) :
    tokens (c :: l) (x :: name) n t = if c = x then tokens l name n t else some (t.set n none) := by
  rw [tokens, if_neg hb, if_neg fun h => hd h.1]

theorem tokens_esc (c : UInt8) (l : List UInt8) :
    tokens (BACKSLASH :: c :: l) (x :: name) n t = if c = x then tokens l name n t else some (t.set n none) := by
  rw [tokens, if_pos rfl, List.head?_cons, List.tail_cons]
  by_cases hc : c = x
  · rw [if_pos (congrArg some hc), if_pos hc]
  · rw [if_neg fun h => hc (Option.some.inj h), if_neg hc]

/-- What ends the text of a variable is passed with it. -/
theorem tokens_passed {l : List UInt8} (name : List UInt8)
    (hplain : ∀ c, l.head? = some c → c ≠ BACKSLASH ∧ c ≠ DOLLAR) :
    tokens l.tail (name.dropWhile fun y => some y ≠ l.head?).tail n t =
      tokens l (name.dropWhile fun y => some y ≠ l.head?) n t := by
  cases l with
  | nil => rw [List.tail_nil, tokens, tokens]
  | cons c l =>
    obtain ⟨hb, hd⟩ := hplain c rfl
    cases hrest : name.dropWhile fun y => some y ≠ (c :: l).head? with
    | nil => rw [List.tail_nil, tokens_nil_name, tokens_nil_name]
    | cons y rest =>
      have hstop : decide (some y ≠ some c) = false := by
        have hhead := List.head?_dropWhile_not (fun y => decide (some y ≠ (c :: l).head?)) name
        rw [hrest] at hhead
        exact hhead
      have hcy : c = y := (Option.some.inj (of_not_not (of_decide_eq_false hstop))).symm
      rw [List.tail_cons, List.tail_cons, tokens_plain hb hd, if_pos hcy]

/-- A variable of the inpattern. -/
theorem tokens_var {l : List UInt8} (i : Fin 9) (hplain : ∀ c, l.head? = some c → c ≠ BACKSLASH ∧ c ≠ DOLLAR) :
    tokens (DOLLAR :: digit i :: l) (x :: name) n t =
      if l.head? = some x then tokens l (x :: name) n t
      else tokens l (name.dropWhile fun y => some y ≠ l.head?) i
        (t.set i (some (x :: name.takeWhile fun y => some y ≠ l.head?))) := by
  have hnine : (digit i - ONE).toNat < 9 := (toNat_digit i).symm ▸ i.isLt
  rw [tokens, if_neg (by decide), if_pos ⟨rfl, fromOne_digit i⟩, List.tail_cons, List.headD_cons]
  by_cases hx : l.head? = some x
  · have hdrop : (x :: name).dropWhile (fun y => decide (some y ≠ l.head?)) = x :: name := by
      have hcond : ¬ decide (some x ≠ l.head?) = true := fun h => of_decide_eq_true h hx.symm
      rw [List.dropWhile_cons, if_neg hcond]
    have hpassed := tokens_passed (n := n) (t := t) (x :: name) hplain
    rw [hdrop, List.tail_cons] at hpassed
    rw [if_pos hx, if_pos hx, hpassed]
  · rw [if_neg hx, if_neg hx, if_pos hnine, tokens_passed name hplain, toNat_digit]

/-- Behind a variable is a character, or the end. -/
theorem head_plain (hvar : ps.head?.any (fun q => q.var?.isSome) = false) (hesc : ps.head?.any InPiece.isEsc = false) :
    (renderIn ps).head? = stop ps ∧ ∀ c, (renderIn ps).head? = some c → c ≠ BACKSLASH ∧ c ≠ DOLLAR := by
  cases ps with
  | nil => exact ⟨rfl, fun c h => by cases h⟩
  | cons p ps =>
    cases p with
    | char c =>
      refine ⟨rfl, fun d h => ?_⟩
      obtain rfl := Option.some.inj h
      obtain ⟨hc, hd⟩ := Bool.and_eq_true_iff.mp c.property
      exact ⟨of_decide_eq_true (Bool.and_eq_true_iff.mp hc).2, of_decide_eq_true hd⟩
    | esc c => cases hesc
    | var i => cases hvar

theorem apart_var (h : apart (.var i :: ps) = true) : ps.head?.any (fun q => q.var?.isSome) = false :=
  Bool.not_eq_true' _ ▸ (Bool.and_eq_true_iff.mp h).1

theorem apart_cons {p : InPiece} (h : apart (p :: ps) = true) : apart ps = true := (Bool.and_eq_true_iff.mp h).2

theorem kept_nil : kept ([], true) matched = matched := List.append_nil matched

theorem kept_mismatch : kept ([], false) matched = matched.dropLast := by
  rw [kept, List.filter_nil, List.append_nil]
  rfl

theorem kept_empty (i : Fin 9) (r : List (Fin 9 × List UInt8) × Bool) :
    kept ((i, []) :: r.1, r.2) matched = kept r matched := rfl

theorem kept_text (i : Fin 9) (x : UInt8) (v : List UInt8) (r : List (Fin 9 × List UInt8) × Bool) :
    kept ((i, x :: v) :: r.1, r.2) matched = kept r (matched ++ [(i, x :: v)]) := by
  have hfilter : ((i, x :: v) :: r.1).filter (fun v => decide (v.2 ≠ [])) =
      [(i, x :: v)] ++ r.1.filter fun v => decide (v.2 ≠ []) := rfl
  rw [kept, kept, hfilter, List.append_assoc]

theorem tokens_mismatch (h : (matched.map Prod.fst).Nodup) :
    some ((toksOf matched).set (last matched) none) = some (toksOf (kept ([], false) matched)) := by
  rw [toksOf_dropLast h, kept_mismatch]

/-- What domap makes of the inpattern, behind variables that have a text. -/
theorem tokens_renderIn (hapart : apart ps = true) (hescape : meetsEscape ps name = false)
    (hdistinct : (matched.map Prod.fst ++ ps.filterMap InPiece.var?).Nodup) :
    tokens (renderIn ps) name (last matched) (toksOf matched) = some (toksOf (kept (take ps name) matched)) := by
  induction ps generalizing name matched with
  | nil =>
    rw [renderIn, List.flatMap_nil, tokens, take, kept_nil]
  | cons p ps ih =>
    cases name with
    | nil => rw [tokens_nil_name, take, kept_nil]
    | cons x name =>
      have hmatched : (matched.map Prod.fst).Nodup := hdistinct.sublist (List.sublist_append_left _ _)
      cases p with
      | char c =>
        obtain ⟨hc, hd⟩ := Bool.and_eq_true_iff.mp c.property
        have hb := (Bool.and_eq_true_iff.mp hc).2
        have hrender : renderIn (.char c :: ps) = c.val :: renderIn ps := rfl
        rw [hrender, tokens_plain (of_decide_eq_true hb) (of_decide_eq_true hd), take]
        by_cases hx : c.val = x
        · rw [if_pos hx, if_pos hx]
          rw [meetsEscape, decide_eq_true hx, Bool.true_and] at hescape
          exact ih (apart_cons hapart) hescape hdistinct
        · rw [if_neg hx, if_neg hx]
          exact tokens_mismatch hmatched
      | esc c =>
        have hrender : renderIn (.esc c :: ps) = BACKSLASH :: c.val :: renderIn ps := rfl
        rw [hrender, tokens_esc, take]
        by_cases hx : c.val = x
        · rw [if_pos hx, if_pos hx]
          rw [meetsEscape, decide_eq_true hx, Bool.true_and] at hescape
          exact ih (apart_cons hapart) hescape hdistinct
        · rw [if_neg hx, if_neg hx]
          exact tokens_mismatch hmatched
      | var i =>
        have hrender : renderIn (.var i :: ps) = DOLLAR :: digit i :: renderIn ps := rfl
        have hvars : (InPiece.var i :: ps).filterMap InPiece.var? = i :: ps.filterMap InPiece.var? := rfl
        rw [meetsEscape, Bool.or_eq_false_iff] at hescape
        obtain ⟨hhead, hplain⟩ := head_plain (apart_var hapart) hescape.1
        rw [hvars] at hdistinct
        rw [hrender, tokens_var i hplain, hhead, take]
        by_cases hx : stop ps = some x
        · have hcond : ¬ decide (some x ≠ stop ps) = true := fun h => of_decide_eq_true h hx.symm
          rw [List.dropWhile_cons, if_neg hcond] at hescape
          rw [if_pos hx, List.takeWhile_cons, List.dropWhile_cons, if_neg hcond, if_neg hcond, kept_empty]
          refine ih (apart_cons hapart) hescape.2 (hdistinct.sublist ?_)
          exact List.Sublist.append_left (List.sublist_cons_self _ _) _
        · have hcond : decide (some x ≠ stop ps) = true := decide_eq_true fun h => hx h.symm
          have hnot : i ∉ matched.map Prod.fst := by
            intro hmem
            exact (List.nodup_append.mp hdistinct).2.2 i hmem i List.mem_cons_self rfl
          have hlast : ∀ v, last (matched ++ [(i, v)]) = i := by
            intro v
            rw [last, List.getLast?_append, List.getLast?_singleton]
            rfl
          rw [List.dropWhile_cons, if_pos hcond] at hescape
          rw [if_neg hx, List.takeWhile_cons, List.dropWhile_cons, if_pos hcond, if_pos hcond, kept_text,
            ← toksOf_append hnot, ← hlast]
          refine ih (apart_cons hapart) hescape.2 ?_
          rw [List.map_append, List.append_assoc]
          exact hdistinct

/-! ## The outpattern in domap -/

section

variable (value : Ref → Option (List UInt8))

def Ref.copied (v : Ref) : List Copy :=
  match value v with
  | some t => [.text t]
  | none => []

/-- What domap copies for it: of a pair of variables both texts, of a literal in brackets nothing. -/
def OutPiece.copied : OutPiece → List Copy
  | .char c => [.char c.val]
  | .esc c => [.char c.val]
  | .var v => v.copied value
  | .pair (.var v) (.var w) => v.copied value ++ w.copied value
  | .pair (.var v) (.lit _) => v.copied value
  | .pair (.lit _) _ => []

end

/-- The literal domap comes to in a pair is empty. -/
def OutPiece.passed : OutPiece → Bool
  | .pair (.var _) (.lit t) => t.isEmpty
  | .pair (.lit t) _ => t.isEmpty
  | _ => true

/-- In front of what is copied of the rest. -/
def prepend (es : List Copy) (o : Option (List Copy × Bool)) : Option (List Copy × Bool) :=
  o.map fun r => (es ++ r.1, r.2)

variable {value : Ref → Option (List UInt8)} {src : UInt8 → Option (List UInt8)}

theorem isdigit_digit (v : Ref) : isdigit v.digit = true := by
  cases v with
  | name => rfl
  | tok i =>
    exact List.all_eq_true.mp (show (List.finRange 9).all (fun i => isdigit (digit i)) = true from rfl) i
      (List.mem_finRange i)

theorem isVar_ref (v : Ref) (l : List UInt8) : isVar (DOLLAR :: v.digit :: l) = true := by
  rw [isVar, List.head?_cons, List.tail_cons, List.head?_cons, Option.any_some, isdigit_digit]
  rfl

theorem not_isVar {c : UInt8} (hc : c ≠ DOLLAR) (l : List UInt8) : ¬ isVar (c :: l) = true := by
  intro h
  exact hc (Option.some.inj (of_decide_eq_true (Bool.and_eq_true_iff.mp h).1))

theorem beforeVar_copied (hsrc : ∀ v : Ref, src v.digit = value v) (v : Ref) (o : Option (List Copy × Bool)) :
    beforeVar (src v.digit) o = prepend (v.copied value) o := by
  rw [hsrc, Ref.copied]
  cases value v with
  | none =>
    cases o <;> rfl
  | some t => rfl

theorem prepend_prepend (es es' : List Copy) (o : Option (List Copy × Bool)) :
    prepend es (prepend es' o) = prepend (es ++ es') o := by
  cases o with
  | none => rfl
  | some r => simp only [prepend, Option.map_some, List.append_assoc]

/-- What is skipped of a pair. -/
theorem outline_skip {t : List UInt8} (h : ∀ c ∈ t, c ≠ CLOSE ∧ c ≠ BACKSLASH) (l : List UInt8) :
    outline src .skip (t ++ CLOSE :: l) = outline src .mapout l := by
  induction t with
  | nil => rw [List.nil_append, outline, if_pos rfl]
  | cons c t ih =>
    obtain ⟨hclose, hb⟩ := h c List.mem_cons_self
    rw [List.cons_append, outline, if_neg hclose, if_neg fun hand => hb hand.1]
    exact ih fun d hd => h d (List.mem_cons_of_mem _ hd)

theorem lit_ne (c : { c : UInt8 // isLit c = true }) :
    c.val ≠ BACKSLASH ∧ c.val ≠ DOLLAR ∧ c.val ≠ COMMA ∧ c.val ≠ CLOSE := by
  obtain ⟨hc, hclose⟩ := Bool.and_eq_true_iff.mp c.property
  obtain ⟨hc, hcomma⟩ := Bool.and_eq_true_iff.mp hc
  obtain ⟨hc, -⟩ := Bool.and_eq_true_iff.mp hc
  obtain ⟨hc, hd⟩ := Bool.and_eq_true_iff.mp hc
  obtain ⟨-, hb⟩ := Bool.and_eq_true_iff.mp hc
  exact ⟨of_decide_eq_true hb, of_decide_eq_true hd, of_decide_eq_true hcomma, of_decide_eq_true hclose⟩

/-- A literal that is come to: with a character in it, it is not passed. -/
theorem outline_lit (t : List { c : UInt8 // isLit c = true }) {c : UInt8} (hc : c = COMMA ∨ c = CLOSE) (l : List UInt8) :
    outline src .bracket (t.map Subtype.val ++ c :: l) =
      if t.isEmpty = true then outline src .skip (c :: l) else none := by
  cases t with
  | nil =>
    have hd : c ≠ DOLLAR := by
      rcases hc with rfl | rfl <;> decide
    rw [List.map_nil, List.nil_append, outline, if_neg (not_isVar hd l), outline, if_pos hc]
    rfl
  | cons d t =>
    obtain ⟨hb, hd, hcomma, hclose⟩ := lit_ne d
    rw [List.map_cons, List.cons_append, outline, if_neg (not_isVar hd _), outline, if_neg fun h => h.elim hcomma hclose,
      if_neg hb, if_neg fun h => not_isVar hd _ h.1]
    rfl

/-- A variable in brackets, and what is behind it. -/
theorem outline_bracket_var (hsrc : ∀ v : Ref, src v.digit = value v) (v : Ref) {c : UInt8} (l : List UInt8)
    (hc : c = COMMA ∨ c = CLOSE) :
    outline src .bracket (DOLLAR :: v.digit :: c :: l) =
      prepend (v.copied value) (outline src (if c = COMMA then .bracket else .mapout) l) := by
  rw [outline, if_pos (isVar_ref v _), List.headD_cons, beforeVar_copied hsrc, List.tail_cons, List.head?_cons,
    List.tail_cons]
  rcases hc with rfl | rfl
  · rw [if_pos rfl, if_pos rfl]
  · rw [if_neg (by decide), if_pos rfl, if_neg (by decide)]

theorem part_ne (s : Part) : ∀ c ∈ s.render, c ≠ CLOSE ∧ c ≠ BACKSLASH := by
  intro c hc
  cases s with
  | var v =>
    have hdigit : ∀ d : UInt8, isdigit d = false → v.digit ≠ d := by
      intro d hd heq
      rw [← heq, isdigit_digit] at hd
      cases hd
    rcases List.mem_cons.mp hc with rfl | hc
    · exact ⟨by decide, by decide⟩
    · rw [List.mem_singleton.mp hc]
      exact ⟨hdigit CLOSE rfl, hdigit BACKSLASH rfl⟩
  | lit t =>
    obtain ⟨d, -, rfl⟩ := List.mem_map.mp hc
    exact ⟨(lit_ne d).2.2.2, (lit_ne d).1⟩

/-- The rest of a pair whose first part is a literal. -/
theorem outline_skip_part (s : Part) (l : List UInt8) :
    outline src .skip (COMMA :: (s.render ++ CLOSE :: l)) = outline src .mapout l := by
  refine outline_skip (t := COMMA :: s.render) (fun c hc => ?_) l
  rcases List.mem_cons.mp hc with rfl | hc
  · exact ⟨by decide, by decide⟩
  · exact part_ne s c hc

theorem outline_pair (hsrc : ∀ v : Ref, src v.digit = value v) (s₁ s₂ : Part) (l : List UInt8) :
    outline src .bracket (s₁.render ++ COMMA :: (s₂.render ++ CLOSE :: l)) =
      if (OutPiece.pair s₁ s₂).passed = true then prepend ((OutPiece.pair s₁ s₂).copied value) (outline src .mapout l)
      else none := by
  cases s₁ with
  | var v =>
    have hfirst := outline_bracket_var hsrc v (s₂.render ++ CLOSE :: l) (Or.inl rfl)
    rw [if_pos rfl] at hfirst
    refine hfirst.trans ?_
    cases s₂ with
    | var w =>
      have hsecond := outline_bracket_var hsrc w l (Or.inr rfl)
      rw [if_neg (by decide)] at hsecond
      exact (congrArg _ hsecond).trans (prepend_prepend ..)
    | lit t =>
      have hsecond : outline src .bracket (t.map Subtype.val ++ CLOSE :: l) =
          if t.isEmpty = true then outline src .skip (CLOSE :: l) else none := outline_lit t (Or.inr rfl) l
      have hskip : outline src .skip (CLOSE :: l) = outline src .mapout l :=
        outline_skip (t := []) (fun c hc => absurd hc List.not_mem_nil) l
      refine (congrArg _ hsecond).trans ?_
      rw [OutPiece.passed, hskip]
      by_cases ht : t.isEmpty = true
      · rw [if_pos ht, if_pos ht]
        rfl
      · rw [if_neg ht, if_neg ht]
        rfl
  | lit t =>
    rw [Part.render, outline_lit t (Or.inl rfl), outline_skip_part, OutPiece.passed]
    by_cases ht : t.isEmpty = true
    · rw [if_pos ht, if_pos ht, OutPiece.copied]
      cases outline src .mapout l <;> rfl
    · rw [if_neg ht, if_neg ht]

theorem outline_piece (hsrc : ∀ v : Ref, src v.digit = value v) (p : OutPiece) (l : List UInt8) :
    outline src .mapout (p.render ++ l) =
      if p.passed = true then prepend (p.copied value) (outline src .mapout l) else none := by
  cases p with
  | char c =>
    obtain ⟨hc, hopen⟩ := Bool.and_eq_true_iff.mp c.property
    obtain ⟨hc, hd⟩ := Bool.and_eq_true_iff.mp hc
    obtain ⟨-, hb⟩ := Bool.and_eq_true_iff.mp hc
    rw [OutPiece.render, List.singleton_append, outline, if_neg (of_decide_eq_true hb), if_neg (of_decide_eq_true hopen),
      if_neg (not_isVar (of_decide_eq_true hd) l)]
    rfl
  | esc c =>
    have hcons : ([BACKSLASH, c.val] : List UInt8) ++ l = BACKSLASH :: c.val :: l := rfl
    rw [OutPiece.render, hcons, outline, if_pos rfl, if_neg (List.cons_ne_nil c.val l)]
    rfl
  | var v =>
    have hcons : ([DOLLAR, v.digit] : List UInt8) ++ l = DOLLAR :: v.digit :: l := rfl
    rw [OutPiece.render, hcons, outline, if_neg (by decide), if_neg (by decide), if_pos (isVar_ref v l), List.headD_cons,
      List.tail_cons, beforeVar_copied hsrc]
    rfl
  | pair s₁ s₂ =>
    have hcons : (OutPiece.pair s₁ s₂).render ++ l = OPEN :: (s₁.render ++ COMMA :: (s₂.render ++ CLOSE :: l)) := by
      simp only [OutPiece.render, List.cons_append, List.append_assoc, List.nil_append]
    rw [hcons, outline, if_neg (by decide), if_pos rfl, outline_pair hsrc]

/-- What domap makes of the outpattern. -/
theorem outline_renderOut (hsrc : ∀ v : Ref, src v.digit = value v) (out : List OutPiece) :
    outline src .mapout (renderOut out) =
      if out.all OutPiece.passed = true then some (out.flatMap (OutPiece.copied value), true) else none := by
  induction out with
  | nil => rw [renderOut, List.flatMap_nil, outline, List.flatMap_nil, List.all_nil, if_pos rfl]
  | cons p out ih =>
    have hrender : renderOut (p :: out) = p.render ++ renderOut out := rfl
    rw [hrender, outline_piece hsrc, ih, List.all_cons, List.flatMap_cons]
    by_cases hp : p.passed = true
    · rw [if_pos hp, hp, Bool.true_and]
      by_cases hout : out.all OutPiece.passed = true
      · rw [if_pos hout, if_pos hout]
        rfl
      · rw [if_neg hout, if_neg hout]
        rfl
    · rw [if_neg hp, if_neg fun h => hp (Bool.and_eq_true_iff.mp h).1]

end Netutils.Ftp.Nmap
