/-
  Netutils.Ftp.DomapRun — what domap's loops come to: `tokens` of the inpattern, and of the
  outpattern an `outline` of what is copied. From each loop domap returns just if what is
  copied from there on has room (`returns_outline`, `returns_tokens`).
-/

import Netutils.Ftp.Domap

namespace Netutils.Ftp.Domap

open Netutils.Arpa Netutils.Lib.Machine Netutils.Libc

/-! ## What the patterns come to -/

/-- What the inpattern makes of a name: the variables with their texts, `n` the one that was set
    last. -/
def tokens : List UInt8 → List UInt8 → Nat → Toks → Option Toks
  | [], _, _, t => some t
  | _ :: _, [], _, t => some t
  | c :: l, x :: name, n, t =>
    if c = BACKSLASH then
      if l.head? = some x then tokens l.tail name n t else some (t.set n none)
    else if c = DOLLAR ∧ l.head?.any fromOne = true then
      -- the variable, and the character behind it
      if l.tail.head? = some x then tokens l.tail.tail name n t
      else if (l.headD NUL - ONE).toNat < 9 then
        tokens l.tail.tail (name.dropWhile fun y => some y ≠ l.tail.head?).tail (l.headD NUL - ONE).toNat
          (t.set (l.headD NUL - ONE).toNat (some (x :: name.takeWhile fun y => some y ≠ l.tail.head?)))
      else none
    else if c = x then tokens l name n t
    else some (t.set n none)
  termination_by l => l.length
  decreasing_by all_goals simp only [List.length_tail, List.length_cons]; omega

/-- What is copied to the result. -/
inductive Copy where
  | char (c : UInt8)
  | text (t : List UInt8)

/-- In front of the rest of what is copied. -/
def before (e : Copy) (o : Option (List Copy × Bool)) : Option (List Copy × Bool) := o.map fun r => (e :: r.1, r.2)

/-- The same, of a variable that may not be set. -/
def beforeVar (t : Option (List UInt8)) (o : Option (List Copy × Bool)) : Option (List Copy × Bool) :=
  match t with
  | some t => before (.text t) o
  | none => o

def isVar (l : List UInt8) : Bool := l.head? = some DOLLAR && l.tail.head?.any isdigit

/-- What the outpattern copies, from a loop on, and whether its brackets are balanced; none, if
    a literal in brackets or a variable with a text is met where it is not passed. -/
def outline (src : UInt8 → Option (List UInt8)) : Pc → List UInt8 → Option (List Copy × Bool)
  | .mapin, _ => none
  | .mapout, [] => some ([], true)
  | .mapout, c :: l =>
    if c = BACKSLASH then
      if l = [] then some ([], true) else before (.char (l.headD NUL)) (outline src .mapout l.tail)
    else if c = OPEN then outline src .bracket l
    else if isVar (c :: l) = true then beforeVar (src (l.headD NUL)) (outline src .mapout l.tail)
    else before (.char c) (outline src .mapout l)
  | .bracket, [] => some ([], false)
  | .bracket, c :: l =>
    if isVar (c :: l) = true then
      beforeVar (src (l.headD NUL))
        (if l.tail.head? = some COMMA then outline src .bracket l.tail.tail
        else if l.tail.head? = some CLOSE then outline src .mapout l.tail.tail
        else outline src .bracket l.tail)
    else outline src .literal (c :: l)
  | .literal, [] => some ([], false)
  | .literal, c :: l =>
    if c = COMMA ∨ c = CLOSE then outline src .skip (c :: l)
    else if c = BACKSLASH then outline src .literal l
    else if isVar (c :: l) = true ∧ src (l.headD NUL) = none then
      before (.char (l.headD NUL)) (outline src .literal l.tail)
    else none
  | .skip, [] => some ([], false)
  | .skip, c :: l =>
    if c = CLOSE then outline src .mapout l
    else if c = BACKSLASH ∧ l ≠ [] then outline src .skip l.tail
    else outline src .skip l
  termination_by pc l => 3 * l.length + match pc with | .bracket => 2 | .literal => 1 | _ => 0
  decreasing_by all_goals simp only [List.length_tail, List.length_cons]; omega

/-! ## Room -/

namespace Copy

def text' : Copy → List UInt8
  | .char c => [c]
  | .text t => t

/-- What it takes of the room there is. -/
def weight : Copy → Nat
  | .char _ => 1
  | .text t => min 2 t.length

/-- The buffer is made larger for it. -/
def grows : Copy → Bool
  | .char _ => false
  | .text t => 2 < t.length

def into (env : Env) (b : Buf) : Copy → Except Fault Buf
  | .char c => b.put c
  | .text t => b.subst env t

end Copy

def putAll (env : Env) : List Copy → Buf → Except Fault Buf
  | [], b => .ok b
  | e :: es, b => e.into env b >>= putAll env es

/-- What domap does when it is through. -/
def final (env : Env) (balanced : Bool) (b : Buf) : Except Fault Result :=
  if balanced = true then b.finish env else .ok ⟨env.name, unbalanced⟩

/-- What is copied from here on has room, and this comes of it. -/
def Done (env : Env) (o : Option (List Copy × Bool)) (b : Buf) (r : Result) : Prop :=
  ∃ es balanced b', o = some (es, balanced) ∧ putAll env es b = .ok b' ∧ final env balanced b' = .ok r

theorem ok_bind {α β : Type} (a : α) (f : α → Except Fault β) : ((Except.ok a : Except Fault α) >>= f) = f a := rfl

theorem bind_eq_ok {α β : Type} {x : Except Fault α} {f : α → Except Fault β} {b : β} :
    x >>= f = .ok b ↔ ∃ a, x = .ok a ∧ f a = .ok b := by
  cases x with
  | error e =>
    constructor
    · intro h
      cases h
    · intro h
      obtain ⟨a, ha, -⟩ := h
      cases ha
  | ok a =>
    refine ⟨fun h => ⟨a, rfl, h⟩, ?_⟩
    intro h
    obtain ⟨a', ha, h⟩ := h
    obtain rfl := Except.ok.inj ha
    exact h

variable {env : Env} {b b' : Buf} {o : Option (List Copy × Bool)} {r : Result} {e : Copy} {es : List Copy}

theorem done_before : Done env (before e o) b r ↔ ∃ b₁, e.into env b = .ok b₁ ∧ Done env o b₁ r := by
  constructor
  · intro h
    obtain ⟨es, balanced, b', ho, hput, hfinal⟩ := h
    obtain ⟨⟨es', bal⟩, rfl, heq⟩ := Option.map_eq_some_iff.mp ho
    obtain ⟨rfl, rfl⟩ := Prod.mk.inj heq
    obtain ⟨b₁, hinto, hput⟩ := bind_eq_ok.mp hput
    exact ⟨b₁, hinto, es', bal, b', rfl, hput, hfinal⟩
  · intro h
    obtain ⟨b₁, hinto, es, balanced, b', rfl, hput, hfinal⟩ := h
    exact ⟨e :: es, balanced, b', rfl, bind_eq_ok.mpr ⟨b₁, hinto, hput⟩, hfinal⟩

theorem not_done_none : ¬ Done env none b r := by
  intro h
  obtain ⟨es, balanced, b', ho, -⟩ := h
  cases ho

theorem done_nil {balanced : Bool} : Done env (some ([], balanced)) b r ↔ final env balanced b = .ok r := by
  constructor
  · intro h
    obtain ⟨es, bal, b', ho, hput, hfinal⟩ := h
    obtain ⟨rfl, rfl⟩ := Prod.mk.inj (Option.some.inj ho)
    obtain rfl := Except.ok.inj hput
    exact hfinal
  · intro h
    exact ⟨[], balanced, b, rfl, rfl, h⟩

/-! ## The loops over mapout -/

variable {s : State} {l : List UInt8} {c : UInt8}

theorem peek_zero (l : List UInt8) : peek (l ++ [NUL]) 0 = .ok (l.headD NUL) := by
  cases l <;> rfl

theorem peek_succ (c : UInt8) (l : List UInt8) (k : Nat) : peek (c :: l) (k + 1) = peek l k := rfl

/-- What is ahead of cp2; the turns of LOOP begin with `++cp2`. -/
def State.ahead (s : State) : List UInt8 := if s.pc = .bracket then s.cp2.drop 1 else s.cp2

theorem headD_ne_nul {l : List UInt8} (h : NUL ∉ l) : l.headD NUL ≠ NUL ↔ l ≠ [] := by
  cases l with
  | nil => exact ⟨fun hne => absurd rfl hne, fun hne => absurd rfl hne⟩
  | cons c l =>
    refine ⟨fun _ => List.cons_ne_nil c l, fun _ heq => h ?_⟩
    rw [← show c = NUL from heq]
    exact List.mem_cons_self

theorem isvar_append (l : List UInt8) : isvar (l ++ [NUL]) = .ok (isVar l) := by
  cases l with
  | nil => rfl
  | cons c l =>
    rw [isvar, List.cons_append]
    simp only [peek_succ, peek_zero]
    change (if c = DOLLAR then _ else _) = _
    by_cases hc : c = DOLLAR
    · rw [if_pos hc, ok_bind, isVar, hc]
      cases l <;> rfl
    · rw [if_neg hc, isVar, List.head?_cons, decide_eq_false fun h => hc (Option.some.inj h)]
      rfl

theorem step_mapout_cons (env : Env) (hpc : s.pc = .mapout) (hcp2 : s.cp2 = c :: l ++ [NUL]) (hc : c ≠ NUL) :
    step env s =
      if c = BACKSLASH then
        if l.headD NUL ≠ NUL then
          s.buf.put (l.headD NUL) >>= fun buf => .ok (.inl { s with matched := false, buf, cp2 := (l ++ [NUL]).drop 1 })
        else .ok (.inl { s with matched := false, cp2 := l ++ [NUL] })
      else if c = OPEN then .ok (.inl { s with matched := false, pc := .bracket })
      else if isVar (c :: l) = true then
        cpSubst env s.toks s.buf (c :: l ++ [NUL]) >>= fun r =>
          .ok (.inl { s with buf := r.2, matched := r.1, cp2 := (l ++ [NUL]).drop 1 })
      else s.buf.put c >>= fun buf => .ok (.inl { s with matched := false, buf, cp2 := l ++ [NUL] }) := by
  rw [step, hpc]
  have hzero : peek (c :: l ++ [NUL]) 0 = .ok c := rfl
  have hone : peek (c :: l ++ [NUL]) 1 = .ok (l.headD NUL) := peek_zero l
  simp only [State.stepMapout, hcp2, hpc, hzero, hone, isvar_append, ok_bind, if_neg hc]
  rfl

theorem step_mapout_nil (hpc : s.pc = .mapout) (hcp2 : s.cp2 = [NUL]) :
    step env s = s.buf.finish env >>= fun r => .ok (.inr r) := by
  rw [step, hpc]
  have hzero : peek [NUL] 0 = .ok NUL := rfl
  simp only [State.stepMapout, hcp2, hzero, ok_bind, if_pos]
  rfl

theorem step_bracket (env : Env) (hpc : s.pc = .bracket) (hmatched : s.matched = false)
    (hcp2 : s.cp2.drop 1 = l ++ [NUL]) :
    step env s =
      if isVar l = true then
        cpSubst env s.toks s.buf (l ++ [NUL]) >>= fun r =>
          peek ((l ++ [NUL]).drop 1) 1 >>= fun e =>
            if e = COMMA then .ok (.inl { s with buf := r.2, cp2 := (l ++ [NUL]).drop 2 })
            else if e = CLOSE then .ok (.inl { s with buf := r.2, pc := .mapout, cp2 := (l ++ [NUL]).drop 3 })
            else .ok (.inl { s with buf := r.2, cp2 := (l ++ [NUL]).drop 1 })
      else .ok (.inl { s with pc := .literal, cp2 := l ++ [NUL] }) := by
  have hdrop : ∀ k, s.cp2.drop (1 + k) = (l ++ [NUL]).drop k := fun k => by rw [← hcp2, List.drop_drop]
  rw [step, hpc]
  simp only [State.stepBracket, hcp2, hpc, hmatched, isvar_append, ok_bind, if_neg Bool.false_ne_true, hdrop 1, hdrop 2,
    hdrop 3]
  rfl

theorem step_literal_nil (hpc : s.pc = .literal) (hcp2 : s.cp2 = [NUL]) :
    step env s = .ok (.inr ⟨env.name, unbalanced⟩) := by
  rw [step, hpc]
  have hzero : peek [NUL] 0 = .ok NUL := rfl
  simp only [State.stepLiteral, hcp2, hzero, ok_bind, if_pos]
  rfl

theorem step_literal_cons (env : Env) (hpc : s.pc = .literal) (hcp2 : s.cp2 = c :: l ++ [NUL]) (hc : c ≠ NUL) :
    step env s =
      if c = COMMA ∨ c = CLOSE then .ok (.inl { s with matched := true, pc := .skip })
      else if c = BACKSLASH then .ok (.inl { s with cp2 := l ++ [NUL] })
      else if isVar (c :: l) = true then
        cpSubst env s.toks s.buf (c :: l ++ [NUL]) >>= fun r =>
          if r.1 = true then .ok (.inl { s with buf := r.2, matched := true, cp2 := l ++ [NUL] })
          else r.2.put (l.headD NUL) >>= fun buf => .ok (.inl { s with buf, cp2 := (l ++ [NUL]).drop 1 })
      else .ok (.inl s) := by
  rw [step, hpc]
  have hzero : peek (c :: l ++ [NUL]) 0 = .ok c := rfl
  have hone : peek (c :: l ++ [NUL]) 1 = .ok (l.headD NUL) := peek_zero l
  simp only [State.stepLiteral, hcp2, hpc, hzero, hone, isvar_append, ok_bind, if_neg hc]
  rfl

theorem step_skip_nil (hpc : s.pc = .skip) (hcp2 : s.cp2 = [NUL]) :
    step env s = .ok (.inr ⟨env.name, unbalanced⟩) := by
  rw [step, hpc]
  have hzero : peek [NUL] 0 = .ok NUL := rfl
  simp only [State.stepSkip, hcp2, hzero, ok_bind, if_pos]
  rfl

theorem step_skip_cons (env : Env) (hpc : s.pc = .skip) (hcp2 : s.cp2 = c :: l ++ [NUL]) (hc : c ≠ NUL) :
    step env s =
      if c = CLOSE then .ok (.inl { s with pc := .mapout, cp2 := l ++ [NUL] })
      else if c = BACKSLASH ∧ l.headD NUL ≠ NUL then .ok (.inl { s with cp2 := (l ++ [NUL]).drop 1 })
      else .ok (.inl { s with cp2 := l ++ [NUL] }) := by
  rw [step, hpc]
  have hzero : peek (c :: l ++ [NUL]) 0 = .ok c := rfl
  have hone : peek (c :: l ++ [NUL]) 1 = .ok (l.headD NUL) := peek_zero l
  simp only [State.stepSkip, hcp2, hpc, hzero, hone, ok_bind, if_neg hc]
  by_cases hclose : c = CLOSE
  · rw [if_pos hclose, if_pos hclose]
    rfl
  · rw [if_neg hclose, if_neg hclose]
    by_cases hb : c = BACKSLASH
    · rw [if_pos hb]
      by_cases hl : l.headD NUL = NUL
      · rw [if_neg (fun h => h hl), if_neg (fun h => h.2 hl)]
        rfl
      · rw [if_pos hl, if_pos ⟨hb, hl⟩]
        rfl
    · rw [if_neg hb, if_neg (fun h => h rfl), if_neg (fun h => hb h.1)]
      rfl

theorem cpSubst_eq (env : Env) (t : Toks) (b : Buf) (c : UInt8) (l : List UInt8) :
    cpSubst env t b (c :: l ++ [NUL]) =
      match t.source env.name (l.headD NUL) with
      | some src => b.subst env src >>= fun b => .ok (true, b)
      | none => .ok (false, b) := by
  have hone : peek (c :: l ++ [NUL]) 1 = .ok (l.headD NUL) := peek_zero l
  rw [cpSubst, hone]
  rfl

/-- A variable is copied, if it was set. -/
theorem done_cpSubst (env : Env) (t : Toks) (b : Buf) (c : UInt8) (l : List UInt8) :
    Done env (beforeVar (t.source env.name (l.headD NUL)) o) b r ↔
      ∃ p, cpSubst env t b (c :: l ++ [NUL]) = .ok p ∧ Done env o p.2 r := by
  rw [cpSubst_eq]
  cases t.source env.name (l.headD NUL) with
  | none =>
    constructor
    · intro h
      exact ⟨(false, b), rfl, h⟩
    · intro h
      obtain ⟨p, hp, h⟩ := h
      obtain rfl := Except.ok.inj hp
      exact h
  | some src =>
    rw [beforeVar, done_before]
    constructor
    · intro h
      obtain ⟨b₁, hb, h⟩ := h
      exact ⟨(true, b₁), bind_eq_ok.mpr ⟨b₁, hb, rfl⟩, h⟩
    · intro h
      obtain ⟨p, hp, h⟩ := h
      obtain ⟨b₁, hb, hp⟩ := bind_eq_ok.mp hp
      obtain rfl := Except.ok.inj hp
      exact ⟨b₁, hb, h⟩

/-- In a loop over mapout, with these characters ahead. -/
structure At (env : Env) (src : UInt8 → Option (List UInt8)) (pc : Pc) (l : List UInt8) (s : State) : Prop where
  loop : s.pc = pc
  toks : s.toks.source env.name = src
  ahead : s.ahead = l ++ [NUL]
  matched : pc ≠ .bracket ∨ s.matched = false

section

variable {src : UInt8 → Option (List UInt8)} {pc : Pc}

theorem At.cp2 (h : At env src pc l s) (hpc : pc ≠ .bracket) : s.cp2 = l ++ [NUL] := by
  have hahead := h.ahead
  rwa [State.ahead, h.loop, if_neg hpc] at hahead

theorem returns_mapout_nil (src : UInt8 → Option (List UInt8)) (h : At env src .mapout [] s) :
    Returns (step env) s r ↔ Done env (some ([], true)) s.buf r := by
  rw [done_nil]
  exact returns_bind_inr (step_mapout_nil h.loop (h.cp2 (by decide)))

theorem returns_literal_nil (src : UInt8 → Option (List UInt8)) (h : At env src .literal [] s) :
    Returns (step env) s r ↔ Done env (some ([], false)) s.buf r := by
  rw [done_nil, returns_inr (step_literal_nil h.loop (h.cp2 (by decide)))]
  exact ⟨congrArg Except.ok, Except.ok.inj⟩

theorem returns_skip_nil (src : UInt8 → Option (List UInt8)) (h : At env src .skip [] s) :
    Returns (step env) s r ↔ Done env (some ([], false)) s.buf r := by
  rw [done_nil, returns_inr (step_skip_nil h.loop (h.cp2 (by decide)))]
  exact ⟨congrArg Except.ok, Except.ok.inj⟩

theorem tail_append {l : List UInt8} (h : l ≠ []) : (l ++ [NUL]).drop 1 = l.tail ++ [NUL] := by
  cases l with
  | nil => exact absurd rfl h
  | cons c l => rfl

theorem tail_ne_nil_of_isVar (h : isVar (c :: l) = true) : l ≠ [] := by
  rintro rfl
  simp [isVar] at h

theorem isdigit_of_isVar {d : UInt8} (h : isVar (c :: d :: l) = true) : isdigit d = true :=
  (Bool.and_eq_true_iff.mp h).2

/-- With these characters ahead in this loop, domap returns just if what is copied then has room. -/
def Agrees (env : Env) (src : UInt8 → Option (List UInt8)) (r : Result) (pc : Pc) (l : List UInt8) : Prop :=
  ∀ s, At env src pc l s → (Returns (step env) s r ↔ Done env (outline src pc l) s.buf r)

theorem at_cp2 (hpc : pc ≠ .bracket) (hloop : s.pc = pc) (htoks : s.toks.source env.name = src)
    (hcp2 : s.cp2 = l ++ [NUL]) : At env src pc l s :=
  ⟨hloop, htoks, by rw [State.ahead, hloop, if_neg hpc, hcp2], Or.inl hpc⟩

theorem at_bracket (hloop : s.pc = .bracket) (htoks : s.toks.source env.name = src) (hmatched : s.matched = false)
    (hcp2 : s.cp2.drop 1 = l ++ [NUL]) : At env src .bracket l s :=
  ⟨hloop, htoks, by rw [State.ahead, hloop, if_pos rfl, hcp2], Or.inr hmatched⟩

theorem At.unmatched (h : At env src .bracket l s) : s.matched = false := h.matched.resolve_left fun hne => hne rfl

theorem At.drop (h : At env src .bracket l s) : s.cp2.drop 1 = l ++ [NUL] := by
  rw [← h.ahead, State.ahead, if_pos h.loop]

/-! ### A character of the outpattern -/

theorem agrees_backslash (hl : NUL ∉ l) (hnext : l ≠ [] → Agrees env src r .mapout l.tail) :
    Agrees env src r .mapout (BACKSLASH :: l) := by
  intro s h
  have hstep := step_mapout_cons env (l := l) h.loop (h.cp2 (by decide)) (by decide)
  rw [if_pos rfl] at hstep
  rw [outline, if_pos rfl]
  by_cases hne : l = []
  · subst hne
    rw [if_neg fun hne => hne rfl] at hstep
    rw [if_pos rfl, returns_inl hstep]
    exact returns_mapout_nil src (at_cp2 (by decide) h.loop h.toks rfl)
  · rw [if_pos ((headD_ne_nul hl).mpr hne)] at hstep
    rw [if_neg hne, done_before, returns_bind hstep]
    refine exists_congr fun buf => and_congr_right fun _ => ?_
    exact hnext hne _ (at_cp2 (by decide) h.loop h.toks (tail_append hne))

theorem agrees_open (hnext : Agrees env src r .bracket l) : Agrees env src r .mapout (OPEN :: l) := by
  intro s h
  have hstep := step_mapout_cons env (l := l) h.loop (h.cp2 (by decide)) (by decide)
  rw [if_neg (by decide), if_pos rfl] at hstep
  rw [outline, if_neg (by decide), if_pos rfl, returns_inl hstep]
  exact hnext _ (at_bracket rfl h.toks rfl (by rw [h.cp2 (by decide)]; rfl))

theorem agrees_var (hc : c ≠ NUL) (hb : c ≠ BACKSLASH) (ho : c ≠ OPEN) (hvar : isVar (c :: l) = true)
    (hnext : Agrees env src r .mapout l.tail) : Agrees env src r .mapout (c :: l) := by
  intro s h
  have hstep := step_mapout_cons env (l := l) h.loop (h.cp2 (by decide)) hc
  rw [if_neg hb, if_neg ho, if_pos hvar] at hstep
  rw [outline, if_neg hb, if_neg ho, if_pos hvar, ← h.toks, done_cpSubst env s.toks s.buf c l, returns_bind hstep]
  refine exists_congr fun p => and_congr_right fun _ => ?_
  rw [h.toks]
  exact hnext _ (at_cp2 (by decide) h.loop h.toks (tail_append (tail_ne_nil_of_isVar hvar)))

theorem agrees_char (hc : c ≠ NUL) (hb : c ≠ BACKSLASH) (ho : c ≠ OPEN) (hvar : ¬ isVar (c :: l) = true)
    (hnext : Agrees env src r .mapout l) : Agrees env src r .mapout (c :: l) := by
  intro s h
  have hstep := step_mapout_cons env (l := l) h.loop (h.cp2 (by decide)) hc
  rw [if_neg hb, if_neg ho, if_neg hvar] at hstep
  rw [outline, if_neg hb, if_neg ho, if_neg hvar, done_before, returns_bind hstep]
  refine exists_congr fun buf => and_congr_right fun _ => ?_
  exact hnext _ (at_cp2 (by decide) h.loop h.toks rfl)

/-! ### A pair -/

theorem agrees_bracket_literal (hvar : ¬ isVar l = true) (houtline : outline src .bracket l = outline src .literal l)
    (hnext : Agrees env src r .literal l) : Agrees env src r .bracket l := by
  intro s h
  have hstep := step_bracket env (l := l) h.loop h.unmatched h.drop
  rw [if_neg hvar] at hstep
  rw [houtline, returns_inl hstep]
  exact hnext _ (at_cp2 (by decide) rfl h.toks rfl)

theorem headD_eq_iff {y : UInt8} {l : List UInt8} (hy : y ≠ NUL) : l.headD NUL = y ↔ l.head? = some y := by
  cases l with
  | nil => exact ⟨fun h => absurd h.symm hy, fun h => by cases h⟩
  | cons c l => exact ⟨congrArg some, Option.some.inj⟩

theorem ne_nil_of_head? {y : UInt8} (h : l.head? = some y) : l ≠ [] := by
  rintro rfl
  cases h

/-- A variable in brackets: it is copied, and the character behind it says where to go on. -/
theorem agrees_bracket_var {d : UInt8} {t : List UInt8} (hvar : isVar (c :: d :: t) = true)
    (hcomma : Agrees env src r .bracket t.tail) (hclose : Agrees env src r .mapout t.tail)
    (hnext : Agrees env src r .bracket t) : Agrees env src r .bracket (c :: d :: t) := by
  intro s h
  have hstep := step_bracket env (l := c :: d :: t) h.loop h.unmatched h.drop
  have hpeek : peek ((c :: d :: t ++ [NUL]).drop 1) 1 = .ok (t.headD NUL) := peek_zero t
  rw [if_pos hvar] at hstep
  simp only [hpeek, ok_bind] at hstep
  have hsubst := done_cpSubst (o := if t.head? = some COMMA then outline src .bracket t.tail
    else if t.head? = some CLOSE then outline src .mapout t.tail else outline src .bracket t) (r := r)
    env s.toks s.buf c (d :: t)
  rw [h.toks] at hsubst
  rw [outline, if_pos hvar]
  refine Iff.trans ?_ hsubst.symm
  by_cases h₁ : t.head? = some COMMA
  · simp only [if_pos ((headD_eq_iff (by decide)).mpr h₁)] at hstep
    simp only [if_pos h₁, returns_bind hstep]
    refine exists_congr fun p => and_congr_right fun _ => ?_
    exact hcomma _ (at_bracket h.loop h.toks h.unmatched (tail_append (ne_nil_of_head? h₁)))
  · simp only [if_neg fun heq => h₁ ((headD_eq_iff (by decide)).mp heq)] at hstep
    simp only [if_neg h₁]
    by_cases h₂ : t.head? = some CLOSE
    · simp only [if_pos ((headD_eq_iff (by decide)).mpr h₂)] at hstep
      simp only [if_pos h₂, returns_bind hstep]
      refine exists_congr fun p => and_congr_right fun _ => ?_
      exact hclose _ (at_cp2 (by decide) rfl h.toks (tail_append (ne_nil_of_head? h₂)))
    · simp only [if_neg fun heq => h₂ ((headD_eq_iff (by decide)).mp heq)] at hstep
      simp only [if_neg h₂, returns_bind hstep]
      refine exists_congr fun p => and_congr_right fun _ => ?_
      exact hnext _ (at_bracket h.loop h.toks h.unmatched rfl)

/-! ### A literal in brackets -/

theorem agrees_literal_end (hc : c ≠ NUL) (hend : c = COMMA ∨ c = CLOSE) (hnext : Agrees env src r .skip (c :: l)) :
    Agrees env src r .literal (c :: l) := by
  intro s h
  have hstep := step_literal_cons env (l := l) h.loop (h.cp2 (by decide)) hc
  rw [if_pos hend] at hstep
  rw [outline, if_pos hend, returns_inl hstep]
  exact hnext _ (at_cp2 (by decide) rfl h.toks (h.cp2 (by decide)))

theorem agrees_literal_backslash (hnext : Agrees env src r .literal l) : Agrees env src r .literal (BACKSLASH :: l) := by
  intro s h
  have hend : ¬ (BACKSLASH = COMMA ∨ BACKSLASH = CLOSE) := by decide
  have hstep := step_literal_cons env (l := l) h.loop (h.cp2 (by decide)) (by decide)
  rw [if_neg hend, if_pos rfl] at hstep
  rw [outline, if_neg hend, if_pos rfl, returns_inl hstep]
  exact hnext _ (at_cp2 (by decide) h.loop h.toks rfl)

/-- A variable without a text: its digit is stored. -/
theorem agrees_literal_unset (hc : c ≠ NUL) (hend : ¬ (c = COMMA ∨ c = CLOSE)) (hb : c ≠ BACKSLASH)
    (hvar : isVar (c :: l) = true ∧ src (l.headD NUL) = none) (hnext : Agrees env src r .literal l.tail) :
    Agrees env src r .literal (c :: l) := by
  intro s h
  have hstep := step_literal_cons env (l := l) h.loop (h.cp2 (by decide)) hc
  rw [if_neg hend, if_neg hb, if_pos hvar.1] at hstep
  simp only [cpSubst_eq, h.toks, hvar.2, ok_bind, if_neg Bool.false_ne_true] at hstep
  rw [outline, if_neg hend, if_neg hb, if_pos hvar, done_before, returns_bind hstep]
  refine exists_congr fun buf => and_congr_right fun _ => ?_
  exact hnext _ (at_cp2 (by decide) h.loop h.toks (tail_append (tail_ne_nil_of_isVar hvar.1)))

/-- The digit of a variable is not passed. -/
theorem not_returns_digit (hvar : isVar (c :: l) = true) (h : At env src .literal l s) : ¬ Returns (step env) s r := by
  obtain ⟨d, t, rfl⟩ := List.exists_cons_of_ne_nil (tail_ne_nil_of_isVar hvar)
  have hd := isdigit_of_isVar hvar
  have hne : ∀ e : UInt8, isdigit e = false → d ≠ e := by
    rintro e he rfl
    rw [hd] at he
    cases he
  have hnot : ¬ isVar (d :: t) = true := by
    intro hv
    exact hne DOLLAR rfl (Option.some.inj (of_decide_eq_true (Bool.and_eq_true_iff.mp hv).1))
  have hstep := step_literal_cons env (l := t) h.loop (h.cp2 (by decide)) (hne NUL rfl)
  rw [if_neg (fun hor => hor.elim (hne COMMA rfl) (hne CLOSE rfl)), if_neg (hne BACKSLASH rfl), if_neg hnot] at hstep
  exact not_returns_loop hstep

/-- Any other character is not passed, nor is a variable with a text. -/
theorem agrees_literal_stuck (hc : c ≠ NUL) (hend : ¬ (c = COMMA ∨ c = CLOSE)) (hb : c ≠ BACKSLASH)
    (hvar : ¬ (isVar (c :: l) = true ∧ src (l.headD NUL) = none)) : Agrees env src r .literal (c :: l) := by
  intro s h
  have hstep := step_literal_cons env (l := l) h.loop (h.cp2 (by decide)) hc
  rw [if_neg hend, if_neg hb] at hstep
  rw [outline, if_neg hend, if_neg hb, if_neg hvar]
  refine ⟨fun hr => absurd hr ?_, fun hd => absurd hd not_done_none⟩
  by_cases hv : isVar (c :: l) = true
  · obtain ⟨t, hsome⟩ := Option.ne_none_iff_exists'.mp fun hnone => hvar ⟨hv, hnone⟩
    rw [if_pos hv] at hstep
    cases hp : cpSubst env s.toks s.buf (c :: l ++ [NUL]) with
    | error e =>
      rw [hp] at hstep
      exact not_returns_error hstep
    | ok p =>
      rw [hp, ok_bind] at hstep
      rw [cpSubst_eq, h.toks, hsome] at hp
      obtain ⟨b₁, -, hp⟩ := bind_eq_ok.mp hp
      obtain rfl := Except.ok.inj hp
      rw [if_pos rfl] at hstep
      rw [returns_inl hstep]
      exact not_returns_digit hv (at_cp2 (by decide) h.loop h.toks rfl)
  · rw [if_neg hv] at hstep
    exact not_returns_loop hstep

/-! ### What is skipped -/

theorem agrees_skip_close (hnext : Agrees env src r .mapout l) : Agrees env src r .skip (CLOSE :: l) := by
  intro s h
  have hstep := step_skip_cons env (l := l) h.loop (h.cp2 (by decide)) (by decide)
  rw [if_pos rfl] at hstep
  rw [outline, if_pos rfl, returns_inl hstep]
  exact hnext _ (at_cp2 (by decide) rfl h.toks rfl)

theorem agrees_skip_backslash (hl : NUL ∉ l) (hclose : c ≠ CLOSE) (hc : c ≠ NUL) (hb : c = BACKSLASH ∧ l ≠ [])
    (hnext : Agrees env src r .skip l.tail) : Agrees env src r .skip (c :: l) := by
  intro s h
  have hstep := step_skip_cons env (l := l) h.loop (h.cp2 (by decide)) hc
  rw [if_neg hclose, if_pos ⟨hb.1, (headD_ne_nul hl).mpr hb.2⟩] at hstep
  rw [outline, if_neg hclose, if_pos hb, returns_inl hstep]
  exact hnext _ (at_cp2 (by decide) h.loop h.toks (tail_append hb.2))

theorem agrees_skip_char (hl : NUL ∉ l) (hclose : c ≠ CLOSE) (hc : c ≠ NUL) (hb : ¬ (c = BACKSLASH ∧ l ≠ []))
    (hnext : Agrees env src r .skip l) : Agrees env src r .skip (c :: l) := by
  intro s h
  have hstep := step_skip_cons env (l := l) h.loop (h.cp2 (by decide)) hc
  rw [if_neg hclose, if_neg fun hcond => hb ⟨hcond.1, (headD_ne_nul hl).mp hcond.2⟩] at hstep
  rw [outline, if_neg hclose, if_neg hb, returns_inl hstep]
  exact hnext _ (at_cp2 (by decide) h.loop h.toks rfl)

/-- From a loop over mapout on, domap returns just if what is copied then has room. -/
theorem returns_outline (hpc : pc ≠ .mapin) (hl : NUL ∉ l) : Agrees env src r pc l := by
  induction pc, l using outline.induct src with
  | case1 => exact absurd rfl hpc
  | case2 =>
    intro s h
    rw [outline]
    exact returns_mapout_nil src h
  | case3 => exact agrees_backslash List.not_mem_nil fun hne => absurd rfl hne
  | case4 l hne ih =>
    rw [List.mem_cons, not_or] at hl
    exact agrees_backslash hl.2 fun _ => ih (by decide) fun hmem => hl.2 (List.mem_of_mem_tail hmem)
  | case5 l _ ih =>
    rw [List.mem_cons, not_or] at hl
    exact agrees_open (ih (by decide) hl.2)
  | case6 c l hb ho hvar ih =>
    rw [List.mem_cons, not_or] at hl
    exact agrees_var (Ne.symm hl.1) hb ho hvar (ih (by decide) fun hmem => hl.2 (List.mem_of_mem_tail hmem))
  | case7 c l hb ho hvar ih =>
    rw [List.mem_cons, not_or] at hl
    exact agrees_char (Ne.symm hl.1) hb ho hvar (ih (by decide) hl.2)
  | case8 =>
    refine agrees_bracket_literal (by decide) (by rw [outline, outline]) ?_
    intro s h
    rw [outline]
    exact returns_literal_nil src h
  | case9 c l hvar ih3 ih2 ih1 =>
    obtain ⟨d, t, rfl⟩ := List.exists_cons_of_ne_nil (tail_ne_nil_of_isVar hvar)
    rw [List.mem_cons, not_or, List.mem_cons, not_or] at hl
    have htail : NUL ∉ t.tail := fun hmem => hl.2.2 (List.mem_of_mem_tail hmem)
    exact agrees_bracket_var hvar (ih3 (by decide) htail) (ih2 (by decide) htail) (ih1 (by decide) hl.2.2)
  | case10 c l hvar ih => exact agrees_bracket_literal hvar (by rw [outline, if_neg hvar]) (ih (by decide) hl)
  | case11 =>
    intro s h
    rw [outline]
    exact returns_literal_nil src h
  | case12 c l hend ih =>
    exact agrees_literal_end (fun heq => hl (heq ▸ List.mem_cons_self)) hend (ih (by decide) hl)
  | case13 l _ ih =>
    rw [List.mem_cons, not_or] at hl
    exact agrees_literal_backslash (ih (by decide) hl.2)
  | case14 c l hend hb hvar ih =>
    rw [List.mem_cons, not_or] at hl
    exact agrees_literal_unset (Ne.symm hl.1) hend hb hvar (ih (by decide) fun hmem => hl.2 (List.mem_of_mem_tail hmem))
  | case15 c l hend hb hvar =>
    rw [List.mem_cons, not_or] at hl
    exact agrees_literal_stuck (Ne.symm hl.1) hend hb hvar
  | case16 =>
    intro s h
    rw [outline]
    exact returns_skip_nil src h
  | case17 l ih =>
    rw [List.mem_cons, not_or] at hl
    exact agrees_skip_close (ih (by decide) hl.2)
  | case18 c l hclose hb ih =>
    rw [List.mem_cons, not_or] at hl
    exact agrees_skip_backslash hl.2 hclose (Ne.symm hl.1) hb
      (ih (by decide) fun hmem => hl.2 (List.mem_of_mem_tail hmem))
  | case19 c l hclose hb ih =>
    rw [List.mem_cons, not_or] at hl
    exact agrees_skip_char hl.2 hclose (Ne.symm hl.1) hb (ih (by decide) hl.2)

end

/-! ## The loop over mapin -/

section

variable {x : UInt8} {name : List UInt8}

theorem advance_eq (name l : List UInt8) (hname : NUL ∉ name) (hl : NUL ∉ l) (hcp1 : s.cp1 = name ++ [NUL])
    (hcp2 : s.cp2 = l ++ [NUL]) (hmatched : s.matched = true) :
    s.advance = .ok { s with cp1 := name.tail ++ [NUL], cp2 := l.tail ++ [NUL] } := by
  have hdrop : ∀ {t : List UInt8}, NUL ∉ t →
      (if s.matched = true ∧ t.headD NUL ≠ NUL then (t ++ [NUL]).drop 1 else t ++ [NUL]) = t.tail ++ [NUL] := by
    intro t ht
    cases t with
    | nil => rw [if_neg fun h => h.2 rfl, List.tail_nil]
    | cons d t =>
      rw [if_pos ⟨hmatched, (headD_ne_nul ht).mpr (List.cons_ne_nil d t)⟩]
      rfl
  rw [State.advance, hcp1, hcp2]
  simp only [peek_zero, ok_bind, hdrop hname, hdrop hl]
  rfl

theorem advance_unmatched {name l : List UInt8} (hcp1 : s.cp1 = name ++ [NUL]) (hcp2 : s.cp2 = l ++ [NUL])
    (hmatched : s.matched = false) : s.advance = .ok s := by
  have hnot : ∀ P : Prop, ¬ (s.matched = true ∧ P) := fun P h => Bool.false_ne_true (hmatched.symm.trans h.1)
  rw [State.advance, hcp1, hcp2]
  simp only [peek_zero, ok_bind, if_neg (hnot _)]
  rw [← hcp1, ← hcp2]
  rfl

/-- A character of the inpattern. -/
theorem compare_advance {l : List UInt8} (hname : NUL ∉ x :: name) (hl : NUL ∉ l) (hcp1 : s.cp1 = x :: name ++ [NUL])
    (hcp2 : s.cp2 = l ++ [NUL]) (hmatched : s.matched = true) :
    (s.compare >>= fun s => s.advance) = .ok (if l.head? = some x then
      { s with cp1 := name ++ [NUL], cp2 := l.tail ++ [NUL] } else { s with matched := false }) := by
  have hx : x ≠ NUL := fun h => hname (h ▸ List.mem_cons_self)
  have hcompare : s.compare = .ok (if l.headD NUL ≠ x then { s with matched := false } else s) := by
    have hzero : peek (x :: name ++ [NUL]) 0 = .ok x := rfl
    rw [State.compare, hcp1, hcp2, hzero, peek_zero]
    rfl
  rw [hcompare, ok_bind]
  by_cases heq : l.head? = some x
  · rw [if_neg fun hne => hne ((headD_eq_iff hx).mpr heq), if_pos heq]
    exact advance_eq _ _ hname hl hcp1 hcp2 hmatched
  · rw [if_pos fun h => heq ((headD_eq_iff hx).mp h), if_neg heq]
    exact advance_unmatched (s := { s with matched := false }) hcp1 hcp2 rfl

/-- The text of a variable ends in front of the character behind it, or with the name. -/
theorem takeWhile_goes {name : List UInt8} (hname : NUL ∉ name) (l : List UInt8) :
    (name ++ [NUL]).takeWhile (fun y => y ≠ NUL && y ≠ l.headD NUL) = name.takeWhile (fun y => some y ≠ l.head?) ∧
      (name ++ [NUL]).dropWhile (fun y => y ≠ NUL && y ≠ l.headD NUL) =
        name.dropWhile (fun y => some y ≠ l.head?) ++ [NUL] := by
  induction name with
  | nil => exact ⟨rfl, rfl⟩
  | cons y name ih =>
    obtain ⟨htake, hdrop⟩ := ih fun h => hname (List.mem_cons_of_mem _ h)
    have hy : y ≠ NUL := fun h => hname (h ▸ List.mem_cons_self)
    by_cases hstop : l.head? = some y
    · have hcond : ¬ (y ≠ NUL && y ≠ l.headD NUL) = true := by
        rw [(headD_eq_iff hy).mpr hstop]
        simp
      have hcond' : ¬ decide (some y ≠ l.head?) = true := fun h => of_decide_eq_true h hstop.symm
      rw [List.cons_append, List.takeWhile_cons, List.takeWhile_cons, List.dropWhile_cons, List.dropWhile_cons,
        if_neg hcond, if_neg hcond', if_neg hcond, if_neg hcond']
      exact ⟨rfl, rfl⟩
    · have hne : y ≠ l.headD NUL := fun h => hstop ((headD_eq_iff hy).mp h.symm)
      have hcond : (y ≠ NUL && y ≠ l.headD NUL) = true :=
        Bool.and_eq_true_iff.mpr ⟨decide_eq_true hy, decide_eq_true hne⟩
      have hcond' : decide (some y ≠ l.head?) = true := decide_eq_true fun h => hstop h.symm
      rw [List.cons_append, List.takeWhile_cons, List.takeWhile_cons, List.dropWhile_cons, List.dropWhile_cons,
        if_pos hcond, if_pos hcond', if_pos hcond, if_pos hcond', htake, hdrop]
      exact ⟨rfl, rfl⟩

/-- A variable of the inpattern. -/
theorem token_advance {d : UInt8} {l : List UInt8} (hname : NUL ∉ x :: name) (hl : NUL ∉ l)
    (hcp1 : s.cp1 = x :: name ++ [NUL]) (hcp2 : s.cp2 = c :: d :: l ++ [NUL]) (hmatched : s.matched = true) :
    (s.token d >>= fun s => s.advance) =
      if l.head? = some x then .ok { s with cp1 := name ++ [NUL], cp2 := l.tail ++ [NUL] }
      else if (d - ONE).toNat < 9 then
        .ok { s with
          toknum := (d - ONE).toNat
          toks := s.toks.set (d - ONE).toNat (some (x :: name.takeWhile fun y => some y ≠ l.head?))
          cp1 := (name.dropWhile fun y => some y ≠ l.head?).tail ++ [NUL]
          cp2 := l.tail ++ [NUL] }
      else .error .toks := by
  have hx : x ≠ NUL := fun h => hname (h ▸ List.mem_cons_self)
  have hrest : NUL ∉ name := fun h => hname (List.mem_cons_of_mem _ h)
  have hzero : peek (x :: name ++ [NUL]) 0 = .ok x := rfl
  have htwo : peek (c :: d :: l ++ [NUL]) 2 = .ok (l.headD NUL) := peek_zero l
  have hdrop : (c :: d :: l ++ [NUL]).drop 2 = l ++ [NUL] := rfl
  have hdrop' : (x :: name ++ [NUL]).drop 1 = name ++ [NUL] := rfl
  obtain ⟨htake, hdropWhile⟩ := takeWhile_goes hrest l
  have htoken : s.token d =
      if x = l.headD NUL then .ok { s with cp2 := l ++ [NUL] }
      else if (d - ONE).toNat < 9 then
        .ok { s with
          toknum := (d - ONE).toNat
          toks := s.toks.set (d - ONE).toNat (some (x :: name.takeWhile fun y => some y ≠ l.head?))
          cp1 := (name.dropWhile fun y => some y ≠ l.head?) ++ [NUL]
          cp2 := l ++ [NUL] }
      else .error .toks := by
    rw [State.token]
    simp only [hcp1, hcp2, hzero, htwo, ok_bind, hdrop, hdrop', htake, hdropWhile]
    rfl
  rw [htoken]
  by_cases heq : l.head? = some x
  · rw [if_pos ((headD_eq_iff hx).mpr heq).symm, if_pos heq, ok_bind]
    exact advance_eq (s := { s with cp2 := l ++ [NUL] }) _ _ hname hl hcp1 rfl hmatched
  · rw [if_neg fun h => heq ((headD_eq_iff hx).mp h.symm), if_neg heq]
    by_cases hnine : (d - ONE).toNat < 9
    · rw [if_pos hnine, if_pos hnine, ok_bind]
      refine advance_eq (name.dropWhile fun y => some y ≠ l.head?) l ?_ hl rfl rfl hmatched
      exact fun h => hrest ((List.dropWhile_suffix _).mem h)
    · rw [if_neg hnine, if_neg hnine]
      rfl

theorem ne_nil_of_any {p : UInt8 → Bool} {l : List UInt8} (h : l.head?.any p = true) : l ≠ [] := by
  rintro rfl
  cases h

theorem any_fromOne (l : List UInt8) : l.head?.any fromOne = fromOne (l.headD NUL) := by
  cases l <;> rfl

theorem step_mapin_cons (env : Env) {l : List UInt8} (hname : NUL ∉ x :: name) (hl : NUL ∉ c :: l) (hpc : s.pc = .mapin)
    (hcp1 : s.cp1 = x :: name ++ [NUL]) (hcp2 : s.cp2 = c :: l ++ [NUL]) (hmatched : s.matched = true) :
    step env s =
      (if c = BACKSLASH then { s with cp2 := l ++ [NUL] }.compare >>= fun s => s.advance
      else if c = DOLLAR ∧ l.head?.any fromOne = true then s.token (l.headD NUL) >>= fun s => s.advance
      else s.compare >>= fun s => s.advance) >>= fun s => .ok (.inl s) := by
  have hx : x ≠ NUL := fun h => hname (h ▸ List.mem_cons_self)
  have hc : c ≠ NUL := fun h => hl (h ▸ List.mem_cons_self)
  have hzero : peek s.cp1 0 = .ok x := by rw [hcp1]; rfl
  have hzero' : peek s.cp2 0 = .ok c := by rw [hcp2]; rfl
  have hone : peek s.cp2 1 = .ok (l.headD NUL) := by rw [hcp2]; exact peek_zero l
  have hdrop : s.cp2.drop 1 = l ++ [NUL] := by rw [hcp2]; rfl
  have hcond : s.matched = true ∧ x ≠ NUL ∧ c ≠ NUL := ⟨hmatched, hx, hc⟩
  rw [step, hpc, any_fromOne]
  simp only [State.stepMapin, hpc, hzero, hzero', ok_bind, hdrop, hone, if_pos hcond]
  by_cases hb : c = BACKSLASH
  · rw [if_pos hb, if_pos hb]
  · rw [if_neg hb, if_neg hb]
    by_cases hd : c = DOLLAR
    · have hnine : c + 1 ≤ 0x39 := by rw [hd]; decide
      rw [if_pos hd]
      by_cases hdigit : fromOne (l.headD NUL) = true
      · rw [if_pos ⟨hdigit, hnine⟩, if_pos ⟨hd, hdigit⟩]
      · rw [if_neg fun h => hdigit h.1, if_neg fun h => hdigit h.2]
    · rw [if_neg hd, if_neg fun h => hd h.1]

theorem step_mapin_end {l : List UInt8} (hname : NUL ∉ name) (hl : NUL ∉ l) (hpc : s.pc = .mapin)
    (hcp1 : s.cp1 = name ++ [NUL]) (hcp2 : s.cp2 = l ++ [NUL]) (hend : ¬ (s.matched = true ∧ name ≠ [] ∧ l ≠ []))
    (hput : s.buf.moved = false ∧ s.buf.text.length < s.buf.len) :
    step env s = .ok (.inl { s with
      pc := .mapout
      toks := if s.matched = false ∧ name ≠ [] then s.toks.set s.toknum none else s.toks
      cp2 := env.mapout ++ [NUL] }) := by
  have hbuf : s.buf.put NUL = .ok { s.buf with text := s.buf.text ++ [NUL] } := if_pos hput
  have hzero : peek s.cp1 0 = .ok (name.headD NUL) := by rw [hcp1]; exact peek_zero name
  have hzero' : peek s.cp2 0 = .ok (l.headD NUL) := by rw [hcp2]; exact peek_zero l
  have hcond : ¬ (s.matched = true ∧ name.headD NUL ≠ NUL ∧ l.headD NUL ≠ NUL) := by
    rw [headD_ne_nul hname, headD_ne_nul hl]
    exact hend
  rw [step, hpc]
  simp only [State.stepMapin, hzero, hzero', ok_bind, if_neg hcond, hbuf]
  simp only [headD_ne_nul hname]
  rfl

/-- In the loop over mapin, with this of the name and the pattern ahead. -/
structure Matching (name l : List UInt8) (n : Nat) (t : Toks) (s : State) : Prop where
  loop : s.pc = .mapin
  cp1 : s.cp1 = name ++ [NUL]
  cp2 : s.cp2 = l ++ [NUL]
  matched : s.matched = true
  toknum : s.toknum = n
  toks : s.toks = t
  room : s.buf.moved = false ∧ s.buf.text.length < s.buf.len

/-- The outpattern is gone through with these variables. -/
def Through (env : Env) (t : Option Toks) (b : Buf) (r : Result) : Prop :=
  ∃ t', t = some t' ∧ Done env (outline (t'.source env.name) .mapout env.mapout) b r

theorem through_some {t : Toks} :
    Through env (some t) b r ↔ Done env (outline (t.source env.name) .mapout env.mapout) b r := by
  constructor
  · intro h
    obtain ⟨t', heq, hd⟩ := h
    obtain rfl := Option.some.inj heq
    exact hd
  · intro hd
    exact ⟨t, rfl, hd⟩

/-- The loop over mapin is left. -/
theorem returns_end (env : Env) {l : List UInt8} (hmapout : NUL ∉ env.mapout) (hname : NUL ∉ name) (hl : NUL ∉ l)
    (hpc : s.pc = .mapin) (hcp1 : s.cp1 = name ++ [NUL]) (hcp2 : s.cp2 = l ++ [NUL]) (hend : ¬ (s.matched = true ∧ name ≠ [] ∧ l ≠ []))
    (hput : s.buf.moved = false ∧ s.buf.text.length < s.buf.len) :
    Returns (step env) s r ↔
      Through env (some (if s.matched = false ∧ name ≠ [] then s.toks.set s.toknum none else s.toks)) s.buf r := by
  rw [returns_inl (step_mapin_end hname hl hpc hcp1 hcp2 hend hput), through_some]
  exact returns_outline (by decide) hmapout _ (at_cp2 (by decide) rfl rfl rfl)

/-- A character of the name is another than that of the inpattern. -/
theorem returns_mismatch {l : List UInt8} (hmapout : NUL ∉ env.mapout) (hname : NUL ∉ x :: name) (hl : NUL ∉ l)
    (hpc : s.pc = .mapin) (hcp1 : s.cp1 = x :: name ++ [NUL]) (hcp2 : s.cp2 = l ++ [NUL])
    (hput : s.buf.moved = false ∧ s.buf.text.length < s.buf.len) :
    Returns (step env) { s with matched := false } r ↔ Through env (some (s.toks.set s.toknum none)) s.buf r := by
  have hend := returns_end env (s := { s with matched := false }) (r := r) hmapout hname hl hpc hcp1 hcp2
    (fun h => Bool.false_ne_true h.1) hput
  rwa [if_pos ⟨rfl, List.cons_ne_nil x name⟩] at hend

/-- Whatever the inpattern makes of the name, the outpattern is gone through with it. -/
theorem returns_tokens {l : List UInt8} {n : Nat} {t : Toks} (hmapout : NUL ∉ env.mapout) (hname : NUL ∉ name)
    (hl : NUL ∉ l) (h : Matching name l n t s) : Returns (step env) s r ↔ Through env (tokens l name n t) s.buf r := by
  induction l, name, n, t using tokens.induct generalizing s with
  | case1 name n t =>
    rw [returns_end env hmapout hname hl h.loop h.cp1 h.cp2 (fun hand => hand.2.2 rfl) h.room, tokens, h.toks,
      if_neg fun hand => Bool.false_ne_true (hand.1.symm.trans h.matched)]
  | case2 c l n t =>
    rw [returns_end env hmapout hname hl h.loop h.cp1 h.cp2 (fun hand => hand.2.1 rfl) h.room, tokens, h.toks,
      if_neg fun hand => hand.2 rfl]
  | case3 l x name n t heq ih =>
    have hrest : NUL ∉ l := fun hmem => hl (List.mem_cons_of_mem _ hmem)
    have hstep := step_mapin_cons env hname hl h.loop h.cp1 h.cp2 h.matched
    rw [if_pos rfl, compare_advance (s := { s with cp2 := l ++ [NUL] }) hname hrest h.cp1 rfl h.matched, if_pos heq,
      ok_bind] at hstep
    rw [tokens, if_pos rfl, if_pos heq, returns_inl hstep]
    exact ih (fun hmem => hname (List.mem_cons_of_mem _ hmem)) (fun hmem => hrest (List.mem_of_mem_tail hmem))
      ⟨h.loop, rfl, rfl, h.matched, h.toknum, h.toks, h.room⟩
  | case4 l x name n t hne =>
    have hrest : NUL ∉ l := fun hmem => hl (List.mem_cons_of_mem _ hmem)
    have hstep := step_mapin_cons env hname hl h.loop h.cp1 h.cp2 h.matched
    rw [if_pos rfl, compare_advance (s := { s with cp2 := l ++ [NUL] }) hname hrest h.cp1 rfl h.matched, if_neg hne,
      ok_bind] at hstep
    rw [tokens, if_pos rfl, if_neg hne, returns_inl hstep, ← h.toknum, ← h.toks]
    exact returns_mismatch (s := { s with cp2 := l ++ [NUL] }) hmapout hname hrest h.loop h.cp1 rfl h.room
  | case5 c l x name n t hb hvar heq ih =>
    obtain ⟨d, l, rfl⟩ := List.exists_cons_of_ne_nil (ne_nil_of_any hvar.2)
    have hrest : NUL ∉ l := fun hmem => hl (List.mem_cons_of_mem _ (List.mem_cons_of_mem _ hmem))
    have hstep := step_mapin_cons env hname hl h.loop h.cp1 h.cp2 h.matched
    rw [if_neg hb, if_pos hvar, List.headD_cons, token_advance hname hrest h.cp1 h.cp2 h.matched,
      if_pos (show l.head? = some x from heq), ok_bind] at hstep
    rw [tokens, if_neg hb, if_pos hvar, if_pos heq, returns_inl hstep]
    exact ih (fun hmem => hname (List.mem_cons_of_mem _ hmem)) (fun hmem => hrest (List.mem_of_mem_tail hmem))
      ⟨h.loop, rfl, rfl, h.matched, h.toknum, h.toks, h.room⟩
  | case6 c l x name n t hb hvar hne hnine ih =>
    obtain ⟨d, l, rfl⟩ := List.exists_cons_of_ne_nil (ne_nil_of_any hvar.2)
    have hrest : NUL ∉ l := fun hmem => hl (List.mem_cons_of_mem _ (List.mem_cons_of_mem _ hmem))
    have hstep := step_mapin_cons env hname hl h.loop h.cp1 h.cp2 h.matched
    rw [if_neg hb, if_pos hvar, List.headD_cons, token_advance hname hrest h.cp1 h.cp2 h.matched,
      if_neg (show ¬ l.head? = some x from hne), if_pos (show (d - ONE).toNat < 9 from hnine), ok_bind] at hstep
    rw [tokens, if_neg hb, if_pos hvar, if_neg hne, if_pos hnine, returns_inl hstep]
    refine ih (fun hmem => hname (List.mem_cons_of_mem _ ?_)) (fun hmem => hrest (List.mem_of_mem_tail hmem))
      ⟨h.loop, rfl, rfl, h.matched, rfl, congrArg (fun u : Toks => u.set _ _) h.toks, h.room⟩
    exact (List.dropWhile_suffix _).mem (List.mem_of_mem_tail hmem)
  | case7 c l x name n t hb hvar hne hnine =>
    obtain ⟨d, l, rfl⟩ := List.exists_cons_of_ne_nil (ne_nil_of_any hvar.2)
    have hrest : NUL ∉ l := fun hmem => hl (List.mem_cons_of_mem _ (List.mem_cons_of_mem _ hmem))
    have hstep := step_mapin_cons env hname hl h.loop h.cp1 h.cp2 h.matched
    rw [if_neg hb, if_pos hvar, List.headD_cons, token_advance hname hrest h.cp1 h.cp2 h.matched,
      if_neg (show ¬ l.head? = some x from hne), if_neg (show ¬ (d - ONE).toNat < 9 from hnine)] at hstep
    rw [tokens, if_neg hb, if_pos hvar, if_neg hne, if_neg hnine]
    refine ⟨fun hr => absurd hr (not_returns_error hstep), ?_⟩
    intro h
    obtain ⟨t', heq, -⟩ := h
    cases heq
  | case8 l x name n t hb hvar ih =>
    have hrest : NUL ∉ l := fun hmem => hl (List.mem_cons_of_mem _ hmem)
    have hstep := step_mapin_cons env hname hl h.loop h.cp1 h.cp2 h.matched
    rw [if_neg hb, if_neg hvar, compare_advance hname hl h.cp1 h.cp2 h.matched, if_pos (List.head?_cons ..),
      ok_bind] at hstep
    rw [tokens, if_neg hb, if_neg hvar, if_pos rfl, returns_inl hstep]
    exact ih (fun hmem => hname (List.mem_cons_of_mem _ hmem)) hrest
      ⟨h.loop, rfl, rfl, h.matched, h.toknum, h.toks, h.room⟩
  | case9 c l x name n t hb hvar hne =>
    have hstep := step_mapin_cons env hname hl h.loop h.cp1 h.cp2 h.matched
    rw [if_neg hb, if_neg hvar, compare_advance hname hl h.cp1 h.cp2 h.matched,
      if_neg (show ¬ (c :: l).head? = some x from fun heq => hne (Option.some.inj heq)), ok_bind] at hstep
    rw [tokens, if_neg hb, if_neg hvar, if_neg hne, returns_inl hstep, ← h.toknum, ← h.toks]
    exact returns_mismatch hmapout hname hl h.loop h.cp1 h.cp2 h.room

end

end Netutils.Ftp.Domap
