/-
  Netutils.Telnetd.Login — the arguments of login: expand_line (telnetd/utility.c) and
  start_login (telnetd/pty.c).

  The template is expanded first and then cut into words, so what the peer has supplied is
  cut too. Each word of the template is one argument, whatever the template, exactly where
  no value is blank or has blanks or quotes in it (`login_args_iff`).
-/

import Netutils.Lib.Cells
import Netutils.Libinetutils.Argcv

namespace Netutils.Telnetd

open Netutils.Lib.Cells
open Netutils.Lib.Filling
open Netutils.Libinetutils

/-! ## expand_line -/

inductive ExpState where
  | continue
  | success
  | error
  /-- cp has left the source, behind a backslash that ends it or the NUL in the place of a name. -/
  | outside
  deriving DecidableEq

/-- struct line_expander; `cp` is the source from there on. -/
structure LineExpander (α : Type) where
  state : ExpState
  level : Int
  cp : List UInt8
  stk : List α

/-- What telnetd knows itself. -/
structure Own where
  /-- auth_level >= 0 && autologin == AUTH_VALID -/
  authValid : Bool
  /-- What strftime makes of the time. -/
  timebuf : CString
  localHostname : CString
  line : CString

inductive Supplied where
  | remoteHostname
  | terminaltype
  | userName
  deriving DecidableEq

section Expand

-- `lit` is a character on the stack, and `value` what the peer has supplied; `none` is NULL.
variable {α : Type} (lit : UInt8 → α) (own : Own) (value : Supplied → Option (List α))

/-- _var_short_name for a character; `none` where it does not know it. -/
def varShortName (c : UInt8) : Option (Option (List α)) :=
  let text (s : CString) : List α := s.1.map lit
  if c = 0x61 then some (if own.authValid then some ([0x6f, 0x6b].map lit) else none)
  else if c = 0x64 then some (some (text own.timebuf))
  else if c = 0x68 then some (value .remoteHostname)
  else if c = 0x6c then some (some (text own.localHostname))
  else if c = 0x74 then
    match (own.line.1.drop 1).dropWhile (· ≠ 0x2f) with
    | _ :: q => some (some (q.map lit))
    | [] => some (some (text own.line))
  else if c = 0x54 then some (value .terminaltype)
  else if c = 0x75 then some (value .userName)
  else none

def expandVar (exp : LineExpander α) : Option (List α) × LineExpander α :=
  match exp.cp with
  | [] => (none, { exp with state := .outside })
  | c :: cp =>
    if c = 0x7b then
      match cp.dropWhile (· ≠ 0x7d) with
      -- p still points into the source
      | [] => (some (cp.map lit), { exp with cp := cp, state := .error })
      -- _var_long_name
      | _ :: cp => (none, { exp with cp := cp, state := .error })
    else
      match varShortName lit own value c with
      | some p => (p, { exp with cp := cp })
      | none => (none, { exp with cp := cp, state := .error })

def skipLoop (start : Int) : Int → List UInt8 → Int × List UInt8
  | level, [] => (level, [])
  | level, c :: cp =>
    if c = 0x7b then skipLoop start (level + 1) cp
    else if c = 0x7d then if level - 1 = start then (level - 1, cp) else skipLoop start (level - 1) cp
    else skipLoop start level cp

def skipBlock (exp : LineExpander α) : LineExpander α :=
  if exp.cp.head? ≠ some 0x7b then exp
  else
    let r := skipLoop exp.level exp.level exp.cp
    { exp with level := r.1, cp := r.2 }

/-- `cp` is behind the %; `block` is _expand_block. -/
def expandCond (block : LineExpander α → LineExpander α) (exp : LineExpander α) : LineExpander α :=
  match exp.cp with
  | [] => (expandVar lit own value exp).2
  | c :: cp =>
    if c = 0x3f then
      let r := expandVar lit own value { exp with cp := cp }
      match r.1 with
      | some _ => skipBlock (block r.2)
      | none => block (skipBlock r.2)
    else
      let r := expandVar lit own value exp
      match r.1 with
      | some p => { r.2 with stk := r.2.stk ++ p }
      | none => r.2

/-- The inner loop of _expand_block, and whether it returns. -/
def copyLoop (start : Int) (state : ExpState) : Int → List α → List UInt8 → Bool × LineExpander α
  | level, stk, [] => (false, ⟨state, level, [], stk⟩)
  | level, stk, c :: cp =>
    if c = 0x25 then (false, ⟨state, level, c :: cp, stk⟩)
    else if c = 0x7b then copyLoop start state (level + 1) (stk ++ [lit c]) cp
    else if c = 0x7d then
      if level - 1 = start then (true, ⟨state, level - 1, cp, stk⟩)
      else copyLoop start state (level - 1) (stk ++ [lit c]) cp
    else if c = 0x5c then
      match cp with
      | d :: cp => copyLoop start state level (stk ++ [lit d]) cp
      | [] => (true, ⟨.outside, level, [], stk⟩)
    else copyLoop start state level (stk ++ [lit c]) cp

def enterBlock (loop : Int → LineExpander α → LineExpander α) (exp : LineExpander α) : LineExpander α :=
  if exp.cp.head? = some 0x7b then loop exp.level { exp with level := exp.level + 1, cp := exp.cp.tail }
  else loop exp.level exp

/-- The outer loop of _expand_block; `n` bounds the number of turns. -/
def blockLoop : Nat → Int → LineExpander α → LineExpander α
  | 0, _, exp => exp
  | n + 1, start, exp =>
    if exp.state ≠ .continue then exp
    else
      let r := copyLoop lit start exp.state exp.level exp.stk exp.cp
      if r.1 then r.2
      else
        match r.2.cp with
        | [] => { r.2 with state := .success }
        | c :: cp =>
          if cp.head? = some 0x25 then blockLoop n start { r.2 with cp := cp.tail, stk := r.2.stk ++ [lit c] }
          else blockLoop n start (expandCond lit own value (enterBlock (blockLoop n)) { r.2 with cp := cp })

def expandBlock (n : Nat) (exp : LineExpander α) : LineExpander α := enterBlock (blockLoop lit own value n) exp

/-- `none` where it fails. -/
def expandLine (line : List UInt8) : Option (List α) :=
  let exp := expandBlock lit own value (line.length + 1) ⟨.continue, 0, line, []⟩
  if exp.state = .success then some exp.stk else none

end Expand

/-! ## The loops end -/

section Ends

variable {α : Type} {lit : UInt8 → α} {own : Own} {value : Supplied → Option (List α)}

theorem copyLoop_suffix (start : Int) (state : ExpState) (level : Int) (stk : List α) (cp : List UInt8) :
    (copyLoop lit start state level stk cp).2.cp <:+ cp := by
  induction level, stk, cp using copyLoop.induct lit start with
  | case1 level stk => exact List.suffix_rfl
  | case2 level stk cp =>
    unfold copyLoop
    exact List.suffix_rfl
  | case3 level stk cp h1 ih =>
    unfold copyLoop
    simp only [if_neg h1, if_true]
    exact ih.trans (List.suffix_cons _ _)
  | case4 level stk cp h3 h1 h2 =>
    unfold copyLoop
    simp only [if_neg h1, if_neg h2, if_true, if_pos h3]
    exact List.suffix_cons _ _
  | case5 level stk cp h3 h1 h2 ih =>
    unfold copyLoop
    simp only [if_neg h1, if_neg h2, if_true, if_neg h3]
    exact ih.trans (List.suffix_cons _ _)
  | case6 level stk d cp h1 h2 h3 ih =>
    unfold copyLoop
    simp only [if_neg h1, if_neg h2, if_neg h3, if_true]
    exact ih.trans ((List.suffix_cons _ _).trans (List.suffix_cons _ _))
  | case7 level stk h1 h2 h3 => exact List.nil_suffix
  | case8 level stk c cp h1 h2 h3 h4 ih =>
    unfold copyLoop
    simp only [if_neg h1, if_neg h2, if_neg h3, if_neg h4]
    exact ih.trans (List.suffix_cons _ _)

theorem skipLoop_suffix (start level : Int) (cp : List UInt8) : (skipLoop start level cp).2 <:+ cp := by
  induction cp generalizing level with
  | nil => exact List.suffix_rfl
  | cons c cp ih =>
    unfold skipLoop
    split
    · exact (ih _).trans (List.suffix_cons _ _)
    split
    · split
      · exact List.suffix_cons _ _
      · exact (ih _).trans (List.suffix_cons _ _)
    · exact (ih _).trans (List.suffix_cons _ _)

theorem skipBlock_suffix (exp : LineExpander α) : (skipBlock exp).cp <:+ exp.cp := by
  unfold skipBlock
  split
  · exact List.suffix_rfl
  · exact skipLoop_suffix _ _ _

theorem expandVar_suffix (exp : LineExpander α) : (expandVar lit own value exp).2.cp <:+ exp.cp := by
  rcases exp with ⟨state, level, _ | ⟨c, cp⟩, stk⟩
  · exact List.suffix_rfl
  unfold expandVar
  simp only
  split
  · split
    · exact List.suffix_cons _ _
    · rename_i d rest hd
      have h : d :: rest <:+ cp := hd ▸ List.dropWhile_suffix _
      exact (List.suffix_cons _ _).trans (h.trans (List.suffix_cons _ _))
  · split <;> exact List.suffix_cons _ _

theorem expandCond_suffix {block : LineExpander α → LineExpander α} (hb : ∀ e, (block e).cp <:+ e.cp)
    (exp : LineExpander α) : (expandCond lit own value block exp).cp <:+ exp.cp := by
  rcases exp with ⟨state, level, _ | ⟨c, cp⟩, stk⟩
  · exact List.suffix_rfl
  unfold expandCond
  simp only
  have hvar : ∀ e : LineExpander α, (expandVar lit own value e).2.cp <:+ e.cp := expandVar_suffix
  split
  · have h := (hvar ⟨state, level, cp, stk⟩).trans (List.suffix_cons c cp)
    generalize expandVar lit own value ⟨state, level, cp, stk⟩ = r at h ⊢
    rcases r with ⟨_ | p, e⟩
    · exact (hb _).trans ((skipBlock_suffix e).trans h)
    · exact (skipBlock_suffix _).trans ((hb e).trans h)
  · have h := hvar ⟨state, level, c :: cp, stk⟩
    generalize expandVar lit own value ⟨state, level, c :: cp, stk⟩ = r at h ⊢
    rcases r with ⟨_ | p, e⟩
    · exact h
    · exact h

theorem enterBlock_suffix {loop : Int → LineExpander α → LineExpander α} (hl : ∀ start e, (loop start e).cp <:+ e.cp)
    (exp : LineExpander α) : (enterBlock loop exp).cp <:+ exp.cp := by
  unfold enterBlock
  split
  · exact (hl _ _).trans (List.tail_suffix _)
  · exact hl _ _

theorem blockLoop_suffix (n : Nat) (start : Int) (exp : LineExpander α) :
    (blockLoop lit own value n start exp).cp <:+ exp.cp := by
  induction n generalizing start exp with
  | zero => exact List.suffix_rfl
  | succ n ih =>
    have hcopy : (copyLoop lit start exp.state exp.level exp.stk exp.cp).2.cp <:+ exp.cp := copyLoop_suffix ..
    unfold blockLoop
    split
    · exact List.suffix_rfl
    simp only
    split
    · exact hcopy
    split
    · exact hcopy
    · rename_i c cp h
      rw [h] at hcopy
      have hcp := (List.suffix_cons c cp).trans hcopy
      split
      · exact (ih _ _).trans ((List.tail_suffix _).trans hcp)
      · exact (ih _ _).trans ((expandCond_suffix (enterBlock_suffix ih) _).trans hcp)

/-- A block is expanded only where the source is no longer than before it. -/
theorem expandCond_congr {block block' : LineExpander α → LineExpander α} {exp : LineExpander α}
    (hb : ∀ e, e.cp.length ≤ exp.cp.length → block e = block' e) :
    expandCond lit own value block exp = expandCond lit own value block' exp := by
  rcases exp with ⟨state, level, _ | ⟨c, cp⟩, stk⟩
  · rfl
  unfold expandCond
  simp only
  split
  · have h : (expandVar lit own value ⟨state, level, cp, stk⟩).2.cp <:+ cp := expandVar_suffix _
    generalize expandVar lit own value ⟨state, level, cp, stk⟩ = r at h ⊢
    rcases r with ⟨_ | p, e⟩
    · exact hb _ (Nat.le_succ_of_le ((skipBlock_suffix e).trans h).length_le)
    · exact congrArg skipBlock (hb e (Nat.le_succ_of_le h.length_le))
  · rfl

/-- The outer loop takes a character off the source in each turn. -/
theorem blockLoop_enough {n m : Nat} {start : Int} {exp : LineExpander α} (hn : exp.cp.length < n)
    (hm : exp.cp.length < m) : blockLoop lit own value n start exp = blockLoop lit own value m start exp := by
  induction n generalizing m start exp with
  | zero => exact absurd hn (Nat.not_lt_zero _)
  | succ n ih =>
    obtain ⟨m, rfl⟩ : ∃ k, m = k + 1 := ⟨m - 1, by omega⟩
    have hcopy : (copyLoop lit start exp.state exp.level exp.stk exp.cp).2.cp.length ≤ exp.cp.length :=
      (copyLoop_suffix ..).length_le
    unfold blockLoop
    split
    · rfl
    simp only
    split
    · rfl
    split
    · rfl
    · rename_i c cp h
      rw [h, List.length_cons] at hcopy
      have henter : ∀ e : LineExpander α, e.cp.length ≤ cp.length →
          enterBlock (blockLoop lit own value n) e = enterBlock (blockLoop lit own value m) e := by
        intro e he
        unfold enterBlock
        split
        · refine ih ?_ ?_
          · simp only [List.length_tail]
            omega
          · simp only [List.length_tail]
            omega
        · exact ih (by omega) (by omega)
      split
      · refine ih ?_ ?_
        · simp only [List.length_tail]
          omega
        · simp only [List.length_tail]
          omega
      · rw [expandCond_congr henter]
        generalize hr : (copyLoop lit start exp.state exp.level exp.stk exp.cp).2 = r
        have hcond : (expandCond lit own value (enterBlock (blockLoop lit own value m)) { r with cp := cp }).cp.length ≤
            cp.length := (expandCond_suffix (enterBlock_suffix (blockLoop_suffix m)) _).length_le
        exact ih (by omega) (by omega)

/-- As many turns as the source has characters, and one, are enough. -/
theorem expandBlock_enough {n : Nat} {exp : LineExpander α} (hn : exp.cp.length < n) :
    expandBlock lit own value n exp = expandBlock lit own value (exp.cp.length + 1) exp := by
  unfold expandBlock enterBlock
  split
  · refine blockLoop_enough ?_ ?_
    · simp only [List.length_tail]
      omega
    · simp only [List.length_tail]
      omega
  · exact blockLoop_enough hn (Nat.lt_succ_self _)

end Ends

/-! ## Values later -/

section Map

variable {α β : Type} (f : α → List β) {lit : UInt8 → α} {lit' : UInt8 → β} (own : Own)
  {value : Supplied → Option (List α)} {value' : Supplied → Option (List β)}

/-- The stack as `f` makes it. -/
def LineExpander.map (exp : LineExpander α) : LineExpander β :=
  ⟨exp.state, exp.level, exp.cp, exp.stk.flatMap f⟩

variable (hlit : ∀ c, f (lit c) = [lit' c]) (hvalue : ∀ k, value' k = (value k).map (List.flatMap f))
include hlit

theorem flatMap_lit (l : List UInt8) : (l.map lit).flatMap f = l.map lit' := by
  induction l with
  | nil => rfl
  | cons c l ih => rw [List.map_cons, List.flatMap_cons, hlit, ih]; rfl

theorem copyLoop_map (start : Int) (state : ExpState) (level : Int) (stk : List α) (cp : List UInt8) :
    copyLoop lit' start state level (stk.flatMap f) cp =
      ((copyLoop lit start state level stk cp).1, (copyLoop lit start state level stk cp).2.map f) := by
  have hpush : ∀ (stk : List α) c, stk.flatMap f ++ [lit' c] = (stk ++ [lit c]).flatMap f := by
    intro stk c
    rw [List.flatMap_append, List.flatMap_singleton, hlit]
  induction level, stk, cp using copyLoop.induct lit start with
  | case1 level stk => rfl
  | case2 level stk cp =>
    unfold copyLoop
    rfl
  | case3 level stk cp h1 ih =>
    unfold copyLoop
    simp only [if_neg h1, if_true, hpush]
    exact ih
  | case4 level stk cp h3 h1 h2 =>
    unfold copyLoop
    simp only [if_neg h1, if_neg h2, if_true, if_pos h3]
    rfl
  | case5 level stk cp h3 h1 h2 ih =>
    unfold copyLoop
    simp only [if_neg h1, if_neg h2, if_true, if_neg h3, hpush]
    exact ih
  | case6 level stk d cp h1 h2 h3 ih =>
    unfold copyLoop
    simp only [if_neg h1, if_neg h2, if_neg h3, if_true, hpush]
    exact ih
  | case7 level stk h1 h2 h3 => rfl
  | case8 level stk c cp h1 h2 h3 h4 ih =>
    unfold copyLoop
    simp only [if_neg h1, if_neg h2, if_neg h3, if_neg h4, hpush]
    exact ih

include hvalue

theorem varShortName_map (c : UInt8) :
    varShortName lit' own value' c = (varShortName lit own value c).map (Option.map (List.flatMap f)) := by
  have htext := flatMap_lit f hlit
  unfold varShortName
  simp only [apply_ite (Option.map (Option.map (List.flatMap f)))]
  simp only [Option.map_some, Option.map_none, htext, hvalue]
  congr 1
  · cases own.authValid
    · rfl
    · exact congrArg (fun l => some (some l)) (htext [0x6f, 0x6b]).symm
  · congr 4
    cases (own.line.1.drop 1).dropWhile (· ≠ 0x2f) with
    | nil => exact congrArg (fun l => some (some l)) (htext _).symm
    | cons d q => exact congrArg (fun l => some (some l)) (htext _).symm

theorem expandVar_map (exp : LineExpander α) :
    expandVar lit' own value' (exp.map f) =
      ((expandVar lit own value exp).1.map (List.flatMap f), (expandVar lit own value exp).2.map f) := by
  rcases exp with ⟨state, level, cp, stk⟩
  unfold expandVar LineExpander.map
  rcases cp with _ | ⟨c, cp⟩
  · rfl
  simp only
  by_cases hc : c = 0x7b
  · rw [if_pos hc, if_pos hc]
    cases cp.dropWhile (· ≠ 0x7d) with
    | nil => simp [flatMap_lit f hlit]
    | cons d cp => rfl
  · rw [if_neg hc, if_neg hc, varShortName_map f own hlit hvalue]
    rcases varShortName lit own value c with _ | p
    · rfl
    · rfl

theorem expandCond_map {block : LineExpander α → LineExpander α} {block' : LineExpander β → LineExpander β}
    (hb : ∀ exp, block' (exp.map f) = (block exp).map f) (exp : LineExpander α) :
    expandCond lit' own value' block' (exp.map f) = (expandCond lit own value block exp).map f := by
  have hvar := expandVar_map f own hlit hvalue
  have hskip : ∀ e : LineExpander α, skipBlock (e.map f) = (skipBlock e).map f := by
    intro e
    unfold skipBlock
    rw [show (e.map f).cp = e.cp from rfl]
    split <;> rfl
  rcases exp with ⟨state, level, _ | ⟨c, cp⟩, stk⟩
  · rfl
  unfold expandCond
  have hcp : (⟨state, level, c :: cp, stk⟩ : LineExpander α).map f = ⟨state, level, c :: cp, stk.flatMap f⟩ := rfl
  have hnext : (⟨state, level, cp, stk⟩ : LineExpander α).map f = ⟨state, level, cp, stk.flatMap f⟩ := rfl
  simp only [hcp]
  by_cases hc : c = 0x3f
  · rw [if_pos hc, if_pos hc, ← hnext, hvar]
    rcases (expandVar lit own value ⟨state, level, cp, stk⟩) with ⟨_ | p, e⟩
    · exact (congrArg block' (hskip e)).trans (hb _)
    · exact (congrArg skipBlock (hb e)).trans (hskip _)
  · rw [if_neg hc, if_neg hc, ← hcp, hvar]
    rcases (expandVar lit own value ⟨state, level, c :: cp, stk⟩) with ⟨_ | p, e⟩
    · rfl
    · simp [LineExpander.map]

omit hlit hvalue in
theorem enterBlock_map {loop : Int → LineExpander α → LineExpander α} {loop' : Int → LineExpander β → LineExpander β}
    (hl : ∀ start exp, loop' start (exp.map f) = (loop start exp).map f) (exp : LineExpander α) :
    enterBlock loop' (exp.map f) = (enterBlock loop exp).map f := by
  unfold enterBlock
  rw [show (exp.map f).cp = exp.cp from rfl]
  split
  · exact hl exp.level { exp with level := exp.level + 1, cp := exp.cp.tail }
  · exact hl exp.level exp

theorem blockLoop_map (n : Nat) (start : Int) (exp : LineExpander α) :
    blockLoop lit' own value' n start (exp.map f) = (blockLoop lit own value n start exp).map f := by
  induction n generalizing start exp with
  | zero => rfl
  | succ n ih =>
    unfold blockLoop
    rw [show (exp.map f).state = exp.state from rfl]
    by_cases hs : exp.state ≠ .continue
    · rw [if_pos hs, if_pos hs]
    rw [if_neg hs, if_neg hs, show (exp.map f).level = exp.level from rfl, show (exp.map f).cp = exp.cp from rfl,
      show (exp.map f).stk = exp.stk.flatMap f from rfl, copyLoop_map f hlit]
    rcases copyLoop lit start exp.state exp.level exp.stk exp.cp with ⟨_ | _, state, level, _ | ⟨c, cp⟩, stk⟩
    · rfl
    · have hone : stk.flatMap f ++ [lit' c] = (stk ++ [lit c]).flatMap f := by
        rw [List.flatMap_append, List.flatMap_singleton, hlit]
      simp only [LineExpander.map, Bool.false_eq_true, if_false]
      split
      · rw [hone]
        exact ih start ⟨state, level, cp.tail, stk ++ [lit c]⟩
      · have hcond := expandCond_map f own hlit hvalue (enterBlock_map f ih) ⟨state, level, cp, stk⟩
        exact (congrArg _ hcond).trans (ih start _)
    · rfl
    · rfl

/-- A line can be expanded with places for the values, which are filled afterwards. -/
theorem expandLine_map (line : List UInt8) :
    expandLine lit' own value' line = (expandLine lit own value line).map (List.flatMap f) := by
  have h : expandBlock lit' own value' (line.length + 1) ⟨.continue, 0, line, []⟩ =
      (expandBlock lit own value (line.length + 1) ⟨.continue, 0, line, []⟩).map f :=
    enterBlock_map f (blockLoop_map f own hlit hvalue _) ⟨.continue, 0, line, []⟩
  unfold expandLine
  simp only [h]
  rcases expandBlock lit own value (line.length + 1) ⟨.continue, 0, line, []⟩ with ⟨state, level, cp, stk⟩
  show (if state = .success then some (stk.flatMap f) else none) = _
  split <;> rfl

end Map

/-! ## start_login -/

/-- The values that the peer has supplied. -/
structure Peer where
  remoteHostname : CString
  terminaltype : Option CString
  userName : Option CString

def Peer.value (p : Peer) : Supplied → Option CString
  | .remoteHostname => some p.remoteHostname
  | .terminaltype => p.terminaltype
  | .userName => p.userName

def Peer.bytes (p : Peer) (k : Supplied) : Option (List UInt8) := (p.value k).map (·.1)

/-- A place for each value that is there. -/
def Peer.places (p : Peer) (k : Supplied) : Option (List (Item Supplied UInt8)) := (p.value k).map fun _ => [Item.place k]

/-- The arguments of execv; `none` where the command line cannot be expanded. -/
def startLogin (own : Own) (p : Peer) (loginInvocation : CString) : Option (List CString) :=
  (expandLine id own p.bytes loginInvocation.1).map fun cmd => (argcvGet some 0 cmd).map cstr

/-- The words of the template, each value that is there being one place. -/
def templateWords (own : Own) (p : Peer) (loginInvocation : CString) : Option (List (List (Item Supplied UInt8))) :=
  (expandLine Item.chr own p.places loginInvocation.1).map (argcvGet charOf (Item.chr 0))

/-- The same values are there. -/
def Peer.Like (p q : Peer) : Prop := ∀ k, (p.value k).isSome = (q.value k).isSome

/-- With both, each word of the template is one argument, and it is the same argument if it
    has no value in it. -/
def Respects (own : Own) (template : CString) (p q : Peer) : Prop :=
  ∀ words ∈ templateWords own p template, ∃ argv ∈ startLogin own p template, ∃ argv' ∈ startLogin own q template,
    argv.length = words.length ∧ argv'.length = words.length ∧
      ∀ (i : Nat) w, words[i]? = some w → (∀ k, Item.place k ∉ w) → argv[i]? = argv'[i]?

def Peer.Harmless (p : Peer) : Prop := ∀ k, ∀ v ∈ p.value k, Libinetutils.Harmless v.1

theorem templateWords_like {p q : Peer} (hpq : p.Like q) (own : Own) (template : CString) :
    templateWords own p template = templateWords own q template := by
  have hplaces : p.places = q.places := by
    funext k
    have h := hpq k
    unfold Peer.places
    rcases hp : p.value k with _ | v
    · rcases hq : q.value k with _ | v'
      · rfl
      · rw [hp, hq] at h
        cases h
    · rcases hq : q.value k with _ | v'
      · rw [hp, hq] at h
        cases h
      · rfl
  rw [templateWords, templateWords, hplaces]

/-- The template with places, filled. -/
theorem expandLine_fill {own : Own} {p : Peer} {σ : Supplied → List UInt8} (hσ : ∀ k, ∀ v ∈ p.value k, σ k = v.1)
    (line : List UInt8) :
    expandLine id own p.bytes line =
      (expandLine Item.chr own p.places line).map (List.flatMap (Item.fill σ)) := by
  refine expandLine_map (Item.fill σ) own (fun _ => rfl) (fun k => ?_) line
  unfold Peer.bytes Peer.places
  rcases hk : p.value k with _ | v
  · rfl
  · simp [Item.fill, hσ k v hk]

/-- The arguments as the words of the template say, if the values are harmless. -/
theorem startLogin_words {own : Own} {p : Peer} (hp : p.Harmless) {template : CString}
    {words : List (List (Item Supplied UInt8))} (hw : words ∈ templateWords own p template) :
    ∃ argv ∈ startLogin own p template,
      List.Forall₂ (fun w a => ∀ t : List UInt8, w = t.map Item.chr → a = cstr t) words argv := by
  -- what is not there is in no place, so anything harmless will do
  have hσ : ∀ k, ∀ v ∈ p.value k, ((p.value k).getD (cstr [0x78])).1 = v.1 := by
    intro k v hv
    rw [hv, Option.getD_some]
  have hok : ∀ k, Libinetutils.Harmless ((p.value k).getD (cstr [0x78])).1 := by
    intro k
    rcases hk : p.value k with _ | v
    · decide
    · exact hp k v hk
  obtain ⟨line, hline, rfl⟩ := Option.map_eq_some_iff.mp hw
  rw [startLogin, expandLine_fill hσ, hline]
  refine ⟨_, rfl, ?_⟩
  rw [List.forall₂_map_right_iff]
  refine (argcvGet_fills (fills_flatMap hok line)).imp ?_
  intro w a h t ht
  rw [h t ht]

theorem text_of_no_places {w : List (Item Supplied UInt8)} (hw : ∀ k, Item.place k ∉ w) :
    ∃ t : List UInt8, w = t.map Item.chr := by
  induction w with
  | nil => exact ⟨[], rfl⟩
  | cons s w ih =>
    obtain ⟨t, rfl⟩ := ih fun k hk => hw k (List.mem_cons_of_mem _ hk)
    cases s with
    | chr c => exact ⟨c :: t, rfl⟩
    | place k => exact absurd List.mem_cons_self (hw k)

theorem respects_of_harmless {own : Own} {p q : Peer} (hpq : p.Like q) (hp : p.Harmless) (hq : q.Harmless)
    (template : CString) : Respects own template p q := by
  intro words hw
  obtain ⟨argv, ha, h⟩ := startLogin_words hp hw
  rw [templateWords_like hpq] at hw
  obtain ⟨argv', ha', h'⟩ := startLogin_words hq hw
  refine ⟨argv, ha, argv', ha', h.length_eq.symm, h'.length_eq.symm, ?_⟩
  intro i w hi hplaces
  obtain ⟨t, ht⟩ := text_of_no_places hplaces
  obtain ⟨hlt, hwi⟩ := List.getElem?_eq_some_iff.mp hi
  have h1 := h.get hlt (h.length_eq ▸ hlt) t (hwi.trans ht)
  have h2 := h'.get hlt (h'.length_eq ▸ hlt) t (hwi.trans ht)
  rw [List.getElem?_eq_getElem (h.length_eq ▸ hlt), List.getElem?_eq_getElem (h'.length_eq ▸ hlt)]
  exact congrArg some (h1.trans h2.symm)

/-! ## Values that do harm -/

section Around

variable {α : Type} {lit : UInt8 → α} {own : Own} {value : Supplied → Option (List α)}

/-- The name of the variable. -/
def letter : Supplied → UInt8
  | .remoteHostname => 0x68
  | .terminaltype => 0x54
  | .userName => 0x75

/-- A character without a meaning to expand_line. -/
def Plain (c : UInt8) : Prop := c ≠ 0x25 ∧ c ≠ 0x7b ∧ c ≠ 0x7d ∧ c ≠ 0x5c

instance (c : UInt8) : Decidable (Plain c) := inferInstanceAs (Decidable (_ ∧ _))

theorem copyLoop_plain (start : Int) (state : ExpState) (level : Int) (stk : List α) {l : List UInt8}
    (hl : ∀ c ∈ l, Plain c) (cp : List UInt8) :
    copyLoop lit start state level stk (l ++ cp) = copyLoop lit start state level (stk ++ l.map lit) cp := by
  induction l generalizing stk with
  | nil => rw [List.nil_append, List.map_nil, List.append_nil]
  | cons c l ih =>
    obtain ⟨h1, h2, h3, h4⟩ := hl c List.mem_cons_self
    rw [List.cons_append, List.map_cons, copyLoop.eq_def]
    simp only [if_neg h1, if_neg h2, if_neg h3, if_neg h4]
    rw [ih _ fun d hd => hl d (List.mem_cons_of_mem _ hd), List.append_assoc]
    rfl

/-- A value with plain text around it. -/
theorem expandLine_around {k : Supplied} {v : List α} (hk : value k = some v) {l r : List UInt8}
    (hl : ∀ c ∈ l, Plain c) (hr : ∀ c ∈ r, Plain c) :
    expandLine lit own value (l ++ 0x25 :: letter k :: r) = some (l.map lit ++ v ++ r.map lit) := by
  have hbrace : (l ++ 0x25 :: letter k :: r).head? ≠ some 0x7b := by
    rcases l with _ | ⟨c, l⟩
    · exact fun h => absurd (Option.some.inj h) (by decide)
    · exact fun h => (hl c List.mem_cons_self).2.1 (Option.some.inj h)
  have hname : varShortName lit own value (letter k) = some (some v) := by
    rw [← hk]
    cases k <;> rfl
  have hvar : expandVar lit own value ⟨.continue, 0, letter k :: r, l.map lit⟩ = (some v, ⟨.continue, 0, r, l.map lit⟩) := by
    unfold expandVar
    simp only [hname]
    rw [if_neg (by cases k <;> decide)]
  have hcond : ∀ block : LineExpander α → LineExpander α,
      expandCond lit own value block ⟨.continue, 0, letter k :: r, l.map lit⟩ = ⟨.continue, 0, r, l.map lit ++ v⟩ := by
    intro block
    unfold expandCond
    simp only
    rw [if_neg (by cases k <;> decide), hvar]
  have hlast : ∀ n, blockLoop lit own value (n + 1) 0 ⟨.continue, 0, r, l.map lit ++ v⟩ =
      ⟨.success, 0, [], l.map lit ++ v ++ r.map lit⟩ := by
    intro n
    have h : copyLoop lit 0 .continue 0 (l.map lit ++ v) (r ++ []) = _ := copyLoop_plain 0 .continue 0 _ hr []
    rw [List.append_nil] at h
    unfold blockLoop
    simp only [h]
    rfl
  have hfirst : copyLoop lit 0 .continue 0 [] (l ++ 0x25 :: letter k :: r) = _ := copyLoop_plain 0 .continue 0 [] hl _
  obtain ⟨n, hn⟩ : ∃ n, (l ++ 0x25 :: letter k :: r).length + 1 = n + 1 + 1 :=
    ⟨l.length + r.length + 1, by simp; omega⟩
  unfold expandLine expandBlock enterBlock
  simp only [if_neg hbrace, hn]
  rw [blockLoop.eq_def]
  simp only [hfirst, List.nil_append]
  rw [copyLoop.eq_def]
  have hpercent : letter k ≠ 0x25 := by cases k <;> decide
  simp [hcond, hlast, hpercent]

end Around

theorem startLogin_around {own : Own} {p : Peer} {k : Supplied} {v : CString} (hk : p.value k = some v) {l r : List UInt8}
    (hl : ∀ c ∈ l, Plain c) (hr : ∀ c ∈ r, Plain c) {template : CString}
    (ht : template.1 = l ++ 0x25 :: letter k :: r) :
    startLogin own p template = some ((argcvGet some 0 (l ++ v.1 ++ r)).map cstr) ∧
      templateWords own p template =
        some (argcvGet charOf (Item.chr 0) (l.map Item.chr ++ [Item.place k] ++ r.map Item.chr)) := by
  have h1 : p.bytes k = some v.1 := by rw [Peer.bytes, hk]; rfl
  have h2 : p.places k = some [Item.place k] := by rw [Peer.places, hk]; rfl
  unfold startLogin templateWords
  rw [ht, expandLine_around h1 hl hr, expandLine_around h2 hl hr, List.map_id, List.map_id]
  exact ⟨rfl, rfl⟩

theorem surroundings_plain {t : List UInt8 × List UInt8} (ht : t ∈ surroundings) :
    (∀ c ∈ t.1, Plain c) ∧ (∀ c ∈ t.2, Plain c) ∧ 0 ∉ t.1 ∧ 0 ∉ t.2 := by
  rcases ht with _ | ⟨_, _ | ⟨_, _ | ⟨_, ⟨⟩⟩⟩⟩
  · simp [Plain]
  · simp [Plain, squote]
  · simp [Plain]

/-- With as many arguments as words for every template the values are harmless. -/
theorem harmless_of_words (own : Own) {p : Peer} (h : ∀ template, ∀ words ∈ templateWords own p template,
    ∃ argv ∈ startLogin own p template, argv.length = words.length) : p.Harmless := by
  intro k v hk
  by_contra hv
  obtain ⟨⟨l, r⟩, ht, hne⟩ := not_harmless hv k
  obtain ⟨hl, hr, hl0, hr0⟩ := surroundings_plain ht
  have hnul : 0 ∉ l ++ 0x25 :: letter k :: r := by
    have hletter : (0 : UInt8) ≠ letter k := by cases k <;> decide
    have hpercent : (0 : UInt8) ≠ 0x25 := by decide
    simp [hl0, hr0, hletter, hpercent]
  let template : CString := ⟨l ++ 0x25 :: letter k :: r, hnul⟩
  obtain ⟨hargs, hwords⟩ : startLogin own p template = _ ∧ templateWords own p template = _ :=
    startLogin_around hk hl hr rfl
  obtain ⟨argv, ha, hlen⟩ := h _ _ hwords
  obtain rfl := Option.some.inj (hargs.symm.trans ha)
  exact hne ((List.length_map ..).symm.trans hlen)

/-- What the peer has supplied stays in the words of the template, whatever the template and
    with two peers of one kind, exactly if all of it is harmless. -/
theorem login_args_iff (own : Own) {p q : Peer} (hpq : p.Like q) :
    (∀ template, Respects own template p q) ↔ p.Harmless ∧ q.Harmless := by
  constructor
  · intro h
    refine ⟨harmless_of_words own fun template words hw => ?_, harmless_of_words own fun template words hw => ?_⟩
    · obtain ⟨argv, ha, -, -, hlen, -⟩ := h template words hw
      exact ⟨argv, ha, hlen⟩
    · rw [← templateWords_like hpq] at hw
      obtain ⟨-, -, argv', ha', -, hlen, -⟩ := h template words hw
      exact ⟨argv', ha', hlen⟩
  · intro ⟨hp, hq⟩
    exact respects_of_harmless hpq hp hq

/-! ### A terminal type with a blank in it -/

/-- The template for SOLARIS, "/bin/login -h %h %?T{TERM=%T}{-} %?u{%?a{-f }-- %u}". -/
def loginInvocation : CString :=
  cstr [
    0x2f, 0x62, 0x69, 0x6e, 0x2f, 0x6c, 0x6f, 0x67, 0x69, 0x6e, 0x20, 0x2d, 0x68, 0x20, 0x25, 0x68, 0x20, 0x25, 0x3f,
    0x54, 0x7b, 0x54, 0x45, 0x52, 0x4d, 0x3d, 0x25, 0x54, 0x7d, 0x7b, 0x2d, 0x7d, 0x20, 0x25, 0x3f, 0x75, 0x7b, 0x25,
    0x3f, 0x61, 0x7b, 0x2d, 0x66, 0x20, 0x7d, 0x2d, 0x2d, 0x20, 0x25, 0x75, 0x7d]

def ownLine : Own :=
  ⟨false, cstr [0x6e, 0x6f, 0x77], cstr [0x61], cstr [0x2f, 0x64, 0x65, 0x76, 0x2f, 0x70, 0x74, 0x73, 0x2f, 0x33]⟩

/-- A terminal type from the host "h", without a user name. -/
def peer (terminaltype : List UInt8) : Peer := ⟨cstr [0x68], some (cstr terminaltype), none⟩

theorem peer_like (t t' : List UInt8) : (peer t).Like (peer t') := by
  intro k
  cases k <;> rfl

/-- "xterm" -/
def xterm : List UInt8 := [0x78, 0x74, 0x65, 0x72, 0x6d]

/-- "vt100" -/
def vt100 : List UInt8 := [0x76, 0x74, 0x31, 0x30, 0x30]

/-- "x -froot" -/
def froot : List UInt8 := [0x78, 0x20, 0x2d, 0x66, 0x72, 0x6f, 0x6f, 0x74]

theorem peer_harmless {t : List UInt8} (ht : Libinetutils.Harmless (cstr t).1) : (peer t).Harmless := by
  have hhost : Libinetutils.Harmless (cstr [0x68]).1 := by decide
  intro k v hv
  cases k with
  | remoteHostname =>
    cases hv
    exact hhost
  | terminaltype =>
    cases hv
    exact ht
  | userName => cases hv

theorem login_args_terminal_types : Respects ownLine loginInvocation (peer xterm) (peer vt100) :=
  (login_args_iff ownLine (peer_like xterm vt100)).mpr ⟨peer_harmless (by decide), peer_harmless (by decide)⟩
    loginInvocation

/-- The terminal type becomes an option of login. -/
theorem blank_adds_argument : ¬ Respects ownLine loginInvocation (peer xterm) (peer froot) := by
  intro h
  have hwords : (templateWords ownLine (peer xterm) loginInvocation).map List.length = some 4 := by decide +kernel
  have hargs : (startLogin ownLine (peer froot) loginInvocation).map List.length = some 5 := by decide +kernel
  obtain ⟨words, hw, hlen⟩ := Option.map_eq_some_iff.mp hwords
  obtain ⟨-, -, argv', ha, -, h', -⟩ := h words hw
  rw [ha, Option.map_some, h', hlen] at hargs
  cases hargs

end Netutils.Telnetd
