/-
  Netutils.Telnetd.ExpandLine — the language of the templates that expand_line
  (telnetd/utility.c) expands: what a template denotes and what it becomes.

  The brace depth is one counter for the block that is expanded and the one that is passed
  over. So four things go wrong:
  - a literal brace outside of all blocks begins a block that ends the walk,
  - a block that is passed over ends at a brace with a backslash before it,
  - a condition that fails in a block, without its other block, takes the rest of the line for
    it, with the brace that ends the block,
  - a backslash, a % or a %? that ends the line takes cp behind its NUL.

  Proved, for every assignment of values:
  - `expandLine_denote`: a template is expanded to what it denotes if none of the first three
    is met (`Template.fair`);
  - `expandLine_iff_fair`: without braces in its text only then, for what is not fair comes out
    longer (`unfair_longer`);
  - `inside_iff`: a line is left exactly if the fourth is met;
  - `inside_of_last`: never where the last character is none of the three.
  `faults_cancel`: with braces in the text two of them may cancel each other.
-/

import Netutils.Telnetd.Login

namespace Netutils.Telnetd.ExpandLine

open Netutils.Lib.Cells

/-! ## Templates -/

/-- The variables that have a name. -/
inductive Variable where
  | authenticated
  | date
  | remoteHostname
  | localHostname
  | line
  | terminaltype
  | userName
  deriving DecidableEq

def Variable.letter : Variable → UInt8
  | .authenticated => 0x61
  | .date => 0x64
  | .remoteHostname => 0x68
  | .localHostname => 0x6c
  | .line => 0x74
  | .terminaltype => 0x54
  | .userName => 0x75

/-- A template, and whether it begins with a literal brace: what follows a condition without
    its other block does not, for the brace would begin that block. -/
inductive Template : Bool → Type
  | nil : Template false
  | char {b : Bool} (c : UInt8) (hc : Plain c ∧ c ≠ 0) (rest : Template b) : Template false
  | escape {b : Bool} (c : UInt8) (hc : c ≠ 0) (rest : Template b) : Template false
  | percent {b : Bool} (rest : Template b) : Template false
  | var {b : Bool} (v : Variable) (rest : Template b) : Template false
  | braces {b d : Bool} (inner : Template b) (rest : Template d) : Template true
  | cond {b : Bool} (v : Variable) (yes : Template b) (rest : Template false) : Template false
  | condElse {b d e : Bool} (v : Variable) (yes : Template b) (no : Template d) (rest : Template e) : Template false

/-- What telnetd is given. -/
def Template.text : {b : Bool} → Template b → List UInt8
  | _, nil => []
  | _, char c _ rest => c :: rest.text
  | _, escape c _ rest => 0x5c :: c :: rest.text
  | _, percent rest => 0x25 :: 0x25 :: rest.text
  | _, var v rest => 0x25 :: v.letter :: rest.text
  | _, braces inner rest => 0x7b :: (inner.text ++ 0x7d :: rest.text)
  | _, cond v yes rest => 0x25 :: 0x3f :: v.letter :: 0x7b :: (yes.text ++ 0x7d :: rest.text)
  | _, condElse v yes no rest =>
    0x25 :: 0x3f :: v.letter :: 0x7b :: (yes.text ++ 0x7d :: 0x7b :: (no.text ++ 0x7d :: rest.text))

/-- The braces match, with `k` of them open before it and escapes not looked at. -/
def balanced : Nat → List UInt8 → Bool
  | k, [] => k == 0
  | k, c :: l =>
    if c = 0x7b then balanced (k + 1) l
    else if c = 0x7d then
      match k with
      | 0 => false
      | k + 1 => balanced k l
    else balanced k l

section Meaning

-- `σ` is an assignment; `none` where the variable has no value.
variable {α : Type} (lit : UInt8 → α) (σ : Variable → Option (List α))

def Template.denote : {b : Bool} → Template b → List α
  | _, nil => []
  | _, char c _ rest => lit c :: rest.denote
  | _, escape c _ rest => lit c :: rest.denote
  | _, percent rest => lit 0x25 :: rest.denote
  | _, var v rest => (σ v).getD [] ++ rest.denote
  | _, braces inner rest => lit 0x7b :: (inner.denote ++ lit 0x7d :: rest.denote)
  | _, cond v yes rest => (if (σ v).isSome then yes.denote else []) ++ rest.denote
  | _, condElse v yes no rest => (if (σ v).isSome then yes.denote else no.denote) ++ rest.denote

/-- Literal braces are within a block only, a condition that fails there has both blocks, and
    the braces of a block that is passed over match without its escapes. -/
def Template.fair : {b : Bool} → (inside : Bool) → Template b → Bool
  | _, _, nil => true
  | _, inside, char _ _ rest => rest.fair inside
  | _, inside, escape _ _ rest => rest.fair inside
  | _, inside, percent rest => rest.fair inside
  | _, inside, var _ rest => rest.fair inside
  | _, inside, braces inner rest => inside && inner.fair true && rest.fair inside
  | _, inside, cond v yes rest =>
    (if (σ v).isSome then yes.fair true else balanced 0 yes.text && !inside) && rest.fair inside
  | _, inside, condElse v yes no rest =>
    (if (σ v).isSome then yes.fair true && balanced 0 no.text else balanced 0 yes.text && no.fair true) &&
      rest.fair inside

end Meaning

section Conditions

variable {α : Type} {lit : UInt8 → α} {σ : Variable → Option (List α)} {b d e : Bool} (v : Variable)

theorem denote_cond (yes : Template b) (rest : Template false) :
    (Template.cond v yes rest).denote lit σ = (if (σ v).isSome then yes.denote lit σ else []) ++ rest.denote lit σ := rfl

theorem denote_condElse (yes : Template b) (no : Template d) (rest : Template e) :
    (Template.condElse v yes no rest).denote lit σ =
      (if (σ v).isSome then yes.denote lit σ else no.denote lit σ) ++ rest.denote lit σ := rfl

theorem fair_cond (inside : Bool) (yes : Template b) (rest : Template false) :
    (Template.cond v yes rest).fair σ inside =
      ((if (σ v).isSome then yes.fair σ true else balanced 0 yes.text && !inside) && rest.fair σ inside) := rfl

theorem fair_condElse (inside : Bool) (yes : Template b) (no : Template d) (rest : Template e) :
    (Template.condElse v yes no rest).fair σ inside =
      ((if (σ v).isSome then yes.fair σ true && balanced 0 no.text else balanced 0 yes.text && no.fair σ true) &&
        rest.fair σ inside) := rfl

end Conditions

/-- The brace that ends a block is none that begins one. -/
theorem close_head (cp : List UInt8) : (0x7d :: cp).head? ≠ some 0x7b := fun h => absurd (Option.some.inj h) (by decide)

/-- What follows a condition. -/
theorem text_head {T : Template false} {k : List UInt8} (hk : k.head? ≠ some 0x7b) :
    (T.text ++ k).head? ≠ some 0x7b := by
  cases T with
  | nil => exact hk
  | char c hc rest =>
    intro h
    exact hc.1.2.1 (Option.some.inj h)
  | escape c hc rest => exact fun h => absurd (Option.some.inj h) (by decide)
  | percent rest => exact fun h => absurd (Option.some.inj h) (by decide)
  | var v rest => exact fun h => absurd (Option.some.inj h) (by decide)
  | cond v yes rest => exact fun h => absurd (Option.some.inj h) (by decide)
  | condElse v yes no rest => exact fun h => absurd (Option.some.inj h) (by decide)

theorem text_head_top (T : Template false) : T.text.head? ≠ some 0x7b := by
  have h := text_head (T := T) (k := []) (Option.some_ne_none _).symm
  rwa [List.append_nil] at h

section Walk

variable {α : Type} (lit : UInt8 → α) (own : Own) (value : Supplied → Option (List α))

/-- The values that the variables have for expand_line. -/
def assigned : Variable → Option (List α)
  | .authenticated => if own.authValid then some ([0x6f, 0x6b].map lit) else none
  | .date => some (own.timebuf.1.map lit)
  | .remoteHostname => value .remoteHostname
  | .localHostname => some (own.localHostname.1.map lit)
  | .line =>
    match (own.line.1.drop 1).dropWhile (· ≠ 0x2f) with
    | _ :: q => some (q.map lit)
    | [] => some (own.line.1.map lit)
  | .terminaltype => value .terminaltype
  | .userName => value .userName

/-- _expand_block with as many turns as it takes, behind an opening brace if there is one. -/
def block (start : Int) (exp : LineExpander α) : LineExpander α :=
  blockLoop lit own value (exp.cp.length + 1) start exp

variable {lit own value}

theorem varShortName_letter (v : Variable) : varShortName lit own value v.letter = some (assigned lit own value v) := by
  cases v with
  | line =>
    have h : varShortName lit own value 0x74 = match (own.line.1.drop 1).dropWhile (· ≠ 0x2f) with
      | _ :: q => some (some (q.map lit))
      | [] => some (some (own.line.1.map lit)) := rfl
    refine h.trans ?_
    unfold assigned
    simp only
    split
    · rfl
    · rfl
  | _ => rfl

theorem letter_ne (v : Variable) : v.letter ≠ 0x7b ∧ v.letter ≠ 0x3f ∧ v.letter ≠ 0x25 := by
  cases v <;> decide

/-! ## One turn -/

theorem block_stops (start : Int) {exp : LineExpander α} (h : exp.state ≠ .continue) :
    block lit own value start exp = exp := by
  unfold block blockLoop
  rw [if_pos h]

theorem block_eq (start level : Int) (stk : List α) (cp : List UInt8) :
    block lit own value start ⟨.continue, level, cp, stk⟩ =
      let r := copyLoop lit start .continue level stk cp
      if r.1 then r.2
      else
        match r.2.cp with
        | [] => { r.2 with state := .success }
        | c :: cp =>
          if cp.head? = some 0x25 then
            block lit own value start { r.2 with cp := cp.tail, stk := r.2.stk ++ [lit c] }
          else
            block lit own value start
              (expandCond lit own value (enterBlock (block lit own value)) { r.2 with cp := cp }) := by
  have hcopy : (copyLoop lit start .continue level stk cp).2.cp.length ≤ cp.length :=
    (copyLoop_suffix ..).length_le
  conv_lhs => unfold block blockLoop
  simp only [ne_eq, not_true_eq_false, if_false]
  generalize copyLoop lit start .continue level stk cp = r at hcopy ⊢
  rcases r with ⟨_ | _, state, level, _ | ⟨c, rest⟩, stk⟩
  · rfl
  · simp only [List.length_cons] at hcopy
    have henter : ∀ e : LineExpander α, e.cp.length ≤ rest.length →
        enterBlock (blockLoop lit own value cp.length) e = enterBlock (block lit own value) e := by
      intro e he
      unfold enterBlock
      split
      · refine blockLoop_enough ?_ (Nat.lt_succ_self _)
        simp only [List.length_tail]
        omega
      · exact blockLoop_enough (by omega) (Nat.lt_succ_self _)
    simp only [Bool.false_eq_true, if_false]
    split
    · refine blockLoop_enough ?_ (Nat.lt_succ_self _)
      simp only [List.length_tail]
      omega
    · rw [expandCond_congr henter]
      have hcond :
          (expandCond lit own value (enterBlock (block lit own value)) ⟨state, level, rest, stk⟩).cp <:+ rest :=
        expandCond_suffix (enterBlock_suffix fun start e => blockLoop_suffix _ start e) _
      exact blockLoop_enough (Nat.lt_of_le_of_lt hcond.length_le hcopy) (Nat.lt_succ_self _)
  · rfl
  · rfl

/-- The copying loop decides what comes next. -/
theorem block_congr {start level level' : Int} {stk stk' : List α} {cp cp' : List UInt8}
    (h : copyLoop lit start .continue level stk cp = copyLoop lit start .continue level' stk' cp') :
    block lit own value start ⟨.continue, level, cp, stk⟩ =
      block lit own value start ⟨.continue, level', cp', stk'⟩ := by
  rw [block_eq, block_eq, h]

theorem block_nil (start level : Int) (stk : List α) :
    block lit own value start ⟨.continue, level, [], stk⟩ = ⟨.success, level, [], stk⟩ := rfl

theorem block_char {c : UInt8} (hc : Plain c) (start level : Int) (stk : List α) (cp : List UInt8) :
    block lit own value start ⟨.continue, level, c :: cp, stk⟩ =
      block lit own value start ⟨.continue, level, cp, stk ++ [lit c]⟩ :=
  block_congr (copyLoop_plain start .continue level stk (List.forall_mem_singleton.mpr hc) cp)

theorem block_escape (c : UInt8) (start level : Int) (stk : List α) (cp : List UInt8) :
    block lit own value start ⟨.continue, level, 0x5c :: c :: cp, stk⟩ =
      block lit own value start ⟨.continue, level, cp, stk ++ [lit c]⟩ :=
  block_congr rfl

theorem block_open (start level : Int) (stk : List α) (cp : List UInt8) :
    block lit own value start ⟨.continue, level, 0x7b :: cp, stk⟩ =
      block lit own value start ⟨.continue, level + 1, cp, stk ++ [lit 0x7b]⟩ :=
  block_congr (by cases cp <;> rfl)

/-- A brace that closes one within the block. -/
theorem block_close {start level : Int} (h : level ≠ start) (stk : List α) (cp : List UInt8) :
    block lit own value start ⟨.continue, level + 1, 0x7d :: cp, stk⟩ =
      block lit own value start ⟨.continue, level, cp, stk ++ [lit 0x7d]⟩ :=
  block_congr (by rw [copyLoop.eq_def]; simp [h])

/-- The brace that closes the block. -/
theorem block_return (start : Int) (stk : List α) (cp : List UInt8) :
    block lit own value start ⟨.continue, start + 1, 0x7d :: cp, stk⟩ = ⟨.continue, start, cp, stk⟩ := by
  rw [block_eq, copyLoop.eq_def]
  simp

theorem block_percent (start level : Int) (stk : List α) (cp : List UInt8) :
    block lit own value start ⟨.continue, level, 0x25 :: 0x25 :: cp, stk⟩ =
      block lit own value start ⟨.continue, level, cp, stk ++ [lit 0x25]⟩ := by
  rw [block_eq]
  rfl

theorem block_cond {c : UInt8} (hc : c ≠ 0x25) (start level : Int) (stk : List α) (cp : List UInt8) :
    block lit own value start ⟨.continue, level, 0x25 :: c :: cp, stk⟩ =
      block lit own value start
        (expandCond lit own value (enterBlock (block lit own value)) ⟨.continue, level, c :: cp, stk⟩) := by
  rw [block_eq]
  exact if_neg fun h => hc (Option.some.inj h)

/-! ## Conditions -/

theorem expandVar_letter (v : Variable) (state : ExpState) (level : Int) (stk : List α) (cp : List UInt8) :
    expandVar lit own value ⟨state, level, v.letter :: cp, stk⟩ =
      (assigned lit own value v, ⟨state, level, cp, stk⟩) := by
  unfold expandVar
  simp only [varShortName_letter]
  rw [if_neg (letter_ne v).1]

theorem expandCond_var (blk : LineExpander α → LineExpander α) (v : Variable) (level : Int) (stk : List α)
    (cp : List UInt8) :
    expandCond lit own value blk ⟨.continue, level, v.letter :: cp, stk⟩ =
      ⟨.continue, level, cp, stk ++ (assigned lit own value v).getD []⟩ := by
  unfold expandCond
  simp only [expandVar_letter]
  rw [if_neg (letter_ne v).2.1]
  rcases assigned lit own value v with _ | p
  · exact congrArg _ (List.append_nil stk).symm
  · rfl

theorem expandCond_some (blk : LineExpander α → LineExpander α) {v : Variable} (hv : (assigned lit own value v).isSome)
    (level : Int) (stk : List α) (cp : List UInt8) :
    expandCond lit own value blk ⟨.continue, level, 0x3f :: v.letter :: cp, stk⟩ =
      skipBlock (blk ⟨.continue, level, cp, stk⟩) := by
  obtain ⟨p, hp⟩ := Option.isSome_iff_exists.mp hv
  unfold expandCond
  simp only [expandVar_letter, hp, if_true]

theorem expandCond_none (blk : LineExpander α → LineExpander α) {v : Variable}
    (hv : ¬ (assigned lit own value v).isSome) (level : Int) (stk : List α) (cp : List UInt8) :
    expandCond lit own value blk ⟨.continue, level, 0x3f :: v.letter :: cp, stk⟩ =
      blk (skipBlock ⟨.continue, level, cp, stk⟩) := by
  have hp := Option.not_isSome_iff_eq_none.mp hv
  unfold expandCond
  simp only [expandVar_letter, hp, if_true]

theorem enterBlock_braces (loop : Int → LineExpander α → LineExpander α) (state : ExpState) (level : Int) (stk : List α)
    (cp : List UInt8) : enterBlock loop ⟨state, level, 0x7b :: cp, stk⟩ = loop level ⟨state, level + 1, cp, stk⟩ := rfl

theorem enterBlock_other (loop : Int → LineExpander α → LineExpander α) {exp : LineExpander α}
    (h : exp.cp.head? ≠ some 0x7b) : enterBlock loop exp = loop exp.level exp := by
  unfold enterBlock
  rw [if_neg h]

theorem skipBlock_other {exp : LineExpander α} (h : exp.cp.head? ≠ some 0x7b) : skipBlock exp = exp := by
  unfold skipBlock
  rw [if_pos h]

theorem skipLoop_balanced {k : Nat} {l : List UInt8} (h : balanced k l) (start : Int) (cp : List UInt8) :
    skipLoop start (start + k + 1) (l ++ 0x7d :: cp) = (start, cp) := by
  induction l generalizing k with
  | nil =>
    obtain rfl : k = 0 := by simpa [balanced] using h
    simp [skipLoop]
  | cons c l ih =>
    rw [List.cons_append]
    unfold balanced at h
    unfold skipLoop
    split at h
    · rename_i hc
      have hlevel : start + k + 1 + 1 = start + (k + 1 : Nat) + 1 := by omega
      rw [if_pos hc, hlevel]
      exact ih h
    rename_i hc
    rw [if_neg hc]
    split at h
    · rename_i hc
      rw [if_pos hc]
      cases k with
      | zero => cases h
      | succ k =>
        have hlevel : start + (k + 1 : Nat) + 1 - 1 = start + k + 1 := by omega
        rw [hlevel, if_neg (by omega)]
        exact ih h
    · rename_i hc
      rw [if_neg hc]
      exact ih h

/-- A block whose braces match is passed over as a whole. -/
theorem skipBlock_balanced {l : List UInt8} (h : balanced 0 l) (state : ExpState) (level : Int) (stk : List α)
    (cp : List UInt8) : skipBlock ⟨state, level, 0x7b :: (l ++ 0x7d :: cp), stk⟩ = ⟨state, level, cp, stk⟩ := by
  have hskip : skipLoop level level (0x7b :: (l ++ 0x7d :: cp)) = (level, cp) := by
    have h := skipLoop_balanced h level cp
    rw [skipLoop, if_pos rfl]
    simpa using h
  unfold skipBlock
  rw [if_neg (by simp), hskip]

/-! ## A template -/

/-- A block that stands where the walk does, `{`, `A` and `}`. -/
theorem enterBlock_walk {A : List UInt8} {level : Int} {stk out : List α} {cp : List UInt8}
    (hA : block lit own value level ⟨.continue, level + 1, A ++ 0x7d :: cp, stk⟩ =
      block lit own value level ⟨.continue, level + 1, 0x7d :: cp, out⟩) :
    enterBlock (block lit own value) ⟨.continue, level, 0x7b :: (A ++ 0x7d :: cp), stk⟩ =
      ⟨.continue, level, cp, out⟩ := by
  rw [enterBlock_braces, hA, block_return]

theorem text_cond {b : Bool} (v : Variable) (yes : Template b) (rest : Template false) (k : List UInt8) :
    (Template.cond v yes rest).text ++ k =
      0x25 :: 0x3f :: v.letter :: 0x7b :: (yes.text ++ 0x7d :: (rest.text ++ k)) :=
  congrArg (0x25 :: 0x3f :: v.letter :: 0x7b :: ·) (List.append_assoc ..)

theorem text_condElse {b d e : Bool} (v : Variable) (yes : Template b) (no : Template d) (rest : Template e)
    (k : List UInt8) :
    (Template.condElse v yes no rest).text ++ k =
      0x25 :: 0x3f :: v.letter :: 0x7b :: (yes.text ++ 0x7d :: 0x7b :: (no.text ++ 0x7d :: (rest.text ++ k))) := by
  have hno : (no.text ++ 0x7d :: rest.text) ++ k = no.text ++ 0x7d :: (rest.text ++ k) := List.append_assoc ..
  rw [← hno]
  exact congrArg (0x25 :: 0x3f :: v.letter :: 0x7b :: ·) (List.append_assoc ..)

/-- A condition that holds, if the walk comes to the end of its block. -/
theorem block_cond_some {b : Bool} {v : Variable} (hv : (assigned lit own value v).isSome) {yes : Template b}
    {rest : Template false} {k : List UInt8} (hk : k.head? ≠ some 0x7b) {start level : Int} {stk out : List α}
    (hyes : block lit own value level ⟨.continue, level + 1, yes.text ++ 0x7d :: (rest.text ++ k), stk⟩ =
      block lit own value level ⟨.continue, level + 1, 0x7d :: (rest.text ++ k), out⟩) :
    block lit own value start ⟨.continue, level, (Template.cond v yes rest).text ++ k, stk⟩ =
      block lit own value start ⟨.continue, level, rest.text ++ k, out⟩ := by
  rw [text_cond, block_cond (by decide), expandCond_some _ hv, enterBlock_walk hyes, skipBlock_other (text_head hk)]

theorem block_condElse_some {b d e : Bool} {v : Variable} (hv : (assigned lit own value v).isSome) {yes : Template b}
    {no : Template d} {rest : Template e} (hno : balanced 0 no.text) {k : List UInt8} {start level : Int}
    {stk out : List α}
    (hyes : block lit own value level
        ⟨.continue, level + 1, yes.text ++ 0x7d :: 0x7b :: (no.text ++ 0x7d :: (rest.text ++ k)), stk⟩ =
      block lit own value level ⟨.continue, level + 1, 0x7d :: 0x7b :: (no.text ++ 0x7d :: (rest.text ++ k)), out⟩) :
    block lit own value start ⟨.continue, level, (Template.condElse v yes no rest).text ++ k, stk⟩ =
      block lit own value start ⟨.continue, level, rest.text ++ k, out⟩ := by
  rw [text_condElse, block_cond (by decide), expandCond_some _ hv, enterBlock_walk hyes, skipBlock_balanced hno]

theorem block_condElse_none {b d e : Bool} {v : Variable} (hv : ¬ (assigned lit own value v).isSome)
    {yes : Template b} (hyes : balanced 0 yes.text) {no : Template d} {rest : Template e} {k : List UInt8}
    {start level : Int} {stk out : List α}
    (hno : block lit own value level ⟨.continue, level + 1, no.text ++ 0x7d :: (rest.text ++ k), stk⟩ =
      block lit own value level ⟨.continue, level + 1, 0x7d :: (rest.text ++ k), out⟩) :
    block lit own value start ⟨.continue, level, (Template.condElse v yes no rest).text ++ k, stk⟩ =
      block lit own value start ⟨.continue, level, rest.text ++ k, out⟩ := by
  rw [text_condElse, block_cond (by decide), expandCond_none _ hv, skipBlock_balanced hyes, enterBlock_walk hno]

/-- A condition that fails, without its other block: what follows is taken for that. -/
theorem expandCond_rest {b : Bool} {v : Variable} (hv : ¬ (assigned lit own value v).isSome) {yes : Template b}
    (hyes : balanced 0 yes.text) {rest : Template false} {k : List UInt8} (hk : k.head? ≠ some 0x7b) (level : Int)
    (stk : List α) :
    expandCond lit own value (enterBlock (block lit own value))
        ⟨.continue, level, 0x3f :: v.letter :: 0x7b :: (yes.text ++ 0x7d :: (rest.text ++ k)), stk⟩ =
      block lit own value level ⟨.continue, level, rest.text ++ k, stk⟩ := by
  rw [expandCond_none _ hv, skipBlock_balanced hyes, enterBlock_other _ (text_head hk)]

/-- Where a template is: within a block, with something other than a brace behind it, or the
    end of the line. -/
def Stands : (inside : Bool) → (start level : Int) → (k : List UInt8) → Prop
  | true, start, level, k => start < level ∧ k.head? ≠ some 0x7b
  | false, start, level, k => level = start ∧ k = []

theorem Stands.head {inside : Bool} {start level : Int} {k : List UInt8} (h : Stands inside start level k) :
    k.head? ≠ some 0x7b := by
  cases inside with
  | true => exact h.2
  | false =>
    obtain ⟨-, rfl⟩ := h
    exact (Option.some_ne_none _).symm

/-- Before the brace that closes a block. -/
theorem stands_close {start level : Int} (h : start < level) (k : List UInt8) : Stands true start level (0x7d :: k) :=
  ⟨h, close_head k⟩

/-- The walk copies what a template denotes. -/
theorem block_text {b inside : Bool} {T : Template b} (hT : T.fair (assigned lit own value) inside) {start level : Int}
    {k : List UInt8} (hs : Stands inside start level k) (stk : List α) :
    block lit own value start ⟨.continue, level, T.text ++ k, stk⟩ =
      block lit own value start ⟨.continue, level, k, stk ++ T.denote lit (assigned lit own value)⟩ := by
  induction T generalizing inside start level k stk with
  | nil => simp [Template.text, Template.denote]
  | char c hc rest ih =>
    rw [Template.text, List.cons_append, block_char hc.1, ih hT hs]
    simp [Template.denote]
  | escape c hc rest ih =>
    rw [Template.text, List.cons_append, List.cons_append, block_escape, ih hT hs]
    simp [Template.denote]
  | percent rest ih =>
    rw [Template.text, List.cons_append, List.cons_append, block_percent, ih hT hs]
    simp [Template.denote]
  | var v rest ih =>
    rw [Template.text, List.cons_append, List.cons_append, block_cond (letter_ne v).2.2, expandCond_var, ih hT hs]
    simp [Template.denote]
  | braces inner rest ihi ih =>
    simp only [Template.fair, Bool.and_eq_true] at hT
    obtain ⟨⟨rfl, hinner⟩, hrest⟩ := hT
    have hlt : start < level := hs.1
    have htext : (Template.braces inner rest).text ++ k = 0x7b :: (inner.text ++ 0x7d :: (rest.text ++ k)) := by
      simp [Template.text]
    rw [htext, block_open, ihi hinner (stands_close (by omega) _), block_close (by omega), ih hrest hs]
    simp [Template.denote]
  | cond v yes rest ihy ih =>
    simp only [fair_cond, Bool.and_eq_true] at hT
    obtain ⟨hyes, hrest⟩ := hT
    by_cases hv : (assigned lit own value v).isSome
    · rw [if_pos hv] at hyes
      have hblock := ihy hyes (stands_close (Int.lt_succ level) (rest.text ++ k)) stk
      rw [block_cond_some hv hs.head hblock, ih hrest hs]
      simp [denote_cond, hv]
    · -- the other block is what follows, and that has to be the rest of the line
      simp only [if_neg hv, Bool.and_eq_true, Bool.not_eq_true'] at hyes
      obtain ⟨hskip, rfl⟩ := hyes
      obtain ⟨rfl, rfl⟩ := id hs
      rw [text_cond, block_cond (by decide), expandCond_rest hv hskip hs.head, ih hrest hs, block_nil,
        block_stops _ (fun h => ExpState.noConfusion h), block_nil]
      simp [denote_cond, hv]
  | condElse v yes no rest ihy ihn ih =>
    simp only [fair_condElse, Bool.and_eq_true] at hT
    obtain ⟨hboth, hrest⟩ := hT
    by_cases hv : (assigned lit own value v).isSome
    · rw [if_pos hv, Bool.and_eq_true] at hboth
      have hblock := ihy hboth.1 (stands_close (Int.lt_succ level) (0x7b :: (no.text ++ 0x7d :: (rest.text ++ k)))) stk
      rw [block_condElse_some hv hboth.2 hblock, ih hrest hs]
      simp [denote_condElse, hv]
    · rw [if_neg hv, Bool.and_eq_true] at hboth
      have hblock := ihn hboth.2 (stands_close (Int.lt_succ level) (rest.text ++ k)) stk
      rw [block_condElse_none hv hboth.1 hblock, ih hrest hs]
      simp [denote_condElse, hv]

theorem fair_head {b : Bool} {T : Template b} {σ : Variable → Option (List α)} (hT : T.fair σ false) :
    T.text.head? ≠ some 0x7b := by
  cases b with
  | true =>
    cases T with
    | braces inner rest => cases hT
  | false => exact text_head_top T

/-- The line that a template is, as the first block. -/
theorem expandLine_eq {b : Bool} {T : Template b} (hT : T.text.head? ≠ some 0x7b) :
    expandLine lit own value T.text =
      let exp := block lit own value 0 ⟨.continue, 0, T.text, []⟩
      if exp.state = .success then some exp.stk else none := by
  unfold expandLine expandBlock
  rw [enterBlock_other _ hT]
  rfl

theorem expandLine_denote {b : Bool} {T : Template b} (hT : T.fair (assigned lit own value) false) :
    expandLine lit own value T.text = some (T.denote lit (assigned lit own value)) := by
  have hwalk := block_text hT (show Stands false 0 0 [] from ⟨rfl, rfl⟩) []
  rw [List.append_nil, block_nil] at hwalk
  rw [expandLine_eq (fair_head hT), hwalk]
  rfl

end Walk

/-! ## A block for nothing -/

/-- No brace is text, so that every one begins or ends a block. -/
def Template.unbraced : {b : Bool} → Template b → Bool
  | _, nil => true
  | _, char _ _ rest => rest.unbraced
  | _, escape c _ rest => c != 0x7b && c != 0x7d && rest.unbraced
  | _, percent rest => rest.unbraced
  | _, var _ rest => rest.unbraced
  | _, braces _ _ => false
  | _, cond _ yes rest => yes.unbraced && rest.unbraced
  | _, condElse _ yes no rest => yes.unbraced && no.unbraced && rest.unbraced

theorem balanced_char {c : UInt8} (h1 : c ≠ 0x7b) (h2 : c ≠ 0x7d) (k : Nat) (l : List UInt8) :
    balanced k (c :: l) = balanced k l := by
  conv_lhs => unfold balanced
  rw [if_neg h1, if_neg h2]

theorem balanced_open (k : Nat) (l : List UInt8) : balanced k (0x7b :: l) = balanced (k + 1) l := rfl

theorem balanced_close (k : Nat) (l : List UInt8) : balanced (k + 1) (0x7d :: l) = balanced k l := rfl

theorem balanced_text {b : Bool} {T : Template b} (hT : T.unbraced) (k : Nat) (l : List UInt8) :
    balanced k (T.text ++ l) = balanced k l := by
  have hpercent : ∀ k l, balanced k (0x25 :: l) = balanced k l := balanced_char (by decide) (by decide)
  have hname : ∀ (v : Variable) k l, balanced k (v.letter :: l) = balanced k l := by
    intro v
    have h : v.letter ≠ 0x7d := by cases v <;> decide
    exact balanced_char (letter_ne v).1 h
  induction T generalizing k l with
  | nil => rfl
  | char c hc rest ih =>
    rw [Template.text, List.cons_append, balanced_char hc.1.2.1 hc.1.2.2.1, ih hT]
  | escape c hc rest ih =>
    simp only [Template.unbraced, Bool.and_eq_true, bne_iff_ne] at hT
    rw [Template.text, List.cons_append, List.cons_append, balanced_char (by decide) (by decide),
      balanced_char hT.1.1 hT.1.2, ih hT.2]
  | percent rest ih => rw [Template.text, List.cons_append, List.cons_append, hpercent, hpercent, ih hT]
  | var v rest ih => rw [Template.text, List.cons_append, List.cons_append, hpercent, hname, ih hT]
  | braces inner rest => cases hT
  | cond v yes rest ihy ih =>
    simp only [Template.unbraced, Bool.and_eq_true] at hT
    simp only [Template.text, List.cons_append, List.append_assoc]
    rw [hpercent, balanced_char (by decide) (by decide), hname, balanced_open, ihy hT.1, balanced_close, ih hT.2]
  | condElse v yes no rest ihy ihn ih =>
    simp only [Template.unbraced, Bool.and_eq_true] at hT
    simp only [Template.text, List.cons_append, List.append_assoc]
    rw [hpercent, balanced_char (by decide) (by decide), hname, balanced_open, ihy hT.1.1, balanced_close,
      balanced_open, ihn hT.1.2, balanced_close, ih hT.2]

theorem balanced_unbraced {b : Bool} {T : Template b} (hT : T.unbraced) : balanced 0 T.text := by
  have h := balanced_text hT 0 []
  rw [List.append_nil] at h
  exact h.trans rfl

section Over

variable {α : Type} {lit : UInt8 → α} {own : Own} {value : Supplied → Option (List α)}

/-- The walk is over, with at least so many characters. -/
def Over (n : Nat) (exp : LineExpander α) : Prop := exp.state = .success ∧ n ≤ exp.stk.length

theorem Over.mono {n m : Nat} {exp : LineExpander α} (h : Over n exp) (hm : m ≤ n) : Over m exp := ⟨h.1, hm.trans h.2⟩

theorem Over.block {n : Nat} {exp : LineExpander α} (h : Over n exp) (start : Int) :
    Over n (block lit own value start exp) := by
  rw [block_stops start (h.1 ▸ fun h => ExpState.noConfusion h)]
  exact h

theorem Over.skip {n : Nat} {exp : LineExpander α} (h : Over n exp) : Over n (skipBlock exp) := by
  unfold skipBlock
  split
  · exact h
  · exact h

variable (lit own value)

/-- From `cp` the block goes to the end of the line, with `n` characters or more. -/
def Ends (start level : Int) (cp : List UInt8) (n : Nat) : Prop :=
  ∀ stk, Over (stk.length + n) (block lit own value start ⟨.continue, level, cp, stk⟩)

/-- In a block that no brace ends. -/
def Loose (cp : List UInt8) (n : Nat) : Prop := ∀ start level, level ≤ start → Ends lit own value start level cp n

variable {lit own value}

theorem Ends.mono {start level : Int} {cp : List UInt8} {n m : Nat} (h : Ends lit own value start level cp n)
    (hm : m ≤ n) : Ends lit own value start level cp m := fun stk => (h stk).mono (Nat.add_le_add_left hm _)

/-- Part of the line is copied or expanded to `out`. -/
theorem Ends.walk {start level level' : Int} {cp cp' : List UInt8} {n : Nat} {out : List α}
    (h : Ends lit own value start level' cp' n)
    (hstep : ∀ stk, block lit own value start ⟨.continue, level, cp, stk⟩ =
      block lit own value start ⟨.continue, level', cp', stk ++ out⟩) :
    Ends lit own value start level cp (out.length + n) := by
  intro stk
  rw [hstep]
  refine (h (stk ++ out)).mono (Nat.le_of_eq ?_)
  rw [List.length_append, Nat.add_assoc]

theorem loose_nil : Loose lit own value [] 0 := fun _ _ _ _ => ⟨rfl, Nat.le_refl _⟩

theorem loose_close {cp : List UInt8} {n : Nat} (h : Loose lit own value cp n) :
    Loose lit own value (0x7d :: cp) (n + 1) := by
  intro start level hlevel
  have hstep : ∀ stk : List α, block lit own value start ⟨.continue, level, 0x7d :: cp, stk⟩ =
      block lit own value start ⟨.continue, level - 1, cp, stk ++ [lit 0x7d]⟩ := by
    intro stk
    have hne : level - 1 ≠ start := by omega
    rw [← block_close hne, Int.sub_add_cancel]
  exact ((h start (level - 1) (by omega)).walk hstep).mono (Nat.le_of_eq (Nat.add_comm n 1))

/-- The brace that opens the other block makes up for the one before it. -/
theorem loose_else {cp : List UInt8} {n : Nat} (h : Loose lit own value cp n) :
    Loose lit own value (0x7d :: 0x7b :: cp) (n + 1) := by
  intro start level hlevel
  have hstep : ∀ stk : List α, block lit own value start ⟨.continue, level, 0x7d :: 0x7b :: cp, stk⟩ =
      block lit own value start ⟨.continue, level, cp, stk ++ [lit 0x7d, lit 0x7b]⟩ := by
    intro stk
    have hne : level - 1 ≠ start := by omega
    have hclose : block lit own value start ⟨.continue, level - 1 + 1, 0x7d :: 0x7b :: cp, stk⟩ = _ :=
      block_close hne stk (0x7b :: cp)
    rw [Int.sub_add_cancel] at hclose
    rw [hclose, block_open, Int.sub_add_cancel, List.append_assoc]
    rfl
  exact ((h start level hlevel).walk hstep).mono (by simp only [List.length_cons, List.length_nil]; omega)

theorem ends_cond {v : Variable} {start level : Int} {cp : List UInt8} {n : Nat}
    (h : ∀ stk, Over (stk.length + n) (expandCond lit own value (enterBlock (block lit own value))
      ⟨.continue, level, 0x3f :: v.letter :: cp, stk⟩)) :
    Ends lit own value start level (0x25 :: 0x3f :: v.letter :: cp) n := by
  intro stk
  rw [block_cond (by decide)]
  exact (h stk).block start

variable (lit own value)

/-- A template with `k` behind it. In a block that no brace ends, nothing of what it denotes is
    missing, and if it is not fair there is more; in any other it becomes such a block then. -/
structure TextEnds {b : Bool} (T : Template b) (k : List UInt8) (n : Nat) : Prop where
  loose : Loose lit own value (T.text ++ k)
    ((T.denote lit (assigned lit own value)).length + n + if T.fair (assigned lit own value) false then 0 else 1)
  unfair : T.fair (assigned lit own value) true = false → ∀ start level, start < level →
    Ends lit own value start level (T.text ++ k) ((T.denote lit (assigned lit own value)).length + n)

variable {lit own value}

/-- A template that is copied or expanded as far as `rest`. -/
theorem TextEnds.step {b d : Bool} {T : Template b} {rest : Template d} {k : List UInt8} {out : List α} {n : Nat}
    (h : TextEnds lit own value rest k n)
    (hfair : ∀ inside, T.fair (assigned lit own value) inside = rest.fair (assigned lit own value) inside)
    (hdenote : T.denote lit (assigned lit own value) = out ++ rest.denote lit (assigned lit own value))
    (hstep : ∀ start level stk, block lit own value start ⟨.continue, level, T.text ++ k, stk⟩ =
      block lit own value start ⟨.continue, level, rest.text ++ k, stk ++ out⟩) : TextEnds lit own value T k n where
  loose := by
    intro start level hlevel
    rw [hfair, hdenote, List.length_append]
    exact ((h.loose start level hlevel).walk (hstep start level)).mono (by omega)
  unfair := by
    intro hun start level hlevel
    rw [hfair] at hun
    rw [hdenote, List.length_append]
    exact ((h.unfair hun start level hlevel).walk (hstep start level)).mono (by omega)

/-- A condition with a block `A` that is not fair and takes the rest of the line. -/
theorem TextEnds.of_block {b d : Bool} {T : Template b} {A : Template d} {k cp rest : List UInt8} {n m : Nat}
    {v : Variable} (h : TextEnds lit own value A (0x7d :: cp) m) (hA : ¬ A.fair (assigned lit own value) true)
    (hm : (T.denote lit (assigned lit own value)).length + n + 1 ≤ (A.denote lit (assigned lit own value)).length + m)
    (htext : T.text ++ k = 0x25 :: 0x3f :: v.letter :: rest)
    (hcond : ∀ blk level stk,
      let e : LineExpander α := blk ⟨.continue, level, 0x7b :: (A.text ++ 0x7d :: cp), stk⟩
      expandCond lit own value blk ⟨.continue, level, 0x3f :: v.letter :: rest, stk⟩ ∈ [e, skipBlock e]) :
    TextEnds lit own value T k n := by
  have hover : ∀ start level, Ends lit own value start level (T.text ++ k)
      ((T.denote lit (assigned lit own value)).length + n + 1) := by
    intro start level
    rw [htext]
    refine ends_cond fun stk => ?_
    have hblock := (h.unfair (Bool.eq_false_iff.mpr hA) level (level + 1) (Int.lt_succ level) stk).mono
      (Nat.add_le_add_left hm _)
    rcases List.mem_pair.mp (hcond (enterBlock (block lit own value)) level stk) with he | he
    · rw [he]
      exact hblock
    · rw [he]
      exact hblock.skip
  refine ⟨fun start level _ => (hover start level).mono ?_, fun _ start level _ => (hover start level).mono ?_⟩
  · split <;> omega
  · omega

theorem TextEnds.cond {b : Bool} {yes : Template b} {rest : Template false} {k : List UInt8} {n m : Nat}
    (hbal : balanced 0 yes.text) (hrest : TextEnds lit own value rest k n)
    (hm : (rest.denote lit (assigned lit own value)).length + n + 1 ≤ m)
    (hyes : TextEnds lit own value yes (0x7d :: (rest.text ++ k)) m) (hk : k.head? ≠ some 0x7b) (v : Variable) :
    TextEnds lit own value (.cond v yes rest) k n := by
  by_cases hv : (assigned lit own value v).isSome
  · by_cases hfair : yes.fair (assigned lit own value) true
    · refine hrest.step ?_ (by rw [denote_cond, if_pos hv]) fun start level stk => ?_
      · simp [fair_cond, hv, hfair]
      · exact block_cond_some hv hk (block_text hfair (stands_close (Int.lt_succ level) _) stk)
    · refine hyes.of_block hfair ?_ (text_cond v yes rest k) fun blk level stk => ?_
      · simp [denote_cond, hv]
        omega
      · simp [expandCond_some blk hv]
  · -- the other block is what follows, and no brace ends it
    have hends : ∀ start level, Ends lit own value start level ((Template.cond v yes rest).text ++ k)
        ((rest.denote lit (assigned lit own value)).length + n +
          if rest.fair (assigned lit own value) false then 0 else 1) := by
      intro start level
      rw [text_cond]
      refine ends_cond fun stk => ?_
      rw [expandCond_rest hv hbal hk]
      exact hrest.loose level level (Int.le_refl level) stk
    refine ⟨fun start level _ => (hends start level).mono ?_, fun _ start level _ => (hends start level).mono ?_⟩
    · simp [denote_cond, fair_cond, hv, hbal]
    · simp [denote_cond, hv]

theorem TextEnds.condElse {b d e : Bool} {yes : Template b} {no : Template d} {rest : Template e} {k : List UInt8}
    {n m l : Nat} (hyesbal : balanced 0 yes.text) (hnobal : balanced 0 no.text)
    (hrest : TextEnds lit own value rest k n) (hm : (rest.denote lit (assigned lit own value)).length + n + 1 ≤ m)
    (hno : TextEnds lit own value no (0x7d :: (rest.text ++ k)) m)
    (hl : (rest.denote lit (assigned lit own value)).length + n + 1 ≤ l)
    (hyes : TextEnds lit own value yes (0x7d :: 0x7b :: (no.text ++ 0x7d :: (rest.text ++ k))) l) (v : Variable) :
    TextEnds lit own value (.condElse v yes no rest) k n := by
  by_cases hv : (assigned lit own value v).isSome
  · by_cases hfair : yes.fair (assigned lit own value) true
    · refine hrest.step ?_ (by rw [denote_condElse, if_pos hv]) fun start level stk => ?_
      · simp [fair_condElse, hv, hfair, hnobal]
      · exact block_condElse_some hv hnobal (block_text hfair (stands_close (Int.lt_succ level) _) stk)
    · refine hyes.of_block hfair ?_ (text_condElse v yes no rest k) fun blk level stk => ?_
      · simp [denote_condElse, hv]
        omega
      · simp [expandCond_some blk hv]
  · by_cases hfair : no.fair (assigned lit own value) true
    · refine hrest.step ?_ (by rw [denote_condElse, if_neg hv]) fun start level stk => ?_
      · simp [fair_condElse, hv, hfair, hyesbal]
      · exact block_condElse_none hv hyesbal (block_text hfair (stands_close (Int.lt_succ level) _) stk)
    · refine hno.of_block hfair ?_ (text_condElse v yes no rest k) fun blk level stk => ?_
      · simp [denote_condElse, hv]
        omega
      · simp [expandCond_none blk hv, skipBlock_balanced hyesbal]

theorem text_ends {b : Bool} {T : Template b} (hT : T.unbraced) {k : List UInt8} {n : Nat}
    (hk : Loose lit own value k n) (hhead : k.head? ≠ some 0x7b) : TextEnds lit own value T k n := by
  induction T generalizing k n with
  | nil =>
    refine ⟨fun start level hlevel => (hk start level hlevel).mono ?_, fun h => ?_⟩
    · simp [Template.denote, Template.fair]
    · cases h
  | char c hc rest ih =>
    exact (ih hT hk hhead).step (fun _ => rfl) rfl fun start level stk => block_char hc.1 start level stk _
  | escape c hc rest ih =>
    simp only [Template.unbraced, Bool.and_eq_true] at hT
    exact (ih hT.2 hk hhead).step (fun _ => rfl) rfl fun start level stk => block_escape c start level stk _
  | percent rest ih =>
    exact (ih hT hk hhead).step (fun _ => rfl) rfl fun start level stk => block_percent start level stk _
  | var v rest ih =>
    refine (ih hT hk hhead).step (fun _ => rfl) rfl fun start level stk => ?_
    exact (block_cond (letter_ne v).2.2 ..).trans (congrArg _ (expandCond_var ..))
  | braces inner rest => cases hT
  | cond v yes rest ihy ih =>
    simp only [Template.unbraced, Bool.and_eq_true] at hT
    have hrest := ih hT.2 hk hhead
    have hyes := ihy hT.1 (loose_close hrest.loose) (close_head _)
    exact TextEnds.cond (balanced_unbraced hT.1) hrest (by omega) hyes hhead v
  | condElse v yes no rest ihy ihn ih =>
    simp only [Template.unbraced, Bool.and_eq_true] at hT
    have hrest := ih hT.2 hk hhead
    have hno := ihn hT.1.2 (loose_close hrest.loose) (close_head _)
    have hyes := ihy hT.1.1 (loose_else hno.loose) (close_head _)
    exact TextEnds.condElse (balanced_unbraced hT.1.1) (balanced_unbraced hT.1.2) hrest (by omega) hno (by omega) hyes v

theorem unbraced_head {b : Bool} {T : Template b} (hT : T.unbraced) : T.text.head? ≠ some 0x7b := by
  cases b with
  | true =>
    cases T with
    | braces inner rest => cases hT
  | false => exact text_head_top T

theorem unfair_longer {b : Bool} {T : Template b} (hT : T.unbraced) (h : ¬ T.fair (assigned lit own value) false) :
    ∃ out, expandLine lit own value T.text = some out ∧
      (T.denote lit (assigned lit own value)).length < out.length := by
  have hline : TextEnds lit own value T [] 0 := text_ends hT loose_nil (Option.some_ne_none _).symm
  have hends := hline.loose 0 0 (Int.le_refl 0) []
  rw [List.append_nil, if_neg h] at hends
  rw [expandLine_eq (unbraced_head hT)]
  refine ⟨_, if_pos hends.1, Nat.lt_of_lt_of_le ?_ hends.2⟩
  simp

theorem expandLine_iff_fair {b : Bool} {T : Template b} (hT : T.unbraced) :
    expandLine lit own value T.text = some (T.denote lit (assigned lit own value)) ↔
      T.fair (assigned lit own value) false := by
  refine ⟨fun h => ?_, expandLine_denote⟩
  by_contra hun
  obtain ⟨out, hout, hlt⟩ := unfair_longer hT hun
  obtain rfl := Option.some.inj (h.symm.trans hout)
  exact Nat.lt_irrefl _ hlt

end Over

/-! ## The end of the line -/

/-- The source at each turn of the inner loop of _expand_block, the % that ends it included. -/
def copyTurns (start : Int) : Int → List UInt8 → List (List UInt8)
  | _, [] => []
  | level, c :: cp =>
    (c :: cp) ::
      if c = 0x25 then []
      else if c = 0x7b then copyTurns start (level + 1) cp
      else if c = 0x7d then if level - 1 = start then [] else copyTurns start (level - 1) cp
      else if c = 0x5c then
        match cp with
        | _ :: cp => copyTurns start level cp
        | [] => []
      else copyTurns start level cp

/-- A backslash, a % or a %? with nothing behind it. -/
def cutShort : List (List UInt8) := [[0x5c], [0x25], [0x25, 0x3f]]

section Turns

variable {α : Type} (lit : UInt8 → α) (own : Own) (value : Supplied → Option (List α))

def condTurns (turns : LineExpander α → List (List UInt8)) (exp : LineExpander α) : List (List UInt8) :=
  match exp.cp with
  | [] => []
  | c :: cp =>
    if c = 0x3f then
      let r := expandVar lit own value { exp with cp := cp }
      match r.1 with
      | some _ => turns r.2
      | none => turns (skipBlock r.2)
    else []

def enterTurns (turns : Int → LineExpander α → List (List UInt8)) (exp : LineExpander α) : List (List UInt8) :=
  if exp.cp.head? = some 0x7b then turns exp.level { exp with level := exp.level + 1, cp := exp.cp.tail }
  else turns exp.level exp

/-- The turns of the inner loop in those of the outer one. -/
def blockTurns : Nat → Int → LineExpander α → List (List UInt8)
  | 0, _, _ => []
  | n + 1, start, exp =>
    if exp.state ≠ .continue then []
    else
      let r := copyLoop lit start exp.state exp.level exp.stk exp.cp
      copyTurns start exp.level exp.cp ++
        if r.1 then []
        else
          match r.2.cp with
          | [] => []
          | c :: cp =>
            if cp.head? = some 0x25 then blockTurns n start { r.2 with cp := cp.tail, stk := r.2.stk ++ [lit c] }
            else
              condTurns lit own value (enterTurns (blockTurns n)) { r.2 with cp := cp } ++
                blockTurns n start
                  (expandCond lit own value (enterBlock (blockLoop lit own value n)) { r.2 with cp := cp })

/-- The places of the line that are copied or expanded, as what is left of the line there. -/
def turns (line : List UInt8) : List (List UInt8) :=
  enterTurns (blockTurns lit own value (line.length + 1)) ⟨.continue, 0, line, []⟩

/-- cp stays within the line and its NUL. -/
def ReadsInside (line : List UInt8) : Prop :=
  (expandBlock lit own value (line.length + 1) ⟨.continue, 0, line, []⟩).state ≠ .outside

instance (line : List UInt8) : Decidable (ReadsInside lit own value line) := inferInstanceAs (Decidable (_ ≠ _))

theorem copyLoop_turns (start level : Int) (stk : List α) (cp : List UInt8) :
    let r := copyLoop lit start .continue level stk cp
    (r.1 = true → (r.2.state = .outside ↔ ∃ s ∈ copyTurns start level cp, s ∈ cutShort)) ∧
      (r.1 = false → r.2.state = .continue ∧ (∀ c ∈ r.2.cp.head?, c = 0x25) ∧
        (r.2.cp ∈ cutShort ↔ ∃ s ∈ copyTurns start level cp, s ∈ cutShort)) := by
  induction level, stk, cp using copyLoop.induct lit start with
  | case1 level stk => simp [copyLoop, copyTurns, cutShort]
  | case2 level stk cp =>
    unfold copyLoop copyTurns
    simp [cutShort]
  | case3 level stk cp h1 ih =>
    unfold copyLoop copyTurns
    simpa [cutShort] using ih
  | case4 level stk cp h3 h1 h2 =>
    unfold copyLoop copyTurns
    simp [cutShort, h3]
  | case5 level stk cp h3 h1 h2 ih =>
    unfold copyLoop copyTurns
    simpa [cutShort, h3] using ih
  | case6 level stk d cp h1 h2 h3 ih =>
    unfold copyLoop copyTurns
    simpa [cutShort] using ih
  | case7 level stk h1 h2 h3 => simp [copyLoop, copyTurns, cutShort]
  | case8 level stk c cp h1 h2 h3 h4 ih =>
    unfold copyLoop copyTurns
    simpa [cutShort, h1, h2, h3, h4] using ih

theorem skipBlock_state (exp : LineExpander α) : (skipBlock exp).state = exp.state := by
  unfold skipBlock
  split <;> rfl

theorem blockLoop_stops (n : Nat) (start : Int) {exp : LineExpander α} (h : exp.state ≠ .continue) :
    blockLoop lit own value n start exp = exp := by
  cases n with
  | zero => rfl
  | succ n =>
    unfold blockLoop
    rw [if_pos h]

theorem blockLoop_outside (n : Nat) (start : Int) {exp : LineExpander α} (h : exp.state = .outside) :
    (blockLoop lit own value n start exp).state = .outside := by
  rw [blockLoop_stops lit own value n start (h ▸ fun h => ExpState.noConfusion h)]
  exact h

theorem enterBlock_stops {loop : Int → LineExpander α → LineExpander α} {state : ExpState}
    (hl : ∀ start e, e.state = state → (loop start e).state = state) {exp : LineExpander α} (h : exp.state = state) :
    (enterBlock loop exp).state = state := by
  unfold enterBlock
  split
  · exact hl _ _ h
  · exact hl _ _ h

/-- Where there is a character for the name, cp stays behind it. -/
theorem expandVar_state {exp : LineExpander α} (hs : exp.state ≠ .outside) :
    (expandVar lit own value exp).2.state = .outside ↔ exp.cp = [] := by
  rcases exp with ⟨state, level, _ | ⟨c, cp⟩, stk⟩
  · simp [expandVar]
  · have hs : state ≠ .outside := hs
    unfold expandVar
    simp only
    split
    · split <;> simp
    · split <;> simp [hs]

/-- One condition: it ends the line, or a block in it is cut short. -/
theorem expandCond_turns {block : LineExpander α → LineExpander α} {turns : LineExpander α → List (List UInt8)}
    (hb : ∀ e, e.state ≠ .outside → ((block e).state = .outside ↔ ∃ s ∈ turns e, s ∈ cutShort))
    (hstop : ∀ e, e.state = .outside → (block e).state = .outside) {exp : LineExpander α} (hs : exp.state ≠ .outside) :
    (expandCond lit own value block exp).state = .outside ↔
      0x25 :: exp.cp ∈ cutShort ∨ ∃ s ∈ condTurns lit own value turns exp, s ∈ cutShort := by
  rcases exp with ⟨state, level, _ | ⟨c, cp⟩, stk⟩
  · simp [expandCond, expandVar, cutShort]
  have hs : state ≠ .outside := hs
  unfold expandCond condTurns
  simp only
  by_cases hc : c = 0x3f
  · subst hc
    simp only [if_true]
    have hbefore : (⟨state, level, cp, stk⟩ : LineExpander α).state ≠ .outside := hs
    have hvar := expandVar_state lit own value hbefore
    generalize expandVar lit own value ⟨state, level, cp, stk⟩ = r at hvar ⊢
    by_cases hcp : cp = []
    · subst hcp
      have hout : r.2.state = .outside := hvar.mpr rfl
      have hcut : [0x25, 0x3f] ∈ cutShort := by decide
      refine iff_of_true ?_ (.inl hcut)
      rcases r.1 with _ | p
      · exact hstop _ ((skipBlock_state r.2).trans hout)
      · exact (skipBlock_state _).trans (hstop _ hout)
    · have hin : r.2.state ≠ .outside := fun h => hcp (hvar.mp h)
      have hcut : (0x25 :: 0x3f :: cp) ∉ cutShort := by simp [cutShort, hcp]
      rw [or_iff_right hcut]
      rcases r.1 with _ | p
      · exact hb _ ((skipBlock_state r.2).symm ▸ hin)
      · exact (skipBlock_state _).symm ▸ hb _ hin
  · simp only [if_neg hc]
    have hbefore : (⟨state, level, c :: cp, stk⟩ : LineExpander α).state ≠ .outside := hs
    have hvar := expandVar_state lit own value hbefore
    generalize expandVar lit own value ⟨state, level, c :: cp, stk⟩ = r at hvar ⊢
    have hin : r.2.state ≠ .outside := fun h => List.cons_ne_nil c cp (hvar.mp h)
    refine iff_of_false ?_ ?_
    · rcases r.1 with _ | p
      · exact hin
      · exact hin
    · simp [cutShort, hc]

theorem enterBlock_turns {loop : Int → LineExpander α → LineExpander α}
    {turns : Int → LineExpander α → List (List UInt8)}
    (hl : ∀ start e, e.state ≠ .outside → ((loop start e).state = .outside ↔ ∃ s ∈ turns start e, s ∈ cutShort))
    {exp : LineExpander α} (hs : exp.state ≠ .outside) :
    (enterBlock loop exp).state = .outside ↔ ∃ s ∈ enterTurns turns exp, s ∈ cutShort := by
  unfold enterBlock enterTurns
  split
  · exact hl _ _ hs
  · exact hl _ _ hs

theorem exists_cut_append {l l' : List (List UInt8)} :
    (∃ s ∈ l ++ l', s ∈ cutShort) ↔ (∃ s ∈ l, s ∈ cutShort) ∨ ∃ s ∈ l', s ∈ cutShort := by
  simp only [List.mem_append, or_and_right, exists_or]

theorem blockLoop_turns (n : Nat) (start : Int) (exp : LineExpander α) (hs : exp.state ≠ .outside) :
    (blockLoop lit own value n start exp).state = .outside ↔
      ∃ s ∈ blockTurns lit own value n start exp, s ∈ cutShort := by
  induction n generalizing start exp with
  | zero => exact iff_of_false hs (by simp [blockTurns])
  | succ n ih =>
    by_cases hgo : exp.state = .continue
    · have hturn := copyLoop_turns lit start exp.level exp.stk exp.cp
      unfold blockLoop blockTurns
      simp only [hgo, ne_eq, not_true_eq_false, if_false]
      generalize copyLoop lit start .continue exp.level exp.stk exp.cp = r at hturn ⊢
      rcases r with ⟨_ | _, state, level, _ | ⟨c, cp⟩, stk⟩
      · have hcut := (hturn.2 rfl).2.2
        simp only [List.append_nil, Bool.false_eq_true, if_false]
        rw [← hcut]
        simp [cutShort]
      · obtain ⟨hstate, hc, hcut⟩ := hturn.2 rfl
        obtain rfl : state = .continue := hstate
        obtain rfl : c = 0x25 := hc c rfl
        simp only [Bool.false_eq_true, if_false]
        rw [exists_cut_append, ← hcut]
        split
        · rename_i hnext
          have hlong : 0x25 :: cp ∉ cutShort := by
            rcases cp with _ | ⟨d, cp⟩
            · cases hnext
            · obtain rfl : d = 0x25 := Option.some.inj hnext
              simp [cutShort]
          rw [or_iff_right hlong]
          exact ih start _ (fun h => ExpState.noConfusion h)
        · have hcont : (⟨.continue, level, cp, stk⟩ : LineExpander α).state ≠ .outside :=
            fun h => ExpState.noConfusion h
          have hcond := expandCond_turns lit own value (fun e => enterBlock_turns ih)
            (fun e => enterBlock_stops fun start e => blockLoop_outside lit own value n start) hcont
          rw [exists_cut_append, ← or_assoc, ← hcond]
          generalize expandCond lit own value (enterBlock (blockLoop lit own value n)) ⟨.continue, level, cp, stk⟩ = e
          by_cases he : e.state = .outside
          · exact iff_of_true (blockLoop_outside lit own value n start he) (.inl he)
          · rw [or_iff_right he]
            exact ih start e he
      · simpa using hturn.1 rfl
      · simpa using hturn.1 rfl
    · have hnone : blockTurns lit own value (n + 1) start exp = [] := by
        unfold blockTurns
        rw [if_pos hgo]
      rw [blockLoop_stops lit own value _ _ hgo, hnone]
      exact iff_of_false hs (by simp)

theorem inside_iff (line : List UInt8) :
    ReadsInside lit own value line ↔ ∀ s ∈ turns lit own value line, s ∉ cutShort := by
  have hstart : (⟨.continue, 0, line, []⟩ : LineExpander α).state ≠ .outside := fun h => ExpState.noConfusion h
  have h := enterBlock_turns (blockLoop_turns lit own value (line.length + 1)) hstart
  unfold ReadsInside turns expandBlock
  rw [ne_eq, h]
  simp only [not_exists, not_and]

/-! ### The last character -/

theorem copyTurns_suffix {start level : Int} {cp s : List UInt8} (hs : s ∈ copyTurns start level cp) : s <:+ cp := by
  induction level, cp using copyTurns.induct with
  | case1 => cases hs
  | case2 level c cp ihopen ihclose ihescape ih =>
    unfold copyTurns at hs
    rcases List.mem_cons.mp hs with rfl | hs
    · exact List.suffix_rfl
    split at hs
    · cases hs
    split at hs
    · exact (ihopen hs).trans (List.suffix_cons _ _)
    split at hs
    · split at hs
      · cases hs
      · exact (ihclose hs).trans (List.suffix_cons _ _)
    split at hs
    · cases cp with
      | nil => cases hs
      | cons d cp => exact (ihescape hs).trans ((List.suffix_cons _ _).trans (List.suffix_cons _ _))
    · exact (ih hs).trans (List.suffix_cons _ _)

theorem condTurns_suffix {turns : LineExpander α → List (List UInt8)} (ht : ∀ e, ∀ s ∈ turns e, s <:+ e.cp)
    {exp : LineExpander α} {s : List UInt8} (hs : s ∈ condTurns lit own value turns exp) : s <:+ exp.cp := by
  rcases exp with ⟨state, level, _ | ⟨c, cp⟩, stk⟩
  · cases hs
  unfold condTurns at hs
  simp only at hs
  split at hs
  · have hvar : (expandVar lit own value ⟨state, level, cp, stk⟩).2.cp <:+ c :: cp :=
      (expandVar_suffix _).trans (List.suffix_cons c cp)
    split at hs
    · exact (ht _ _ hs).trans hvar
    · exact (ht _ _ hs).trans ((skipBlock_suffix _).trans hvar)
  · cases hs

theorem enterTurns_suffix {turns : Int → LineExpander α → List (List UInt8)}
    (ht : ∀ start e, ∀ s ∈ turns start e, s <:+ e.cp) (exp : LineExpander α) :
    ∀ s ∈ enterTurns turns exp, s <:+ exp.cp := by
  intro s hs
  unfold enterTurns at hs
  split at hs
  · exact (ht _ _ s hs).trans (List.tail_suffix _)
  · exact ht _ _ s hs

theorem blockTurns_suffix (n : Nat) (start : Int) (exp : LineExpander α) :
    ∀ s ∈ blockTurns lit own value n start exp, s <:+ exp.cp := by
  induction n generalizing start exp with
  | zero =>
    intro s hs
    cases hs
  | succ n ih =>
    have hcopy : (copyLoop lit start exp.state exp.level exp.stk exp.cp).2.cp <:+ exp.cp := copyLoop_suffix ..
    intro s hs
    unfold blockTurns at hs
    split at hs
    · cases hs
    simp only at hs
    rcases List.mem_append.mp hs with hs | hs
    · exact copyTurns_suffix hs
    split at hs
    · cases hs
    split at hs
    · cases hs
    rename_i c cp h
    rw [h] at hcopy
    have hcp := (List.suffix_cons c cp).trans hcopy
    split at hs
    · exact (ih _ _ s hs).trans ((List.tail_suffix _).trans hcp)
    rcases List.mem_append.mp hs with hs | hs
    · exact (condTurns_suffix lit own value (enterTurns_suffix ih) hs).trans hcp
    · have hcond : (expandCond lit own value (enterBlock (blockLoop lit own value n))
          { (copyLoop lit start exp.state exp.level exp.stk exp.cp).2 with cp := cp }).cp <:+ cp :=
        expandCond_suffix (enterBlock_suffix (blockLoop_suffix n)) _
      exact (ih _ _ s hs).trans (hcond.trans hcp)

/-- A line that does not end with one of the three characters is not left, whatever the walk. -/
theorem inside_of_last {line : List UInt8} (h : ∀ c ∈ line.getLast?, c ∉ [0x5c, 0x25, 0x3f]) :
    ReadsInside lit own value line := by
  rw [inside_iff]
  intro s hs hcut
  obtain ⟨t, rfl⟩ : s <:+ line := enterTurns_suffix (blockTurns_suffix lit own value _) _ s hs
  have hlast : ∃ c ∈ s.getLast?, c ∈ [0x5c, 0x25, 0x3f] := by
    rcases List.mem_cons.mp hcut with rfl | hcut
    · exact ⟨_, rfl, by decide⟩
    rcases List.mem_cons.mp hcut with rfl | hcut
    · exact ⟨_, rfl, by decide⟩
    obtain rfl := List.mem_singleton.mp hcut
    exact ⟨_, rfl, by decide⟩
  obtain ⟨c, hc, hmem⟩ := hlast
  refine h c ?_ hmem
  rw [List.getLast?_append, hc]
  rfl

/-- Every template becomes what it denotes if it is fair under the values that there are, and
    without braces in its text only then; a line is left exactly where the walk comes to an end
    that is cut short. -/
theorem expandLine_fair_and_inside_iff :
    (∀ {b : Bool} (T : Template b), T.fair (assigned lit own value) false →
      expandLine lit own value T.text = some (T.denote lit (assigned lit own value))) ∧
    (∀ {b : Bool} (T : Template b), T.unbraced →
      (expandLine lit own value T.text = some (T.denote lit (assigned lit own value)) ↔
        T.fair (assigned lit own value) false)) ∧
    ∀ line, ReadsInside lit own value line ↔ ∀ s ∈ turns lit own value line, s ∉ cutShort :=
  ⟨fun _ hT => expandLine_denote hT, fun _ hT => expandLine_iff_fair hT, inside_iff lit own value⟩

end Turns

/-! ## The template for SOLARIS -/

/-- Characters that are text. -/
def isText (l : List UInt8) : Bool := l.all fun c => decide (Plain c ∧ c ≠ 0)

theorem isText_cons {c : UInt8} {l : List UInt8} (h : isText (c :: l) = true) : (Plain c ∧ c ≠ 0) ∧ isText l = true := by
  unfold isText at h
  rw [List.all_cons, Bool.and_eq_true] at h
  exact ⟨of_decide_eq_true h.1, h.2⟩

/-- Text in front of a template. -/
def literal : (l : List UInt8) → isText l = true → Template false → Template false
  | [], _, T => T
  | c :: l, h, T => .char c (isText_cons h).1 (literal l (isText_cons h).2 T)

/-- "%?a{-f }-- %u" -/
def user : Template false :=
  .cond .authenticated (literal [0x2d, 0x66, 0x20] (by decide) .nil)
    (literal [0x2d, 0x2d, 0x20] (by decide) (.var .userName .nil))

/-- "TERM=%T" -/
def term : Template false := literal [0x54, 0x45, 0x52, 0x4d, 0x3d] (by decide) (.var .terminaltype .nil)

/-- `loginInvocation` as a template. -/
def solaris : Template false :=
  literal [0x2f, 0x62, 0x69, 0x6e, 0x2f, 0x6c, 0x6f, 0x67, 0x69, 0x6e, 0x20, 0x2d, 0x68, 0x20] (by decide)
    (.var .remoteHostname
      (literal [0x20] (by decide)
        (.condElse .terminaltype term (literal [0x2d] (by decide) .nil)
          (literal [0x20] (by decide) (.cond .userName user .nil)))))

example : solaris.text = loginInvocation.1 := by decide +kernel

/-- A terminal of type xterm from the host "h", with the user name "x". -/
def withUser : Peer := ⟨cstr [0x68], some (cstr xterm), some (cstr [0x78])⟩

/-- "%?a{-f }-- %u" alone is right, since it is not in a block. -/
theorem solaris_without_user :
    expandLine id ownLine (peer xterm).bytes solaris.text =
        some (solaris.denote id (assigned id ownLine (peer xterm).bytes)) ∧
      expandLine id ownLine withUser.bytes user.text = some (user.denote id (assigned id ownLine withUser.bytes)) ∧
      ReadsInside id ownLine withUser.bytes solaris.text := by
  obtain ⟨hfair, -, -⟩ := expandLine_fair_and_inside_iff id ownLine (peer xterm).bytes
  obtain ⟨-, hiff, hinside⟩ := expandLine_fair_and_inside_iff id ownLine withUser.bytes
  refine ⟨hfair solaris ?_, (hiff user ?_).mpr ?_, (hinside solaris.text).mpr ?_⟩
  · decide +kernel
  · decide +kernel
  · decide +kernel
  · decide +kernel

/-- A user name that is not authenticated gets the brace that ends its block: no other block
    is there, so all of the line is taken for it. And a line may end with a backslash. -/
theorem brace_behind_user :
    expandLine id ownLine withUser.bytes solaris.text =
        some (solaris.denote id (assigned id ownLine withUser.bytes) ++ [0x7d]) ∧
      ¬ ReadsInside id ownLine withUser.bytes [0x5c] := by
  decide +kernel

/-- "{x}" -/
def braced : Template true := .braces (literal [0x78] (by decide) .nil) .nil

/-- "%?u{\}}{x}" -/
def escaped : Template false :=
  .condElse .userName (.escape 0x7d (by decide) .nil) (literal [0x78] (by decide) .nil) .nil

/-- Braces outside of all blocks end the walk, and one that is escaped ends a block that is
    passed over. -/
example :
    expandLine id ownLine (peer xterm).bytes braced.text = none ∧
      expandLine id ownLine (peer xterm).bytes escaped.text = some [0x7d, 0x7b, 0x78, 0x7d] ∧
      escaped.denote id (assigned id ownLine (peer xterm).bytes) = [0x78] := by
  decide +kernel

/-- "x{%?u{A}y}z" -/
def nested : Template false :=
  .char 0x78 (by decide)
    (.braces (.cond .userName (literal [0x41] (by decide) .nil) (literal [0x79] (by decide) .nil))
      (literal [0x7a] (by decide) .nil))

/-- The brace that would end the walk is taken for text by a condition without its other
    block, so what is not fair may still come out right. -/
theorem faults_cancel :
    nested.fair (assigned id ownLine (peer xterm).bytes) false = false ∧
      expandLine id ownLine (peer xterm).bytes nested.text =
        some (nested.denote id (assigned id ownLine (peer xterm).bytes)) := by
  decide +kernel

end Netutils.Telnetd.ExpandLine
