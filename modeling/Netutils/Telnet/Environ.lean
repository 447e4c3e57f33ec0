/-
  Netutils.Telnet.Environ — the client's answer to an ENVIRON SEND (env_opt, env_opt_start,
  env_opt_add and env_opt_end of telnet/telnet.c), and the room it has in its buffer.

  env_opt_add looks for room once for each variable, counting no escapes, and grows the
  buffer once by OPT_REPLY_SIZE, however much is missing. So the answer stays in its
  buffer exactly where every variable, escapes and all, fits what that gives it
  (`env_opt_inside_iff`).
-/

import Netutils.Arpa
import Netutils.Lib.Cells
import Netutils.Libc.Ctype

namespace Netutils.Telnet

open Netutils.Arpa
open Netutils.Lib.Cells

/-! ## The variables -/

/-- struct env_lst; its `welldefined` is always that of its name. -/
structure EnvLst where
  var : CString
  value : CString
  export_ : Bool

/-- "USER", "DISPLAY", "PRINTER", "SYSTEMTYPE", "JOB", "ACCT" -/
def wellKnown : List (List UInt8) :=
  [[85, 83, 69, 82], [68, 73, 83, 80, 76, 65, 89], [80, 82, 73, 78, 84, 69, 82],
    [83, 89, 83, 84, 69, 77, 84, 89, 80, 69], [74, 79, 66], [65, 67, 67, 84]]

def optWelldefined (ep : CString) : Bool := ep.1 ∈ wellKnown

def envFind (env : List EnvLst) (var : CString) : Option EnvLst := env.find? (·.var = var)

def envGetvalue (env : List EnvLst) (var : CString) : Option CString := (envFind env var).map EnvLst.value

/-- The variables that env_default goes through. -/
def envDefault (env : List EnvLst) (welldefined : Bool) : List CString :=
  (env.filter fun e => e.export_ && optWelldefined e.var == welldefined).map EnvLst.var

/-! ## The reply -/

def OPT_REPLY_SIZE : Nat := 256

structure Reply where
  /-- `opt_replyend - opt_reply`; `none` where the three pointers are NULL. -/
  block : Option Nat
  /-- What lies between opt_reply and opt_replyp. -/
  bytes : List UInt8
  /-- No byte was written at or behind opt_replyend, or through NULL. -/
  inside : Bool

/-- `*opt_replyp++ = c` -/
def Reply.put (r : Reply) (c : UInt8) : Reply :=
  { r with bytes := r.bytes ++ [c], inside := r.inside && r.block.any (r.bytes.length < ·) }

def Reply.puts (r : Reply) (l : List UInt8) : Reply := l.foldl Reply.put r

/-- `alloc n`: malloc and realloc have n bytes to give. -/
def envOptStart (alloc : Nat → Bool) : Reply :=
  if alloc OPT_REPLY_SIZE then
    (⟨some OPT_REPLY_SIZE, [], true⟩ : Reply).puts [IAC, SB, TELOPT_NEW_ENVIRON, TELQUAL_IS]
  else ⟨none, [], true⟩

/-- The loop of env_opt_add on one string. -/
def escape (s : CString) : List UInt8 :=
  s.1.flatMap fun c =>
    if c = IAC then [IAC, c]
    else if c = NEW_ENV_VAR ∨ c = NEW_ENV_VALUE ∨ c = ENV_ESC ∨ c = ENV_USERVAR then [ENV_ESC, c]
    else [c]

/-- What env_opt_add writes for a variable. -/
def field (ep : CString) (vp : Option CString) : List UInt8 :=
  (if optWelldefined ep then NEW_ENV_VAR else ENV_USERVAR) :: escape ep ++
    match vp with
    | some v => NEW_ENV_VALUE :: escape v
    | none => []

def strlen (s : CString) : Nat := s.1.length

/-- env_opt_add from `vp = env_getvalue (ep)` on. -/
def addVar (alloc : Nat → Bool) (r : Reply) (ep : CString) (vp : Option CString) : Reply :=
  match r.block with
  | none => r
  | some size =>
    if r.bytes.length + (vp.elim 0 strlen) + strlen ep + 6 > size then
      if alloc (size + OPT_REPLY_SIZE) then
        { r with block := some (size + OPT_REPLY_SIZE) }.puts (field ep vp)
      else ⟨none, [], r.inside⟩
    else r.puts (field ep vp)

/-- Variables in turn, as long as the calls return. -/
def addAll (add : Reply → CString → Reply × Bool) : Reply → List CString → Reply × Bool
  | r, [] => (r, true)
  | r, ep :: eps => if (add r ep).2 then addAll add (add r ep).1 eps else add r ep

/-- env_opt_add, and whether it returns: a name that is empty (or NULL) stands for all the
    variables to export, and if one of these has an empty name, that one for all of them
    again, down to the `depth` that the stack has room for. -/
def envOptAdd (alloc : Nat → Bool) (env : List EnvLst) : Nat → Reply → CString → Reply × Bool
  | depth, r, ep =>
    if r.block = none then (r, true)
    else if ep.1 = [] then
      match depth with
      | 0 => (r, false)
      | depth + 1 =>
        -- Send user defined variables first, then the well known.
        let q := addAll (envOptAdd alloc env depth) r (envDefault env false)
        if q.2 then addAll (envOptAdd alloc env depth) q.1 (envDefault env true) else q
    else (addVar alloc r ep (envGetvalue env ep), true)

def envOptEnd (emptyok : Bool) (r : Reply) : Reply :=
  if emptyok ∨ r.bytes.length + 2 > 6 then r.puts [IAC, SE] else r

/-! ## The request -/

/-- The names asked for in what stands behind TELQUAL_SEND; `past` is the byte behind that,
    which an ENV_ESC at the end takes. -/
def wants (past : UInt8) : List UInt8 → Option (List UInt8) → List (List UInt8)
  | [], ep => ep.toList
  | [c], ep =>
    if c = NEW_ENV_VAR ∨ c = ENV_USERVAR then ep.toList ++ [[]]
    else (ep.map (· ++ [if c = ENV_ESC then past else c])).toList
  | c :: x :: l, ep =>
    if c = NEW_ENV_VAR ∨ c = ENV_USERVAR then ep.toList ++ wants past (x :: l) (some [])
    else if c = ENV_ESC then wants past l (ep.map (· ++ [x]))
    else wants past (x :: l) (ep.map (· ++ [c]))

/-- env_opt on TELQUAL_SEND and `req` behind it. -/
def envOpt (alloc : Nat → Bool) (env : List EnvLst) (depth : Nat) (req : List UInt8) (past : UInt8) : Reply :=
  let eps := if req = [] then [cstr []] else (wants past req none).map cstr
  let q := addAll (envOptAdd alloc env depth) (envOptStart alloc) eps
  if q.2 then envOptEnd true q.1 else q.1

/-! ## The variables of a reply -/

/-- The variables that a list of names stands for, and whether that is all of them. -/
def expandAll (expand : CString → List CString × Bool) : List CString → List CString × Bool
  | [] => ([], true)
  | ep :: eps =>
    let w := expand ep
    if w.2 then (w.1 ++ (expandAll expand eps).1, (expandAll expand eps).2) else w

def expand (env : List EnvLst) : Nat → CString → List CString × Bool
  | depth, ep =>
    if ep.1 = [] then
      match depth with
      | 0 => ([], false)
      | depth + 1 => expandAll (expand env depth) (envDefault env false ++ envDefault env true)
    else ([ep], true)

/-- The names in the request. -/
def asked (req : List UInt8) (past : UInt8) : List CString :=
  if req = [] then [cstr []] else (wants past req none).map cstr

/-! ## One reply, variable by variable -/

theorem puts_spec (r : Reply) (l : List UInt8) :
    (r.puts l).block = r.block ∧ (r.puts l).bytes = r.bytes ++ l ∧
      ((r.puts l).inside = true ↔
        r.inside = true ∧ (l = [] ∨ ∃ size, r.block = some size ∧ r.bytes.length + l.length ≤ size)) := by
  induction l generalizing r with
  | nil => simp [Reply.puts]
  | cons c l ih =>
    obtain ⟨h1, h2, h3⟩ := ih (r.put c)
    refine ⟨h1, by rw [Reply.puts, List.foldl_cons, ← Reply.puts, h2]; simp [Reply.put], ?_⟩
    rw [Reply.puts, List.foldl_cons, ← Reply.puts, h3]
    rcases hb : r.block with _ | size
    · simp [Reply.put, hb]
    · by_cases hl : l = []
      · subst hl
        grind [Reply.put]
      · have := List.length_pos_iff.mpr hl
        simp only [Reply.put, hb, hl, Bool.and_eq_true, Option.any_some, decide_eq_true_eq, Option.some.injEq,
          exists_eq_left', List.length_append, List.length_cons, List.length_nil, reduceCtorEq, false_or, and_assoc]
        exact and_congr_right fun _ => by omega

variable (alloc : Nat → Bool) (env : List EnvLst)

def addVars (r : Reply) (eps : List CString) : Reply :=
  eps.foldl (fun r ep => addVar alloc r ep (envGetvalue env ep)) r

/-- Once the pointers are NULL nothing is written any more. -/
theorem addVars_none {r : Reply} (h : r.block = none) (eps : List CString) : addVars alloc env r eps = r := by
  induction eps with
  | nil => rfl
  | cons ep eps ih =>
    have : addVar alloc r ep (envGetvalue env ep) = r := by simp [addVar, h]
    rw [addVars, List.foldl_cons, this]
    exact ih

theorem addAll_append (add : Reply → CString → Reply × Bool) (r : Reply) (l m : List CString) :
    addAll add r (l ++ m) = if (addAll add r l).2 then addAll add (addAll add r l).1 m else addAll add r l := by
  induction l generalizing r with
  | nil => rfl
  | cons ep l ih =>
    simp only [List.cons_append, addAll]
    by_cases h : (add r ep).2 = true
    · simp only [h, if_true, ih]
    · simp only [h, if_false, Bool.false_eq_true]

/-- What adding a name does: it adds what the name stands for, and returns if that is all
    there is, or if the pointers have become NULL on the way. -/
def Adds (p : Reply × Bool) (r : Reply) (w : List CString × Bool) : Prop :=
  p.1 = addVars alloc env r w.1 ∧ (p.2 = true ↔ w.2 = true ∨ p.1.block = none)

theorem addAll_adds {add : Reply → CString → Reply × Bool} {ex : CString → List CString × Bool}
    (h : ∀ r ep, Adds alloc env (add r ep) r (ex ep)) (r : Reply) (eps : List CString) :
    Adds alloc env (addAll add r eps) r (expandAll ex eps) := by
  induction eps generalizing r with
  | nil => exact ⟨rfl, by simp [addAll, expandAll]⟩
  | cons ep eps ih =>
    obtain ⟨h1, h2⟩ := h r ep
    obtain ⟨i1, i2⟩ := ih (add r ep).1
    unfold Adds addAll expandAll
    by_cases hw : (ex ep).2 = true
    · rw [if_pos (h2.mpr (Or.inl hw)), if_pos hw]
      refine ⟨?_, i2⟩
      rw [i1, h1]
      simp [addVars]
    · by_cases hn : (add r ep).1.block = none
      · rw [if_pos (h2.mpr (Or.inr hn)), if_neg hw]
        rw [addVars_none alloc env hn] at i1
        rw [i1] at i2 ⊢
        exact ⟨h1, by simp [i2, hn]⟩
      · have hr : ¬ (add r ep).2 = true := fun hr => (h2.mp hr).elim hw hn
        rw [if_neg hr, if_neg hw]
        exact ⟨h1, h2⟩

theorem envOptAdd_adds (depth : Nat) (r : Reply) (ep : CString) :
    Adds alloc env (envOptAdd alloc env depth r ep) r (expand env depth ep) := by
  induction depth generalizing r ep with
  | zero =>
    unfold envOptAdd expand Adds
    by_cases hb : r.block = none
    · rw [if_pos hb]
      exact ⟨(addVars_none alloc env hb _).symm, by simp [hb]⟩
    · rw [if_neg hb]
      by_cases he : ep.1 = []
      · simp [he, addVars, hb]
      · simp [he, addVars]
  | succ depth ih =>
    unfold envOptAdd expand Adds
    by_cases hb : r.block = none
    · rw [if_pos hb]
      exact ⟨(addVars_none alloc env hb _).symm, by simp [hb]⟩
    · rw [if_neg hb]
      by_cases he : ep.1 = []
      · simp only [he, if_true]
        rw [← addAll_append]
        exact addAll_adds alloc env ih r _
      · simp [he, addVars]

/-! ## Where it all fits -/

/-- From `used` bytes written of `size`: every variable fits in the room that is there, with
    one quantum more if env_opt_add asks for it and gets it, and so does the end. -/
def Fits : Nat → Nat → List CString → Bool → Prop
  | used, size, [], whole => whole = true → used + 2 ≤ size
  | used, size, ep :: eps, whole =>
    let vp := envGetvalue env ep
    let grows := used + (vp.elim 0 strlen) + strlen ep + 6 > size
    let size' := if grows then size + OPT_REPLY_SIZE else size
    (grows → alloc (size + OPT_REPLY_SIZE) = true) ∧ used + (field ep vp).length ≤ size' ∧
      Fits (used + (field ep vp).length) size' eps whole

/-- What becomes of a reply: env_opt_end, unless env_opt_add never came back. -/
def finish (r : Reply) (whole : Bool) : Reply := if whole = true ∨ r.block = none then envOptEnd true r else r

theorem puts_outside {r : Reply} (h : r.inside = false) (l : List UInt8) : (r.puts l).inside = false := by
  have := (puts_spec r l).2.2
  simpa [h] using this

theorem addVar_outside {r : Reply} (h : r.inside = false) (ep : CString) (vp : Option CString) :
    (addVar alloc r ep vp).inside = false := by
  unfold addVar
  rcases hb : r.block with _ | size
  · exact h
  · simp only
    split
    · split
      · exact puts_outside (r := ⟨some (size + OPT_REPLY_SIZE), r.bytes, r.inside⟩) h _
      · exact h
    · exact puts_outside h _

theorem finish_outside {r : Reply} (h : r.inside = false) (eps : List CString) (whole : Bool) :
    (finish (addVars alloc env r eps) whole).inside = false := by
  induction eps generalizing r with
  | nil =>
    unfold finish envOptEnd
    simp only [true_or, if_true]
    split
    · exact puts_outside h _
    · exact h
  | cons ep eps ih => exact ih (addVar_outside alloc h ep _)

/-- Through NULL goes the end of the reply, at least. -/
theorem finish_none {r : Reply} (h : r.block = none) (eps : List CString) (whole : Bool) :
    (finish (addVars alloc env r eps) whole).inside = false := by
  rw [addVars_none alloc env h, finish, if_pos (Or.inr h), envOptEnd, if_pos (Or.inl rfl)]
  have := (puts_spec r [IAC, SE]).2.2
  simpa [h] using this

theorem finish_inside_iff {r : Reply} {size : Nat} (hb : r.block = some size) (hi : r.inside = true)
    (eps : List CString) (whole : Bool) :
    (finish (addVars alloc env r eps) whole).inside = true ↔ Fits alloc env r.bytes.length size eps whole := by
  induction eps generalizing r size with
  | nil =>
    unfold finish envOptEnd Fits
    cases whole with
    | false => simp [addVars, hb, hi]
    | true => simp [addVars, (puts_spec r [IAC, SE]).2.2, hb, hi]
  | cons ep eps ih =>
    have hne : field ep (envGetvalue env ep) ≠ [] := by simp [field]
    have hputs : ∀ (q : Reply) (n : Nat), q.block = some n → q.inside = true → q.bytes = r.bytes →
        ((finish (addVars alloc env (q.puts (field ep (envGetvalue env ep))) eps) whole).inside = true ↔
          r.bytes.length + (field ep (envGetvalue env ep)).length ≤ n ∧
            Fits alloc env (r.bytes.length + (field ep (envGetvalue env ep)).length) n eps whole) := by
      intro q n hqb hqi hqy
      obtain ⟨p1, p2, p3⟩ := puts_spec q (field ep (envGetvalue env ep))
      by_cases hfit : r.bytes.length + (field ep (envGetvalue env ep)).length ≤ n
      · have hin := p3.mpr ⟨hqi, Or.inr ⟨n, hqb, by rw [hqy]; exact hfit⟩⟩
        rw [ih (p1.trans hqb) hin, p2, hqy, List.length_append]
        simp [hfit]
      · have hout : (q.puts (field ep (envGetvalue env ep))).inside = false := by
          rw [Bool.eq_false_iff]
          intro hin
          obtain ⟨-, h | ⟨m, hm, hle⟩⟩ := p3.mp hin
          · exact hne h
          · rw [hqb] at hm
            obtain rfl := Option.some.inj hm
            rw [hqy] at hle
            exact hfit hle
        simp [finish_outside alloc env hout, hfit]
    show (finish (addVars alloc env (addVar alloc r ep (envGetvalue env ep)) eps) whole).inside = true ↔ _
    unfold addVar Fits
    simp only [hb]
    by_cases hg : r.bytes.length + ((envGetvalue env ep).elim 0 strlen) + strlen ep + 6 > size
    · by_cases ha : alloc (size + OPT_REPLY_SIZE) = true
      · simp only [hg, if_true, ha, forall_const, true_and]
        exact hputs _ _ rfl hi rfl
      · simp only [hg, if_true, ha, forall_const]
        simp [finish_none alloc env (r := ⟨none, [], r.inside⟩) rfl]
    · simp only [hg, if_false, false_implies, true_and]
      exact hputs r size hb hi rfl

/-- The reply to a SEND is written inside its buffer exactly where malloc gives that buffer
    and every variable asked for fits, as far as env_opt_add gets. -/
theorem env_opt_inside_iff (depth : Nat) (req : List UInt8) (past : UInt8) :
    (envOpt alloc env depth req past).inside = true ↔
      alloc OPT_REPLY_SIZE = true ∧
        Fits alloc env 4 OPT_REPLY_SIZE (expandAll (expand env depth) (asked req past)).1
          (expandAll (expand env depth) (asked req past)).2 := by
  obtain ⟨w, hw⟩ : ∃ w, w = expandAll (expand env depth) (asked req past) := ⟨_, rfl⟩
  obtain ⟨h1, h2⟩ := addAll_adds alloc env (envOptAdd_adds alloc env depth) (envOptStart alloc) (asked req past)
  have he : envOpt alloc env depth req past = finish (addVars alloc env (envOptStart alloc) w.1) w.2 := by
    unfold envOpt finish
    rw [hw, ← h1]
    exact if_congr h2 rfl rfl
  rw [he, ← hw]
  by_cases ha : alloc OPT_REPLY_SIZE = true
  · obtain ⟨p1, p2, p3⟩ := puts_spec ⟨some OPT_REPLY_SIZE, [], true⟩ [IAC, SB, TELOPT_NEW_ENVIRON, TELQUAL_IS]
    have hs : envOptStart alloc = _ := if_pos ha
    rw [hs, finish_inside_iff alloc env p1 (p3.mpr ⟨rfl, Or.inr ⟨_, rfl, by decide⟩⟩), p2]
    simp [ha]
  · have hs : envOptStart alloc = _ := if_neg ha
    rw [hs, finish_none alloc env rfl]
    simp [ha]

/-- Asked for one variable, not set, whose name is 126 times IAC, the client needs 257 bytes
    and has taken 256 to be enough; with no memory to be had, it ends a reply at NULL. -/
theorem escaped_name_overruns_the_reply :
    (envOpt (fun _ => true) [] 0 (ENV_USERVAR :: List.replicate 126 IAC) IAC).inside = false ∧
      (envOpt (fun _ => false) [] 0 [ENV_USERVAR, 65] IAC).inside = false := by
  decide +kernel

end Netutils.Telnet
