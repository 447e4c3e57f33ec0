/-
  Netutils.Telnet.Send — the client's `telsnd` (telnet/telnet.c): from the characters
  typed to the bytes for the network, with the escape characters, the local editing and
  the special characters of the terminal on the way.

  Where none of those applies, a call sends some of what was typed, byte by byte
  (`telsnd_typed`), and calls in turn send all of it (`sends_typed`).
-/

import Netutils.Arpa
import Mathlib.Data.List.Basic

namespace Netutils.Telnet

open Netutils.Arpa

/-! ## What telsnd reads and calls -/

/-- What command, setconnmode and the special characters do is theirs; each may put bytes
    to the network. -/
structure Keyboard (Env : Type) where
  rlogin : Env → UInt8
  escape : Env → UInt8
  echoc : Env → UInt8
  termEofChar : Env → UInt8
  termSuspChar : Env → UInt8
  /-- `my_want_state_is_will (TELOPT_BINARY)` -/
  binary : Env → Bool
  /-- `kludgelinemode && (globalmode & MODE_EDIT)` -/
  kludge : Env → Bool
  /-- `MODE_LOCAL_CHARS (globalmode)` -/
  localChars : Env → Bool
  crlf : Env → Bool
  command : Env → List UInt8 → Env × List UInt8
  toggleEcho : Env → Env × List UInt8
  /-- TerminalSpecialChars; `false` where it returns 0. -/
  special : Env → UInt8 → Env × List UInt8 × Bool

def vdisable : UInt8 := 0

structure Snd (Env : Type) where
  bol : Bool
  local_ : Bool
  env : Env

/-- A turn of the loop: what it puts to the network, what is left of the segment, and
    whether the loop goes on. -/
structure Sent (Env : Type) where
  next : Snd Env
  out : List UInt8
  rest : List UInt8
  goes : Bool

variable {Env : Type} (K : Keyboard Env)

def strip (e : Env) (c : UInt8) : UInt8 := if K.binary e = false then c &&& 0x7f else c

/-! ## The turn -/

/-- The bytes NETADD and NET2ADD put out for a character. -/
def encode (e : Env) (c : UInt8) : List UInt8 :=
  if K.binary e = false then
    if c = LF then (if K.localChars e then [CR, LF] else [LF])
    else if c = CR then (if K.crlf e then [CR, LF] else [CR, NUL])
    else if c = IAC then [IAC, IAC]
    else [c]
  else if c = IAC then [IAC, IAC]
  else [c]

def sendChar (s : Snd Env) (c : UInt8) (rest : List UInt8) : Sent Env :=
  ⟨{ s with bol := s.bol || (!K.binary s.env && (c = LF || c = CR)) }, encode K s.env c, rest, true⟩

/-- `if (MODE_LOCAL_CHARS (globalmode))`, and what follows it. -/
def specials (s : Snd Env) (c sc : UInt8) (rest : List UInt8) : Sent Env :=
  if K.localChars s.env then
    let r := K.special s.env sc
    if r.2.2 then
      let t := sendChar K { s with env := r.1 } c rest
      { t with out := r.2.1 ++ t.out }
    else ⟨{ s with bol := true, env := r.1 }, r.2.1, rest, false⟩
  else sendChar K s c rest

/-- `#ifdef KLUDGELINEMODE`, and what follows it: the echo character, or two of them for one. -/
def edit (s : Snd Env) (c sc : UInt8) (rest : List UInt8) : Sent Env :=
  if K.kludge s.env ∧ sc = K.echoc s.env then
    match rest with
    | x :: rest' =>
      if strip K s.env x = K.echoc s.env then specials K s c sc rest'
      else let r := K.toggleEcho s.env; ⟨{ s with env := r.1 }, r.2, rest, false⟩
    | [] => let r := K.toggleEcho s.env; ⟨{ s with env := r.1 }, r.2, rest, false⟩
  else specials K s c sc rest

/-- The end of the rlogin branch. -/
def line (s : Snd Env) (c sc : UInt8) (rest : List UInt8) : Sent Env :=
  edit K { s with bol := s.bol || sc = LF || sc = CR } c sc rest

/-- `command (0, (char *) tbp, tcc)`: the rest of the segment is the command. -/
def enter (s : Snd Env) (l : List UInt8) : Sent Env :=
  let r := K.command s.env l
  ⟨{ s with bol := true, env := r.1 }, r.2, [], false⟩

/-- One turn of the loop of telsnd, on the character `c` with `l` behind it in the segment. -/
def turn (s : Snd Env) (c : UInt8) (l : List UInt8) : Sent Env :=
  let e := s.env
  let sc := strip K e c
  if K.rlogin e ≠ vdisable then
    if s.bol then
      if sc = K.rlogin e then ⟨{ s with bol := false, local_ := true }, [], l, true⟩
      else line K { s with bol := false } c sc l
    else if s.local_ then
      if sc = 46 ∨ c = K.termEofChar e then
        let r := K.command e [99, 108, 111, 115, 101, 10]
        ⟨⟨true, false, r.1⟩, r.2, l, true⟩
      else if sc = K.termSuspChar e then
        let r := K.command e [122, 10]
        ⟨⟨true, false, r.1⟩, r.2, l, true⟩
      else if sc = K.escape e then enter K { s with local_ := false } l
      -- the rlogin character was no escape: it is sent, and `c` comes again
      else if sc ≠ K.rlogin e then line K { s with local_ := false } (K.rlogin e) (K.rlogin e) (c :: l)
      else line K { s with local_ := false } c sc l
    else line K s c sc l
  else if sc = K.escape e then
    match l with
    | x :: l' =>
      if strip K e x = K.escape e then edit K { s with bol := false } c sc l'
      else enter K s l
    | [] => enter K s l
  else edit K { s with bol := false } c sc l

/-! ## The loop -/

theorem specials_rest (s : Snd Env) (c sc : UInt8) (l : List UInt8) : (specials K s c sc l).rest = l := by
  unfold specials
  by_cases h : K.localChars s.env = true
  · cases hr : (K.special s.env sc).2.2 <;> simp [h, hr, sendChar]
  · simp [h, sendChar]

theorem specials_local (s : Snd Env) (c sc : UInt8) (l : List UInt8) :
    (specials K s c sc l).next.local_ = s.local_ := by
  unfold specials
  by_cases h : K.localChars s.env = true
  · cases hr : (K.special s.env sc).2.2 <;> simp [h, hr, sendChar]
  · simp [h, sendChar]

theorem edit_le (s : Snd Env) (c sc : UInt8) (l : List UInt8) :
    (edit K s c sc l).rest.length ≤ l.length ∧ (edit K s c sc l).next.local_ = s.local_ := by
  unfold edit
  by_cases h : K.kludge s.env = true ∧ sc = K.echoc s.env
  · rw [if_pos h]
    rcases l with _ | ⟨x, l⟩
    · exact ⟨Nat.le_refl _, rfl⟩
    · by_cases hx : strip K s.env x = K.echoc s.env
      · simp [hx, specials_rest, specials_local]
      · simp [hx]
  · rw [if_neg h, specials_rest, specials_local]
    exact ⟨Nat.le_refl _, rfl⟩

/-- A turn uses up a character, or the wait for the one after the rlogin character. -/
theorem turn_lt (s : Snd Env) (c : UInt8) (l : List UInt8) :
    2 * (turn K s c l).rest.length + (turn K s c l).next.local_.toNat <
      2 * (l.length + 1) + s.local_.toNat := by
  have he : ∀ (t : Snd Env) (c sc : UInt8) (m : List UInt8),
      2 * (edit K t c sc m).rest.length + (edit K t c sc m).next.local_.toNat ≤ 2 * m.length + t.local_.toNat := by
    intro t c sc m
    have := edit_le K t c sc m
    rw [this.2]
    omega
  have hb := Bool.toNat_le s.local_
  unfold turn
  simp only [line, enter]
  by_cases hr : K.rlogin s.env ≠ vdisable
  · rw [if_pos hr]
    by_cases h1 : s.bol = true
    · rw [if_pos h1]
      split
      · simp; omega
      · exact Nat.lt_of_le_of_lt (he _ _ _ _) (by simp)
    · rw [if_neg h1]
      by_cases h2 : s.local_ = true
      · rw [if_pos h2]
        repeat' split
        · simp; omega
        · simp; omega
        · simp only [List.length_nil, Bool.toNat_false]; omega
        · exact Nat.lt_of_le_of_lt (he _ _ _ _) (by simp [h2])
        · exact Nat.lt_of_le_of_lt (he _ _ _ _) (by simp; omega)
      · rw [if_neg h2]
        exact Nat.lt_of_le_of_lt (he _ _ _ _) (by simp)
  · rw [if_neg hr]
    by_cases h3 : strip K s.env c = K.escape s.env
    · rw [if_pos h3]
      rcases l with _ | ⟨x, l⟩
      · simp
      · simp only
        split
        · exact Nat.lt_of_le_of_lt (he _ _ _ _) (by simp only [List.length_cons]; omega)
        · simp
    · rw [if_neg h3]
      exact Nat.lt_of_le_of_lt (he _ _ _ _) (by simp)

/-- One call on a segment, while the output so far leaves room (`go`): the state, what is
    left and the output. -/
def telsnd (go : List UInt8 → Bool) (s : Snd Env) (l o : List UInt8) : Snd Env × List UInt8 × List UInt8 :=
  match l with
  | [] => (s, [], o)
  | c :: l =>
    if go o then
      let t := turn K s c l
      if t.goes then telsnd go t.next t.rest (o ++ t.out) else (t.next, t.rest, o ++ t.out)
    else (s, c :: l, o)
termination_by 2 * l.length + s.local_.toNat
decreasing_by exact turn_lt K s c l

/-- Calls in turn, each with the characters typed before it behind what the last one left. -/
def sends : Snd Env → List UInt8 → List (List UInt8 × (List UInt8 → Bool)) → Snd Env × List UInt8 × List UInt8
  | s, left, [] => (s, left, [])
  | s, left, (typed, go) :: ks =>
    let r := telsnd K go s (left ++ typed) []
    let r' := sends r.1 r.2.1 ks
    (r'.1, r'.2.1, r.2.2 ++ r'.2.2)

/-! ## Nothing but typing -/

/-- No rlogin mode, no kludge linemode and no local characters. -/
structure Typing (e : Env) : Prop where
  rlogin : K.rlogin e = vdisable
  kludge : K.kludge e = false
  localChars : K.localChars e = false

variable {K} {e : Env}

theorem turn_typed {s : Snd Env} (h : Typing K s.env) {c : UInt8} (hc : strip K s.env c ≠ K.escape s.env)
    (l : List UInt8) : ∃ bol, turn K s c l = ⟨{ s with bol := bol }, encode K s.env c, l, true⟩ :=
  ⟨_, by simp [turn, h.rlogin, hc, edit, h.kludge, specials, h.localChars, sendChar]; rfl⟩

theorem telsnd_typed (go : List UInt8 → Bool) {l : List UInt8} {s : Snd Env} {o : List UInt8}
    (h : Typing K s.env) (hc : ∀ c ∈ l, strip K s.env c ≠ K.escape s.env) :
    ∃ p, l = p ++ (telsnd K go s l o).2.1 ∧ (telsnd K go s l o).2.2 = o ++ p.flatMap (encode K s.env) ∧
      (telsnd K go s l o).1.env = s.env := by
  induction l generalizing s o with
  | nil => exact ⟨[], by simp [telsnd]⟩
  | cons c l ih =>
    by_cases hg : go o = true
    · obtain ⟨bol, ht⟩ := turn_typed h (hc c List.mem_cons_self) l
      obtain ⟨p, hp, hq, hr⟩ := ih (s := { s with bol := bol }) (o := o ++ encode K s.env c) h
        fun x hx => hc x (List.mem_cons_of_mem _ hx)
      refine ⟨c :: p, ?_, ?_, ?_⟩
      · rw [telsnd, if_pos hg, ht]
        simpa using hp
      · rw [telsnd, if_pos hg, ht]
        simpa using hq
      · rw [telsnd, if_pos hg, ht]
        simpa using hr
    · exact ⟨[], by simp [telsnd, hg]⟩

/-- Calls in turn send what they take of the characters typed, each in its encoding. -/
theorem sends_typed {ks : List (List UInt8 × (List UInt8 → Bool))} {s : Snd Env} (left : List UInt8)
    (h : Typing K s.env) (hc : ∀ c ∈ left ++ (ks.map Prod.fst).flatten, strip K s.env c ≠ K.escape s.env) :
    ∃ p, left ++ (ks.map Prod.fst).flatten = p ++ (sends K s left ks).2.1 ∧
      (sends K s left ks).2.2 = p.flatMap (encode K s.env) := by
  induction ks generalizing s left with
  | nil => exact ⟨[], by simp [sends]⟩
  | cons k ks ih =>
    obtain ⟨typed, go⟩ := k
    have hl : left ++ (((typed, go) :: ks).map Prod.fst).flatten = (left ++ typed) ++ (ks.map Prod.fst).flatten := by
      simp
    rw [hl] at hc ⊢
    obtain ⟨p, hp, hq, hr⟩ := telsnd_typed go (o := []) h fun c hm => hc c (List.mem_append_left _ hm)
    have hmem : ∀ c ∈ (telsnd K go s (left ++ typed) []).2.1 ++ (ks.map Prod.fst).flatten,
        strip K s.env c ≠ K.escape s.env := by
      intro c hm
      apply hc
      rw [hp, List.append_assoc]
      exact List.mem_append_right _ hm
    obtain ⟨p', hp', hq'⟩ := ih (s := (telsnd K go s (left ++ typed) []).1)
      (telsnd K go s (left ++ typed) []).2.1 (by rw [hr]; exact h) (by rw [hr]; exact hmem)
    refine ⟨p ++ p', ?_, ?_⟩
    · calc (left ++ typed) ++ (ks.map Prod.fst).flatten
          = (p ++ (telsnd K go s (left ++ typed) []).2.1) ++ (ks.map Prod.fst).flatten := by rw [← hp]
        _ = p ++ (p' ++ (sends K s left ((typed, go) :: ks)).2.1) := by rw [List.append_assoc, hp']; rfl
        _ = (p ++ p') ++ (sends K s left ((typed, go) :: ks)).2.1 := by rw [List.append_assoc]
    · simp only [sends]
      rw [hq', hq, hr, List.nil_append, List.flatMap_append]

/-- With room for it, one call sends all that was typed. -/
theorem telsnd_room {go : List UInt8 → Bool} (hg : ∀ o, go o = true) {l : List UInt8} {s : Snd Env} {o : List UInt8}
    (h : Typing K s.env) (hc : ∀ c ∈ l, strip K s.env c ≠ K.escape s.env) :
    (telsnd K go s l o).2 = ([], o ++ l.flatMap (encode K s.env)) := by
  induction l generalizing s o with
  | nil => simp [telsnd]
  | cons c l ih =>
    obtain ⟨bol, ht⟩ := turn_typed h (hc c List.mem_cons_self) l
    rw [telsnd, if_pos (hg o), ht]
    simpa using ih (s := { s with bol := bol }) (o := o ++ encode K s.env c) h fun x hx => hc x (List.mem_cons_of_mem _ hx)

end Netutils.Telnet
