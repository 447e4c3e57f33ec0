/-
  Netutils.Session.Environ — the variables the client sends, set at the server.

  What env_opt_add writes for a variable is its name and value with ENV_ESC before the
  bytes that mean something in the sub-option (`plainField`), and every IAC doubled for
  the stream; telrcv takes the doubling back and suboption the ENV_ESC, so it makes one
  call for each variable, with the bytes it had (`environ_round_trip`).
-/

import Netutils.Telnet.Environ
import Netutils.Telnetd.Environ

namespace Netutils.Session

open Netutils.Arpa
open Netutils.Lib.Cells
open Netutils.Lib.Lookahead
open Netutils.Telnet (Reply addVar envOptStart envOptEnd escape field optWelldefined puts_spec)
open Netutils.Telnetd (EnvCall Var decode decode_cons environCalls environ environ_calls withEnviron telrcv Cut afterVar)
open Netutils.Wire

/-! ## The sub-option, with IAC not doubled -/

def plainEscape (s : CString) : List UInt8 :=
  s.1.flatMap fun c =>
    if c = NEW_ENV_VAR ∨ c = NEW_ENV_VALUE ∨ c = ENV_ESC ∨ c = ENV_USERVAR then [ENV_ESC, c] else [c]

def plainField (p : CString × Option CString) : List UInt8 :=
  (if optWelldefined p.1 then NEW_ENV_VAR else ENV_USERVAR) :: plainEscape p.1 ++
    match p.2 with
    | some v => NEW_ENV_VALUE :: plainEscape v
    | none => []

/-- What stands between IAC SB and IAC SE. -/
def content (ps : List (CString × Option CString)) : List UInt8 :=
  TELOPT_NEW_ENVIRON :: TELQUAL_IS :: ps.flatMap plainField

theorem doubled_append (l m : List UInt8) : doubled (l ++ m) = doubled l ++ doubled m := List.flatMap_append

theorem doubled_cons {c : UInt8} (h : c ≠ IAC) (l : List UInt8) : doubled (c :: l) = c :: doubled l := by
  simp [doubled, h]

theorem escape_eq (s : CString) : escape s = doubled (plainEscape s) := by
  unfold escape plainEscape
  induction s.1 with
  | nil => rfl
  | cons c l ih =>
    rw [List.flatMap_cons, List.flatMap_cons, doubled_append, ih]
    congr 1
    by_cases hi : c = IAC
    · subst hi
      decide
    · by_cases he : c = NEW_ENV_VAR ∨ c = NEW_ENV_VALUE ∨ c = ENV_ESC ∨ c = ENV_USERVAR
      · simp [hi, he, doubled]
      · simp [hi, he, doubled]

theorem field_eq (p : CString × Option CString) : field p.1 p.2 = doubled (plainField p) := by
  have ht : (if optWelldefined p.1 = true then NEW_ENV_VAR else ENV_USERVAR) ≠ IAC := by split <;> decide
  unfold field plainField
  rw [List.cons_append, List.cons_append, doubled_cons ht, doubled_append, escape_eq]
  rcases p.2 with _ | v
  · rfl
  · simp only
    rw [doubled_cons (by decide), escape_eq]

/-! ## The reply -/

/-- env_opt_start, env_opt_add for each variable, and env_opt_end, with all the memory they
    ask for. -/
def reply (ps : List (CString × Option CString)) : List UInt8 :=
  (envOptEnd true (ps.foldl (fun r p => addVar (fun _ => true) r p.1 p.2) (envOptStart fun _ => true))).bytes

theorem addVars_bytes {r : Reply} {size : Nat} (hb : r.block = some size) (ps : List (CString × Option CString)) :
    (ps.foldl (fun r p => addVar (fun _ => true) r p.1 p.2) r).bytes = r.bytes ++ doubled (ps.flatMap plainField) := by
  induction ps generalizing r size with
  | nil => simp [doubled]
  | cons p ps ih =>
    have hadd : ∃ n, (addVar (fun _ => true) r p.1 p.2).block = some n ∧
        (addVar (fun _ => true) r p.1 p.2).bytes = r.bytes ++ field p.1 p.2 := by
      unfold addVar
      simp only [hb, if_true]
      split
      · exact ⟨_, (puts_spec _ _).1, (puts_spec _ _).2.1⟩
      · exact ⟨_, (puts_spec _ _).1.trans hb, (puts_spec _ _).2.1⟩
    obtain ⟨n, h1, h2⟩ := hadd
    rw [List.foldl_cons, ih h1, h2, field_eq, List.flatMap_cons, doubled_append, List.append_assoc]

theorem reply_eq (ps : List (CString × Option CString)) :
    reply ps = IAC :: SB :: (doubled (content ps) ++ [IAC, SE]) := by
  have hs : (envOptStart fun _ => true).bytes = [IAC, SB, TELOPT_NEW_ENVIRON, TELQUAL_IS] := rfl
  have hb : (envOptStart fun _ => true).block = some 256 := rfl
  unfold reply envOptEnd
  rw [if_pos (Or.inl rfl), (puts_spec _ _).2.1, addVars_bytes hb, hs, content, doubled_cons (by decide),
    doubled_cons (by decide)]
  rfl

/-! ## The calls -/

/-- The call for a variable. -/
def callOf (p : CString × Option CString) : EnvCall :=
  match p.2 with
  | some v => .setenv p.1 v
  | none => .unsetenv p.1

theorem decode_escape (v : Var) (s : CString) (l : List UInt8) :
    decode v (plainEscape s ++ l) = decode (s.1.foldl Var.add v) l := by
  unfold plainEscape
  induction s.1 generalizing v with
  | nil => rfl
  | cons c t ih =>
    rw [List.flatMap_cons, List.append_assoc, List.foldl_cons, ← ih]
    by_cases he : c = NEW_ENV_VAR ∨ c = NEW_ENV_VALUE ∨ c = ENV_ESC ∨ c = ENV_USERVAR
    · rw [if_pos he, List.cons_append, decode_cons]
      simp
    · rw [if_neg he, List.cons_append, decode_cons]
      simp only [not_or] at he
      simp [he.1, he.2.1, he.2.2.1, he.2.2.2]

theorem foldl_add_name (n : List UInt8) (l : List UInt8) : l.foldl Var.add ⟨n, none⟩ = ⟨n ++ l, none⟩ := by
  induction l generalizing n with
  | nil => simp
  | cons c l ih => simp [Var.add, ih]

theorem foldl_add_value (n x : List UInt8) (l : List UInt8) : l.foldl Var.add ⟨n, some x⟩ = ⟨n, some (x ++ l)⟩ := by
  induction l generalizing x with
  | nil => simp
  | cons c l ih => simp [Var.add, ih]

/-- A variable read to its end, before the ones behind it. -/
theorem decode_field (p : CString × Option CString) (l : List UInt8) :
    ∃ v : Var, v.call = callOf p ∧ decode ⟨[], none⟩ ((plainField p).tail ++ l) = decode v l := by
  unfold plainField callOf
  rw [List.cons_append, List.tail_cons, List.append_assoc, decode_escape, foldl_add_name]
  rcases p.2 with _ | x
  · exact ⟨⟨p.1.1, none⟩, by simp [Var.call], by simp⟩
  · refine ⟨⟨p.1.1, some x.1⟩, by simp [Var.call], ?_⟩
    simp only [List.cons_append, List.nil_append]
    rw [decode_cons, if_pos rfl, decode_escape, foldl_add_value, List.nil_append]

theorem decode_fields (v : Var) (ps : List (CString × Option CString)) :
    decode v (ps.flatMap plainField) = v.call :: ps.map callOf := by
  induction ps generalizing v with
  | nil => rfl
  | cons p ps ih =>
    obtain ⟨w, hw, hd⟩ := decode_field p (ps.flatMap plainField)
    have ht : ∃ c l, plainField p = c :: l ∧ c ≠ NEW_ENV_VALUE ∧ (c = NEW_ENV_VAR ∨ c = ENV_USERVAR) := by
      refine ⟨_, _, rfl, ?_⟩
      split <;> decide
    obtain ⟨c, l, hp, hc1, hc2⟩ := ht
    rw [hp, List.tail_cons] at hd
    rw [List.flatMap_cons, hp, List.cons_append, decode_cons, if_neg hc1, if_pos hc2, hd, ih, hw]
    rfl

theorem environCalls_content {ps : List (CString × Option CString)} (hne : ∀ p ∈ ps, p.1.1 ≠ []) :
    environCalls (content ps) = ps.map callOf := by
  unfold content
  rw [environCalls, if_pos (Or.inl rfl)]
  rcases ps with _ | ⟨p, ps⟩
  · rfl
  · obtain ⟨v, hv, hd⟩ := decode_field p (ps.flatMap plainField)
    obtain ⟨t, ht⟩ : ∃ t, t = (plainField p).tail ++ ps.flatMap plainField := ⟨_, rfl⟩
    have hafter : afterVar ((p :: ps).flatMap plainField) = t := by
      rw [List.flatMap_cons, ht, plainField, List.cons_append, List.cons_append, afterVar, if_pos (by split <;> decide)]
      rfl
    have hname : plainEscape p.1 ≠ [] := by
      unfold plainEscape
      have := hne p List.mem_cons_self
      rcases hl : p.1.1 with _ | ⟨c, l⟩
      · exact absurd hl this
      · rw [List.flatMap_cons]
        split <;> simp
    have htail : t ≠ [] := by
      rw [ht, plainField, List.cons_append, List.tail_cons]
      simp [hname]
    rw [hafter]
    rcases t with _ | ⟨c, l⟩
    · exact absurd rfl htail
    · rw [← ht] at hd
      simp only
      rw [hd, decode_fields, hv]
      rfl

/-! ## The whole way -/

variable {Env : Type} {H : Telnetd.Handlers Env}

/-- A sub-option that fits makes the calls that it stands for, in whatever reads it comes in. -/
theorem feed_environ (l : List UInt8) (hfit : (TELOPT_NEW_ENVIRON :: l).length ≤ 510) {s : Rcv (Env × List EnvCall)}
    (hs : s.state = .data ∨ s.state = .cr) (hsub : s.sub.mem.length = 512) {fs : List (List UInt8 × (List Event → Bool))}
    (hcut : Cut (withEnviron H) s (IAC :: SB :: (doubled (TELOPT_NEW_ENVIRON :: l) ++ [IAC, SE])) fs) :
    (feed (telrcv (withEnviron H)) s [] fs).1.env.2 = s.env.2 ++ environCalls (TELOPT_NEW_ENVIRON :: l) ∧
      (feed (telrcv (withEnviron H)) s [] fs).1.state = .data := by
  have hf := hcut.toBrings
  have hframe : s.state.frame = .data := by
    rcases hs with hs | hs
    · rw [hs]; rfl
    · rw [hs]; rfl
  have hclose := close_all (b := s.sub) (l := TELOPT_NEW_ENVIRON :: l) (by rw [hsub]; omega) SE
  obtain ⟨b, hb⟩ : ∃ b, b = ((TELOPT_NEW_ENVIRON :: l).foldl SubBuf.accum s.sub.clear).close SE := ⟨_, rfl⟩
  rw [← hb] at hclose
  obtain ⟨hptr, hfin, hlen, htake⟩ := hclose
  have hfeed := (feed_sub (Telnetd.program (withEnviron H)) hframe (show SB ∉ Telnetd.commands by decide)
    (TELOPT_NEW_ENVIRON :: l) hf).1
  rw [← hb] at hfeed
  have hopt : b.mem.getD b.ptr 0 = TELOPT_NEW_ENVIRON := by
    have : b.mem.getD 0 0 = (b.mem.take (TELOPT_NEW_ENVIRON :: l).length).getD 0 0 := by simp
    rw [hptr, this, htake]
    rfl
  have hcalls : (environ b).2 = environCalls (TELOPT_NEW_ENVIRON :: l) := by
    rw [environ_calls hptr (by rw [hfin, hlen, hsub]; omega), hfin, htake]
  have hsubopt : ((Telnetd.program (withEnviron H)).suboption s.env b).1 =
      ((H.suboption s.env.1 b).1, s.env.2 ++ environCalls (TELOPT_NEW_ENVIRON :: l)) := by
    show ((withEnviron H).suboption s.env b).1 = _
    unfold withEnviron
    simp only [hopt, if_true, hcalls]
  unfold telrcv
  rw [hfeed]
  exact ⟨congrArg Prod.snd hsubopt, rfl⟩

/-- The variables that the client sends are set and unset at the server, each with its
    bytes and in their order, in whatever reads the reply comes in. -/
theorem environ_round_trip (ps : List (CString × Option CString)) (hne : ∀ p ∈ ps, p.1.1 ≠ [])
    (hfit : (content ps).length ≤ 510) {s : Rcv (Env × List EnvCall)} (hs : s.state = .data ∨ s.state = .cr)
    (hsub : s.sub.mem.length = 512) {fs : List (List UInt8 × (List Event → Bool))}
    (hcut : Cut (withEnviron H) s (reply ps) fs) :
    (feed (telrcv (withEnviron H)) s [] fs).1.env.2 = s.env.2 ++ ps.map callOf ∧
      (feed (telrcv (withEnviron H)) s [] fs).1.state = .data := by
  rw [reply_eq] at hcut
  rw [← environCalls_content hne]
  exact feed_environ _ hfit hs hsub hcut

/-- USER set to a value of an IAC and a VALUE byte, and a variable A that is not set. -/
def pairs : List (CString × Option CString) :=
  [(cstr [85, 83, 69, 82], some (cstr [IAC, NEW_ENV_VALUE])), (cstr [65], none)]

theorem environ_round_trip_pairs :
    let s : Rcv (Unit × List EnvCall) := Telnetd.fresh ((), [])
    (feed (telrcv (withEnviron Telnetd.editing)) s [] ((reply pairs).map single)).1.env.2 =
        [] ++ [.setenv (cstr [85, 83, 69, 82]) (cstr [IAC, NEW_ENV_VALUE]), .unsetenv (cstr [65])] ∧
      (feed (telrcv (withEnviron Telnetd.editing)) s [] ((reply pairs).map single)).1.state = .data :=
  environ_round_trip (H := Telnetd.editing) pairs (by decide) (by decide) (Or.inl rfl) List.length_replicate
    (Telnetd.cut_singles _ _ _)

end Netutils.Session
