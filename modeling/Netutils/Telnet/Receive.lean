/-
  Netutils.Telnet.Receive — the client's `telrcv` (telnet/telnet.c), which sees the ring's
  input as contiguous segments, and on which streams its result depends on where they end.

  A CR with a byte behind it in its segment is resolved at once; the last byte of a
  segment goes through TS_CR. The two part on CR LF while the peer does not echo, and on
  CR NUL while crmod is on (`segments_agree_iff`).
-/

import Netutils.Wire.Receiver

namespace Netutils.Telnet

open Netutils.Arpa
open Netutils.Lib.Lookahead
open Netutils.Wire

/-! ## The receiver -/

structure Handlers (Env : Type) extends Acts Env where
  /-- `my_want_state_is_do (TELOPT_ECHO)` -/
  echo : Env → Bool
  /-- `my_want_state_is_do (TELOPT_BINARY)` -/
  binary : Env → Bool
  crmod : Env → Bool
  /-- `SYNCHing || flushout` -/
  discards : Env → Bool

def commands : List UInt8 := [DM]

variable {Env : Type}

/-- TTYADD -/
def ttyadd (H : Handlers Env) (e : Env) (c : UInt8) : List Event :=
  if H.discards e then [] else [.out c]

/-- `case TS_CR` and `case TS_DATA`; `nc` is the byte behind `c`, if the segment has one. -/
def text (H : Handlers Env) (e : Env) (cr : Bool) (c : UInt8) (nc : Option UInt8) : Text :=
  -- Ignore \0 after CR
  if cr ∧ c = NUL then ⟨.data, [], false⟩
  else if cr ∧ c = LF ∧ H.echo e = false ∧ H.crmod e = false then ⟨.data, ttyadd H e c, false⟩
  else if c = IAC then ⟨.iac, [], false⟩
  else if c = CR ∧ H.binary e = false then
    match nc with
    | some x =>
      -- a "true" CR
      if x = NUL then ⟨.data, ttyadd H e CR, true⟩
      else if H.echo e = false ∧ x = LF then ⟨.data, ttyadd H e LF, true⟩
      else ⟨.data, ttyadd H e CR ++ (if H.crmod e then ttyadd H e LF else []), false⟩
    | none => ⟨.cr, ttyadd H e CR ++ (if H.crmod e then ttyadd H e LF else []), false⟩
  else ⟨.data, ttyadd H e c, false⟩

theorem text_iac (H : Handlers Env) (e : Env) (cr : Bool) (nc : Option UInt8) :
    text H e cr IAC nc = ⟨.iac, [], false⟩ := by
  simp [text]

theorem text_data (H : Handlers Env) (e : Env) (cr : Bool) (c : UInt8) (nc : Option UInt8) (h : c ≠ IAC) :
    (text H e cr c nc).state.frame = .data := by
  unfold text
  simp only [h, if_false]
  repeat' split
  all_goals rfl

def program (H : Handlers Env) : Program Env where
  toActs := H.toActs
  commands := commands
  add := ttyadd H
  text := text H
  text_iac := text_iac H
  text_data := text_data H

/-- One turn of the loop of `telrcv`, with decryption off. -/
def telrcv (H : Handlers Env) : Decoder (Rcv Env) UInt8 Event := receive (program H)

/-! ## Where the cut shows -/

variable (H : Handlers Env)

/-- A CR of the data that is put out, with BINARY off, and behind it a byte of which
    TS_CR makes something else than the look ahead. -/
def Unresolved (k : Ctl Env) (c x : UInt8) : Prop :=
  k.frame = .data ∧ c = CR ∧ H.binary k.env = false ∧ H.discards k.env = false ∧
    (x = NUL ∧ H.crmod k.env = true ∨ x = LF ∧ H.echo k.env = false)

theorem telrcv_data {s : Rcv Env} (hs : s.state.frame = .data) :
    ∃ cr, ∀ c nc, telrcv H s c nc =
      ⟨{ s with state := (text H s.env cr c nc).state }, (text H s.env cr c nc).out, (text H s.env cr c nc).took⟩ := by
  obtain ⟨cr, -, h⟩ := receive_data (program H) hs
  exact ⟨cr, h⟩

theorem text_cr_none {e : Env} (hb : H.binary e = false) (cr : Bool) :
    text H e cr CR none = ⟨.cr, ttyadd H e CR ++ (if H.crmod e then ttyadd H e LF else []), false⟩ := by
  simp [text, hb]

theorem text_cr_nul {e : Env} (hb : H.binary e = false) (cr : Bool) :
    text H e cr CR (some NUL) = ⟨.data, ttyadd H e CR, true⟩ := by
  simp [text, hb]

theorem text_cr_lf {e : Env} (hb : H.binary e = false) (he : H.echo e = false) (cr : Bool) :
    text H e cr CR (some LF) = ⟨.data, ttyadd H e LF, true⟩ := by
  simp [text, hb, he]

theorem text_cr_some {e : Env} (hb : H.binary e = false) (cr : Bool) {x : UInt8} (h0 : x ≠ NUL)
    (hl : ¬ (H.echo e = false ∧ x = LF)) :
    text H e cr CR (some x) =
      ⟨.data, ttyadd H e CR ++ (if H.crmod e then ttyadd H e LF else []), false⟩ := by
  simp [text, hb, h0, hl]

/-- A CR that ends its segment, and the byte behind it in the next. -/
theorem plain_cr {s : Rcv Env} (hf : s.state.frame = .data) (hb : H.binary s.env = false) (x : UInt8) :
    plain (telrcv H) s [CR, x] =
      ({ s with state := (text H s.env true x none).state },
        ttyadd H s.env CR ++ (if H.crmod s.env then ttyadd H s.env LF else []) ++ (text H s.env true x none).out) := by
  obtain ⟨cr, hd⟩ := telrcv_data H hf
  rw [plain_cons, hd, text_cr_none H hb, plain_cons]
  simp [telrcv, receive, gottext, program]

theorem telrcv_parts {s : Rcv Env} {c x : UInt8} (h : Unresolved H s.ctl c x) :
    Parts Event.byte (telrcv H) s c x := by
  obtain ⟨hf, rfl, hb, hq, hx⟩ := h
  obtain ⟨cr, hd⟩ := telrcv_data H hf
  have hp := plain_cr H hf hb x
  simp only [Rcv.ctl] at hb hq hx
  rcases hx with ⟨rfl, hm⟩ | ⟨rfl, he⟩
  · have ht : text H s.env true NUL none = ⟨.data, [], false⟩ := by simp [text]
    rw [ht] at hp
    constructor
    · rw [hd, text_cr_nul H hb]
    · rw [hd, text_cr_nul H hb, hp]
    · rw [hd, text_cr_nul H hb, hp]
      simp [ttyadd, hq, hm, Event.byte]
  · have ht : text H s.env true LF none = ⟨.data, [.out LF], false⟩ := by
      simp [text, ttyadd, hq]
    rw [ht] at hp
    constructor
    · rw [hd, text_cr_lf H hb he]
    · rw [hd, text_cr_lf H hb he, hp]
    · rw [hd, text_cr_lf H hb he, hp]
      cases hm : H.crmod s.env <;> simp [ttyadd, hq, Event.byte]

theorem telrcv_agrees {s : Rcv Env} {c x : UInt8} (h : ¬ Unresolved H s.ctl c x) : Agrees (telrcv H) s c x := by
  by_cases hf : s.state.frame = .data
  swap
  · exact receive_agrees (program H) hf c x
  obtain ⟨cr, hd⟩ := telrcv_data H hf
  unfold Agrees
  by_cases hc : c = CR ∧ H.binary s.env = false
  · obtain ⟨rfl, hb⟩ := hc
    have hp := plain_cr H hf hb x
    by_cases h0 : x = NUL
    · subst h0
      have hn : H.discards s.env = true ∨ H.crmod s.env = false := by
        by_contra hn
        simp only [not_or, Bool.not_eq_true, Bool.not_eq_false] at hn
        exact h ⟨hf, rfl, hb, hn.1, Or.inl ⟨rfl, hn.2⟩⟩
      have ht : text H s.env true NUL none = ⟨.data, [], false⟩ := by simp [text]
      rw [hd, text_cr_nul H hb, if_pos rfl, hp, ht]
      rcases hn with hn | hn <;> simp [ttyadd, hn]
    · by_cases hl : H.echo s.env = false ∧ x = LF
      · obtain ⟨he, rfl⟩ := hl
        have hn : H.discards s.env = true := by
          by_contra hn
          exact h ⟨hf, rfl, hb, Bool.not_eq_true _ ▸ hn, Or.inr ⟨rfl, he⟩⟩
        have ht : text H s.env true LF none = ⟨.data, [], false⟩ := by
          simp [text, ttyadd, hn]
        rw [hd, text_cr_lf H hb he, if_pos rfl, hp, ht]
        simp [ttyadd, hn]
      · rw [hd, hd, text_cr_some H hb cr h0 hl, text_cr_none H hb, if_neg (by simp)]
        -- the states differ, but treat every byte other than NUL and LF alike
        refine ⟨rfl, ?_⟩
        intro p
        have ht : text H s.env false x p = text H s.env true x p := by
          have hl' : ¬ (x = LF ∧ H.echo s.env = false ∧ H.crmod s.env = false) := fun e => hl ⟨e.2.1, e.1⟩
          simp [text, h0, hl']
        simp [telrcv, receive, gottext, program, ht]
  · have ht : text H s.env cr c (some x) = text H s.env cr c none ∧ (text H s.env cr c none).took = false := by
      unfold text
      simp only [hc, if_false]
      repeat' split
      all_goals simp
    rw [hd, hd, ht.1, if_neg (by simp [ht.2])]
    exact ⟨rfl, fun _ => rfl⟩

/-! ## Any cut, the same bytes -/

/-- What telrcv puts out and calls over all the segments. -/
def received (s : Rcv Env) (fs : List (List UInt8 × (List Event → Bool))) : List Event :=
  (feed (telrcv H) s [] fs).2.2

/-- What the client makes of a stream is the same for all divisions into segments exactly
    where no CR of it is followed by a byte that TS_CR resolves otherwise. -/
theorem segments_agree_iff (s : Rcv Env) (stream : List UInt8) :
    (∀ fs gs, Brings (telrcv H) s stream fs → Brings (telrcv H) s stream gs →
      delivered (received H s fs) = delivered (received H s gs) ∧
        calls (received H s fs) = calls (received H s gs)) ↔
    ∀ pre c x post, stream = pre ++ c :: x :: post →
      ¬ Unresolved H (scan H.toActs commands s.ctl pre) c x := by
  refine same_for_cuts_iff (program H) (fun t c x => telrcv_agrees H) (fun t c x => telrcv_parts H)
    (fun fs hf => hf) (brings_singles s stream) ?_
  intro pre c x post hl hp
  rw [hl]
  exact brings_together Event.byte post hp

/-- ECHO and BINARY refused, crmod as given, nothing to discard, and nothing received
    changes them. -/
def quiet (crmod : Bool) : Handlers Unit where
  command := fun e _ => (e, [])
  option := fun e _ _ => (e, [])
  suboption := fun e b => (e, b, [])
  echo := fun _ => false
  binary := fun _ => false
  crmod := fun _ => crmod
  discards := fun _ => false

/-- telrcv before anything has come in. -/
def fresh {Env : Type} (e : Env) : Rcv Env := ⟨.data, ⟨List.replicate 256 0, 0, 0⟩, e⟩

/-- CR LF in one segment is LF, and CR LF in two; with crmod on, CR NUL is CR or CR LF. -/
theorem cr_depends_on_the_cut :
    (∃ fs gs, Brings (telrcv (quiet false)) (fresh ()) [CR, LF] fs ∧ Brings (telrcv (quiet false)) (fresh ()) [CR, LF] gs ∧
      delivered (received (quiet false) (fresh ()) fs) = [LF] ∧
      delivered (received (quiet false) (fresh ()) gs) = [CR, LF]) ∧
    ∃ fs gs, Brings (telrcv (quiet true)) (fresh ()) [CR, NUL] fs ∧ Brings (telrcv (quiet true)) (fresh ()) [CR, NUL] gs ∧
      delivered (received (quiet true) (fresh ()) fs) = [CR] ∧
      delivered (received (quiet true) (fresh ()) gs) = [CR, LF] :=
  ⟨⟨[([CR, LF], fun _ => true)], [CR, LF].map single, ⟨rfl, rfl⟩, brings_singles _ _, rfl, rfl⟩,
    ⟨[([CR, NUL], fun _ => true)], [CR, NUL].map single, ⟨rfl, rfl⟩, brings_singles _ _, rfl, rfl⟩⟩

end Netutils.Telnet
