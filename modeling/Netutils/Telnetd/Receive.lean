/-
  Netutils.Telnetd.Receive — telnetd's `telrcv` (telnetd/state.c), with its look at the
  byte behind a CR (`net_get_char (1)`), and on which streams its result depends on the
  reads that bring the stream in.

  Where linemode is on and BINARY off, CR LF (and CR NUL, if the tty maps CR to NL) is
  the local end of line LF only if both bytes are at hand; a CR that ends a read goes to
  the pty as it is, and the LF behind it is dropped (`reads_agree_iff`).
-/

import Netutils.Wire.Receiver

namespace Netutils.Telnetd

open Netutils.Arpa
open Netutils.Lib.Lookahead
open Netutils.Wire

/-! ## The receiver -/

structure Handlers (Env : Type) extends Acts Env where
  linemode : Env → Bool
  /-- `his_state_is_will (TELOPT_BINARY)` -/
  binary : Env → Bool
  ttyIscrnl : Env → Bool

/-- send_intr, send_brk, recv_ayt, the abort of output, erase character and line, the data
    mark, send_eof, send_susp. -/
def commands : List UInt8 := [IP, BREAK, AYT, AO, EC, EL, DM, EOR, xEOF, SUSP, ABORT]

variable {Env : Type}

/-- `case TS_CR` and `case TS_DATA`; `nc` is the byte behind `c`, if the read has one. -/
def text (H : Handlers Env) (e : Env) (cr : Bool) (c : UInt8) (nc : Option UInt8) : Text :=
  -- Strip off \n or \0 after a \r
  if cr ∧ (c = NUL ∨ c = LF) then ⟨.data, [], false⟩
  else if c = IAC then ⟨.iac, [], false⟩
  else if c = CR ∧ H.binary e = false then
    if H.linemode e ∧ (nc = some LF ∨ nc = some NUL ∧ H.ttyIscrnl e) then ⟨.data, [.out LF], true⟩
    else ⟨.cr, [.out c], false⟩
  else ⟨.data, [.out c], false⟩

theorem text_iac (H : Handlers Env) (e : Env) (cr : Bool) (nc : Option UInt8) :
    text H e cr IAC nc = ⟨.iac, [], false⟩ := by
  simp [text]

theorem text_data (H : Handlers Env) (e : Env) (cr : Bool) (c : UInt8) (nc : Option UInt8) (h : c ≠ IAC) :
    (text H e cr c nc).state.frame = .data := by
  unfold text
  simp only [h, if_false]
  repeat' split
  all_goals rfl

def program (H : Handlers Env) : Program Env where
  toActs := H.toActs
  commands := commands
  add := fun _ c => [.out c]
  text := text H
  text_iac := text_iac H
  text_data := text_data H

/-- One turn of the loop of `telrcv`, with decryption off. -/
def telrcv (H : Handlers Env) : Decoder (Rcv Env) UInt8 Event := receive (program H)

/-! ## Where the cut shows -/

variable (H : Handlers Env)

/-- A CR of the data, in linemode with BINARY off, and behind it what makes the two an end
    of line. -/
def EndOfLine (k : Ctl Env) (c x : UInt8) : Prop :=
  k.frame = .data ∧ c = CR ∧ H.binary k.env = false ∧ H.linemode k.env = true ∧
    (x = LF ∨ x = NUL ∧ H.ttyIscrnl k.env = true)

theorem text_cr {e : Env} (hb : H.binary e = false) (cr : Bool) (nc : Option UInt8) :
    text H e cr CR nc =
      if H.linemode e ∧ (nc = some LF ∨ nc = some NUL ∧ H.ttyIscrnl e) then ⟨.data, [.out LF], true⟩
      else ⟨.cr, [.out CR], false⟩ := by
  simp [text, hb]

theorem telrcv_data {s : Rcv Env} (hs : s.state.frame = .data) :
    ∃ cr, ∀ c nc, telrcv H s c nc =
      ⟨{ s with state := (text H s.env cr c nc).state }, (text H s.env cr c nc).out, (text H s.env cr c nc).took⟩ := by
  obtain ⟨cr, -, h⟩ := receive_data (program H) hs
  exact ⟨cr, h⟩

/-- Both bytes at hand, an end of line is LF; one at a time, it is CR. -/
theorem telrcv_parts {s : Rcv Env} {c x : UInt8} (h : EndOfLine H s.ctl c x) :
    Parts Event.byte (telrcv H) s c x := by
  obtain ⟨hf, rfl, hb, hl, hx⟩ := h
  obtain ⟨cr, hd⟩ := telrcv_data H hf
  simp only [Rcv.ctl] at hb hl hx
  have h1 : telrcv H s CR (some x) = ⟨{ s with state := .data }, [.out LF], true⟩ := by
    have hn : some x = some LF ∨ some x = some NUL ∧ H.ttyIscrnl s.env = true := by simpa using hx
    simp only [hd, text_cr H hb, hl, hn, and_self, if_true]
  have h2 : telrcv H s CR none = ⟨{ s with state := .cr }, [.out CR], false⟩ := by
    simp [hd, text_cr H hb]
  have h3 : telrcv H { s with state := .cr } x none = ⟨{ s with state := .data }, [], false⟩ := by
    have hx' : x = NUL ∨ x = LF := by rcases hx with rfl | ⟨rfl, -⟩ <;> simp
    simp [telrcv, receive, gottext, program, text, hx']
  constructor
  · rw [h1]
  · rw [h1, plain_cons, h2, plain_cons, h3]
    rfl
  · rw [h1, plain_cons, h2, plain_cons, h3]
    simp [Event.byte]

/-- Elsewhere the byte behind is not looked at. -/
theorem telrcv_agrees {s : Rcv Env} {c x : UInt8} (h : ¬ EndOfLine H s.ctl c x) : Agrees (telrcv H) s c x := by
  by_cases hf : s.state.frame = .data
  · obtain ⟨cr, hd⟩ := telrcv_data H hf
    have ht : text H s.env cr c (some x) = text H s.env cr c none ∧ (text H s.env cr c none).took = false := by
      by_cases hc : c = CR ∧ H.binary s.env = false
      · obtain ⟨rfl, hb⟩ := hc
        have hn : ¬ (H.linemode s.env = true ∧ (x = LF ∨ x = NUL ∧ H.ttyIscrnl s.env = true)) :=
          fun hx => h ⟨hf, rfl, hb, hx.1, hx.2⟩
        simp [text_cr H hb, hn]
      · unfold text
        simp only [hc, if_false]
        repeat' split
        all_goals simp
    have hs : telrcv H s c (some x) = telrcv H s c none ∧ (telrcv H s c none).took = false := by
      simp [hd, ht]
    unfold Agrees
    rw [hs.1, if_neg (by simp [hs.2])]
    exact ⟨rfl, fun _ => rfl⟩
  · exact receive_agrees (program H) hf c x

/-! ## Any cut, the same bytes -/

/-- Reads that bring the stream in, each after the last has been used up, and the calls of
    telrcv between them, until nothing is left. -/
structure Cut (s : Rcv Env) (stream : List UInt8) (fs : List (List UInt8 × (List Event → Bool))) : Prop
    extends Brings (telrcv H) s stream fs where
  drained : DrainFirst (telrcv H) s [] fs

/-- What telrcv puts out and calls over all the reads. -/
def received (s : Rcv Env) (fs : List (List UInt8 × (List Event → Bool))) : List Event :=
  (feed (telrcv H) s [] fs).2.2

theorem cut_singles (s : Rcv Env) (stream : List UInt8) : Cut H s stream (stream.map single) :=
  ⟨brings_singles s stream, drainFirst_singles s stream⟩

/-- What telnetd makes of a stream is the same for all cuts exactly where the stream has
    no end of line that one cut can leave whole and another divide. -/
theorem reads_agree_iff (s : Rcv Env) (stream : List UInt8) :
    (∀ fs gs, Cut H s stream fs → Cut H s stream gs →
      delivered (received H s fs) = delivered (received H s gs) ∧
        calls (received H s fs) = calls (received H s gs)) ↔
    ∀ pre c x post, stream = pre ++ c :: x :: post →
      ¬ EndOfLine H (scan H.toActs commands s.ctl pre) c x := by
  refine same_for_cuts_iff (program H) (fun t c x => telrcv_agrees H) (fun t c x => telrcv_parts H)
    (fun fs hf => Cut.toBrings hf) (cut_singles H s stream) ?_
  intro pre c x post hl hp
  rw [hl]
  exact ⟨brings_together Event.byte post hp, drainFirst_together post hp.took⟩

/-- Linemode on, BINARY off, and nothing received changes them. -/
def editing : Handlers Unit where
  command := fun e _ => (e, [])
  option := fun e _ _ => (e, [])
  suboption := fun e b => (e, b, [])
  linemode := fun _ => true
  binary := fun _ => false
  ttyIscrnl := fun _ => false

/-- telrcv before anything has come in. -/
def fresh {Env : Type} (e : Env) : Rcv Env := ⟨.data, ⟨List.replicate 512 0, 0, 0⟩, e⟩

/-- CR LF in one read is LF at the pty; in two it is CR. -/
theorem cr_lf_depends_on_the_cut :
    ∃ fs gs, Cut editing (fresh ()) [CR, LF] fs ∧ Cut editing (fresh ()) [CR, LF] gs ∧
      delivered (received editing (fresh ()) fs) = [LF] ∧ delivered (received editing (fresh ()) gs) = [CR] :=
  ⟨[([CR, LF], fun _ => true)], [CR, LF].map single,
    ⟨⟨rfl, rfl⟩, Or.inl rfl, trivial⟩, cut_singles editing (fresh ()) _, rfl, rfl⟩

end Netutils.Telnetd
