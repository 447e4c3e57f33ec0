/-
  Netutils.Telnetd.Output — telnetd's network output buffer: net_output_data,
  net_output_datalen, net_output_byte in the loop of telnetd_run, and netflush
  (telnetd/utility.c), with a network that takes what it likes of each write.

  The bytes taken and the bytes waiting are together all that was put in (`stream`);
  netflush does not change that. net_output_datalen appends its message or nothing;
  net_output_data takes the room below BUFSIZ for its message without checking, so it
  keeps the message whole only where that suffices (`Fits`). In a run where it always
  does, the buffer is never overrun and the network sees whole messages (`run_whole`).
-/

import Mathlib.Algebra.Group.Nat.Defs
import Netutils.Arpa
import Netutils.Lib.Cells
import Netutils.Lib.Lookahead
import Netutils.Lib.Transition

namespace Netutils.Telnetd

open Netutils.Arpa
open Netutils.Lib.Cells
open Netutils.Lib.Lookahead
open Netutils.Lib.Transition

/-! ## The reads of telnetd_run

  The pty is in packet mode, so that each read begins with a control byte. -/

def TIOCPKT_DATA : UInt8 := 0x00
def TIOCPKT_FLUSHWRITE : UInt8 := 0x02
def TIOCPKT_NOSTOP : UInt8 := 0x10
def TIOCPKT_DOSTOP : UInt8 := 0x20
def TIOCPKT_IOCTL : UInt8 := 0x40

/-- What a read gives of the data that is there. -/
def packet (data : List UInt8) : List UInt8 := TIOCPKT_DATA :: data

/-- `pty_get_char (1)` only looks at the control byte; how many bytes the branches behind it take.
    `lflow` is `his_state_is_will (TELOPT_LFLOW)`. -/
def ptyTaken (lflow : Bool) (c : UInt8) : Nat :=
  (if c &&& TIOCPKT_IOCTL ≠ 0 then 1 else 0) + (if c &&& TIOCPKT_FLUSHWRITE ≠ 0 then 1 else 0) +
    if lflow = true ∧ c &&& (TIOCPKT_NOSTOP ||| TIOCPKT_DOSTOP) ≠ 0 then 1 else 0

/-- What the read leaves for the output loop. -/
def ptyInput (lflow : Bool) (read : List UInt8) : List UInt8 := read.drop (ptyTaken lflow (read.headD 0))

/-- No branch is for data. -/
theorem ptyInput_packet (lflow : Bool) (data : List UInt8) : ptyInput lflow (packet data) = packet data := by
  have hnone : ptyTaken lflow TIOCPKT_DATA = 0 := by cases lflow <;> decide
  rw [ptyInput, packet, List.headD_cons, hnone, List.drop_zero]

/-! ## The output loop of telnetd_run -/

/-- One turn of `while (pty_input_level () > 0)`; `binary` is `my_state_is_will
    (TELOPT_BINARY)`, and `nc` is `pty_get_char (1)` if the read has a byte behind `c`. -/
def outputLoop (binary : Bool) : Decoder Unit UInt8 UInt8 := fun s c nc =>
  let iac := if c = IAC then [c, c] else [c]
  if c = CR ∧ binary = false then
    if nc = some LF then ⟨s, iac ++ [LF], true⟩ else ⟨s, iac ++ [NUL], false⟩
  else ⟨s, iac, false⟩

/-- It puts out at most the two bytes that net_buffer_is_full leaves room for. -/
theorem outputLoop_length (binary : Bool) (c : UInt8) (nc : Option UInt8) :
    (outputLoop binary () c nc).out.length ≤ 2 := by
  unfold outputLoop
  by_cases hc : c = CR ∧ binary = false
  · have hi : c ≠ IAC := by rw [hc.1]; decide
    rw [if_pos hc, if_neg hi]
    split <;> simp
  · rw [if_neg hc]
    by_cases hi : c = IAC <;> simp [hi]

/-! ## The buffer -/

def BUFSIZ : Nat := 8192
def NETSLOP : Nat := 64

/-- The range of size_t. -/
def sizeRange : Nat := 2 ^ 64

/-- netobuf, with nbackp, nfrontp and neturg as offsets into it. -/
structure Netobuf where
  mem : Nat → UInt8
  nbackp : Nat
  nfrontp : Nat
  neturg : Option Nat
  not42 : Bool
  /-- One past the last cell that was ever written. -/
  top : Nat
  /-- The bytes that the network has taken. -/
  sent : List UInt8

/-- io_setup -/
def Netobuf.init (not42 : Bool) : Netobuf := ⟨fun _ => 0, 0, 0, none, not42, 0, []⟩

namespace Netobuf

/-- The bytes that wait in the buffer. -/
def pending (s : Netobuf) : List UInt8 := slice s.mem s.nbackp s.nfrontp

/-- All that was put in. -/
def stream (s : Netobuf) : List UInt8 := s.sent ++ s.pending

def write (s : Netobuf) (l : List UInt8) : Netobuf :=
  { s with mem := store s.mem s.nfrontp l, top := if l = [] then s.top else max s.top (s.nfrontp + l.length) }

/-- `BUFSIZ - (nfrontp - netobuf)`, as the size_t it is kept in. -/
def remaining (s : Netobuf) : Nat := (BUFSIZ + sizeRange - s.nfrontp) % sizeRange

def netBufferIsFull (s : Netobuf) : Prop := (BUFSIZ : Int) - s.nfrontp < 2

instance (s : Netobuf) : Decidable s.netBufferIsFull := inferInstanceAs (Decidable ((_ : Int) < _))

/-- How many bytes netflush offers the network: all that wait, or those before the urgent
    one, or that one. -/
def offered (s : Netobuf) : Nat :=
  match s.neturg with
  | some u =>
    if s.not42 then (if u - s.nbackp > 1 then u - s.nbackp - 1 else u - s.nbackp)
    else s.nfrontp - s.nbackp
  | none => s.nfrontp - s.nbackp

/-- netflush from `nbackp += n` on. -/
def flushed (s : Netobuf) (n : Nat) : Netobuf :=
  let back := s.nbackp + n
  let s' := { s with sent := s.sent ++ slice s.mem s.nbackp back, neturg := s.neturg.filter (back < ·) }
  if back = s.nfrontp then { s' with nbackp := 0, nfrontp := 0 } else { s' with nbackp := back }

/-- netflush, where the network takes up to `n` of the bytes offered, or none of them
    (`none`: EWOULDBLOCK or EINTR). Any other error ends the program. -/
def netflush (s : Netobuf) (taken : Option Nat) : Netobuf :=
  if s.nfrontp - s.nbackp > 0 then
    match taken with
    | none => s
    | some n => s.flushed (min n s.offered)
  else s.flushed 0

/-- net_output_data, for a format of length `format` that vsnprintf makes `msg` of. -/
def netOutputData (s : Netobuf) (format : Nat) (msg : List UInt8) (taken : Option Nat) : Netobuf :=
  let s := if format > s.remaining ∨ BUFSIZ / 4 > s.remaining then s.netflush taken else s
  -- vsnprintf: a NUL behind what fits
  let s' := if s.remaining = 0 then s else s.write (msg.take (s.remaining - 1) ++ [NUL])
  let max := (s.remaining + sizeRange - 1) % sizeRange
  { s' with nfrontp := s.nfrontp + (if msg.length < max then msg.length else max) }

def netOutputDatalen (s : Netobuf) (msg : List UInt8) (taken : Option Nat) : Netobuf :=
  let s := if s.remaining < msg.length then s.netflush taken else s
  if s.remaining < msg.length then s
  else { s.write msg with nfrontp := s.nfrontp + msg.length }

/-- net_output_byte, for each of the bytes. -/
def netOutputBytes (s : Netobuf) (l : List UInt8) : Netobuf :=
  { s.write l with nfrontp := s.nfrontp + l.length }

/-- set_neturg -/
def setNeturg (s : Netobuf) : Netobuf := { s with neturg := some (s.nfrontp - 1) }

end Netobuf

/-! ## Runs -/

inductive Call where
  | data (format : Nat) (msg : List UInt8) (taken : Option Nat)
  | datalen (msg : List UInt8) (taken : Option Nat)
  /-- A turn of the loop of telnetd_run. -/
  | turn (binary : Bool) (c : UInt8) (nc : Option UInt8)
  | flush (taken : Option Nat)
  | urgent

/-- What the call is to append. -/
def Call.message : Call → List UInt8
  | .data _ msg _ => msg
  | .datalen msg _ => msg
  | .turn binary c nc => (outputLoop binary () c nc).out
  | .flush _ => []
  | .urgent => []

def Call.step (a : Call) (s : Netobuf) : Option Netobuf :=
  match a with
  | .data format msg taken => some (s.netOutputData format msg taken)
  | .datalen msg taken => some (s.netOutputDatalen msg taken)
  | .turn binary c nc => some (if s.netBufferIsFull then s else s.netOutputBytes (outputLoop binary () c nc).out)
  | .flush taken => some (s.netflush taken)
  -- set_neturg always follows something put out
  | .urgent => if s.nbackp < s.nfrontp then some s.setNeturg else none

/-! ## What a flush does -/

namespace Netobuf

structure Inv (s : Netobuf) : Prop where
  le : s.nbackp ≤ s.nfrontp
  front : s.nfrontp ≤ BUFSIZ
  top : s.top ≤ BUFSIZ
  urg : ∀ u ∈ s.neturg, s.nbackp ≤ u ∧ u < s.nfrontp

variable {s : Netobuf}

theorem Inv.offered_le (h : Inv s) : s.offered ≤ s.nfrontp - s.nbackp := by
  unfold offered
  rcases hu : s.neturg with _ | u
  · exact Nat.le_refl _
  · have := h.urg u (by rw [hu]; rfl)
    simp only
    repeat' split
    all_goals omega

theorem Inv.remaining (h : Inv s) : s.remaining = BUFSIZ - s.nfrontp := by
  have := h.front
  unfold Netobuf.remaining
  rw [show BUFSIZ + sizeRange - s.nfrontp = (BUFSIZ - s.nfrontp) + sizeRange by omega, Nat.add_mod_right]
  exact Nat.mod_eq_of_lt (by unfold sizeRange BUFSIZ; omega)

theorem inv_flushed (h : Inv s) {n : Nat} (hn : n ≤ s.nfrontp - s.nbackp) : Inv (s.flushed n) := by
  have hle := h.le
  unfold flushed
  by_cases hd : s.nbackp + n = s.nfrontp
  · rw [if_pos hd]
    refine ⟨Nat.le_refl _, Nat.zero_le _, h.top, ?_⟩
    intro u hu
    obtain ⟨hu, hb⟩ := Option.mem_filter_iff.mp hu
    have := h.urg u hu
    simp at hb
    omega
  · rw [if_neg hd]
    refine ⟨by simp only; omega, h.front, h.top, ?_⟩
    intro u hu
    obtain ⟨hu, hb⟩ := Option.mem_filter_iff.mp hu
    have := h.urg u hu
    simp at hb
    exact ⟨by simp only; omega, this.2⟩

theorem stream_flushed (h : Inv s) {n : Nat} (hn : n ≤ s.nfrontp - s.nbackp) : (s.flushed n).stream = s.stream := by
  have hs := slice_append (m := s.mem) (Nat.le_add_right s.nbackp n) (show s.nbackp + n ≤ s.nfrontp by have := h.le; omega)
  unfold flushed stream pending
  by_cases hd : s.nbackp + n = s.nfrontp
  · rw [if_pos hd]
    simp [hd]
  · rw [if_neg hd]
    simp only
    rw [List.append_assoc, hs]

/-- A flush moves bytes from the buffer to the network, and nothing else. -/
theorem netflush_spec (h : Inv s) (taken : Option Nat) :
    Inv (s.netflush taken) ∧ (s.netflush taken).stream = s.stream := by
  unfold netflush
  by_cases hp : s.nfrontp - s.nbackp > 0
  · rw [if_pos hp]
    rcases taken with _ | n
    · exact ⟨h, rfl⟩
    · have hn : min n s.offered ≤ s.nfrontp - s.nbackp := Nat.le_trans (Nat.min_le_right _ _) h.offered_le
      exact ⟨inv_flushed h hn, stream_flushed h hn⟩
  · rw [if_neg hp]
    exact ⟨inv_flushed h (Nat.zero_le _), stream_flushed h (Nat.zero_le _)⟩

/-- The network takes all that waits. -/
def drains (s : Netobuf) : Option Nat → Bool
  | none => s.nfrontp = s.nbackp
  | some n => s.nfrontp - s.nbackp ≤ min n s.offered

theorem flushed_nfrontp (s : Netobuf) (n : Nat) :
    (s.flushed n).nfrontp = if s.nbackp + n = s.nfrontp then 0 else s.nfrontp := by
  by_cases hd : s.nbackp + n = s.nfrontp <;> simp [flushed, hd]

theorem netflush_nfrontp (h : Inv s) (taken : Option Nat) :
    (s.netflush taken).nfrontp = if s.drains taken then 0 else s.nfrontp := by
  have hle := h.le
  unfold netflush drains
  by_cases hp : s.nfrontp - s.nbackp > 0
  · rw [if_pos hp]
    rcases taken with _ | n
    · rw [if_neg (by simp; omega)]
    · have hn : min n s.offered ≤ s.nfrontp - s.nbackp := Nat.le_trans (Nat.min_le_right _ _) h.offered_le
      simp only [flushed_nfrontp, decide_eq_true_eq]
      exact if_congr (by omega) rfl rfl
  · rw [if_neg hp, flushed_nfrontp, if_pos (by omega)]
    cases taken <;> simp <;> omega

/-! ## What a write does -/

theorem stream_put (h : s.nbackp ≤ s.nfrontp) (l l' : List UInt8) :
    ({ s.write (l ++ l') with nfrontp := s.nfrontp + l.length } : Netobuf).stream = s.stream ++ l := by
  show s.sent ++ slice (store s.mem s.nfrontp (l ++ l')) s.nbackp (s.nfrontp + l.length) = _
  rw [slice_store_front l l' h, ← List.append_assoc]
  rfl

theorem inv_put (h : Inv s) (l l' : List UInt8) (hl : s.nfrontp + (l ++ l').length ≤ BUFSIZ) :
    Inv { s.write (l ++ l') with nfrontp := s.nfrontp + l.length } := by
  have hle := h.le
  have ht := h.top
  rw [List.length_append] at hl
  refine ⟨by simp only [write]; omega, by simp only; omega, ?_, ?_⟩
  · simp only [write, List.length_append]
    split <;> omega
  · intro u hu
    have := h.urg u hu
    exact ⟨this.1, by simp only; omega⟩

/-! ## The calls -/

/-- The room below BUFSIZ that net_output_data finds: behind what waits, or all of it after
    a flush that empties the buffer. -/
def room (s : Netobuf) (format : Nat) (taken : Option Nat) : Nat :=
  if (format > s.remaining ∨ BUFSIZ / 4 > s.remaining) ∧ s.drains taken then BUFSIZ else BUFSIZ - s.nfrontp

theorem netOutputData_spec (h : Inv s) {format : Nat} {msg : List UInt8} {taken : Option Nat}
    (hm : msg = [] ∨ s.room format taken ≠ 0) :
    Inv (s.netOutputData format msg taken) ∧
      (s.netOutputData format msg taken).stream = s.stream ++ msg.take (s.room format taken - 1) := by
  obtain ⟨u, hu⟩ : ∃ u, u = if format > s.remaining ∨ BUFSIZ / 4 > s.remaining then s.netflush taken else s := ⟨_, rfl⟩
  have hspec : Inv u ∧ u.stream = s.stream ∧ BUFSIZ - u.nfrontp = s.room format taken := by
    rw [hu, room]
    by_cases hf : format > s.remaining ∨ BUFSIZ / 4 > s.remaining
    · rw [if_pos hf]
      obtain ⟨h1, h2⟩ := netflush_spec h taken
      refine ⟨h1, h2, ?_⟩
      rw [netflush_nfrontp h]
      cases s.drains taken <;> simp [hf]
    · rw [if_neg hf]
      exact ⟨h, rfl, by simp [hf]⟩
  obtain ⟨hi, hs, hr⟩ := hspec
  have hfront := hi.front
  have hrem : u.remaining = s.room format taken := by rw [hi.remaining, hr]
  unfold netOutputData
  simp only
  rw [← hu, hrem]
  by_cases h0 : s.room format taken = 0
  · obtain rfl : msg = [] := by rcases hm with hm | hm; exact hm; exact absurd h0 hm
    have hlt : ([] : List UInt8).length < (s.room format taken + sizeRange - 1) % sizeRange := by
      rw [h0]; decide
    rw [if_pos h0, if_pos hlt]
    exact ⟨hi, by rw [List.take_nil, List.append_nil]; exact hs⟩
  · have hmax : (s.room format taken + sizeRange - 1) % sizeRange = s.room format taken - 1 := by
      rw [show s.room format taken + sizeRange - 1 = s.room format taken - 1 + sizeRange by omega, Nat.add_mod_right]
      exact Nat.mod_eq_of_lt (by unfold sizeRange; unfold BUFSIZ at hr; omega)
    have hlen : (if msg.length < s.room format taken - 1 then msg.length else s.room format taken - 1) =
        (msg.take (s.room format taken - 1)).length := by
      rw [List.length_take]
      split <;> omega
    rw [if_neg h0, hmax, hlen]
    refine ⟨inv_put hi _ _ ?_, by rw [stream_put hi.le, hs]⟩
    simp only [List.length_append, List.length_take, List.length_singleton]
    omega

theorem netOutputDatalen_spec (h : Inv s) (msg : List UInt8) (taken : Option Nat) :
    Inv (s.netOutputDatalen msg taken) ∧
      ∃ m, (m = [] ∨ m = msg) ∧ (s.netOutputDatalen msg taken).stream = s.stream ++ m := by
  obtain ⟨u, hu⟩ : ∃ u, u = if s.remaining < msg.length then s.netflush taken else s := ⟨_, rfl⟩
  have hspec : Inv u ∧ u.stream = s.stream := by
    rw [hu]
    split
    · exact netflush_spec h taken
    · exact ⟨h, rfl⟩
  obtain ⟨hi, hs⟩ := hspec
  have hfront := hi.front
  unfold netOutputDatalen
  simp only
  rw [← hu]
  by_cases hl : u.remaining < msg.length
  · rw [if_pos hl]
    exact ⟨hi, [], Or.inl rfl, by rw [hs, List.append_nil]⟩
  · rw [if_neg hl]
    rw [hi.remaining] at hl
    have hput := stream_put hi.le msg []
    have hinv := inv_put hi msg [] (by rw [List.append_nil]; omega)
    rw [List.append_nil] at hput hinv
    exact ⟨hinv, msg, Or.inr rfl, by rw [hput, hs]⟩

theorem turn_spec (h : Inv s) {l : List UInt8} (hl : l.length ≤ 2) :
    Inv (if s.netBufferIsFull then s else s.netOutputBytes l) ∧
      ∃ m, (m = [] ∨ m = l) ∧ (if s.netBufferIsFull then s else s.netOutputBytes l).stream = s.stream ++ m := by
  by_cases hf : s.netBufferIsFull
  · rw [if_pos hf]
    exact ⟨h, [], Or.inl rfl, (List.append_nil _).symm⟩
  · rw [if_neg hf]
    unfold netBufferIsFull at hf
    have hput := stream_put h.le l []
    have hinv := inv_put h l [] (by rw [List.append_nil]; omega)
    rw [List.append_nil] at hput hinv
    exact ⟨hinv, l, Or.inr rfl, hput⟩

end Netobuf

/-! ## Whole messages -/

/-- net_output_data finds room for its message and the NUL vsnprintf ends it with. Exactly
    one byte of room is no harm either: that takes the NUL, and nothing is appended. -/
def Fits : Call → Netobuf → Prop
  | .data format msg taken, s =>
    msg = [] ∨ msg.length < s.room format taken ∨ s.room format taken = 1
  | _, _ => True

/-- A call has been carried out whole or not at all. -/
def Whole (a : Call) (m : List UInt8) : Prop := m = [] ∨ m = a.message

theorem step_whole {a : Call} {s t : Netobuf} (h : s.Inv) (hf : Fits a s) (hs : a.step s = some t) :
    t.Inv ∧ ∃ m, Whole a m ∧ t.stream = s.stream ++ m := by
  cases a with
  | data format msg taken =>
    obtain rfl := Option.some.inj hs
    have hm : msg = [] ∨ s.room format taken ≠ 0 := by
      rcases hf with hf | hf | hf
      · exact Or.inl hf
      · exact Or.inr (by omega)
      · exact Or.inr (by omega)
    obtain ⟨hi, hst⟩ := Netobuf.netOutputData_spec h hm
    refine ⟨hi, _, ?_, hst⟩
    rcases hf with rfl | hf | hf
    · exact Or.inl List.take_nil
    · exact Or.inr (List.take_of_length_le (by omega))
    · exact Or.inl (by rw [hf]; rfl)
  | datalen msg taken =>
    obtain rfl := Option.some.inj hs
    exact Netobuf.netOutputDatalen_spec h msg taken
  | turn binary c nc =>
    obtain rfl := Option.some.inj hs
    exact Netobuf.turn_spec h (outputLoop_length binary c nc)
  | flush taken =>
    obtain rfl := Option.some.inj hs
    obtain ⟨hi, hst⟩ := Netobuf.netflush_spec h taken
    exact ⟨hi, [], Or.inl rfl, by rw [hst, List.append_nil]⟩
  | urgent =>
    obtain ⟨hlt, hs⟩ := Option.ite_none_right_eq_some.mp hs
    obtain rfl := Option.some.inj hs
    refine ⟨⟨h.le, h.front, h.top, fun u hu => ?_⟩, [], Or.inl rfl, (List.append_nil _).symm⟩
    obtain rfl := Option.some.inj hu
    show s.nbackp ≤ s.nfrontp - 1 ∧ s.nfrontp - 1 < s.nfrontp
    omega

theorem inv_init (not42 : Bool) : (Netobuf.init not42).Inv :=
  ⟨Nat.le_refl _, Nat.zero_le _, Nat.zero_le _, fun _ hu => by simp [Netobuf.init] at hu⟩

/-- In a run where each net_output_data finds room for its message, the pointers stay in
    order and in the buffer, no cell outside it is written, and what the network has taken
    is a prefix of whole messages. -/
theorem run_whole {not42 : Bool} {as : List Call} {t : Netobuf} (hm : Meets Call.step Fits as (.init not42))
    (h : run Call.step as (.init not42) = some t) :
    t.nbackp ≤ t.nfrontp ∧ t.nfrontp ≤ BUFSIZ + NETSLOP ∧ t.top ≤ BUFSIZ + NETSLOP ∧
      ∃ ms, List.Forall₂ Whole as ms ∧ t.sent ++ t.pending = ms.flatten := by
  have hstep : ∀ a s t, s.Inv → Fits a s → Call.step a s = some t →
      t.Inv ∧ ∃ m, Whole a m ∧ t.stream = s.stream ++ m := fun _ _ _ => step_whole
  obtain ⟨hi, ms, hms, hs⟩ := run_trace hstep (inv_init not42) hm h
  refine ⟨hi.le, Nat.le_trans hi.front (Nat.le_add_right _ _), Nat.le_trans hi.top (Nat.le_add_right _ _), ms, hms, ?_⟩
  simpa [Netobuf.stream, Netobuf.pending, Netobuf.init] using hs

/-- "\r\n[Yes]\r\n", the answer to AYT. -/
def yes : List UInt8 := [13, 10, 91, 89, 101, 115, 93, 13, 10]

/-- The answer to AYT goes into an empty buffer, and the network takes four bytes of it. -/
theorem run_whole_yes :
    let t := ((Netobuf.init true).netOutputData 9 yes none).netflush (some 4)
    t.nbackp ≤ t.nfrontp ∧ t.nfrontp ≤ BUFSIZ + NETSLOP ∧ t.top ≤ BUFSIZ + NETSLOP ∧
      ∃ ms, List.Forall₂ Whole [.data 9 yes none, .flush (some 4)] ms ∧ t.sent ++ t.pending = ms.flatten :=
  run_whole (show Meets Call.step Fits [.data 9 yes none, .flush (some 4)] (.init true) from
    ⟨Or.inr (Or.inl (by decide)), fun _ _ => ⟨trivial, fun _ _ => trivial⟩⟩) rfl

/-! ## A peer that does not read -/

namespace Netobuf

variable {s : Netobuf}

theorem netflush_blocked (h : s.nbackp < s.nfrontp) : s.netflush none = s := by
  rw [netflush, if_pos (by omega)]

/-- Too long a message loses its end. -/
theorem netOutputData_torn (h : s.Inv) {format : Nat} (msg : List UInt8) {taken : Option Nat}
    (h1 : 1 < s.room format taken) (hm : s.room format taken ≤ msg.length) :
    ∃ m, m ≠ [] ∧ m ≠ msg ∧ (s.netOutputData format msg taken).stream = s.stream ++ m := by
  have hlen : (msg.take (s.room format taken - 1)).length = s.room format taken - 1 := by
    rw [List.length_take]
    omega
  refine ⟨_, fun h0 => ?_, fun h0 => ?_, (netOutputData_spec h (Or.inr (by omega))).2⟩
  · rw [h0, List.length_nil] at hlen
    omega
  · rw [h0] at hlen
    omega

/-- From BUFSIZ on the room is 0, then negative, and as a size_t no bound at all. -/
theorem netOutputData_past (h : s.nbackp < s.nfrontp) (hb : BUFSIZ ≤ s.nfrontp) (format : Nat) (msg : List UInt8)
    (hl : s.nfrontp + msg.length ≤ 2 * BUFSIZ) :
    (s.netOutputData format msg none).nbackp = s.nbackp ∧
      (s.netOutputData format msg none).nfrontp = s.nfrontp + msg.length := by
  have hmax : msg.length < (s.remaining + sizeRange - 1) % sizeRange := by
    unfold remaining
    unfold BUFSIZ at hb hl ⊢
    unfold sizeRange
    omega
  unfold netOutputData
  simp only [netflush_blocked h, ite_self, if_pos hmax, and_true]
  split <;> rfl

theorem run_past (format : Nat) (msg : List UInt8) (n : Nat) (h : s.nbackp < s.nfrontp) (hb : BUFSIZ ≤ s.nfrontp)
    (hl : s.nfrontp + n * msg.length ≤ 2 * BUFSIZ) :
    ∃ t, run Call.step (List.replicate n (.data format msg none)) s = some t ∧
      t.nfrontp = s.nfrontp + n * msg.length := by
  induction n generalizing s with
  | zero => exact ⟨s, rfl, by simp⟩
  | succ n ih =>
    rw [Nat.add_one_mul] at hl ⊢
    obtain ⟨h1, h2⟩ := netOutputData_past h hb format msg (by omega)
    obtain ⟨t, ht, hf⟩ := ih (s := s.netOutputData format msg none) (by omega) (by omega) (by omega)
    exact ⟨t, ht, by omega⟩

/-- Into an empty buffer net_output_datalen puts anything up to BUFSIZ. -/
theorem netOutputDatalen_init (not42 : Bool) {msg : List UInt8} (hm : msg.length ≤ BUFSIZ) :
    ((Netobuf.init not42).netOutputDatalen msg none).nbackp = 0 ∧
      ((Netobuf.init not42).netOutputDatalen msg none).nfrontp = msg.length ∧
      ((Netobuf.init not42).netOutputDatalen msg none).stream = msg := by
  have hr : ¬ (Netobuf.init not42).remaining < msg.length := by
    rw [(inv_init not42).remaining]
    exact Nat.not_lt.mpr hm
  have hput := stream_put (inv_init not42).le msg []
  unfold netOutputDatalen
  simp only [if_neg hr]
  rw [List.append_nil] at hput
  exact ⟨rfl, by simp [Netobuf.init], hput⟩

end Netobuf

theorem torn (big : List UInt8) (hb : big.length = 8190) :
    ∃ t, run Call.step [.datalen big none, .data 9 yes none] (.init true) = some t ∧
      ¬ ∃ ms, List.Forall₂ Whole [.datalen big none, .data 9 yes none] ms ∧ t.sent ++ t.pending = ms.flatten := by
  obtain ⟨s, hs⟩ : ∃ s, s = (Netobuf.init true).netOutputDatalen big none := ⟨_, rfl⟩
  obtain ⟨h0, hf, hst⟩ := Netobuf.netOutputDatalen_init true (show big.length ≤ BUFSIZ by rw [hb]; decide)
  have hi : s.Inv := hs ▸ (Netobuf.netOutputDatalen_spec (inv_init true) big none).1
  rw [← hs] at h0 hf hst
  have hroom : s.room 9 none = 2 := by
    rw [Netobuf.room, hi.remaining, Netobuf.drains, hf, h0, hb]
    decide
  obtain ⟨m, hm0, hmy, ht⟩ := Netobuf.netOutputData_torn hi yes (by omega : 1 < s.room 9 none) (by rw [hroom]; decide)
  refine ⟨s.netOutputData 9 yes none, by rw [hs]; rfl, ?_⟩
  intro h
  obtain ⟨ms, hms, he⟩ := h
  obtain ⟨m1, ms1, h1, hr1, rfl⟩ := List.forall₂_cons_left_iff.mp hms
  obtain ⟨m2, ms2, h2, hr2, rfl⟩ := List.forall₂_cons_left_iff.mp hr1
  obtain rfl := List.forall₂_nil_left_iff.mp hr2
  have hsum : big ++ m = m1 ++ m2 := by
    rw [← hst, ← ht]
    exact he.trans (by simp)
  rcases h1 with rfl | rfl
  · have hlong := congrArg List.length hsum
    have hshort : m2.length ≤ 9 := by rcases h2 with rfl | rfl <;> decide
    simp only [List.length_append, List.length_nil] at hlong
    omega
  · obtain rfl : m = m2 := List.append_cancel_left hsum
    rcases h2 with h2 | h2
    · exact hm0 h2
    · exact hmy h2

theorem overrun (big : List UInt8) (hb : big.length = 8192) :
    ∃ t, run Call.step (.datalen big none :: List.replicate 8 (.data 9 yes none)) (.init true) = some t ∧
      BUFSIZ + NETSLOP < t.nfrontp := by
  obtain ⟨h0, hf, -⟩ := Netobuf.netOutputDatalen_init true (show big.length ≤ BUFSIZ by rw [hb]; decide)
  rw [hb] at hf
  have hy : yes.length = 9 := rfl
  obtain ⟨t, ht, he⟩ := Netobuf.run_past 9 yes 8 (s := (Netobuf.init true).netOutputDatalen big none)
    (by rw [h0, hf]; decide) (by rw [hf]; decide) (by rw [hf, hy]; decide)
  refine ⟨t, run_cons.mpr ⟨_, rfl, ht⟩, ?_⟩
  rw [he, hf, hy]
  decide

/-- With 8190 bytes waiting, one byte of the answer to AYT is appended; with 8192 waiting,
    eight answers take nfrontp out of netobuf. -/
theorem unread_output_torn_and_overrun :
    (∃ t, run Call.step [.datalen (List.replicate 8190 65) none, .data 9 yes none] (.init true) = some t ∧
      ¬ ∃ ms, List.Forall₂ Whole [.datalen (List.replicate 8190 65) none, .data 9 yes none] ms ∧
        t.sent ++ t.pending = ms.flatten) ∧
    ∃ t, run Call.step (.datalen (List.replicate 8192 65) none :: List.replicate 8 (.data 9 yes none)) (.init true) = some t ∧
      BUFSIZ + NETSLOP < t.nfrontp :=
  ⟨torn (List.replicate 8190 65) List.length_replicate, overrun (List.replicate 8192 65) List.length_replicate⟩

end Netutils.Telnetd
