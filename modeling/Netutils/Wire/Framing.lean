/-
  Netutils.Wire.Framing — how a TELNET byte stream divides into data, commands, option
  verbs and sub-options, and what the latter do to the receiver.

  Both programs' `telrcv` carve the stream up alike; `Ctl.next` is that carving alone,
  with the data bytes left out: a function of the stream's bytes and of what the program
  does on a command, an option verb or a sub-option (`Acts`). The receivers' own state
  machines are related to it where they are defined.
-/

import Netutils.Arpa
import Netutils.Options.Machine

namespace Netutils.Wire

open Netutils.Arpa
open Netutils.Options (Verb)

/-! ## The sub-option buffer -/

/-- `subbuffer` with `subpointer` and `subend` as offsets. -/
structure SubBuf where
  mem : List UInt8
  ptr : Nat
  fin : Nat
  deriving DecidableEq

/-- SB_CLEAR -/
def SubBuf.clear (b : SubBuf) : SubBuf := { b with ptr := 0 }

/-- SB_TERM -/
def SubBuf.term (b : SubBuf) : SubBuf := { b with fin := b.ptr, ptr := 0 }

/-- SB_ACCUM: a full buffer takes nothing. -/
def SubBuf.accum (b : SubBuf) (c : UInt8) : SubBuf :=
  if b.ptr < b.mem.length then { b with mem := b.mem.set b.ptr c, ptr := b.ptr + 1 } else b

/-- The end of a sub-option: IAC and the byte after it are put in for the diagnostics, and
    the pointer is set back by two whether or not there was room for them. -/
def SubBuf.close (b : SubBuf) (c : UInt8) : SubBuf :=
  let b' := (b.accum IAC).accum c
  SubBuf.term { b' with ptr := b'.ptr - 2 }

/-- What accumulates in the buffer, as far as there is room. -/
theorem accum_min {b : SubBuf} {l : List UInt8} (h : b.ptr ≤ b.mem.length) :
    (l.foldl SubBuf.accum b).ptr = min (b.ptr + l.length) b.mem.length ∧
      (l.foldl SubBuf.accum b).mem.length = b.mem.length ∧
      (l.foldl SubBuf.accum b).mem.take (l.foldl SubBuf.accum b).ptr =
        b.mem.take b.ptr ++ l.take (b.mem.length - b.ptr) := by
  induction l generalizing b with
  | nil => exact ⟨(Nat.min_eq_left h).symm, rfl, by simp⟩
  | cons c l ih =>
    rw [List.foldl_cons, List.length_cons]
    by_cases hfull : b.ptr < b.mem.length
    · have ha : b.accum c = { b with mem := b.mem.set b.ptr c, ptr := b.ptr + 1 } := if_pos hfull
      obtain ⟨h1, h2, h3⟩ := ih (b := b.accum c) (by rw [ha, List.length_set]; exact hfull)
      have ht : (b.mem.set b.ptr c).take (b.ptr + 1) = b.mem.take b.ptr ++ [c] := by
        rw [List.take_add_one, List.take_set_of_le (Nat.le_refl _), List.getElem?_set_self hfull]
        rfl
      have hroom : b.mem.length - b.ptr = b.mem.length - (b.ptr + 1) + 1 := by omega
      rw [ha] at h1 h2 h3 ⊢
      simp only [ht, List.length_set] at h1 h2 h3
      refine ⟨by omega, h2, ?_⟩
      rw [h3, hroom, List.take_succ_cons]
      simp
    · have ha : b.accum c = b := if_neg hfull
      obtain ⟨h1, h2, h3⟩ := ih h
      rw [ha]
      refine ⟨by omega, h2, ?_⟩
      rw [h3, show b.mem.length - b.ptr = 0 by omega, List.take_zero, List.take_zero]

/-- The sub-option that stands in the buffer at its end: two bytes less than the buffer has
    are its own. -/
theorem close_min {b : SubBuf} (l : List UInt8) (h : 2 ≤ b.mem.length) (c : UInt8) :
    let t := (l.foldl SubBuf.accum b.clear).close c
    t.ptr = 0 ∧ t.fin = min l.length (b.mem.length - 2) ∧ t.mem.length = b.mem.length ∧
      t.mem.take t.fin = l.take (b.mem.length - 2) := by
  obtain ⟨h1, h2, h3⟩ := accum_min (b := b.clear) (l := l ++ [IAC, c]) (Nat.zero_le _)
  have hf : ((l ++ [IAC, c]).foldl SubBuf.accum b.clear) = ((l.foldl SubBuf.accum b.clear).accum IAC).accum c := by
    rw [List.foldl_append]
    rfl
  rw [hf] at h1 h2 h3
  simp only [SubBuf.clear, Nat.zero_add, Nat.sub_zero, List.take_zero, List.nil_append, List.length_append,
    List.length_cons, List.length_nil] at h1 h2 h3
  have hfin : ((l.foldl SubBuf.accum b.clear).close c).fin = min l.length (b.mem.length - 2) := by
    show (((l.foldl SubBuf.accum b.clear).accum IAC).accum c).ptr - 2 = _
    rw [SubBuf.clear, h1]
    omega
  refine ⟨rfl, hfin, h2, ?_⟩
  obtain ⟨k, hk⟩ : ∃ k, k = min l.length (b.mem.length - 2) := ⟨_, rfl⟩
  have htake := congrArg (List.take k) h3
  rw [List.take_take, List.take_take, Nat.min_eq_left (by rw [h1]; omega), Nat.min_eq_left (by omega),
    List.take_append_of_le_length (by omega)] at htake
  rw [hfin, ← hk]
  refine htake.trans ?_
  rw [List.take_eq_take_iff]
  omega

/-- A sub-option that leaves room for IAC SE is what stands in the buffer. -/
theorem close_all {b : SubBuf} {l : List UInt8} (h : l.length + 2 ≤ b.mem.length) (c : UInt8) :
    let t := (l.foldl SubBuf.accum b.clear).close c
    t.ptr = 0 ∧ t.fin = l.length ∧ t.mem.length = b.mem.length ∧ t.mem.take l.length = l := by
  obtain ⟨h1, h2, h3, h4⟩ := close_min (b := b) l (by omega) c
  rw [Nat.min_eq_left (by omega)] at h2
  rw [h2, List.take_of_length_le (by omega : l.length ≤ b.mem.length - 2)] at h4
  exact ⟨h1, h2, h3, h4⟩

/-! ## What a program does on what it receives -/

/-- `command`: after IAC; `option`: willoption, wontoption, dooption or dontoption;
    `suboption`: which may write to the buffer. Each also says what it puts out. -/
structure Acts (Env : Type) where
  command : Env → UInt8 → Env × List UInt8
  option : Env → Verb → UInt8 → Env × List UInt8
  suboption : Env → SubBuf → Env × SubBuf × List UInt8

/-- What a receiver puts out (to the pty, to ttyoring) and the calls it makes. -/
inductive Event where
  | out (c : UInt8)
  | command (c : UInt8)
  | option (v : Verb) (c : UInt8)
  | suboption (b : SubBuf)
  deriving DecidableEq

def Event.byte : Event → Option UInt8
  | .out c => some c
  | _ => none

def Event.isCall : Event → Bool
  | .out _ => false
  | _ => true

/-- The bytes put out, in order. -/
def delivered (o : List Event) : List UInt8 := o.filterMap Event.byte

/-- The calls made, in order. -/
def calls (o : List Event) : List Event := o.filter Event.isCall

@[simp] theorem delivered_out (c : UInt8) (l : List Event) : delivered (.out c :: l) = c :: delivered l := rfl

/-! ## The carving -/

inductive Frame where
  | data
  | iac
  | sb
  | se
  | verb (v : Verb)
  deriving DecidableEq

structure Ctl (Env : Type) where
  frame : Frame
  sub : SubBuf
  env : Env

variable {Env : Type}

/-- The byte after an IAC; `commands` are those the program acts on. -/
def Ctl.command (A : Acts Env) (commands : List UInt8) (k : Ctl Env) (c : UInt8) : Ctl Env :=
  if c ∈ commands then { k with frame := .data, env := (A.command k.env c).1 }
  else if c = SB then { k with frame := .sb, sub := k.sub.clear }
  else if c = WILL then { k with frame := .verb .will }
  else if c = WONT then { k with frame := .verb .wont }
  else if c = DO then { k with frame := .verb .do_ }
  else if c = DONT then { k with frame := .verb .dont }
  else { k with frame := .data }

def Ctl.next (A : Acts Env) (commands : List UInt8) (k : Ctl Env) (c : UInt8) : Ctl Env :=
  match k.frame with
  | .data => if c = IAC then { k with frame := .iac } else k
  | .iac => k.command A commands c
  | .sb => if c = IAC then { k with frame := .se } else { k with sub := k.sub.accum c }
  | .se =>
    if c = IAC then { k with frame := .sb, sub := k.sub.accum c }
    else
      let r := A.suboption k.env (k.sub.close c)
      -- a byte other than SE ends the sub-option too, and is then a command
      if c = SE then ⟨.data, r.2.1, r.1⟩ else Ctl.command A commands ⟨.iac, r.2.1, r.1⟩ c
  | .verb v => { k with frame := .data, env := (A.option k.env v c).1 }

def scan (A : Acts Env) (commands : List UInt8) (k : Ctl Env) (l : List UInt8) : Ctl Env :=
  l.foldl (Ctl.next A commands) k

/-- The bytes of a sub-option as they are sent. -/
def doubled (l : List UInt8) : List UInt8 := l.flatMap fun c => if c = IAC then [IAC, IAC] else [c]

theorem length_doubled (l : List UInt8) : (doubled l).length = l.length + l.count IAC := by
  induction l with
  | nil => rfl
  | cons c l ih =>
    have hc : doubled (c :: l) = (if c = IAC then [IAC, IAC] else [c]) ++ doubled l := List.flatMap_cons
    rw [hc, List.length_append, ih, List.count_cons]
    by_cases h : c = IAC
    · simp [h]
      omega
    · simp [h]
      omega

/-! ## Streams of data alone -/

/-- Every IAC is one of two. -/
inductive Data : List UInt8 → Prop where
  | nil : Data []
  | byte {c : UInt8} {l : List UInt8} (h : c ≠ IAC) : Data l → Data (c :: l)
  | iac {l : List UInt8} : Data l → Data (IAC :: IAC :: l)

theorem Data.append {l m : List UInt8} (hl : Data l) (hm : Data m) : Data (l ++ m) := by
  induction hl with
  | nil => exact hm
  | byte h _ ih => exact .byte h ih
  | iac _ ih => exact .iac ih

theorem Data.flatMap {f : UInt8 → List UInt8} (h : ∀ c, Data (f c)) (l : List UInt8) : Data (l.flatMap f) := by
  induction l with
  | nil => exact .nil
  | cons c l ih => exact (h c).append ih

variable (A : Acts Env) {commands : List UInt8}

theorem Ctl.command_iac (hc : IAC ∉ commands) (k : Ctl Env) : k.command A commands IAC = { k with frame := .data } := by
  simp [Ctl.command, hc]

/-- Data makes no calls: nothing in the program changes on the way. -/
theorem scan_data (hc : IAC ∉ commands) {l : List UInt8} (hl : Data l) {k : Ctl Env} (hk : k.frame = .data)
    {pre post : List UInt8} (hp : l = pre ++ post) : (scan A commands k pre).env = k.env := by
  induction hl generalizing k pre with
  | nil => rw [(List.append_eq_nil_iff.mp hp.symm).1]; rfl
  | @byte c l h _ ih =>
    rcases pre with _ | ⟨d, pre⟩
    · rfl
    · obtain ⟨rfl, hl⟩ := List.cons.inj hp
      have : k.next A commands c = k := by simp [Ctl.next, hk, h]
      show (scan A commands (k.next A commands c) pre).env = k.env
      rw [this]
      exact ih hk hl
  | @iac l _ ih =>
    have h1 : k.next A commands IAC = { k with frame := .iac } := by simp [Ctl.next, hk]
    have h2 : (k.next A commands IAC).next A commands IAC = k := by
      rw [h1, Ctl.next, Ctl.command_iac A hc, ← hk]
    match pre with
    | [] => rfl
    | [d] =>
      obtain ⟨rfl, -⟩ := List.cons.inj hp
      simp [scan, h1]
    | d :: d' :: pre =>
      simp only [List.cons_append, List.cons.injEq] at hp
      obtain ⟨rfl, rfl, hl⟩ := hp
      show (scan A commands ((k.next A commands IAC).next A commands IAC) pre).env = k.env
      rw [h2]
      exact ih hk hl

end Netutils.Wire
