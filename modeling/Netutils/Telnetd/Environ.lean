/-
  Netutils.Telnetd.Environ — suboption on NEW_ENVIRON (telnetd/state.c): the variables of
  the sub-option are decoded in its own buffer, each name and value ended by a NUL that is
  stored over what has been read.

  `decode` is the same without the buffer: a list of bytes to the list of calls of setenv
  and unsetenv. The loop in the buffer makes those calls (`environ_calls`), since it
  never writes ahead of what it has read.
-/

import Netutils.Lib.Cells
import Netutils.Telnetd.Receive

namespace Netutils.Telnetd

open Netutils.Arpa
open Netutils.Lib.Cells
open Netutils.Wire

/-! ## The loop in the buffer -/

inductive EnvCall where
  | setenv (name value : CString)
  | unsetenv (name : CString)
  deriving DecidableEq

/-- The locals of `case TELOPT_NEW_ENVIRON` as offsets into subbuffer, and the calls made. -/
structure Scan where
  mem : Nat → UInt8
  subpointer : Nat
  cp : Nat
  varp : Nat
  valp : Option Nat
  calls : List EnvCall

/-- `*cp = c` -/
def Scan.poke (d : Scan) (c : UInt8) : Scan := { d with mem := store d.mem d.cp [c] }

/-- `if (valp) setenv (varp, valp, 1); else unsetenv (varp);` -/
def Scan.call (size : Nat) (d : Scan) : Scan :=
  { d with calls := d.calls ++ [match d.valp with
      | some v => .setenv (strAt size d.mem d.varp) (strAt size d.mem v)
      | none => .unsetenv (strAt size d.mem d.varp)] }

/-- One turn of the loop, before subend. -/
def Scan.turn (size fin : Nat) (d : Scan) : Scan :=
  let c := d.mem d.subpointer
  let d := { d with subpointer := d.subpointer + 1 }
  if c = NEW_ENV_VALUE then
    { d.poke 0 with cp := d.subpointer, valp := some d.subpointer }
  else if c = NEW_ENV_VAR ∨ c = ENV_USERVAR then
    { (d.poke 0).call size with cp := d.subpointer, varp := d.subpointer, valp := none }
  else if c = ENV_ESC then
    if d.subpointer ≥ fin then d
    else { d.poke (d.mem d.subpointer) with cp := d.cp + 1, subpointer := d.subpointer + 1 }
  else { d.poke c with cp := d.cp + 1 }

theorem Scan.turn_lt (size fin : Nat) (d : Scan) : d.subpointer < (d.turn size fin).subpointer := by
  unfold Scan.turn Scan.poke Scan.call
  simp only
  repeat' split
  all_goals simp only
  all_goals omega

def Scan.loop (size fin : Nat) (d : Scan) : Scan :=
  if d.subpointer < fin then (d.turn size fin).loop size fin else d
termination_by fin - d.subpointer
decreasing_by
  have := d.turn_lt size fin
  omega

/-- The first loop: to behind the first VAR or USERVAR. -/
def skip (m : Nat → UInt8) (fin sp : Nat) : Nat :=
  if sp < fin then
    if m sp = NEW_ENV_VAR ∨ m sp = ENV_USERVAR then sp + 1 else skip m fin (sp + 1)
  else sp
termination_by fin - sp

/-- suboption on NEW_ENVIRON: the buffer it leaves, and the calls it makes. -/
def environ (b : SubBuf) : SubBuf × List EnvCall :=
  let size := b.mem.length
  let m := fun i => b.mem.getD i 0
  let sp := b.ptr + 1
  if sp ≥ b.fin then ({ b with ptr := sp }, [])
  else if m sp ≠ TELQUAL_IS ∧ m sp ≠ TELQUAL_INFO then ({ b with ptr := sp + 1 }, [])
  else
    let sp := skip m b.fin (sp + 1)
    if sp ≥ b.fin then ({ b with ptr := sp }, [])
    else
      let d := Scan.loop size b.fin ⟨m, sp, sp, sp, none, []⟩
      let d := (d.poke 0).call size
      ({ b with mem := (List.range size).map d.mem, ptr := d.subpointer }, d.calls)

/-! ## The same without the buffer -/

/-- A variable as far as it has been read: its name, and its value if that has begun. -/
structure Var where
  name : List UInt8
  value : Option (List UInt8)

def Var.call (v : Var) : EnvCall :=
  match v.value with
  | some x => .setenv (cstr v.name) (cstr x)
  | none => .unsetenv (cstr v.name)

def Var.add (v : Var) (c : UInt8) : Var :=
  match v.value with
  | some x => { v with value := some (x ++ [c]) }
  | none => { v with name := v.name ++ [c] }

/-- The calls for the variable begun and what is still to be read. -/
def decode : Var → List UInt8 → List EnvCall
  | v, [] => [v.call]
  | v, c :: l =>
    if c = NEW_ENV_VALUE then decode { v with value := some [] } l
    else if c = NEW_ENV_VAR ∨ c = ENV_USERVAR then v.call :: decode ⟨[], none⟩ l
    else if c = ENV_ESC then
      match l with
      | [] => [v.call]
      | x :: l => decode (v.add x) l
    else decode (v.add c) l

theorem decode_cons (v : Var) (c : UInt8) (l : List UInt8) :
    decode v (c :: l) =
      if c = NEW_ENV_VALUE then decode { v with value := some [] } l
      else if c = NEW_ENV_VAR ∨ c = ENV_USERVAR then v.call :: decode ⟨[], none⟩ l
      else if c = ENV_ESC then
        match l with
        | [] => [v.call]
        | x :: l => decode (v.add x) l
      else decode (v.add c) l := by
  rw [decode.eq_def]

/-! ## One turn -/

/-- The buffer holds the variable: the string being read up to cp, which is not ahead of
    subpointer, and a name that is done with its NUL. -/
structure Holds (d : Scan) (v : Var) : Prop where
  le : d.cp ≤ d.subpointer
  name : v.value = none → d.valp = none ∧ d.varp ≤ d.cp ∧ slice d.mem d.varp d.cp = v.name
  value : ∀ x, v.value = some x → ∃ p, d.valp = some p ∧ p ≤ d.cp ∧ slice d.mem p d.cp = x ∧
    ∃ q, d.varp ≤ q ∧ q < p ∧ slice d.mem d.varp q = v.name ∧ d.mem q = 0

variable {size fin : Nat} {d : Scan} {v : Var}

theorem Holds.calls (h : Holds d v) (hs : d.cp < size) : ((d.poke 0).call size).calls = d.calls ++ [v.call] := by
  unfold Scan.call Scan.poke Var.call
  rcases hv : v.value with _ | x
  · obtain ⟨hp, hle, hn⟩ := h.name hv
    simp only [hp]
    rw [strAt_of_nul hle hs (store_same _), slice_store_before _ (Nat.le_refl _), hn]
  · obtain ⟨p, hp, hle, hx, q, hq, hqp, hn, h0⟩ := h.value x hv
    have hz : store d.mem d.cp [0] q = 0 := by rw [store_ne _ (by omega), h0]
    simp only [hp]
    rw [strAt_of_nul hle hs (store_same _), slice_store_before _ (Nat.le_refl _), hx,
      strAt_of_nul hq (by omega) hz, slice_store_before _ (by omega), hn]

/-- A character of the name or value, stored at cp. -/
theorem Holds.add (h : Holds d v) (c : UInt8) {sp : Nat} (hsp : d.cp < sp) :
    Holds ⟨store d.mem d.cp [c], sp, d.cp + 1, d.varp, d.valp, d.calls⟩ (v.add c) := by
  unfold Var.add
  rcases hv : v.value with _ | x
  · obtain ⟨hp, hle, hn⟩ := h.name hv
    refine ⟨hsp, fun _ => ⟨hp, Nat.le_succ_of_le hle, ?_⟩, fun x hx => by simp at hx⟩
    simp only
    rw [slice_succ hle, slice_store_before _ (Nat.le_refl _), hn, store_same]
  · obtain ⟨p, hp, hle, hx, q, hq, hqp, hn, h0⟩ := h.value x hv
    refine ⟨hsp, fun hn => by simp at hn, ?_⟩
    intro y hy
    obtain rfl := Option.some.inj hy
    refine ⟨p, hp, Nat.le_succ_of_le hle, ?_, q, hq, hqp, ?_, ?_⟩
    · simp only
      rw [slice_succ hle, slice_store_before _ (Nat.le_refl _), hx, store_same]
    · simp only
      rw [slice_store_before _ (by omega), hn]
    · simp only
      rw [store_ne _ (by omega), h0]

/-- The value begins: the name gets its NUL. -/
theorem Holds.begin (h : Holds d v) {sp : Nat} (hsp : d.cp < sp) :
    Holds ⟨store d.mem d.cp [0], sp, sp, d.varp, some sp, d.calls⟩ { v with value := some [] } := by
  refine ⟨Nat.le_refl _, fun hn => by simp at hn, ?_⟩
  intro y hy
  obtain rfl := Option.some.inj hy
  refine ⟨sp, rfl, Nat.le_refl _, slice_self, ?_⟩
  rcases hv : v.value with _ | x
  · obtain ⟨hp, hle, hn⟩ := h.name hv
    exact ⟨d.cp, hle, hsp, by rw [← hn]; exact slice_store_before _ (Nat.le_refl _), store_same _⟩
  · obtain ⟨p, hp, hle, hx, q, hq, hqp, hn, h0⟩ := h.value x hv
    refine ⟨q, hq, by omega, ?_, ?_⟩
    · simp only
      rw [slice_store_before _ (by omega), hn]
    · simp only
      rw [store_ne _ (by omega), h0]

/-- The next variable begins. -/
theorem holds_next (m : Nat → UInt8) (sp : Nat) (calls : List EnvCall) :
    Holds ⟨m, sp, sp, sp, none, calls⟩ ⟨[], none⟩ :=
  ⟨Nat.le_refl _, fun _ => ⟨rfl, Nat.le_refl _, slice_self⟩, fun x hx => by simp at hx⟩

/-! ## The whole loop -/

/-- The loop and the call behind it make the calls of `decode`. -/
theorem loop_decode (h : Holds d v) (hle : d.subpointer ≤ fin) (hs : fin < size) :
    (((d.loop size fin).poke 0).call size).calls = d.calls ++ decode v (slice d.mem d.subpointer fin) := by
  induction d using Scan.loop.induct size fin generalizing v with
  | case2 d hd =>
    have : d.subpointer = fin := by omega
    rw [Scan.loop, if_neg hd, h.calls (by have := h.le; omega), this, slice_self]
    rfl
  | case1 d hd ih =>
    have hcp := h.le
    have hbehind : ∀ c sp, d.cp < sp → slice (store d.mem d.cp [c]) sp fin = slice d.mem sp fin :=
      fun c sp hsp => slice_store_behind _ hsp
    rw [Scan.loop, if_pos hd, slice_cons hd, decode_cons]
    by_cases h1 : d.mem d.subpointer = NEW_ENV_VALUE
    · have ht : d.turn size fin = ⟨store d.mem d.cp [0], d.subpointer + 1, d.subpointer + 1, d.varp,
          some (d.subpointer + 1), d.calls⟩ := by simp [Scan.turn, h1, Scan.poke]
      rw [ht] at ih
      rw [if_pos h1, ht, ih (h.begin (by omega)) hd, hbehind _ (d.subpointer + 1) (by omega)]
    by_cases h2 : d.mem d.subpointer = NEW_ENV_VAR ∨ d.mem d.subpointer = ENV_USERVAR
    · have ht : d.turn size fin = ⟨store d.mem d.cp [0], d.subpointer + 1, d.subpointer + 1, d.subpointer + 1, none,
          ((d.poke 0).call size).calls⟩ := by simp [Scan.turn, h1, h2, Scan.poke, Scan.call]
      rw [ht] at ih
      rw [if_neg h1, if_pos h2, ht, ih (holds_next _ _ _) hd, hbehind _ (d.subpointer + 1) (by omega), h.calls (by omega)]
      simp
    by_cases h3 : d.mem d.subpointer = ENV_ESC
    · rw [if_neg h1, if_neg h2, if_pos h3]
      by_cases he : d.subpointer + 1 ≥ fin
      · have ht : d.turn size fin = { d with subpointer := d.subpointer + 1 } := by
          simp [Scan.turn, h3, he]
        have hf : d.subpointer + 1 = fin := by omega
        have hh : Holds { d with subpointer := d.subpointer + 1 } v := ⟨by simp only; omega, h.name, h.value⟩
        rw [ht] at ih
        rw [ht, ih hh hd]
        simp only [hf, slice_self]
        rfl
      · have ht : d.turn size fin = ⟨store d.mem d.cp [d.mem (d.subpointer + 1)], d.subpointer + 2, d.cp + 1, d.varp,
            d.valp, d.calls⟩ := by
          simp [Scan.turn, h3, he, Scan.poke]
        rw [ht] at ih
        rw [ht, ih (h.add _ (by omega)) (by simp only; omega), hbehind _ (d.subpointer + 2) (by omega),
          slice_cons (i := d.subpointer + 1) (by omega)]
    · have ht : d.turn size fin = ⟨store d.mem d.cp [d.mem d.subpointer], d.subpointer + 1, d.cp + 1, d.varp, d.valp,
          d.calls⟩ := by simp [Scan.turn, h1, h2, h3, Scan.poke]
      rw [ht] at ih
      rw [if_neg h1, if_neg h2, if_neg h3, ht, ih (h.add _ (by omega)) hd, hbehind _ (d.subpointer + 1) (by omega)]

/-! ## The sub-option -/

/-- What stands behind the first VAR or USERVAR. -/
def afterVar : List UInt8 → List UInt8
  | [] => []
  | c :: l => if c = NEW_ENV_VAR ∨ c = ENV_USERVAR then l else afterVar l

/-- The calls for a sub-option: its option, its qualifier and what follows. -/
def environCalls : List UInt8 → List EnvCall
  | _ :: q :: l =>
    if q = TELQUAL_IS ∨ q = TELQUAL_INFO then
      match afterVar l with
      | [] => []
      | c :: l => decode ⟨[], none⟩ (c :: l)
    else []
  | _ => []

theorem skip_spec (m : Nat → UInt8) {fin sp : Nat} (h : sp ≤ fin) :
    skip m fin sp ≤ fin ∧ slice m (skip m fin sp) fin = afterVar (slice m sp fin) := by
  induction sp using skip.induct m fin with
  | case1 sp hlt hc =>
    rw [skip, if_pos hlt, if_pos hc, slice_cons hlt, afterVar, if_pos hc]
    exact ⟨hlt, rfl⟩
  | case2 sp hlt hc ih =>
    rw [skip, if_pos hlt, if_neg hc, slice_cons hlt, afterVar, if_neg hc]
    exact ih hlt
  | case3 sp hge =>
    have : sp = fin := by omega
    rw [skip, if_neg hge, this, slice_self]
    exact ⟨Nat.le_refl _, rfl⟩

/-- The decoding in place makes the calls that its sub-option stands for. -/
theorem environ_calls {b : SubBuf} (hp : b.ptr = 0) (hf : b.fin < b.mem.length) :
    (environ b).2 = environCalls (b.mem.take b.fin) := by
  obtain ⟨m, hm⟩ : ∃ m, m = fun i => b.mem.getD i 0 := ⟨_, rfl⟩
  have htake : b.mem.take b.fin = slice m 0 b.fin := by rw [hm, slice_getD _ _ (Nat.le_of_lt hf)]
  have hm1 : b.mem.getD 1 0 = m 1 := by rw [hm]
  unfold environ
  simp only [hp, ← hm, htake, Nat.zero_add, hm1]
  by_cases h1 : 1 ≥ b.fin
  · rw [if_pos h1]
    have h01 : b.fin = 0 ∨ b.fin = 1 := by omega
    rcases h01 with h | h
    · simp [h, environCalls]
    · rw [h, slice_cons Nat.zero_lt_one]
      simp [environCalls]
  · rw [if_neg h1, slice_cons (show 0 < b.fin by omega), slice_cons (show 0 + 1 < b.fin by omega), environCalls]
    by_cases h2 : m 1 = TELQUAL_IS ∨ m 1 = TELQUAL_INFO
    · rw [if_neg (by simpa [not_or] using fun hn => (h2.resolve_left hn)), if_pos h2]
      obtain ⟨hle, hskip⟩ := skip_spec m (show 2 ≤ b.fin by omega)
      by_cases h3 : skip m b.fin 2 ≥ b.fin
      · have : skip m b.fin 2 = b.fin := by omega
        rw [this, slice_self] at hskip
        rw [if_pos h3, ← hskip]
      · rw [if_neg h3, ← hskip, slice_cons (by omega)]
        have hloop := loop_decode (holds_next m (skip m b.fin 2) []) hle hf
        rw [List.nil_append, slice_cons (i := skip m b.fin 2) (by omega)] at hloop
        exact hloop
    · rw [if_pos (by simpa [not_or] using h2), if_neg h2]

/-! ## telnetd with NEW_ENVIRON spelled out -/

variable {Env : Type}

/-- suboption makes the calls of `environ` on NEW_ENVIRON, and is the given one on any
    other option; beside what it has, the environment records the calls. -/
def withEnviron (H : Handlers Env) : Handlers (Env × List EnvCall) where
  command := fun e c => (((H.command e.1 c).1, e.2), (H.command e.1 c).2)
  option := fun e v c => (((H.option e.1 v c).1, e.2), (H.option e.1 v c).2)
  suboption := fun e b =>
    let r := H.suboption e.1 b
    if b.mem.getD b.ptr 0 = TELOPT_NEW_ENVIRON then ((r.1, e.2 ++ (environ b).2), (environ b).1, [])
    else ((r.1, e.2), r.2)
  linemode := fun e => H.linemode e.1
  binary := fun e => H.binary e.1
  ttyIscrnl := fun e => H.ttyIscrnl e.1

end Netutils.Telnetd
