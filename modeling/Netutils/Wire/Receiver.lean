/-
  Netutils.Wire.Receiver — the receive machine the two programs' `telrcv` share.

  A `Program` gives what differs: the commands it acts on, how it puts a byte out, and the
  cases TS_CR and TS_DATA, the only ones that look at the byte behind. `receive` is one
  turn of the loop of either; leaving the data bytes out, it is `Ctl.next`
  (`receive_ctl`), and outside the data it looks at no byte behind (`receive_agrees`).
-/

import Netutils.Lib.Lookahead
import Netutils.Wire.Framing

namespace Netutils.Wire

open Netutils.Arpa
open Netutils.Lib.Lookahead
open Netutils.Options (Verb)

/-! ## The machine -/

/-- State for recv fsm -/
inductive TS where
  | data
  | iac
  | cr
  | sb
  | se
  | verb (v : Verb)
  deriving DecidableEq

def TS.frame : TS → Frame
  | .data | .cr => .data
  | .iac => .iac
  | .sb => .sb
  | .se => .se
  | .verb v => .verb v

structure Rcv (Env : Type) where
  state : TS
  sub : SubBuf
  env : Env

/-- A turn on a byte of the data: the state it leaves, what it puts out, and whether it
    took the byte behind as well. -/
structure Text where
  state : TS
  out : List Event
  took : Bool

structure Program (Env : Type) extends Acts Env where
  /-- The commands after IAC that do something, those that only change the state apart. -/
  commands : List UInt8
  /-- What comes of putting a byte out: pty_output_byte, TTYADD. -/
  add : Env → UInt8 → List Event
  /-- The cases TS_CR (`true`) and TS_DATA, with the byte and the byte behind it. -/
  text : Env → Bool → UInt8 → Option UInt8 → Text
  text_iac : ∀ e cr nc, text e cr IAC nc = ⟨.iac, [], false⟩
  text_data : ∀ e cr c nc, c ≠ IAC → (text e cr c nc).state.frame = .data

variable {Env : Type}

def put (l : List UInt8) : List Event := l.map .out

@[simp] theorem delivered_put (l : List UInt8) : delivered (put l) = l := by
  induction l with
  | nil => rfl
  | cons c l ih => simp [put] at ih ⊢; exact ih

@[simp] theorem calls_put (l : List UInt8) : calls (put l) = [] := by
  induction l with
  | nil => rfl
  | cons c l ih => simp [put] at ih ⊢; exact ih

/-- The switch at `gotiac` (telnetd) and `process_iac` (telnet). -/
def gotiac (P : Program Env) (s : Rcv Env) (c : UInt8) : Turn (Rcv Env) Event :=
  if c ∈ P.commands then
    let r := P.command s.env c
    ⟨{ s with state := .data, env := r.1 }, .command c :: put r.2, false⟩
  else if c = SB then ⟨{ s with state := .sb, sub := s.sub.clear }, [], false⟩
  else if c = WILL then ⟨{ s with state := .verb .will }, [], false⟩
  else if c = WONT then ⟨{ s with state := .verb .wont }, [], false⟩
  else if c = DO then ⟨{ s with state := .verb .do_ }, [], false⟩
  else if c = DONT then ⟨{ s with state := .verb .dont }, [], false⟩
  else if c = IAC then ⟨{ s with state := .data }, P.add s.env c, false⟩
  else ⟨{ s with state := .data }, [], false⟩

def gottext (P : Program Env) (s : Rcv Env) (cr : Bool) (c : UInt8) (nc : Option UInt8) : Turn (Rcv Env) Event :=
  let t := P.text s.env cr c nc
  ⟨{ s with state := t.state }, t.out, t.took⟩

/-- One turn of the loop of `telrcv`, without decryption. -/
def receive (P : Program Env) : Decoder (Rcv Env) UInt8 Event := fun s c nc =>
  match s.state with
  | .cr => gottext P s true c nc
  | .data => gottext P s false c nc
  | .iac => gotiac P s c
  | .sb =>
    if c = IAC then ⟨{ s with state := .se }, [], false⟩
    else ⟨{ s with sub := s.sub.accum c }, [], false⟩
  | .se =>
    if c ≠ SE then
      if c ≠ IAC then
        -- bad form of suboption negotiation: what follows is another command
        let b := s.sub.close c
        let r := P.suboption s.env b
        let t := gotiac P ⟨.iac, r.2.1, r.1⟩ c
        { t with out := .suboption b :: put r.2.2 ++ t.out }
      else ⟨{ s with state := .sb, sub := s.sub.accum c }, [], false⟩
    else
      let b := s.sub.close SE
      let r := P.suboption s.env b
      ⟨⟨.data, r.2.1, r.1⟩, .suboption b :: put r.2.2, false⟩
  | .verb v =>
    let r := P.option s.env v c
    ⟨{ s with state := .data, env := r.1 }, .option v c :: put r.2, false⟩

/-! ## Its carving of the stream -/

def Rcv.ctl (s : Rcv Env) : Ctl Env := ⟨s.state.frame, s.sub, s.env⟩

variable (P : Program Env)

theorem gotiac_ctl (s : Rcv Env) (c : UInt8) :
    (gotiac P s c).next.ctl = Ctl.command P.toActs P.commands s.ctl c := by
  unfold gotiac Ctl.command
  repeat' split
  all_goals simp_all [Rcv.ctl, TS.frame]

@[simp] theorem gotiac_took (s : Rcv Env) (c : UInt8) : (gotiac P s c).took = false := by
  unfold gotiac
  repeat' split
  all_goals rfl

theorem gottext_ctl {s : Rcv Env} (hs : s.state.frame = .data) (cr : Bool) (c : UInt8) (nc : Option UInt8) :
    (gottext P s cr c nc).next.ctl = s.ctl.next P.toActs P.commands c := by
  simp only [gottext, Rcv.ctl, Ctl.next, hs]
  by_cases h : c = IAC
  · simp [h, P.text_iac, TS.frame]
  · simp [h, P.text_data]

/-- The receiver divides the stream as `Ctl.next` does. -/
theorem receive_ctl (s : Rcv Env) (c : UInt8) : (receive P s c none).next.ctl = s.ctl.next P.toActs P.commands c := by
  rcases s with ⟨st, sub, env⟩
  cases st with
  | data => exact gottext_ctl P rfl false c none
  | cr => exact gottext_ctl P rfl true c none
  | iac => exact gotiac_ctl P _ c
  | sb => by_cases h1 : c = IAC <;> simp [receive, Ctl.next, Rcv.ctl, TS.frame, h1]
  | se =>
    by_cases h1 : c = SE
    · subst h1
      simp [receive, Ctl.next, Rcv.ctl, TS.frame]
    · by_cases h2 : c = IAC
      · subst h2
        simp [receive, Ctl.next, Rcv.ctl, TS.frame]
      · simp only [receive, ne_eq, h1, not_false_eq_true, if_true, h2, gotiac_ctl]
        simp [Ctl.next, Rcv.ctl, TS.frame, h1, h2]
  | verb v => simp [receive, Ctl.next, Rcv.ctl, TS.frame]

theorem plain_ctl (s : Rcv Env) (l : List UInt8) :
    (plain (receive P) s l).1.ctl = scan P.toActs P.commands s.ctl l := by
  induction l generalizing s with
  | nil => rfl
  | cons c l ih => rw [plain_cons, ih, receive_ctl]; rfl

/-! ## Where it looks ahead -/

theorem receive_outside {s : Rcv Env} (hs : s.state.frame ≠ .data) (c : UInt8) (nc : Option UInt8) :
    receive P s c nc = receive P s c none ∧ (receive P s c nc).took = false := by
  rcases s with ⟨st, sub, env⟩
  cases st with
  | data => exact absurd rfl hs
  | cr => exact absurd rfl hs
  | iac => exact ⟨rfl, gotiac_took P _ c⟩
  | sb => by_cases h1 : c = IAC <;> simp [receive, h1]
  | se =>
    refine ⟨rfl, ?_⟩
    by_cases h1 : c = SE
    · simp [receive, h1]
    · by_cases h2 : c = IAC
      · subst h2
        simp [receive, h1]
      · simp [receive, h1, h2]
  | verb v => exact ⟨rfl, rfl⟩

/-- Outside the data every byte behind agrees. -/
theorem receive_agrees {s : Rcv Env} (hs : s.state.frame ≠ .data) (c x : UInt8) : Agrees (receive P) s c x := by
  obtain ⟨h1, h2⟩ := receive_outside P hs c (some x)
  unfold Agrees
  rw [if_neg (by simp [h2]), h1]
  exact ⟨rfl, fun _ => rfl⟩

/-- A byte of the data is a turn of `text`, in one of the two states. -/
theorem receive_data {s : Rcv Env} (hs : s.state.frame = .data) :
    ∃ cr, (s.state = if cr then .cr else .data) ∧ ∀ c nc, receive P s c nc = gottext P s cr c nc := by
  rcases s with ⟨st, sub, env⟩
  cases st with
  | data => exact ⟨false, rfl, fun _ _ => rfl⟩
  | cr => exact ⟨true, rfl, fun _ _ => rfl⟩
  | iac => simp [TS.frame] at hs
  | sb => simp [TS.frame] at hs
  | se => simp [TS.frame] at hs
  | verb v => simp [TS.frame] at hs

theorem gotiac_iac (hi : IAC ∉ P.commands) (s : Rcv Env) :
    gotiac P s IAC = ⟨{ s with state := .data }, P.add s.env IAC, false⟩ := by
  simp [gotiac, hi]

theorem receive_iac {s : Rcv Env} (hs : s.state.frame = .data) (nc : Option UInt8) :
    receive P s IAC nc = ⟨{ s with state := .iac }, [], false⟩ := by
  obtain ⟨cr, -, hd⟩ := receive_data P hs
  rw [hd, gottext, P.text_iac]

theorem receive_agrees_iac {s : Rcv Env} (hs : s.state.frame = .data) (x : UInt8) : Agrees (receive P) s IAC x := by
  unfold Agrees
  rw [receive_iac P hs, receive_iac P hs]
  exact ⟨rfl, fun _ => rfl⟩

/-! ## The same for all cuts -/

/-- A stream with no neighbours that differ gives every feed of it the same events. -/
theorem feed_of_clear {s : Rcv Env} {stream : List UInt8} (Differ : Ctl Env → UInt8 → UInt8 → Prop)
    (ha : ∀ t c x, ¬ Differ (Rcv.ctl t) c x → Agrees (receive P) t c x)
    (hc : ∀ pre c x post, stream = pre ++ c :: x :: post → ¬ Differ (scan P.toActs P.commands s.ctl pre) c x)
    {fs : List (List UInt8 × (List Event → Bool))} (hf : Brings (receive P) s stream fs) :
    (feed (receive P) s [] fs).1 = (plain (receive P) s stream).1 ∧
      (feed (receive P) s [] fs).2.2 = (plain (receive P) s stream).2 := by
  have hclear : Clear (receive P) s (brought fs) := by
    intro pre c x post hl
    have := hc pre c x post (by rw [← hf.stream, hl])
    rw [← plain_ctl] at this
    exact ha _ c x this
  have := feed_all hclear hf.done
  rwa [hf.stream] at this

/-- All cuts of a stream, out of those that `Cuts` allows, give the same bytes and calls
    exactly where no neighbours differ. An item at a time has to be one of them, and so has
    bringing in two that differ together. -/
theorem same_for_cuts_iff {s : Rcv Env} {stream : List UInt8} {Differ : Ctl Env → UInt8 → UInt8 → Prop}
    (ha : ∀ t c x, ¬ Differ (Rcv.ctl t) c x → Agrees (receive P) t c x)
    (hd : ∀ t c x, Differ (Rcv.ctl t) c x → Parts Event.byte (receive P) t c x)
    {Cuts : List (List UInt8 × (List Event → Bool)) → Prop}
    (hbrings : ∀ fs, Cuts fs → Brings (receive P) s stream fs) (hsingles : Cuts (stream.map single))
    (htogether : ∀ pre c x post, stream = pre ++ c :: x :: post →
      Parts Event.byte (receive P) (plain (receive P) s pre).1 c x → Cuts (together pre c x post)) :
    (∀ fs gs, Cuts fs → Cuts gs →
      delivered (feed (receive P) s [] fs).2.2 = delivered (feed (receive P) s [] gs).2.2 ∧
        calls (feed (receive P) s [] fs).2.2 = calls (feed (receive P) s [] gs).2.2) ↔
    ∀ pre c x post, stream = pre ++ c :: x :: post → ¬ Differ (scan P.toActs P.commands s.ctl pre) c x := by
  constructor
  · intro h pre c x post hl he
    rw [← plain_ctl] at he
    have hp := hd _ c x he
    have hne := together_ne_singles Event.byte post hp
    rw [← hl] at hne
    exact hne (h _ _ (htogether pre c x post hl hp) hsingles).1
  · intro h fs gs hf hg
    have same : ∀ fs, Cuts fs → (feed (receive P) s [] fs).2.2 = (plain (receive P) s stream).2 := by
      intro fs hf
      exact (feed_of_clear P Differ ha h (hbrings fs hf)).2
    rw [same fs hf, same gs hg]
    exact ⟨rfl, rfl⟩

/-- A stream of data does so if none differ as the program stands. -/
theorem feed_of_data {s : Rcv Env} (hs : s.state.frame = .data) (hi : IAC ∉ P.commands) {stream : List UInt8}
    (hd : Data stream) (Differ : Ctl Env → UInt8 → UInt8 → Prop)
    (ha : ∀ t c x, ¬ Differ (Rcv.ctl t) c x → Agrees (receive P) t c x)
    (hc : ∀ k c x, k.env = s.env → ¬ Differ k c x)
    {fs : List (List UInt8 × (List Event → Bool))} (hf : Brings (receive P) s stream fs) :
    (feed (receive P) s [] fs).1 = (plain (receive P) s stream).1 ∧
      (feed (receive P) s [] fs).2.2 = (plain (receive P) s stream).2 :=
  feed_of_clear P Differ ha
    (fun _ c x _ hp => hc _ c x (scan_data P.toActs hi hd (k := s.ctl) hs hp)) hf

/-! ## A sub-option -/

/-- What accumulates up to IAC SE, and the call then. -/
theorem plain_sub {s : Rcv Env} (hs : s.state = .sb) (l : List UInt8) :
    let b := (l.foldl SubBuf.accum s.sub).close SE
    let r := P.suboption s.env b
    plain (receive P) s (doubled l ++ [IAC, SE]) = (⟨.data, r.2.1, r.1⟩, .suboption b :: put r.2.2) := by
  obtain ⟨state, sub, env⟩ := s
  obtain rfl : state = .sb := hs
  induction l generalizing sub with
  | nil => simp [doubled, plain_cons, receive]
  | cons c l ih =>
    by_cases hc : c = IAC
    · subst hc
      have h : doubled (IAC :: l) ++ [IAC, SE] = IAC :: IAC :: (doubled l ++ [IAC, SE]) := by simp [doubled]
      rw [h, plain_cons, plain_cons]
      simpa [receive] using ih (sub.accum IAC)
    · have h : doubled (c :: l) ++ [IAC, SE] = c :: (doubled l ++ [IAC, SE]) := by simp [doubled, hc]
      rw [h, plain_cons]
      simpa [receive, hc] using ih (sub.accum c)

theorem clear_sub {s : Rcv Env} (hs : s.state = .sb) (l : List UInt8) :
    Clear (receive P) s (doubled l ++ [IAC, SE]) := by
  obtain ⟨state, sub, env⟩ := s
  obtain rfl : state = .sb := hs
  have hsb : ∀ (t : Rcv Env) c x, t.state = .sb ∨ t.state = .se → Agrees (receive P) t c x := by
    intro t c x ht
    exact receive_agrees P (by rcases ht with ht | ht <;> rw [ht] <;> decide) c x
  induction l generalizing sub with
  | nil =>
    apply clear_cons
    · intro x _ _
      exact hsb _ _ x (Or.inl rfl)
    · apply clear_cons _ (clear_nil _)
      intro x _ h
      simp at h
  | cons c l ih =>
    by_cases hc : c = IAC
    · subst hc
      have h : doubled (IAC :: l) ++ [IAC, SE] = IAC :: IAC :: (doubled l ++ [IAC, SE]) := by simp [doubled]
      rw [h]
      apply clear_cons
      · intro x _ _
        exact hsb _ _ x (Or.inl rfl)
      have h1 : (receive P ⟨.sb, sub, env⟩ IAC none).next = ⟨.se, sub, env⟩ := by simp [receive]
      rw [h1]
      apply clear_cons
      · intro x _ _
        exact hsb _ _ x (Or.inr rfl)
      have h2 : (receive P ⟨.se, sub, env⟩ IAC none).next = ⟨.sb, sub.accum IAC, env⟩ := by
        simp [receive]
      rw [h2]
      exact ih _
    · have h : doubled (c :: l) ++ [IAC, SE] = c :: (doubled l ++ [IAC, SE]) := by simp [doubled, hc]
      rw [h]
      apply clear_cons
      · intro x _ _
        exact hsb _ _ x (Or.inl rfl)
      have h1 : (receive P ⟨.sb, sub, env⟩ c none).next = ⟨.sb, sub.accum c, env⟩ := by simp [receive, hc]
      rw [h1]
      exact ih _

/-- A sub-option is one call, with what it holds in the buffer, in whatever parts it comes in. -/
theorem feed_sub {s : Rcv Env} (hs : s.state.frame = .data) (hc : SB ∉ P.commands) (l : List UInt8)
    {fs : List (List UInt8 × (List Event → Bool))}
    (hf : Brings (receive P) s (IAC :: SB :: (doubled l ++ [IAC, SE])) fs) :
    let b := (l.foldl SubBuf.accum s.sub.clear).close SE
    let r := P.suboption s.env b
    (feed (receive P) s [] fs).1 = ⟨.data, r.2.1, r.1⟩ ∧
      (feed (receive P) s [] fs).2.2 = .suboption b :: put r.2.2 := by
  have h1 : receive P s IAC none = ⟨{ s with state := .iac }, [], false⟩ := receive_iac P hs none
  have h2 : receive P { s with state := .iac } SB none = ⟨{ s with state := .sb, sub := s.sub.clear }, [], false⟩ := by
    simp [receive, gotiac, hc]
  have hclear : Clear (receive P) s (brought fs) := by
    rw [hf.stream]
    apply clear_cons
    · intro x _ _
      exact receive_agrees_iac P hs x
    rw [h1]
    apply clear_cons
    · intro x _ _
      exact receive_agrees P (by simp [TS.frame]) SB x
    rw [h2]
    exact clear_sub P rfl l
  have hp := plain_sub P (s := { s with state := .sb, sub := s.sub.clear }) rfl l
  have hall := feed_all hclear hf.done
  rw [hf.stream, plain_cons, h1, plain_cons, h2] at hall
  simp only [hp] at hall
  exact hall

end Netutils.Wire
