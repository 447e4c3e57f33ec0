/-
  Netutils.Session.Keyboard — what is typed at the client, at the pty of the server.

  telsnd follows every CR by NUL or LF unless BINARY is on, and telrcv strips that byte
  through TS_CR; both double IAC and take one back. So the pty gets what was typed, if
  telrcv starts in TS_DATA (`keyboard_to_pty`). In TS_CR it takes a first NUL or LF for
  the end of what came before.
-/

import Netutils.Telnet.Send
import Netutils.Telnetd.Receive

namespace Netutils.Session

open Netutils.Arpa
open Netutils.Lib.Lookahead
open Netutils.Wire
open Netutils.Telnet (Keyboard Snd Typing strip encode sends sends_typed telsnd_room vdisable)
open Netutils.Telnetd (Handlers telrcv Cut received fresh)

variable {KEnv Env : Type} {K : Keyboard KEnv} {H : Handlers Env}

/-! ## One character -/

theorem data_encode (k : KEnv) (c : UInt8) : Data (encode K k c) := by
  unfold encode
  by_cases hi : c = IAC
  · subst hi
    simp only [iac_ne_lf, iac_ne_cr, if_false, if_true, ite_self]
    exact .iac .nil
  · repeat' split
    all_goals first
      | exact .byte hi .nil
      | exact .byte (by decide) (.byte (by decide) .nil)
      | exact .byte (by decide) .nil

/-- telrcv takes a character back out of its encoding. -/
theorem plain_encode {k : KEnv} (hl : K.localChars k = false) {s : Rcv Env} (hb : K.binary k = H.binary s.env)
    (hs : s.state = .data) (c : UInt8) : plain (telrcv H) s (encode K k c) = (s, [.out c]) := by
  obtain ⟨state, sub, env⟩ := s
  obtain rfl : state = .data := hs
  simp only at hb
  by_cases hi : c = IAC
  · subst hi
    have he : encode K k IAC = [IAC, IAC] := by simp [encode]
    have h1 : telrcv H ⟨.data, sub, env⟩ IAC none = ⟨⟨.iac, sub, env⟩, [], false⟩ := receive_iac _ rfl none
    have h2 : telrcv H ⟨.iac, sub, env⟩ IAC none = ⟨⟨.data, sub, env⟩, [.out IAC], false⟩ :=
      gotiac_iac (Telnetd.program H) (show IAC ∉ Telnetd.commands by decide) _
    rw [he, plain_cons, h1, plain_cons, h2]
    rfl
  by_cases hc : c = CR ∧ H.binary env = false
  · obtain ⟨rfl, hn⟩ := hc
    cases hx : K.crlf k <;>
      simp [encode, plain_cons, telrcv, receive, gottext, Telnetd.program, Telnetd.text, hb, hn, hx]
  · have he : encode K k c = [c] := by
      unfold encode
      rw [hb, hl]
      by_cases hn : H.binary env = false
      · have : c ≠ CR := fun h => hc ⟨h, hn⟩
        simp [hn, this, hi, eq_comm]
      · simp [hn, hi]
    simp [he, plain_cons, telrcv, receive, gottext, Telnetd.program, Telnetd.text, hi, hc]

theorem plain_encoded {k : KEnv} (hl : K.localChars k = false) {s : Rcv Env} (hb : K.binary k = H.binary s.env)
    (hs : s.state = .data) (typed : List UInt8) :
    plain (telrcv H) s (typed.flatMap (encode K k)) = (s, put typed) := by
  induction typed with
  | nil => rfl
  | cons c l ih => rw [List.flatMap_cons, plain_append, plain_encode hl hb hs, ih]; rfl

/-! ## After a CR -/

/-- A byte that TS_CR does not strip is taken as in TS_DATA. -/
theorem plain_after_cr {s : Rcv Env} (hs : s.state = .cr) {c : UInt8} (h0 : c ≠ NUL) (hn : c ≠ LF) (l : List UInt8) :
    plain (telrcv H) s (c :: l) = plain (telrcv H) { s with state := .data } (c :: l) := by
  obtain ⟨state, sub, env⟩ := s
  obtain rfl : state = .cr := hs
  apply sameOn_plain
  intro p
  simp [telrcv, receive, gottext, Telnetd.program, Telnetd.text, h0, hn]

theorem encode_head (k : KEnv) {c : UInt8} (hn : c ≠ LF) : ∃ l, encode K k c = c :: l := by
  unfold encode
  repeat' split
  all_goals first
    | contradiction
    | (subst_vars; exact ⟨_, rfl⟩)

/-- telrcv before what was typed comes in: in TS_DATA, or in TS_CR with a first character
    that it does not strip. -/
def Ready (s : Rcv Env) (typed : List UInt8) : Prop :=
  s.state = .data ∨ s.state = .cr ∧ ∀ c ∈ typed.head?, c ≠ NUL ∧ c ≠ LF

theorem Ready.frame {s : Rcv Env} {typed : List UInt8} (h : Ready s typed) : s.state.frame = .data := by
  rcases h with h | h
  · rw [h]; rfl
  · rw [h.1]; rfl

theorem plain_typed {k : KEnv} (hl : K.localChars k = false) {s : Rcv Env} (hb : K.binary k = H.binary s.env)
    {typed : List UInt8} (hs : Ready s typed) :
    (plain (telrcv H) s (typed.flatMap (encode K k))).2 = put typed ∧
      (plain (telrcv H) s (typed.flatMap (encode K k))).1.state ∈ [TS.data, TS.cr] := by
  rcases hs with hs | ⟨hs, hh⟩
  · simp [plain_encoded hl hb hs, hs]
  · rcases typed with _ | ⟨c, l⟩
    · simp [put, hs]
    · obtain ⟨h0, hn⟩ := hh c rfl
      obtain ⟨m, hm⟩ := encode_head (K := K) k hn
      have hd := plain_encoded (s := { s with state := .data }) hl hb rfl (c :: l)
      rw [List.flatMap_cons, hm, List.cons_append] at hd ⊢
      rw [plain_after_cr hs h0 hn, hd]
      simp

/-! ## The whole way -/

/-- What is typed is what the pty gets, in whatever reads the client's output comes in,
    and telrcv is left in TS_DATA or TS_CR. -/
theorem keyboard_to_pty {k : Snd KEnv} {s : Rcv Env} (ks : List (List UInt8 × (List UInt8 → Bool)))
    {typed : List UInt8} (htyped : (ks.map Prod.fst).flatten = typed)
    (hk : Typing K k.env) (hesc : ∀ c ∈ typed, strip K k.env c ≠ K.escape k.env) (hsent : (sends K k [] ks).2.1 = [])
    (hline : H.linemode s.env = false) (hbin : K.binary k.env = H.binary s.env) (hs : Ready s typed)
    {fs : List (List UInt8 × (List Event → Bool))} (hcut : Cut H s (sends K k [] ks).2.2 fs) :
    delivered (received H s fs) = typed ∧ calls (received H s fs) = [] ∧
      (feed (telrcv H) s [] fs).1.state ∈ [TS.data, TS.cr] := by
  subst htyped
  obtain ⟨p, hp, hq⟩ := sends_typed [] hk (by simpa using hesc)
  rw [hsent] at hp
  simp only [List.nil_append, List.append_nil] at hp
  rw [hq, ← hp] at hcut
  obtain ⟨h1, h2⟩ := feed_of_data (Telnetd.program H) hs.frame (show IAC ∉ Telnetd.commands by decide)
    (Data.flatMap (data_encode k.env) _) (Telnetd.EndOfLine H) (fun t c x => Telnetd.telrcv_agrees H)
    (fun e c x he h => by rw [Telnetd.EndOfLine, he, hline] at h; simp at h) hcut.toBrings
  obtain ⟨h3, h4⟩ := plain_typed hk.localChars hbin hs
  refine ⟨?_, ?_, ?_⟩
  · rw [received, telrcv, h2]
    exact h3 ▸ delivered_put _
  · rw [received, telrcv, h2]
    exact h3 ▸ calls_put _
  · rw [telrcv, h1]
    exact h4

/-- A client with BINARY off, escape ^] and crlf off. -/
def keys : Keyboard Unit where
  rlogin := fun _ => vdisable
  escape := fun _ => 29
  echoc := fun _ => 5
  termEofChar := fun _ => 4
  termSuspChar := fun _ => 26
  binary := fun _ => false
  kludge := fun _ => false
  localChars := fun _ => false
  crlf := fun _ => false
  command := fun e _ => (e, [])
  toggleEcho := fun e => (e, [])
  special := fun e _ => (e, [], true)

/-- A server with BINARY and linemode off. -/
def server : Handlers Unit where
  command := fun e _ => (e, [])
  option := fun e _ _ => (e, [])
  suboption := fun e b => (e, b, [])
  linemode := fun _ => false
  binary := fun _ => false
  ttyIscrnl := fun _ => false

theorem sends_keys {typed : List UInt8} (h : ∀ c ∈ typed, strip keys () c ≠ 29) :
    (sends keys ⟨true, false, ()⟩ [] [(typed, fun _ => true)]).2 = ([], typed.flatMap (encode keys ())) := by
  have := telsnd_room (K := keys) (fun _ : List UInt8 => rfl) (s := ⟨true, false, ()⟩) (o := []) ⟨rfl, rfl, rfl⟩ h
  simp [sends, this]

theorem keys_apart : ∀ c ∈ [CR, LF, IAC], strip keys () c ≠ 29 := by
  simp [strip, keys]
  decide

/-- CR, LF and IAC typed, every byte in a read of its own. -/
theorem keyboard_to_pty_cr_lf_iac :
    delivered (received server (fresh ()) ([CR, NUL, LF, IAC, IAC].map single)) = [CR, LF, IAC] ∧
      calls (received server (fresh ()) ([CR, NUL, LF, IAC, IAC].map single)) = [] ∧
      (feed (telrcv server) (fresh ()) [] ([CR, NUL, LF, IAC, IAC].map single)).1.state ∈ [TS.data, TS.cr] :=
  have h : (sends keys ⟨true, false, ()⟩ [] [([CR, LF, IAC], fun _ => true)]).2 = ([], [CR, NUL, LF, IAC, IAC]) :=
    sends_keys keys_apart
  keyboard_to_pty (K := keys) (k := ⟨true, false, ()⟩) [([CR, LF, IAC], fun _ => true)] rfl
    ⟨rfl, rfl, rfl⟩ keys_apart (by rw [h]) rfl rfl (Or.inl rfl) (by rw [h]; exact Telnetd.cut_singles server _ _)

/-- In TS_CR an LF typed is taken for the second byte of the CR before it, and lost. -/
theorem keyboard_to_pty_from_cr :
    let typed := [LF]
    let sent := sends keys ⟨true, false, ()⟩ [] [(typed, fun _ => true)]
    let s : Rcv Unit := { fresh () with state := .cr }
    Typing keys () ∧ (∀ c ∈ typed, strip keys () c ≠ keys.escape ()) ∧ sent.2.1 = [] ∧
      server.linemode s.env = false ∧ keys.binary () = server.binary s.env ∧
      Cut server s sent.2.2 (sent.2.2.map single) ∧ delivered (received server s (sent.2.2.map single)) ≠ typed := by
  have hl : ∀ c ∈ [LF], strip keys () c ≠ 29 := List.forall_mem_singleton.2 (keys_apart LF (by simp))
  have h : (sends keys ⟨true, false, ()⟩ [] [([LF], fun _ => true)]).2 = ([], [LF]) := sends_keys hl
  refine ⟨⟨rfl, rfl, rfl⟩, hl, by rw [h], rfl, rfl, Telnetd.cut_singles server _ _, ?_⟩
  rw [h]
  decide

end Netutils.Session
