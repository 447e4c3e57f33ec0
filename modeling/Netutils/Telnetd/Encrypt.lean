/-
  Netutils.Telnetd.Encrypt — telnetd's network output buffer when the output may be
  encrypted: net_encrypt and netflush (telnetd/utility.c) with encrypt_start_output and
  encrypt_send_end (libtelnet/encrypt.c).

  nclearto tells what of the buffer has been through net_encrypt. The bytes sent, those of
  the buffer before nclearto, and those behind it once they are encrypted too, are together
  what was put in, each message in the mode that the START and END before it announce
  (`Held`). encrypt_start_output and encrypt_send_end switch the mode even where
  net_output_datalen has refused their message, so this needs that it finds room (`Announced`).
-/

import Netutils.Lib.Switching
import Netutils.Libtelnet.Encrypt
import Netutils.Telnetd.Output

namespace Netutils.Telnetd

open Netutils.Lib.Cells
open Netutils.Lib.Feedback (Mode Register)
open Netutils.Lib.Switching
open Netutils.Lib.Transition
open Netutils.Libtelnet

variable {Schedule : Type} (des : Des Schedule)

/-! ## The ciphers -/

/-- The routine that encrypt_output is set to. -/
def outputOf (c : Cipher) : Stinfo Schedule → List UInt8 → List UInt8 × Stinfo Schedule :=
  match c with
  | .cfb => cfb64Encrypt des
  | .ofb => ofb64Encrypt des

/-- The routine that the peer sets decrypt_input to. -/
def inputOf (c : Cipher) : Option UInt8 → Stinfo Schedule → UInt8 × Stinfo Schedule :=
  match c with
  | .cfb => cfb64Decrypt des
  | .ofb => ofb64Decrypt des

/-- One byte in the mode that is on; `none`: in clear. -/
def enc (mode : Option Cipher) (streams : Cipher → Stinfo Schedule) (b : UInt8) : UInt8 × (Cipher → Stinfo Schedule) :=
  match mode with
  | none => (b, streams)
  | some c =>
    let r := outputOf des c (streams c) [b]
    (r.1.headD 0, Function.update streams c r.2)

def dec (mode : Option Cipher) (streams : Cipher → Stinfo Schedule) (b : UInt8) : UInt8 × (Cipher → Stinfo Schedule) :=
  match mode with
  | none => (b, streams)
  | some c =>
    let r := inputOf des c (some b) (streams c)
    (r.1, Function.update streams c r.2)

/-! ## The buffer -/

structure Netcrypt (Schedule : Type) where
  buf : Netobuf
  /-- As an offset into netobuf; `none` is NULL. -/
  nclearto : Option Nat
  /-- encrypt_output -/
  output : Option Cipher
  /-- The encrypting streams. -/
  streams : Cipher → Stinfo Schedule
  /-- The messages that net_output_datalen has taken; a START or END switches. -/
  put : List (Piece (Option Cipher) UInt8)
  /-- The bytes that have been passed to the ciphers. -/
  passed : List (Cipher × UInt8)

namespace Netcrypt

def init (not42 : Bool) (streams : Cipher → Stinfo Schedule) : Netcrypt Schedule := ⟨.init not42, none, none, streams, [], []⟩

/-- `(nclearto > nbackp) ? nclearto : nbackp` -/
def clear (s : Netcrypt Schedule) : Nat :=
  match s.nclearto with
  | some c => if c > s.buf.nbackp then c else s.buf.nbackp
  | none => s.buf.nbackp

def netEncrypt (s : Netcrypt Schedule) : Netcrypt Schedule :=
  let s :=
    match s.output with
    | some c =>
      if s.clear < s.buf.nfrontp then
        let r := outputOf des c (s.streams c) (slice s.buf.mem s.clear s.buf.nfrontp)
        { s with
          buf := { s.buf with mem := store s.buf.mem s.clear r.1 }
          streams := Function.update s.streams c r.2
          passed := s.passed ++ (slice s.buf.mem s.clear s.buf.nfrontp).map (c, ·) }
      else s
    | none => s
  { s with nclearto := some s.buf.nfrontp }

/-- netflush from `nbackp += n` on. -/
def flushed (s : Netcrypt Schedule) (n : Nat) : Netcrypt Schedule :=
  let back := s.buf.nbackp + n
  { s with
    buf := s.buf.flushed n
    nclearto := if back = s.buf.nfrontp then none else s.nclearto.filter (back ≤ ·) }

def netflush (s : Netcrypt Schedule) (taken : Option Nat) : Netcrypt Schedule :=
  if s.buf.nfrontp - s.buf.nbackp > 0 then
    let s := s.netEncrypt des
    match taken with
    | none => s
    | some n => s.flushed (min n s.buf.offered)
  else s.flushed 0

def netOutputDatalen (s : Netcrypt Schedule) (msg : Piece (Option Cipher) UInt8) (taken : Option Nat) : Netcrypt Schedule :=
  let s := if s.buf.remaining < msg.items.length then s.netflush des taken else s
  if s.buf.remaining < msg.items.length then s
  else
    { s with
      buf := { s.buf.write msg.items with nfrontp := s.buf.nfrontp + msg.items.length }
      put := s.put ++ [msg] }

/-- encrypt_start_output, once fb64_start has found that all is agreed; `keyid` is that of
    ki[0]. -/
def startOutput (s : Netcrypt Schedule) (c : Cipher) (keyid : List UInt8) (taken : Option Nat) : Netcrypt Schedule :=
  { (s.netOutputDatalen des ⟨(Message.start keyid).bytes, some (some c)⟩ taken).netEncrypt des with output := some c }

/-- encrypt_send_end -/
def sendEnd (s : Netcrypt Schedule) (taken : Option Nat) : Netcrypt Schedule :=
  if s.output = none then s
  else { (s.netOutputDatalen des ⟨Message.stop.bytes, some none⟩ taken).netEncrypt des with output := none }

end Netcrypt

/-! ## Runs -/

inductive Netcrypt.Op where
  | append (msg : List UInt8) (taken : Option Nat)
  | startOutput (c : Cipher) (keyid : List UInt8) (taken : Option Nat)
  | sendEnd (taken : Option Nat)
  | flush (taken : Option Nat)

namespace Netcrypt

def step (a : Op) (s : Netcrypt Schedule) : Option (Netcrypt Schedule) :=
  match a with
  | .append msg taken => some (s.netOutputDatalen des ⟨msg, none⟩ taken)
  | .startOutput c keyid taken => some (s.startOutput des c keyid taken)
  | .sendEnd taken => some (s.sendEnd des taken)
  | .flush taken => some (s.netflush des taken)

/-- net_output_datalen finds room for `l` bytes, behind what waits or in the buffer that its
    flush has emptied. -/
def Finds (s : Netobuf) (l : Nat) (taken : Option Nat) : Prop :=
  l ≤ BUFSIZ - s.nfrontp ∨ s.drains taken ∧ l ≤ BUFSIZ

instance (s : Netobuf) (l : Nat) (taken : Option Nat) : Decidable (Finds s l taken) :=
  inferInstanceAs (Decidable (_ ∨ _))

/-- A START or END that changes the mode finds room. -/
def Announced (a : Op) (s : Netcrypt Schedule) : Prop :=
  match a with
  | .startOutput c keyid taken => s.output = some c ∨ Finds s.buf (Message.start keyid).bytes.length taken
  | .sendEnd taken => s.output = none ∨ Finds s.buf Message.stop.bytes.length taken
  | _ => True

instance (a : Op) (s : Netcrypt Schedule) : Decidable (Announced a s) := by
  cases a <;> first | exact inferInstanceAs (Decidable (_ ∨ _)) | exact .isTrue trivial

/-! ## What the ciphers do with a run of bytes -/

variable {des}

theorem outputOf_cons (c : Cipher) (stp : Stinfo Schedule) (b : UInt8) (l : List UInt8) :
    outputOf des c stp (b :: l) =
      ((outputOf des c stp [b]).1.headD 0 :: (outputOf des c (outputOf des c stp [b]).2 l).1,
        (outputOf des c (outputOf des c stp [b]).2 l).2) := by
  cases c <;> rfl

theorem outputOf_nil (c : Cipher) (stp : Stinfo Schedule) : outputOf des c stp [] = ([], stp) := by
  cases c <;> rfl

theorem code_some (c : Cipher) (streams : Cipher → Stinfo Schedule) (l : List UInt8) :
    code (enc des) (some c) streams l =
      ((outputOf des c (streams c) l).1, Function.update streams c (outputOf des c (streams c) l).2) := by
  induction l generalizing streams with
  | nil => simp [code, outputOf_nil]
  | cons b l ih => rw [outputOf_cons, code, ih]; simp [enc]

theorem code_none (streams : Cipher → Stinfo Schedule) (l : List UInt8) : code (enc des) none streams l = (l, streams) := by
  induction l with
  | nil => rfl
  | cons b l ih => rw [code, enc, ih]

/-- The peer's streams are where telnetd's are. -/
def InStep (des : Des Schedule) (s t : Cipher → Stinfo Schedule) : Prop :=
  ∀ c, Keyed des (s c) ∧ Keyed des (t c) ∧ (t c).strIkey = (s c).strIkey ∧ (t c).register = (s c).register

/-- The mode that a cipher's routines drive their streams in. -/
def modeOf : Cipher → Mode
  | .cfb => .cfb
  | .ofb => .ofb

theorem drives_outputOf (c : Cipher) : Drives des (modeOf c) (outputOf des c) := by
  cases c with
  | cfb => exact drives_cfb
  | ofb => exact drives_ofb

theorem undrives_inputOf (c : Cipher) : Undrives des (modeOf c) (inputOf des c) := by
  cases c with
  | cfb => exact undrives_cfb
  | ofb => exact undrives_ofb

theorem decodes : Decodes (enc des) (dec des) (InStep des) := by
  intro m s t b hR
  rcases m with _ | c
  · exact ⟨rfl, hR⟩
  · obtain ⟨hs, ht, hkey, hreg⟩ := hR c
    obtain ⟨h1, h2, h3, h4⟩ := drives_outputOf c (s c) [b] hs
    have hx : (enc des (some c) s b).1 = b ^^^ (s c).register.mask (modeOf c) (blockFunction des (s c).strIkey) := by
      simp only [enc, h1, Register.code, List.headD_cons]
    obtain ⟨h5, h6, h7, h8⟩ := (undrives_inputOf c).2 (t c) (enc des (some c) s b).1 ht
    rw [hkey, hreg] at h5 h6
    refine ⟨?_, ?_⟩
    · show (inputOf des c (some _) (t c)).1 = b
      rw [h5, hx, xor_xor]
    · intro d
      by_cases hd : d = c
      · subst hd
        simp only [enc, dec, Function.update_self]
        refine ⟨h4, h8, h7.trans (hkey.trans h3.symm), ?_⟩
        have hsame : (outputOf des d (s d) [b]).2.register =
            (s d).register.absorb (modeOf d) (blockFunction des (s d).strIkey) (enc des (some d) s b).1 := by
          rw [h2, hx]
          rfl
        exact h6.trans hsame.symm
      · simp only [enc, dec, Function.update_of_ne hd]
        exact hR d

/-! ## What the buffer holds -/

/-- The bytes that are to be passed to a cipher, with the cipher. -/
def ciphered (l : List (Option Cipher × UInt8)) : List (Cipher × UInt8) := l.filterMap fun x => x.1.map (·, x.2)

/-- The bytes of the buffer that net_encrypt has not seen. -/
def fresh (s : Netcrypt Schedule) : List UInt8 := slice s.buf.mem s.clear s.buf.nfrontp

/-- The messages `ps` are what was sent, what waits encrypted, and what is still to be, from
    the streams `first` on. -/
structure Held (des : Des Schedule) (first : Cipher → Stinfo Schedule) (ps : List (Piece (Option Cipher) UInt8))
    (s : Netcrypt Schedule) : Prop where
  buf : s.buf.Inv
  neturg : s.buf.neturg = none
  clear : s.clear ≤ s.buf.nfrontp
  sent :
    let r := code (enc des) s.output s.streams s.fresh
    send (enc des) none first ps = (s.buf.sent ++ slice s.buf.mem s.buf.nbackp s.clear ++ r.1, s.output, r.2)
  passed : ∃ done, modes none ps = done ++ s.fresh.map (s.output, ·) ∧ s.passed = ciphered done

theorem ciphered_append (l l' : List (Option Cipher × UInt8)) : ciphered (l ++ l') = ciphered l ++ ciphered l' :=
  List.filterMap_append

theorem ciphered_map (m : Option Cipher) (l : List UInt8) :
    ciphered (l.map (m, ·)) = (m.map fun c => l.map (c, ·)).getD [] := by
  unfold ciphered
  rcases m with _ | c
  · simp
  · simp

theorem nbackp_le_clear (s : Netcrypt Schedule) : s.buf.nbackp ≤ s.clear := by
  unfold clear
  split
  · split <;> omega
  · exact Nat.le_refl _

variable {first : Cipher → Stinfo Schedule} {ps : List (Piece (Option Cipher) UInt8)} {s t : Netcrypt Schedule}

theorem Held.mode (h : Held des first ps s) : modeAfter none ps = s.output := by
  rw [← send_mode (enc des) none first ps, h.sent]

/-- net_encrypt codes the fresh bytes where they are, and passes them on if a cipher is on. -/
theorem netEncrypt_spec (des : Des Schedule) (hclear : s.clear ≤ s.buf.nfrontp) : ∃ mem streams passed,
    s.netEncrypt des = { s with
      buf := { s.buf with mem := mem }, streams := streams, passed := passed, nclearto := some s.buf.nfrontp } ∧
    slice mem s.buf.nbackp s.clear = slice s.buf.mem s.buf.nbackp s.clear ∧
    code (enc des) s.output s.streams s.fresh = (slice mem s.clear s.buf.nfrontp, streams) ∧
    passed = s.passed ++ ciphered (s.fresh.map (s.output, ·)) := by
  have hsame : slice s.buf.mem s.buf.nbackp s.clear = slice s.buf.mem s.buf.nbackp s.clear := rfl
  rcases ho : s.output with _ | c
  · refine ⟨s.buf.mem, s.streams, s.passed, ?_, hsame, code_none _ _, ?_⟩
    · simp only [netEncrypt, ho]
    · simp [ciphered_map]
  · by_cases hlt : s.clear < s.buf.nfrontp
    · have hlen : (outputOf des c (s.streams c) s.fresh).1.length = s.buf.nfrontp - s.clear := by
        have := length_code (enc des) (some c) s.streams s.fresh
        rw [code_some] at this
        rw [this]
        simp [fresh]
      have hback := slice_store_same (m := s.buf.mem) (i := s.clear) (outputOf des c (s.streams c) s.fresh).1
      rw [hlen, Nat.add_sub_cancel' hclear] at hback
      refine ⟨store s.buf.mem s.clear (outputOf des c (s.streams c) s.fresh).1,
        Function.update s.streams c (outputOf des c (s.streams c) s.fresh).2,
        s.passed ++ s.fresh.map (c, ·), ?_, slice_store_before _ (Nat.le_refl _), ?_, ?_⟩
      · simp only [netEncrypt, ho, if_pos hlt]
        rfl
      · rw [code_some, hback]
      · rw [ciphered_map]
        rfl
    · have heq : s.clear = s.buf.nfrontp := by omega
      have hnone : s.fresh = [] := by rw [fresh, heq, slice_self]
      refine ⟨s.buf.mem, s.streams, s.passed, ?_, hsame, ?_, ?_⟩
      · simp only [netEncrypt, ho, if_neg hlt]
      · rw [hnone, heq, slice_self]
        rfl
      · rw [hnone]
        exact (List.append_nil _).symm

/-- net_encrypt leaves nothing fresh, and the rest as it is. -/
theorem held_netEncrypt (h : Held des first ps s) :
    Held des first ps (s.netEncrypt des) ∧ (s.netEncrypt des).clear = s.buf.nfrontp ∧
      (s.netEncrypt des).put = s.put ∧ (s.netEncrypt des).output = s.output ∧
      ∃ mem, (s.netEncrypt des).buf = { s.buf with mem := mem } := by
  have hb := h.buf
  obtain ⟨mem, streams, passed, he, hback, hcode, hpassed⟩ := netEncrypt_spec des h.clear
  have hdone : (s.netEncrypt des).clear = s.buf.nfrontp := by
    have hle := hb.le
    rw [he]
    show (if s.buf.nfrontp > s.buf.nbackp then s.buf.nfrontp else s.buf.nbackp) = _
    split <;> omega
  have hfresh : (s.netEncrypt des).fresh = [] := by
    rw [fresh, hdone, he, slice_self]
  refine ⟨⟨?_, ?_, ?_, ?_, ?_⟩, hdone, by rw [he], by rw [he], mem, by rw [he]⟩
  · rw [he]
    exact ⟨hb.le, hb.front, hb.top, hb.urg⟩
  · rw [he]
    exact h.neturg
  · rw [hdone, he]
  · have hall := slice_append (m := mem) (nbackp_le_clear s) h.clear
    have hsent := h.sent
    simp only [hcode] at hsent
    rw [hfresh, hdone, hsent, he]
    show _ = (s.buf.sent ++ slice mem s.buf.nbackp s.buf.nfrontp ++ [], s.output, streams)
    rw [← hall, hback, List.append_nil, List.append_assoc]
  · obtain ⟨done, h1, h2⟩ := h.passed
    rw [hfresh, he]
    refine ⟨done ++ s.fresh.map (s.output, ·), by rw [h1]; simp, ?_⟩
    show passed = _
    rw [hpassed, h2, ciphered_append]

/-- The network takes bytes of a buffer with nothing fresh in it. -/
theorem held_flushed (h : Held des first ps s) (hc : s.clear = s.buf.nfrontp) {n : Nat}
    (hn : n ≤ s.buf.nfrontp - s.buf.nbackp) : Held des first ps (s.flushed n) := by
  have hle := h.buf.le
  have hinv := Netobuf.inv_flushed h.buf hn
  have hmem : (s.flushed n).buf.mem = s.buf.mem := by
    simp only [flushed, Netobuf.flushed]
    split <;> rfl
  have hstream := Netobuf.stream_flushed h.buf hn
  have hurg : (s.flushed n).buf.neturg = none := by
    simp only [flushed, Netobuf.flushed]
    split <;> rw [show s.buf.neturg = none from h.neturg] <;> rfl
  -- what is left is done too
  have hclear : (s.flushed n).clear = (s.flushed n).buf.nfrontp := by
    have hcl := hc
    unfold clear at hcl ⊢
    simp only [flushed, Netobuf.flushed]
    by_cases hd : s.buf.nbackp + n = s.buf.nfrontp
    · simp [hd]
    · simp only [if_neg hd]
      rcases hnc : s.nclearto with _ | c
      · rw [hnc] at hcl
        simp only at hcl
        omega
      · rw [hnc] at hcl
        simp only at hcl
        have hc' : c = s.buf.nfrontp := by split at hcl <;> omega
        have hkeep : s.buf.nbackp + n ≤ c := by omega
        simp only [Option.filter, decide_eq_true hkeep, if_true]
        split <;> omega
  have hfresh : (s.flushed n).fresh = [] := by rw [fresh, hclear, slice_self]
  have hnone : s.fresh = [] := by rw [fresh, hc, slice_self]
  refine ⟨hinv, hurg, by rw [hclear], ?_, ?_⟩
  · have hsent := h.sent
    rw [hnone, hc] at hsent
    rw [hfresh, hclear, hsent]
    have hs : (s.flushed n).buf.sent ++ slice (s.flushed n).buf.mem (s.flushed n).buf.nbackp (s.flushed n).buf.nfrontp =
        s.buf.sent ++ slice s.buf.mem s.buf.nbackp s.buf.nfrontp := hstream
    rw [← hs]
    rfl
  · rw [hfresh]
    have hp := h.passed
    rw [hnone] at hp
    exact hp

theorem held_netflush (h : Held des first ps s) (taken : Option Nat) :
    Held des first ps (s.netflush des taken) ∧ (s.netflush des taken).put = s.put ∧
      (s.netflush des taken).output = s.output ∧
      (s.netflush des taken).buf.nfrontp = if s.buf.drains taken then 0 else s.buf.nfrontp := by
  have hle := h.buf.le
  have hfront := Netobuf.netflush_nfrontp h.buf taken
  unfold netflush
  unfold Netobuf.netflush at hfront
  by_cases hp : s.buf.nfrontp - s.buf.nbackp > 0
  · rw [if_pos hp] at hfront ⊢
    obtain ⟨h1, h2, h3, h4, mem, h5⟩ := held_netEncrypt h
    rcases taken with _ | n
    · exact ⟨h1, h3, h4, by rw [h5]; exact hfront⟩
    · have hc : (s.netEncrypt des).clear = (s.netEncrypt des).buf.nfrontp := by rw [h2, h5]
      have hoff := h1.buf.offered_le
      refine ⟨held_flushed h1 hc (Nat.le_trans (Nat.min_le_right _ _) hoff), h3, h4, ?_⟩
      rw [← hfront]
      show ((s.netEncrypt des).buf.flushed (min n (s.netEncrypt des).buf.offered)).nfrontp =
        (s.buf.flushed (min n s.buf.offered)).nfrontp
      rw [Netobuf.flushed_nfrontp, Netobuf.flushed_nfrontp, h5]
      rfl
  · rw [if_neg hp] at hfront ⊢
    have hc : s.clear = s.buf.nfrontp := by
      have := h.clear
      have := nbackp_le_clear s
      omega
    exact ⟨held_flushed h hc (Nat.zero_le _), rfl, rfl, hfront⟩

/-- Bytes that find room are fresh. -/
theorem held_write (h : Held des first ps s) {l : List UInt8} (hl : s.buf.nfrontp + l.length ≤ BUFSIZ)
    (put : List (Piece (Option Cipher) UInt8)) :
    Held des first (ps ++ [⟨l, none⟩])
      { s with buf := { s.buf.write l with nfrontp := s.buf.nfrontp + l.length }, put := put } := by
  obtain ⟨t, ht⟩ : ∃ t : Netcrypt Schedule,
      t = { s with buf := { s.buf.write l with nfrontp := s.buf.nfrontp + l.length }, put := put } := ⟨_, rfl⟩
  have hclear := h.clear
  have hinv := Netobuf.inv_put h.buf l [] (by rw [List.append_nil]; exact hl)
  rw [List.append_nil] at hinv
  have hsame : t.clear = s.clear := by rw [ht]; rfl
  have hfresh : t.fresh = s.fresh ++ l := by
    rw [fresh, hsame, ht]
    exact slice_store l hclear
  have hdone : slice t.buf.mem t.buf.nbackp t.clear = slice s.buf.mem s.buf.nbackp s.clear := by
    rw [hsame, ht]
    exact slice_store_before l hclear
  rw [← ht]
  refine ⟨?_, ?_, ?_, ?_, ?_⟩
  · rw [ht]
    exact hinv
  · rw [ht]
    exact h.neturg
  · rw [hsame, ht]
    exact Nat.le_trans hclear (Nat.le_add_right _ _)
  · have hsent := h.sent
    simp only at hsent
    obtain ⟨h1, h2, h3⟩ : t.buf.sent = s.buf.sent ∧ t.output = s.output ∧ t.streams = s.streams := by
      rw [ht]
      exact ⟨rfl, rfl, rfl⟩
    simp only [send_concat, hsent, hfresh, hdone, h1, h2, h3, code_append, Option.getD_none, List.append_assoc]
  · obtain ⟨done, h1, h2⟩ := h.passed
    refine ⟨done, ?_, by rw [ht]; exact h2⟩
    rw [modes_concat, h.mode, h1, hfresh, List.map_append, List.append_assoc, ht]

/-- net_output_datalen appends its message where it finds room, and else nothing. It does
    not matter yet what the message switches. -/
theorem held_netOutputDatalen (h : Held des first ps s) (msg : Piece (Option Cipher) UInt8) (taken : Option Nat) :
    (s.netOutputDatalen des msg taken).output = s.output ∧
      if Finds s.buf msg.items.length taken then
        Held des first (ps ++ [⟨msg.items, none⟩]) (s.netOutputDatalen des msg taken) ∧
          (s.netOutputDatalen des msg taken).put = s.put ++ [msg]
      else Held des first ps (s.netOutputDatalen des msg taken) ∧ (s.netOutputDatalen des msg taken).put = s.put := by
  obtain ⟨u, hu⟩ : ∃ u, u = if s.buf.remaining < msg.items.length then s.netflush des taken else s := ⟨_, rfl⟩
  have hrem := h.buf.remaining
  have hspec : Held des first ps u ∧ u.put = s.put ∧ u.output = s.output ∧
      (u.buf.remaining < msg.items.length ↔ ¬ Finds s.buf msg.items.length taken) := by
    rw [hu]
    by_cases hf : s.buf.remaining < msg.items.length
    · rw [if_pos hf]
      obtain ⟨h1, h2, h3, h4⟩ := held_netflush h taken
      refine ⟨h1, h2, h3, ?_⟩
      rw [h1.buf.remaining, h4]
      unfold Finds
      cases s.buf.drains taken
      · simp only [Bool.false_eq_true, if_false, false_and, or_false]
        omega
      · simp only [if_true, true_and, Nat.sub_zero]
        omega
    · rw [if_neg hf]
      refine ⟨h, rfl, rfl, ?_⟩
      unfold Finds
      omega
  obtain ⟨hi, hput, hout, hroom⟩ := hspec
  unfold netOutputDatalen
  simp only
  rw [← hu]
  by_cases hf : Finds s.buf msg.items.length taken
  · have hlt : ¬ u.buf.remaining < msg.items.length := fun hr => hroom.mp hr hf
    have hfront := hi.buf.front
    have hrem' := hi.buf.remaining
    rw [if_neg hlt, if_pos hf]
    exact ⟨hout, held_write hi (by omega) _, congrArg (· ++ [msg]) hput⟩
  · rw [if_pos (hroom.mpr hf), if_neg hf]
    exact ⟨hout, hi, hput⟩

/-- Where nothing is fresh the mode is switched, and the last message has done so. -/
theorem held_switch {l : List UInt8} (h : Held des first (ps ++ [⟨l, none⟩]) s) (hc : s.clear = s.buf.nfrontp)
    (mode : Option Cipher) : Held des first (ps ++ [⟨l, some mode⟩]) { s with output := mode } := by
  have hfresh : s.fresh = [] := by rw [fresh, hc, slice_self]
  refine ⟨h.buf, h.neturg, h.clear, ?_, ?_⟩
  · have hsent := h.sent
    show send (enc des) none first (ps ++ [⟨l, some mode⟩]) =
      (s.buf.sent ++ slice s.buf.mem s.buf.nbackp s.clear ++ (code (enc des) mode s.streams s.fresh).1, mode,
        (code (enc des) mode s.streams s.fresh).2)
    rw [hfresh] at hsent ⊢
    simp only [send_concat, Option.getD_some, Option.getD_none, code, Prod.mk.injEq] at hsent ⊢
    exact ⟨hsent.1, trivial, hsent.2.2⟩
  · obtain ⟨done, h1, h2⟩ := h.passed
    refine ⟨done, ?_, h2⟩
    show modes none (ps ++ [⟨l, some mode⟩]) = done ++ s.fresh.map (mode, ·)
    rw [hfresh, modes_concat] at h1 ⊢
    exact h1

/-- START or END: what comes before is done in the old mode. -/
theorem held_announce (h : Held des first s.put s) {msg : List UInt8} {mode : Option Cipher} {taken : Option Nat}
    (hf : s.output = mode ∨ Finds s.buf msg.length taken)
    (ht : t = { (s.netOutputDatalen des ⟨msg, some mode⟩ taken).netEncrypt des with output := mode }) :
    Held des first t.put t := by
  obtain ⟨hout, hput⟩ := held_netOutputDatalen h ⟨msg, some mode⟩ taken
  split at hput
  · obtain ⟨h1, h2, h3, -, mem, h4⟩ := held_netEncrypt hput.1
    have hc : ((s.netOutputDatalen des ⟨msg, some mode⟩ taken).netEncrypt des).clear =
        ((s.netOutputDatalen des ⟨msg, some mode⟩ taken).netEncrypt des).buf.nfrontp := by rw [h2, h4]
    have hput' : t.put = s.put ++ [⟨msg, some mode⟩] := by
      rw [ht, ← hput.2]
      exact h3
    rw [hput', ht]
    exact held_switch h1 hc mode
  · -- nothing was appended, but the mode stays
    rename_i hno
    obtain ⟨h1, -, h3, h4, -⟩ := held_netEncrypt hput.1
    have hstay : ((s.netOutputDatalen des ⟨msg, some mode⟩ taken).netEncrypt des).output = mode :=
      h4.trans (hout.trans (hf.resolve_right hno))
    have hsame : t = (s.netOutputDatalen des ⟨msg, some mode⟩ taken).netEncrypt des := by
      rw [ht]
      nth_rewrite 2 [← hstay]
      rfl
    have hput' : t.put = s.put := by
      rw [hsame]
      exact h3.trans hput.2
    rw [hput', hsame]
    exact h1

theorem held_step {a : Op} (h : Held des first s.put s) (ha : Announced a s) (hs : step des a s = some t) :
    Held des first t.put t := by
  cases a with
  | append msg taken =>
    obtain rfl := Option.some.inj hs
    obtain ⟨-, hput⟩ := held_netOutputDatalen h ⟨msg, none⟩ taken
    split at hput
    · rw [hput.2]
      exact hput.1
    · rw [hput.2]
      exact hput.1
  | startOutput c keyid taken => exact held_announce h ha (Option.some.inj hs).symm
  | sendEnd taken =>
    have hs := (Option.some.inj hs).symm
    unfold sendEnd at hs
    split at hs
    · rw [hs]
      exact h
    · exact held_announce h ha hs
  | flush taken =>
    obtain rfl := Option.some.inj hs
    obtain ⟨h1, h2, -⟩ := held_netflush h taken
    rw [h2]
    exact h1

theorem held_init (des : Des Schedule) (not42 : Bool) (streams : Cipher → Stinfo Schedule) :
    Held des streams [] (init not42 streams) :=
  ⟨inv_init not42, rfl, Nat.le_refl _, rfl, [], rfl, rfl⟩

/-! ## What the peer makes of it -/

/-- The bytes sent are those put in, each coded in the mode announced before it, up to some
    place; the ciphers were passed those of them that are not in clear, in order and no more
    than once; and a receiver that starts in step, and switches where a START or END ends,
    has all bytes put in back but for as many as are still waiting. -/
structure Enciphered (des : Des Schedule) (first : Cipher → Stinfo Schedule) (t : Netcrypt Schedule) : Prop where
  sent : ∃ rest, t.buf.sent ++ rest = (send (enc des) none first t.put).1
  passed : ∃ done later, done ++ later = modes none t.put ∧ t.passed = ciphered done ∧ t.buf.sent.length ≤ done.length
  received : ∀ streams announces, InStep des first streams → Recognizes announces [] t.put →
    ∃ rest, (t.buf.sent.foldl (Receiver.take (dec des) announces) ⟨none, streams, []⟩).got ++ rest = plain t.put ∧
      rest.length = t.buf.pending.length

theorem length_modes (m : Option Cipher) (ps : List (Piece (Option Cipher) UInt8)) :
    (modes m ps).length = (plain ps).length := by
  induction ps generalizing m with
  | nil => rfl
  | cons p ps ih => simp [modes, plain, ih]

theorem Held.enciphered (h : Held des first t.put t) : Enciphered des first t := by
  have hle := nbackp_le_clear t
  have hclear := h.clear
  have hsent := congrArg Prod.fst h.sent
  simp only at hsent
  refine ⟨⟨_, (List.append_assoc _ _ _).symm.trans hsent.symm⟩, ?_, ?_⟩
  · obtain ⟨done, h1, h2⟩ := h.passed
    refine ⟨done, _, h1.symm, h2, ?_⟩
    have hlen := congrArg List.length h1
    have hall := length_send (enc des) none first t.put
    rw [hsent] at hall
    simp only [length_modes, List.length_append, List.length_map, length_code, length_slice] at hlen hall
    omega
  · intro streams announces hR hrec
    rw [List.append_assoc] at hsent
    obtain ⟨rest, h1, h2⟩ := recovers_part (m := none) decodes hR hrec hsent.symm
    refine ⟨rest, h1, h2.trans ?_⟩
    simp only [List.length_append, length_code, length_slice, fresh, Netobuf.pending]
    omega

/-- In a run where each START and END that changes the mode finds room, all that telnetd has
    sent is in the mode that was announced. -/
theorem run_enciphered {not42 : Bool} {streams : Cipher → Stinfo Schedule} {ops : List Op} {t : Netcrypt Schedule}
    (h : run (step des) ops (init not42 streams) = some t) (hm : Meets (step des) Announced ops (init not42 streams)) :
    Enciphered des streams t := by
  have hheld : Held des streams t.put t := run_inv_meets (P := fun s => Held des streams s.put s)
    (fun a _ _ hs ha => held_step hs ha) (held_init des not42 streams) hm h
  exact hheld.enciphered

/-- Streams with a key and a vector. -/
def keyed : Cipher → Stinfo Block := fun _ =>
  fb64StreamIv adding (Vector.replicate 8 1) (fb64StreamKey adding (Vector.replicate 8 2) (Stinfo.cleared adding))

/-- A receiver that knows one START, of CFB with the key id 0, and END. -/
def announces (got : List UInt8) : Option (Option Cipher) :=
  if (Message.start [0]).bytes <:+ got then some (some .cfb) else if Message.stop.bytes <:+ got then some none else none

/-- Encryption is turned on and off, with one write that ends within the START. -/
theorem run_enciphered_on_and_off :
    let ops : List Op := [.append [65] none, .startOutput .cfb [0] none, .append [66, 67] none, .flush (some 5),
      .sendEnd none, .append [68] none, .flush (some 30)]
    ∃ t, run (step adding) ops (init false keyed) = some t ∧ Enciphered adding keyed t ∧
      InStep adding keyed keyed ∧ Recognizes announces [] t.put := by
  intro ops
  obtain ⟨t, ht⟩ : ∃ t, t = run (step adding) ops (init false keyed) := ⟨_, rfl⟩
  have h : t.map (fun t => decide (Recognizes announces [] t.put)) = some true := by
    rw [ht]
    decide +kernel
  obtain ⟨t, rfl, hrec⟩ := Option.map_eq_some_iff.mp h
  exact ⟨t, ht.symm, run_enciphered ht.symm (by decide +kernel), fun _ => ⟨rfl, rfl, rfl, rfl⟩, of_decide_eq_true hrec⟩

/-! ## A START that is refused -/

/-- A buffer that `big` fills. -/
def full (big : List UInt8) (top : Nat) (nclearto : Option Nat) (output : Option Cipher) : Netcrypt Block :=
  ⟨⟨store (fun _ => 0) 0 big, 0, BUFSIZ, none, false, top, []⟩, nclearto, output, keyed, [⟨big, none⟩], []⟩

theorem append_full {big : List UInt8} (hb : big.length = BUFSIZ) :
    ∃ top, (init false keyed).netOutputDatalen adding ⟨big, none⟩ none = full big top none none := by
  refine ⟨if big = [] then 0 else max 0 (0 + big.length), ?_⟩
  have hroom : ¬ (init false keyed).buf.remaining < big.length := by
    rw [hb]
    decide
  simp only [netOutputDatalen, if_neg hroom]
  simp only [full, init, Netobuf.init, Netobuf.write, hb, Nat.zero_add, List.nil_append]

theorem netEncrypt_full (big : List UInt8) (top : Nat) (nclearto : Option Nat) :
    (full big top nclearto none).netEncrypt adding = full big top (some BUFSIZ) none := rfl

/-- The START is refused, and the mode is switched. -/
theorem startOutput_full (big : List UInt8) (top : Nat) (keyid : List UInt8) :
    (full big top none none).startOutput adding .cfb keyid none = full big top (some BUFSIZ) (some .cfb) := by
  have hpending : (full big top none none).buf.nfrontp - (full big top none none).buf.nbackp > 0 :=
    show BUFSIZ - 0 > 0 by decide
  have hflush : (full big top none none).netflush adding none = full big top (some BUFSIZ) none := by
    rw [netflush, if_pos hpending, netEncrypt_full]
  have hroom : ∀ nclearto, (full big top nclearto none).buf.remaining < (Message.start keyid).bytes.length := by
    intro nclearto
    have hnone : (full big top nclearto none).buf.remaining = 0 :=
      show (BUFSIZ + sizeRange - BUFSIZ) % sizeRange = 0 by decide
    rw [hnone]
    simp [Message.bytes]
  rw [startOutput, netOutputDatalen]
  simp only [if_pos (hroom _), hflush, netEncrypt_full]
  rfl

theorem netflush_full (big : List UInt8) (top : Nat) :
    (full big top (some BUFSIZ) (some .cfb)).netflush adding (some BUFSIZ) =
      ⟨⟨store (fun _ => 0) 0 big, 0, 0, none, false, top, slice (store (fun _ => 0) 0 big) 0 BUFSIZ⟩, none, some .cfb,
        keyed, [⟨big, none⟩], []⟩ := by
  have hpos : BUFSIZ > 0 := by decide
  unfold full
  generalize BUFSIZ = n at hpos ⊢
  simp [netflush, netEncrypt, clear, flushed, Netobuf.flushed, Netobuf.offered, hpos]

/-- What waits is sent in clear, and a byte behind it encrypted. -/
theorem after_full (big : List UInt8) (top : Nat) :
    let t := (((full big top (some BUFSIZ) (some .cfb)).netflush adding (some BUFSIZ)).netOutputDatalen adding
      ⟨[66], none⟩ none).netflush adding (some 1)
    t.buf.sent = slice (store (fun _ => 0) 0 big) 0 BUFSIZ ++ [65] ∧ t.put = [⟨big, none⟩, ⟨[66], none⟩] := by
  rw [netflush_full]
  generalize slice (store (fun _ => 0) 0 big) 0 BUFSIZ = sent
  generalize store (fun _ => 0) 0 big = mem
  have happend : (⟨⟨mem, 0, 0, none, false, top, sent⟩, none, some .cfb, keyed, [⟨big, none⟩], []⟩ :
      Netcrypt Block).netOutputDatalen adding ⟨[66], none⟩ none =
        ⟨⟨store mem 0 [66], 0, 1, none, false, max top 1, sent⟩, none, some .cfb, keyed,
          [⟨big, none⟩, ⟨[66], none⟩], []⟩ := by
    have hroom : ∀ top, ¬ (⟨mem, 0, 0, none, false, top, sent⟩ : Netobuf).remaining < 1 :=
      fun _ => show ¬ (BUFSIZ + sizeRange - 0) % sizeRange < 1 by decide
    rw [netOutputDatalen]
    simp only [List.length_singleton, if_neg (hroom _)]
    rfl
  have hsame : slice (store mem 0 [66]) 0 1 = [66] := slice_store_same [66]
  have henc : (outputOf adding .cfb (keyed .cfb) [66]).1 = [65] := by decide +kernel
  have hsent : slice (store (store mem 0 [66]) 0 [65]) 0 1 = [65] := slice_store_same [65]
  rw [happend]
  simp [netflush, netEncrypt, clear, flushed, Netobuf.flushed, Netobuf.offered, hsame, henc, hsent]

/-- A buffer that waits to be sent leaves no room for a START; after it what telnetd sends is
    encrypted and the peer has not been told. -/
theorem refused_start_unannounced :
    ∃ t, run (step adding) [.append (List.replicate 8192 65) none, .startOutput .cfb [0] none, .flush (some 8192),
        .append [66] none, .flush (some 1)] (init false keyed) = some t ∧ ¬ Enciphered adding keyed t := by
  obtain ⟨big, hbig⟩ : ∃ big : List UInt8, big = List.replicate 8192 65 := ⟨_, rfl⟩
  have hb : big.length = BUFSIZ := by rw [hbig, List.length_replicate]; rfl
  rw [← hbig]
  obtain ⟨top, h1⟩ := append_full hb
  obtain ⟨hsent, hput⟩ := after_full big top
  refine ⟨(((full big top (some BUFSIZ) (some .cfb)).netflush adding (some BUFSIZ)).netOutputDatalen adding
      ⟨[66], none⟩ none).netflush adding (some 1), ?_, ?_⟩
  · exact run_cons.mpr ⟨_, congrArg some h1,
      run_cons.mpr ⟨_, congrArg some (startOutput_full big top [0]), rfl⟩⟩
  · intro h
    obtain ⟨⟨rest, hrest⟩, -, -⟩ := h
    have hall : slice (store (fun _ => 0) 0 big) 0 BUFSIZ = big := by
      have := slice_store_same (m := fun _ => (0 : UInt8)) (i := 0) big
      rwa [Nat.zero_add, hb] at this
    rw [hsent, hput, hall] at hrest
    simp [send, code_none] at hrest

end Netcrypt

end Netutils.Telnetd
