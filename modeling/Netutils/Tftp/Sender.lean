/-
  Netutils.Tftp.Sender — the loop of send_file, the client's (tftp/tftp.c) and tftpd's
  (tftpd/tftpd.c); what a packet or a timeout makes it do, from one recvfrom to the next.

  The two differ in where they start, in how they compare the 16 bits of a packet with their
  int, and in the condition of the loop. `At` is what the loop keeps (`receive_acked`, `timer_at`).
-/

import Netutils.Libinetutils.Tftpsubs

namespace Netutils.Tftp

open Netutils.Arpa Netutils.Libinetutils.Tftpsubs

/-! ## One party -/

inductive Status where
  /-- In recvfrom. -/
  | waiting
  /-- Behind the loop, by its condition. -/
  | left
  /-- By an ERROR packet. -/
  | aborted
  | timedOut
  deriving DecidableEq

structure Timer where
  rexmtval : Nat
  maxtimeout : Nat

/-- What a packet or a timeout comes to. -/
structure Turn (σ : Type) where
  state : σ
  sent : List Tftphdr
  /-- synchnet has been called, before anything was sent. -/
  flushed : Bool

/-! ## send_file -/

structure Sender where
  status : Status
  block : Nat
  size : Int
  subs : Subs
  /-- What has not been read. -/
  file : List UInt8
  timeout : Nat
  /-- The mode is netascii. -/
  convert : Bool

/-- Where the two programs differ. -/
structure SendLoop where
  first : Nat
  acked : UInt16 → Nat → Bool
  again : UInt16 → Nat → Bool
  more : Int → Nat → Bool

/-- The client's; its request is block 0. -/
def sendFile : SendLoop where
  first := 0
  acked := fun thBlock block => thBlock.toNat = block
  again := fun thBlock block => (thBlock.toNat : Int) = block - 1
  more := fun size block => size = SEGSIZE ∨ block = 1

end Netutils.Tftp

namespace Netutils.Tftpd

open Netutils.Arpa Netutils.Tftp

/-- tftpd's. -/
def sendFile : SendLoop where
  first := 1
  acked := fun thBlock block => thBlock = UInt16.ofNat block
  again := fun thBlock block => thBlock = UInt16.ofNat (block - 1)
  more := fun size _ => size = SEGSIZE

end Netutils.Tftpd

namespace Netutils.Tftp

open Netutils.Arpa Netutils.Libinetutils.Tftpsubs

namespace Sender

/-- From `send_data:` on. -/
def sendData (s : Sender) : Sender × Tftphdr :=
  let r := readAhead s.convert s.subs s.file
  ({ s with subs := r.1, file := r.2 }, s.subs.dp)

/-- A block of the file, up to `setjmp (timeoutbuf)`. -/
def fetch (s : Sender) : Sender :=
  let r := readit s.convert s.subs s.file
  let subs := r.2.1.setDp { r.2.1.dp with opcode := DATA, block := UInt16.ofNat s.block }
  { s with size := r.1, subs := subs, file := r.2.2, timeout := 0 }

/-- From the top of the loop on. -/
def top (s : Sender) : Sender × Tftphdr := s.fetch.sendData

end Sender

namespace SendLoop

/-- Up to the first recvfrom; `request` is the packet that makerequest has written. -/
def start (l : SendLoop) (convert : Bool) (request : Tftphdr) (subs : Subs) (file : List UInt8) : Sender × Tftphdr :=
  if l.first = 0 then
    Sender.sendData ⟨.waiting, 0, request.data.length, (rInit subs).setDp request, file, 0, convert⟩
  else Sender.top ⟨.waiting, l.first, 0, rInit subs, file, 0, convert⟩

/-- A packet has come. -/
def receive (l : SendLoop) (s : Sender) (ap : Tftphdr) : Turn Sender :=
  if ap.opcode = ERROR then ⟨{ s with status := .aborted }, [], false⟩
  else if ap.opcode = ACK then
    if l.acked ap.block s.block then
      let s := { s with block := s.block + 1 }
      if l.more s.size s.block then
        let r := s.top
        ⟨r.1, [r.2], false⟩
      else ⟨{ s with status := .left }, [], false⟩
    else if l.again ap.block s.block then
      let r := s.sendData
      ⟨r.1, [r.2], true⟩
    else ⟨s, [], true⟩
  else ⟨s, [], false⟩

end SendLoop

/-- SIGALRM. -/
def Sender.timer (t : Timer) (s : Sender) : Turn Sender :=
  let s := { s with timeout := s.timeout + t.rexmtval }
  if t.maxtimeout ≤ s.timeout then ⟨{ s with status := .timedOut }, [], false⟩
  else
    let r := s.sendData
    ⟨r.1, [r.2], false⟩

/-! ## The invariant of the loop -/

namespace Sender

/-- Block `k` of what the file is sent as, as a packet. -/
def packet (text : List UInt8) (k : Nat) : Tftphdr := ⟨DATA, UInt16.ofNat k, piece text k⟩

/-- The packet at dp is that of this block, or the request. -/
def Holds (text : List UInt8) (request : Tftphdr) (s : Sender) : Prop :=
  (s.block = 0 ∧ s.subs.dp = request) ∨
    (1 ≤ s.block ∧ s.subs.dp = packet text s.block ∧ s.size = (piece text s.block).length)

/-- In recvfrom, with the next block read ahead. -/
structure At (text : List UInt8) (request : Tftphdr) (s : Sender) : Prop where
  waiting : s.status = .waiting
  holds : Holds text request s
  ahead : Ahead s.convert text s.block s.subs s.file

variable {text : List UInt8} {request : Tftphdr} {s : Sender}

theorem sendData_fetched (hwait : s.status = .waiting) (hholds : Holds text request s)
    (h : Fetched s.convert text s.block s.subs s.file) :
    At text request s.sendData.1 ∧ s.sendData.1.block = s.block ∧ s.sendData.2 = s.subs.dp := by
  obtain ⟨hahead, hdp⟩ := readAhead_fetched h
  refine ⟨⟨hwait, ?_, hahead⟩, rfl, rfl⟩
  simpa only [Holds, sendData, hdp] using hholds

theorem sendData_at (h : At text request s) : s.sendData = (s, s.subs.dp) := by
  rw [sendData, readAhead_ahead h.ahead]

/-- The next block, from the block before it. -/
theorem fetch_spec (request : Tftphdr) {k : Nat} (hblock : s.block = k + 1)
    (h : Fetched s.convert text k s.subs s.file ∨ Ahead s.convert text k s.subs s.file) :
    Holds text request s.fetch ∧ Fetched s.convert text s.block s.fetch.subs s.fetch.file ∧ s.fetch.subs.dp = packet text s.block := by
  obtain ⟨hsize, hfetched, hdata⟩ : (readit s.convert s.subs s.file).1 = (piece text (k + 1)).length ∧
      Fetched s.convert text (k + 1) (readit s.convert s.subs s.file).2.1 (readit s.convert s.subs s.file).2.2 ∧
      (readit s.convert s.subs s.file).2.1.dp.data = piece text (k + 1) := h.elim readit_fetched readit_ahead
  rw [← hblock] at hsize hfetched hdata
  have hpacket : s.fetch.subs.dp = packet text s.block := by
    rw [packet, ← hdata]
    simp [fetch, Subs.dp, Subs.setDp]
  exact ⟨Or.inr ⟨show 1 ≤ s.block by omega, hpacket, hsize⟩, setDp_fetched _ hfetched, hpacket⟩

theorem top_spec (request : Tftphdr) {k : Nat} (hwait : s.status = .waiting) (hblock : s.block = k + 1)
    (h : Fetched s.convert text k s.subs s.file ∨ Ahead s.convert text k s.subs s.file) :
    At text request s.top.1 ∧ s.top.1.block = s.block ∧ s.top.2 = packet text s.block := by
  obtain ⟨hholds, hfetched, hpacket⟩ := fetch_spec request hblock h
  obtain ⟨hat, hb, hsent⟩ := sendData_fetched (s := s.fetch) hwait hholds hfetched
  exact ⟨hat, hb, hsent.trans hpacket⟩

end Sender

/-! ## The turns -/

namespace SendLoop

open Sender

variable {l : SendLoop} {text : List UInt8} {request ap : Tftphdr} {s : Sender}

theorem start_spec (hfirst : l.first ≤ 1) (convert : Bool) (request : Tftphdr) (subs : Subs) (file : List UInt8) :
    At (encoded convert file) request (l.start convert request subs file).1 ∧
      (l.start convert request subs file).1.block = l.first ∧
      (l.start convert request subs file).2 = if l.first = 0 then request else packet (encoded convert file) 1 := by
  have hinit := rInit_fetched convert file subs
  rw [start]
  split
  · rename_i hzero
    have hdp : ((rInit subs).setDp request).dp = request := by simp [Subs.dp, Subs.setDp]
    have hholds : Holds (encoded convert file) request
        ⟨.waiting, 0, request.data.length, (rInit subs).setDp request, file, 0, convert⟩ := Or.inl ⟨rfl, hdp⟩
    obtain ⟨hat, hblock, hsent⟩ := sendData_fetched rfl hholds (setDp_fetched _ hinit)
    exact ⟨hat, hblock.trans hzero.symm, hsent.trans hdp⟩
  · have hone : l.first = 0 + 1 := by omega
    obtain ⟨hat, hblock, hsent⟩ := top_spec request (s := ⟨.waiting, l.first, 0, rInit subs, file, 0, convert⟩) rfl hone
      (Or.inl hinit)
    exact ⟨hat, hblock, hsent.trans (congrArg (packet (encoded convert file)) hone)⟩

/-- Nothing but an ACK makes a difference. -/
theorem receive_cases (h : At text request s) (herror : ap.opcode ≠ ERROR) :
    (ap.opcode = ACK ∧ l.acked ap.block s.block = true ∧ l.more s.size (s.block + 1) = true ∧
        At text request (l.receive s ap).state ∧ (l.receive s ap).state.block = s.block + 1 ∧
        (l.receive s ap).sent = [packet text (s.block + 1)]) ∨
      (ap.opcode = ACK ∧ l.acked ap.block s.block = true ∧ l.more s.size (s.block + 1) = false ∧
        (l.receive s ap).state = { s with block := s.block + 1, status := .left } ∧ (l.receive s ap).sent = []) ∨
      (¬(ap.opcode = ACK ∧ l.acked ap.block s.block = true) ∧ (l.receive s ap).state = s ∧
        ((l.receive s ap).sent = [] ∨ (l.receive s ap).sent = [s.subs.dp])) := by
  rw [receive, if_neg herror]
  by_cases hack : ap.opcode = ACK
  · rw [if_pos hack]
    by_cases hacked : l.acked ap.block s.block = true
    · rw [if_pos hacked]
      cases hmore : l.more s.size (s.block + 1) with
      | true =>
        left
        obtain ⟨hat, hblock, hsent⟩ := top_spec request (s := { s with block := s.block + 1 }) h.waiting rfl
          (Or.inr h.ahead)
        simp only [hmore, if_true]
        exact ⟨hack, hacked, trivial, hat, hblock, congrArg (fun p => [p]) hsent⟩
      | false =>
        right; left
        simp only [hmore, Bool.false_eq_true, if_false]
        exact ⟨hack, hacked, trivial, trivial, trivial⟩
    · right; right
      rw [if_neg hacked]
      refine ⟨fun h => hacked h.2, ?_⟩
      split
      · simp only [sendData_at h]
        exact ⟨trivial, Or.inr trivial⟩
      · exact ⟨rfl, Or.inl rfl⟩
  · right; right
    rw [if_neg hack]
    exact ⟨fun h => hack h.1, rfl, Or.inl rfl⟩

/-- What the invariant of a run needs of the comparisons: that an acknowledgement in flight is
    not taken for another, and that the loop ends with the last block. -/
structure Exact (l : SendLoop) : Prop where
  first_le : l.first ≤ 1
  acked : ∀ {thBlock : UInt16} {k block : Nat}, l.first ≤ k → k < 65536 → l.first ≤ block → block ≤ 65536 →
    thBlock = UInt16.ofNat k → l.acked thBlock block = true → k = block
  more : ∀ {text : List UInt8} {request : Tftphdr} {s : Sender}, Holds text request s → l.first ≤ s.block →
    s.block ≤ lastBlock text → (l.more s.size (s.block + 1) = true ↔ s.block + 1 ≤ lastBlock text)

end SendLoop

namespace Sender

variable {text : List UInt8} {request : Tftphdr} {s : Sender}

/-- The block is sent again, or the sender gives up. -/
theorem timer_cases (t : Timer) (h : At text request s) :
    (At text request (s.timer t).state ∧ (s.timer t).state.block = s.block ∧ (s.timer t).sent = [s.subs.dp]) ∨
      ((s.timer t).state.status = .timedOut ∧ (s.timer t).state.block = s.block ∧ (s.timer t).sent = []) := by
  rw [timer]
  split
  · exact Or.inr ⟨rfl, rfl, rfl⟩
  · have hat : At text request { s with timeout := s.timeout + t.rexmtval } := ⟨h.waiting, h.holds, h.ahead⟩
    simp only [sendData_at hat]
    exact Or.inl ⟨hat, trivial, trivial⟩

end Sender

/-! ## The two programs -/

theorem toNat_ofNat {k : Nat} (hk : k < 65536) : (UInt16.ofNat k).toNat = k := by
  rw [UInt16.toNat_ofNat']
  exact Nat.mod_eq_of_lt hk

/-- The loop goes on as long as the blocks are full. -/
theorem size_iff {text : List UInt8} {request : Tftphdr} {s : Sender} (h : Sender.Holds text request s)
    (hpos : 1 ≤ s.block) (hlast : s.block ≤ lastBlock text) : s.size = SEGSIZE ↔ s.block + 1 ≤ lastBlock text := by
  rcases h with ⟨hzero, -⟩ | ⟨-, -, hsize⟩
  · omega
  · rw [hsize, Int.natCast_inj]
    exact length_piece_lt_iff hpos hlast

theorem sendFile_exact : sendFile.Exact where
  first_le := Nat.zero_le 1
  acked := by
    intro thBlock k block _ hk _ _ heq hacked
    rw [heq] at hacked
    simpa [sendFile, toNat_ofNat hk] using hacked
  more := by
    intro text request s h _ hlast
    rcases Nat.eq_zero_or_pos s.block with hzero | hpos
    · have : 1 ≤ lastBlock text := Nat.succ_le_succ (Nat.zero_le _)
      simp [sendFile, hzero, this]
    · have := size_iff h hpos hlast
      have hne : s.block ≠ 0 := Nat.ne_of_gt hpos
      simpa [sendFile, hne] using this

end Netutils.Tftp

namespace Netutils.Tftpd

open Netutils.Tftp

theorem sendFile_exact : sendFile.Exact where
  first_le := Nat.le_refl 1
  acked := by
    intro thBlock k block hfirst hk hpos hblock heq hacked
    have hsame : UInt16.ofNat k = UInt16.ofNat block := by simpa [sendFile, ← heq] using hacked
    have hnat := congrArg UInt16.toNat hsame
    rw [toNat_ofNat hk, UInt16.toNat_ofNat'] at hnat
    -- 65536 would be sent as 0, which is never acknowledged
    have hk1 : 1 ≤ k := hfirst
    omega
  more := by
    intro text request s h hpos hlast
    simpa [sendFile] using size_iff h hpos hlast

end Netutils.Tftpd
