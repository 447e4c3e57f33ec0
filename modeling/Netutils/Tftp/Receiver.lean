/-
  Netutils.Tftp.Receiver — the loop of recvfile, the client's (tftp/tftp.c) and tftpd's
  (tftpd/tftpd.c); what a packet or a timeout makes it do, from one recvfrom to the next.

  The two differ in what they send first and in how they end: tftpd waits for one more packet,
  and looks for the header of its answer in the buffer it has not been received into.
-/

import Netutils.Tftp.Sender

namespace Netutils.Tftp

open Netutils.Arpa Netutils.Libinetutils.Tftpsubs

/-! ## recvfile -/

structure Receiver where
  status : Status
  /-- Behind the loop, in the last recv of tftpd. -/
  dallying : Bool
  block : Nat
  ackbuf : Tftphdr
  subs : Subs
  file : List UInt8
  timeout : Nat
  /-- The blocks given to writeit so far. -/
  taken : List (List UInt8)
  /-- The mode is netascii. -/
  convert : Bool

/-- Where the two programs differ. -/
structure RecvLoop where
  /-- The first packet is the request. -/
  asks : Bool
  /-- Behind the loop. -/
  finish : Receiver → Turn Receiver
  /-- After an ERROR packet. -/
  abort : Receiver → Turn Receiver

def ack (k : Nat) : Tftphdr := ⟨ACK, UInt16.ofNat k, []⟩

/-- `write_behind (file, convert)` -/
def Receiver.flush (s : Receiver) : Receiver :=
  let r := writeBehind s.convert s.subs s.file
  { s with subs := r.1, file := r.2 }

/-- The client's. -/
def recvfile : RecvLoop where
  asks := true
  finish := fun s =>
    let s := { s with ackbuf := ack s.block }
    ⟨{ s.flush with status := .left }, [s.ackbuf], false⟩
  abort := fun s =>
    let s := { s with ackbuf := ack s.block }
    ⟨{ s.flush with status := .aborted }, [s.ackbuf], false⟩

end Netutils.Tftp

namespace Netutils.Tftpd

open Netutils.Tftp

/-- tftpd's. -/
def recvfile : RecvLoop where
  asks := false
  finish := fun s =>
    let s := s.flush
    let s := { s with ackbuf := ack s.block }
    ⟨{ s with status := .left, dallying := true }, [s.ackbuf], false⟩
  abort := fun s => ⟨{ s with status := .aborted }, [], false⟩

end Netutils.Tftpd

namespace Netutils.Tftp

open Netutils.Arpa Netutils.Libinetutils.Tftpsubs

namespace Receiver

/-- From `send_ack:` on. -/
def sendAck (s : Receiver) : Receiver × Tftphdr := (s.flush, s.ackbuf)

/-- From the top of the loop on, not on the first trip. -/
def top (s : Receiver) : Receiver × Tftphdr :=
  sendAck { s with ackbuf := ack s.block, block := s.block + 1, timeout := 0 }

/-- A packet in the last recv of tftpd, which goes to `buf`. -/
def last (s : Receiver) : Turn Receiver :=
  let again := s.subs.dp.opcode = DATA ∧ s.block = s.subs.dp.block.toNat
  ⟨{ s with dallying := false }, if again then [s.ackbuf] else [], false⟩

/-- `writeit (file, &dp, n - 4, convert)` -/
def take (s : Receiver) (p : Tftphdr) : Receiver :=
  let r := writeit s.convert s.subs s.file p.data.length
  { s with subs := r.1, file := r.2, taken := s.taken ++ [p.data] }

end Receiver

namespace RecvLoop

/-- Up to the first recvfrom. -/
def start (l : RecvLoop) (convert : Bool) (request : Tftphdr) (subs : Subs) : Receiver × Tftphdr :=
  Receiver.sendAck ⟨.waiting, false, 1, if l.asks then request else ack 0, wInit subs, [], 0, [], convert⟩

/-- A packet has come. -/
def receive (l : RecvLoop) (s : Receiver) (p : Tftphdr) : Turn Receiver :=
  if s.dallying then s.last
  else
    let s := { s with subs := s.subs.setDp p }
    if p.opcode = ERROR then l.abort s
    else if p.opcode = DATA then
      if p.block.toNat = s.block then
        let s := s.take p
        if p.data.length = SEGSIZE then
          let r := s.top
          ⟨r.1, [r.2], false⟩
        else l.finish s
      else if (p.block.toNat : Int) = s.block - 1 then
        let r := s.sendAck
        ⟨r.1, [r.2], true⟩
      else ⟨s, [], true⟩
    else ⟨s, [], false⟩

end RecvLoop

/-- SIGALRM: timer, or justquit. -/
def Receiver.timer (t : Timer) (s : Receiver) : Turn Receiver :=
  if s.dallying then ⟨{ s with dallying := false }, [], false⟩
  else
    let s := { s with timeout := s.timeout + t.rexmtval }
    if t.maxtimeout ≤ s.timeout then ⟨{ s with status := .timedOut }, [], false⟩
    else
      let r := s.sendAck
      ⟨r.1, [r.2], false⟩

/-! ## The invariant of the loop -/

namespace Receiver

/-- The last answer: the request before the first block, an ACK of the block before. -/
def Answers (l : RecvLoop) (request : Tftphdr) (s : Receiver) : Prop :=
  (l.asks = true ∧ s.block = 1 ∧ s.ackbuf = request) ∨
    ((l.asks = true → 2 ≤ s.block) ∧ s.ackbuf = ack (s.block - 1))

/-- In recvfrom, with all that has been taken in the file. -/
structure At (l : RecvLoop) (request : Tftphdr) (convert : Bool) (s : Receiver) : Prop where
  mode : s.convert = convert
  waiting : s.status = .waiting
  dallying : s.dallying = false
  pos : 1 ≤ s.block
  answers : Answers l request s
  empty : Empty s.subs
  written : Written convert s.taken.flatten s.subs s.file

/-- Behind the loop. -/
structure Left (convert : Bool) (s : Receiver) : Prop where
  left : s.status = .left
  ackbuf : s.ackbuf = ack s.block
  file : s.file = decoded convert s.taken.flatten

variable {l : RecvLoop} {request p : Tftphdr} {convert : Bool} {s : Receiver}

theorem sendAck_at (h : At l request convert s) : s.sendAck = (s, s.ackbuf) := by
  rw [sendAck, flush, writeBehind_empty h.empty]

theorem setDp_at (p : Tftphdr) (h : At l request convert s) : At l request convert { s with subs := s.subs.setDp p } :=
  ⟨h.mode, h.waiting, h.dallying, h.pos, h.answers, setDp_empty p h.empty, setDp_written p h.written⟩

/-- With a block that is not written yet. -/
structure Holds (convert : Bool) (d : List UInt8) (s : Receiver) : Prop where
  mode : s.convert = convert
  pending : Pending d s.subs
  written : ∃ done, Written convert done s.subs s.file ∧ done ++ d = s.taken.flatten

theorem take_at (h : At l request convert s) :
    Holds convert p.data (({ s with subs := s.subs.setDp p } : Receiver).take p) := by
  have hdp : (s.subs.setDp p).dp = p := by simp [Subs.dp, Subs.setDp]
  obtain ⟨hpending, hwritten⟩ := writeit_empty (setDp_empty p h.empty) (setDp_written p h.written)
  rw [hdp, ← h.mode] at hpending
  rw [hdp] at hwritten
  refine ⟨h.mode, hpending, s.taken.flatten, ?_, ?_⟩
  · simp only [take, h.mode]
    exact hwritten
  · simp only [take, List.flatten_append, List.flatten_singleton]

theorem flush_holds {d : List UInt8} (h : Holds convert d s) :
    Empty s.flush.subs ∧ Written convert s.taken.flatten s.flush.subs s.flush.file := by
  obtain ⟨done, hwritten, htaken⟩ := h.written
  obtain ⟨hempty, hwritten, -⟩ := writeBehind_pending h.pending hwritten
  rw [htaken] at hwritten
  simp only [flush, h.mode]
  exact ⟨hempty, hwritten⟩

/-- The next block is waited for, and the last one is in the file. -/
theorem top_holds {d : List UInt8} (request : Tftphdr) (hwait : s.status = .waiting) (hdally : s.dallying = false)
    (hpos : 1 ≤ s.block) (h : Holds convert d s) :
    At l request convert s.top.1 ∧ s.top.1.block = s.block + 1 ∧ s.top.1.taken = s.taken ∧ s.top.2 = ack s.block := by
  obtain ⟨hempty, hwritten⟩ := flush_holds (s := { s with ackbuf := ack s.block, block := s.block + 1, timeout := 0 })
    ⟨h.mode, h.pending, h.written⟩
  refine ⟨⟨h.mode, hwait, hdally, Nat.succ_le_succ (Nat.zero_le _), ?_, hempty, hwritten⟩, rfl, rfl, rfl⟩
  exact Or.inr ⟨fun _ => Nat.succ_le_succ hpos, rfl⟩

end Receiver

/-! ## The turns -/

namespace RecvLoop

open Receiver

/-- Behind the loop everything is written, and the last block acknowledged. -/
def Exact (l : RecvLoop) : Prop :=
  ∀ (convert : Bool) (s : Receiver) (d : List UInt8), Holds convert d s →
    Left convert (l.finish s).state ∧ (l.finish s).state.block = s.block ∧ (l.finish s).state.taken = s.taken ∧
      (l.finish s).sent = [ack s.block]

variable {l : RecvLoop} {request p : Tftphdr} {convert : Bool} {s : Receiver}

theorem start_spec (l : RecvLoop) (convert : Bool) (request : Tftphdr) (subs : Subs) :
    At l request convert (l.start convert request subs).1 ∧ (l.start convert request subs).1.block = 1 ∧
      (l.start convert request subs).1.taken = [] ∧
      (l.start convert request subs).2 = (l.start convert request subs).1.ackbuf := by
  have hat : At l request convert
      ⟨.waiting, false, 1, if l.asks then request else ack 0, wInit subs, [], 0, [], convert⟩ := by
    refine ⟨rfl, rfl, rfl, Nat.le_refl _, ?_, wInit_empty subs, wInit_written convert subs⟩
    cases hasks : l.asks with
    | true => exact Or.inl ⟨hasks, rfl, rfl⟩
    | false => exact Or.inr ⟨fun h => absurd (hasks.symm.trans h) (by decide), rfl⟩
  rw [start, sendAck_at hat]
  exact ⟨hat, rfl, rfl, rfl⟩

/-- Nothing but the block that is waited for makes a difference. -/
theorem receive_cases (hl : l.Exact) (h : At l request convert s) (herror : p.opcode ≠ ERROR) :
    (p.opcode = DATA ∧ p.block.toNat = s.block ∧ (l.receive s p).state.taken = s.taken ++ [p.data] ∧
        (l.receive s p).sent = [ack s.block] ∧
        (p.data.length = SEGSIZE ∧ At l request convert (l.receive s p).state ∧ (l.receive s p).state.block = s.block + 1 ∨
          p.data.length ≠ SEGSIZE ∧ Left convert (l.receive s p).state ∧ (l.receive s p).state.block = s.block)) ∨
      (¬(p.opcode = DATA ∧ p.block.toNat = s.block) ∧ At l request convert (l.receive s p).state ∧
        (l.receive s p).state.block = s.block ∧ (l.receive s p).state.taken = s.taken ∧
        ((l.receive s p).sent = [] ∨ (p.block.toNat : Int) = s.block - 1 ∧ (l.receive s p).sent = [s.ackbuf])) := by
  have hdp := setDp_at p h
  rw [receive, if_neg (by rw [h.dallying]; decide)]
  simp only [if_neg herror]
  by_cases hdata : p.opcode = DATA
  · simp only [if_pos hdata]
    by_cases hblock : p.block.toNat = s.block
    · simp only [if_pos hblock]
      left
      have hholds := take_at (p := p) h
      by_cases hsize : p.data.length = SEGSIZE
      · simp only [if_pos hsize]
        obtain ⟨hat, hb, htaken, hsent⟩ := top_holds (l := l) request (s := ({ s with subs := s.subs.setDp p } : Receiver).take p)
          h.waiting h.dallying h.pos hholds
        exact ⟨hdata, hblock, htaken, congrArg (fun q => [q]) hsent, Or.inl ⟨hsize, hat, hb⟩⟩
      · simp only [if_neg hsize]
        obtain ⟨hleft, hb, htaken, hsent⟩ := hl convert _ _ hholds
        exact ⟨hdata, hblock, htaken, hsent, Or.inr ⟨hsize, hleft, hb⟩⟩
    · simp only [if_neg hblock]
      right
      refine ⟨fun h => hblock h.2, ?_⟩
      split
      · rename_i hbefore
        rw [sendAck_at hdp]
        exact ⟨hdp, rfl, rfl, Or.inr ⟨hbefore, rfl⟩⟩
      · exact ⟨hdp, rfl, rfl, Or.inl rfl⟩
  · rw [if_neg hdata]
    exact Or.inr ⟨fun h => hdata h.1, hdp, rfl, rfl, Or.inl rfl⟩

end RecvLoop

namespace Receiver

variable {l : RecvLoop} {request p : Tftphdr} {convert : Bool} {s : Receiver}

/-- The last answer is sent again, or the receiver gives up. -/
theorem timer_cases (t : Timer) (h : At l request convert s) :
    (At l request convert (s.timer t).state ∧ (s.timer t).state.block = s.block ∧ (s.timer t).state.taken = s.taken ∧
        (s.timer t).sent = [s.ackbuf]) ∨
      ((s.timer t).state.status = .timedOut ∧ (s.timer t).state.block = s.block ∧ (s.timer t).state.taken = s.taken ∧
        (s.timer t).state.file = s.file ∧ (s.timer t).sent = []) := by
  rw [timer, if_neg (by rw [h.dallying]; decide)]
  simp only
  split
  · exact Or.inr ⟨rfl, rfl, rfl, rfl, rfl⟩
  · have hat : At l request convert { s with timeout := s.timeout + t.rexmtval } :=
      ⟨h.mode, h.waiting, h.dallying, h.pos, h.answers, h.empty, h.written⟩
    simp only [sendAck_at hat]
    exact Or.inl ⟨hat, trivial, trivial, trivial⟩

/-- The last answer may be sent once more behind the loop. -/
theorem last_left (h : Left convert s) :
    Left convert s.last.state ∧ s.last.state.block = s.block ∧ s.last.state.taken = s.taken ∧
      (s.last.sent = [] ∨ s.last.sent = [ack s.block]) := by
  refine ⟨⟨h.left, h.ackbuf, h.file⟩, rfl, rfl, ?_⟩
  rw [last]
  simp only [h.ackbuf]
  split
  · exact Or.inr rfl
  · exact Or.inl rfl

end Receiver

/-! ## The two programs -/

theorem recvfile_exact : recvfile.Exact := by
  intro convert s d h
  obtain ⟨-, hwritten⟩ := Receiver.flush_holds (s := { s with ackbuf := ack s.block }) ⟨h.mode, h.pending, h.written⟩
  exact ⟨⟨rfl, rfl, hwritten.eq_decoded⟩, rfl, rfl, rfl⟩

end Netutils.Tftp

namespace Netutils.Tftpd

open Netutils.Tftp

theorem recvfile_exact : recvfile.Exact := by
  intro convert s d h
  obtain ⟨-, hwritten⟩ := Receiver.flush_holds h
  exact ⟨⟨rfl, rfl, hwritten.eq_decoded⟩, rfl, rfl, rfl⟩

end Netutils.Tftpd
