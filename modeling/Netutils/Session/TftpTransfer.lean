/-
  Netutils.Session.TftpTransfer — a file between the two TFTP programs, both ways, in octet mode:
  put (the client's send_file, tftpd's recvfile) and get (tftpd's send_file, the client's
  recvfile), over a channel that loses, duplicates and reorders datagrams.

  A run is stop-and-wait (`Sim`): the 16 bits of a block number do, as neither side is ever more
  than a block ahead and the receiver, which compares them with its int, takes no block behind
  the 65535th. So what is left normally is complete (`transfer_correct`).
-/

import Netutils.Lib.StopAndWait
import Netutils.Tftp.Receiver

namespace Netutils.Session.TftpTransfer

open Netutils.Arpa Netutils.Tftp Netutils.Libinetutils.Tftpsubs
open Netutils.Lib.StopAndWait (Job St Reachable Step)

/-! ## The two programs -/

/-- A sender and a receiver that start and end the loops alike. -/
structure Pairing where
  send : SendLoop
  recv : RecvLoop
  /-- Of the request. -/
  opcode : UInt16
  send_exact : send.Exact
  recv_exact : recv.Exact
  first_eq : recv.asks = false → send.first = 0
  is_request : opcode = RRQ ∨ opcode = WRQ

def put : Pairing :=
  ⟨Tftp.sendFile, Tftpd.recvfile, WRQ, Tftp.sendFile_exact, Tftpd.recvfile_exact, fun _ => rfl, Or.inr rfl⟩

def get : Pairing :=
  ⟨Tftpd.sendFile, Tftp.recvfile, RRQ, Tftpd.sendFile_exact, Tftp.recvfile_exact, nofun, Or.inl rfl⟩

/-! ## The channel -/

inductive Party where
  | sender
  | receiver

/-- The way to one party. -/
structure Way where
  flight : List Tftphdr
  /-- In the party's socket. -/
  queue : List Tftphdr

structure Sys where
  sender : Sender
  receiver : Receiver
  toSender : Way
  toReceiver : Way

inductive Event where
  /-- One of the datagrams in flight to this party is lost, comes twice, or gets there. -/
  | lose (side : Party) (i : Nat)
  | duplicate (side : Party) (i : Nat)
  | arrive (side : Party) (i : Nat)
  | recv (party : Party)
  | timer (party : Party)

/-- What is transferred, and with what. -/
structure Setup where
  file : List UInt8
  /-- The request behind its opcode, which the channel may deliver as well. -/
  stuff : UInt16 × List UInt8
  senderTimer : Timer
  receiverTimer : Timer
  /-- What an earlier transfer has left. -/
  senderSubs : Subs
  receiverSubs : Subs

def Setup.request (x : Setup) (p : Pairing) : Tftphdr := ⟨p.opcode, x.stuff.1, x.stuff.2⟩

def startIn (convert : Bool) (p : Pairing) (x : Setup) : Sys :=
  let sender := p.send.start convert (x.request p) x.senderSubs x.file
  let receiver := p.recv.start convert (x.request p) x.receiverSubs
  ⟨sender.1, receiver.1, ⟨[receiver.2], []⟩, ⟨[sender.2], []⟩⟩

/-- In octet mode. -/
def start (p : Pairing) (x : Setup) : Sys := startIn false p x

namespace Way

def lose (w : Way) (i : Nat) : Way := { w with flight := w.flight.eraseIdx i }

def duplicate (w : Way) (i : Nat) : Way := { w with flight := w.flight ++ (w.flight[i]?).toList }

def arrive (w : Way) (i : Nat) : Way := ⟨w.flight.eraseIdx i, w.queue ++ (w.flight[i]?).toList⟩

def send (w : Way) (l : List Tftphdr) : Way := { w with flight := w.flight ++ l }

/-- With synchnet. -/
def flush (w : Way) (flushed : Bool) : Way := if flushed then { w with queue := [] } else w

end Way

namespace Sys

def change (s : Sys) (side : Party) (f : Way → Way)  : Sys :=
  match side with
  | .sender => { s with toSender := f s.toSender }
  | .receiver => { s with toReceiver := f s.toReceiver }

/-- The sender's turn. -/
def senderTurn (s : Sys) (t : Turn Sender)  : Sys :=
  { s with sender := t.state, toSender := s.toSender.flush t.flushed, toReceiver := s.toReceiver.send t.sent }

def receiverTurn (s : Sys) (t : Turn Receiver)  : Sys :=
  { s with receiver := t.state, toReceiver := s.toReceiver.flush t.flushed, toSender := s.toSender.send t.sent }

/-- In recvfrom. -/
def receiving (s : Sys) : Prop :=
  s.receiver.status = .waiting ∨ s.receiver.status = .left ∧ s.receiver.dallying = true

instance (s : Sys) : Decidable s.receiving := inferInstanceAs (Decidable (_ ∨ _))

end Sys

/-- What does not apply changes nothing. -/
def next (p : Pairing) (x : Setup) (s : Sys) : Event → Sys
  | .lose side i => s.change side (·.lose i)
  | .duplicate side i => s.change side (·.duplicate i)
  | .arrive side i => s.change side (·.arrive i)
  | .recv .sender =>
    match s.toSender.queue with
    | ap :: queue =>
      if s.sender.status = .waiting then
        { s with toSender := { s.toSender with queue := queue } }.senderTurn (p.send.receive s.sender ap)
      else s
    | [] => s
  | .recv .receiver =>
    match s.toReceiver.queue with
    | dp :: queue =>
      if s.receiving then
        { s with toReceiver := { s.toReceiver with queue := queue } }.receiverTurn (p.recv.receive s.receiver dp)
      else s
    | [] => s
  | .timer .sender => if s.sender.status = .waiting then s.senderTurn (s.sender.timer x.senderTimer) else s
  | .timer .receiver => if s.receiving then s.receiverTurn (s.receiver.timer x.receiverTimer) else s

def run (p : Pairing) (x : Setup) (events : List Event)  : Sys := events.foldl (next p x) (start p x)

/-! ## Stop-and-wait -/

theorem lastBlock_pos (file : List UInt8) : 1 ≤ lastBlock file := Nat.succ_le_succ (Nat.zero_le _)

def job (p : Pairing) (x : Setup) : Job (List UInt8) :=
  ⟨p.send.first, lastBlock x.file, piece x.file, p.send_exact.first_le, lastBlock_pos x.file⟩

/-- The blocks of a file in order. -/
def blocks (file : List UInt8) : List (List UInt8) := (List.range' 1 (lastBlock file)).map (piece file)

/-- A DATA packet is of a block that has been sent, an ACK of one that has been acknowledged. -/
def KnownData (a : St (List UInt8)) (p : Tftphdr) : Prop :=
  p.opcode ≠ ERROR ∧ (p.opcode = DATA → ∃ k, 1 ≤ k ∧ (k, p.data) ∈ a.data ∧ p.block = UInt16.ofNat k)

def KnownAck (a : St (List UInt8)) (p : Tftphdr) : Prop :=
  p.opcode ≠ ERROR ∧ (p.opcode = ACK → ∃ k ∈ a.acks, p.block = UInt16.ofNat k)

/-- All on this way. -/
def Way.All (P : Tftphdr → Prop) (w : Way) : Prop := (∀ q ∈ w.flight, P q) ∧ ∀ q ∈ w.queue, P q

inductive SenderOk (p : Pairing) (x : Setup) (s : Sender) : Prop
  | waiting (h : Sender.At x.file (x.request p) s) (hle : s.block ≤ lastBlock x.file)
  | left (h : s.status = .left) (heq : s.block = lastBlock x.file + 1)
  | timedOut (h : s.status = .timedOut)

inductive ReceiverOk (p : Pairing) (x : Setup) (s : Receiver) (a : St (List UInt8)) : Prop
  | waiting (h : Receiver.At p.recv (x.request p) false s) (heq : a.expected = s.block)
  | left (h : Receiver.Left false s) (heq : a.expected = s.block + 1) (hlast : a.expected = lastBlock x.file + 1)
  | timedOut (h : s.status = .timedOut) (hfile : s.file = s.taken.flatten)

/-- The session is this state of stop-and-wait. -/
structure Sim (p : Pairing) (x : Setup) (s : Sys) (a : St (List UInt8)) : Prop where
  reach : Reachable (job p x) a
  small : a.expected ≤ 65536
  toReceiver : s.toReceiver.All (KnownData a)
  toSender : s.toSender.All (KnownAck a)
  block : s.sender.block = a.block
  sender : SenderOk p x s.sender
  taken : s.receiver.taken = a.taken
  receiver : ReceiverOk p x s.receiver a

/-! ## The ways -/

namespace Way

variable {P Q : Tftphdr → Prop} {w : Way}

theorem All.mono (hPQ : ∀ q, P q → Q q) (h : w.All P) : w.All Q :=
  ⟨fun q hq => hPQ q (h.1 q hq), fun q hq => hPQ q (h.2 q hq)⟩

theorem all_lose (i : Nat) (h : w.All P) : (w.lose i).All P :=
  ⟨fun q hq => h.1 q (List.mem_of_mem_eraseIdx hq), h.2⟩

theorem mem_of_mem_getElem? {i : Nat} {q : Tftphdr} (hq : q ∈ (w.flight[i]?).toList) : q ∈ w.flight :=
  List.mem_of_getElem? (Option.mem_toList.mp hq)

theorem all_duplicate (i : Nat) (h : w.All P) : (w.duplicate i).All P :=
  ⟨fun q hq => (List.mem_append.mp hq).elim (h.1 q) fun hq => h.1 q (mem_of_mem_getElem? hq), h.2⟩

theorem all_arrive (i : Nat) (h : w.All P) : (w.arrive i).All P :=
  ⟨fun q hq => h.1 q (List.mem_of_mem_eraseIdx hq),
    fun q hq => (List.mem_append.mp hq).elim (h.2 q) fun hq => h.1 q (mem_of_mem_getElem? hq)⟩

theorem all_send {l : List Tftphdr} (h : w.All P) (hl : ∀ q ∈ l, P q) : (w.send l).All P :=
  ⟨fun q hq => (List.mem_append.mp hq).elim (h.1 q) (hl q), h.2⟩

theorem all_flush (flushed : Bool) (h : w.All P) : (w.flush flushed).All P := by
  unfold flush
  split
  · exact ⟨h.1, fun q hq => nomatch hq⟩
  · exact h

theorem all_tail {q : Tftphdr} {queue : List Tftphdr} (h : w.All P) (hq : w.queue = q :: queue) :
    P q ∧ ({ w with queue := queue } : Way).All P := by
  have hall := h.2
  rw [hq] at hall
  exact ⟨hall q List.mem_cons_self, h.1, fun r hr => hall r (List.mem_cons_of_mem q hr)⟩

end Way

/-! ## What is sent -/

variable {p : Pairing} {x : Setup} {s : Sys} {a b : St (List UInt8)}

/-- Some more has been sent, and that is all. -/
structure Grown (a b : St (List UInt8)) : Prop where
  block : b.block = a.block
  expected : b.expected = a.expected
  taken : b.taken = a.taken
  data : a.data ⊆ b.data
  acks : a.acks ⊆ b.acks

theorem Grown.refl (a : St (List UInt8)) : Grown a a := ⟨rfl, rfl, rfl, subset_rfl, subset_rfl⟩

theorem knownData_mono (hdata : a.data ⊆ b.data) {q : Tftphdr} (h : KnownData a q) : KnownData b q := by
  refine ⟨h.1, fun hq => ?_⟩
  obtain ⟨k, hpos, hk, heq⟩ := h.2 hq
  exact ⟨k, hpos, hdata hk, heq⟩

theorem knownAck_mono (hacks : a.acks ⊆ b.acks) {q : Tftphdr} (h : KnownAck a q) : KnownAck b q := by
  refine ⟨h.1, fun hq => ?_⟩
  obtain ⟨k, hk, heq⟩ := h.2 hq
  exact ⟨k, hacks hk, heq⟩

theorem request_opcode (p : Pairing) (x : Setup) :
    (x.request p).opcode ≠ ERROR ∧ (x.request p).opcode ≠ DATA ∧ (x.request p).opcode ≠ ACK := by
  rcases p.is_request with h | h <;> simp only [Setup.request, h] <;> decide

/-- The block that the sender is at. -/
theorem send_packet (ha : Reachable (job p x) a) (hpos : 1 ≤ a.block) (hle : a.block ≤ lastBlock x.file) :
    ∃ b, Reachable (job p x) b ∧ Grown a b ∧ KnownData b (Sender.packet x.file a.block) := by
  refine ⟨_, ha.step (Step.send a hle), ⟨rfl, rfl, rfl, Set.subset_insert _ _, subset_rfl⟩, ?_⟩
  exact ⟨show DATA ≠ ERROR by decide, fun _ => ⟨a.block, hpos, Set.mem_insert _ _, rfl⟩⟩

theorem send_dp (ha : Reachable (job p x) a) {t : Sender} (ht : Sender.At x.file (x.request p) t) (hblock : t.block = a.block)
    (hle : t.block ≤ lastBlock x.file) :
    ∃ b, Reachable (job p x) b ∧ Grown a b ∧ KnownData b t.subs.dp := by
  rcases ht.holds with ⟨-, hdp⟩ | ⟨hpos, hdp, -⟩
  · obtain ⟨herror, hdata, -⟩ := request_opcode p x
    rw [hdp]
    exact ⟨a, ha, Grown.refl a, herror, fun h => absurd h hdata⟩
  · rw [hdp, hblock]
    exact send_packet ha (hblock ▸ hpos) (hblock ▸ hle)

/-- An ACK of the block before the one that is waited for. -/
theorem send_ack (ha : Reachable (job p x) a) {k : Nat} (hfirst : p.send.first ≤ k) (hk : k + 1 = a.expected) :
    ∃ b, Reachable (job p x) b ∧ Grown a b ∧ KnownAck b (Tftp.ack k) := by
  refine ⟨_, ha.step (Step.ack a k hfirst hk), ⟨rfl, rfl, rfl, subset_rfl, Set.subset_insert _ _⟩, ?_⟩
  exact ⟨show ACK ≠ ERROR by decide, fun _ => ⟨k, Set.mem_insert _ _, rfl⟩⟩

theorem first_le_pred (p : Pairing) {k : Nat} (h : p.recv.asks = true → 2 ≤ k) : p.send.first ≤ k - 1 := by
  have hle := p.send_exact.first_le
  cases hasks : p.recv.asks with
  | true =>
    have := h hasks
    omega
  | false =>
    have := p.first_eq hasks
    omega

theorem send_ackbuf (ha : Reachable (job p x) a) {r : Receiver} (hr : Receiver.At p.recv (x.request p) false r)
    (heq : a.expected = r.block) : ∃ b, Reachable (job p x) b ∧ Grown a b ∧ KnownAck b r.ackbuf := by
  rcases hr.answers with ⟨-, -, hbuf⟩ | ⟨hpos, hbuf⟩
  · obtain ⟨herror, -, hack⟩ := request_opcode p x
    rw [hbuf]
    exact ⟨a, ha, Grown.refl a, herror, fun h => absurd h hack⟩
  · have := hr.pos
    rw [hbuf]
    exact send_ack ha (first_le_pred p hpos) (by omega)

/-! ## The simulation -/

theorem ReceiverOk.of_expected {r : Receiver} (h : ReceiverOk p x r a) (heq : b.expected = a.expected) : ReceiverOk p x r b := by
  cases h with
  | waiting h hr => exact .waiting h (heq.trans hr)
  | left h hr hlast => exact .left h (heq.trans hr) (heq.trans hlast)
  | timedOut h hfile => exact .timedOut h hfile

/-- A turn of the sender that is a step of stop-and-wait. -/
theorem Sim.senderTurn (h : Sim p x s a) {t : Turn Sender} (hb : Reachable (job p x) b) (hexpected : b.expected = a.expected)
    (htaken : b.taken = a.taken) (hdata : a.data ⊆ b.data) (hacks : a.acks ⊆ b.acks) (hstate : SenderOk p x t.state)
    (hblock : t.state.block = b.block) (hsent : ∀ q ∈ t.sent, KnownData b q) : Sim p x (s.senderTurn t) b where
  reach := hb
  small := hexpected ▸ h.small
  toReceiver := Way.all_send (h.toReceiver.mono fun _ => knownData_mono hdata) hsent
  toSender := Way.all_flush _ (h.toSender.mono fun _ => knownAck_mono hacks)
  block := hblock
  sender := hstate
  taken := h.taken.trans htaken.symm
  receiver := h.receiver.of_expected hexpected

theorem Sim.receiverTurn (h : Sim p x s a) {t : Turn Receiver} (hb : Reachable (job p x) b) (hblock : b.block = a.block)
    (hsmall : b.expected ≤ 65536) (hdata : a.data ⊆ b.data) (hacks : a.acks ⊆ b.acks) (hstate : ReceiverOk p x t.state b)
    (htaken : t.state.taken = b.taken) (hsent : ∀ q ∈ t.sent, KnownAck b q) : Sim p x (s.receiverTurn t) b where
  reach := hb
  small := hsmall
  toReceiver := Way.all_flush _ (h.toReceiver.mono fun _ => knownData_mono hdata)
  toSender := Way.all_send (h.toSender.mono fun _ => knownAck_mono hacks) hsent
  block := h.block.trans hblock.symm
  sender := h.sender
  taken := htaken
  receiver := hstate

theorem SenderOk.at_waiting {t : Sender} (h : SenderOk p x t) (hwait : t.status = .waiting) :
    Sender.At x.file (x.request p) t ∧ t.block ≤ lastBlock x.file := by
  cases h with
  | waiting h hle => exact ⟨h, hle⟩
  | left h => exact absurd (hwait.symm.trans h) (by decide)
  | timedOut h => exact absurd (hwait.symm.trans h) (by decide)

/-- An ACK has come to the sender. -/
theorem sim_send_receive (h : Sim p x s a) (hwait : s.sender.status = .waiting) {ap : Tftphdr} (hap : KnownAck a ap) :
    ∃ b, Sim p x (s.senderTurn (p.send.receive s.sender ap)) b := by
  obtain ⟨hat, hle⟩ := h.sender.at_waiting hwait
  have hinv := Lib.StopAndWait.inv h.reach
  have hfirst : p.send.first ≤ s.sender.block := h.block ▸ hinv.first_le
  -- an ACK that is taken for this block's is one
  have hstep : ap.opcode = ACK → p.send.acked ap.block s.sender.block = true →
      Reachable (job p x) { a with block := a.block + 1 } := by
    intro hack hacked
    obtain ⟨k, hk, heq⟩ := hap.2 hack
    obtain ⟨hkfirst, hklt⟩ := hinv.acks k hk
    have hsmall := h.small
    have hble := hinv.block_le
    have hkb : k = s.sender.block :=
      p.send_exact.acked hkfirst (by omega) hfirst (by rw [h.block]; omega) heq hacked
    exact h.reach.step (Step.advance a (h.block ▸ hle) (by rw [← h.block, ← hkb]; exact hk))
  rcases p.send.receive_cases hat hap.1 with
    ⟨hack, hacked, hmore, hat', hblock', hsent⟩ | ⟨hack, hacked, hmore, hstate, hsent⟩ | ⟨-, hstate, hsent⟩
  · have hnext := (p.send_exact.more hat.holds hfirst hle).mp hmore
    obtain ⟨b, hb, hg, hknown⟩ := send_packet (hstep hack hacked) (Nat.succ_le_succ (Nat.zero_le _)) (h.block ▸ hnext)
    have hle' : (p.send.receive s.sender ap).state.block ≤ lastBlock x.file := by rwa [hblock']
    refine ⟨b, h.senderTurn hb hg.expected hg.taken hg.data hg.acks (.waiting hat' hle') ?_ ?_⟩
    · rw [hblock', hg.block, h.block]
    · rw [hsent, h.block]
      exact fun q hq => List.mem_singleton.mp hq ▸ hknown
  · have hnot := (p.send_exact.more hat.holds hfirst hle).not.mp (by rw [hmore]; decide)
    refine ⟨_, h.senderTurn (hstep hack hacked) rfl rfl subset_rfl subset_rfl ?_ ?_ ?_⟩
    · rw [hstate]
      exact .left rfl (show s.sender.block + 1 = lastBlock x.file + 1 by omega)
    · rw [hstate]
      exact congrArg (· + 1) h.block
    · rw [hsent]
      exact fun q hq => nomatch hq
  · obtain ⟨b, hb, hg, hknown⟩ := send_dp h.reach hat h.block hle
    refine ⟨b, h.senderTurn hb hg.expected hg.taken hg.data hg.acks ?_ ?_ ?_⟩
    · rw [hstate]
      exact h.sender
    · rw [hstate, hg.block, h.block]
    · rcases hsent with hsent | hsent <;> rw [hsent]
      · exact fun q hq => nomatch hq
      · exact fun q hq => List.mem_singleton.mp hq ▸ hknown

theorem sim_send_timer (h : Sim p x s a) (hwait : s.sender.status = .waiting) :
    ∃ b, Sim p x (s.senderTurn (s.sender.timer x.senderTimer)) b := by
  obtain ⟨hat, hle⟩ := h.sender.at_waiting hwait
  rcases Sender.timer_cases x.senderTimer hat with ⟨hat', hblock', hsent⟩ | ⟨hstate, hblock', hsent⟩
  · obtain ⟨b, hb, hg, hknown⟩ := send_dp h.reach hat h.block hle
    refine ⟨b, h.senderTurn hb hg.expected hg.taken hg.data hg.acks (.waiting hat' (hblock' ▸ hle)) ?_ ?_⟩
    · rw [hblock', hg.block, h.block]
    · rw [hsent]
      exact fun q hq => List.mem_singleton.mp hq ▸ hknown
  · refine ⟨a, h.senderTurn h.reach rfl rfl subset_rfl subset_rfl (.timedOut hstate) (hblock'.trans h.block) ?_⟩
    rw [hsent]
    exact fun q hq => nomatch hq

/-- A block in flight with the number that is waited for is that block. -/
theorem take_step (h : Sim p x s a) {dp : Tftphdr} (hdp : KnownData a dp) (hdata : dp.opcode = DATA)
    (hblock : dp.block.toNat = a.expected) :
    Reachable (job p x) { a with expected := a.expected + 1, taken := a.taken ++ [dp.data] } ∧
      a.expected < 65536 ∧ a.expected ≤ lastBlock x.file ∧ dp.data = piece x.file a.expected := by
  have hinv := Lib.StopAndWait.inv h.reach
  obtain ⟨k, hpos, hk, heq⟩ := hdp.2 hdata
  obtain ⟨hle, hlast, hcontent⟩ := hinv.data k _ hk
  have hsmall := h.small
  have hexpected := hinv.pos
  have hble := hinv.block_le
  rw [heq, UInt16.toNat_ofNat'] at hblock
  -- the 65536th would be a 0, which is not waited for
  obtain rfl : k = a.expected := by omega
  exact ⟨h.reach.step (Step.take a _ hk), by omega, hlast, hcontent⟩

/-- The receiver has gone on behind the block that it had been waiting for. -/
theorem sim_taken (h : Sim p x s a) {dp : Tftphdr} (hdp : KnownData a dp) (hdata : dp.opcode = DATA)
    (hblock : dp.block.toNat = a.expected) {t : Turn Receiver} (htaken : t.state.taken = s.receiver.taken ++ [dp.data])
    (hsent : t.sent = [Tftp.ack a.expected])
    (hstate : dp.data.length = SEGSIZE ∧ Receiver.At p.recv (x.request p) false t.state ∧ t.state.block = a.expected + 1 ∨
      dp.data.length ≠ SEGSIZE ∧ Receiver.Left false t.state ∧ t.state.block = a.expected) :
    ∃ b, Sim p x (s.receiverTurn t) b := by
  have hinv := Lib.StopAndWait.inv h.reach
  have hpos := hinv.pos
  have hfirst := p.send_exact.first_le
  obtain ⟨hreach, hsmall, hlast, hcontent⟩ := take_step h hdp hdata hblock
  obtain ⟨b, hb, hg, hknown⟩ := send_ack hreach (Nat.le_trans hfirst hpos) rfl
  have hexpected : b.expected = a.expected + 1 := hg.expected
  refine ⟨b, h.receiverTurn hb hg.block (by omega) hg.data hg.acks ?_ ?_ ?_⟩
  · rcases hstate with ⟨-, hat, hnext⟩ | ⟨hshort, hleft, hsame⟩
    · exact .waiting hat (hexpected.trans hnext.symm)
    · have hiff := length_piece_lt_iff hpos hlast
      rw [hcontent, Ne, hiff] at hshort
      exact .left hleft (hexpected.trans (congrArg (· + 1) hsame.symm)) (by omega)
  · rw [htaken, h.taken, hg.taken]
  · rw [hsent]
    exact fun q hq => List.mem_singleton.mp hq ▸ hknown

/-- The last answer has been sent again, or nothing. -/
theorem sim_answered (h : Sim p x s a) (hat : Receiver.At p.recv (x.request p) false s.receiver)
    (heq : a.expected = s.receiver.block) {t : Turn Receiver} (hat' : Receiver.At p.recv (x.request p) false t.state)
    (hblock : t.state.block = s.receiver.block) (htaken : t.state.taken = s.receiver.taken)
    (hsent : t.sent = [] ∨ t.sent = [s.receiver.ackbuf]) : ∃ b, Sim p x (s.receiverTurn t) b := by
  obtain ⟨b, hb, hg, hknown⟩ := send_ackbuf h.reach hat heq
  refine ⟨b, h.receiverTurn hb hg.block (hg.expected ▸ h.small) hg.data hg.acks
    (.waiting hat' (hg.expected.trans (heq.trans hblock.symm))) (htaken.trans (h.taken.trans hg.taken.symm)) ?_⟩
  rcases hsent with hsent | hsent <;> rw [hsent]
  · exact fun q hq => nomatch hq
  · exact fun q hq => List.mem_singleton.mp hq ▸ hknown

/-- A packet has come to the receiver. -/
theorem sim_recv_receive (h : Sim p x s a) (hrecv : s.receiving) {dp : Tftphdr} (hdp : KnownData a dp) :
    ∃ b, Sim p x (s.receiverTurn (p.recv.receive s.receiver dp)) b := by
  cases h.receiver with
  | waiting hat heq =>
    rcases RecvLoop.receive_cases p.recv_exact hat hdp.1 with
      ⟨hdata, hblock, htaken, hsent, hstate⟩ | ⟨-, hat', hblock, htaken, hsent⟩
    · rw [← heq] at hblock hsent hstate
      exact sim_taken h hdp hdata hblock htaken hsent hstate
    · exact sim_answered h hat heq hat' hblock htaken (hsent.imp_right And.right)
  | left hleft heq hlast =>
    have hdally : s.receiver.dallying = true := by
      rcases hrecv with hwait | ⟨-, hdally⟩
      · exact absurd (hwait.symm.trans hleft.left) (by decide)
      · exact hdally
    obtain ⟨hleft', hblock, htaken, hsent⟩ := Receiver.last_left hleft
    rw [RecvLoop.receive, if_pos hdally]
    have hfirst : p.send.first ≤ s.receiver.block := by
      have := p.send_exact.first_le
      have := lastBlock_pos x.file
      omega
    obtain ⟨b, hb, hg, hknown⟩ := send_ack h.reach hfirst heq.symm
    refine ⟨b, h.receiverTurn hb hg.block (hg.expected ▸ h.small) hg.data hg.acks
      (.left hleft' (hg.expected.trans (by rw [hblock, heq])) (hg.expected.trans hlast))
      (htaken.trans (h.taken.trans hg.taken.symm)) ?_⟩
    rcases hsent with hsent | hsent <;> rw [hsent]
    · intro q hq
      cases hq
    · exact fun q hq => List.mem_singleton.mp hq ▸ hknown
  | timedOut hstatus =>
    rcases hrecv with hwait | ⟨hleft, -⟩
    · exact absurd (hwait.symm.trans hstatus) (by decide)
    · exact absurd (hleft.symm.trans hstatus) (by decide)

theorem sim_recv_timer (h : Sim p x s a) (hrecv : s.receiving) :
    ∃ b, Sim p x (s.receiverTurn (s.receiver.timer x.receiverTimer)) b := by
  cases h.receiver with
  | waiting hat heq =>
    rcases Receiver.timer_cases x.receiverTimer hat with
      ⟨hat', hblock, htaken, hsent⟩ | ⟨hstatus, hblock, htaken, hfile, hsent⟩
    · exact sim_answered h hat heq hat' hblock htaken (Or.inr hsent)
    · refine ⟨a, h.receiverTurn h.reach rfl h.small subset_rfl subset_rfl (.timedOut hstatus ?_) (htaken.trans h.taken) ?_⟩
      · rw [hfile, htaken, hat.written.eq_decoded, decoded_false]
      · rw [hsent]
        intro q hq
        cases hq
  | left hleft heq hlast =>
    have hdally : s.receiver.dallying = true := by
      rcases hrecv with hwait | ⟨-, hdally⟩
      · exact absurd (hwait.symm.trans hleft.left) (by decide)
      · exact hdally
    rw [Receiver.timer, if_pos hdally]
    refine ⟨a, h.receiverTurn h.reach rfl h.small subset_rfl subset_rfl
      (.left ⟨hleft.left, hleft.ackbuf, hleft.file⟩ heq hlast) h.taken ?_⟩
    intro q hq
    cases hq
  | timedOut hstatus =>
    rcases hrecv with hwait | ⟨hleft, -⟩
    · exact absurd (hwait.symm.trans hstatus) (by decide)
    · exact absurd (hleft.symm.trans hstatus) (by decide)

/-- The channel does not make up anything. -/
theorem sim_change (h : Sim p x s a) (side : Party) {f : Way → Way} (hf : ∀ P w, Way.All P w → Way.All P (f w)) :
    Sim p x (s.change side f) a := by
  cases side with
  | sender => exact { h with toSender := hf _ _ h.toSender }
  | receiver => exact { h with toReceiver := hf _ _ h.toReceiver }

/-- One step of a run is some steps of stop-and-wait. -/
theorem sim_next (h : Sim p x s a) (e : Event) : ∃ b, Sim p x (next p x s e) b := by
  cases e with
  | lose side i => exact ⟨a, sim_change h side fun _ _ => Way.all_lose i⟩
  | duplicate side i => exact ⟨a, sim_change h side fun _ _ => Way.all_duplicate i⟩
  | arrive side i => exact ⟨a, sim_change h side fun _ _ => Way.all_arrive i⟩
  | recv party =>
    cases party with
    | sender =>
      rw [next]
      rcases hq : s.toSender.queue with _ | ⟨ap, queue⟩
      · exact ⟨a, h⟩
      · obtain ⟨hap, htail⟩ := Way.all_tail h.toSender hq
        simp only
        split
        · rename_i hwait
          exact sim_send_receive (s := { s with toSender := { s.toSender with queue := queue } })
            { h with toSender := htail } hwait hap
        · exact ⟨a, h⟩
    | receiver =>
      rw [next]
      rcases hq : s.toReceiver.queue with _ | ⟨dp, queue⟩
      · exact ⟨a, h⟩
      · obtain ⟨hdp, htail⟩ := Way.all_tail h.toReceiver hq
        simp only
        split
        · rename_i hrecv
          exact sim_recv_receive (s := { s with toReceiver := { s.toReceiver with queue := queue } })
            { h with toReceiver := htail } hrecv hdp
        · exact ⟨a, h⟩
  | timer party =>
    cases party with
    | sender =>
      rw [next]
      split
      · rename_i hwait
        exact sim_send_timer h hwait
      · exact ⟨a, h⟩
    | receiver =>
      rw [next]
      split
      · rename_i hrecv
        exact sim_recv_timer h hrecv
      · exact ⟨a, h⟩

theorem sim_start (p : Pairing) (x : Setup) : ∃ a, Sim p x (start p x) a := by
  obtain ⟨hat, hblock, hsent⟩ := SendLoop.start_spec p.send_exact.first_le false (x.request p) x.senderSubs x.file
  obtain ⟨rat, rblock, rtaken, rsent⟩ := RecvLoop.start_spec p.recv false (x.request p) x.receiverSubs
  have hle : (p.send.start false (x.request p) x.senderSubs x.file).1.block ≤ lastBlock x.file := by
    rw [hblock]
    exact Nat.le_trans p.send_exact.first_le (lastBlock_pos x.file)
  have hinit : Reachable (job p x) (Lib.StopAndWait.init (job p x)) := .init
  -- first what the sender sends, then what the receiver does
  obtain ⟨b, hb, hg, hknown⟩ : ∃ b, Reachable (job p x) b ∧ Grown (Lib.StopAndWait.init (job p x)) b ∧
      KnownData b (p.send.start false (x.request p) x.senderSubs x.file).2 := by
    rw [hsent]
    split
    · obtain ⟨herror, hdata, -⟩ := request_opcode p x
      exact ⟨_, hinit, Grown.refl _, herror, fun h => absurd h hdata⟩
    · rename_i hne
      have hone : (Lib.StopAndWait.init (job p x)).block = 1 := by
        have := p.send_exact.first_le
        exact show p.send.first = 1 by omega
      rw [← hone]
      exact send_packet hinit (Nat.le_of_eq hone.symm) (hone ▸ lastBlock_pos x.file)
  obtain ⟨c, hc, hg', hknown'⟩ := send_ackbuf hb rat (by rw [rblock]; exact hg.expected)
  refine ⟨c, hc, ?_, ?_, ?_, ?_, .waiting hat hle, ?_, .waiting rat ?_⟩
  · rw [hg'.expected, hg.expected]
    exact show 1 ≤ 65536 by decide
  · exact ⟨fun q hq => List.mem_singleton.mp hq ▸ knownData_mono hg'.data hknown, fun q hq => nomatch hq⟩
  · refine ⟨fun q hq => ?_, fun q hq => nomatch hq⟩
    rw [List.mem_singleton.mp hq]
    exact rsent ▸ hknown'
  · exact hblock.trans (hg'.block.trans hg.block).symm
  · exact rtaken.trans (hg'.taken.trans hg.taken).symm
  · exact (hg'.expected.trans hg.expected).trans rblock.symm

theorem sim_run (p : Pairing) (x : Setup) (events : List Event) : ∃ a, Sim p x (run p x events) a := by
  have hfold : ∀ s, (∃ a, Sim p x s a) → ∃ a, Sim p x (events.foldl (next p x) s) a := by
    induction events with
    | nil => exact fun s h => h
    | cons e events ih =>
      rintro s ⟨a, h⟩
      exact ih (next p x s e) (sim_next h e)
  exact hfold _ (sim_start p x)

/-! ## What has come -/

/-- What holds of every state of a run. -/
structure Correct (x : Setup) (s : Sys) : Prop where
  /-- The blocks are taken in order, none twice. -/
  in_order : s.receiver.taken <+: blocks x.file
  /-- They are what is in the file, once each. -/
  written : s.receiver.file = s.receiver.taken.flatten
  received : s.receiver.status = .left → s.receiver.file = x.file
  sent : s.sender.status = .left → s.receiver.taken = blocks x.file

theorem ReceiverOk.file {r : Receiver} (h : ReceiverOk p x r a) : r.file = r.taken.flatten := by
  cases h with
  | waiting h => exact h.written.eq_decoded
  | left h => exact h.file
  | timedOut _ hfile => exact hfile

theorem correct_of_sim (h : Sim p x s a) : Correct x s := by
  have hinv := Lib.StopAndWait.inv h.reach
  have hfile := h.receiver.file
  refine ⟨?_, hfile, ?_, ?_⟩
  · rw [h.taken]
    exact Lib.StopAndWait.taken_prefix hinv
  · intro hleft
    cases h.receiver with
    | waiting hat => exact absurd (hleft.symm.trans hat.waiting) (by decide)
    | left _ _ hlast =>
      have htaken : a.taken = blocks x.file := Lib.StopAndWait.taken_of_expected hinv hlast
      rw [hfile, h.taken, htaken]
      exact flatten_blocks x.file
    | timedOut hstatus => exact absurd (hleft.symm.trans hstatus) (by decide)
  · intro hleft
    cases h.sender with
    | waiting hat => exact absurd (hleft.symm.trans hat.waiting) (by decide)
    | left _ heq =>
      rw [h.taken]
      exact Lib.StopAndWait.taken_of_left hinv (h.block ▸ heq)
    | timedOut hstatus => exact absurd (hleft.symm.trans hstatus) (by decide)

/-- Whatever the channel does, whenever the timers go off: a file that has been put or got is
    the file, and a sender that is done has sent it. -/
theorem transfer_correct (x : Setup) (events : List Event) : Correct x (run put x events) ∧ Correct x (run get x events) := by
  obtain ⟨_, hput⟩ := sim_run put x events
  obtain ⟨_, hget⟩ := sim_run get x events
  exact ⟨correct_of_sim hput, correct_of_sim hget⟩

/-- A file of one byte, after no other. -/
def small : Setup :=
  let subs : Subs := ⟨fun _ => ⟨BF_FREE, ⟨0, 0, []⟩⟩, false, false, false, none⟩
  ⟨[7], (0, []), ⟨5, 25⟩, ⟨5, 25⟩, subs, subs⟩

-- ACK 0, DATA 1 and ACK 1
example : (run put small [.arrive .sender 0, .recv .sender, .arrive .receiver 1, .recv .receiver, .arrive .sender 0,
    .recv .sender]).sender.status = .left := by decide

end Netutils.Session.TftpTransfer
