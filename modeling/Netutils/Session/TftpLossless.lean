/-
  Netutils.Session.TftpLossless — the two pairings of TftpTransfer, in either mode, over a
  channel that delivers every datagram once and in order, before any timer goes off.

  One packet is under way at a time, a block or its ACK, and what is left to be done is its
  distance from the last ACK (`Phase`). Nothing is wrong with the ACKs: the senders would know
  each again, tftpd's by its 16 bits for ever, the client's up to 65535. But both receivers
  compare the 16 bits of a block with their int, and wait for block 65536 when it comes as 0;
  they do not answer, and nobody moves. So the transfers complete up to 65535 blocks and no
  longer (`completes_iff`).
-/

import Netutils.Lib.Transition
import Netutils.Session.TftpTransfer

namespace Netutils.Session.TftpLossless

open Relation
open Netutils.Arpa Netutils.Tftp Netutils.Libinetutils.Tftpsubs
open Netutils.Lib.Transition (Ends)
open Netutils.Session.TftpTransfer

/-! ## Runs without a loss -/

/-- The request has come to the server's main. -/
def served (p : Pairing) (s : Sys) : Sys :=
  if p.recv.asks then { s with toSender := ⟨[], []⟩ } else { s with toReceiver := ⟨[], []⟩ }

def start (convert : Bool) (p : Pairing) (x : Setup) : Sys := served p (startIn convert p x)

/-- The datagram that was sent first gets there, or one that is there is received. -/
inductive Move (p : Pairing) (x : Setup) : Sys → Sys → Prop
  | arriveSender (s : Sys) (h : s.toSender.flight ≠ []) : Move p x s (next p x s (.arrive .sender 0))
  | arriveReceiver (s : Sys) (h : s.toReceiver.flight ≠ []) : Move p x s (next p x s (.arrive .receiver 0))
  | recvSender (s : Sys) (h : s.toSender.queue ≠ []) (hwait : s.sender.status = .waiting) :
    Move p x s (next p x s (.recv .sender))
  | recvReceiver (s : Sys) (h : s.toReceiver.queue ≠ []) (hrecv : s.receiving) :
    Move p x s (next p x s (.recv .receiver))

/-- In whatever order things move, they come to an end, and then both parties have left their
    loops, with all of the blocks taken. -/
def Completes (convert : Bool) (p : Pairing) (x : Setup) : Prop :=
  Ends (Move p x) (start convert p x) ∧
    ∀ s, ReflTransGen (Move p x) (start convert p x) s → (∀ t, ¬ Move p x s t) →
      s.sender.status = .left ∧ s.receiver.status = .left ∧ s.receiver.taken = blocks (encoded convert x.file)

/-! ## The packet under way -/

/-- Nothing but this packet is on the way, `n` moves from being received. -/
def Carries (w : Way) (q : Tftphdr) (n : Nat) : Prop := (w = ⟨[q], []⟩ ∧ n = 2) ∨ (w = ⟨[], [q]⟩ ∧ n = 1)

def idle : Way := ⟨[], []⟩

@[simp] theorem flush_idle (flushed : Bool) : idle.flush flushed = idle := by cases flushed <;> rfl

theorem carries_send (q : Tftphdr) : Carries (idle.send [q]) q 2 := Or.inl ⟨rfl, rfl⟩

/-- The first `k` blocks. -/
def firstBlocks (text : List UInt8) (k : Nat) : List (List UInt8) := (List.range' 1 k).map (piece text)

theorem firstBlocks_succ (text : List UInt8) {k : Nat} (hk : 1 ≤ k) :
    firstBlocks text (k - 1) ++ [piece text k] = firstBlocks text k := by
  obtain ⟨j, rfl⟩ := Nat.exists_eq_add_of_le' hk
  rw [firstBlocks, firstBlocks, Nat.add_sub_cancel, List.range'_1_concat, List.map_append, Nat.add_comm 1 j]
  rfl

section Phase

variable (convert : Bool) (p : Pairing) (x : Setup)

/-- What is sent. -/
def text : List UInt8 := encoded convert x.file

/-- The receiver that has just acknowledged block `k`. -/
inductive Acknowledged (k : Nat) (s : Receiver) : Prop
  | waiting (hlt : k < lastBlock (text convert x)) (hat : Receiver.At p.recv (x.request p) convert s) (hblock : s.block = k + 1)
  | left (heq : k = lastBlock (text convert x)) (hleft : Receiver.Left convert s)

/-- The phases of a transfer, with the moves that may be left. -/
inductive Phase : Nat → Sys → Prop
  /-- ACK `k` is on the way. -/
  | acked {n : Nat} (s : Sys) (k : Nat) (hfirst : p.send.first ≤ k) (hlast : k ≤ lastBlock (text convert x)) (hsmall : k < 65536)
    (hto : Carries s.toSender (Tftp.ack k) n) (hidle : s.toReceiver = idle)
    (hat : Sender.At (text convert x) (x.request p) s.sender) (hblock : s.sender.block = k)
    (hrecv : Acknowledged convert p x k s.receiver) (htaken : s.receiver.taken = firstBlocks (text convert x) k) :
    Phase (4 * (lastBlock (text convert x) - k) + n) s
  /-- Block `k` is on the way. -/
  | data {n : Nat} (s : Sys) (k : Nat) (hpos : 1 ≤ k) (hlast : k ≤ lastBlock (text convert x)) (hsmall : k ≤ 65536)
    (hto : Carries s.toReceiver (Sender.packet (text convert x) k) n) (hidle : s.toSender = idle)
    (hat : Sender.At (text convert x) (x.request p) s.sender) (hblock : s.sender.block = k)
    (hrecv : Receiver.At p.recv (x.request p) convert s.receiver) (hwaits : s.receiver.block = k)
    (htaken : s.receiver.taken = firstBlocks (text convert x) (k - 1)) :
    Phase (4 * (lastBlock (text convert x) - k) + 2 + n) s
  | done (s : Sys) (hfits : lastBlock (text convert x) < 65536) (hidle : s.toSender = idle ∧ s.toReceiver = idle)
    (hsender : s.sender.status = .left) (hreceiver : s.receiver.status = .left)
    (htaken : s.receiver.taken = blocks (text convert x)) : Phase 0 s
  /-- Block 65536 has been sent as 0. -/
  | stuck (s : Sys) (hlong : 65536 ≤ lastBlock (text convert x)) (hidle : s.toSender = idle ∧ s.toReceiver = idle)
    (hsender : s.sender.status = .waiting) : Phase 0 s

end Phase

/-! ## The moves -/

variable {convert : Bool} {p : Pairing} {x : Setup} {s t : Sys} {n k : Nat}

/-- A sender takes the ACK of its block, as far as the 16 bits go. -/
def Takes (p : Pairing) : Prop := ∀ k, k < 65536 → p.send.acked (UInt16.ofNat k) k = true

theorem Carries.arrive {w : Way} {q : Tftphdr} (h : Carries w q n) (hflight : w.flight ≠ []) :
    Carries (w.arrive 0) q 1 ∧ 1 < n := by
  rcases h with ⟨rfl, rfl⟩ | ⟨rfl, -⟩
  · exact ⟨Or.inr ⟨rfl, rfl⟩, Nat.lt_succ_self 1⟩
  · exact absurd rfl hflight

theorem Carries.queue {w : Way} {q : Tftphdr} (h : Carries w q n) (hqueue : w.queue ≠ []) : w = ⟨[], [q]⟩ ∧ n = 1 := by
  rcases h with ⟨rfl, -⟩ | h
  · exact absurd rfl hqueue
  · exact h

theorem Carries.pos {w : Way} {q : Tftphdr} (h : Carries w q n) : 0 < n := by
  rcases h with ⟨-, rfl⟩ | ⟨-, rfl⟩ <;> decide

/-- The sender has received ACK `k`. -/
theorem acked_recv (hp : Takes p) (hfirst : p.send.first ≤ k) (hlast : k ≤ lastBlock (text convert x)) (hsmall : k < 65536)
    (hidle : s.toReceiver = idle) (hat : Sender.At (text convert x) (x.request p) s.sender) (hblock : s.sender.block = k)
    (hrecv : Acknowledged convert p x k s.receiver) (htaken : s.receiver.taken = firstBlocks (text convert x) k) :
    ∃ m, m ≤ 4 * (lastBlock (text convert x) - k) ∧
      Phase convert p x m ({ s with toSender := idle }.senderTurn (p.send.receive s.sender (Tftp.ack k))) := by
  have hacked : (Tftp.ack k).opcode = ACK ∧ p.send.acked (Tftp.ack k).block s.sender.block = true := by
    rw [hblock]
    exact ⟨rfl, hp k hsmall⟩
  have hmore_iff := p.send_exact.more hat.holds (hblock ▸ hfirst) (hblock ▸ hlast)
  rw [hblock] at hmore_iff
  have herror : (Tftp.ack k).opcode ≠ ERROR := show ACK ≠ ERROR by decide
  rcases p.send.receive_cases hat herror with
    ⟨-, -, hmore, hat', hblock', hsent⟩ | ⟨-, -, hmore, hstate, hsent⟩ | ⟨hnot, -⟩
  · rw [hblock] at hmore hblock' hsent
    have hlt : k + 1 ≤ lastBlock (text convert x) := hmore_iff.mp hmore
    cases hrecv with
    | waiting _ hrat hwaits =>
      refine ⟨_, ?_, Phase.data _ (k + 1) (Nat.succ_le_succ (Nat.zero_le _)) hlt hsmall
        (n := 2) ?_ (flush_idle _) hat' hblock' hrat hwaits htaken⟩
      · omega
      · show Carries (s.toReceiver.send _) _ 2
        rw [hidle, hsent]
        exact carries_send _
    | left heq => omega
  · rw [hblock] at hmore
    have hend : ¬ k + 1 ≤ lastBlock (text convert x) := by
      rw [← hmore_iff, hmore]
      decide
    cases hrecv with
    | waiting hlt => omega
    | left heq hleft =>
      refine ⟨0, Nat.zero_le _, Phase.done _ (heq ▸ hsmall) ⟨flush_idle _, ?_⟩ ?_ hleft.left ?_⟩
      · show s.toReceiver.send _ = idle
        rw [hidle, hsent]
        rfl
      · show (p.send.receive s.sender (Tftp.ack k)).state.status = .left
        rw [hstate]
      · show s.receiver.taken = firstBlocks (text convert x) (lastBlock (text convert x))
        rw [htaken, heq]
  · exact absurd hacked hnot

/-- The receiver has received block `k`. -/
theorem data_recv (hpos : 1 ≤ k) (hlast : k ≤ lastBlock (text convert x)) (hsmall : k ≤ 65536)
    (hidle : s.toSender = idle) (hat : Sender.At (text convert x) (x.request p) s.sender) (hblock : s.sender.block = k)
    (hrecv : Receiver.At p.recv (x.request p) convert s.receiver) (hwaits : s.receiver.block = k)
    (htaken : s.receiver.taken = firstBlocks (text convert x) (k - 1)) :
    ∃ m, m ≤ 4 * (lastBlock (text convert x) - k) + 2 ∧
      Phase convert p x m
        ({ s with toReceiver := idle }.receiverTurn (p.recv.receive s.receiver (Sender.packet (text convert x) k))) := by
  have hfull := length_piece_lt_iff hpos hlast
  have hnumber : (Sender.packet (text convert x) k).block.toNat = k % 65536 := UInt16.toNat_ofNat'
  have herror : (Sender.packet (text convert x) k).opcode ≠ ERROR := show DATA ≠ ERROR by decide
  rcases RecvLoop.receive_cases p.recv_exact hrecv herror with
    ⟨-, htook, htaken', hsent, hstate⟩ | ⟨hnot, -, -, -, hsent⟩
  · -- it is the block that is waited for
    rw [hnumber, hwaits] at htook
    have hlt : k < 65536 := by omega
    rw [hwaits] at hsent hstate
    refine ⟨_, Nat.le_refl _, Phase.acked _ k (Nat.le_trans p.send_exact.first_le hpos) hlast hlt (n := 2) ?_ (flush_idle _)
      hat hblock ?_ ?_⟩
    · show Carries (s.toSender.send _) _ 2
      rw [hidle, hsent]
      exact carries_send _
    · rcases hstate with ⟨hsize, hat', hblock'⟩ | ⟨hsize, hleft, -⟩
      · exact .waiting (hfull.mp hsize) hat' hblock'
      · exact .left (by have := hfull.not.mp hsize; omega) hleft
    · show (p.recv.receive s.receiver _).state.taken = _
      rw [htaken', htaken]
      exact firstBlocks_succ _ hpos
  · -- its number has become 0, which is not even that of the block before
    have hwrapped : k = 65536 := by
      rw [hnumber, hwaits] at hnot
      have : ¬ k % 65536 = k := fun h => hnot ⟨rfl, h⟩
      omega
    have hnone : (p.recv.receive s.receiver (Sender.packet (text convert x) k)).sent = [] := by
      rcases hsent with hnone | ⟨hbefore, -⟩
      · exact hnone
      · rw [hnumber, hwaits] at hbefore
        omega
    refine ⟨0, Nat.zero_le _, Phase.stuck _ (hwrapped ▸ hlast) ⟨?_, flush_idle _⟩ hat.waiting⟩
    show s.toSender.send _ = idle
    rw [hidle, hnone]
    rfl

/-- Every move takes the transfer on. -/
theorem phase_move (hp : Takes p) (h : Phase convert p x n s) (hmove : Move p x s t) : ∃ m, m < n ∧ Phase convert p x m t := by
  cases h with
  | acked s k hfirst hlast hsmall hto hidle hat hblock hrecv htaken =>
    cases hmove with
    | arriveSender h =>
      obtain ⟨hto', hlt⟩ := hto.arrive h
      exact ⟨_, Nat.add_lt_add_left hlt _, .acked _ k hfirst hlast hsmall hto' hidle hat hblock hrecv htaken⟩
    | arriveReceiver h => exact (h (by rw [hidle]; rfl)).elim
    | recvSender h hwait =>
      obtain ⟨hway, rfl⟩ := hto.queue h
      obtain ⟨m, hm, hphase⟩ := acked_recv hp hfirst hlast hsmall hidle hat hblock hrecv htaken
      refine ⟨m, Nat.lt_succ_of_le hm, ?_⟩
      rw [next, hway]
      simp only [if_pos hwait]
      exact hphase
    | recvReceiver h => exact (h (by rw [hidle]; rfl)).elim
  | data s k hpos hlast hsmall hto hidle hat hblock hrecv hwaits htaken =>
    cases hmove with
    | arriveSender h => exact (h (by rw [hidle]; rfl)).elim
    | arriveReceiver h =>
      obtain ⟨hto', hlt⟩ := hto.arrive h
      exact ⟨_, Nat.add_lt_add_left hlt _, .data _ k hpos hlast hsmall hto' hidle hat hblock hrecv hwaits htaken⟩
    | recvSender h => exact (h (by rw [hidle]; rfl)).elim
    | recvReceiver h hreceiving =>
      obtain ⟨hway, rfl⟩ := hto.queue h
      obtain ⟨m, hm, hphase⟩ := data_recv hpos hlast hsmall hidle hat hblock hrecv hwaits htaken
      refine ⟨m, Nat.lt_succ_of_le hm, ?_⟩
      rw [next, hway]
      simp only [if_pos hreceiving]
      exact hphase
  | done _ _ hidle | stuck _ _ hidle =>
    cases hmove with
    | arriveSender h => exact (h (by rw [hidle.1]; rfl)).elim
    | arriveReceiver h => exact (h (by rw [hidle.2]; rfl)).elim
    | recvSender h => exact (h (by rw [hidle.1]; rfl)).elim
    | recvReceiver h => exact (h (by rw [hidle.2]; rfl)).elim

/-- Where nothing moves any more. -/
theorem phase_final (h : Phase convert p x n s) (hfinal : ∀ t, ¬ Move p x s t) :
    (lastBlock (text convert x) < 65536 ∧ s.sender.status = .left ∧ s.receiver.status = .left ∧
        s.receiver.taken = blocks (text convert x)) ∨
      (65536 ≤ lastBlock (text convert x) ∧ s.sender.status = .waiting) := by
  cases h with
  | acked s k _ _ _ hto _ hat =>
    rcases hto with ⟨hway, -⟩ | ⟨hway, -⟩
    · exact absurd (Move.arriveSender s (by rw [hway]; exact nofun)) (hfinal _)
    · exact absurd (Move.recvSender s (by rw [hway]; exact nofun) hat.waiting) (hfinal _)
  | data s k _ _ _ hto _ _ _ hrecv =>
    rcases hto with ⟨hway, -⟩ | ⟨hway, -⟩
    · exact absurd (Move.arriveReceiver s (by rw [hway]; exact nofun)) (hfinal _)
    · exact absurd (Move.recvReceiver s (by rw [hway]; exact nofun) (Or.inl hrecv.waiting)) (hfinal _)
  | done _ hfits _ hsender hreceiver htaken => exact Or.inl ⟨hfits, hsender, hreceiver, htaken⟩
  | stuck _ hlong _ hsender => exact Or.inr ⟨hlong, hsender⟩

/-! ## The two pairings -/

theorem phase_reach (hp : Takes p) {a b : Sys} (ha : ∃ n, Phase convert p x n a) (h : ReflTransGen (Move p x) a b) :
    ∃ n, Phase convert p x n b := by
  induction h with
  | refl => exact ha
  | tail _ hmove ih =>
    obtain ⟨n, hn⟩ := ih
    obtain ⟨m, -, hm⟩ := phase_move hp hn hmove
    exact ⟨m, hm⟩

theorem completes_iff_of_start (hp : Takes p) (hstart : ∃ n, Phase convert p x n (start convert p x)) :
    Completes convert p x ↔ (text convert x).length < 65535 * SEGSIZE := by
  have hiff : (text convert x).length < 65535 * SEGSIZE ↔ lastBlock (text convert x) < 65536 := by
    unfold lastBlock SEGSIZE
    omega
  obtain ⟨n, hn⟩ := hstart
  have hends : Ends (Move p x) (start convert p x) :=
    Lib.Transition.ends_of_rank (P := Phase convert p x) (fun _ _ _ h hmove => phase_move hp h hmove) hn
  rw [hiff]
  constructor
  · intro h
    obtain ⟨-, hleft⟩ := h
    obtain ⟨s, hreach, hfinal⟩ := hends.exists_final
    obtain ⟨m, hm⟩ := phase_reach hp ⟨n, hn⟩ hreach
    rcases phase_final hm hfinal with ⟨hfits, -⟩ | ⟨-, hwaiting⟩
    · exact hfits
    · exact absurd (hwaiting.symm.trans (hleft s hreach hfinal).1) (by decide)
  · intro hfits
    refine ⟨hends, ?_⟩
    intro s hreach hfinal
    obtain ⟨m, hm⟩ := phase_reach hp ⟨n, hn⟩ hreach
    rcases phase_final hm hfinal with ⟨-, hleft⟩ | ⟨hlong, -⟩
    · exact hleft
    · omega

theorem put_takes : Takes put := by
  intro k hk
  exact decide_eq_true (toNat_ofNat hk)

theorem get_takes : Takes get := by
  intro k _
  exact decide_eq_true rfl

theorem put_start (convert : Bool) (x : Setup) : ∃ n, Phase convert put x n (start convert put x) := by
  obtain ⟨hat, hblock, -⟩ := SendLoop.start_spec put.send_exact.first_le convert (x.request put) x.senderSubs x.file
  obtain ⟨rat, rblock, rtaken, -⟩ := RecvLoop.start_spec put.recv convert (x.request put) x.receiverSubs
  exact ⟨_, .acked (n := 2) _ 0 (Nat.le_refl 0) (Nat.zero_le _) (by decide) (Or.inl ⟨rfl, rfl⟩) rfl hat hblock
    (.waiting (lastBlock_pos _) rat rblock) rtaken⟩

theorem get_start (convert : Bool) (x : Setup) : ∃ n, Phase convert get x n (start convert get x) := by
  obtain ⟨hat, hblock, hsent⟩ := SendLoop.start_spec get.send_exact.first_le convert (x.request get) x.senderSubs x.file
  obtain ⟨rat, rblock, rtaken, -⟩ := RecvLoop.start_spec get.recv convert (x.request get) x.receiverSubs
  refine ⟨_, .data (n := 2) _ 1 (Nat.le_refl 1) (lastBlock_pos _) (by decide) (Or.inl ⟨?_, rfl⟩) rfl hat hblock rat
    rblock rtaken⟩
  exact congrArg (fun q => (⟨[q], []⟩ : Way)) hsent

/-- A transfer without a loss completes if what is sent has at most 65535 blocks. -/
theorem completes_iff (convert : Bool) (x : Setup) :
    (Completes convert put x ↔ (encoded convert x.file).length < 65535 * SEGSIZE) ∧
      (Completes convert get x ↔ (encoded convert x.file).length < 65535 * SEGSIZE) :=
  ⟨completes_iff_of_start put_takes (put_start convert x), completes_iff_of_start get_takes (get_start convert x)⟩

/-- A file of 65535 full blocks, and an empty one behind them. -/
def large : Setup := { small with file := List.replicate (65535 * SEGSIZE) 0 }

theorem large_stuck : ¬ Completes false put large ∧ ¬ Completes false get large := by
  have hlength : ¬ (text false large).length < 65535 * SEGSIZE := by
    rw [text, encoded_false, large, List.length_replicate]
    exact Nat.lt_irrefl _
  rw [completes_iff_of_start put_takes (put_start false large), completes_iff_of_start get_takes (get_start false large)]
  exact ⟨hlength, hlength⟩

end Netutils.Session.TftpLossless
