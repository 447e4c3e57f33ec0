/-
  Netutils.Session.EditMode — telnetd and telnet tell each other the edit modes.

  The pty follows what telnetd has taken over, or telnetd gets a packet about it
  (`modes_agree`). telnet acknowledges what telnetd proposes and telnetd what telnet asks for, and
  nothing follows from an acknowledgement of what the party has: with both values mirrored, the
  parties agree whenever nothing is under way, unless a proposal and a request have crossed. Then
  each party keeps what the other one had said, and no later delivery puts that right. Deliveries
  come to an end in any case (`modes_end`).
-/

import Mathlib.Algebra.GroupWithZero.Nat
import Netutils.Lib.Mirror
import Netutils.Telnet.Linemode
import Netutils.Telnetd.Termstat

namespace Netutils.Session.EditMode

open Netutils.Arpa
open Netutils.Lib (Mirror.Values Mirror.Move)
open Netutils.Lib.Transition
open Netutils.Telnet (Linemode modeBits)
open Netutils.Telnetd (Termbuf Termstat isAck isAck_modesOf modesOf modesOf_modesOf)

/-! ## The parties -/

structure Pair where
  telnetd : Termstat
  telnet : Linemode
  /-- The pty has a TIOCPKT_IOCTL for telnetd. -/
  packet : Bool
  toTelnetd : List UInt8
  toTelnet : List UInt8

namespace Pair

def server (p : Pair) : Termstat := { p.telnetd with sent := [] }

def client (p : Pair) : Linemode := { p.telnet with sent := [] }

def telnetdSent (p : Pair) (s : Termstat) : Pair := { p with telnetd := s, toTelnet := p.toTelnet ++ s.sent }

def telnetSent (p : Pair) (s : Linemode) : Pair := { p with telnet := s, toTelnetd := p.toTelnetd ++ s.sent }

/-- The modes that are asked for, without acknowledgements. -/
def requests (p : Pair) : List UInt8 := p.toTelnetd.filter (!isAck ·)

def proposals (p : Pair) : List UInt8 := p.toTelnet.filter (!isAck ·)

def Quiet (p : Pair) : Prop := p.requests = [] ∧ p.proposals = []

def view (p : Pair) : Mirror.Values UInt8 :=
  ⟨p.telnetd.editmode, p.telnet.modes, p.requests.map modesOf, p.proposals.map modesOf⟩

end Pair

/-- `room` is whether netoring has room for the sub-option. -/
inductive Event where
  /-- A program sets the modes of the pty. -/
  | program (pty : Termbuf)
  | packet
  | telnetd
  | telnet (room : Bool)
  | mode (bit : UInt8) (on room : Bool)

def step : Event → Pair → Option Pair
  | .program pty, p => some { p with telnetd := { p.telnetd with pty := pty }, packet := true }
  | .packet, p => if p.packet then some ({ p with packet := false }.telnetdSent p.server.ioctlPacket) else none
  | .telnetd, p =>
    match p.toTelnetd with
    | [] => none
    | m :: l => some ({ p with toTelnetd := l }.telnetdSent (p.server.receiveMode m))
  | .telnet room, p =>
    match p.toTelnet with
    | [] => none
    | m :: l => some ({ p with toTelnet := l }.telnetSent (p.client.lmMode [m] false room))
  | .mode bit on room, p =>
    if bit ∈ modeBits then some (p.telnetSent (p.client.dolmmode bit on room)) else none

/-- telnetd proposes modes only while no request is under way; and a mode command that changes
    linemode finds room in netoring (without it lm_mode sends nothing of the change) and no
    proposal under way. -/
def Uncrossed : Event → Pair → Prop
  | .packet, p => p.telnetd.proposal ≠ [] → p.requests = []
  | .telnetd, p =>
    ∀ m ∈ p.toTelnetd.head?, isAck m = true → modesOf m ≠ p.telnetd.editmode → p.telnetd.proposal ≠ [] → p.requests = []
  | .mode bit on room, p => (p.client.dolmmode bit on room).linemode ≠ p.telnet.linemode → room = true ∧ p.proposals = []
  | _, _ => True

instance : ∀ e p, Decidable (Uncrossed e p)
  | .program _, _ => .isTrue trivial
  | .packet, p => inferInstanceAs (Decidable (p.telnetd.proposal ≠ [] → p.requests = []))
  | .telnetd, p => inferInstanceAs (Decidable (∀ m ∈ p.toTelnetd.head?,
      isAck m = true → modesOf m ≠ p.telnetd.editmode → p.telnetd.proposal ≠ [] → p.requests = []))
  | .telnet _, _ => .isTrue trivial
  | .mode bit on room, p => inferInstanceAs (Decidable ((p.client.dolmmode bit on room).linemode ≠ p.telnet.linemode →
      room = true ∧ p.proposals = []))

/-! ## telnet -/

section telnet

variable (s : Linemode)

theorem modes_eq : s.modes = modesOf s.linemode := rfl

theorem and_modes (mask : UInt8) : mask &&& (MODE_MASK &&& ~~~MODE_ACK) = modesOf mask := (UInt8.and_assoc ..).symm

/-- What dolmmode asks for. -/
def withBit (l bit : UInt8) (on : Bool) : UInt8 := if on then l ||| bit else l &&& ~~~bit

/-- A bit of the modes does not make a mask one that has others. -/
theorem modesOf_bit {l bit : UInt8} (hbit : bit ∈ modeBits) (on : Bool) (h : modesOf (withBit l bit on) = l) :
    withBit l bit on = l := by
  have hall : ∀ (b : BitVec 8) (on : Bool), modeBits.all (fun bit =>
      decide (modesOf (withBit (.ofBitVec b) bit on) = .ofBitVec b → withBit (.ofBitVec b) bit on = .ofBitVec b)) =
        true := by decide +kernel
  exact of_decide_eq_true (List.all_eq_true.mp (hall l.toBitVec on) bit hbit) h

theorem lmMode_ack {m : UInt8} (h : isAck m = true) (init room : Bool) : s.lmMode [m] init room = s := by
  have hack : m &&& MODE_ACK ≠ 0 := of_decide_eq_true h
  unfold Linemode.lmMode
  simp only [if_pos hack, ite_self]

theorem lmMode_other {m : UInt8} (hne : s.modes ≠ m) (h : isAck m = false) (init room : Bool) :
    s.lmMode [m] init room = ⟨modesOf m,
      if room then s.sent ++ [if init then modesOf m else modesOf m ||| MODE_ACK] else s.sent⟩ := by
  have hack : ¬ m &&& MODE_ACK ≠ 0 := of_decide_eq_false h
  unfold Linemode.lmMode
  simp only [if_neg hne, if_neg hack, and_modes]
  cases room <;> rfl

/-- A proposal is taken over, and acknowledged if it is new. -/
theorem lmMode_proposal {m : UInt8} (h : isAck m = false) (room : Bool) :
    (s.lmMode [m] false room).modes = modesOf m ∧
      ∃ l, (s.lmMode [m] false room).sent = s.sent ++ l ∧ l.length ≤ 1 ∧ l.filter (!isAck ·) = [] := by
  by_cases hne : s.modes = m
  · have hsame : s.lmMode [m] false room = s := if_pos hne
    rw [hsame]
    exact ⟨by rw [← hne, modes_eq, modesOf_modesOf], [], (List.append_nil _).symm, Nat.zero_le 1, rfl⟩
  · rw [lmMode_other s hne h]
    refine ⟨modesOf_modesOf m, if room then [modesOf m ||| MODE_ACK] else [], ?_⟩
    cases room with
    | true => exact ⟨rfl, Nat.le_refl 1, by simp [Telnetd.isAck_or]⟩
    | false => exact ⟨(List.append_nil _).symm, Nat.zero_le 1, rfl⟩

/-- A command asks for other modes than telnet has, or does nothing. -/
theorem dolmmode_spec {bit : UInt8} (hbit : bit ∈ modeBits) (on room : Bool) :
    s.dolmmode bit on room = s ∨
      ∃ v, (s.dolmmode bit on room).linemode ≠ s.linemode ∧ isAck v = false ∧ modesOf v = v ∧
        s.dolmmode bit on room = ⟨v, if room then s.sent ++ [v] else s.sent⟩ := by
  obtain ⟨c, hc⟩ : ∃ c, c = withBit s.linemode bit on := ⟨_, rfl⟩
  have hdo : s.dolmmode bit on room = s.lmMode [c] true room := by rw [hc]; rfl
  rw [hdo]
  by_cases hne : s.modes = c
  · exact .inl (if_pos hne)
  cases hack : isAck c with
  | true => exact .inl (lmMode_ack s hack true room)
  | false =>
    have hother := lmMode_other s hne hack true room
    rw [if_pos rfl] at hother
    refine .inr ⟨modesOf c, ?_, isAck_modesOf c, modesOf_modesOf c, hother⟩
    rw [hother]
    intro hlinemode
    have hsame : c = s.linemode := by
      rw [hc] at hlinemode ⊢
      exact modesOf_bit hbit on hlinemode
    apply hne
    rw [modes_eq, ← hsame]
    exact hlinemode.trans hsame.symm

end telnet

/-! ## telnetd -/

section telnetd

variable (s : Termstat)

/-- What telnetd does with a mask: it has these modes, goes by the pty, or takes the modes over. -/
theorem receiveMode_cases (m : UInt8) :
    (modesOf m = s.editmode ∧ (s.receiveMode m).editmode = s.editmode ∧ (s.receiveMode m).sent = s.sent ∧
      (s.receiveMode m).pty = s.pty) ∨
    (isAck m = true ∧ modesOf m ≠ s.editmode ∧ (s.receiveMode m).editmode = s.pty.mode ∧
      (s.receiveMode m).sent = s.sent ++ s.proposal ∧ (s.receiveMode m).pty = s.pty) ∨
    (isAck m = false ∧ (s.receiveMode m).editmode = modesOf m ∧
      (s.receiveMode m).sent = s.sent ++ [modesOf m ||| MODE_ACK]) := by
  by_cases h : modesOf m = s.editmode
  · rw [s.receiveMode_same h]
    exact .inl ⟨h, rfl, rfl, rfl⟩
  cases hack : isAck m with
  | true =>
    rw [s.receiveMode_ack h hack]
    exact .inr (.inl ⟨rfl, h, rfl, rfl, rfl⟩)
  | false =>
    obtain ⟨heditmode, -, hsent⟩ := s.receiveMode_request h hack
    exact .inr (.inr ⟨rfl, heditmode, hsent⟩)

theorem ioctlPacket_spec :
    s.ioctlPacket.editmode = s.pty.mode ∧ s.ioctlPacket.sent = s.sent ++ s.proposal ∧ s.ioctlPacket.pty = s.pty := by
  have h := Termstat.localstat_spec { s with termbuf := s.pty, termbuf2 := s.pty } ⟨rfl, rfl⟩
  rw [Termstat.ioctlPacket, h]
  exact ⟨rfl, rfl, rfl⟩

/-- telnetd proposes the modes of the pty unless it has them. -/
theorem proposal_cases : (s.proposal = [] ∧ s.pty.mode = s.editmode) ∨ s.proposal = [s.pty.mode] := by
  unfold Termstat.proposal
  by_cases h : s.pty.mode = s.editmode
  · exact .inl ⟨if_neg (not_not.mpr h), h⟩
  · exact .inr (if_pos h)

end telnetd

/-! ## Steps as moves of the modes -/

variable {e : Event} {p q : Pair}

theorem requests_telnetSent (p : Pair) (s : Linemode) :
    (p.telnetSent s).requests = p.requests ++ s.sent.filter (!isAck ·) := List.filter_append ..

theorem proposals_telnetdSent (p : Pair) (s : Termstat) :
    (p.telnetdSent s).proposals = p.proposals ++ s.sent.filter (!isAck ·) := List.filter_append ..

/-- telnetd has the modes of the pty, and has proposed them if they were new. -/
theorem view_followed {s : Termstat} (heditmode : s.editmode = p.telnetd.pty.mode) (hsent : s.sent = p.telnetd.proposal)
    (hok : p.telnetd.proposal ≠ [] → p.requests = []) :
    (p.telnetdSent s).view = p.view ∨
      ∃ m, Lib.Mirror.Uncrossed m p.view ∧ Lib.Mirror.move m p.view = some (p.telnetdSent s).view := by
  have hproposals : (p.telnetdSent s).proposals = p.proposals ++ p.telnetd.proposal.filter (!isAck ·) := by
    rw [proposals_telnetdSent, hsent]
  rcases proposal_cases p.telnetd with ⟨hnil, hsame⟩ | hone
  · refine .inl ?_
    rw [hnil, List.filter_nil, List.append_nil] at hproposals
    simp only [Pair.view, hproposals]
    simp only [Pair.telnetdSent, heditmode, hsame]
    rfl
  · have hquiet : p.requests = [] := hok (by rw [hone]; exact List.cons_ne_nil _ _)
    refine .inr ⟨.changeA p.telnetd.pty.mode, ?_, ?_⟩
    · show p.requests.map modesOf = []
      rw [hquiet]
      rfl
    · have hkeep : p.telnetd.proposal.filter (!isAck ·) = [p.telnetd.pty.mode] := by
        simp [hone, Telnetd.isAck_mode]
      rw [hkeep] at hproposals
      simp only [Lib.Mirror.move, Pair.view, hproposals, List.map_append, List.map_cons, List.map_nil,
        Telnetd.modesOf_mode]
      simp only [Pair.telnetdSent, heditmode]
      rfl

/-- telnetd gets a mask. -/
theorem view_telnetd {m : UInt8} {l : List UInt8} (hm : p.toTelnetd = m :: l) (hok : Uncrossed .telnetd p) :
    let q := { p with toTelnetd := l }.telnetdSent (p.server.receiveMode m)
    q.view = p.view ∨ ∃ v, Lib.Mirror.Uncrossed v p.view ∧ Lib.Mirror.move v p.view = some q.view := by
  intro q
  rcases receiveMode_cases p.server m with ⟨hsame, heditmode, hsent, -⟩ | ⟨hack, hne, heditmode, hsent, -⟩ |
    ⟨hack, heditmode, hsent⟩
  · -- nothing new, and no answer
    have hq : q.view = ⟨p.telnetd.editmode, p.telnet.modes, (l.filter (!isAck ·)).map modesOf, p.proposals.map modesOf⟩ := by
      have hproposals : q.proposals = p.proposals := by
        rw [proposals_telnetdSent, hsent]
        exact List.append_nil _
      simp only [Pair.view, hproposals]
      simp only [q, Pair.telnetdSent, heditmode]
      rfl
    cases hack : isAck m with
    | true =>
      have hrequests : p.requests = l.filter (!isAck ·) := by
        rw [Pair.requests, hm, List.filter_cons_of_neg (by simp [hack])]
      exact .inl (by rw [hq, ← hrequests]; rfl)
    | false =>
      have hrequests : p.requests = m :: l.filter (!isAck ·) := by
        rw [Pair.requests, hm, List.filter_cons_of_pos (by simp [hack])]
      refine .inr ⟨.arriveA, trivial, ?_⟩
      rw [hq, Pair.view, hrequests]
      show some _ = some _
      rw [hsame]
      rfl
  · have hrequests : p.requests = l.filter (!isAck ·) := by
      rw [Pair.requests, hm, List.filter_cons_of_neg (by simp [hack])]
    have hbase : { p with toTelnetd := l }.view = p.view := by
      simp only [Pair.view, hrequests]
      rfl
    have hquiet : p.telnetd.proposal ≠ [] → { p with toTelnetd := l }.requests = [] := by
      intro hproposal
      have hnil : p.requests = [] := hok m (by rw [hm]; exact Option.mem_some_self m) hack hne hproposal
      exact hrequests.symm.trans hnil
    rw [← hbase]
    exact view_followed (p := { p with toTelnetd := l }) heditmode hsent hquiet
  · have hrequests : p.requests = m :: l.filter (!isAck ·) := by
      rw [Pair.requests, hm, List.filter_cons_of_pos (by simp [hack])]
    have hproposals : q.proposals = p.proposals := by
      have hdrop : (p.server.receiveMode m).sent.filter (!isAck ·) = [] := by
        rw [hsent]
        simp [Pair.server, Telnetd.isAck_or]
      rw [proposals_telnetdSent, hdrop]
      exact List.append_nil _
    refine .inr ⟨.arriveA, trivial, ?_⟩
    simp only [Lib.Mirror.move, Pair.view, hrequests, hproposals, List.map_cons]
    simp only [q, Pair.telnetdSent, heditmode]
    rfl

/-- telnet gets a mask. -/
theorem view_telnet {m : UInt8} {l : List UInt8} (hm : p.toTelnet = m :: l) (room : Bool) :
    let q := { p with toTelnet := l }.telnetSent (p.client.lmMode [m] false room)
    q.view = p.view ∨ ∃ v, Lib.Mirror.Uncrossed v p.view ∧ Lib.Mirror.move v p.view = some q.view := by
  intro q
  cases hack : isAck m with
  | true =>
    have hproposals : p.proposals = l.filter (!isAck ·) := by
      rw [Pair.proposals, hm, List.filter_cons_of_neg (by simp [hack])]
    refine .inl ?_
    have hrequests : q.requests = p.requests := by
      rw [requests_telnetSent, lmMode_ack _ hack]
      exact List.append_nil _
    simp only [Pair.view, hproposals, hrequests]
    simp only [q, Pair.telnetSent, lmMode_ack _ hack]
    rfl
  | false =>
    have hproposals : p.proposals = m :: l.filter (!isAck ·) := by
      rw [Pair.proposals, hm, List.filter_cons_of_pos (by simp [hack])]
    obtain ⟨hmodes, answer, hsent, -, hdrop⟩ := lmMode_proposal p.client hack room
    have hrequests : q.requests = p.requests := by
      have hnil : (p.client.lmMode [m] false room).sent.filter (!isAck ·) = [] := by
        rw [hsent]
        exact hdrop
      rw [requests_telnetSent, hnil]
      exact List.append_nil _
    refine .inr ⟨.arriveB, trivial, ?_⟩
    simp only [Lib.Mirror.move, Pair.view, hproposals, hrequests, List.map_cons]
    simp only [q, Pair.telnetSent, hmodes]
    rfl

/-- The user of telnet gives a command. -/
theorem view_mode {bit : UInt8} (hbit : bit ∈ modeBits) (on room : Bool) (hok : Uncrossed (.mode bit on room) p) :
    let q := p.telnetSent (p.client.dolmmode bit on room)
    q.view = p.view ∨ ∃ v, Lib.Mirror.Uncrossed v p.view ∧ Lib.Mirror.move v p.view = some q.view := by
  intro q
  rcases dolmmode_spec p.client hbit on room with hno | ⟨v, hne, hack, hplain, hdo⟩
  · refine .inl ?_
    have hrequests : q.requests = p.requests := by
      rw [requests_telnetSent, hno]
      exact List.append_nil _
    simp only [Pair.view, hrequests]
    simp only [q, Pair.telnetSent, hno]
    rfl
  · obtain ⟨hroom, hquiet⟩ := hok hne
    rw [hroom, if_pos rfl] at hdo
    have hrequests : q.requests = p.requests ++ [v] := by
      have hkeep : (p.client.dolmmode bit on room).sent.filter (!isAck ·) = [v] := by
        rw [hroom, hdo]
        simp [Pair.client, hack]
      rw [requests_telnetSent, hkeep]
    have hmodes : q.telnet.modes = v := by
      show (p.client.dolmmode bit on room).modes = v
      rw [hroom, hdo]
      exact hplain
    refine .inr ⟨.changeB v, ?_, ?_⟩
    · show p.proposals.map modesOf = []
      rw [hquiet]
      rfl
    · simp only [Lib.Mirror.move, Pair.view, hrequests, hmodes, List.map_append, List.map_cons, List.map_nil, hplain]
      rfl

/-- A step is a change of the mirrored modes, or leaves them alone. -/
theorem view_step (hok : Uncrossed e p) (h : step e p = some q) :
    q.view = p.view ∨ ∃ v, Lib.Mirror.Uncrossed v p.view ∧ Lib.Mirror.move v p.view = some q.view := by
  cases e with
  | program pty =>
    obtain rfl := Option.some.inj h
    exact .inl rfl
  | packet =>
    rw [step] at h
    split at h
    · obtain rfl := Option.some.inj h
      obtain ⟨heditmode, hsent, -⟩ := ioctlPacket_spec p.server
      exact view_followed (p := { p with packet := false }) heditmode hsent hok
    · cases h
  | telnetd =>
    rw [step] at h
    split at h
    · cases h
    · rename_i m l hm
      obtain rfl := Option.some.inj h
      exact view_telnetd hm hok
  | telnet room =>
    rw [step] at h
    split at h
    · cases h
    · rename_i m l hm
      obtain rfl := Option.some.inj h
      exact view_telnet hm room
  | mode bit on room =>
    rw [step] at h
    split at h
    · rename_i hbit
      obtain rfl := Option.some.inj h
      exact view_mode hbit on room hok
    · cases h

/-! ## The pty -/

/-- The pty is in the modes that telnetd has, or there is a packet about it. -/
def Followed (p : Pair) : Prop := p.packet = false → p.telnetd.pty.mode = p.telnetd.editmode

theorem followed_step (hp : Followed p) (h : step e p = some q) : Followed q := by
  cases e with
  | program pty =>
    obtain rfl := Option.some.inj h
    exact nofun
  | packet =>
    rw [step] at h
    split at h
    · obtain rfl := Option.some.inj h
      obtain ⟨heditmode, -, hpty⟩ := ioctlPacket_spec p.server
      exact fun _ => (congrArg Termbuf.mode hpty).trans heditmode.symm
    · cases h
  | telnetd =>
    rw [step] at h
    split at h
    · cases h
    · rename_i m l hm
      obtain rfl := Option.some.inj h
      exact fun hpacket => p.server.receiveMode_pty (hp hpacket)
  | telnet room =>
    rw [step] at h
    split at h
    · cases h
    · rename_i m l hm
      obtain rfl := Option.some.inj h
      exact hp
  | mode bit on room =>
    rw [step] at h
    split at h
    · obtain rfl := Option.some.inj h
      exact hp
    · cases h

/-- A proposal and a request that have crossed. -/
def crossed : List Event :=
  [.mode MODE_EDIT true true, .program ⟨false, true, false, true⟩, .packet, .telnetd, .telnet true, .telnetd, .telnet true]

def start : Pair :=
  ⟨⟨0, 0, ⟨false, false, false, true⟩, ⟨false, false, false, true⟩, ⟨false, false, false, true⟩, []⟩, ⟨0, []⟩, false, [], []⟩

example : (run step crossed start).map (fun q => (q.toTelnetd, q.toTelnet, q.telnetd.editmode, q.telnet.linemode)) =
    some ([], [], MODE_EDIT, MODE_TRAPSIG) := by decide

/-- A delivery, or a packet that telnetd reads. -/
def Delivers (p q : Pair) : Prop := ∃ e, (e = .packet ∨ e = .telnetd ∨ ∃ room, e = .telnet room) ∧ step e p = some q

def weight (mask : UInt8) : Nat := if isAck mask then 1 else 2

/-- Modes of the pty that telnetd has not proposed yet. -/
def owed (s : Termstat) : Nat := if s.pty.mode = s.editmode then 0 else 2

def measure (p : Pair) : Nat :=
  (p.toTelnetd.map weight).sum + (p.toTelnet.map weight).sum + owed p.telnetd + p.packet.toNat

theorem weight_pos (m : UInt8) : 0 < weight m := by
  unfold weight
  split <;> omega

theorem sum_proposal (s : Termstat) : (s.proposal.map weight).sum = owed s := by
  rcases proposal_cases s with ⟨hnil, hsame⟩ | hone
  · rw [hnil, owed, if_pos hsame]
    rfl
  · have hne : ¬ s.pty.mode = s.editmode := by
      intro hsame
      rw [Termstat.proposal, if_neg (not_not.mpr hsame)] at hone
      cases hone
    rw [hone, owed, if_neg hne]
    simp [weight, Telnetd.isAck_mode]

/-- What telnetd answers weighs less than what it has got. -/
theorem weight_receiveMode (s : Termstat) (hs : s.sent = []) (m : UInt8) :
    ((s.receiveMode m).sent.map weight).sum + owed (s.receiveMode m) < weight m + owed s := by
  rcases receiveMode_cases s m with ⟨-, heditmode, hsent, hpty⟩ | ⟨hack, -, heditmode, hsent, hpty⟩ |
    ⟨hack, heditmode, hsent⟩
  · have howed : owed (s.receiveMode m) = owed s := by rw [owed, owed, heditmode, hpty]
    have hpos := weight_pos m
    rw [hsent, hs, howed]
    simpa using hpos
  · have howed : owed (s.receiveMode m) = 0 := if_pos (by rw [hpty, heditmode])
    have hpos := weight_pos m
    rw [hsent, hs, List.nil_append, sum_proposal, howed]
    omega
  · have hanswer : ((s.receiveMode m).sent.map weight).sum = 1 := by
      rw [hsent, hs]
      simp [weight, Telnetd.isAck_or]
    have hweight : weight m = 2 := by
      rw [weight, hack]
      rfl
    have howed : owed (s.receiveMode m) ≤ owed s := by
      unfold owed
      by_cases hpty : s.pty.mode = s.editmode
      · rw [if_pos hpty, if_pos (s.receiveMode_pty hpty)]
      · rw [if_neg hpty]
        split <;> omega
    omega

theorem weight_lmMode (s : Linemode) (hs : s.sent = []) (m : UInt8) (room : Bool) :
    ((s.lmMode [m] false room).sent.map weight).sum < weight m := by
  cases hack : isAck m with
  | true =>
    rw [lmMode_ack s hack, hs]
    exact weight_pos m
  | false =>
    obtain ⟨-, l, hsent, hlen, hdrop⟩ := lmMode_proposal s hack room
    have hweight : weight m = 2 := by
      rw [weight, hack]
      rfl
    rw [hsent, hs, hweight, List.nil_append]
    match l, hlen, hdrop with
    | [], _, _ => exact Nat.two_pos
    | [a], _, hdrop =>
      have ha : isAck a = true := by
        cases h : isAck a
        · simp [h] at hdrop
        · rfl
      simp [weight, ha]

theorem measure_lt (h : Delivers p q) : measure q < measure p := by
  obtain ⟨e, he, h⟩ := h
  rcases he with rfl | rfl | ⟨room, rfl⟩ <;> rw [step] at h
  · split at h
    · rename_i hpacket
      obtain rfl := Option.some.inj h
      obtain ⟨heditmode, hsent, hpty⟩ := ioctlPacket_spec p.server
      have hsum := sum_proposal p.telnetd
      have howed : owed p.server.ioctlPacket = 0 := if_pos (by rw [hpty, heditmode])
      have hsent : p.server.ioctlPacket.sent = p.telnetd.proposal := hsent
      simp only [measure, Pair.telnetdSent, howed, hsent, List.map_append, List.sum_append, hsum, hpacket,
        Bool.toNat_false, Bool.toNat_true]
      omega
    · cases h
  · split at h
    · cases h
    · rename_i m l hm
      obtain rfl := Option.some.inj h
      have hless := weight_receiveMode p.server rfl m
      have howed : owed p.server = owed p.telnetd := rfl
      simp only [measure, Pair.telnetdSent, hm, List.map_append, List.map_cons, List.sum_append, List.sum_cons]
      omega
  · split at h
    · cases h
    · rename_i m l hm
      obtain rfl := Option.some.inj h
      have hless := weight_lmMode p.client rfl m room
      simp only [measure, Pair.telnetSent, hm, List.map_append, List.map_cons, List.sum_append, List.sum_cons]
      omega

/-- Whatever is under way, and with any modes that crossed: it ends, with nothing under way. -/
theorem modes_end (p : Pair) :
    Ends Delivers p ∧ ∀ q, (∀ r, ¬ Delivers q r) → q.toTelnetd = [] ∧ q.toTelnet = [] ∧ q.packet = false := by
  have hless : ∀ s t : Pair, True → Delivers s t → measure t < measure s := fun _ _ _ => measure_lt
  refine ⟨ends_of_measure measure (fun _ _ _ _ => trivial) hless trivial, ?_⟩
  intro q hfinal
  refine ⟨?_, ?_, ?_⟩
  · cases hm : q.toTelnetd with
    | nil => rfl
    | cons m l => exact absurd ⟨.telnetd, .inr (.inl rfl), by rw [step, hm]⟩ (hfinal _)
  · cases hm : q.toTelnet with
    | nil => rfl
    | cons m l => exact absurd ⟨.telnet true, .inr (.inr ⟨true, rfl⟩), by rw [step, hm]⟩ (hfinal _)
  · cases hpacket : q.packet with
    | false => rfl
    | true => exact absurd ⟨.packet, .inl rfl, by rw [step, hpacket]; rfl⟩ (hfinal _)

end Netutils.Session.EditMode
