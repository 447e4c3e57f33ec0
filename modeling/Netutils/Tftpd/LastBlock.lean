/-
  Netutils.Tftpd.LastBlock — the end of tftpd's recvfile (tftpd/tftpd.c), with datagrams of any
  size: one more is received behind the loop, and the last ACK is sent again if it is the last
  DATA packet once more.

  It is received into buf, but the header that is looked at is that of dp, and there writeit
  has put the buffer of the block before. So nothing is ever sent again, and the answer is the
  right one exactly where none is due (`last_answered_iff`).
-/

import Netutils.Tftp.Receiver

namespace Netutils.Tftpd

open Netutils.Arpa Netutils.Tftp Netutils.Libinetutils.Tftpsubs

/-! ## Datagrams -/

/-- Size of the buffers. -/
def PKTSIZE : Nat := SEGSIZE + 4

/-- Two bytes in network order, read as one of the host's numbers and put right. -/
def ntohs (a b : UInt8) : UInt16 := UInt16.ofNat (256 * a.toNat + b.toNat)

/-- The two bytes of a number in memory. -/
def memory (little : Bool) (v : UInt16) : UInt8 × UInt8 :=
  let high := UInt8.ofNat (v.toNat / 256)
  let low := UInt8.ofNat (v.toNat % 256)
  if little then (low, high) else (high, low)

/-- A field of the header after recv and ntohs: of a short datagram it keeps bytes of `old`, as
    the host has them. -/
def field (little : Bool) (old : UInt16) (a b : Option UInt8) : UInt16 :=
  ntohs (a.getD (memory little old).1) (b.getD (memory little old).2)

/-- `recv (peer, (char *) dp, PKTSIZE, 0)` and the ntohs of both fields. -/
def overlay (little : Bool) (old : Tftphdr) (d : List UInt8) : Tftphdr :=
  ⟨field little old.opcode d[0]? d[1]?, field little old.block d[2]? d[3]?, d.drop 4⟩

def bytes (p : Tftphdr) : List UInt8 :=
  [(memory false p.opcode).1, (memory false p.opcode).2, (memory false p.block).1, (memory false p.block).2] ++ p.data

/-! ## recvfile -/

/-- `writeit (file, &dp, n - 4, convert)` -/
def takeDatagram (s : Receiver) (n : Nat) : Receiver :=
  let r := writeit s.convert s.subs s.file ((n : Int) - 4)
  { s with subs := r.1, file := r.2, taken := s.taken ++ [s.subs.dp.data] }

/-- The last recv, which goes to buf. -/
def lastDatagram (s : Receiver) (n : Nat) : Turn Receiver :=
  let again := 4 ≤ n ∧ s.subs.dp.opcode = DATA ∧ s.block = s.subs.dp.block.toNat
  ⟨{ s with dallying := false }, if again then [s.ackbuf] else [], false⟩

/-- A datagram has come. -/
def receiveDatagram (little : Bool) (s : Receiver) (datagram : List UInt8) : Turn Receiver :=
  let d := datagram.take PKTSIZE
  if s.dallying then lastDatagram s d.length
  else
    let p := overlay little s.subs.dp d
    let s := { s with subs := s.subs.setDp p }
    if p.opcode = ERROR then recvfile.abort s
    else if p.opcode = DATA then
      if p.block.toNat = s.block then
        let s := takeDatagram s d.length
        if (d.length : Int) - 4 = SEGSIZE then
          let r := s.top
          ⟨r.1, [r.2], false⟩
        else recvfile.finish s
      else if (p.block.toNat : Int) = s.block - 1 then
        let r := s.sendAck
        ⟨r.1, [r.2], true⟩
      else ⟨s, [], true⟩
    else ⟨s, [], false⟩

inductive UploadEvent where
  | datagram (d : List UInt8)
  | timer

/-- bfs when the program starts. -/
def fresh : Subs := ⟨fun _ => ⟨0, 0, 0, []⟩, false, false, false, none⟩

def startUpload (convert : Bool) : Receiver := (recvfile.start convert ⟨0, 0, []⟩ fresh).1

def uploadStep (little : Bool) (t : Timer) (s : Receiver) : UploadEvent → Receiver
  | .datagram d => (receiveDatagram little s d).state
  | .timer => (s.timer t).state

/-- Only while recvfile is in one of its calls of recv. -/
def upload (little : Bool) (t : Timer) (convert : Bool) (es : List UploadEvent) : Receiver :=
  es.foldl (fun s e => if s.status = .waiting then uploadStep little t s e else s) (startUpload convert)

/-! ## A whole packet -/

theorem ntohs_memory (v : UInt16) : ntohs (memory false v).1 (memory false v).2 = v := by
  apply UInt16.toNat.inj
  have hv := v.toNat_lt
  have hsize : UInt8.size = 256 := rfl
  have hhigh : (UInt8.ofNat (v.toNat / 256)).toNat = v.toNat / 256 := UInt8.toNat_ofNat_of_lt' (by omega)
  have hlow : (UInt8.ofNat (v.toNat % 256)).toNat = v.toNat % 256 := UInt8.toNat_ofNat_of_lt' (by omega)
  simp only [ntohs, memory, Bool.false_eq_true, if_false, hhigh, hlow]
  rw [Nat.div_add_mod, UInt16.ofNat_toNat]

theorem overlay_bytes (little : Bool) (old p : Tftphdr) : overlay little old (bytes p) = p := by
  have hopcode := ntohs_memory p.opcode
  have hblock := ntohs_memory p.block
  simp only [overlay, field, bytes, List.cons_append, List.nil_append, List.getElem?_cons_zero,
    List.getElem?_cons_succ, Option.getD_some, List.drop_succ_cons, List.drop_zero, hopcode, hblock]

/-- With packets of four bytes at least and of no more than the buffers hold, in the loop, this
    is the recvfile of the other results. -/
theorem receiveDatagram_bytes (little : Bool) {s : Receiver} (hs : s.dallying = false) {p : Tftphdr}
    (hp : p.data.length ≤ SEGSIZE) : receiveDatagram little s (bytes p) = recvfile.receive s p := by
  have htake : (bytes p).take PKTSIZE = bytes p := List.take_of_length_le (by simp [bytes, PKTSIZE]; omega)
  have hlen : (((bytes p).length : Nat) : Int) - 4 = p.data.length := by
    simp only [bytes, List.length_append, List.length_cons, List.length_nil]
    omega
  have hdata : (s.subs.setDp p).dp.data = p.data := by simp [Subs.dp, Subs.setDp]
  have hfull : ((p.data.length : Int) = (SEGSIZE : Nat)) ↔ p.data.length = SEGSIZE := Int.natCast_inj
  unfold receiveDatagram RecvLoop.receive
  simp only [hs, Bool.false_eq_true, if_false, htake, overlay_bytes, takeDatagram, Receiver.take, hlen, hdata, hfull]

/-! ## The headers in the buffers -/

variable {convert : Bool} {s : Subs} {file : List UInt8} {ct : Int}

theorem writeBehind_header (i : Bool) : ((writeBehind convert s file).1.bfs i).buf = (s.bfs i).buf := by
  have hupdate : ∀ b : Bf, b.buf = (s.bfs s.nextone).buf →
      (Function.update s.bfs s.nextone b i).buf = (s.bfs i).buf := by
    intro b hb
    by_cases hi : i = s.nextone
    · rw [hi, Function.update_self, hb]
    · rw [Function.update_of_ne hi]
  unfold writeBehind
  simp only
  split
  · rfl
  split
  · exact hupdate _ rfl
  split
  · exact hupdate _ rfl
  · exact hupdate _ rfl

theorem writeBehind_current : (writeBehind convert s file).1.current = s.current := by
  unfold writeBehind
  simp only
  repeat' split
  all_goals rfl

/-- writeit hands out the other buffer, as it is. -/
theorem writeit_header (convert : Bool) (s : Subs) (file : List UInt8) (ct : Int) :
    (writeit convert s file ct).1.current = !s.current ∧
      ∀ i, ((writeit convert s file ct).1.bfs i).buf = (s.bfs i).buf := by
  have hupdate : ∀ (t : Subs) (j : Bool) (n : Int) (i : Bool),
      (Function.update t.bfs j { t.bfs j with counter := n } i).buf = (t.bfs i).buf := by
    intro t j n i
    by_cases hi : i = j
    · rw [hi, Function.update_self]
    · rw [Function.update_of_ne hi]
  unfold writeit
  simp only
  generalize ht : ({ s with
    bfs := Function.update s.bfs s.current { s.bfs s.current with counter := ct }, current := !s.current } : Subs) = t
  have hcurrent : t.current = !s.current := by rw [← ht]
  have hbuf : ∀ i, (t.bfs i).buf = (s.bfs i).buf := by
    intro i
    rw [← ht]
    exact hupdate s s.current ct i
  split
  · refine ⟨by rw [writeBehind_current, hcurrent], fun i => ?_⟩
    rw [hupdate, writeBehind_header, hbuf]
  · refine ⟨hcurrent, fun i => ?_⟩
    rw [hupdate, hbuf]

/-- The header says block `k`; the buffer that has never been used says nothing. -/
def Says (k : Nat) (p : Tftphdr) : Prop :=
  if k = 0 then p.opcode ≠ DATA else p.opcode = DATA ∧ p.block.toNat = k

/-- In the loop the buffer not at dp has the block before the one that is waited for; behind the
    loop dp is at the block before the last. -/
structure Headers (r : Receiver) : Prop where
  pos : 1 ≤ r.block
  looping : r.status = .waiting → r.dallying = false ∧ Says (r.block - 1) (r.subs.bfs (!r.subs.current)).buf
  done : r.status = .left → r.dallying = true ∧ Says (r.block - 1) r.subs.dp ∧ r.ackbuf = Tftp.ack r.block

variable {r : Receiver}

theorem flush_header (r : Receiver) :
    (r.flush.subs.bfs (!r.flush.subs.current)).buf = (r.subs.bfs (!r.subs.current)).buf ∧ r.flush.subs.dp = r.subs.dp := by
  unfold Receiver.flush Subs.dp
  simp only
  rw [writeBehind_current]
  exact ⟨writeBehind_header _, writeBehind_header _⟩

theorem startUpload_headers (convert : Bool) : Headers (startUpload convert) := by
  refine ⟨Nat.le_refl _, fun _ => ⟨rfl, ?_⟩, fun h => ?_⟩
  · have hfirst : (startUpload convert).block - 1 = 0 := rfl
    rw [Says, if_pos hfirst]
    cases convert <;> decide
  · cases h

/-- The turns that do not take a block. -/
theorem Headers.again (h : Headers r) (hwait : r.status = .waiting) {t : Receiver} (hblock : t.block = r.block)
    (hstatus : t.status = .waiting) (hdally : t.dallying = r.dallying)
    (hother : (t.subs.bfs (!t.subs.current)).buf = (r.subs.bfs (!r.subs.current)).buf) : Headers t := by
  obtain ⟨hd, hsays⟩ := h.looping hwait
  refine ⟨hblock ▸ h.pos, fun _ => ⟨hdally.trans hd, ?_⟩, fun hleft => ?_⟩
  · rw [hblock, hother]
    exact hsays
  · rw [hstatus] at hleft
    cases hleft

/-- And those that give up. -/
theorem headers_ended {t : Receiver} (hpos : 1 ≤ t.block) (h : t.status = .aborted ∨ t.status = .timedOut) :
    Headers t := by
  refine ⟨hpos, fun hwait => ?_, fun hleft => ?_⟩
  · rw [hwait] at h
    exact absurd h (by decide)
  · rw [hleft] at h
    exact absurd h (by decide)

theorem timer_headers (t : Timer) (h : Headers r) (hwait : r.status = .waiting) : Headers (r.timer t).state := by
  obtain ⟨hd, -⟩ := h.looping hwait
  unfold Receiver.timer
  rw [if_neg (by rw [hd]; decide)]
  simp only
  split
  · exact headers_ended h.pos (Or.inr rfl)
  · exact h.again hwait rfl hwait rfl (flush_header _).1

/-- The block that is waited for is taken: dp comes to the block before it. -/
theorem takeDatagram_headers (h : Headers r) (hwait : r.status = .waiting) {n : Nat} (hopcode : r.subs.dp.opcode = DATA)
    (hblock : r.subs.dp.block.toNat = r.block) :
    Says r.block ((takeDatagram r n).subs.bfs (!(takeDatagram r n).subs.current)).buf ∧
      Says (r.block - 1) (takeDatagram r n).subs.dp := by
  obtain ⟨-, hsays⟩ := h.looping hwait
  obtain ⟨hcurrent, hbuf⟩ := writeit_header r.convert r.subs r.file ((n : Int) - 4)
  unfold takeDatagram Subs.dp
  simp only
  rw [hcurrent, hbuf, hbuf, Bool.not_not]
  refine ⟨?_, hsays⟩
  rw [Says, if_neg (Nat.ne_of_gt h.pos)]
  exact ⟨hopcode, hblock⟩

theorem receiveDatagram_headers (little : Bool) (h : Headers r) (hwait : r.status = .waiting) (d : List UInt8) :
    Headers (receiveDatagram little r d).state := by
  obtain ⟨hd, -⟩ := h.looping hwait
  unfold receiveDatagram
  simp only
  rw [if_neg (by rw [hd]; decide)]
  generalize hp : overlay little r.subs.dp (d.take PKTSIZE) = p
  generalize (d.take PKTSIZE).length = n
  have hdp : (r.subs.setDp p).dp = p := by simp [Subs.dp, Subs.setDp]
  have hother : ((r.subs.setDp p).bfs (!(r.subs.setDp p).current)).buf = (r.subs.bfs (!r.subs.current)).buf := by
    simp [Subs.setDp]
  have hset : Headers { r with subs := r.subs.setDp p } := h.again hwait rfl hwait rfl hother
  split
  · exact headers_ended h.pos (Or.inl rfl)
  split
  · rename_i hdata
    split
    · rename_i hblock
      obtain ⟨hlast, hbefore⟩ := takeDatagram_headers (n := n) hset hwait (by rw [hdp]; exact hdata)
        (by rw [hdp]; exact hblock)
      split
      · refine ⟨Nat.succ_le_succ (Nat.zero_le _), fun _ => ⟨hd, ?_⟩, fun hleft => ?_⟩
        · simp only [Receiver.top, Receiver.sendAck, (flush_header _).1]
          exact hlast
        · exact absurd (hwait.symm.trans hleft) (by decide)
      · refine ⟨h.pos, fun hw => ?_, fun _ => ⟨rfl, ?_, rfl⟩⟩
        · cases hw
        · simp only [recvfile, (flush_header _).2]
          exact hbefore
    split
    · exact hset.again hwait rfl hwait rfl (flush_header _).1
    · exact hset
  · exact hset

theorem upload_headers (little : Bool) (t : Timer) (convert : Bool) (es : List UploadEvent) :
    Headers (upload little t convert es) := by
  have hrun : ∀ r, Headers r →
      Headers (es.foldl (fun s e => if s.status = .waiting then uploadStep little t s e else s) r) := by
    induction es with
    | nil => exact fun _ h => h
    | cons e es ih =>
      intro r h
      rw [List.foldl_cons]
      apply ih
      split
      · rename_i hwait
        cases e with
        | datagram d => exact receiveDatagram_headers little h hwait d
        | timer => exact timer_headers t h hwait
      · exact h
  exact hrun _ (startUpload_headers convert)

/-! ## The last datagram -/

/-- Block `k` once more. -/
def IsLast (k : Nat) (d : List UInt8) : Prop :=
  ∃ a b x y rest, d = a :: b :: x :: y :: rest ∧ ntohs a b = DATA ∧ (ntohs x y).toNat = k

/-- The last ACK is sent for the last block, and for nothing else. -/
def AnswersLast (little : Bool) (r : Receiver) (d : List UInt8) : Prop :=
  (IsLast r.block d → (receiveDatagram little r d).sent = [Tftp.ack r.block]) ∧
    (¬ IsLast r.block d → (receiveDatagram little r d).sent = [])

theorem last_silent (little : Bool) (h : Headers r) (hleft : r.status = .left) (d : List UInt8) :
    (receiveDatagram little r d).sent = [] := by
  obtain ⟨hd, hsays, -⟩ := h.done hleft
  unfold receiveDatagram lastDatagram
  simp only [hd, if_true]
  refine if_neg ?_
  intro ⟨_, hopcode, hblock⟩
  unfold Says at hsays
  split at hsays
  · exact hsays hopcode
  · have hpos := h.pos
    omega

/-- After every upload that was completed, whatever came in its course. -/
theorem last_answered_iff (little : Bool) (t : Timer) (convert : Bool) (es : List UploadEvent)
    (hleft : (upload little t convert es).status = .left) (d : List UInt8) :
    AnswersLast little (upload little t convert es) d ↔ ¬ IsLast (upload little t convert es).block d := by
  have hsilent := last_silent little (upload_headers little t convert es) hleft d
  constructor
  · intro h hlast
    exact absurd ((h.1 hlast).symm.trans hsilent) (List.cons_ne_nil _ _)
  · intro hother
    exact ⟨fun h => absurd h hother, fun _ => hsilent⟩

/-- A file of one byte, and an ERROR packet behind it. -/
theorem last_answered_error :
    AnswersLast true (upload true ⟨5, 25⟩ false [.datagram [0, 3, 0, 1, 0x61]]) [0, 5, 0, 0] ↔
      ¬ IsLast (upload true ⟨5, 25⟩ false [.datagram [0, 3, 0, 1, 0x61]]).block [0, 5, 0, 0] :=
  last_answered_iff true ⟨5, 25⟩ false [.datagram [0, 3, 0, 1, 0x61]] rfl [0, 5, 0, 0]

/-- The same file, and its DATA packet once more: no ACK is sent. -/
theorem last_block_unanswered :
    (upload true ⟨5, 25⟩ false [.datagram [0, 3, 0, 1, 0x61]]).status = .left ∧
      ¬ AnswersLast true (upload true ⟨5, 25⟩ false [.datagram [0, 3, 0, 1, 0x61]]) [0, 3, 0, 1, 0x61] := by
  refine ⟨rfl, fun h => ?_⟩
  have hsent := h.1 ⟨0, 3, 0, 1, [0x61], rfl, rfl, rfl⟩
  cases hsent

end Netutils.Tftpd
