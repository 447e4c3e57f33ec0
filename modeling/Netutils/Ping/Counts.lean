/-
  Netutils.Ping.Counts — what ping counts (ping/libping.c), over any run of sends and of replies
  that are lost, repeated and come in any order.

  The number of a packet is a long, on the wire it has 16 bits, and the table 128: these divide
  each other, so that numbers past 65536 find their bits. But ping_xmit clears the bit of the
  next number before sendto, and it is that of the oldest number still counted. If sendto fails
  the number is not used up, and a further reply to the oldest is counted as a first one
  (`counted_twice_after_a_failure`). The counts are right in all other runs (`counts_iff`).
-/

import Mathlib.Data.List.Dedup
import Netutils.Lib.Transition
import Netutils.Ping.Libping

namespace Netutils.Ping

open Netutils.Lib Netutils.Libicmp
open Netutils.Lib.Transition (Meets run)

/-! ## Runs -/

inductive Event where
  /-- ping_xmit, with what sendto returns. -/
  | xmit (i : Int)
  /-- ping_recv, with a reply to this number; `old` is what ping_buffer holds besides. -/
  | recv (k : Nat) (old : Nat → UInt8) (datagram : List UInt8)

structure State where
  ping : PING
  /-- The numbers that have been answered, the latest answer first. -/
  answered : List Nat := []
  /-- sendto has failed for the next number, and nothing has answered the oldest one since. -/
  failed : Bool := false

/-- The number is one of the last that were sent. -/
def PING.Recent (p : PING) (k : Nat) : Prop := k < p.ping_num_xmit ∧ p.ping_num_xmit ≤ k + PING_CKTABSIZE

/-- The oldest number that has a bit, if there is one. -/
def PING.Oldest (p : PING) (k : Nat) : Prop := p.ping_num_xmit = k + PING_CKTABSIZE

instance (p : PING) (k : Nat) : Decidable (p.Recent k) := inferInstanceAs (Decidable (_ ∧ _))

instance (p : PING) (k : Nat) : Decidable (p.Oldest k) := inferInstanceAs (Decidable (_ = _))

/-- A well-formed echo reply with our identifier, to this number. -/
def PING.isReply (p : PING) (k : Nat) (old : Nat → UInt8) (datagram : List UInt8) : Bool :=
  (icmpGenericDecode datagram).any fun d =>
    d.rc == 0 && d.icmp.any fun icmp =>
      let m := pingBuffer d.buffer old
      m icmp == ICMP_ECHOREPLY && shortAt m (icmp + icmp_id) == p.ping_ident && shortAt m (icmp + icmp_seq) == uShort k

/-- A reply comes only to one of the last numbers. -/
def step : Event → State → Option State
  | .xmit i, s => some { s with ping := s.ping.xmit i, failed := decide (i < 0) }
  | .recv k old datagram, s =>
    if s.ping.Recent k ∧ s.ping.isReply k old datagram then
      (s.ping.recv old (some datagram)).map fun r =>
        ⟨r.ping, k :: s.answered, s.failed && !decide (s.ping.Oldest k)⟩
    else none

def State.init (ping_ident : UInt16) (ping_dest : Vector UInt8 4) : State := ⟨{ ping_ident, ping_dest }, [], false⟩

/-- The numbers that have been answered are counted once, and what else was received as repeats. -/
def Counts (s : State) : Prop :=
  s.ping.ping_num_recv = s.answered.dedup.length ∧
    s.ping.ping_num_recv + s.ping.ping_num_rept = s.answered.length

/-- No further reply to the oldest number behind a failure. -/
def Tells : Event → State → Prop
  | .xmit _, _ => True
  | .recv k _ _, s => ¬ (s.failed = true ∧ s.ping.Oldest k ∧ k ∈ s.answered)

instance (e : Event) (s : State) : Decidable (Tells e s) :=
  match e with
  | .xmit _ => .isTrue trivial
  | .recv _ _ _ => inferInstanceAs (Decidable (¬ (_ ∧ _ ∧ _)))

/-! ## One reply -/

variable {s t : State} {j k : Nat} {old : Nat → UInt8} {datagram : List UInt8}

/-- The bit of the number on the wire is that of the number. -/
theorem wire_bit (k : Nat) : (uShort k).toNat % PING_CKTABSIZE = k % PING_CKTABSIZE := by
  rw [uShort, UInt16.toNat_ofNat', PING_CKTABSIZE]
  omega

/-- A reply is counted by its bit. -/
theorem recv_reply {p : PING} (h : p.isReply k old datagram = true) :
    (p.recv old (some datagram)).map Outcome.ping = some
      (if BitTable.tst p.ping_cktab (k % PING_CKTABSIZE) then { p with ping_num_rept := p.ping_num_rept + 1 }
       else { p with
         ping_num_recv := p.ping_num_recv + 1
         ping_cktab := BitTable.set p.ping_cktab (k % PING_CKTABSIZE) }) := by
  rw [PING.isReply, Option.any_eq_true] at h
  obtain ⟨d, hd, h⟩ := h
  rw [Bool.and_eq_true, Option.any_eq_true] at h
  obtain ⟨-, icmp, hicmp, h⟩ := h
  simp only [Bool.and_eq_true, beq_iff_eq] at h
  obtain ⟨⟨htype, hid⟩, hseq⟩ := h
  rw [PING.recv, hd]
  simp only [Option.map_some, hicmp, PING.dispatch, htype, hid, hseq, wire_bit]
  rw [if_pos (by simp), if_neg (by simp)]
  split <;> rfl

/-- The step in terms of the table. -/
theorem step_recv (h : step (.recv k old datagram) s = some t) : s.ping.Recent k ∧
    t = ⟨if BitTable.tst s.ping.ping_cktab (k % PING_CKTABSIZE) then { s.ping with ping_num_rept := s.ping.ping_num_rept + 1 }
      else { s.ping with
        ping_num_recv := s.ping.ping_num_recv + 1
        ping_cktab := BitTable.set s.ping.ping_cktab (k % PING_CKTABSIZE) },
      k :: s.answered, s.failed && !decide (s.ping.Oldest k)⟩ := by
  rw [step] at h
  split at h
  · rename_i hreply
    obtain ⟨hrecent, hreply⟩ := hreply
    refine ⟨hrecent, ?_⟩
    have hping := recv_reply hreply
    obtain ⟨r, hr, rfl⟩ := Option.map_eq_some_iff.mp h
    rw [hr, Option.map_some, Option.some.injEq] at hping
    rw [hping]
  · cases h

/-! ## The invariant -/

structure Kept (s : State) : Prop where
  counts : Counts s
  sent : ∀ k ∈ s.answered, k < s.ping.ping_num_xmit
  /-- The bits of the last numbers say which have been answered, that of the oldest only if it
      was not cleared again. -/
  table : ∀ k, s.ping.Recent k → (BitTable.tst s.ping.ping_cktab (k % PING_CKTABSIZE) = true ↔
    k ∈ s.answered ∧ ¬ (s.failed = true ∧ s.ping.Oldest k))

theorem kept_init (ping_ident : UInt16) (ping_dest : Vector UInt8 4) : Kept (State.init ping_ident ping_dest) :=
  ⟨⟨rfl, rfl⟩, nofun, fun _ h => absurd h.1 (Nat.not_lt_zero _)⟩

/-- The last numbers have bits of their own. -/
theorem bit_inj {p : PING} (hj : p.Recent j) (hk : p.Recent k) (h : j % PING_CKTABSIZE = k % PING_CKTABSIZE) : j = k := by
  obtain ⟨hj, hj'⟩ := hj
  obtain ⟨hk, hk'⟩ := hk
  rw [PING_CKTABSIZE] at h hj' hk'
  omega

/-- The bit of the next number is that of the oldest. -/
theorem bit_next {p : PING} (hk : p.Recent k) : k % PING_CKTABSIZE = p.ping_num_xmit % PING_CKTABSIZE ↔ p.Oldest k := by
  obtain ⟨hk, hk'⟩ := hk
  rw [PING.Oldest, PING_CKTABSIZE] at *
  omega

theorem Kept.xmit (h : Kept s) (i : Int) : Kept { s with ping := s.ping.xmit i, failed := decide (i < 0) } := by
  rw [PING.xmit]
  by_cases hi : i < 0
  · -- the bit is cleared, and the number stays the next one
    simp only [if_pos hi, decide_eq_true hi]
    refine ⟨h.counts, h.sent, ?_⟩
    intro k hk
    by_cases hold : s.ping.Oldest k
    · have hbit := (bit_next hk).mpr hold
      refine iff_of_false ?_ fun hnot => hnot.2 ⟨rfl, hold⟩
      rw [hbit, BitTable.tst_clr_self]
      exact Bool.false_ne_true
    · have hbit : k % PING_CKTABSIZE ≠ s.ping.ping_num_xmit % PING_CKTABSIZE := fun hb => hold ((bit_next hk).mp hb)
      rw [BitTable.tst_clr_ne hbit, h.table k hk]
      exact and_congr_right fun _ => ⟨fun _ hn => hold hn.2, fun _ hn => hold hn.2⟩
  · -- the number is sent, and nothing has answered it yet
    simp only [if_neg hi, decide_eq_false hi]
    refine ⟨h.counts, fun k hk => Nat.lt_succ_of_lt (h.sent k hk), ?_⟩
    intro k hk
    obtain ⟨hlt, hle⟩ := hk
    simp only at hlt hle
    rcases Nat.lt_succ_iff_lt_or_eq.mp hlt with hlt | rfl
    · have hrecent : s.ping.Recent k := ⟨hlt, by omega⟩
      have hold : ¬ s.ping.Oldest k := by
        intro hold
        rw [PING.Oldest] at hold
        omega
      rw [BitTable.tst_clr_ne fun hb => hold ((bit_next hrecent).mp hb), h.table k hrecent]
      exact and_congr_right fun _ => ⟨fun _ hn => Bool.false_ne_true hn.1, fun _ hn => hold hn.2⟩
    · rw [BitTable.tst_clr_self]
      exact iff_of_false Bool.false_ne_true fun hn => Nat.lt_irrefl _ (h.sent _ hn.1)

/-- What a reply leaves as it is: whether the bit of another number tells of it. -/
theorem told_other (hjk : j ≠ k) : j ∈ s.answered ∧ ¬ (s.failed = true ∧ s.ping.Oldest j) ↔
    j ∈ k :: s.answered ∧ ¬ ((s.failed && !decide (s.ping.Oldest k)) = true ∧ s.ping.Oldest j) := by
  have hone : s.ping.Oldest j → ¬ s.ping.Oldest k := by
    intro hj hk
    rw [PING.Oldest] at hj hk
    omega
  simp only [List.mem_cons, hjk, false_or, Bool.and_eq_true, Bool.not_eq_true', decide_eq_false_iff_not]
  exact and_congr_right fun _ => not_congr ⟨fun hn => ⟨⟨hn.1, hone hn.2⟩, hn.2⟩, fun hn => ⟨hn.1.1, hn.2⟩⟩

/-- A reply is counted right unless it is a further one to an oldest number whose bit was cleared. -/
theorem Kept.recv (h : Kept s) (hstep : step (.recv k old datagram) s = some t) :
    (Tells (.recv k old datagram) s → Kept t) ∧ (Counts t → Tells (.recv k old datagram) s) := by
  obtain ⟨hrecent, rfl⟩ := step_recv hstep
  obtain ⟨hrecv, htotal⟩ := h.counts
  have hk := h.table k hrecent
  have hsent : ∀ j ∈ k :: s.answered, j < s.ping.ping_num_xmit := by
    intro j hj
    rcases List.mem_cons.mp hj with rfl | hj
    · exact hrecent.1
    · exact h.sent j hj
  by_cases hbit : BitTable.tst s.ping.ping_cktab (k % PING_CKTABSIZE) = true
  · -- a repeat, by the table and in fact
    obtain ⟨hmem, hnot⟩ := hk.mp hbit
    have htells : Tells (.recv k old datagram) s := fun hn => hnot ⟨hn.1, hn.2.1⟩
    refine ⟨fun _ => ?_, fun _ => htells⟩
    simp only [if_pos hbit]
    refine ⟨⟨?_, ?_⟩, hsent, ?_⟩
    · rw [List.dedup_cons_of_mem hmem]
      exact hrecv
    · rw [List.length_cons, ← htotal]
      exact (Nat.add_assoc _ _ _).symm
    · intro j hj
      rw [h.table j hj]
      by_cases hjk : j = k
      · subst hjk
        refine iff_of_true ⟨hmem, hnot⟩ ⟨List.mem_cons_self, fun hn => ?_⟩
        rw [Bool.and_eq_true] at hn
        exact hnot ⟨hn.1.1, hn.2⟩
      · exact told_other hjk
  · simp only [if_neg hbit]
    by_cases hmem : k ∈ s.answered
    · -- the bit of the oldest number was cleared: it is counted again
      have hlost : s.failed = true ∧ s.ping.Oldest k := by
        by_contra hnot
        exact hbit (hk.mpr ⟨hmem, hnot⟩)
      refine ⟨fun htells => absurd ⟨hlost.1, hlost.2, hmem⟩ htells, ?_⟩
      intro hcounts
      have hcount := hcounts.1
      rw [List.dedup_cons_of_mem hmem, ← hrecv] at hcount
      exact absurd hcount (Nat.succ_ne_self _)
    · refine ⟨fun _ => ?_, fun _ hn => hmem hn.2.2⟩
      refine ⟨⟨?_, ?_⟩, hsent, ?_⟩
      · rw [List.dedup_cons_of_notMem hmem, List.length_cons, ← hrecv]
      · rw [List.length_cons, ← htotal]
        exact Nat.add_right_comm _ _ _
      · intro j hj
        by_cases hjk : j = k
        · subst hjk
          rw [BitTable.tst_set_self]
          refine iff_of_true rfl ⟨List.mem_cons_self, fun hn => ?_⟩
          rw [Bool.and_eq_true, Bool.not_eq_true', decide_eq_false_iff_not] at hn
          exact hn.1.2 hn.2
        · have hother : j % PING_CKTABSIZE ≠ k % PING_CKTABSIZE := fun hb => hjk (bit_inj hj hrecent hb)
          rw [BitTable.tst_set_ne hother, h.table j hj]
          exact told_other hjk

/-! ## Whole runs -/

theorem kept_step {e : Event} (h : Kept s) (hstep : step e s = some t) :
    (Tells e s → Kept t) ∧ (Counts t → Tells e s) := by
  cases e with
  | xmit i =>
    obtain rfl := Option.some.inj hstep
    exact ⟨fun _ => h.xmit i, fun _ => trivial⟩
  | recv k old datagram => exact h.recv hstep

/-- The counts are right in every state of a run exactly where no further reply to the oldest
    number comes behind a failure of sendto. -/
theorem counts_iff (ping_ident : UInt16) (ping_dest : Vector UInt8 4) (es : List Event) (s : State)
    (h : run step es (State.init ping_ident ping_dest) = some s) :
    (∀ ds t, ds <+: es → run step ds (State.init ping_ident ping_dest) = some t → Counts t) ↔
      Meets step Tells es (State.init ping_ident ping_dest) :=
  Transition.run_visible_iff (fun _ h => Kept.counts h) (fun _ _ _ => kept_step) (kept_init ping_ident ping_dest) h

/-- An IP header without options and an echo reply without data, with identifier 7. -/
def echoReply (k : Nat) : List UInt8 :=
  (0x45 :: List.replicate 19 0) ++ ((icmpGenericEncode (List.replicate 8 0) 0 7 k).map Prod.fst).getD []

/-- `sendto` sends the eight bytes. -/
def sends (n : Nat) : List Event := List.replicate n (.xmit 8)

def answer (k : Nat) : Event := .recv k (fun _ => 0) (echoReply k)

def start : State := State.init 7 (Vector.replicate 4 1)

/-- Three packets, the last of them answered twice and the first one late. -/
theorem counts_late_and_repeated : ∃ t, run step (sends 3 ++ [answer 2, answer 0, answer 2]) start = some t ∧
    t.answered = [2, 0, 2] ∧ Counts t := by
  have hrun : (run step (sends 3 ++ [answer 2, answer 0, answer 2]) start).map State.answered = some [2, 0, 2] := by
    decide +kernel
  obtain ⟨t, ht, hanswered⟩ := Option.map_eq_some_iff.mp hrun
  refine ⟨t, ht, hanswered, ?_⟩
  have hmeets : Meets step Tells (sends 3 ++ [answer 2, answer 0, answer 2]) start := by decide +kernel
  exact (counts_iff 7 (Vector.replicate 4 1) _ t ht).mpr hmeets _ t (List.prefix_refl _) ht

/-- The first of 128 packets is answered, sendto fails, and the answer comes again. -/
theorem counted_twice_after_a_failure : ∃ t, run step (sends 128 ++ [answer 0, .xmit (-1), answer 0]) start = some t ∧
    t.answered = [0, 0] ∧ t.ping.ping_num_recv = 2 ∧ ¬ Counts t := by
  have hrun : (run step (sends 128 ++ [answer 0, .xmit (-1), answer 0]) start).map
      (fun t => (t.answered, t.ping.ping_num_recv)) = some ([0, 0], 2) := by
    decide +kernel
  obtain ⟨t, ht, hvalue⟩ := Option.map_eq_some_iff.mp hrun
  obtain ⟨hanswered, hrecv⟩ := Prod.mk.inj hvalue
  refine ⟨t, ht, hanswered, hrecv, ?_⟩
  intro hcounts
  have hcount := hcounts.1
  rw [hanswered, hrecv] at hcount
  exact absurd hcount (by decide)

end Netutils.Ping
