/-
  Netutils.Lib.StopAndWait — blocks sent one at a time: a sender that sends a block until it has
  an acknowledgement of it, a receiver that acknowledges what it has had, over a channel that
  may deliver anything ever sent, any number of times and at any time, or not at all.

  Nothing about the channel matters but that it makes up nothing: the receiver takes the
  blocks in order, each once (`inv`, `taken_prefix`), and an acknowledgement that the sender
  goes on by is of a block that has been taken (`taken_of_left`).
-/

import Mathlib.Data.List.Range
import Mathlib.Data.Set.Insert

namespace Netutils.Lib.StopAndWait

/-! ## The protocol -/

/-- What is sent: block `k` for `k` from 1 to `last`; the sender may start with a request,
    which is numbered 0. -/
structure Job (β : Type) where
  first : Nat
  last : Nat
  content : Nat → β
  first_le : first ≤ 1
  last_pos : 1 ≤ last

structure St (β : Type) where
  /-- The number of the block the sender is at. -/
  block : Nat
  /-- The number of the block the receiver waits for. -/
  expected : Nat
  taken : List β
  /-- All blocks and all acknowledgements ever sent. -/
  data : Set (Nat × β)
  acks : Set Nat

variable {β : Type}

def init (job : Job β) : St β := ⟨job.first, 1, [], ∅, ∅⟩

inductive Step (job : Job β) : St β → St β → Prop
  | send (s : St β) : s.block ≤ job.last →
      Step job s { s with data := insert (s.block, job.content s.block) s.data }
  | ack (s : St β) (k : Nat) : job.first ≤ k → k + 1 = s.expected → Step job s { s with acks := insert k s.acks }
  | take (s : St β) (x : β) : (s.expected, x) ∈ s.data →
      Step job s { s with expected := s.expected + 1, taken := s.taken ++ [x] }
  | advance (s : St β) : s.block ≤ job.last → s.block ∈ s.acks → Step job s { s with block := s.block + 1 }

inductive Reachable (job : Job β) : St β → Prop
  | init : Reachable job (init job)
  | step {s t : St β} : Reachable job s → Step job s t → Reachable job t

/-- The blocks in order. -/
def Job.blocks (job : Job β) : List β := (List.range' 1 job.last).map job.content

/-! ## The invariant -/

structure Inv (job : Job β) (s : St β) : Prop where
  first_le : job.first ≤ s.block
  block_le : s.block ≤ s.expected
  expected_le : s.expected ≤ s.block + 1
  expected_le_last : s.expected ≤ job.last + 1
  data : ∀ k x, (k, x) ∈ s.data → k ≤ s.block ∧ k ≤ job.last ∧ x = job.content k
  acks : ∀ k ∈ s.acks, job.first ≤ k ∧ k < s.expected
  taken : s.taken = (List.range' 1 (s.expected - 1)).map job.content
  pos : 1 ≤ s.expected

variable {job : Job β} {s t : St β}

theorem inv_init : Inv job (init job) where
  first_le := Nat.le_refl _
  block_le := job.first_le
  expected_le := Nat.succ_le_succ (Nat.zero_le _)
  expected_le_last := Nat.succ_le_succ (Nat.zero_le _)
  data := fun _ _ h => nomatch h
  acks := fun _ h => nomatch h
  taken := rfl
  pos := Nat.le_refl _

theorem inv_step (hs : Inv job s) (h : Step job s t) : Inv job t := by
  cases h with
  | send hlast =>
    refine ⟨hs.first_le, hs.block_le, hs.expected_le, hs.expected_le_last, ?_, hs.acks, hs.taken, hs.pos⟩
    intro k x hmem
    rcases Set.mem_insert_iff.mp hmem with heq | hmem
    · obtain ⟨rfl, rfl⟩ := Prod.mk.inj heq
      exact ⟨Nat.le_refl _, hlast, rfl⟩
    · exact hs.data k x hmem
  | ack k hfirst hk =>
    refine ⟨hs.first_le, hs.block_le, hs.expected_le, hs.expected_le_last, hs.data, ?_, hs.taken, hs.pos⟩
    intro j hmem
    rcases Set.mem_insert_iff.mp hmem with rfl | hmem
    · exact ⟨hfirst, show j < s.expected by omega⟩
    · exact hs.acks j hmem
  | take x hmem =>
    obtain ⟨hle, hlast, rfl⟩ := hs.data _ _ hmem
    have hpos := hs.pos
    have htaken : s.taken ++ [job.content s.expected] = (List.range' 1 (s.expected + 1 - 1)).map job.content := by
      rw [hs.taken, Nat.add_sub_cancel, show s.expected = (s.expected - 1) + 1 by omega, List.range'_1_concat,
        List.map_append, Nat.add_sub_cancel, show 1 + (s.expected - 1) = s.expected - 1 + 1 by omega]
      rfl
    refine ⟨hs.first_le, Nat.le_succ_of_le hs.block_le, Nat.succ_le_succ hle, Nat.succ_le_succ hlast, hs.data, ?_,
      htaken, Nat.succ_le_succ (Nat.zero_le _)⟩
    intro k hk
    exact ⟨(hs.acks k hk).1, Nat.lt_succ_of_lt (hs.acks k hk).2⟩
  | advance _ hack =>
    have hlt := (hs.acks _ hack).2
    refine ⟨Nat.le_succ_of_le hs.first_le, hlt, Nat.le_succ_of_le hs.expected_le, hs.expected_le_last, ?_, hs.acks,
      hs.taken, hs.pos⟩
    intro k x hmem
    obtain ⟨hle, hrest⟩ := hs.data k x hmem
    exact ⟨Nat.le_succ_of_le hle, hrest⟩

theorem inv (h : Reachable job s) : Inv job s := by
  induction h with
  | init => exact inv_init
  | step _ hstep ih => exact inv_step ih hstep

/-! ## What has been taken -/

/-- The blocks are taken in order, none twice. -/
theorem taken_prefix (h : Inv job s) : s.taken <+: job.blocks := by
  have hle := h.expected_le_last
  have hpos := h.pos
  have hsplit : List.range' 1 (s.expected - 1) ++ List.range' (1 + (s.expected - 1)) (job.last + 1 - s.expected) =
      List.range' 1 job.last := by
    rw [List.range'_append_1, show s.expected - 1 + (job.last + 1 - s.expected) = job.last by omega]
  rw [h.taken, Job.blocks]
  exact List.IsPrefix.map _ ⟨_, hsplit⟩

/-- With the last block taken, all are. -/
theorem taken_of_expected (h : Inv job s) (hlast : s.expected = job.last + 1) : s.taken = job.blocks := by
  rw [h.taken, hlast, Nat.add_sub_cancel]
  rfl

/-- A sender that has gone on behind the last block goes on from a receiver that has taken all. -/
theorem taken_of_left (h : Inv job s) (hleft : s.block = job.last + 1) : s.taken = job.blocks :=
  taken_of_expected h (Nat.le_antisymm h.expected_le_last (hleft ▸ h.block_le))

end Netutils.Lib.StopAndWait
