/-
  Netutils.Telnet.Fifo — the ring buffer as a first-in first-out queue, and its urgent mark
  (telnet/ring.c, as netflush of telnet/network.c uses it).

  Without a mark the ring is a queue: what has been read at consume and what waits there make
  up what was supplied, its counts are right, and ring_supply_data ends (`run_queue`).

  ring_mark takes the cell before supply. With supply at the bottom that is the last cell,
  but ring_decrement, which is to go back around there, subtracts the size where it should
  add it, and the mark is set below the ring: ring_at_mark never sees it, and the byte leaves
  among others (`last_cell_is_passed_over`). Everywhere else the mark tracks its byte
  (`mark_tracks_iff`).
-/

import Netutils.Lib.Transition
import Netutils.Telnet.Ring

namespace Netutils.Telnet

open Netutils.Lib.Cells
open Netutils.Lib.Circular
open Netutils.Lib.Transition

/-! ## Counts -/

namespace Ring

variable {α : Type} {r : Ring α} {n : Nat}

theorem Holding.fullCount (h : r.Holding n) (hm : r.mark = none ∨ r.mark = some (r.consume : Int)) : r.ringFullCount = n := by
  have hroom := h.room
  have hf := h.ringFull_iff
  unfold ringFullCount
  rw [if_pos hm]
  by_cases hfull : r.ringFull
  · rw [if_pos hfull, (hf.mp hfull).2]
  rw [if_neg hfull]
  by_cases h0 : n = 0
  · obtain ⟨hcons, hsup, -⟩ := h.empty h0
    unfold subtract
    rw [hcons, hsup, h0, if_pos (by omega)]
    rfl
  · have hc := h.consume h0
    have hs := h.supply h0
    have hne : n ≠ r.size := fun he => hfull (hf.mpr ⟨h0, he⟩)
    unfold subtract
    unfold wrap at hs
    repeat' split
    all_goals split at hs <;> omega

theorem Holding.fullConsecutive_pos (h : r.Holding n) (hm : r.mark = none ∨ r.mark = some (r.consume : Int)) (h0 : n ≠ 0) :
    0 < r.ringFullConsecutive := by
  have hroom := h.room
  have hf := h.ringFull_iff
  have hc := h.consume h0
  have hs := h.supply h0
  unfold ringFullConsecutive
  rw [if_pos hm]
  unfold subtract
  by_cases hw : r.supply < r.consume ∨ r.ringFull
  · rw [if_pos hw, if_pos (by omega)]
    omega
  · obtain ⟨hle, hfull⟩ := not_or.mp hw
    have hne : n ≠ r.size := fun he => hfull (hf.mpr ⟨h0, he⟩)
    rw [if_neg hw, if_pos (by omega)]
    unfold wrap at hs
    split at hs <;> omega

end Ring

/-! ## The queue -/

/-- A ring and its history: the bytes supplied, and those that were next at consume when
    ring_consumed was called. -/
structure Fifo (α : Type) where
  ring : Ring α
  supplied : List α
  read : List α

namespace Fifo

variable {α : Type}

def init (mem : Nat → α) (size clock : Nat) : Fifo α := ⟨Ring.init mem size clock, [], []⟩

def unread (s : Fifo α) : List α := s.supplied.drop s.read.length

inductive Op (α : Type) where
  | supplyData (buffer : List α)
  /-- Bytes written from supply on, then ring_supplied. -/
  | supply (l : List α)
  | consumed (count : Nat)
  | mark
  /-- Another ring moves ring_clock. -/
  | other

def step (a : Op α) (s : Fifo α) : Option (Fifo α) :=
  match a with
  | .supplyData buffer =>
    if buffer.length ≤ s.ring.ringEmptyCount then
      some { s with ring := s.ring.ringSupplyData buffer, supplied := s.supplied ++ buffer }
    else none
  | .supply l =>
    if 0 < l.length ∧ l.length ≤ s.ring.ringEmptyConsecutive then
      some { s with
        ring := { s.ring with mem := store s.ring.mem s.ring.supply l }.ringSupplied l.length
        supplied := s.supplied ++ l }
    else none
  | .consumed count =>
    if count ≤ s.unread.length then
      some { s with
        ring := s.ring.ringConsumed count
        read := s.read ++ window s.ring.mem s.ring.size s.ring.consume count }
    else none
  | .mark => if 0 < s.unread.length then some { s with ring := s.ring.ringMark } else none
  | .other => some { s with ring := { s.ring with ringClock := s.ring.tick } }

/-- How often an operation moves ring_clock. -/
def ticks (a : Op α) (s : Fifo α) : Nat :=
  match a with
  | .supplyData buffer => s.ring.turns buffer.length
  | .supply _ => 1
  | .consumed count => if count = 0 then 0 else 1
  | .mark => 0
  | .other => 1

/-- ring_clock does not wrap around. -/
def Timely (a : Op α) (s : Fifo α) : Prop := s.ring.ringClock + ticks a s < clockRange

instance (a : Op α) (s : Fifo α) : Decidable (Timely a s) := inferInstanceAs (Decidable (_ < _))

structure Inv (size : Nat) (s : Fifo α) : Prop where
  size : s.ring.size = size
  read : s.read <+: s.supplied
  holds : s.ring.Holds s.unread

variable {size : Nat} {s t : Fifo α}

theorem inv_init (mem : Nat → α) (size clock : Nat) : Inv size (init mem size clock) :=
  ⟨rfl, List.prefix_rfl, ⟨Ring.holding_init mem size clock, rfl⟩⟩

/-- Bytes come behind those that are unread. -/
theorem Inv.supplied (h : Inv size s) {l : List α} {r : Ring α} (hsize : r.size = size)
    (hr : r.Holds (s.unread ++ l)) : Inv size { s with ring := r, supplied := s.supplied ++ l } := by
  refine ⟨hsize, h.read.trans (List.prefix_append _ _), ?_⟩
  show r.Holds ((s.supplied ++ l).drop s.read.length)
  rw [List.drop_append_of_le_length h.read.length_le]
  exact hr

theorem Inv.emptyCount (h : Inv size s) : s.unread.length + s.ring.ringEmptyCount = size := by
  have hroom := h.holds.stand.room
  rw [h.holds.stand.emptyCount, ← h.size]
  omega

theorem inv_consumed {count : Nat} (h : Inv size s) (hc : Timely (.consumed count) s) (hl : count ≤ s.unread.length) :
    Inv size { s with
        ring := s.ring.ringConsumed count
        read := s.read ++ window s.ring.mem s.ring.size s.ring.consume count } ∧
      (s.ring.ringConsumed count).ringClock = s.ring.ringClock + ticks (.consumed count) s := by
  by_cases h0 : count = 0
  · subst h0
    have hread : s.read ++ window s.ring.mem s.ring.size s.ring.consume 0 = s.read := List.append_nil _
    refine ⟨⟨h.size, ?_, ?_⟩, rfl⟩
    · rw [hread]
      exact h.read
    · show Ring.Holds s.ring (s.supplied.drop (s.read ++ _).length)
      rw [hread]
      exact h.holds
  have hticks : ticks (.consumed count) s = 1 := if_neg h0
  unfold Timely at hc
  rw [hticks] at hc ⊢
  obtain ⟨hrest, hfirst, hsame⟩ := h.holds.consumed hl hc
  refine ⟨⟨hsame.trans h.size, ?_, ?_⟩, (Ring.ringConsumed_clock h0).trans (Ring.tick_eq hc)⟩
  · rw [hfirst]
    obtain ⟨l, hl⟩ := h.read
    have hun : s.unread = l := by rw [unread, ← hl, List.drop_left]
    rw [hun, ← hl]
    exact (List.prefix_append_right_inj _).mpr (List.take_prefix _ _)
  · show Ring.Holds _ (s.supplied.drop (s.read ++ _).length)
    rw [List.length_append, length_window, ← List.drop_drop]
    exact hrest

theorem inv_step {a : Op α} (h : Inv size s) (hc : Timely a s) (hs : step a s = some t) :
    Inv size t ∧ t.ring.ringClock = s.ring.ringClock + ticks a s := by
  have hcount := h.emptyCount
  have hsize := h.size
  cases a with
  | supplyData l =>
    simp only [step] at hs
    split at hs
    · rename_i hl
      obtain rfl := Option.some.inj hs
      obtain ⟨hholds, hclock, -⟩ := h.holds.supplyLoop (l := l) (Nat.le_refl _) (by omega) hc
      exact ⟨h.supplied ((Ring.supplyLoop_frame _ _ _).1.trans h.size) hholds, hclock⟩
    · cases hs
  | supply l =>
    simp only [step] at hs
    split at hs
    · rename_i hl
      obtain rfl := Option.some.inj hs
      obtain ⟨hle, htop, -⟩ := h.holds.stand.emptyConsecutive
      have hholds := h.holds.supplied (List.length_pos_iff.mp hl.1) (by omega) (by omega) hc
      exact ⟨h.supplied h.size hholds, Ring.tick_eq hc⟩
    · cases hs
  | consumed count =>
    simp only [step] at hs
    split at hs
    · rename_i hl
      obtain rfl := Option.some.inj hs
      exact inv_consumed h hc hl
    · cases hs
  | mark =>
    simp only [step] at hs
    split at hs
    · rename_i hl
      obtain rfl := Option.some.inj hs
      exact ⟨⟨h.size, h.read, h.holds.ringMark (List.length_pos_iff.mp hl)⟩, rfl⟩
    · cases hs
  | other =>
    obtain rfl := Option.some.inj hs
    exact ⟨⟨h.size, h.read, h.holds.tick hc⟩, Ring.tick_eq hc⟩

/-! ## Without a mark -/

/-- What a queue of `size` bytes is. -/
structure IsQueue (size : Nat) (s : Fifo α) : Prop where
  consume : s.ring.consume < size
  supply : s.ring.supply < size
  emptyCount : s.unread.length + s.ring.ringEmptyCount = size
  fullCount : s.ring.ringFullCount = s.unread.length
  fullConsecutive : (0 < s.ring.ringFullConsecutive ↔ 0 < s.ring.ringFullCount) ∧
    s.ring.ringFullConsecutive ≤ s.ring.ringFullCount
  emptyConsecutive : (0 < s.ring.ringEmptyConsecutive ↔ 0 < s.ring.ringEmptyCount) ∧
    s.ring.ringEmptyConsecutive ≤ s.ring.ringEmptyCount
  /-- ring_supply_data ends, where ring_clock does not wrap around. -/
  terminates : ∀ l : List α, l.length ≤ s.ring.ringEmptyCount → Timely (.supplyData l) s →
    Ends Ring.Turn (s.ring, l) ∧ Relation.ReflTransGen Ring.Turn (s.ring, l) (s.ring.ringSupplyData l, [])
  /-- What has been read is what was supplied first, and what came after it is next. -/
  read : s.read <+: s.supplied
  next : window s.ring.mem size s.ring.consume s.unread.length = s.unread

/-- A buffer that fits into what is free, on the clock too. -/
def Supplying (x : Ring α × List α) : Prop :=
  ∃ q, x.1.Holds q ∧ q.length + x.2.length ≤ x.1.size ∧ x.1.ringClock + x.1.turns x.2.length < clockRange

/-- It still does after a turn, and is shorter. -/
theorem supplying_turn {x y : Ring α × List α} (hx : Supplying x) (hturn : Ring.Turn x y) :
    Supplying y ∧ y.2.length < x.2.length := by
  obtain ⟨r, l⟩ := x
  obtain ⟨q, h, hl, hc⟩ := hx
  have h0 : l ≠ [] := by
    rintro rfl
    cases hturn
  obtain ⟨i, u, hi, hle, hu, hq, hsize, hclock⟩ := h.supplyTurn h0 hl hc
  obtain rfl := Option.some.inj (hu.symm.trans hturn)
  refine ⟨⟨_, hq, ?_, ?_⟩, ?_⟩
  · simp only [List.length_append, List.length_take, List.length_drop, hsize]
    have : q.length + l.length ≤ r.size := hl
    omega
  · simp only [List.length_drop, hclock]
    exact hc
  · simp only [List.length_drop]
    omega

theorem supplyData_ends {r : Ring α} {q l : List α} (h : r.Holds q) (hl : q.length + l.length ≤ r.size)
    (hc : r.ringClock + r.turns l.length < clockRange) : Ends Ring.Turn (r, l) := by
  have hkeep : ∀ x y : Ring α × List α, Supplying x → Ring.Turn x y → Supplying y := by
    intro x y hx hturn
    exact (supplying_turn hx hturn).1
  apply ends_of_measure (fun x => x.2.length) hkeep
  · intro x y hx hturn
    exact (supplying_turn hx hturn).2
  · exact ⟨q, h, hl, hc⟩

theorem Inv.queue (h : Inv size s) (hsize : 0 < size) (hm : s.ring.mark = none) : IsQueue size s := by
  have hstand := h.holds.stand
  have hroom := hstand.room
  have hempty := h.emptyCount
  have hfull := hstand.fullCount (Or.inl hm)
  rw [h.size] at hroom
  obtain ⟨hcons, hsup⟩ := hstand.pointers (by rw [h.size]; exact hsize)
  constructor
  case consume => rwa [h.size] at hcons
  case supply =>
    rw [hsup, h.size]
    exact wrap_lt (by rwa [h.size] at hcons) hroom
  case emptyCount => exact hempty
  case fullCount => exact hfull
  case fullConsecutive =>
    obtain ⟨hle, -⟩ := hstand.fullConsecutive
    rw [hfull]
    refine ⟨⟨fun hpos => by omega, fun hpos => hstand.fullConsecutive_pos (Or.inl hm) (by omega)⟩, by omega⟩
  case emptyConsecutive =>
    obtain ⟨hle, -, hpos⟩ := hstand.emptyConsecutive
    rw [h.size] at hle hpos
    refine ⟨⟨fun _ => by omega, fun _ => hpos (by omega)⟩, by omega⟩
  case terminates =>
    intro l hl hc
    have hroom : s.unread.length + l.length ≤ s.ring.size := by
      rw [h.size]
      omega
    exact ⟨supplyData_ends h.holds hroom hc, (h.holds.supplyLoop (Nat.le_refl _) hroom hc).2.2⟩
  case read => exact h.read
  case next =>
    rw [← h.size]
    exact h.holds.cells

def Unmarked (a : Op α) : Prop :=
  match a with
  | .mark => False
  | _ => True

instance (a : Op α) : Decidable (Unmarked a) := by
  cases a <;> first | exact .isTrue trivial | exact .isFalse id

theorem unmarked_step {a : Op α} (ha : Unmarked a) (hm : s.ring.mark = none) (hs : step a s = some t) :
    t.ring.mark = none := by
  cases a with
  | supplyData l =>
    simp only [step] at hs
    split at hs
    · obtain rfl := Option.some.inj hs
      exact (Ring.supplyLoop_frame _ _ _).2.2.trans hm
    · cases hs
  | supply l =>
    simp only [step] at hs
    split at hs
    · obtain rfl := Option.some.inj hs
      exact hm
    · cases hs
  | consumed count =>
    simp only [step] at hs
    split at hs
    · obtain rfl := Option.some.inj hs
      exact Ring.ringConsumed_unmarked count hm
    · cases hs
  | mark => exact absurd ha id
  | other =>
    obtain rfl := Option.some.inj hs
    exact hm

theorem run_queue {mem : Nat → α} {clock : Nat} {ops : List (Op α)} (hsize : 0 < size)
    (h : run step ops (init mem size clock) = some s)
    (hm : Meets step (fun a s => Unmarked a ∧ Timely a s) ops (init mem size clock)) : IsQueue size s := by
  have hinv : Inv size s ∧ s.ring.mark = none := by
    refine run_inv_meets (P := fun s => Inv size s ∧ s.ring.mark = none) ?_ ⟨inv_init mem size clock, rfl⟩ hm h
    rintro a s t ⟨hi, hn⟩ ⟨ha, hc⟩ hs
    exact ⟨(inv_step hi hc hs).1, unmarked_step ha hn hs⟩
  exact hinv.1.queue hsize hinv.2

theorem run_queue_around_the_top :
    let ops : List (Op Nat) := [.supplyData [1, 2, 3], .consumed 2, .supply [4], .other, .supplyData [5, 6], .consumed 3,
      .supply [7], .consumed 2]
    0 < 4 ∧ (run step ops (init (fun _ => 0) 4 0)).isSome ∧
      ∀ s, run step ops (init (fun _ => 0) 4 0) = some s → IsQueue 4 s :=
  ⟨by decide, by decide +kernel, fun _ h => run_queue (by decide) h (by decide +kernel)⟩

/-! ## The mark -/

/-- What telnet does between two calls of ring_mark: netflush writes what ring_full_consecutive
    gives, and one byte at the mark. -/
def Bounded (a : Op α) (s : Fifo α) : Prop :=
  match a with
  | .consumed count => count ≤ s.ring.ringFullConsecutive ∧ (s.ring.ringAtMark → count ≤ 1)
  | .mark => False
  | _ => True

/-- The mark is for the byte that came at `place` in the order of supply. -/
structure Marks (place : Nat) (t : Fifo α) : Prop where
  atMark : t.ring.ringAtMark ↔ t.read.length = place
  fullCount : t.read.length < place → t.read.length + t.ring.ringFullCount ≤ place
  fullConsecutive : t.read.length < place → t.read.length + t.ring.ringFullConsecutive ≤ place
  cleared : t.ring.mark = none ↔ place < t.read.length

/-- ring_mark is called, and marks the byte that was supplied last until it is consumed. -/
structure Tracks (size : Nat) (s : Fifo α) : Prop where
  cell : ∃ i < size, i = wrap size (s.ring.consume + (s.unread.length - 1)) ∧ s.ring.ringMark.mark = some (i : Int)
  later : ∀ ops t, Meets step (fun a s => Bounded a s ∧ Timely a s) ops { s with ring := s.ring.ringMark } →
    run step ops { s with ring := s.ring.ringMark } = some t → Marks (s.supplied.length - 1) t

/-- The mark stands at its byte while that waits, then it is gone. -/
structure Follows (size place : Nat) (t : Fifo α) : Prop where
  inv : Inv size t
  supplied : place < t.supplied.length
  waits : t.read.length ≤ place → t.ring.mark = some ((wrap size (t.ring.consume + (place - t.read.length)) : Nat) : Int)
  gone : place < t.read.length → t.ring.mark = none

theorem length_unread : s.unread.length = s.supplied.length - s.read.length := List.length_drop

variable {place : Nat}

theorem Follows.marks (h : Follows size place t) : Marks place t := by
  have hlen := length_unread (s := t)
  have hsup := h.supplied
  have hsize := h.inv.size
  by_cases hgone : place < t.read.length
  · have hm := h.gone hgone
    refine ⟨?_, fun hlt => by omega, fun hlt => by omega, iff_of_true hm hgone⟩
    unfold Ring.ringAtMark
    rw [hm]
    exact iff_of_false nofun (by omega)
  have hm := h.waits (by omega)
  have hroom := h.inv.holds.stand.room
  have hlt := h.inv.holds.stand.consume (by omega)
  obtain ⟨d, hd⟩ : ∃ d, d = place - t.read.length := ⟨_, rfl⟩
  rw [← hd] at hm
  have hat : t.ring.ringAtMark ↔ t.read.length = place := by
    unfold Ring.ringAtMark
    rw [hm, Option.some_inj]
    unfold wrap
    split <;> omega
  refine ⟨hat, ?_, ?_, ?_⟩
  · intro hread
    have hfar : t.ring.mark ≠ some (t.ring.consume : Int) := fun he => by
      have := hat.mp he
      omega
    unfold Ring.ringFullCount
    rw [if_neg (not_or.mpr ⟨by rw [hm]; nofun, hfar⟩), hm]
    unfold Ring.subtract wrap
    simp only [Option.getD_some]
    repeat' split
    all_goals omega
  · intro hread
    have hfar : t.ring.mark ≠ some (t.ring.consume : Int) := fun he => by
      have := hat.mp he
      omega
    unfold Ring.ringFullConsecutive
    rw [if_neg (not_or.mpr ⟨by rw [hm]; nofun, hfar⟩), hm]
    unfold Ring.subtract wrap
    simp only [Option.getD_some]
    repeat' split
    all_goals omega
  · rw [hm]
    exact iff_of_false nofun hgone

theorem follows_consumed {count : Nat} (h : Follows size place s) (hc : Timely (.consumed count) s)
    (hs : step (.consumed count) s = some t) : Follows size place t := by
  have hinv := (inv_step h.inv hc hs).1
  have hlen := length_unread (s := s)
  have hsup := h.supplied
  simp only [step] at hs
  split at hs
  case isFalse => cases hs
  rename_i hcount
  obtain rfl := Option.some.inj hs
  have hread : (s.read ++ window s.ring.mem s.ring.size s.ring.consume count).length = s.read.length + count := by
    rw [List.length_append, length_window]
  refine ⟨hinv, hsup, ?_, ?_⟩
  · intro hle
    replace hle : s.read.length + count ≤ place := by
      rw [← hread]
      exact hle
    have hm := h.waits (by omega)
    show (s.ring.ringConsumed count).mark = some ((wrap size ((s.ring.ringConsumed count).consume + _) : Nat) : Int)
    rw [hread]
    by_cases h0 : count = 0
    · subst h0
      exact hm
    have hclock : s.ring.ringClock + 1 < clockRange := by
      have hticks : ticks (.consumed count) s = 1 := if_neg h0
      rw [← hticks]
      exact hc
    have hlt := h.inv.holds.stand.consume (by omega)
    have hroom := h.inv.holds.stand.room
    rw [h.inv.holds.stand.ringConsumed_consume h0 hcount hclock, if_neg (by omega), h.inv.size,
      Ring.ringConsumed_marked h0 hm, if_neg]
    · rw [wrap_wrap (by rwa [h.inv.size] at hlt) (by rw [h.inv.size] at hroom; omega),
        show count + (place - (s.read.length + count)) = place - s.read.length by omega]
    · unfold Ring.subtract wrap
      rw [h.inv.size] at *
      repeat' split
      all_goals omega
  · intro hlt
    replace hlt : place < s.read.length + count := by
      rw [← hread]
      exact hlt
    by_cases hgone : place < s.read.length
    · exact Ring.ringConsumed_unmarked count (h.gone hgone)
    have hm := h.waits (by omega)
    have hcons := h.inv.holds.stand.consume (by omega)
    have hroom := h.inv.holds.stand.room
    show (s.ring.ringConsumed count).mark = none
    rw [Ring.ringConsumed_marked (by omega) hm, if_pos]
    unfold Ring.subtract wrap
    rw [h.inv.size] at *
    repeat' split
    all_goals omega

theorem follows_step {a : Op α} (h : Follows size place s) (ha : Bounded a s) (hc : Timely a s)
    (hs : step a s = some t) : Follows size place t := by
  have hinv := (inv_step h.inv hc hs).1
  cases a with
  | supplyData l =>
    simp only [step] at hs
    split at hs
    · obtain rfl := Option.some.inj hs
      obtain ⟨-, hcons, hmark⟩ := Ring.supplyLoop_frame l.length s.ring l
      refine ⟨hinv, ?_, ?_, ?_⟩
      · show place < (s.supplied ++ l).length
        rw [List.length_append]
        have := h.supplied
        omega
      · intro hle
        show (Ring.supplyLoop l.length s.ring l).mark = some ((wrap size ((Ring.supplyLoop _ _ _).consume + _) : Nat) : Int)
        rw [hmark, hcons]
        exact h.waits hle
      · intro hlt
        exact hmark.trans (h.gone hlt)
    · cases hs
  | supply l =>
    simp only [step] at hs
    split at hs
    · obtain rfl := Option.some.inj hs
      refine ⟨hinv, ?_, h.waits, h.gone⟩
      show place < (s.supplied ++ l).length
      rw [List.length_append]
      have := h.supplied
      omega
    · cases hs
  | consumed count => exact follows_consumed h hc hs
  | mark => exact absurd ha id
  | other =>
    obtain rfl := Option.some.inj hs
    exact ⟨hinv, h.supplied, h.waits, h.gone⟩

theorem run_inv_timely {mem : Nat → α} {clock : Nat} {ops : List (Op α)}
    (h : run step ops (init mem size clock) = some s) (hm : Meets step Timely ops (init mem size clock)) : Inv size s :=
  run_inv_meets (fun _ _ _ hi hc hs => (inv_step hi hc hs).1) (inv_init mem size clock) hm h

theorem mark_tracks_iff {mem : Nat → α} {clock : Nat} {ops : List (Op α)}
    (h : run step ops (init mem size clock) = some s) (hm : Meets step Timely ops (init mem size clock))
    (h0 : s.unread ≠ []) : Tracks size s ↔ s.ring.supply ≠ 0 := by
  have hinv := run_inv_timely h hm
  have hpos := List.length_pos_iff.mpr h0
  have hlen := length_unread (s := s)
  have hroom := hinv.holds.stand.room
  obtain ⟨hcons, hsup⟩ := hinv.holds.stand.pointers (by omega)
  rw [hinv.size] at hroom hcons hsup
  have hmark : s.ring.ringMark.mark = some (s.ring.decrement s.ring.supply 1) := rfl
  constructor
  · intro h hbottom
    obtain ⟨⟨i, -, -, hi⟩, -⟩ := h
    have := Option.some.inj (hmark.symm.trans hi)
    rw [hbottom] at this
    unfold Ring.decrement at this
    split at this <;> omega
  · intro hne
    have hcell : s.ring.ringMark.mark = some ((wrap size (s.ring.consume + (s.unread.length - 1)) : Nat) : Int) := by
      rw [hmark, Option.some_inj]
      unfold Ring.decrement
      rw [if_pos (by omega)]
      unfold wrap at *
      split at hsup <;> split <;> omega
    refine ⟨⟨_, wrap_lt hcons (by omega), rfl, hcell⟩, ?_⟩
    intro ops t hmeets hrun
    have hstart : Follows size (s.supplied.length - 1) { s with ring := s.ring.ringMark } := by
      refine ⟨⟨hinv.size, hinv.read, hinv.holds.ringMark h0⟩, ?_, ?_, ?_⟩
      · show _ < s.supplied.length
        omega
      · intro _
        rw [hcell, hlen, Nat.sub_right_comm]
        rfl
      · intro hlt
        have : s.supplied.length - 1 < s.read.length := hlt
        omega
    have hend : Follows size (s.supplied.length - 1) t :=
      run_inv_meets (fun _ _ _ hf ha hs => follows_step hf ha.1 ha.2 hs) hstart hmeets hrun
    exact hend.marks

theorem mark_tracks_past_the_top : ∃ s,
    run step [.supplyData [1, 2, 3], .consumed 2, .supplyData [4, 5]] (init (fun _ => 0) 4 0) = some s ∧ Tracks 4 s := by
  have h : (run step [.supplyData [1, 2, 3], .consumed 2, .supplyData [4, 5]] (init (fun _ => 0) 4 0)).map
      (fun s => (s.unread, s.ring.supply)) = some ([3, 4, 5], 1) := by decide +kernel
  obtain ⟨s, hs, he⟩ := Option.map_eq_some_iff.mp h
  obtain ⟨hu, hsup⟩ := Prod.mk.inj he
  exact ⟨s, hs, (mark_tracks_iff hs (by decide +kernel) (by rw [hu]; nofun)).mpr (by rw [hsup]; nofun)⟩

/-- The second byte of two is to be marked, and both may leave at once. -/
theorem last_cell_is_passed_over : ∃ s,
    run step [.supplyData [1, 2]] (init (fun _ => 0) 2 0) = some s ∧ s.unread = [1, 2] ∧
      s.ring.ringMark.mark = some (-3) ∧ s.ring.ringMark.ringFullConsecutive = 2 ∧ ¬ Tracks 2 s := by
  have h : (run step [.supplyData [1, 2]] (init (fun _ => 0) 2 0)).map
      (fun s => (s.unread, s.ring.ringMark.mark, s.ring.ringMark.ringFullConsecutive)) =
        some ([1, 2], some (-3), 2) := by decide +kernel
  obtain ⟨s, hs, he⟩ := Option.map_eq_some_iff.mp h
  simp only [Prod.mk.injEq] at he
  obtain ⟨hu, hm, hc⟩ := he
  refine ⟨s, hs, hu, hm, hc, ?_⟩
  intro h
  obtain ⟨⟨i, -, -, hi⟩, -⟩ := h
  have := Option.some.inj (hm.symm.trans hi)
  omega

end Fifo

end Netutils.Telnet
