/-
  Netutils.Telnet.Ring — the ring buffers of telnet (telnet/ring.c).

  A ring that holds as many bytes as it has cells looks like an empty one but for its two
  times. `Holding` says where the pointers and the times stand while a number of bytes wait,
  and each operation keeps it; with the bytes themselves the ring is a queue (`Holds`), as
  long as nothing is supplied that it has no room for.
-/

import Mathlib.Algebra.GroupWithZero.Nat
import Mathlib.Logic.Relation
import Netutils.Lib.Circular

namespace Netutils.Telnet

open Netutils.Lib.Cells
open Netutils.Lib.Circular

/-! ## The ring -/

/-- The pointers as offsets from bottom, top being at `size`; `none` is NULL. The mark may be
    set outside of the ring. -/
structure Ring (α : Type) where
  mem : Nat → α
  size : Nat
  consume : Nat
  supply : Nat
  clearto : Option Nat
  mark : Option Int
  consumetime : Nat
  supplytime : Nat
  /-- ring_clock, which all rings share. -/
  ringClock : Nat

/-- The range of u_long. -/
def clockRange : Nat := 2 ^ 64

namespace Ring

variable {α σ : Type}

/-- ring_init -/
def init (mem : Nat → α) (size clock : Nat) : Ring α := ⟨mem, size, 0, 0, none, none, 0, 0, clock⟩

/-- `++ring_clock` -/
def tick (r : Ring α) : Nat := (r.ringClock + 1) % clockRange

/-- ring_subtract -/
def subtract (r : Ring α) (a b : Int) : Int := if a - b ≥ 0 then a - b else a - b + r.size

/-- ring_increment -/
def increment (r : Ring α) (a c : Nat) : Nat := if a + c < r.size then a + c else a + c - r.size

/-- ring_decrement; below bottom it goes on downwards. -/
def decrement (r : Ring α) (a c : Int) : Int := if a - c ≥ 0 then a - c else a - c - r.size

def ringEmpty (r : Ring α) : Prop := r.consume = r.supply ∧ r.consumetime ≥ r.supplytime

def ringFull (r : Ring α) : Prop := r.supply = r.consume ∧ r.supplytime > r.consumetime

instance (r : Ring α) : Decidable r.ringEmpty := inferInstanceAs (Decidable (_ ∧ _))
instance (r : Ring α) : Decidable r.ringFull := inferInstanceAs (Decidable (_ ∧ _))

def ringEmptyCount (r : Ring α) : Nat := if r.ringEmpty then r.size else (r.subtract r.consume r.supply).toNat

def ringEmptyConsecutive (r : Ring α) : Nat :=
  (if r.consume < r.supply ∨ r.ringEmpty then r.subtract r.size r.supply else r.subtract r.consume r.supply).toNat

def ringFullConsecutive (r : Ring α) : Nat :=
  (if r.mark = none ∨ r.mark = some (r.consume : Int) then
    if r.supply < r.consume ∨ r.ringFull then r.subtract r.size r.consume else r.subtract r.supply r.consume
  else
    let mark := r.mark.getD 0
    if mark < r.consume then r.subtract r.size r.consume else r.subtract mark r.consume).toNat

/-- Less than nothing where the mark has been set below bottom. -/
def ringFullCount (r : Ring α) : Int :=
  if r.mark = none ∨ r.mark = some (r.consume : Int) then
    if r.ringFull then r.size else r.subtract r.supply r.consume
  else r.subtract (r.mark.getD 0) r.consume

def ringAtMark (r : Ring α) : Prop := r.mark = some (r.consume : Int)

def ringSupplied (r : Ring α) (count : Nat) : Ring α :=
  { r with supply := r.increment r.supply count, supplytime := r.tick, ringClock := r.tick }

/-- ring_mark -/
def ringMark (r : Ring α) : Ring α := { r with mark := some (r.decrement r.supply 1) }

/-- The rest of ring_consumed once the mark and clearto have been seen to. -/
def advance (r : Ring α) (count : Nat) : Ring α :=
  let r := { r with consume := r.increment r.consume count, consumetime := r.tick, ringClock := r.tick }
  if r.ringEmpty then { r with consume := 0, supply := 0 } else r

theorem advance_eq {r : Ring α} {count : Nat} {p : Prop} [Decidable p]
    (hp : r.increment r.consume count = r.supply ∧ r.tick ≥ r.supplytime ↔ p) :
    r.advance count = { r with
      consume := if p then 0 else r.increment r.consume count
      supply := if p then 0 else r.supply
      consumetime := r.tick
      ringClock := r.tick } := by
  unfold advance
  by_cases h : p
  · simp only [if_pos h]
    exact if_pos (hp.mpr h)
  · simp only [if_neg h]
    exact if_neg fun he => h (hp.mp he)

@[simp] theorem advance_mark (r : Ring α) (count : Nat) : (r.advance count).mark = r.mark := by
  unfold advance
  simp only
  split <;> rfl

@[simp] theorem advance_ringClock (r : Ring α) (count : Nat) : (r.advance count).ringClock = r.tick := by
  unfold advance
  simp only
  split <;> rfl

def ringConsumed (r : Ring α) (count : Nat) : Ring α :=
  if count = 0 then r
  else
    let mark := match r.mark with
      | some m => if r.subtract m r.consume < count then none else some m
      | none => none
    let clearto := match r.clearto with
      | some p =>
        if r.consume < p ∧ p ≤ r.consume + count then none
        -- the third condition of the source, a pointer into the ring, is always met
        else if r.consume + count > r.size then none
        else some p
      | none => none
    { r with mark := mark, clearto := clearto }.advance count

theorem ringConsumed_clock {r : Ring α} {count : Nat} (h0 : count ≠ 0) : (r.ringConsumed count).ringClock = r.tick := by
  rw [ringConsumed, if_neg h0]
  exact advance_ringClock _ _

theorem ringConsumed_unmarked {r : Ring α} (count : Nat) (hm : r.mark = none) : (r.ringConsumed count).mark = none := by
  unfold ringConsumed
  split
  · exact hm
  · rw [advance_mark, hm]

theorem ringConsumed_marked {r : Ring α} {count : Nat} {m : Int} (h0 : count ≠ 0) (hm : r.mark = some m) :
    (r.ringConsumed count).mark = if r.subtract m r.consume < count then none else some m := by
  rw [ringConsumed, if_neg h0, advance_mark, hm]

/-- One turn of the loop of ring_supply_data; `none` when nothing is left. -/
def supplyTurn (r : Ring α) (buffer : List α) : Option (Ring α × List α) :=
  if buffer.length = 0 then none
  else
    let i := min buffer.length r.ringEmptyConsecutive
    some ({ r with mem := store r.mem r.supply (buffer.take i) }.ringSupplied i, buffer.drop i)

/-- The loop of ring_supply_data; `fuel` turns of it. -/
def supplyLoop : Nat → Ring α → List α → Ring α
  | 0, r, _ => r
  | fuel + 1, r, buffer =>
    if buffer.length = 0 then r
    else
      let i := min buffer.length r.ringEmptyConsecutive
      supplyLoop fuel ({ r with mem := store r.mem r.supply (buffer.take i) }.ringSupplied i) (buffer.drop i)

/-- ring_supply_data. A turn takes at least one byte while the ring has room for one. -/
def ringSupplyData (r : Ring α) (buffer : List α) : Ring α := supplyLoop buffer.length r buffer

/-- `(*encryptor) (c, n)`, for an encryptor with a state of its own. -/
def encryptSpan (encryptor : σ → List α → List α × σ) (r : Ring α) (s : σ) (c n : Nat) : Ring α × σ :=
  let (l, s) := encryptor s (slice r.mem c (c + n))
  ({ r with mem := store r.mem c l }, s)

def ringEncrypt (encryptor : σ → List α → List α × σ) (r : Ring α) (s : σ) : Ring α × σ :=
  if r.ringEmpty ∨ r.clearto = some r.supply then (r, s)
  else
    let c := r.clearto.getD r.consume
    let (r, s) :=
      if r.supply ≤ c then
        let (r, s) := encryptSpan encryptor r s c (r.size - c)
        encryptSpan encryptor r s 0 r.supply
      else encryptSpan encryptor r s c (r.supply - c)
    ({ r with clearto := some r.supply }, s)

def ringClearto (r : Ring α) : Ring α :=
  if r.ringEmpty then { r with clearto := none } else { r with clearto := some r.supply }

/-- What an encryptor does to two pieces in turn, it does to the whole. -/
structure Piecewise (encryptor : σ → List α → List α × σ) : Prop where
  length : ∀ s l, (encryptor s l).1.length = l.length
  append : ∀ s l l', encryptor s (l ++ l') =
    ((encryptor s l).1 ++ (encryptor (encryptor s l).2 l').1, (encryptor (encryptor s l).2 l').2)

/-- ring_encrypt passes what lies from clearto to supply, and writes it back to its place. -/
theorem ringEncrypt_window {encryptor : σ → List α → List α × σ} (he : Piecewise encryptor) {r : Ring α} {c w : Nat}
    (s : σ) (hne : ¬ r.ringEmpty) (hcl : r.clearto ≠ some r.supply) (hc : r.clearto.getD r.consume = c)
    (hlt : c < r.size) (h0 : 0 < w) (hw : w ≤ r.size) (hs : r.supply = wrap r.size (c + w)) :
    ∃ mem, ringEncrypt encryptor r s =
        ({ r with mem := mem, clearto := some r.supply }, (encryptor s (window r.mem r.size c w)).2) ∧
      window mem r.size c w = (encryptor s (window r.mem r.size c w)).1 ∧
      ∀ k, w ≤ k → k < r.size → mem (wrap r.size (c + k)) = r.mem (wrap r.size (c + k)) := by
  have hun : ¬ (r.ringEmpty ∨ r.clearto = some r.supply) := not_or.mpr ⟨hne, hcl⟩
  by_cases htop : c + w < r.size
  · have hsup : r.supply = c + w := by rw [hs, wrap, if_pos htop]
    have hlen := he.length s (slice r.mem c (c + w))
    rw [length_slice, Nat.add_sub_cancel_left] at hlen
    refine ⟨store r.mem c (encryptor s (slice r.mem c (c + w))).1, ?_, ?_, ?_⟩
    · rw [ringEncrypt, if_neg hun]
      simp only [hc]
      rw [if_neg (by omega), window_eq_slice (by omega), show r.supply - c = w by omega]
      rfl
    · rw [window_eq_slice (by omega), window_eq_slice (by omega)]
      have := slice_store_same (m := r.mem) (i := c) (encryptor s (slice r.mem c (c + w))).1
      rwa [hlen] at this
    · intro k hk hk'
      apply store_outside
      rw [hlen]
      unfold wrap
      split <;> omega
  · have hsup : r.supply = c + w - r.size := by rw [hs, wrap, if_neg htop]
    obtain ⟨x, hx⟩ : ∃ x, x = encryptor s (slice r.mem c r.size) := ⟨_, rfl⟩
    obtain ⟨y, hy⟩ : ∃ y, y = encryptor x.2 (slice r.mem 0 (c + w - r.size)) := ⟨_, rfl⟩
    have hlx : x.1.length = r.size - c := by rw [hx, he.length, length_slice]
    have hly : y.1.length = c + w - r.size := by rw [hy, he.length, length_slice, Nat.sub_zero]
    have hall : encryptor s (window r.mem r.size c w) = (x.1 ++ y.1, y.2) := by
      rw [window_eq_slices hlt (by omega) hw, he.append, ← hx, ← hy]
    refine ⟨store (store r.mem c x.1) 0 y.1, ?_, ?_, ?_⟩
    · have hlow : slice (store r.mem c x.1) 0 (c + w - r.size) = slice r.mem 0 (c + w - r.size) :=
        slice_store_before _ (by omega)
      rw [ringEncrypt, if_neg hun, hall]
      simp only [hc]
      rw [if_pos (by omega)]
      unfold encryptSpan
      simp only [Nat.zero_add]
      rw [show c + (r.size - c) = r.size by omega, ← hx, hsup, hlow, ← hy]
    · rw [hall, window_eq_slices hlt (by omega) hw, slice_store_behind _ (by omega)]
      have h1 := slice_store_same (m := r.mem) (i := c) x.1
      have h2 := slice_store_same (m := store r.mem c x.1) (i := 0) y.1
      rw [hlx, show c + (r.size - c) = r.size by omega] at h1
      rw [hly, Nat.zero_add] at h2
      rw [h1, h2]
    · intro k hk hk'
      have hin : c + w - r.size ≤ wrap r.size (c + k) ∧ wrap r.size (c + k) < c := by
        unfold wrap
        split <;> omega
      rw [store_outside, store_outside] <;> omega

/-! ## The ring as a queue -/

/-- Where the mark is set for a byte, right but for the last one of the ring. -/
def slot (r : Ring α) (i : Nat) : Int := if i + 1 = r.size then -1 - r.size else i

/-- Where the pointers and the times stand while `n` bytes wait to be consumed; the mark is
    for one of them. -/
structure Holding (r : Ring α) (n : Nat) : Prop where
  room : n ≤ r.size
  times : r.consumetime ≤ r.ringClock ∧ r.supplytime ≤ r.ringClock
  empty : n = 0 → r.consume = 0 ∧ r.supply = 0 ∧ r.supplytime ≤ r.consumetime
  consume : n ≠ 0 → r.consume < r.size
  supply : n ≠ 0 → r.supply = wrap r.size (r.consume + n)
  full : n ≠ 0 → n = r.size → r.consumetime < r.supplytime
  mark : ∀ m, r.mark = some m → ∃ k < n, m = r.slot (wrap r.size (r.consume + k))

/-- The bytes that wait, in order. -/
structure Holds (r : Ring α) (q : List α) : Prop where
  stand : r.Holding q.length
  cells : window r.mem r.size r.consume q.length = q

variable {r : Ring α} {n : Nat} {q : List α}

theorem holding_init (mem : Nat → α) (size clock : Nat) : (init mem size clock).Holding 0 :=
  ⟨Nat.zero_le _, ⟨Nat.zero_le _, Nat.zero_le _⟩, fun _ => ⟨rfl, rfl, Nat.le_refl _⟩, fun h => absurd rfl h,
    fun h => absurd rfl h, fun h => absurd rfl h, nofun⟩

theorem tick_eq (hc : r.ringClock + 1 < clockRange) : r.tick = r.ringClock + 1 := Nat.mod_eq_of_lt hc

/-- Where consume and supply stand, whether the ring is empty or not. -/
theorem Holding.pointers (h : r.Holding n) (hsize : 0 < r.size) :
    r.consume < r.size ∧ r.supply = wrap r.size (r.consume + n) := by
  by_cases h0 : n = 0
  · obtain ⟨hcons, hsup, -⟩ := h.empty h0
    rw [hcons, hsup, h0, wrap, if_pos hsize]
    exact ⟨hsize, rfl⟩
  · exact ⟨h.consume h0, h.supply h0⟩

theorem Holding.ringEmpty_iff (h : r.Holding n) : r.ringEmpty ↔ n = 0 := by
  unfold ringEmpty
  by_cases h0 : n = 0
  · obtain ⟨h1, h2, h3⟩ := h.empty h0
    exact iff_of_true ⟨by rw [h1, h2], h3⟩ h0
  · refine iff_of_false ?_ h0
    intro h
    obtain ⟨h1, h2⟩ := h
    have hc := h.consume h0
    have hs := h.supply h0
    have hr := h.room
    have hf := h.full h0
    unfold wrap at hs
    split at hs
    · omega
    · have := hf (by omega)
      omega

theorem Holding.ringFull_iff (h : r.Holding n) : r.ringFull ↔ n ≠ 0 ∧ n = r.size := by
  unfold ringFull
  by_cases h0 : n = 0
  · obtain ⟨h1, h2, h3⟩ := h.empty h0
    refine iff_of_false ?_ (fun hn => hn.1 h0)
    intro h
    obtain ⟨-, h4⟩ := h
    omega
  · have hc := h.consume h0
    have hs := h.supply h0
    have hr := h.room
    constructor
    · intro h
      obtain ⟨h1, -⟩ := h
      refine ⟨h0, ?_⟩
      unfold wrap at hs
      split at hs <;> omega
    · intro h
      obtain ⟨-, h1⟩ := h
      refine ⟨?_, h.full h0 h1⟩
      unfold wrap at hs
      split at hs <;> omega

theorem Holding.emptyCount (h : r.Holding n) : r.ringEmptyCount = r.size - n := by
  unfold ringEmptyCount
  by_cases h0 : n = 0
  · rw [if_pos (h.ringEmpty_iff.mpr h0), h0, Nat.sub_zero]
  · rw [if_neg (fun he => h0 (h.ringEmpty_iff.mp he))]
    have hc := h.consume h0
    have hs := h.supply h0
    have hr := h.room
    unfold subtract
    unfold wrap at hs
    split at hs
    · rw [if_neg (by omega)]
      omega
    · rw [if_pos (by omega)]
      omega

/-- All the room is in one piece, or it starts with what lies between supply and the top. -/
theorem Holding.emptyConsecutive_eq (h : r.Holding n) :
    r.ringEmptyConsecutive = r.size - n ∧ r.supply + r.ringEmptyConsecutive ≤ r.size ∨
      n ≠ 0 ∧ r.supply ≠ 0 ∧ 0 < r.ringEmptyConsecutive ∧ n + r.ringEmptyConsecutive ≤ r.size ∧
        r.supply + r.ringEmptyConsecutive = r.size := by
  have hr := h.room
  unfold ringEmptyConsecutive subtract
  by_cases h0 : n = 0
  · obtain ⟨h1, h2, -⟩ := h.empty h0
    rw [if_pos (Or.inr (h.ringEmpty_iff.mpr h0)), h2, h0]
    simp
  · have hc := h.consume h0
    have hs := h.supply h0
    have hne : ¬ r.ringEmpty := fun he => h0 (h.ringEmpty_iff.mp he)
    unfold wrap at hs
    by_cases hlt : r.consume < r.supply
    · rw [if_pos (Or.inl hlt), if_pos (by split at hs <;> omega)]
      right
      split at hs <;> omega
    · rw [if_neg (by simp [hlt, hne]), if_pos (by omega)]
      left
      split at hs <;> omega

/-- Where supply stands, the ring may have to be filled in two parts. -/
theorem Holding.emptyConsecutive (h : r.Holding n) :
    n + r.ringEmptyConsecutive ≤ r.size ∧ r.supply + r.ringEmptyConsecutive ≤ r.size ∧
      (n < r.size → 0 < r.ringEmptyConsecutive) := by
  have hr := h.room
  rcases h.emptyConsecutive_eq with ⟨he, htop⟩ | ⟨-, -, hpos, hle, htop⟩ <;> omega

theorem Holding.fullConsecutive (h : r.Holding n) :
    r.ringFullConsecutive ≤ n ∧ r.consume + r.ringFullConsecutive ≤ r.size := by
  have hr := h.room
  by_cases h0 : n = 0
  · obtain ⟨h1, h2, -⟩ := h.empty h0
    have hm : r.mark = none := by
      rcases hm : r.mark with _ | m
      · rfl
      · obtain ⟨k, hk, -⟩ := h.mark m hm
        omega
    have hnf : ¬ r.ringFull := fun hf => (h.ringFull_iff.mp hf).1 h0
    unfold ringFullConsecutive subtract
    rw [if_pos (Or.inl hm), if_neg (by simp [h1, hnf, h2]), h1, h2]
    simp
  have hc := h.consume h0
  have hs := h.supply h0
  have hf := h.ringFull_iff
  unfold wrap at hs
  unfold ringFullConsecutive subtract
  by_cases hm : r.mark = none ∨ r.mark = some (r.consume : Int)
  · rw [if_pos hm]
    by_cases hw : r.supply < r.consume ∨ r.ringFull
    · rw [if_pos hw, if_pos (by omega)]
      split at hs
      · rcases hw with hw | hw
        · omega
        · have := (hf.mp hw).2
          omega
      · omega
    · rw [if_neg hw]
      obtain ⟨hle, hnf⟩ := not_or.mp hw
      have hnf' : n ≠ r.size := fun he => hnf (hf.mpr ⟨h0, he⟩)
      rw [if_pos (by omega)]
      split at hs <;> omega
  · -- no further than to the mark
    rw [if_neg hm]
    obtain ⟨m, hsome⟩ : ∃ m, r.mark = some m := Option.ne_none_iff_exists'.mp fun hn => hm (Or.inl hn)
    obtain ⟨k, hk, hslot⟩ := h.mark m hsome
    simp only [hsome, Option.getD_some]
    by_cases hlt : m < r.consume
    · -- the byte is past the top, or in the last cell, where its mark is below the ring
      rw [if_pos hlt, if_pos (by omega)]
      unfold slot wrap at hslot
      repeat' split at hslot
      all_goals omega
    · rw [if_neg hlt, if_pos (by omega)]
      unfold slot wrap at hslot
      repeat' split at hslot
      all_goals omega

/-! ### Supply -/

theorem Holding.supplied (h : r.Holding n) (mem : Nat → α) {i : Nat} (h0 : i ≠ 0) (hi : n + i ≤ r.size)
    (hc : r.ringClock + 1 < clockRange) : ({ r with mem := mem }.ringSupplied i).Holding (n + i) := by
  obtain ⟨hcons, hsup⟩ := h.pointers (by omega)
  obtain ⟨ht1, ht2⟩ := h.times
  have htick := tick_eq hc
  constructor
  case room => exact hi
  case times =>
    show r.consumetime ≤ r.tick ∧ r.tick ≤ r.tick
    omega
  case empty =>
    intro hz
    omega
  case consume => exact fun _ => hcons
  case supply =>
    intro _
    show wrap r.size (r.supply + i) = wrap r.size (r.consume + (n + i))
    rw [hsup, wrap_wrap hcons hi]
  case full =>
    intro _ _
    show r.consumetime < r.tick
    omega
  case mark =>
    intro m hm
    obtain ⟨k, hk, he⟩ := h.mark m hm
    exact ⟨k, by omega, he⟩

/-- What lies in one piece behind supply is put behind the bytes that wait. -/
theorem Holds.supplied (h : r.Holds q) {l : List α} (h0 : l ≠ []) (hl : q.length + l.length ≤ r.size)
    (htop : r.supply + l.length ≤ r.size) (hc : r.ringClock + 1 < clockRange) :
    ({ r with mem := store r.mem r.supply l }.ringSupplied l.length).Holds (q ++ l) := by
  have hpos := List.length_pos_iff.mpr h0
  obtain ⟨hcons, hsup⟩ := h.stand.pointers (by omega)
  rw [hsup] at htop
  refine ⟨?_, ?_⟩
  · rw [List.length_append]
    exact h.stand.supplied _ (by omega) hl hc
  · show window (store r.mem r.supply l) r.size r.consume (q ++ l).length = q ++ l
    rw [List.length_append, hsup, window_store hcons hl htop, h.cells]

theorem supplyLoop_nil (fuel : Nat) (r : Ring α) : supplyLoop fuel r [] = r := by
  cases fuel <;> rfl

/-- What ring_supply_data leaves as it is. -/
theorem supplyLoop_frame (fuel : Nat) (r : Ring α) (l : List α) :
    (supplyLoop fuel r l).size = r.size ∧ (supplyLoop fuel r l).consume = r.consume ∧
      (supplyLoop fuel r l).mark = r.mark := by
  induction fuel generalizing r l with
  | zero => exact ⟨rfl, rfl, rfl⟩
  | succ fuel ih =>
    unfold supplyLoop
    split
    · exact ⟨rfl, rfl, rfl⟩
    · exact ih _ _

theorem supplyLoop_turn (fuel : Nat) (r : Ring α) (l : List α) :
    supplyLoop (fuel + 1) r l = (r.supplyTurn l).elim r fun x => supplyLoop fuel x.1 x.2 := by
  rw [supplyLoop, supplyTurn]
  split <;> rfl

/-- How many turns ring_supply_data takes where there is room: one, or one up to the top and
    one from the bottom. -/
def turns (r : Ring α) (count : Nat) : Nat :=
  if count = 0 then 0 else if count ≤ r.ringEmptyConsecutive then 1 else 2

theorem Holding.turns_le (h : r.Holding n) {count : Nat} (hroom : n + count ≤ r.size) : r.turns count ≤ count := by
  obtain ⟨-, -, hpos⟩ := h.emptyConsecutive
  unfold turns
  repeat' split
  all_goals omega

/-- A turn puts some of the bytes behind those that wait, and leaves one turn less to do. -/
theorem Holds.supplyTurn (h : r.Holds q) {l : List α} (h0 : l ≠ []) (hl : q.length + l.length ≤ r.size)
    (hc : r.ringClock + r.turns l.length < clockRange) :
    ∃ i u, 0 < i ∧ i ≤ l.length ∧ r.supplyTurn l = some (u, l.drop i) ∧ u.Holds (q ++ l.take i) ∧ u.size = r.size ∧
      u.ringClock + u.turns (l.length - i) = r.ringClock + r.turns l.length := by
  have hpos := List.length_pos_iff.mpr h0
  obtain ⟨hle, htop, hroom⟩ := h.stand.emptyConsecutive
  have hroom := hroom (by omega)
  obtain ⟨i, hi⟩ : ∃ i, i = min l.length r.ringEmptyConsecutive := ⟨_, rfl⟩
  have hlen : (l.take i).length = i := by rw [List.length_take]; omega
  have hne : l.take i ≠ [] := by
    intro hn
    rw [hn] at hlen
    simp only [List.length_nil] at hlen
    omega
  have hturns : r.turns l.length = if l.length ≤ r.ringEmptyConsecutive then 1 else 2 := if_neg (by omega)
  have hclock : r.ringClock + 1 < clockRange := by
    rw [hturns] at hc
    split at hc <;> omega
  have hturn := h.supplied hne (by omega) (by omega) hclock
  rw [hlen] at hturn
  refine ⟨i, _, by omega, by omega, ?_, hturn, rfl, ?_⟩
  · unfold Ring.supplyTurn
    rw [if_neg (by omega), hi]
  show r.tick + _ = _
  rw [tick_eq hclock, hturns]
  by_cases hone : l.length ≤ r.ringEmptyConsecutive
  · rw [if_pos hone, show l.length - i = 0 by omega]
    rfl
  · -- the turn ended at the top, and all the room there is now starts at the bottom
    have hstand := hturn.stand
    rw [List.length_append, hlen] at hstand
    have hbottom : ({ r with mem := store r.mem r.supply (l.take i) }.ringSupplied i).supply = 0 := by
      rcases h.stand.emptyConsecutive_eq with ⟨he, -⟩ | ⟨-, -, -, -, he⟩
      · omega
      · show r.increment r.supply i = 0
        rw [increment, if_neg (by omega)]
        omega
    have hrest : l.length - i ≤ ({ r with mem := store r.mem r.supply (l.take i) }.ringSupplied i).ringEmptyConsecutive := by
      rcases hstand.emptyConsecutive_eq with ⟨he, -⟩ | ⟨-, hs, -⟩
      · rw [he]
        show _ ≤ r.size - _
        omega
      · exact absurd hbottom hs
    rw [if_neg hone]
    unfold turns
    rw [if_neg (by omega), if_pos hrest]

/-- A turn of the loop, as a step from what is left to do. -/
def Turn (x y : Ring α × List α) : Prop := x.1.supplyTurn x.2 = some y

/-- ring_supply_data comes to its end, with all bytes behind those that waited. -/
theorem Holds.supplyLoop (h : r.Holds q) {fuel : Nat} {l : List α} (hf : l.length ≤ fuel)
    (hl : q.length + l.length ≤ r.size) (hc : r.ringClock + r.turns l.length < clockRange) :
    (supplyLoop fuel r l).Holds (q ++ l) ∧ (supplyLoop fuel r l).ringClock = r.ringClock + r.turns l.length ∧
      Relation.ReflTransGen Turn (r, l) (supplyLoop fuel r l, []) := by
  induction fuel generalizing r q l with
  | zero =>
    obtain rfl := List.length_eq_zero_iff.mp (Nat.le_zero.mp hf)
    rw [List.append_nil]
    exact ⟨h, rfl, .refl⟩
  | succ fuel ih =>
    by_cases h0 : l = []
    · subst h0
      rw [supplyLoop_nil, List.append_nil]
      exact ⟨h, rfl, .refl⟩
    obtain ⟨i, u, hi, hle, hturn, hu, hsize, hclock⟩ := h.supplyTurn h0 hl hc
    have hdrop : (l.drop i).length = l.length - i := List.length_drop
    have hlen : (l.take i).length = i := by rw [List.length_take]; omega
    obtain ⟨h1, h2, h3⟩ := ih (l := l.drop i) hu (by omega)
      (by rw [List.length_append, hlen, hdrop, hsize]; omega) (by rw [hdrop, hclock]; exact hc)
    rw [supplyLoop_turn, hturn]
    rw [List.append_assoc, List.take_append_drop] at h1
    rw [hdrop, hclock] at h2
    exact ⟨h1, h2, .head hturn h3⟩

theorem Holds.ringSupplyData (h : r.Holds q) {l : List α} (hl : q.length + l.length ≤ r.size)
    (hc : r.ringClock + l.length < clockRange) :
    (r.ringSupplyData l).Holds (q ++ l) ∧ (r.ringSupplyData l).ringClock ≤ r.ringClock + l.length := by
  have hturns := h.stand.turns_le hl
  obtain ⟨h1, h2, -⟩ := h.supplyLoop (Nat.le_refl _) hl (by omega)
  refine ⟨h1, ?_⟩
  show (Ring.supplyLoop _ _ _).ringClock ≤ _
  omega

/-- The byte that is marked is the last of those that wait. -/
theorem Holds.ringMark (h : r.Holds q) (h0 : q ≠ []) : r.ringMark.Holds q := by
  have hpos := List.length_pos_iff.mpr h0
  have hroom := h.stand.room
  obtain ⟨hcons, hsup⟩ := h.stand.pointers (by omega)
  refine ⟨⟨hroom, h.stand.times, h.stand.empty, h.stand.consume, h.stand.supply, h.stand.full, ?_⟩, h.cells⟩
  intro m hm
  refine ⟨q.length - 1, by omega, ?_⟩
  obtain rfl := Option.some.inj hm
  show r.decrement r.supply 1 = r.slot (wrap r.size (r.consume + (q.length - 1)))
  unfold decrement slot
  rw [hsup]
  unfold wrap
  repeat' split
  all_goals omega

/-! ### Consumption -/

theorem Holding.advance_eq (h : r.Holding n) {k : Nat} (h0 : k ≠ 0) (hk : k ≤ n) (hc : r.ringClock + 1 < clockRange)
    (mark : Option Int) (clearto : Option Nat) :
    { r with mark := mark, clearto := clearto }.advance k = { r with
      mark := mark
      clearto := clearto
      consume := if k = n then 0 else wrap r.size (r.consume + k)
      supply := if k = n then 0 else r.supply
      consumetime := r.ringClock + 1
      ringClock := r.ringClock + 1 } := by
  have hroom := h.room
  have hlt := h.consume (by omega)
  have hsup := h.supply (by omega)
  have htick := tick_eq hc
  obtain ⟨-, htime⟩ := h.times
  have hstop : r.increment r.consume k = r.supply ∧ r.tick ≥ r.supplytime ↔ k = n := by
    unfold increment
    rw [hsup, htick]
    unfold wrap
    repeat' split
    all_goals omega
  rw [← htick]
  exact Ring.advance_eq (r := { r with mark := mark, clearto := clearto }) hstop

theorem Holding.ringConsumed_consume (h : r.Holding n) {k : Nat} (h0 : k ≠ 0) (hk : k ≤ n)
    (hc : r.ringClock + 1 < clockRange) :
    (r.ringConsumed k).consume = if k = n then 0 else wrap r.size (r.consume + k) := by
  rw [Ring.ringConsumed, if_neg h0]
  simp only
  rw [h.advance_eq h0 hk hc]

/-- Where `k` bytes do not come to the mark, its byte is behind them. -/
theorem Holding.far (h : r.Holding n) {m : Int} {k : Nat} (hm : r.mark = some m)
    (hfar : k ≤ r.subtract m r.consume) : ∃ j < n, k ≤ j ∧ m = r.slot (wrap r.size (r.consume + j)) := by
  have hroom := h.room
  obtain ⟨j, hj, he⟩ := h.mark m hm
  have hlt := h.consume (by omega)
  refine ⟨j, hj, ?_, he⟩
  rw [he] at hfar
  unfold subtract slot wrap at hfar
  repeat' split at hfar
  all_goals omega

/-- ring_consumed drops a mark that the bytes pass, and advances. -/
theorem ringConsumed_advance {k : Nat} (r : Ring α) (h0 : k ≠ 0) : ∃ mark clearto,
    (∀ m, mark = some m → r.mark = some m ∧ k ≤ r.subtract m r.consume) ∧
      r.ringConsumed k = { r with mark := mark, clearto := clearto }.advance k := by
  refine ⟨_, _, ?_, if_neg h0⟩
  intro m hm
  split at hm
  · rename_i m' hm'
    split at hm
    · cases hm
    · rename_i hfar
      obtain rfl := Option.some.inj hm
      exact ⟨hm', Int.not_lt.mp hfar⟩
  · cases hm

theorem Holding.advance (h : r.Holding n) {k : Nat} (h0 : k ≠ 0) (hk : k ≤ n) (hc : r.ringClock + 1 < clockRange)
    {mark : Option Int} {clearto : Option Nat}
    (hmark : ∀ m, mark = some m → r.mark = some m ∧ k ≤ r.subtract m r.consume) :
    ({ r with mark := mark, clearto := clearto }.advance k).Holding (n - k) := by
  have hroom := h.room
  have hlt := h.consume (by omega)
  have hsup := h.supply (by omega)
  obtain ⟨-, hst⟩ := h.times
  rw [h.advance_eq h0 hk hc]
  constructor
  case room =>
    show n - k ≤ r.size
    omega
  case times => exact ⟨Nat.le_refl _, Nat.le_succ_of_le hst⟩
  case empty =>
    intro hz
    have hd : k = n := by omega
    exact ⟨if_pos hd, if_pos hd, Nat.le_succ_of_le hst⟩
  case consume =>
    intro hz
    have hd : k ≠ n := by omega
    show (if k = n then 0 else _) < r.size
    rw [if_neg hd]
    exact wrap_lt hlt (by omega)
  case supply =>
    intro hz
    have hd : k ≠ n := by omega
    have hsplit : n = k + (n - k) := by omega
    show (if k = n then 0 else r.supply) = wrap r.size ((if k = n then 0 else _) + _)
    rw [if_neg hd, if_neg hd, wrap_wrap hlt (by omega), ← hsplit]
    exact hsup
  case full =>
    intro _ hz
    have hall : n - k = r.size := hz
    omega
  case mark =>
    intro m hm
    obtain ⟨hold, hfar⟩ := hmark m hm
    obtain ⟨j, hj, hkj, he⟩ := h.far hold hfar
    have hd : k ≠ n := by omega
    refine ⟨j - k, by omega, ?_⟩
    show m = r.slot (wrap r.size ((if k = n then 0 else _) + (j - k)))
    rw [if_neg hd, wrap_wrap hlt (by omega), he, show k + (j - k) = j by omega]

/-- The bytes consumed are the first of the queue, the others stay; a mark that they passed
    is gone. -/
theorem Holds.consumed (h : r.Holds q) {k : Nat} (hk : k ≤ q.length) (hc : r.ringClock + 1 < clockRange) :
    (r.ringConsumed k).Holds (q.drop k) ∧ window r.mem r.size r.consume k = q.take k ∧
      (r.ringConsumed k).size = r.size := by
  by_cases h0 : k = 0
  · subst h0
    exact ⟨h, rfl, rfl⟩
  have hroom := h.stand.room
  have hlt := h.stand.consume (by omega)
  have hlen : (q.drop k).length = q.length - k := List.length_drop
  -- the cells of those that go, and of those that stay
  have hcells := h.cells
  rw [show q.length = k + (q.length - k) by omega, ← window_append hlt (by omega)] at hcells
  obtain ⟨hgone, hstay⟩ := List.append_inj (hcells.trans (List.take_append_drop k q).symm)
    (by rw [length_window, List.length_take]; omega)
  obtain ⟨mark, clearto, hmark, hring⟩ := r.ringConsumed_advance h0
  have hstand : ({ r with mark := mark, clearto := clearto }.advance k).Holding _ := h.stand.advance h0 hk hc hmark
  rw [hring]
  refine ⟨⟨?_, ?_⟩, hgone, ?_⟩
  · rw [hlen]
    exact hstand
  · rw [h.stand.advance_eq h0 hk hc, hlen]
    show window r.mem r.size (if k = q.length then 0 else _) (q.length - k) = q.drop k
    by_cases hd : k = q.length
    · rw [hd, Nat.sub_self, List.drop_length]
      rfl
    · rw [if_neg hd]
      exact hstay
  · rw [h.stand.advance_eq h0 hk hc]

/-- The same for bytes that lie in one piece. -/
theorem Holds.ringConsumed (h : r.Holds q) {k : Nat} (hk : k ≤ r.ringFullConsecutive)
    (hc : r.ringClock + 1 < clockRange) :
    (r.ringConsumed k).Holds (q.drop k) ∧ slice r.mem r.consume (r.consume + k) = q.take k ∧
      (r.ringConsumed k).size = r.size := by
  obtain ⟨hle, htop⟩ := h.stand.fullConsecutive
  have hall := h.consumed (k := k) (by omega) hc
  rwa [window_eq_slice (by omega)] at hall

/-- Another ring moves ring_clock. -/
theorem Holds.tick (h : r.Holds q) (hc : r.ringClock + 1 < clockRange) : { r with ringClock := r.tick }.Holds q := by
  obtain ⟨h1, h2⟩ := h.stand.times
  refine ⟨⟨h.stand.room, ?_, h.stand.empty, h.stand.consume, h.stand.supply, h.stand.full, h.stand.mark⟩, h.cells⟩
  rw [tick_eq hc]
  exact ⟨Nat.le_succ_of_le h1, Nat.le_succ_of_le h2⟩

end Ring

end Netutils.Telnet
