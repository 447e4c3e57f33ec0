/-
  Netutils.Telnet.Netoring — what of the network's output ring reaches the encryptor
  (ring_encrypt and ring_clearto of telnet/ring.c, netflush of telnet/network.c).

  ring_encrypt takes the bytes from clearto, or from consume, to supply, and moves clearto
  to supply. A ring that was drained at its top is left with clearto at its bottom; if it is
  then filled to the last byte, supply is back at the bottom too, and ring_encrypt takes the
  full ring for one that is done (`Ambiguous`). In a run where that does not happen every
  byte that is to be encrypted is so exactly once, in the order of supply (`run_exact`).
-/

import Netutils.Lib.Transition
import Netutils.Telnet.Ring

namespace Netutils.Telnet

open Netutils.Lib.Cells
open Netutils.Lib.Circular
open Netutils.Lib.Transition

/-! ## Bytes that are counted -/

/-- A byte: its place in the order of supply, and how often it has been passed to the
    encryptor. -/
structure Cell where
  number : Nat
  passed : Nat
  deriving DecidableEq

/-- An encryptor that writes down what it is given. -/
def tally (given : List Nat) (l : List Cell) : List Cell × List Nat :=
  (l.map fun c => { c with passed := c.passed + 1 }, given ++ l.map Cell.number)

/-- netoring, with no mark, and its history. -/
structure Netoring where
  ring : Ring Cell
  /-- For each byte supplied before the last ring_encrypt or ring_clearto: whether the first
      of these calls after its supply was ring_encrypt. -/
  settled : List Bool
  /-- The bytes supplied since. -/
  waiting : Nat
  /-- The bytes given to the encryptor. -/
  encrypted : List Nat
  consumed : List Cell

namespace Netoring

def init (mem : Nat → Cell) (size clock : Nat) : Netoring := ⟨Ring.init mem size clock, [], 0, [], []⟩

/-- The next `count` bytes. -/
def fresh (t : Netoring) (count : Nat) : List Cell := (List.range' (t.settled.length + t.waiting) count).map (⟨·, 0⟩)

inductive Op where
  | supply (count : Nat)
  | encrypt
  | clearto
  | consumed (count : Nat)
  /-- Another ring moves ring_clock. -/
  | other

def step (a : Op) (t : Netoring) : Option Netoring :=
  match a with
  | .supply count =>
    if count ≤ t.ring.ringEmptyCount then
      some { t with ring := t.ring.ringSupplyData (t.fresh count), waiting := t.waiting + count }
    else none
  | .encrypt =>
    let (ring, given) := t.ring.ringEncrypt tally t.encrypted
    some { t with ring := ring, encrypted := given, settled := t.settled ++ List.replicate t.waiting true, waiting := 0 }
  | .clearto =>
    some { t with ring := t.ring.ringClearto, settled := t.settled ++ List.replicate t.waiting false, waiting := 0 }
  | .consumed count =>
    -- netflush writes what lies from consume on, after the call that followed the last supply
    if count ≤ t.ring.ringFullConsecutive ∧ t.waiting = 0 then
      some { t with
        ring := t.ring.ringConsumed count
        consumed := t.consumed ++ slice t.ring.mem t.ring.consume (t.ring.consume + count) }
    else none
  | .other => some { t with ring := { t.ring with ringClock := t.ring.tick } }

/-- A byte of the ring as it ought to be. -/
def due (settled : List Bool) (number : Nat) : Cell := ⟨number, if settled.getD number false then 1 else 0⟩

/-- The bytes consumed are those supplied, in order, each passed to the encryptor once if
    that was the first call after its supply, else never; and the encryptor was given those
    it was to be given, in order. -/
structure Exact (t : Netoring) : Prop where
  settled : t.consumed.length ≤ t.settled.length
  consumed : t.consumed = (List.range t.consumed.length).map (due t.settled)
  encrypted : t.encrypted = (List.range t.settled.length).filter (t.settled.getD · false)

/-- The whole ring has been filled since the last call, and clearto is where supply is. -/
def Ambiguous (t : Netoring) : Prop := t.waiting = t.ring.size ∧ t.ring.clearto = some t.ring.supply

/-- ring_encrypt does not meet an ambiguous ring, and ring_clock does not wrap around. -/
def Clear (a : Op) (t : Netoring) : Prop :=
  (match a with
    | .encrypt => ¬ t.Ambiguous
    | _ => True) ∧ t.ring.ringClock + 2 < clockRange

instance (t : Netoring) : Decidable t.Ambiguous := inferInstanceAs (Decidable (_ ∧ _))

instance (a : Op) (t : Netoring) : Decidable (Clear a t) := by
  cases a <;> exact inferInstanceAs (Decidable (_ ∧ _))

/-! ## What the ring holds -/

/-- How many bytes wait to be consumed. -/
def held (t : Netoring) : Nat := t.settled.length + t.waiting - t.consumed.length

structure Inv (t : Netoring) : Prop where
  mark : t.ring.mark = none
  settled : t.consumed.length ≤ t.settled.length
  room : t.held ≤ t.ring.size
  times : t.ring.consumetime ≤ t.ring.ringClock ∧ t.ring.supplytime ≤ t.ring.ringClock
  empty : t.held = 0 → t.ring.consume = 0 ∧ t.ring.supply = 0 ∧ t.ring.supplytime ≤ t.ring.consumetime ∧
    (t.ring.clearto = none ∨ t.ring.clearto = some 0)
  consume : t.held ≠ 0 → t.ring.consume < t.ring.size
  supply : t.held ≠ 0 → t.ring.supply = wrap t.ring.size (t.ring.consume + t.held)
  full : t.held ≠ 0 → t.held = t.ring.size → t.ring.consumetime < t.ring.supplytime
  clearto : t.held ≠ 0 → t.ring.clearto = none ∧ t.waiting = t.held ∨
    t.ring.clearto = some (wrap t.ring.size (t.ring.consume + (t.held - t.waiting)))
  cells : window t.ring.mem t.ring.size t.ring.consume t.held =
    (List.range' t.consumed.length t.held).map (due t.settled)
  consumed : t.consumed = (List.range t.consumed.length).map (due t.settled)
  encrypted : t.encrypted = (List.range t.settled.length).filter (t.settled.getD · false)

variable {t u : Netoring}

theorem Inv.waiting_le (h : Inv t) : t.waiting ≤ t.held := by
  have := h.settled
  unfold held
  omega

/-- Its pointers are those of a ring that holds the bytes supplied and not consumed. -/
theorem Inv.holding (h : Inv t) : t.ring.Holding t.held where
  room := h.room
  times := h.times
  empty h0 := ⟨(h.empty h0).1, (h.empty h0).2.1, (h.empty h0).2.2.1⟩
  consume := h.consume
  supply := h.supply
  full := h.full
  mark m hm := by
    rw [h.mark] at hm
    cases hm

theorem Inv.holds (h : Inv t) :
    t.ring.Holds ((List.range' t.consumed.length t.held).map (due t.settled)) := by
  have hlen : ((List.range' t.consumed.length t.held).map (due t.settled)).length = t.held := by simp
  refine ⟨?_, ?_⟩
  · rw [hlen]
    exact h.holding
  · rw [hlen]
    exact h.cells

/-! ## Supply -/

theorem length_fresh {count : Nat} : (t.fresh count).length = count := by simp [fresh]

/-- A turn of the loop of ring_supply_data. -/
def fill (t : Netoring) (i : Nat) : Netoring :=
  { t with
    ring := { t.ring with mem := store t.ring.mem t.ring.supply (t.fresh i) }.ringSupplied i
    waiting := t.waiting + i }

theorem held_fill (h : Inv t) (i : Nat) : (t.fill i).held = t.held + i := by
  have := h.settled
  unfold held fill
  simp only
  omega

/-- The bytes that are new are not to be given to the encryptor yet. -/
theorem due_new {settled : List Bool} {k n : Nat} (h : settled.length ≤ k) :
    (List.range' k n).map (due settled) = (List.range' k n).map (⟨·, 0⟩) := by
  apply List.map_congr_left
  intro x hx
  have : settled.length ≤ x := by
    obtain ⟨j, -, rfl⟩ := List.mem_range'.mp hx
    omega
  simp [due, List.getD_eq_getElem?_getD, List.getElem?_eq_none this]

/-- Where clearto stands, whether the ring is empty or not. -/
theorem Inv.clearto_stands (h : Inv t) (hsize : 0 < t.ring.size) :
    t.ring.clearto = none ∧ t.waiting = t.held ∨
      t.ring.clearto = some (wrap t.ring.size (t.ring.consume + (t.held - t.waiting))) := by
  by_cases hz : t.held = 0
  · obtain ⟨hcons, -, -, hclear⟩ := h.empty hz
    have hw := h.waiting_le
    rw [hcons, hz, Nat.zero_sub, Nat.add_zero, wrap, if_pos hsize]
    rcases hclear with hn | hn
    · exact Or.inl ⟨hn, by omega⟩
    · exact Or.inr hn
  · exact h.clearto hz

theorem inv_fill (h : Inv t) {i : Nat} (h0 : i ≠ 0) (hi : i ≤ t.ring.ringEmptyConsecutive)
    (hc : t.ring.ringClock + 1 < clockRange) : Inv (t.fill i) ∧ (t.fill i).ring.ringClock = t.ring.ringClock + 1 := by
  obtain ⟨hroom, htop, -⟩ := h.holding.emptyConsecutive
  have hset := h.settled
  have hclear := h.clearto_stands (by omega)
  have hheld := held_fill h i
  have hlen : (t.fresh i).length = i := length_fresh
  have hne : t.fresh i ≠ [] := by
    intro hn
    rw [hn] at hlen
    exact h0 hlen.symm
  have hstart : t.settled.length + t.waiting = t.consumed.length + t.held := by unfold held; omega
  have hnew : (List.range' (t.settled.length + t.waiting) i).map (due t.settled) = t.fresh i := due_new (by omega)
  have hall : (List.range' t.consumed.length t.held).map (due t.settled) ++ t.fresh i =
      (List.range' t.consumed.length (t.fill i).held).map (due t.settled) := by
    rw [← hnew, hstart, ← List.map_append, List.range'_append_1, hheld]
  have hfill : (t.fill i).ring.Holds ((List.range' t.consumed.length (t.fill i).held).map (due t.settled)) := by
    rw [← hall]
    have := h.holds.supplied hne (by simpa [hlen] using by omega) (by omega) hc
    rwa [hlen] at this
  have hstands : (t.fill i).ring.Holding (t.fill i).held := by simpa using hfill.stand
  refine ⟨?_, Ring.tick_eq hc⟩
  constructor
  case mark => exact h.mark
  case settled => exact h.settled
  case room => exact hstands.room
  case times => exact hstands.times
  case empty =>
    intro hz
    omega
  case consume => exact hstands.consume
  case supply => exact hstands.supply
  case full => exact hstands.full
  case clearto =>
    intro _
    rw [hheld]
    show t.ring.clearto = none ∧ t.waiting + i = t.held + i ∨
      t.ring.clearto = some (wrap t.ring.size (t.ring.consume + (t.held + i - (t.waiting + i))))
    rw [Nat.add_sub_add_right]
    rcases hclear with ⟨hn, he⟩ | hp
    · exact Or.inl ⟨hn, by rw [he]⟩
    · exact Or.inr hp
  case cells =>
    have hcells := hfill.cells
    rw [List.length_map, List.length_range'] at hcells
    exact hcells
  case consumed => exact h.consumed
  case encrypted => exact h.encrypted

theorem fresh_zero : t.fresh 0 = [] := rfl

theorem supplyLoop_fill {count i : Nat} (fuel : Nat) (h0 : count ≠ 0) (hi : i = min count t.ring.ringEmptyConsecutive) :
    Ring.supplyLoop (fuel + 1) t.ring (t.fresh count) =
      Ring.supplyLoop fuel (t.fill i).ring ((t.fill i).fresh (count - i)) := by
  have hlen : (t.fresh count).length = count := length_fresh
  have htake : (t.fresh count).take i = t.fresh i := by
    unfold fresh
    rw [← List.map_take, List.take_range'_of_length_ge (by omega)]
  have hdrop : (t.fresh count).drop i = (t.fill i).fresh (count - i) := by
    unfold fresh
    rw [← List.map_drop, List.drop_range', Nat.mul_one, Nat.add_assoc]
    rfl
  rw [Ring.supplyLoop, if_neg (by omega)]
  simp only
  rw [hlen, ← hi, htake, hdrop]
  rfl

/-- The bytes are supplied in one turn or, past the top, in two. -/
theorem inv_supply (h : Inv t) (count : Nat) (hc : t.ring.ringClock + 2 < clockRange)
    (hs : step (.supply count) t = some u) : Inv u := by
  obtain ⟨hn, rfl⟩ : count ≤ t.ring.ringEmptyCount ∧ { t with
      ring := t.ring.ringSupplyData (t.fresh count), waiting := t.waiting + count } = u := by
    simp only [step] at hs
    split at hs
    · rename_i hn
      exact ⟨hn, Option.some.inj hs⟩
    · cases hs
  rw [h.holding.emptyCount] at hn
  have hroom := h.room
  obtain ⟨hle, -, hpos⟩ := h.holding.emptyConsecutive
  have hlen : (t.fresh count).length = count := length_fresh
  unfold Ring.ringSupplyData
  rw [hlen]
  rcases Nat.eq_zero_or_pos count with rfl | h0
  · rw [fresh_zero, Ring.supplyLoop_nil]
    exact h
  obtain ⟨fuel, rfl⟩ : ∃ fuel, count = fuel + 1 := ⟨count - 1, by omega⟩
  have hpos := hpos (by omega)
  by_cases hone : fuel + 1 ≤ t.ring.ringEmptyConsecutive
  · rw [supplyLoop_fill fuel (by omega) (Nat.min_eq_left hone).symm, Nat.sub_self, fresh_zero, Ring.supplyLoop_nil]
    exact (inv_fill h (by omega) hone (by omega)).1
  -- the first turn comes up to the top, and the second one starts at the bottom
  obtain ⟨i, hi⟩ : ∃ i, i = t.ring.ringEmptyConsecutive := ⟨_, rfl⟩
  obtain ⟨h1, hclock⟩ := inv_fill h (show i ≠ 0 by omega) (by omega) (by omega)
  have hheld := held_fill h i
  have hsize : (t.fill i).ring.size = t.ring.size := rfl
  have hbottom : (t.fill i).ring.supply = 0 := by
    rcases h.holding.emptyConsecutive_eq with ⟨he, -⟩ | ⟨-, -, -, -, he⟩
    · omega
    · show t.ring.increment t.ring.supply i = 0
      rw [Ring.increment, if_neg (by omega)]
      omega
  have hrest : fuel + 1 - i ≤ (t.fill i).ring.ringEmptyConsecutive := by
    rcases h1.holding.emptyConsecutive_eq with ⟨he, -⟩ | ⟨-, hne, -⟩
    · omega
    · exact absurd hbottom hne
  obtain ⟨fuel', rfl⟩ : ∃ fuel', fuel = fuel' + 1 := ⟨fuel - 1, by omega⟩
  rw [supplyLoop_fill (fuel' + 1) (by omega) (show i = min _ _ by omega),
    supplyLoop_fill fuel' (by omega) (Nat.min_eq_left hrest).symm, Nat.sub_self, fresh_zero, Ring.supplyLoop_nil]
  have h2 := (inv_fill h1 (by omega) hrest (by omega)).1
  have hall : t.waiting + (fuel' + 1 + 1) = t.waiting + i + (fuel' + 1 + 1 - i) := by omega
  rw [hall]
  exact h2

/-! ## Encryption -/

theorem piecewise_tally : Ring.Piecewise tally where
  length s l := by simp [tally]
  append s l l' := by simp [tally]

/-- A call does not change what earlier ones have settled. -/
theorem due_append {settled l : List Bool} {k : Nat} (h : k < settled.length) : due (settled ++ l) k = due settled k := by
  simp [due, List.getD_eq_getElem?_getD, List.getElem?_append_left h]

theorem due_settled {settled : List Bool} {b : Bool} {n k : Nat} (h : settled.length ≤ k) (hk : k < settled.length + n) :
    due (settled ++ List.replicate n b) k = ⟨k, if b then 1 else 0⟩ := by
  simp [due, List.getD_eq_getElem?_getD, List.getElem?_append_right h,
    show k - settled.length < n by omega]

theorem map_due_append {settled l : List Bool} {a n : Nat} (h : a + n ≤ settled.length) :
    (List.range' a n).map (due (settled ++ l)) = (List.range' a n).map (due settled) := by
  apply List.map_congr_left
  intro k hk
  obtain ⟨j, hj, rfl⟩ := List.mem_range'.mp hk
  exact due_append (by omega)

theorem map_due_settled {settled : List Bool} {b : Bool} {n : Nat} :
    (List.range' settled.length n).map (due (settled ++ List.replicate n b)) =
      (List.range' settled.length n).map (⟨·, if b then 1 else 0⟩) := by
  apply List.map_congr_left
  intro k hk
  obtain ⟨j, hj, rfl⟩ := List.mem_range'.mp hk
  exact due_settled (by omega) (by omega)

/-- Which of the bytes are to be given to the encryptor, after a call that settles `n` more. -/
theorem filter_settled {settled : List Bool} {b : Bool} {n : Nat} :
    (List.range (settled ++ List.replicate n b).length).filter ((settled ++ List.replicate n b).getD · false) =
      (List.range settled.length).filter (settled.getD · false) ++ if b then List.range' settled.length n else [] := by
  rw [List.length_append, List.length_replicate, List.range_add, List.filter_append]
  congr 1
  · apply List.filter_congr
    intro k hk
    have := List.mem_range.mp hk
    simp [List.getD_eq_getElem?_getD, List.getElem?_append_left this]
  · rw [← List.range'_eq_map_range]
    have hb : ∀ k ∈ List.range' settled.length n, (settled ++ List.replicate n b).getD k false = b := by
      intro k hk
      obtain ⟨j, hj, rfl⟩ := List.mem_range'.mp hk
      simp [List.getD_eq_getElem?_getD, hj]
    cases b with
    | true => exact List.filter_eq_self.mpr fun k hk => by simpa using hb k hk
    | false => exact List.filter_eq_nil_iff.mpr fun k hk => by simpa using hb k hk

/-- The bytes that wait for a call have not been given to the encryptor. -/
theorem Inv.waiting_cells (h : Inv t) (h0 : t.held ≠ 0) :
    window t.ring.mem t.ring.size t.ring.consume (t.held - t.waiting) =
        (List.range' t.consumed.length (t.held - t.waiting)).map (due t.settled) ∧
      window t.ring.mem t.ring.size (wrap t.ring.size (t.ring.consume + (t.held - t.waiting))) t.waiting =
        (List.range' t.settled.length t.waiting).map (⟨·, 0⟩) := by
  have hw := h.waiting_le
  have hset := h.settled
  have hroom := h.room
  have hall : t.held - t.waiting + t.waiting = t.held := by omega
  have hcells := h.cells
  rw [← hall, ← window_append (h.consume h0) (by omega), ← List.range'_append_1, List.map_append] at hcells
  obtain ⟨h1, h2⟩ := List.append_inj hcells (by simp)
  have hstart : t.consumed.length + (t.held - t.waiting) = t.settled.length := by unfold held; omega
  rw [hstart, due_new (Nat.le_refl _)] at h2
  exact ⟨h1, h2⟩

/-- A call that settles the waiting bytes: `mem` holds them as they ought to be. -/
theorem inv_settle (h : Inv t) (h0 : t.held ≠ 0) (b : Bool) {mem : Nat → Cell}
    (hmem : window mem t.ring.size t.ring.consume (t.held - t.waiting) =
      window t.ring.mem t.ring.size t.ring.consume (t.held - t.waiting))
    (hnew : window mem t.ring.size (wrap t.ring.size (t.ring.consume + (t.held - t.waiting))) t.waiting =
      (List.range' t.settled.length t.waiting).map (⟨·, if b then 1 else 0⟩)) :
    Inv { t with
      ring := { t.ring with mem := mem, clearto := some t.ring.supply }
      encrypted := t.encrypted ++ if b then List.range' t.settled.length t.waiting else []
      settled := t.settled ++ List.replicate t.waiting b
      waiting := 0 } := by
  generalize hu : { t with
      ring := { t.ring with mem := mem, clearto := some t.ring.supply }
      encrypted := t.encrypted ++ if b then List.range' t.settled.length t.waiting else []
      settled := t.settled ++ List.replicate t.waiting b
      waiting := 0 } = u
  have hw := h.waiting_le
  have hset := h.settled
  have hroom := h.room
  have hlen : u.settled.length = t.settled.length + t.waiting := by rw [← hu]; simp
  have hcons : u.consumed = t.consumed := by rw [← hu]
  have hheld : u.held = t.held := by
    unfold held
    rw [hlen, hcons, ← hu]
    rfl
  constructor
  case mark => rw [← hu]; exact h.mark
  case settled => rw [hlen, hcons]; omega
  case room => rw [hheld, ← hu]; exact h.room
  case times => rw [← hu]; exact h.times
  case empty => exact fun hz => absurd (hheld ▸ hz) h0
  case consume =>
    intro _
    rw [← hu]; exact h.consume h0
  case supply =>
    intro _
    rw [hheld, ← hu]; exact h.supply h0
  case full =>
    intro _
    rw [hheld, ← hu]; exact h.full h0
  case clearto =>
    intro _
    rw [hheld, ← hu]
    exact Or.inr (congrArg some (h.supply h0))
  case cells =>
    rw [hheld, hcons, ← hu]
    show window mem t.ring.size t.ring.consume t.held = _
    have hall : t.held - t.waiting + t.waiting = t.held := by omega
    have hstart : t.consumed.length + (t.held - t.waiting) = t.settled.length := by unfold held; omega
    rw [← hall, ← window_append (h.consume h0) (by omega), ← List.range'_append_1, List.map_append, hmem, hnew,
      (h.waiting_cells h0).1, hstart, map_due_settled, map_due_append (by omega)]
  case consumed =>
    rw [hcons, ← hu, List.range_eq_range', map_due_append (by omega), ← List.range_eq_range']
    exact h.consumed
  case encrypted =>
    rw [← hu]
    exact (congrArg (· ++ _) h.encrypted).trans filter_settled.symm

theorem settle_none (hw : t.waiting = 0) (b : Bool) :
    { t with settled := t.settled ++ List.replicate t.waiting b, waiting := 0 } = t := by
  rw [hw, List.replicate_zero, List.append_nil, ← hw]

theorem inv_encrypt (h : Inv t) (hc : ¬ t.Ambiguous) (hs : step .encrypt t = some u) : Inv u := by
  simp only [step, Option.some.injEq] at hs
  have hw := h.waiting_le
  have hroom := h.room
  by_cases h0 : t.held = 0
  · have hno : t.ring.ringEncrypt tally t.encrypted = (t.ring, t.encrypted) := if_pos (Or.inl (h.holding.ringEmpty_iff.mpr h0))
    rw [hno, settle_none (by omega)] at hs
    exact hs ▸ h
  have hlt := h.consume h0
  obtain ⟨c, hcdef⟩ : ∃ c, c = wrap t.ring.size (t.ring.consume + (t.held - t.waiting)) := ⟨_, rfl⟩
  by_cases hcl : t.ring.clearto = some t.ring.supply
  · -- clearto is where supply is: nothing waits, the ring not being ambiguous
    have hno : t.ring.ringEncrypt tally t.encrypted = (t.ring, t.encrypted) := if_pos (Or.inr hcl)
    have h0w : t.waiting = 0 := by
      rcases h.clearto h0 with ⟨hn, -⟩ | hp
      · rw [hn] at hcl
        cases hcl
      · have he : wrap t.ring.size (t.ring.consume + (t.held - t.waiting)) =
            wrap t.ring.size (t.ring.consume + t.held) := by
          rw [← h.supply h0]
          exact Option.some.inj (hp.symm.trans hcl)
        have hamb : t.waiting ≠ t.ring.size := fun hz => hc ⟨hz, hcl⟩
        unfold wrap at he
        repeat' split at he
        all_goals omega
    rw [hno, settle_none h0w] at hs
    exact hs ▸ h
  · obtain ⟨hget, hpos⟩ : t.ring.clearto.getD t.ring.consume = c ∧ 0 < t.waiting := by
      rcases h.clearto h0 with ⟨hn, he⟩ | hp
      · rw [hn, hcdef, he, Nat.sub_self, Nat.add_zero, wrap, if_pos hlt]
        exact ⟨rfl, by omega⟩
      · refine ⟨by rw [hp, hcdef]; rfl, Nat.pos_of_ne_zero ?_⟩
        intro hz
        rw [hz, Nat.sub_zero, ← h.supply h0] at hp
        exact hcl hp
    have hsup : t.ring.supply = wrap t.ring.size (c + t.waiting) := by
      rw [hcdef, wrap_wrap hlt (by omega), Nat.sub_add_cancel hw]
      exact h.supply h0
    obtain ⟨mem, hr, hin, hout⟩ := Ring.ringEncrypt_window piecewise_tally t.encrypted
      (fun he => h0 (h.holding.ringEmpty_iff.mp he)) hcl hget (hcdef ▸ wrap_lt hlt (by omega)) hpos (by omega) hsup
    have hold := (h.waiting_cells h0).2
    rw [← hcdef] at hold
    rw [hr, hold] at hs
    rw [hold] at hin
    have hnums : (tally t.encrypted ((List.range' t.settled.length t.waiting).map (⟨·, 0⟩))).2 =
        t.encrypted ++ List.range' t.settled.length t.waiting := by simp [tally, Function.comp_def]
    rw [hnums] at hs
    rw [← hs]
    apply inv_settle h h0 true
    · apply window_congr
      intro k hk
      -- the place of an earlier byte, counted from c around the circle
      have hplace : wrap t.ring.size (t.ring.consume + k) =
          wrap t.ring.size (c + (k + t.ring.size - (t.held - t.waiting))) := by
        rw [hcdef]
        unfold wrap
        repeat' split
        all_goals omega
      rw [hplace]
      exact hout _ (by omega) (by omega)
    · rw [← hcdef, hin]
      simp [tally, Function.comp_def]

theorem inv_clearto (h : Inv t) (hs : step .clearto t = some u) : Inv u := by
  simp only [step, Option.some.injEq] at hs
  have hw := h.waiting_le
  by_cases h0 : t.held = 0
  · have hr : t.ring.ringClearto = { t.ring with clearto := none } := if_pos (h.holding.ringEmpty_iff.mpr h0)
    have h0w : t.waiting = 0 := by omega
    rw [hr, h0w, List.replicate_zero, List.append_nil, ← h0w] at hs
    obtain ⟨hb, hb', ht, -⟩ := h.empty h0
    rw [← hs]
    exact ⟨h.mark, h.settled, h.room, h.times, fun _ => ⟨hb, hb', ht, Or.inl rfl⟩, h.consume, h.supply, h.full,
      fun hn => absurd h0 hn, h.cells, h.consumed, h.encrypted⟩
  · have hr : t.ring.ringClearto = { t.ring with clearto := some t.ring.supply } :=
      if_neg fun he => h0 (h.holding.ringEmpty_iff.mp he)
    rw [hr] at hs
    rw [← hs]
    have := inv_settle h h0 false rfl (h.waiting_cells h0).2
    rwa [if_neg Bool.false_ne_true, List.append_nil] at this

/-! ## Consumption -/

/-- Behind a settled ring clearto is forgotten when the last byte leaves, unless it lies at
    the top. -/
theorem ringConsumed_eq (h : Inv t) {count : Nat} (h0 : count ≠ 0) (hf : count ≤ t.ring.ringFullConsecutive)
    (hw : t.waiting = 0) (hc : t.ring.ringClock + 1 < clockRange) :
    ∃ clearto, t.ring.ringConsumed count = { t.ring with
        mark := none
        clearto := clearto
        consume := if count = t.held then 0 else wrap t.ring.size (t.ring.consume + count)
        supply := if count = t.held then 0 else t.ring.supply
        consumetime := t.ring.ringClock + 1
        ringClock := t.ring.ringClock + 1 } ∧
      (count = t.held → clearto = none ∨ clearto = some 0) ∧ (count ≠ t.held → clearto = some t.ring.supply) := by
  obtain ⟨hle, htop⟩ := h.holding.fullConsecutive
  have hheld : t.held ≠ 0 := by omega
  have hlt := h.consume hheld
  have hsup := h.supply hheld
  have hroom := h.room
  have hcl : t.ring.clearto = some t.ring.supply := by
    rcases h.clearto hheld with ⟨-, he⟩ | hp
    · omega
    · rw [hp, hw, Nat.sub_zero, hsup]
  have hout : ¬ t.ring.consume + count > t.ring.size := by omega
  refine ⟨if t.ring.consume < t.ring.supply ∧ t.ring.supply ≤ t.ring.consume + count then none
    else some t.ring.supply, ?_, ?_, ?_⟩
  · unfold Ring.ringConsumed
    rw [if_neg h0]
    simp only [h.mark, hcl, if_neg hout]
    exact h.holding.advance_eq h0 (by omega) hc none _
  · rintro rfl
    unfold wrap at hsup
    by_cases hin : t.ring.consume < t.ring.supply
    · rw [if_pos ⟨hin, by split at hsup <;> omega⟩]
      exact Or.inl rfl
    · rw [if_neg fun hn => hin hn.1]
      exact Or.inr (congrArg some (by split at hsup <;> omega))
  · intro hd
    rw [if_neg]
    intro h
    obtain ⟨h1, h2⟩ := h
    unfold wrap at hsup
    split at hsup <;> omega

/-- What leaves, and what stays. -/
theorem Inv.leaving (h : Inv t) {count : Nat} (hf : count ≤ t.ring.ringFullConsecutive)
    (hc : t.ring.ringClock + 1 < clockRange) :
    (t.ring.ringConsumed count).Holds
        ((List.range' (t.consumed.length + count) (t.held - count)).map (due t.settled)) ∧
      slice t.ring.mem t.ring.consume (t.ring.consume + count) =
        (List.range' t.consumed.length count).map (due t.settled) := by
  obtain ⟨hle, -⟩ := h.holding.fullConsecutive
  obtain ⟨hstay, hgone, -⟩ := h.holds.ringConsumed hf hc
  rw [← List.map_drop, List.drop_range', Nat.mul_one] at hstay
  rw [← List.map_take, List.take_range'_of_length_ge (by omega)] at hgone
  exact ⟨hstay, hgone⟩

theorem inv_consumed (h : Inv t) {count : Nat} (hc : t.ring.ringClock + 1 < clockRange)
    (hs : step (.consumed count) t = some u) : Inv u := by
  obtain ⟨⟨hf, hw⟩, hu⟩ : (count ≤ t.ring.ringFullConsecutive ∧ t.waiting = 0) ∧ { t with
      ring := t.ring.ringConsumed count
      consumed := t.consumed ++ slice t.ring.mem t.ring.consume (t.ring.consume + count) } = u := by
    simp only [step] at hs
    split at hs
    · rename_i hn
      exact ⟨hn, Option.some.inj hs⟩
    · cases hs
  by_cases h0 : count = 0
  · rw [h0, Nat.add_zero, slice_self, List.append_nil] at hu
    exact hu ▸ h
  obtain ⟨hle, -⟩ := h.holding.fullConsecutive
  have hheld : t.held ≠ 0 := by omega
  have hlt := h.consume hheld
  have hroom := h.room
  obtain ⟨clearto, hring, hdrained, hleft⟩ := ringConsumed_eq h h0 hf hw hc
  obtain ⟨hstay, hgone⟩ := h.leaving hf hc
  have hlen : u.consumed.length = t.consumed.length + count := by rw [← hu]; simp
  have hset : u.settled = t.settled := by rw [← hu]
  have hwu : u.waiting = 0 := by rw [← hu]; exact hw
  have hu0 : u.held = t.held - count := by
    unfold held
    rw [hset, hlen, hwu, hw]
    omega
  have hur : u.ring = t.ring.ringConsumed count := by rw [← hu]
  rw [← hlen, ← hu0, ← hset, ← hur] at hstay
  have hstands : u.ring.Holding u.held := by simpa using hstay.stand
  rw [hring] at hur
  constructor
  case mark => rw [hur]
  case settled =>
    rw [hlen, hset]
    have := h.settled
    unfold held at hle
    omega
  case room => exact hstands.room
  case times => exact hstands.times
  case empty =>
    intro hz
    obtain ⟨hcons, hsup, htime⟩ := hstands.empty hz
    refine ⟨hcons, hsup, htime, ?_⟩
    rw [hur]
    exact hdrained (by omega)
  case consume => exact hstands.consume
  case supply => exact hstands.supply
  case full => exact hstands.full
  case clearto =>
    intro hz
    have hd : count ≠ t.held := by omega
    right
    rw [hwu, Nat.sub_zero, ← hstands.supply hz, hur]
    show clearto = some (if count = t.held then 0 else t.ring.supply)
    rw [if_neg hd]
    exact hleft hd
  case cells =>
    have hcells := hstay.cells
    rw [List.length_map, List.length_range'] at hcells
    exact hcells
  case consumed =>
    rw [hlen, hset, ← hu, List.range_add, List.map_append, ← List.range'_eq_map_range, ← h.consumed]
    exact congrArg (t.consumed ++ ·) hgone
  case encrypted =>
    rw [hset, ← hu]
    exact h.encrypted

theorem inv_other (h : Inv t) (hc : t.ring.ringClock + 1 < clockRange) (hs : step .other t = some u) : Inv u := by
  simp only [step, Option.some.injEq] at hs
  obtain ⟨h1, h2⟩ := h.times
  rw [Ring.tick_eq hc] at hs
  rw [← hs]
  exact ⟨h.mark, h.settled, h.room, ⟨Nat.le_succ_of_le h1, Nat.le_succ_of_le h2⟩, h.empty, h.consume, h.supply,
    h.full, h.clearto, h.cells, h.consumed, h.encrypted⟩

/-! ## Runs -/

theorem inv_init (mem : Nat → Cell) (size clock : Nat) : Inv (init mem size clock) :=
  ⟨rfl, Nat.le_refl _, Nat.zero_le _, ⟨Nat.zero_le _, Nat.zero_le _⟩, fun _ => ⟨rfl, rfl, Nat.le_refl _, Or.inl rfl⟩,
    fun h => absurd rfl h, fun h => absurd rfl h, fun h => absurd rfl h, fun h => absurd rfl h, rfl, rfl, rfl⟩

theorem inv_step {a : Op} (h : Inv t) (hc : Clear a t) (hs : step a t = some u) : Inv u := by
  obtain ⟨ha, hclock⟩ := hc
  cases a with
  | supply count => exact inv_supply h count hclock hs
  | encrypt => exact inv_encrypt h ha hs
  | clearto => exact inv_clearto h hs
  | consumed count => exact inv_consumed h (by omega) hs
  | other => exact inv_other h (by omega) hs

theorem run_exact {mem : Nat → Cell} {size clock : Nat} {ops : List Op}
    (h : run step ops (init mem size clock) = some t) (hm : Meets step Clear ops (init mem size clock)) : Exact t := by
  have hi : Inv t := run_inv_meets (fun a s t => inv_step) (inv_init mem size clock) hm h
  exact ⟨hi.settled, hi.consumed, hi.encrypted⟩

theorem run_exact_around_the_top :
    let ops : List Op := [.supply 3, .encrypt, .consumed 2, .supply 3, .clearto, .other, .consumed 2, .consumed 2]
    (run step ops (init (fun _ => ⟨0, 0⟩) 4 0)).isSome ∧
      ∀ t, run step ops (init (fun _ => ⟨0, 0⟩) 4 0) = some t → Exact t :=
  ⟨by decide +kernel, fun _ h => run_exact h (by decide +kernel)⟩

/-- A ring that is filled, encrypted and drained, and then filled again: its bytes leave as
    they are. -/
theorem refilled_ring_leaves_in_clear : ∃ t,
    run step [.supply 2, .encrypt, .consumed 2, .supply 2, .encrypt, .consumed 2] (init (fun _ => ⟨0, 0⟩) 2 0) = some t ∧
      t.consumed = [⟨0, 1⟩, ⟨1, 1⟩, ⟨2, 0⟩, ⟨3, 0⟩] ∧ ¬ Exact t := by
  have h : (run step [.supply 2, .encrypt, .consumed 2, .supply 2, .encrypt, .consumed 2]
      (init (fun _ => ⟨0, 0⟩) 2 0)).map (fun t => (t.consumed, t.settled)) =
        some ([⟨0, 1⟩, ⟨1, 1⟩, ⟨2, 0⟩, ⟨3, 0⟩], [true, true, true, true]) := by decide +kernel
  obtain ⟨t, ht, he⟩ := Option.map_eq_some_iff.mp h
  obtain ⟨hc, hs⟩ := Prod.mk.inj he
  refine ⟨t, ht, hc, ?_⟩
  intro hx
  have := hx.consumed
  rw [hc, hs] at this
  revert this
  decide

end Netoring

end Netutils.Telnet
