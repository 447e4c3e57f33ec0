/-
  Netutils.Lib.BitTable — a table of bits, eight to a byte: a bit is set, cleared and tested
  with a mask in the byte it is in, and the others stay.
-/

import Mathlib.Logic.Function.Basic

namespace Netutils.Lib.BitTable

/-- The bit in its byte. -/
def mask (bit : Nat) : UInt8 := 1 <<< UInt8.ofNat (bit &&& 0x07)

def set (t : Nat → UInt8) (bit : Nat) : Nat → UInt8 := Function.update t (bit >>> 3) (t (bit >>> 3) ||| mask bit)

def clr (t : Nat → UInt8) (bit : Nat) : Nat → UInt8 := Function.update t (bit >>> 3) (t (bit >>> 3) &&& ~~~ mask bit)

def tst (t : Nat → UInt8) (bit : Nat) : Bool := t (bit >>> 3) &&& mask bit ≠ 0

variable {t : Nat → UInt8} {bit i : Nat}

/-! ## Masks -/

theorem toBitVec_mask (bit : Nat) : (mask bit).toBitVec = BitVec.twoPow 8 (bit % 8) := by
  have htable : ∀ k : Fin 8, (1 <<< UInt8.ofNat k.val : UInt8).toBitVec = BitVec.twoPow 8 k.val := by decide
  have hmod : bit &&& 0x07 = bit % 8 := Nat.and_two_pow_sub_one_eq_mod bit 3
  rw [mask, hmod]
  exact htable ⟨bit % 8, Nat.mod_lt bit (by decide)⟩

theorem getLsbD_mask (bit i : Nat) : (mask bit).toBitVec.getLsbD i = decide (bit % 8 = i) := by
  have hlt : bit % 8 < 8 := Nat.mod_lt bit (by decide)
  rw [toBitVec_mask, BitVec.getLsbD_twoPow, decide_eq_true hlt, Bool.true_and]

/-- The test is one of a bit. -/
theorem tst_eq (t : Nat → UInt8) (bit : Nat) : tst t bit = (t (bit / 8)).toBitVec.getLsbD (bit % 8) := by
  have hlt : bit % 8 < 8 := Nat.mod_lt bit (by decide)
  have hpow : BitVec.twoPow 8 (bit % 8) ≠ 0#8 := by
    intro h
    have hbit := congrArg (fun b => b.getLsbD (bit % 8)) h
    simp [hlt] at hbit
  rw [tst, Nat.shiftRight_eq_div_pow]
  rw [Bool.eq_iff_iff, decide_eq_true_eq, ne_eq, ← UInt8.toBitVec_inj, UInt8.toBitVec_and, toBitVec_mask, BitVec.and_twoPow]
  split
  · rename_i hbit
    exact iff_of_true hpow hbit
  · rename_i hbit
    exact iff_of_false (fun h => h rfl) hbit

/-! ## The bit and the others -/

theorem update_byte (b : UInt8) : Function.update t (bit >>> 3) b (i / 8) = if i / 8 = bit / 8 then b else t (i / 8) := by
  rw [Nat.shiftRight_eq_div_pow, Function.update_apply]

theorem ne_bit (hbyte : i / 8 = bit / 8) (h : i ≠ bit) : bit % 8 ≠ i % 8 := by omega

@[simp] theorem tst_set_self : tst (set t bit) bit = true := by
  rw [tst_eq, set, update_byte, if_pos rfl, UInt8.toBitVec_or, BitVec.getLsbD_or, getLsbD_mask]
  simp

theorem tst_set_ne (h : i ≠ bit) : tst (set t bit) i = tst t i := by
  rw [tst_eq, tst_eq, set, update_byte]
  split
  · rename_i hbyte
    rw [UInt8.toBitVec_or, BitVec.getLsbD_or, getLsbD_mask, decide_eq_false (ne_bit hbyte h), Bool.or_false]
    rw [Nat.shiftRight_eq_div_pow, hbyte]
  · rfl

@[simp] theorem tst_clr_self : tst (clr t bit) bit = false := by
  have hlt : bit % 8 < 8 := Nat.mod_lt bit (by decide)
  rw [tst_eq, clr, update_byte, if_pos rfl, UInt8.toBitVec_and, UInt8.toBitVec_not, BitVec.getLsbD_and, BitVec.getLsbD_not]
  rw [getLsbD_mask]
  simp

theorem tst_clr_ne (h : i ≠ bit) : tst (clr t bit) i = tst t i := by
  rw [tst_eq, tst_eq, clr, update_byte]
  split
  · rename_i hbyte
    have hlt : i % 8 < 8 := Nat.mod_lt i (by decide)
    rw [UInt8.toBitVec_and, UInt8.toBitVec_not, BitVec.getLsbD_and, BitVec.getLsbD_not, getLsbD_mask]
    rw [decide_eq_false (ne_bit hbyte h), decide_eq_true hlt]
    rw [Nat.shiftRight_eq_div_pow, hbyte]
    simp
  · rfl

@[simp] theorem tst_zero (bit : Nat) : tst (fun _ => 0) bit = false := by
  rw [tst_eq]
  exact BitVec.getLsbD_zero

end Netutils.Lib.BitTable
