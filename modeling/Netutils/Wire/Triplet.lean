/-
  Netutils.Wire.Triplet — the triplets of a LINEMODE SLC sub-option, as its bytes and as it
  is sent.
-/

import Mathlib.Algebra.GroupWithZero.Nat
import Netutils.Wire.Framing

namespace Netutils.Wire

open Netutils.Arpa

/-- SLC_FUNC, SLC_FLAGS and SLC_VALUE. -/
abbrev Triplet : Type := UInt8 × UInt8 × UInt8

def Triplet.bytes (t : Triplet) : List UInt8 := [t.1, t.2.1, t.2.2]

/-- A triplet that is not whole is left. -/
def triplets : List UInt8 → List Triplet
  | func :: flag :: val :: l => (func, flag, val) :: triplets l
  | _ => []

@[simp] theorem triplets_bytes (ts : List Triplet) : triplets (ts.flatMap Triplet.bytes) = ts := by
  induction ts with
  | nil => rfl
  | cons t ts ih =>
    obtain ⟨func, flag, val⟩ := t
    show (func, flag, val) :: triplets (ts.flatMap Triplet.bytes) = _
    rw [ih]

/-! ## As they are sent -/

def sentBytes (ts : List Triplet) : List UInt8 := doubled (ts.flatMap Triplet.bytes)

/-- How many bytes that is for one triplet. -/
def Triplet.width (t : Triplet) : Nat := 3 + t.bytes.count IAC

theorem Triplet.width_le (t : Triplet) : t.width ≤ 6 := by
  have h : t.bytes.count IAC ≤ t.bytes.length := List.count_le_length
  have hlen : t.bytes.length = 3 := rfl
  unfold width
  omega

theorem length_sentBytes (ts : List Triplet) : (sentBytes ts).length = (ts.map Triplet.width).sum := by
  unfold sentBytes
  rw [length_doubled]
  induction ts with
  | nil => rfl
  | cons t ts ih =>
    simp only [List.flatMap_cons, List.length_append, List.count_append, List.map_cons, List.sum_cons] at ih ⊢
    rw [← ih, Triplet.width]
    have : t.bytes.length = 3 := rfl
    omega

/-- The sub-option, from its IAC SB to its IAC SE. -/
def slcFrame (ts : List Triplet) : List UInt8 := [IAC, SB, TELOPT_LINEMODE, LM_SLC] ++ sentBytes ts ++ [IAC, SE]

/-- The message that carries `ts`, if there is anything to say. -/
def slcMessage (ts : List Triplet) : List (List UInt8) := if ts = [] then [] else [slcFrame ts]

theorem sentBytes_append (ts us : List Triplet) : sentBytes (ts ++ us) = sentBytes ts ++ sentBytes us := by
  unfold sentBytes doubled
  rw [List.flatMap_append, List.flatMap_append]

/-- Of two IAC one is taken back. -/
def undoubled : List UInt8 → List UInt8
  | c :: d :: l => if c = IAC ∧ d = IAC then IAC :: undoubled l else c :: undoubled (d :: l)
  | l => l

/-- What is in a sub-option behind its four bytes of header. -/
def slcContent (m : List UInt8) : List UInt8 := undoubled ((m.drop 4).take (m.length - 6))

theorem undoubled_doubled (l : List UInt8) : undoubled (doubled l) = l := by
  have hcons : ∀ (c : UInt8) (l : List UInt8), c ≠ IAC → undoubled (c :: l) = c :: undoubled l := by
    intro c l hc
    rcases l with _ | ⟨d, l⟩
    · rfl
    · rw [undoubled, if_neg fun h => hc h.1]
  induction l with
  | nil => rfl
  | cons c l ih =>
    have hd : doubled (c :: l) = (if c = IAC then [IAC, IAC] else [c]) ++ doubled l := List.flatMap_cons
    rw [hd]
    by_cases hc : c = IAC
    · rw [if_pos hc, List.cons_append, List.cons_append, List.nil_append, undoubled, if_pos ⟨rfl, rfl⟩, ih, hc]
    · rw [if_neg hc, List.singleton_append, hcons c _ hc, ih]

theorem content_frame (ts : List Triplet) : slcContent (slcFrame ts) = ts.flatMap Triplet.bytes := by
  have hcut : ((slcFrame ts).drop 4).take ((slcFrame ts).length - 6) = sentBytes ts := by
    simp [slcFrame]
  rw [slcContent, hcut, sentBytes, undoubled_doubled]

@[simp] theorem triplets_content (ts : List Triplet) : triplets (slcContent (slcFrame ts)) = ts := by
  rw [content_frame, triplets_bytes]

/-! ## Levels and acknowledgements -/

/-- What holds of each of the 256 values of a byte. -/
theorem byte_ind {P : UInt8 → Prop} (h : ∀ n < 256, P (UInt8.ofNat n)) (x : UInt8) : P x := by
  simpa using h x.toNat x.toNat_lt

theorem level_cases (x : UInt8) : x &&& SLC_LEVELBITS = SLC_NOSUPPORT ∨ x &&& SLC_LEVELBITS = SLC_CANTCHANGE ∨
    x &&& SLC_LEVELBITS = SLC_VARIABLE ∨ x &&& SLC_LEVELBITS = SLC_DEFAULT := by
  induction x using byte_ind; decide +kernel +revert

theorem or_and_right (x y m : UInt8) : (x ||| y) &&& m = x &&& m ||| y &&& m := by
  apply UInt8.eq_of_toBitVec_eq
  ext i
  simp [Bool.and_or_distrib_right]

/-- The bits of a mask and the others. -/
theorem and_or_and_not (x m : UInt8) : x &&& m ||| x &&& ~~~m = x := by
  apply UInt8.eq_of_toBitVec_eq
  ext i
  simp [← Bool.and_or_distrib_left]

@[simp] theorem level_level (x : UInt8) : x &&& SLC_LEVELBITS &&& SLC_LEVELBITS = x &&& SLC_LEVELBITS := by
  rw [UInt8.and_assoc, UInt8.and_self]

@[simp] theorem level_ack (x : UInt8) : (x ||| SLC_ACK) &&& SLC_LEVELBITS = x &&& SLC_LEVELBITS := by
  have hm : SLC_ACK &&& SLC_LEVELBITS = 0 := rfl
  rw [or_and_right, hm, UInt8.or_zero]

@[simp] theorem level_clear (x : UInt8) : x &&& ~~~SLC_ACK &&& SLC_LEVELBITS = x &&& SLC_LEVELBITS := by
  have hm : ~~~SLC_ACK &&& SLC_LEVELBITS = SLC_LEVELBITS := rfl
  rw [UInt8.and_assoc, hm]

@[simp] theorem ack_ack (x : UInt8) : (x ||| SLC_ACK) &&& SLC_ACK = SLC_ACK := by
  apply UInt8.eq_of_toBitVec_eq
  ext i
  simp only [UInt8.toBitVec_and, UInt8.toBitVec_or, BitVec.getElem_and, BitVec.getElem_or]
  cases SLC_ACK.toBitVec[i] <;> simp

@[simp] theorem ack_clear (x : UInt8) : x &&& ~~~SLC_ACK &&& SLC_ACK = 0 := by
  rw [UInt8.and_assoc, UInt8.not_and_self, UInt8.and_zero]

theorem clear_of_ack {x : UInt8} (h : x &&& SLC_ACK = 0) : x &&& ~~~SLC_ACK = x := by
  have hx := and_or_and_not x SLC_ACK
  rwa [h, UInt8.zero_or] at hx

@[simp] theorem both_level (x : UInt8) : x &&& (SLC_LEVELBITS ||| SLC_ACK) &&& SLC_LEVELBITS = x &&& SLC_LEVELBITS := by
  have hm : (SLC_LEVELBITS ||| SLC_ACK) &&& SLC_LEVELBITS = SLC_LEVELBITS := rfl
  rw [UInt8.and_assoc, hm]

@[simp] theorem both_clear (x : UInt8) : x &&& (SLC_LEVELBITS ||| SLC_ACK) &&& ~~~SLC_ACK = x &&& SLC_LEVELBITS := by
  have hm : (SLC_LEVELBITS ||| SLC_ACK) &&& ~~~SLC_ACK = SLC_LEVELBITS := rfl
  rw [UInt8.and_assoc, hm]

/-- The level put in the place of another. -/
theorem level_put (x y : UInt8) :
    (x &&& ~~~SLC_LEVELBITS ||| y &&& SLC_LEVELBITS) &&& SLC_LEVELBITS = y &&& SLC_LEVELBITS ∧
      (x &&& ~~~SLC_LEVELBITS ||| y &&& SLC_LEVELBITS) &&& SLC_ACK = x &&& SLC_ACK := by
  have hkept : ~~~SLC_LEVELBITS &&& SLC_ACK = SLC_ACK := rfl
  have hnone : SLC_LEVELBITS &&& SLC_ACK = 0 := rfl
  constructor
  · rw [or_and_right, UInt8.and_assoc, UInt8.not_and_self, UInt8.and_zero, UInt8.zero_or, level_level]
  · rw [or_and_right, UInt8.and_assoc, hkept, UInt8.and_assoc, hnone, UInt8.and_zero, UInt8.or_zero]

end Netutils.Wire
