/-
  Netutils.Ping.Pattern — the pattern that is to fill the data of a packet, `-p` (ping/ping.c),
  as it is decoded and put into the buffer (ping/ping_common.c).

  decode_pattern counts the bytes of the text and stores none, so that the array stays what the
  stack had left in it. init_data_buffer looks at its index before it advances it, and comes to
  the byte behind the last one in every round. The buffer is as it should be exactly where it
  is no longer than the pattern and the array happens to hold it (`fills_iff`).
-/

import Mathlib.Data.List.Basic
import Netutils.Libc.Ctype

namespace Netutils.Ping

open Netutils.Libc

abbrev Str := List UInt8

/-! ## decode_pattern -/

/-- The value of a hexadecimal digit. -/
def xdigit (c : UInt8) : Option UInt8 :=
  if isdigit c then some (c - 0x30)
  else if 0x41 ≤ c && c ≤ 0x46 then some (c - 0x37)
  else if 0x61 ≤ c && c ≤ 0x66 then some (c - 0x57)
  else none

/-- `sscanf (text, "%2x%n", &c, &off)`: c and off; `none` if it does not return 1. -/
def sscanf (text : Str) : Option (Int × Nat) :=
  let blanks := (text.takeWhile isspace).length
  match (text.dropWhile isspace).take 2 with
  | [] => none
  | [a] => (xdigit a).map fun n => (n.toNat, blanks + 1)
  | a :: b :: _ =>
    match xdigit a, xdigit b with
    | some n, some k => some (16 * n.toNat + k.toNat, blanks + 2)
    -- "0x" only begins a number
    | some n, none => if a = 0x30 ∧ (b = 0x78 ∨ b = 0x58) then none else some (n.toNat, blanks + 1)
    | none, some k => if a = 0x2b then some (k.toNat, blanks + 2) else if a = 0x2d then some (-k.toNat, blanks + 2) else none
    | none, none => none

/-- The turns of the loop that are left, and the text; `none` for "error in pattern near". -/
def decodeLoop : Nat → Str → Option Nat
  | 0, _ => some 0
  | n + 1, text =>
    if text = [] then some 0
    -- c is not stored
    else (sscanf text).bind fun r => (decodeLoop n (text.drop r.2)).map (· + 1)

/-- pattern_len and pattern_data. -/
structure Pattern where
  len : Nat
  data : Nat → UInt8

/-- decode_pattern -/
def decodePattern (text : Str) (p : Pattern) : Option Pattern := (decodeLoop p.len text).map fun i => { p with len := i }

/-! ## init_data_buffer -/

/-- Which bytes of pat go to data_buffer, `n` bytes from its end. -/
def fillLoop (len : Nat) : Nat → Nat → List Nat
  | 0, _ => []
  | n + 1, i => i :: fillLoop len n (if len ≤ i then 0 else i + 1)

/-- data_buffer, and the indices at which pat has been read. -/
structure Buffer where
  data : List UInt8 := []
  examined : List Nat := []

/-- init_data_buffer -/
def initDataBuffer (pat : Option (Nat → UInt8)) (len data_length : Nat) : Buffer :=
  if data_length = 0 then {}
  else
    match pat with
    | some pat => ⟨(fillLoop len data_length 0).map pat, fillLoop len data_length 0⟩
    | none => { data := (List.range data_length).map UInt8.ofNat }

/-- pattern_len before, in ping.c; the array is pattern of parse_opt. -/
def PATTERN_LEN : Nat := 16

/-! ## What it should be -/

/-- A byte in two digits. -/
structure HexByte where
  high : UInt8
  low : UInt8
  value : UInt8
  hex : (xdigit high).bind (fun n => (xdigit low).map fun k => 16 * n + k) = some value

/-- The text of the pattern. -/
def patternText (bs : List HexByte) : Str := bs.flatMap fun b => [b.high, b.low]

/-- The buffer holds the pattern again and again, and nothing else has been read. -/
def Fills (bs : List HexByte) (data_length : Nat) (b : Buffer) : Prop :=
  (∀ i < data_length, b.data[i]? = (bs[i % bs.length]?).map HexByte.value) ∧ ∀ i ∈ b.examined, i < bs.length

/-! ## The loops -/

theorem isspace_xdigit {c : UInt8} (h : (xdigit c).isSome = true) : isspace c = false := by
  have htable : ∀ n < 256, (xdigit (UInt8.ofNat n)).isSome = true → isspace (UInt8.ofNat n) = false := by decide +kernel
  have hrow := htable c.toNat c.toNat_lt
  rw [UInt8.ofNat_toNat] at hrow
  exact hrow h

theorem sscanf_hex (b : HexByte) (text : Str) : ∃ c, sscanf (b.high :: b.low :: text) = some (c, 2) := by
  have hhex := b.hex
  obtain ⟨n, hn, hhex⟩ := Option.bind_eq_some_iff.mp hhex
  obtain ⟨k, hk, -⟩ := Option.map_eq_some_iff.mp hhex
  have hblank : isspace b.high = false := isspace_xdigit (by rw [hn]; rfl)
  refine ⟨16 * n.toNat + k.toNat, ?_⟩
  simp only [sscanf, List.takeWhile_cons, List.dropWhile_cons, hblank, Bool.false_eq_true, if_false, List.take_succ_cons,
    List.take_zero, hn, hk, List.length_nil, Nat.zero_add]

/-- The bytes are counted. -/
theorem decodeLoop_hex {bs : List HexByte} {n : Nat} (h : bs.length ≤ n) : decodeLoop n (patternText bs) = some bs.length := by
  induction bs generalizing n with
  | nil => cases n <;> rfl
  | cons b bs ih =>
    obtain ⟨n, rfl⟩ : ∃ k, n = k + 1 := ⟨n - 1, by rw [List.length_cons] at h; omega⟩
    obtain ⟨c, hscan⟩ := sscanf_hex b (patternText bs)
    have htext : patternText (b :: bs) = b.high :: b.low :: patternText bs := rfl
    rw [decodeLoop, htext, if_neg (List.cons_ne_nil _ _), hscan, Option.bind_some]
    simp only [List.drop_succ_cons, List.drop_zero]
    rw [ih (Nat.le_of_succ_le_succ h)]
    rfl

/-- The index goes round over one place more than the pattern has. -/
theorem fillLoop_eq {len i : Nat} (n : Nat) (hi : i ≤ len) :
    fillLoop len n i = (List.range n).map fun j => (i + j) % (len + 1) := by
  induction n generalizing i with
  | zero => rfl
  | succ n ih =>
    have hnext : (if len ≤ i then 0 else i + 1) ≤ len := by split <;> omega
    rw [fillLoop, List.range_succ_eq_map, List.map_cons, List.map_map, ih hnext, Nat.add_zero, Nat.mod_eq_of_lt (by omega)]
    congr 1
    apply List.map_congr_left
    intro j _
    show _ = (i + (j + 1)) % (len + 1)
    split
    · rw [show i + (j + 1) = j + (len + 1) by omega, Nat.add_mod_right, Nat.zero_add]
    · rw [Nat.add_assoc, Nat.add_comm 1 j]

/-! ## The buffer -/

/-- The buffer holds the pattern exactly where it has no room to come round, and what was in the
    array before is the pattern. -/
theorem fills_iff (bs : List HexByte) (pattern : Nat → UInt8) (data_length : Nat) (hne : bs ≠ [])
    (hlen : bs.length ≤ PATTERN_LEN) :
    ∃ p, decodePattern (patternText bs) ⟨PATTERN_LEN, pattern⟩ = some p ∧
      (Fills bs data_length (initDataBuffer (some p.data) p.len data_length) ↔
        data_length ≤ bs.length ∧ ∀ i < data_length, (bs[i]?).map HexByte.value = some (pattern i)) := by
  refine ⟨⟨bs.length, pattern⟩, by rw [decodePattern, decodeLoop_hex hlen]; rfl, ?_⟩
  have hpos : 0 < bs.length := List.length_pos_of_ne_nil hne
  rw [initDataBuffer, Fills]
  by_cases h0 : data_length = 0
  · subst h0
    exact iff_of_true ⟨nofun, nofun⟩ ⟨Nat.zero_le _, nofun⟩
  · rw [if_neg h0]
    simp only [fillLoop_eq data_length (Nat.zero_le _), Nat.zero_add]
    have hround : (∀ i ∈ (List.range data_length).map (· % (bs.length + 1)), i < bs.length) ↔ data_length ≤ bs.length := by
      constructor
      · intro h
        by_contra hlong
        have hlast := h bs.length (List.mem_map.mpr ⟨bs.length, List.mem_range.mpr (by omega), Nat.mod_eq_of_lt (by omega)⟩)
        exact Nat.lt_irrefl _ hlast
      · intro h i hi
        obtain ⟨j, hj, rfl⟩ := List.mem_map.mp hi
        have hj := List.mem_range.mp hj
        rw [Nat.mod_eq_of_lt (by omega)]
        omega
    rw [hround, and_comm]
    refine and_congr_right fun hshort => forall_congr' fun i => forall_congr' fun hi => ?_
    rw [List.getElem?_map, List.getElem?_map, List.getElem?_range hi, Nat.mod_eq_of_lt (show i < bs.length by omega)]
    simp only [Option.map_some, Nat.mod_eq_of_lt (show i < bs.length + 1 by omega)]
    exact eq_comm

/-- `-p ff`, and `-p 00`. -/
def ff : HexByte := ⟨0x66, 0x66, 0xff, by decide⟩
def zero : HexByte := ⟨0x30, 0x30, 0, by decide⟩

/-- One byte, which the array held already. -/
theorem fills_one : ∃ p, decodePattern (patternText [zero]) ⟨PATTERN_LEN, fun _ => 0⟩ = some p ∧
    Fills [zero] 1 (initDataBuffer (some p.data) p.len 1) := by
  obtain ⟨p, hp, hiff⟩ := fills_iff [zero] (fun _ => 0) 1 (by decide) (by decide)
  refine ⟨p, hp, hiff.mpr ⟨by decide, ?_⟩⟩
  intro i hi
  obtain rfl := Nat.lt_one_iff.mp hi
  rfl

/-- The pattern "ff" leaves zeros in the buffer, and the byte behind it is read. -/
theorem ff_leaves_zeros : ∃ p, decodePattern (patternText [ff]) ⟨PATTERN_LEN, fun _ => 0⟩ = some p ∧
    (initDataBuffer (some p.data) p.len 3).data = [0, 0, 0] ∧ (initDataBuffer (some p.data) p.len 3).examined = [0, 1, 0] ∧
    ¬ Fills [ff] 3 (initDataBuffer (some p.data) p.len 3) := by
  refine ⟨⟨1, fun _ => 0⟩, by rw [decodePattern, decodeLoop_hex (by decide)]; rfl, rfl, rfl, ?_⟩
  intro h
  have hfirst := h.2 1 (by decide)
  exact absurd hfirst (by decide)

end Netutils.Ping
