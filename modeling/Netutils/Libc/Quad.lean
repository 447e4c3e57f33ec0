/-
  Netutils.Libc.Quad — addresses as they are printed and as they are sent: the dotted quad,
  which inet_addr and inet_network read back, and network order.
-/

import Mathlib.Data.List.TakeWhile
import Netutils.Libc.Ctype

namespace Netutils.Libc

/-! ## Network order -/

/-- On a host whose first byte is the low one. -/
def htonl (n : UInt32) : UInt32 :=
  let b := n.toBitVec
  ⟨b.extractLsb' 0 8 ++ b.extractLsb' 8 8 ++ b.extractLsb' 16 8 ++ b.extractLsb' 24 8⟩

example : htonl 0x0a010203 = 0x0302010a := by decide

variable {i b : Nat}

/-- The bytes are reversed, the bits of each are kept. -/
theorem getLsbD_htonl (n : UInt32) (hi : i < 32) :
    (htonl n).toBitVec.getLsbD i = n.toBitVec.getLsbD (24 - 8 * (i / 8) + i % 8) := by
  have bit : ∀ j k, j < 8 → k + j = 24 - 8 * (i / 8) + i % 8 →
      (decide (j < 8) && n.toBitVec.getLsbD (k + j)) = n.toBitVec.getLsbD (24 - 8 * (i / 8) + i % 8) := by
    intro j k hj hk
    rw [decide_eq_true hj, Bool.true_and, hk]
  simp only [htonl, BitVec.getLsbD_append, BitVec.getLsbD_extractLsb']
  split_ifs with h0 h1 h2
  · exact bit _ _ h0 (by omega)
  · exact bit _ _ h1 (by omega)
  · exact bit _ _ h2 (by omega)
  · exact bit _ _ (by omega) (by omega)

theorem htonl_htonl (n : UInt32) : htonl (htonl n) = n := by
  refine UInt32.toBitVec_inj.mp (BitVec.eq_of_getLsbD_eq fun i hi => ?_)
  rw [getLsbD_htonl _ hi, getLsbD_htonl n (by omega)]
  congr 1
  omega

theorem htonl_and (m n : UInt32) : htonl (m &&& n) = htonl m &&& htonl n := by
  refine UInt32.toBitVec_inj.mp (BitVec.eq_of_getLsbD_eq fun i hi => ?_)
  simp only [UInt32.toBitVec_and, BitVec.getLsbD_and, getLsbD_htonl _ hi]

theorem htonl_inj {m n : UInt32} : htonl m = htonl n ↔ m = n :=
  ⟨fun h => by rw [← htonl_htonl m, h, htonl_htonl], fun h => h ▸ rfl⟩

/-! ## Bytes in decimal -/

/-- Three digits at most, and a leading zero only for nothing. -/
theorem decimal_byte (hb : b < 256) : (decimal b).length ≤ 3 ∧ ((decimal b).head? = some 0x30 → b = 0) := by
  have htable : (List.range 256).all
      (fun b => (decimal b).length ≤ 3 && ((decimal b).head? != some 0x30 || b == 0)) = true := by decide +kernel
  have hrow := List.all_eq_true.mp htable b (List.mem_range.mpr hb)
  simp only [Bool.and_eq_true, decide_eq_true_eq, Bool.or_eq_true, bne_iff_ne, beq_iff_eq] at hrow
  exact ⟨hrow.1, fun h => hrow.2.resolve_left fun hne => hne h⟩

variable {rest : List UInt8}

theorem head?_decimal_append (n : Nat) (rest : List UInt8) : (decimal n ++ rest).head? = (decimal n).head? :=
  List.head?_append_of_ne_nil _ (decimal_ne_nil n)

/-- The number of a byte is the same in the base it is read in, and all its digits are of that base. -/
theorem decimal_base (hb : b < 256) :
    number (if (decimal b).head? = some 0x30 then 8 else 10) (decimal b) = b ∧
      ∀ c ∈ decimal b, isdigitOf (if (decimal b).head? = some 0x30 then 8 else 10) c = true := by
  by_cases h0 : (decimal b).head? = some 0x30
  · obtain rfl := (decimal_byte hb).2 h0
    exact ⟨by decide, List.all_eq_true.mp (by decide)⟩
  · rw [if_neg h0]
    refine ⟨number_decimal b, fun c hc => ?_⟩
    have hdigit := isdigit_decimal hc
    have hle := digit_le hdigit
    rw [isdigitOf, hdigit, Bool.true_and, decide_eq_true_eq]
    omega

theorem strtoul_decimal (hb : b < 256) (hrest : rest.head?.all (fun c => !isdigit c) = true) :
    strtoul (decimal b ++ rest) = (b, rest) := by
  obtain ⟨hnumber, hdigits⟩ := decimal_base hb
  have hend : ∀ base, rest.head?.all (fun c => !isdigitOf base c) = true := by
    intro base
    cases rest with
    | nil => rfl
    | cons c rest =>
      have hc : isdigit c = false := by simpa using hrest
      simp [isdigitOf, hc]
  obtain ⟨htake, hdrop⟩ := span_append hdigits (hend _)
  simp only [strtoul, head?_decimal_append]
  rw [htake, hdrop, hnumber, Nat.min_eq_left (by rw [ULONG_MAX]; omega)]

theorem head?_decimal (n : Nat) : (decimal n).head?.any isdigit = true := by
  cases hs : decimal n with
  | nil => exact absurd hs (decimal_ne_nil n)
  | cons c cs => exact isdigit_decimal (hs ▸ List.mem_cons_self)

theorem inetPart_decimal (hb : b < 256) (hrest : rest.head?.all (fun c => !isdigit c) = true) :
    inetPart (decimal b ++ rest) = some (b, rest) := by
  simp only [inetPart, strtoul_decimal hb hrest, head?_decimal_append, head?_decimal, true_and]
  exact if_pos (by omega)

theorem networkPart_decimal (hb : b < 256) (hrest : rest.head?.all (fun c => !isdigit c) = true) :
    networkPart (decimal b ++ rest) = some (b, rest) := by
  obtain ⟨hnumber, hdigits⟩ := decimal_base hb
  have hall : ∀ c ∈ decimal b, isdigit c = true := fun c hc => isdigit_decimal hc
  obtain ⟨htake, hdrop⟩ := span_append hall hrest
  simp only [networkPart, head?_decimal_append]
  rw [htake, hdrop, hnumber]
  exact if_pos ⟨decimal_ne_nil b, List.all_eq_true.mpr hdigits, by omega⟩

/-! ## The dotted quad -/

def quad (n : UInt32) : List UInt8 :=
  decimal (n.toNat / 256 ^ 3) ++ dot :: (decimal (n.toNat / 256 ^ 2 % 256) ++
    dot :: (decimal (n.toNat / 256 % 256) ++ dot :: decimal (n.toNat % 256)))

variable (n : UInt32)

/-- The bytes make up the number. -/
theorem quad_bytes : ((n.toNat / 256 ^ 3 * 256 + n.toNat / 256 ^ 2 % 256) * 256 + n.toNat / 256 % 256) * 256 +
    n.toNat % 256 = n.toNat := by omega

theorem quad_high_lt : n.toNat / 256 ^ 3 < 256 := by
  have := n.toNat_lt
  omega

theorem dotted_quad {part : List UInt8 → Option (Nat × List UInt8)}
    (hpart : ∀ b rest, b < 256 → rest.head?.all (fun c => !isdigit c) = true → part (decimal b ++ rest) = some (b, rest)) :
    dotted part 3 (quad n) =
      some [n.toNat / 256 ^ 3, n.toNat / 256 ^ 2 % 256, n.toNat / 256 % 256, n.toNat % 256] := by
  have hlast : part (decimal (n.toNat % 256)) = some (n.toNat % 256, []) := by
    have h := hpart (n.toNat % 256) [] (by omega) rfl
    rwa [List.append_nil] at h
  have hdot : ∀ b rest, b < 256 → part (decimal b ++ dot :: rest) = some (b, dot :: rest) := fun b rest hb =>
    hpart b _ hb rfl
  have hhigh := quad_high_lt n
  have hle : n.toNat / 256 ^ 3 ≤ 0xff ∧ n.toNat / 256 ^ 2 % 256 ≤ 0xff ∧ n.toNat / 256 % 256 ≤ 0xff := by omega
  have hbytes : n.toNat / 256 ^ 2 % 256 < 256 ∧ n.toNat / 256 % 256 < 256 := by omega
  simp only [quad, dotted, hdot _ _ hhigh, hdot _ _ hbytes.1, hdot _ _ hbytes.2, hlast, Option.bind_some, hle.1, hle.2.1,
    hle.2.2, and_self, if_true, Option.map_some]

theorem inetAddr_quad : inetAddr (quad n) = n := by
  have hmax : ¬ inetMax 3 < n.toNat % 256 := by
    rw [inetMax]
    omega
  rw [inetAddr, dotted_quad n fun b rest hb hrest => inetPart_decimal hb hrest]
  simp only [List.getLastD_cons, List.getLastD_nil, List.dropLast_cons_cons, List.dropLast_singleton, List.length_cons,
    List.length_nil, Nat.zero_add, Nat.reduceAdd, if_neg hmax, List.foldl_cons, List.foldl_nil, Nat.zero_mul,
    Nat.reduceSub, pow_one]
  rw [quad_bytes, UInt32.ofNat_toNat]

theorem inetNetwork_quad : inetNetwork (quad n) = n := by
  rw [inetNetwork, dotted_quad n fun b rest hb hrest => networkPart_decimal hb hrest]
  simp only [List.foldl_cons, List.foldl_nil, Nat.zero_mul, Nat.zero_add]
  rw [quad_bytes, UInt32.ofNat_toNat]

/-- Digits and three dots, on 15 places at most. -/
theorem quad_shape : (∀ c ∈ quad n, isdigit c = true ∨ c = dot) ∧ (quad n).length ≤ 15 ∧ (quad n).count dot = 3 := by
  have hdots : ∀ b, (decimal b).count dot = 0 := fun b =>
    List.count_eq_zero.mpr fun hmem => absurd (isdigit_decimal hmem) (by decide)
  have hlength : ∀ b, b < 256 → (decimal b).length ≤ 3 := fun b hb => (decimal_byte hb).1
  refine ⟨?_, ?_, ?_⟩
  · intro c hc
    simp only [quad, List.mem_append, List.mem_cons] at hc
    rcases hc with h | h | h | h | h | h | h
    · exact Or.inl (isdigit_decimal h)
    · exact Or.inr h
    · exact Or.inl (isdigit_decimal h)
    · exact Or.inr h
    · exact Or.inl (isdigit_decimal h)
    · exact Or.inr h
    · exact Or.inl (isdigit_decimal h)
  · have h3 := hlength _ (quad_high_lt n)
    have h2 := hlength (n.toNat / 256 ^ 2 % 256) (by omega)
    have h1 := hlength (n.toNat / 256 % 256) (by omega)
    have h0 := hlength (n.toNat % 256) (by omega)
    simp only [quad, List.length_append, List.length_cons]
    omega
  · simp only [quad, List.count_append, List.count_cons_self, hdots]

end Netutils.Libc
