/-
  Netutils.Talkd.Netdef — what a network definition of talkd's access lists matches
  (talkd/acl.c): netdef_parse keeps the address as it is written, and acl_match compares it
  with the masked address of the client.

  The mask is the first `len` bits, however it is written, and in network order the test is
  the one on the numbers (`network_contains`). But the address of the definition is not masked
  itself: with a bit set behind the mask it is equal to nothing that is. `10.1.2.3/8` is taken
  and matches no client at all, 10.1.2.3 among them (`host_bits_match_nothing`).
-/

import Netutils.Libc.Quad
import Netutils.Talkd.Acl

namespace Netutils.Talkd

open Netutils.Libc
open Netutils.Protocols (Str)

/-! ## In network order -/

/-- As the code has it: inet_addr gives the address in network order, and the mask is put into it. -/
def Netdef.network (net : Netdef) : Netdef := ⟨htonl net.ipaddr, htonl net.netmask⟩

/-- s_addr of the client. -/
theorem network_contains (net : Netdef) (ip : UInt32) : net.network.contains (htonl ip) = net.contains ip := by
  simp only [Netdef.contains, Netdef.network, ← htonl_and, htonl_inj]

/-! ## Masks -/

/-- The first so many bits. -/
def maskOf (len : Nat) : UInt32 := ⟨BitVec.allOnes 32 <<< (32 - len)⟩

/-- A bit of an address, the first being the highest. -/
def bit (n : UInt32) (i : Nat) : Bool := n.toBitVec.getMsbD i

/-- The first so many bits of the two are the same. -/
def SameBits (len : Nat) (m n : UInt32) : Prop := ∀ i < len, bit m i = bit n i

/-- No bit is set behind the first so many. -/
def NoHostBits (len : Nat) (n : UInt32) : Prop := ∀ i, len ≤ i → bit n i = false

variable {len : Nat}

theorem bit_maskOf (hlen : len ≤ 32) (i : Nat) : bit (maskOf len) i = decide (i < len) := by
  rw [bit, maskOf, BitVec.getMsbD_shiftLeft, BitVec.getMsbD_allOnes, decide_eq_decide]
  omega

theorem bit_and (m n : UInt32) (i : Nat) : bit (m &&& n) i = (bit m i && bit n i) := BitVec.getMsbD_and

theorem bit_ext {m n : UInt32} (h : ∀ i, bit m i = bit n i) : m = n :=
  UInt32.toBitVec_inj.mp (BitVec.eq_of_getMsbD_eq fun i _ => h i)

/-- An address is that of the client under the mask if it has the same first bits and no others. -/
theorem eq_and_maskOf (hlen : len ≤ 32) (m n : UInt32) : m = n &&& maskOf len ↔ NoHostBits len m ∧ SameBits len m n := by
  constructor
  · intro h
    refine ⟨fun i hi => ?_, fun i hi => ?_⟩
    · rw [h, bit_and, bit_maskOf hlen, decide_eq_false (by omega), Bool.and_false]
    · rw [h, bit_and, bit_maskOf hlen, decide_eq_true hi, Bool.and_true]
  · intro ⟨hhost, hagree⟩
    refine bit_ext fun i => ?_
    rw [bit_and, bit_maskOf hlen]
    by_cases hi : i < len
    · rw [decide_eq_true hi, Bool.and_true, hagree i hi]
    · rw [decide_eq_false hi, Bool.and_false, hhost i (by omega)]

/-- The two shifts of netdef_parse. -/
theorem shifts_eq (hlen : len ≤ 32) :
    UInt32.ofNat (0xffffffff >>> (32 - len)) <<< UInt32.ofNat (32 - len) = maskOf len := by
  have htable : (List.range 33).all (fun len =>
      UInt32.ofNat (0xffffffff >>> (32 - len)) <<< UInt32.ofNat (32 - len) = maskOf len) = true := by decide
  exact of_decide_eq_true (List.all_eq_true.mp htable len (List.mem_range.mpr (by omega)))

/-! ## Definitions -/

/-- What may stand behind the slash: the length, or the mask itself. -/
inductive Mask : Str → Nat → Prop
  | length {len : Nat} : len ≤ 32 → Mask (decimal len) len
  | dotted {len : Nat} : len ≤ 32 → Mask (quad (maskOf len)) len

theorem Mask.le {m : Str} (hm : Mask m len) : len ≤ 32 := by
  cases hm with
  | length h => exact h
  | dotted h => exact h

variable {q m rest : Str}

/-- A text of digits and dots, as far as it fits. -/
theorem readAddress_eq (hq : ∀ c ∈ q, isdigit c = true ∨ c = dot)
    (hrest : rest.head?.all (fun c => !(isdigit c || c = dot)) = true) (hlength : q.length ≤ DOTTED_QUAD_LEN) :
    readAddress (q ++ rest) = (q, rest, q.count dot) := by
  have hquad : ((q ++ rest).take DOTTED_QUAD_LEN).takeWhile (fun c => isdigit c || c = dot) = q := by
    rw [List.take_append, List.take_of_length_le hlength, List.takeWhile_append_of_pos (by simpa using hq)]
    cases rest with
    | nil => simp
    | cons c rest =>
      have hc : (isdigit c || decide (c = dot)) = false := by simpa using hrest
      cases DOTTED_QUAD_LEN - q.length with
      | zero => simp
      | succ k => simp [hc]
  rw [readAddress, hquad]
  simp only [List.drop_left]

theorem readAddress_all (hq : ∀ c ∈ q, isdigit c = true ∨ c = dot) (hlength : q.length ≤ DOTTED_QUAD_LEN) :
    readAddress q = (q, [], q.count dot) := by
  have hend : ([] : Str).head?.all (fun c => !(isdigit c || c = dot)) = true := rfl
  have hread := readAddress_eq hq hend hlength
  rwa [List.append_nil] at hread

/-- More of them than fit, and there is no slash behind those that do. -/
theorem netdefParse_long (hq : ∀ c ∈ q, isdigit c = true ∨ c = dot) (hlength : DOTTED_QUAD_LEN < q.length) :
    netdefParse (q ++ rest) = none := by
  have hquad : ((q ++ rest).take DOTTED_QUAD_LEN).takeWhile (fun c => isdigit c || c = dot) = q.take DOTTED_QUAD_LEN := by
    rw [List.take_append_of_le_length (by omega), List.takeWhile_eq_self_iff]
    intro c hc
    simpa using hq c (List.mem_of_mem_take hc)
  obtain ⟨c, cs, hdrop⟩ := List.exists_cons_of_length_pos (l := q.drop DOTTED_QUAD_LEN) (by rw [List.length_drop]; omega)
  have hc : c ≠ slash := by
    intro h
    have hmem := hq c (List.mem_of_mem_drop (hdrop ▸ List.mem_cons_self))
    rw [h] at hmem
    exact absurd hmem (by decide)
  have hany : q ++ rest ≠ any := by
    intro h
    obtain ⟨d, ds, rfl⟩ := List.exists_cons_of_length_pos (l := q) (by omega)
    have hmem := hq d List.mem_cons_self
    rw [(List.cons.inj h).1] at hmem
    exact absurd hmem (by decide)
  have hread : (readAddress (q ++ rest)).2.1 = c :: (cs ++ rest) := by
    simp only [readAddress, hquad, List.length_take, Nat.min_eq_left (Nat.le_of_lt hlength)]
    rw [List.drop_append_of_le_length (Nat.le_of_lt hlength), hdrop, List.cons_append]
  rw [netdefParse, if_neg hany]
  simp only [hread, if_pos hc, ite_self]

/-- No definition with a mask is `any`. -/
theorem ne_any (q m : Str) : q ++ slash :: m ≠ any := by
  intro h
  have hmem : slash ∈ any := h ▸ List.mem_append_right _ List.mem_cons_self
  exact absurd hmem (by decide)

/-- The address is kept as it is written, the mask is read for what it is. -/
theorem netdefParse_mask (hm : Mask m len) (hq : ∀ c ∈ q, isdigit c = true ∨ c = dot)
    (hlength : q.length ≤ DOTTED_QUAD_LEN) :
    netdefParse (q ++ slash :: m) = if inetAddr q = INADDR_NONE then none else some ⟨inetAddr q, maskOf len⟩ := by
  rw [netdefParse, if_neg (ne_any q m), readAddress_eq hq rfl hlength]
  by_cases haddr : inetAddr q = INADDR_NONE
  · simp only [if_pos haddr]
  · simp only [if_neg haddr, ne_eq, not_true_eq_false, if_false]
    cases hm with
    | length hlen =>
      have hdigits : ∀ c ∈ decimal len, isdigit c = true ∨ c = dot := fun c hc => Or.inl (isdigit_decimal hc)
      have hshort := (decimal_byte (b := len) (by omega)).1
      have hread := readAddress_all hdigits (by rw [DOTTED_QUAD_LEN]; omega)
      have hdots : (decimal len).count dot = 0 :=
        List.count_eq_zero.mpr fun hmem => absurd (isdigit_decimal hmem) (by decide)
      have hend : ([] : Str).head?.all (fun c => !isdigit c) = true := rfl
      have hvalue := strtoul_decimal (b := len) (by omega) hend
      rw [List.append_nil] at hvalue
      have hmod : len % 2 ^ 32 = len := Nat.mod_eq_of_lt (by omega)
      simp only [hread, hdots, if_true, hvalue, hmod, shifts_eq hlen]
      exact if_neg (by omega)
    | dotted hlen =>
      obtain ⟨hchars, hshort, hdots⟩ := quad_shape (maskOf len)
      have hread := readAddress_all hchars (by rw [DOTTED_QUAD_LEN]; omega)
      simp only [hread, hdots, inetNetwork_quad]
      exact if_neg (by decide)

theorem netdefParse_some {net : Netdef} (hm : Mask m len) (hq : ∀ c ∈ q, isdigit c = true ∨ c = dot)
    (h : netdefParse (q ++ slash :: m) = some net) : net = ⟨inetAddr q, maskOf len⟩ := by
  by_cases hlength : q.length ≤ DOTTED_QUAD_LEN
  · rw [netdefParse_mask hm hq hlength] at h
    split_ifs at h
    exact (Option.some.inj h).symm
  · rw [netdefParse_long hq (by omega)] at h
    cases h

/-- Every quad but that of the broadcast address is accepted. -/
theorem netdefParse_quad {addr : UInt32} (hm : Mask m len) (haddr : addr ≠ INADDR_NONE) :
    netdefParse (quad addr ++ slash :: m) = some ⟨addr, maskOf len⟩ := by
  obtain ⟨hchars, hlength, -⟩ := quad_shape addr
  rw [netdefParse_mask hm hchars (by rw [DOTTED_QUAD_LEN]; omega), inetAddr_quad, if_neg haddr]

/-! ## What is matched -/

/-- The test is true of the clients in the network that is named, and of no others. -/
def MatchesItsNetwork (net : Netdef) (len : Nat) (addr : UInt32) : Prop :=
  ∀ ip, net.network.contains (htonl ip) = true ↔ SameBits len addr ip

/-- A definition matches its network exactly if no bit is set in its address behind the mask. -/
theorem matches_iff {net : Netdef} (hm : Mask m len) (hq : ∀ c ∈ q, isdigit c = true ∨ c = dot)
    (h : netdefParse (q ++ slash :: m) = some net) :
    MatchesItsNetwork net len (inetAddr q) ↔ NoHostBits len (inetAddr q) := by
  have htest : ∀ ip, net.network.contains (htonl ip) = true ↔ NoHostBits len (inetAddr q) ∧ SameBits len (inetAddr q) ip := by
    intro ip
    rw [network_contains, netdefParse_some hm hq h, Netdef.contains, decide_eq_true_eq, eq_and_maskOf hm.le]
  constructor
  · intro hmatch
    exact ((htest _).mp ((hmatch (inetAddr q)).mpr fun _ _ => rfl)).1
  · intro hhost ip
    rw [htest]
    exact and_iff_right hhost

/-- 10.0.0.0 -/
def ten : Str := [0x31, 0x30, dot, 0x30, dot, 0x30, dot, 0x30]

theorem ten_matches : MatchesItsNetwork ⟨0x0a000000, 0xff000000⟩ 8 (inetAddr ten) ↔ NoHostBits 8 (inetAddr ten) := by
  have hten : ∀ c ∈ ten, isdigit c = true ∨ c = dot := by
    simpa using List.all_eq_true.mp (show ten.all (fun c => isdigit c || c = dot) = true by decide)
  exact matches_iff (m := decimal 8) (.length (by decide)) hten (by decide)

/-- 10.1.2.3/8 -/
def hostInTen : Str := [0x31, 0x30, dot, 0x31, dot, 0x32, dot, 0x33, slash, 0x38]

/-- It is accepted, and does not even match the client it is written with. -/
theorem host_bits_match_nothing : netdefParse hostInTen = some ⟨0x0a010203, 0xff000000⟩ ∧
    ¬ MatchesItsNetwork ⟨0x0a010203, 0xff000000⟩ 8 0x0a010203 := by
  refine ⟨by decide, fun h => ?_⟩
  have hself := (h 0x0a010203).mpr fun _ _ => rfl
  revert hself
  decide

end Netutils.Talkd
