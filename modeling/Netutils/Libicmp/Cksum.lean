/-
  Netutils.Libicmp.Cksum — the checksum of ICMP messages (libicmp/icmp_cksum.c) and the
  messages that are made and accepted with it (libicmp/icmp_echo.c).

  The words are added in an int and folded twice at the end. No packet has so many of them that
  the int overflows, and two folds give the ones' complement sum of any such number. It is one
  modulo 65535, so that a message is refused when a word of it has another value there
  (`checksum_detects`).
-/

import Netutils.Lib.OnesComplement

namespace Netutils.Libicmp

open Netutils.Lib

/-! ## icmp_cksum -/

/-- A u_short in memory, the low byte first. -/
def short (lo hi : UInt8) : Nat := lo.toNat + 256 * hi.toNat

def INT_MAX : Nat := 2 ^ 31 - 1

/-- `sum += n`; `none` if the int overflows. -/
def addInt (sum n : Nat) : Option Nat := if sum + n ≤ INT_MAX then some (sum + n) else none

/-- The loop, and the odd byte. -/
def sumWords : List UInt8 → Nat → Option Nat
  | [], sum => some sum
  | [odd], sum => addInt sum odd.toNat
  | lo :: hi :: addr, sum => (addInt sum (short lo hi)).bind (sumWords addr)

/-- icmp_cksum; `none` if the sum overflows. -/
def icmpCksum (addr : List UInt8) : Option UInt16 :=
  (sumWords addr 0).map fun sum =>
    let sum := (sum >>> 16) + (sum &&& 0xffff)
    let sum := sum + (sum >>> 16)
    ~~~ UInt16.ofNat sum

/-! ## icmp_generic_encode and icmp_generic_decode -/

def ICMP_MINLEN : Nat := 8

/-- An int that is assigned to a u_char. -/
def uChar (n : Int) : UInt8 := UInt8.ofNat (n % 256).toNat

/-- An int that is assigned to a u_short. -/
def uShort (n : Int) : UInt16 := UInt16.ofNat (n % 65536).toNat

def getShort (buffer : List UInt8) (i : Nat) : UInt16 := UInt16.ofNat (short (buffer.getD i 0) (buffer.getD (i + 1) 0))

def putShort (i : Nat) (n : UInt16) (buffer : List UInt8) : List UInt8 :=
  (buffer.set i n.toUInt8).set (i + 1) (n >>> 8).toUInt8

/-- icmp_generic_encode: the bytes of the buffer and the result. -/
def icmpGenericEncode (buffer : List UInt8) (type ident seqno : Int) : Option (List UInt8 × Int) :=
  if buffer.length < 8 then some (buffer, -1)
  else
    let buffer := putShort 2 0 ((buffer.set 0 (uChar type)).set 1 0)
    let buffer := putShort 4 (uShort ident) (putShort 6 (uShort seqno) buffer)
    (icmpCksum buffer).map fun cksum => (putShort 2 cksum buffer, 0)

/-- ip_hl; what it is in no bytes at all does not matter. -/
def ipHl (buffer : List UInt8) : Nat := (buffer.headD 0 &&& 0x0f).toNat

structure Decoded where
  rc : Int
  /-- Where `*icmpp` points, from the buffer on. -/
  icmp : Option Nat
  buffer : List UInt8
  deriving DecidableEq

/-- icmp_generic_decode -/
def icmpGenericDecode (buffer : List UInt8) : Option Decoded :=
  let hlen := ipHl buffer <<< 2
  if buffer.length < hlen + ICMP_MINLEN then some ⟨-1, none, buffer⟩
  else
    let cksum := getShort buffer (hlen + 2)
    let buffer := putShort (hlen + 2) 0 buffer
    (icmpCksum (buffer.drop hlen)).map fun sum =>
      ⟨if sum ≠ cksum then 1 else 0, some hlen, putShort (hlen + 2) sum buffer⟩

/-! ## What they are to do -/

/-- The 16-bit words of a message, an odd byte padded with zero. -/
def words : List UInt8 → List Nat
  | [] => []
  | [odd] => [short odd 0]
  | lo :: hi :: l => short lo hi :: words l

/-- The ones' complement sum of the words. -/
def onesSum (l : List UInt8) : UInt16 := UInt16.ofNat (OnesComplement.sum 65536 (words l))

/-- An IP header of ip_hl words. -/
structure IpHeader where
  bytes : List UInt8
  nonempty : bytes ≠ []
  length : bytes.length = 4 * ipHl bytes

/-- One word has another value modulo 65535. -/
def ChangedWord (message changed : List UInt8) : Prop :=
  changed.length = message.length ∧ ∃ i w v, (words message)[i]? = some w ∧ words changed = (words message).set i v ∧
    ¬ v ≡ w [MOD 65535]

/-! ## The sum -/

variable {addr l : List UInt8} {sum n : Nat}

theorem short_lt (lo hi : UInt8) : short lo hi < 65536 := by
  have hlo := lo.toNat_lt
  have hhi := hi.toNat_lt
  rw [short]
  omega

theorem words_lt (l : List UInt8) : ∀ w ∈ words l, w < 65536 := by
  induction l using words.induct with
  | case1 => nofun
  | case2 odd =>
    intro w hw
    obtain rfl := List.mem_singleton.mp hw
    exact short_lt odd 0
  | case3 lo hi l ih =>
    intro w hw
    rcases List.mem_cons.mp hw with rfl | hw
    · exact short_lt lo hi
    · exact ih w hw

theorem sum_words_le (l : List UInt8) : (words l).sum ≤ 65535 * (l.length / 2) + 255 * (l.length % 2) := by
  induction l using words.induct with
  | case1 => exact Nat.le_refl _
  | case2 odd =>
    have hodd := odd.toNat_lt
    simp only [words, short, List.sum_singleton, List.length_singleton, UInt8.toNat_zero]
    omega
  | case3 lo hi l ih =>
    have hword := short_lt lo hi
    simp only [words, List.sum_cons, List.length_cons]
    omega

/-- The int has room for them. -/
theorem sumWords_eq (h : sum + (words l).sum ≤ INT_MAX) : sumWords l sum = some (sum + (words l).sum) := by
  induction l using words.induct generalizing sum with
  | case1 => rfl
  | case2 odd =>
    rw [words, List.sum_singleton, short, UInt8.toNat_zero, Nat.mul_zero, Nat.add_zero] at h ⊢
    exact if_pos h
  | case3 lo hi l ih =>
    rw [words, List.sum_cons, ← Nat.add_assoc] at h ⊢
    rw [sumWords, addInt, if_pos (by omega)]
    exact ih h

/-- A packet is not too long for it. -/
theorem sum_words_packet (h : addr.length ≤ 65535) : (words addr).sum ≤ INT_MAX := by
  have hle := sum_words_le addr
  rw [INT_MAX]
  omega

theorem sums_onesSum (l : List UInt8) : OnesComplement.Sums 65536 (onesSum l).toNat (words l).sum := by
  have hsum := OnesComplement.sums_sum (B := 65536) (by decide) (words_lt l)
  rw [onesSum, UInt16.toNat_ofNat', Nat.mod_eq_of_lt hsum.lt]
  exact hsum

/-- Two folds of what the int can hold. -/
theorem folds_eq (hs : sum ≤ INT_MAX) (h : OnesComplement.Sums 65536 n sum) :
    UInt16.ofNat ((sum >>> 16) + (sum &&& 0xffff) + (((sum >>> 16) + (sum &&& 0xffff)) >>> 16)) = UInt16.ofNat n := by
  have hB : (1 : Nat) < 65536 := by decide
  have hlt : sum < 65536 * 65536 := by rw [INT_MAX] at hs; omega
  have hfold : (sum >>> 16) + (sum &&& 0xffff) = OnesComplement.fold 65536 sum := by
    rw [OnesComplement.fold, Nat.shiftRight_eq_div_pow]
    exact congrArg (sum / 65536 + ·) (Nat.and_two_pow_sub_one_eq_mod sum 16)
  have htwice := OnesComplement.add_div_mod (OnesComplement.fold_fold_lt hB hlt)
  have huniq := (OnesComplement.sums_fold hB hlt).unique h
  apply UInt16.toNat.inj
  rw [hfold, Nat.shiftRight_eq_div_pow, UInt16.toNat_ofNat', UInt16.toNat_ofNat', ← huniq]
  rw [Nat.mod_eq_of_lt (OnesComplement.fold_fold_lt hB hlt)]
  exact htwice

/-- The complement of the sum, for every packet. -/
theorem icmpCksum_eq (h : addr.length ≤ 65535) : icmpCksum addr = some (~~~ onesSum addr) := by
  have hroom := sum_words_packet h
  have hsums := sums_onesSum addr
  rw [icmpCksum, sumWords_eq (by rwa [Nat.zero_add]), Nat.zero_add, Option.map_some]
  simp only
  rw [folds_eq hroom hsums, UInt16.ofNat_toNat]

/-! ## Messages -/

variable {message changed : List UInt8} {type ident seqno : Int}

theorem onesSum_congr {l l' : List UInt8} (h : words l = words l') : onesSum l = onesSum l' := by
  rw [onesSum, onesSum, h]

theorem short_bytes (n : UInt16) : short n.toUInt8 (n >>> 8).toUInt8 = n.toNat := by
  have hn := n.toNat_lt
  rw [short, UInt16.toNat_toUInt8, UInt16.toNat_toUInt8, UInt16.toNat_shiftRight]
  rw [show (8 : UInt16).toNat % 16 = 8 by decide, Nat.shiftRight_eq_div_pow]
  omega

@[simp] theorem length_putShort (i : Nat) (n : UInt16) (l : List UInt8) : (putShort i n l).length = l.length := by
  rw [putShort, List.length_set, List.length_set]

theorem putShort_append (n : UInt16) (a l : List UInt8) (i : Nat) :
    putShort (a.length + i) n (a ++ l) = a ++ putShort i n l := by
  rw [putShort, putShort, List.set_append_right _ _ (by omega), List.set_append_right _ _ (by omega)]
  congr 3 <;> omega

theorem getShort_append (a l : List UInt8) (i : Nat) : getShort (a ++ l) (a.length + i) = getShort l i := by
  have hbyte : ∀ k, (a ++ l).getD (a.length + k) 0 = l.getD k 0 := by
    intro k
    rw [List.getD_eq_getElem?_getD, List.getElem?_append_right (by omega), Nat.add_sub_cancel_left, List.getD_eq_getElem?_getD]
  rw [getShort, getShort, hbyte, Nat.add_assoc, hbyte]

/-- The checksum is the second word. -/
theorem words_putShort (n : UInt16) (h : 4 ≤ l.length) : words (putShort 2 n l) = (words l).set 1 n.toNat := by
  match l, h with
  | a :: b :: c :: d :: l, _ =>
    simp only [putShort, List.set_cons_succ, List.set_cons_zero, words, short_bytes]

theorem getElem?_words (h : 4 ≤ l.length) : (words l)[1]? = some (getShort l 2).toNat := by
  match l, h with
  | a :: b :: c :: d :: l, _ =>
    show some (short c d) = some (UInt16.ofNat (short c d)).toNat
    rw [UInt16.toNat_ofNat', Nat.mod_eq_of_lt (short_lt c d)]

/-- What is made. -/
theorem icmpGenericEncode_eq (buffer : List UInt8) (type ident seqno : Int) (h : 8 ≤ buffer.length)
    (hmax : buffer.length ≤ 65535) : ∃ l, l.length = buffer.length ∧
      icmpGenericEncode buffer type ident seqno = some (putShort 2 (~~~ onesSum (putShort 2 0 l)) l, 0) := by
  have hzero : ∀ l : List UInt8, 8 ≤ l.length → putShort 2 0 (putShort 4 (uShort ident) (putShort 6 (uShort seqno) (putShort 2 0 l))) =
      putShort 4 (uShort ident) (putShort 6 (uShort seqno) (putShort 2 0 l)) := by
    intro l hl
    match l, hl with
    | a :: b :: c :: d :: e :: f :: g :: i :: l, _ => rfl
  refine ⟨putShort 4 (uShort ident) (putShort 6 (uShort seqno) (putShort 2 0 ((buffer.set 0 (uChar type)).set 1 0))), ?_, ?_⟩
  · simp only [length_putShort, List.length_set]
  · rw [icmpGenericEncode, if_neg (by omega)]
    simp only
    rw [icmpCksum_eq (by simpa using hmax), hzero _ (by simpa using h), Option.map_some]

/-- What the result of the other side depends on. -/
theorem icmpGenericDecode_eq (ip : IpHeader) (h : 8 ≤ message.length) (hmax : message.length ≤ 65535) :
    ∃ d, icmpGenericDecode (ip.bytes ++ message) = some d ∧
      d.rc = if ~~~ onesSum (putShort 2 0 message) ≠ getShort message 2 then 1 else 0 := by
  obtain ⟨b, bytes, hbytes⟩ := List.exists_cons_of_ne_nil ip.nonempty
  have hhl : ipHl (ip.bytes ++ message) <<< 2 = ip.bytes.length := by
    rw [ip.length, Nat.shiftLeft_eq, hbytes, Nat.mul_comm]
    rfl
  rw [icmpGenericDecode, hhl, if_neg (by rw [List.length_append, ICMP_MINLEN]; omega)]
  simp only [putShort_append, getShort_append, List.drop_left]
  rw [icmpCksum_eq (by simpa using hmax), Option.map_some]
  exact ⟨_, rfl, rfl⟩

/-- Which of its words is changed does not matter. -/
theorem ChangedWord.detected (h : ChangedWord message changed) (hlen : 8 ≤ message.length)
    (hok : ~~~ onesSum (putShort 2 0 message) = getShort message 2) :
    ~~~ onesSum (putShort 2 0 changed) ≠ getShort changed 2 := by
  obtain ⟨hlength, i, w, v, hw, hwords, hne⟩ := h
  have hfield := getElem?_words (l := message) (by omega)
  have hfield' := getElem?_words (l := changed) (by omega)
  have hzero := words_putShort (l := message) 0 (by omega)
  have hzero' := words_putShort (l := changed) 0 (by omega)
  rw [hwords] at hfield' hzero'
  by_cases hi : i = 1
  · -- the checksum itself: what it is compared with stays
    subst hi
    rw [List.set_set, ← hzero] at hzero'
    rw [onesSum_congr hzero', hok]
    intro heq
    rw [List.getElem?_set_self (List.getElem?_eq_some_iff.mp hw).1] at hfield'
    apply hne
    rw [Option.some.inj hfield', Option.some.inj (hw.symm.trans hfield), heq]
  · rw [List.set_comm _ _ hi, ← hzero] at hzero'
    rw [List.getElem?_set_ne hi, hfield] at hfield'
    rw [UInt16.toNat.inj (Option.some.inj hfield').symm, ← hok]
    intro heq
    have hi' : (words (putShort 2 0 message))[i]? = some w := by
      rw [hzero, List.getElem?_set_ne fun h => hi h.symm, hw]
    have hsums := sums_onesSum (putShort 2 0 changed)
    rw [hzero'] at hsums
    apply hsums.ne_set hi' hne (sums_onesSum _)
    rw [UInt16.not_inj.mp heq]

/-! ## The checksum -/

/-- The sum is right for every packet; so a message that is made is accepted behind any header,
    and refused when a word of it is another modulo 65535. -/
theorem checksum_detects :
    (∀ addr : List UInt8, addr.length ≤ 65535 → icmpCksum addr = some (~~~ onesSum addr)) ∧
    ∀ (buffer : List UInt8) (type ident seqno : Int) (ip : IpHeader), 8 ≤ buffer.length → buffer.length ≤ 65535 →
      ∃ message, icmpGenericEncode buffer type ident seqno = some (message, 0) ∧ message.length = buffer.length ∧
        (icmpGenericDecode (ip.bytes ++ message)).map Decoded.rc = some 0 ∧
        ∀ changed, ChangedWord message changed → (icmpGenericDecode (ip.bytes ++ changed)).map Decoded.rc = some 1 := by
  refine ⟨fun addr h => icmpCksum_eq h, ?_⟩
  intro buffer type ident seqno ip h hmax
  obtain ⟨l, hlength, hencode⟩ := icmpGenericEncode_eq buffer type ident seqno h hmax
  refine ⟨_, hencode, by rw [length_putShort, hlength], ?_⟩
  generalize hmessage : putShort 2 (~~~ onesSum (putShort 2 0 l)) l = message
  have hlen : message.length = buffer.length := by rw [← hmessage, length_putShort, hlength]
  have hok : ~~~ onesSum (putShort 2 0 message) = getShort message 2 := by
    have hwords : words (putShort 2 0 message) = words (putShort 2 0 l) := by
      rw [words_putShort 0 (by omega), ← hmessage, words_putShort _ (by omega), List.set_set, words_putShort 0 (by omega)]
    apply UInt16.toNat.inj
    rw [onesSum_congr hwords]
    have hfield := getElem?_words (l := message) (by omega)
    rw [← hmessage, words_putShort _ (by omega), hmessage] at hfield
    have hbound : 1 < (words l).length := by
      have hfirst := getElem?_words (l := l) (by omega)
      exact (List.getElem?_eq_some_iff.mp hfirst).1
    rw [List.getElem?_set_self hbound] at hfield
    exact Option.some.inj hfield
  constructor
  · obtain ⟨d, hd, hrc⟩ := @icmpGenericDecode_eq message ip (by omega) (by omega)
    rw [hd, Option.map_some, hrc, if_neg (not_not.mpr hok)]
  · intro changed hchanged
    obtain ⟨d, hd, hrc⟩ := @icmpGenericDecode_eq changed ip (by rw [hchanged.1]; omega) (by rw [hchanged.1]; omega)
    rw [hd, Option.map_some, hrc, if_pos (hchanged.detected (by omega) hok)]

/-- A header without options. -/
def plainHeader : IpHeader := ⟨0x45 :: List.replicate 19 0, by decide, by decide⟩

/-- An echo request, and one of its words changed. -/
theorem checksum_detects_request :
    icmpCksum [1, 2, 3] = some 0xfdfb ∧
    ∃ message, icmpGenericEncode (List.replicate 8 0) 8 1 2 = some (message, 0) ∧
      (icmpGenericDecode (plainHeader.bytes ++ message)).map Decoded.rc = some 0 ∧
      (icmpGenericDecode (plainHeader.bytes ++ message.set 6 3)).map Decoded.rc = some 1 := by
  refine ⟨(checksum_detects.1 [1, 2, 3] (by decide)).trans (by decide), ?_⟩
  obtain ⟨message, hencode, -, haccept, hrefuse⟩ :=
    checksum_detects.2 (List.replicate 8 0) 8 1 2 plainHeader (by decide) (by decide)
  refine ⟨message, hencode, haccept, hrefuse _ ?_⟩
  have hmessage : message = [8, 0, 0xf4, 0xff, 1, 0, 2, 0] := by
    have hbytes : icmpGenericEncode (List.replicate 8 0) 8 1 2 = some ([8, 0, 0xf4, 0xff, 1, 0, 2, 0], 0) := by decide
    exact congrArg Prod.fst (Option.some.inj (hencode.symm.trans hbytes))
  subst hmessage
  exact ⟨rfl, 3, 2, 3, rfl, by decide, by decide⟩

end Netutils.Libicmp
