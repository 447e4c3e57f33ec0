/-
  Netutils.Ping.Errors — what ping examines of an ICMP error (ping/libping.c, ping_recv and
  my_echo_reply; ping/ping_echo.c, from print_icmp_header on).

  icmp_generic_decode looks at the length once: the outer header and eight bytes must be there.
  The quoted header, its options and the quoted ICMP header are read wherever they would lie. So
  an error of eight bytes is already compared with what the buffer happened to hold behind it
  (`short_error_is_compared`). All that is examined has been received exactly where the quoted
  datagram has, as far as the tests come (`examined_iff`).
-/

import Netutils.Ping.Libping

namespace Netutils.Ping

open Netutils.Lib Netutils.Libicmp

/-! ## Printing an error -/

/-- ip_hl in memory, as a number of bytes. -/
def hlenAt (m : Nat → UInt8) (ip : Nat) : Nat := (m ip &&& 0x0f).toNat <<< 2

/-- print_ip_header: the fields, and `while (hlen-- > 20)`. -/
def printIpHeader (m : Nat → UInt8) (ip : Nat) : List Nat := bytes ip 20 ++ bytes (ip + 20) (hlenAt m ip - 20)

/-- print_ip_data -/
def printIpData (m : Nat → UInt8) (icmp : Nat) : List Nat :=
  let ip := icmp + icmp_ip
  let cp := ip + hlenAt m ip
  -- the ports of TCP and UDP
  printIpHeader m ip ++ [ip, ip + ip_p] ++ if m (ip + ip_p) = 6 ∨ m (ip + ip_p) = 17 then bytes cp 4 else []

/-- print_icmp -/
def printIcmp (m : Nat → UInt8) (icmp : Nat) : List Nat := (icmp + 1) :: printIpData m icmp

/-- print_parameterprob -/
def printParameterprob (m : Nat → UInt8) (icmp : Nat) : List Nat := bytes (icmp + 4) 4 ++ printIpData m icmp

/-- icmp_diag: types and the functions that print them, if there is one. -/
def icmp_diag : List (UInt8 × Option ((Nat → UInt8) → Nat → List Nat)) := [
  (ICMP_ECHOREPLY, none),
  (ICMP_DEST_UNREACH, some printIcmp),
  (ICMP_SOURCE_QUENCH, some printIpData),
  (ICMP_REDIRECT, some printIcmp),
  (ICMP_ECHO, none),
  (ICMP_TIME_EXCEEDED, some printIcmp),
  (ICMP_PARAMETERPROB, some printParameterprob),
  (ICMP_TIMESTAMP, none),
  (ICMP_TIMESTAMPREPLY, none),
  (ICMP_INFO_REQUEST, none)]

/-- The line of the table. -/
def printDiag (m : Nat → UInt8) (icmp : Nat) : List Nat :=
  match icmp_diag.find? (·.1 == m icmp) with
  | some (_, some fun_) => icmp :: fun_ m icmp
  | _ => [icmp]

/-- print_icmp_header; `ip` is at the start of the buffer. -/
def PING.printIcmpHeader (p : PING) (OPT_VERBOSE : Bool) (m : Nat → UInt8) (icmp : Nat) : List Nat :=
  let dst := icmp + icmp_ip + ip_dst
  if OPT_VERBOSE then 0 :: printDiag m icmp
  else if Cells.slice m dst (dst + 4) ≠ p.ping_dest.toList then 0 :: bytes dst 4
  else 0 :: bytes dst 4 ++ printDiag m icmp

/-- What is examined of a datagram that is no answer. -/
def Outcome.examines (o : Outcome) (OPT_VERBOSE : Bool) (m : Nat → UInt8) : List Nat :=
  match o.event with
  | some (.noecho, icmp) => o.examined ++ o.ping.printIcmpHeader OPT_VERBOSE m icmp
  | _ => o.examined

/-! ## What has to be there -/

/-- Errors whose quoted header is printed. -/
def quoting : List UInt8 := [ICMP_DEST_UNREACH, ICMP_SOURCE_QUENCH, ICMP_REDIRECT, ICMP_TIME_EXCEEDED, ICMP_PARAMETERPROB]

/-- Types that ping_recv has cases for. -/
def handled : List UInt8 :=
  [ICMP_ECHOREPLY, ICMP_TIMESTAMPREPLY, ICMP_ADDRESSREPLY] ++ [ICMP_ECHO, ICMP_TIMESTAMP, ICMP_ADDRESS]

/-- An ICMP error `b` of `len` bytes has the quoted header; it has the type of the quoted message
    where that is ICMP to our destination, the identifier if that is an echo request, and the
    options of the quoted header if it is ours and will be printed. -/
def Covers (p : PING) (b : Nat → UInt8) (len : Nat) : Prop :=
  28 ≤ len ∧ (Cells.slice b 24 28 = p.ping_dest.toList → b 17 = IPPROTO_ICMP →
    28 < len ∧ (b 28 = ICMP_ECHO → 34 ≤ len ∧ (shortAt b 32 = p.ping_ident → b 0 ∈ quoting → 8 + hlenAt b 8 ≤ len)))

/-- The ICMP message in a datagram. -/
def message (datagram : List UInt8) : Nat → UInt8 := fun i => datagram.getD (ipHl datagram * 4 + i) 0

/-- It is an error of which enough has been received, or none. -/
def Received (p : PING) (datagram : List UInt8) : Prop :=
  message datagram 0 ∈ handled ∨ Covers p (message datagram) (datagram.length - ipHl datagram * 4)

/-! ## Inside -/

def Inside (n : Nat) (l : List Nat) : Prop := ∀ i ∈ l, i < n

variable {n i k : Nat} {a l : List Nat}

@[simp] theorem inside_nil : Inside n [] := nofun

@[simp] theorem inside_cons : Inside n (i :: l) ↔ i < n ∧ Inside n l := List.forall_mem_cons

@[simp] theorem inside_append : Inside n (a ++ l) ↔ Inside n a ∧ Inside n l := List.forall_mem_append

theorem inside_bytes : Inside n (bytes i k) ↔ k = 0 ∨ i + k ≤ n := by
  constructor
  · intro h
    by_cases hk : k = 0
    · exact Or.inl hk
    · have hlast := h (i + (k - 1)) (List.mem_range'_1.mpr ⟨by omega, by omega⟩)
      omega
  · intro h j hj
    have hj := List.mem_range'_1.mp hj
    omega

/-! ## The tests and the table -/

variable {p : PING} {m : Nat → UInt8} {icmp : Nat}

theorem myEchoReply_inside : Inside n (p.myEchoReply m icmp).2 ↔
    icmp + 28 ≤ n ∧ (Cells.slice m (icmp + 24) (icmp + 28) = p.ping_dest.toList → m (icmp + 17) = IPPROTO_ICMP →
      icmp + 28 < n ∧ (m (icmp + 28) = ICMP_ECHO → icmp + 34 ≤ n)) := by
  simp only [PING.myEchoReply, icmp_ip, ip_dst, ip_p, sizeof_ip, icmp_id, Nat.add_assoc, Nat.reduceAdd]
  by_cases hdst : Cells.slice m (icmp + 24) (icmp + 28) = p.ping_dest.toList
  · rw [if_neg (not_not.mpr hdst)]
    by_cases hproto : m (icmp + 17) = IPPROTO_ICMP
    · rw [if_neg (not_not.mpr hproto)]
      by_cases hecho : m (icmp + 28) = ICMP_ECHO
      · rw [if_neg (not_not.mpr hecho)]
        simp only [inside_append, inside_cons, inside_nil, inside_bytes, hdst, hproto, hecho, true_implies, and_true]
        omega
      · rw [if_pos hecho]
        simp only [inside_append, inside_cons, inside_nil, inside_bytes, hdst, hproto, hecho, true_implies, false_implies, and_true]
        omega
    · rw [if_pos hproto]
      simp only [inside_append, inside_cons, inside_nil, inside_bytes, hproto, false_implies, implies_true, and_true]
      omega
  · rw [if_pos hdst]
    simp only [inside_bytes, hdst, false_implies, and_true]
    omega

/-- The quoted message is an echo request of ours. -/
structure Ours (p : PING) (m : Nat → UInt8) (icmp : Nat) : Prop where
  dst : Cells.slice m (icmp + 24) (icmp + 28) = p.ping_dest.toList
  proto : m (icmp + 17) = IPPROTO_ICMP
  type : m (icmp + 28) = ICMP_ECHO
  ident : shortAt m (icmp + 32) = p.ping_ident

theorem myEchoReply_iff : (p.myEchoReply m icmp).1 = true ↔ Ours p m icmp := by
  simp only [PING.myEchoReply, icmp_ip, ip_dst, ip_p, sizeof_ip, icmp_id, Nat.add_assoc, Nat.reduceAdd]
  constructor
  · intro h
    split_ifs at h with hdst hproto hecho
    exact ⟨not_not.mp hdst, not_not.mp hproto, not_not.mp hecho, of_decide_eq_true h⟩
  · intro h
    rw [if_neg (not_not.mpr h.dst), if_neg (not_not.mpr h.proto), if_neg (not_not.mpr h.type)]
    exact decide_eq_true h.ident

theorem printIpData_inside (hproto : m (icmp + 17) = IPPROTO_ICMP) (hn : icmp + 34 ≤ n) :
    Inside n (printIpData m icmp) ↔ icmp + 8 + hlenAt m (icmp + 8) ≤ n := by
  have hports : ¬ (m (icmp + 17) = 6 ∨ m (icmp + 17) = 17) := by
    rw [hproto]
    decide
  simp only [printIpData, printIpHeader, icmp_ip, ip_p, Nat.add_assoc, Nat.reduceAdd, if_neg hports]
  simp only [inside_append, inside_cons, inside_nil, inside_bytes, and_true]
  omega

/-- The header is printed for these types only. -/
theorem printDiag_inside (hproto : m (icmp + 17) = IPPROTO_ICMP) (hn : icmp + 34 ≤ n) :
    Inside n (printDiag m icmp) ↔ (m icmp ∈ quoting → icmp + 8 + hlenAt m (icmp + 8) ≤ n) := by
  have hdata := printIpData_inside hproto hn
  have hicmp : Inside n (printIcmp m icmp) ↔ icmp + 8 + hlenAt m (icmp + 8) ≤ n := by
    rw [printIcmp, inside_cons, hdata]
    exact and_iff_right (by omega)
  have hparameter : Inside n (printParameterprob m icmp) ↔ icmp + 8 + hlenAt m (icmp + 8) ≤ n := by
    rw [printParameterprob, inside_append, inside_bytes, hdata]
    exact and_iff_right (by omega)
  have hhere : icmp < n := by omega
  by_cases hquote : m icmp ∈ quoting
  · simp only [hquote, true_implies]
    simp only [quoting, List.mem_cons, List.not_mem_nil, or_false] at hquote
    rw [printDiag]
    rcases hquote with h | h | h | h | h <;> rw [h]
    · exact inside_cons.trans ((and_iff_right hhere).trans hicmp)
    · exact inside_cons.trans ((and_iff_right hhere).trans hdata)
    · exact inside_cons.trans ((and_iff_right hhere).trans hicmp)
    · exact inside_cons.trans ((and_iff_right hhere).trans hicmp)
    · exact inside_cons.trans ((and_iff_right hhere).trans hparameter)
  · refine iff_of_true ?_ fun h => absurd h hquote
    simp only [quoting, List.mem_cons, List.not_mem_nil, or_false, not_or] at hquote
    rw [printDiag]
    split
    · rename_i type fun_ hfound
      have htype : type = m icmp := by simpa using List.find?_some hfound
      have hmem := List.mem_of_find?_eq_some hfound
      -- the entries with a function are those above
      simp only [icmp_diag, List.mem_cons, Prod.mk.injEq, List.not_mem_nil, or_false] at hmem
      rw [← htype] at hquote
      simp [hquote] at hmem
    · exact inside_cons.mpr ⟨hhere, inside_nil⟩

theorem printIcmpHeader_inside (OPT_VERBOSE : Bool) (h : Ours p m icmp) (hn : icmp + 34 ≤ n) :
    Inside n (p.printIcmpHeader OPT_VERBOSE m icmp) ↔ (m icmp ∈ quoting → icmp + 8 + hlenAt m (icmp + 8) ≤ n) := by
  have hdiag := printDiag_inside h.proto hn
  cases OPT_VERBOSE with
  | true =>
    rw [← hdiag]
    exact inside_cons.trans (and_iff_right (by omega))
  | false =>
    rw [← hdiag, PING.printIcmpHeader, if_neg Bool.false_ne_true]
    simp only [icmp_ip, ip_dst, Nat.add_assoc, Nat.reduceAdd, h.dst]
    rw [if_neg (not_not.mpr rfl), List.cons_append, inside_cons, inside_append, inside_bytes]
    rw [and_iff_right (by omega), and_iff_right (by omega)]

/-! ## The error branch -/

theorem dispatch_inside (OPT_VERBOSE : Bool) (hn : icmp + 8 ≤ n) :
    Inside n ((p.dispatch m icmp).examines OPT_VERBOSE m) ↔
      m icmp ∈ handled ∨ Covers p (fun i => m (icmp + i)) (n - icmp) := by
  rw [PING.dispatch, handled, List.mem_append]
  by_cases hanswer : m icmp ∈ [ICMP_ECHOREPLY, ICMP_TIMESTAMPREPLY, ICMP_ADDRESSREPLY]
  · rw [if_pos hanswer]
    refine iff_of_true ?_ (Or.inl (Or.inl hanswer))
    dsimp only
    split_ifs <;> exact inside_nil
  · rw [if_neg hanswer]
    by_cases hrequest : m icmp ∈ [ICMP_ECHO, ICMP_TIMESTAMP, ICMP_ADDRESS]
    · rw [if_pos hrequest]
      exact iff_of_true inside_nil (Or.inl (Or.inr hrequest))
    · rw [if_neg hrequest, or_iff_right (fun h => h.elim hanswer hrequest)]
      have hslice : Cells.slice (fun i => m (icmp + i)) 24 28 = Cells.slice m (icmp + 24) (icmp + 28) := by
        simp only [Cells.slice, Nat.add_sub_add_left, Nat.add_assoc]
      simp only [Covers, hslice, Nat.add_zero]
      by_cases hours : (p.myEchoReply m icmp).1 = true
      · have h := myEchoReply_iff.mp hours
        rw [if_pos hours, Outcome.examines]
        simp only
        rw [inside_append, myEchoReply_inside]
        have hident : shortAt (fun i => m (icmp + i)) 32 = p.ping_ident := h.ident
        have hhlen : hlenAt (fun i => m (icmp + i)) 8 = hlenAt m (icmp + 8) := rfl
        simp only [h.dst, h.proto, h.type, hident, hhlen, true_implies]
        by_cases hlen : icmp + 34 ≤ n
        · rw [printIcmpHeader_inside OPT_VERBOSE h hlen]
          constructor
          · rintro ⟨_, hquote⟩
            refine ⟨by omega, by omega, by omega, fun hq => ?_⟩
            have := hquote hq
            omega
          · rintro ⟨_, _, _, hquote⟩
            refine ⟨by omega, fun hq => ?_⟩
            have := hquote hq
            omega
        · exact iff_of_false (fun hn => hlen (hn.1.2.2)) fun hn => hlen (by omega)
      · rw [if_neg hours, Outcome.examines]
        simp only
        rw [myEchoReply_inside]
        refine and_congr (by omega) (forall_congr' fun hdst => forall_congr' fun hproto => and_congr (by omega) ?_)
        refine forall_congr' fun htype => ?_
        have hident : shortAt (fun i => m (icmp + i)) 32 ≠ p.ping_ident :=
          fun h => hours (myEchoReply_iff.mpr ⟨hdst, hproto, htype, h⟩)
        simp only [hident, false_implies, and_true]
        omega

/-- What is looked at is the same. -/
theorem covers_congr {b b' : Nat → UInt8} {len : Nat} (h : ∀ i < len, i ≠ 2 → i ≠ 3 → b i = b' i) :
    Covers p b len ↔ Covers p b' len := by
  refine and_congr_right fun hlen => ?_
  have hslice : Cells.slice b 24 28 = Cells.slice b' 24 28 := by
    apply List.map_congr_left
    intro k hk
    have hk := List.mem_range.mp hk
    exact h _ (by omega) (by omega) (by omega)
  have hproto := h 17 (by omega) (by decide) (by decide)
  have htype := h 0 (by omega) (by decide) (by decide)
  have hhlen : hlenAt b 8 = hlenAt b' 8 := by rw [hlenAt, hlenAt, h 8 (by omega) (by decide) (by decide)]
  rw [hslice, hproto, htype, hhlen]
  refine forall_congr' fun _ => forall_congr' fun _ => and_congr_right fun hlen => ?_
  rw [h 28 hlen (by decide) (by decide)]
  refine forall_congr' fun _ => and_congr_right fun hlen => ?_
  have hident : shortAt b 32 = shortAt b' 32 := by
    rw [shortAt, shortAt, h 32 (by omega) (by decide) (by decide), h 33 (by omega) (by decide) (by decide)]
  rw [hident]

/-- Behind the decoding the bytes are those that have been received, but for the checksum. -/
theorem pingBuffer_decode {datagram : List UInt8} {d : Decoded} (old : Nat → UInt8) (hd : icmpGenericDecode datagram = some d)
    (hicmp : d.icmp = some icmp) : icmp = ipHl datagram * 4 ∧ icmp + 8 ≤ datagram.length ∧
      ∀ i < datagram.length - icmp, i ≠ 2 → i ≠ 3 → pingBuffer d.buffer old (icmp + i) = message datagram i := by
  rw [icmpGenericDecode] at hd
  simp only at hd
  split at hd
  · obtain rfl := Option.some.inj hd
    cases hicmp
  · rename_i hlen
    obtain ⟨sum, -, rfl⟩ := Option.map_eq_some_iff.mp hd
    obtain rfl := Option.some.inj hicmp
    have hshift : ipHl datagram <<< 2 = ipHl datagram * 4 := Nat.shiftLeft_eq _ 2
    rw [hshift, ICMP_MINLEN] at hlen
    refine ⟨hshift, by omega, ?_⟩
    intro i hi h2 h3
    rw [hshift] at hi ⊢
    have hin : ipHl datagram * 4 + i < datagram.length := by omega
    simp only [pingBuffer, putShort, List.getD_eq_getElem?_getD]
    rw [List.getElem?_set_ne (by omega), List.getElem?_set_ne (by omega)]
    rw [List.getElem?_set_ne (by omega), List.getElem?_set_ne (by omega), message, List.getD_eq_getElem?_getD]
    rw [List.getElem?_eq_getElem hin]
    rfl

/-- Only bytes of the datagram are examined exactly where enough of it has been received. -/
theorem examined_iff (p : PING) (OPT_VERBOSE : Bool) (datagram : List UInt8) (old : Nat → UInt8) (d : Decoded) (icmp : Nat)
    (hd : icmpGenericDecode datagram = some d) (hicmp : d.icmp = some icmp) :
    ∃ o, p.recv old (some datagram) = some o ∧
      ((∀ i ∈ o.examines OPT_VERBOSE (pingBuffer d.buffer old), i < datagram.length) ↔ Received p datagram) := by
  refine ⟨p.dispatch (pingBuffer d.buffer old) icmp, ?_, ?_⟩
  · rw [PING.recv, hd, Option.map_some, hicmp]
  · obtain ⟨rfl, hlen, hsame⟩ := pingBuffer_decode old hd hicmp
    have htype := hsame 0 (by omega) (by decide) (by decide)
    rw [Nat.add_zero] at htype
    have hinside := dispatch_inside (p := p) (m := pingBuffer d.buffer old) OPT_VERBOSE hlen
    rw [Received, ← covers_congr hsame, ← htype]
    exact hinside

/-- "Destination unreachable" behind an IP header without options, with what is quoted. -/
def unreachable (quoted : List UInt8) : List UInt8 := (0x45 :: List.replicate 19 0) ++ [3, 1, 0, 0, 0, 0, 0, 0] ++ quoted

/-- A header of an ICMP packet to 1.1.1.1, and an echo request with identifier 7. -/
def request : List UInt8 :=
  (0x45 :: List.replicate 8 0) ++ [1] ++ List.replicate 6 0 ++ List.replicate 4 1 ++ [8, 0, 0, 0, 7, 0, 0, 0]

def pinging : PING := { ping_ident := 7, ping_dest := Vector.replicate 4 1 }

theorem examined_request : ∃ d icmp o, icmpGenericDecode (unreachable request) = some d ∧ d.icmp = some icmp ∧
    pinging.recv (fun _ => 0) (some (unreachable request)) = some o ∧ o.rc = 0 ∧
    ∀ i ∈ o.examines false (pingBuffer d.buffer fun _ => 0), i < (unreachable request).length := by
  have hdecode : (icmpGenericDecode (unreachable request)).map Decoded.icmp = some (some 20) := by decide +kernel
  obtain ⟨d, hd, hicmp⟩ := Option.map_eq_some_iff.mp hdecode
  obtain ⟨o, ho, hiff⟩ := examined_iff pinging false (unreachable request) (fun _ => 0) d 20 hd hicmp
  have hreceived : Received pinging (unreachable request) := by
    refine Or.inr ⟨by decide +kernel, fun _ _ => ⟨by decide +kernel, fun _ => ⟨by decide +kernel, fun _ _ => by decide +kernel⟩⟩⟩
  have hrc : (pinging.recv (fun _ => 0) (some (unreachable request))).map Outcome.rc = some 0 := by decide +kernel
  rw [ho, Option.map_some, Option.some.injEq] at hrc
  exact ⟨d, 20, o, hd, hicmp, ho, hrc, hiff.mpr hreceived⟩

/-- Nothing is quoted, and whether the error is ours depends on what the buffer held before. -/
theorem short_error_is_compared :
    (pinging.recv (fun _ => 0) (some (unreachable []))).map (fun o => (o.rc, o.examined)) = some (-1, [44, 45, 46, 47]) ∧
    (pinging.recv (fun i => request.getD (i - 28) 0) (some (unreachable []))).map Outcome.rc = some 0 ∧
    (unreachable []).length = 28 := by
  refine ⟨?_, ?_, ?_⟩ <;> decide +kernel

end Netutils.Ping
