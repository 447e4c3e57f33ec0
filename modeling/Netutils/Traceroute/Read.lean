/-
  Netutils.Traceroute.Read — trace_read over the bytes that recvfrom leaves in `data`
  (traceroute/traceroute.c).

  icmp_generic_decode is told that there are 56 bytes, however many have come, and its result
  is not looked at. So the ICMP header is where the sender's header length says, and a header
  length of 13 words or more leaves ip and ic unset. What is looked at has been received if
  and only if the datagram is long enough for the header length and the type that it gives
  itself (`judges_iff`); otherwise it may be judged by what was in the memory before.
-/

import Netutils.Lib.Cells
import Netutils.Lib.Faults
import Netutils.Libicmp.Cksum
import Netutils.Traceroute.Trace

namespace Netutils.Traceroute.Read

open Netutils.Lib.Cells Netutils.Lib.Faults Netutils.Libicmp

/-! ## trace_read -/

/-- `sizeof data` -/
def DATA_SIZE : Nat := 56

/-- What trace_read returns, and where the bytes are, from data on, that it has examined for it. -/
structure Judgement where
  /-- `none` for -1; else whether it sets `stop`. -/
  rc : Option Bool
  examined : List Nat
  deriving DecidableEq

inductive Fault where
  /-- The sum of the checksum overflows. -/
  | cksum
  /-- `ip` and `ic` are used without having been set. -/
  | unset
  deriving DecidableEq

variable (mem : Nat → UInt8)

def shortAt (i : Nat) : UInt16 := UInt16.ofNat (short (mem i) (mem (i + 1)))

/-- The same by ntohs. -/
def portAt (i : Nat) : UInt16 := UInt16.ofNat (short (mem (i + 1)) (mem i))

def addressAt (i : Nat) : Address :=
  UInt32.ofNat (short (mem i) (mem (i + 1)) + 65536 * short (mem (i + 2)) (mem (i + 3)))

/-- `case TRACE_UDP`: the type, the code behind it, and the eleventh short from icmp_ip on, which is
    at 8. -/
def judgeUdp (port : UInt16) (ic : Nat) : Judgement :=
  if mem ic ≠ ICMP_TIME_EXCEEDED ∧ mem ic ≠ ICMP_DEST_UNREACH then ⟨none, [ic]⟩
  else if mem ic = ICMP_DEST_UNREACH ∧ mem (ic + 1) ≠ ICMP_PORT_UNREACH then ⟨none, [ic, ic + 1]⟩
  else
    let code := if mem ic = ICMP_DEST_UNREACH then [ic + 1] else []
    ⟨if portAt mem (ic + 30) ≠ port then none else some (mem (ic + 1) = ICMP_PORT_UNREACH), ic :: code ++ [ic + 30, ic + 31]⟩

/-- `case TRACE_ICMP`: icmp_seq at 6 and icmp_id at 4 of a reply; else the shorts 12 and 13 from
    icmp_ip on. -/
def judgeIcmp (dest : Address) (ic : Nat) : Judgement :=
  let stop := decide (addressAt mem 12 = dest)
  if mem ic ≠ ICMP_TIME_EXCEEDED ∧ mem ic ≠ ICMP_ECHOREPLY then ⟨none, [ic]⟩
  else if mem ic = ICMP_ECHOREPLY then
    if shortAt mem (ic + 6) ≠ pid then ⟨none, [ic, ic + 6, ic + 7]⟩
    else ⟨if shortAt mem (ic + 4) ≠ pid then none else some stop, [ic, ic + 6, ic + 7, ic + 4, ic + 5]⟩
  else
    if shortAt mem (ic + 32) ≠ pid then ⟨none, [ic, ic + 32, ic + 33]⟩
    else ⟨if shortAt mem (ic + 34) ≠ pid then none else some stop, [ic, ic + 32, ic + 33, ic + 34, ic + 35]⟩

def judge (dest : Address) (t : Trace) (ic : Nat) : Judgement :=
  match t.type with
  | .udp => judgeUdp mem t.port ic
  | .icmp => judgeIcmp mem dest ic

/-- trace_read, once recvfrom has put its bytes into data. -/
def traceRead (dest : Address) (t : Trace) : Except Fault Judgement :=
  match icmpGenericDecode (slice mem 0 DATA_SIZE) with
  | none => .error .cksum
  | some d =>
    match d.icmp with
    | none => .error .unset
    | some ic => .ok (judge (store mem 0 d.buffer) dest t ic)

/-- What recvfrom gives of a datagram. -/
def received (datagram : List UInt8) : List UInt8 := datagram.take DATA_SIZE

/-! ## What it is to do -/

/-- The pointers have been set, and each byte that is examined has been received. -/
def Judges (len : Nat) (r : Except Fault Judgement) : Prop := Returns (fun j => ∀ i ∈ j.examined, i < len) r

instance (len : Nat) (r : Except Fault Judgement) : Decidable (Judges len r) :=
  match r with
  | .ok j => inferInstanceAs (Decidable (∀ i ∈ j.examined, i < len))
  | .error _ => inferInstanceAs (Decidable False)

/-- The ICMP message of these bytes, from `ic` on, is long enough for its type. -/
def Enough (type : TraceType) (bytes : List UInt8) (ic : Nat) : Prop :=
  match type with
  | .udp =>
    (bytes.getD ic 0 ≠ ICMP_TIME_EXCEEDED ∧ bytes.getD ic 0 ≠ ICMP_DEST_UNREACH) ∨
    (bytes.getD ic 0 = ICMP_DEST_UNREACH ∧ ic + 2 ≤ bytes.length ∧ bytes.getD (ic + 1) 0 ≠ ICMP_PORT_UNREACH) ∨
    ic + 32 ≤ bytes.length
  | .icmp =>
    (bytes.getD ic 0 ≠ ICMP_TIME_EXCEEDED ∧ bytes.getD ic 0 ≠ ICMP_ECHOREPLY) ∨
    (bytes.getD ic 0 = ICMP_ECHOREPLY ∧ ic + 8 ≤ bytes.length) ∨
    (bytes.getD ic 0 = ICMP_TIME_EXCEEDED ∧ ic + 34 ≤ bytes.length ∧ getShort bytes (ic + 32) ≠ pid) ∨
    ic + 36 ≤ bytes.length

instance (type : TraceType) (bytes : List UInt8) (ic : Nat) : Decidable (Enough type bytes ic) :=
  match type with
  | .udp => inferInstanceAs (Decidable (_ ∨ _))
  | .icmp => inferInstanceAs (Decidable (_ ∨ _))

/-! ## The message -/

/-- What the memory is as a message. -/
def message (ic : Nat) : Message where
  ip_src := addressAt mem 12
  icmp_type := mem ic
  icmp_code := mem (ic + 1)
  icmp_id := shortAt mem (ic + 4)
  icmp_seq := shortAt mem (ic + 6)
  word11 := portAt mem (ic + 30)
  word12 := shortAt mem (ic + 32)
  word13 := shortAt mem (ic + 34)

theorem reply_ne_exceeded : ICMP_ECHOREPLY ≠ ICMP_TIME_EXCEEDED := by decide

/-- Nothing else counts. -/
theorem rc_judge (dest : Address) (t : Trace) (ic : Nat) :
    (judge mem dest t ic).rc = Traceroute.traceRead dest t (message mem ic) := by
  unfold judge Traceroute.traceRead
  cases t.type with
  | udp =>
    simp only [judgeUdp]
    by_cases htype : mem ic ≠ ICMP_TIME_EXCEEDED ∧ mem ic ≠ ICMP_DEST_UNREACH
    · rw [if_pos htype]
      exact (if_pos (.inl htype)).symm
    · by_cases hcode : mem ic = ICMP_DEST_UNREACH ∧ mem (ic + 1) ≠ ICMP_PORT_UNREACH
      · rw [if_neg htype, if_pos hcode]
        exact (if_pos (.inr hcode)).symm
      · rw [if_neg htype, if_neg hcode]
        refine Eq.trans ?_ (if_neg (not_or.mpr ⟨htype, hcode⟩)).symm
        rfl
  | icmp =>
    simp only [judgeIcmp]
    by_cases htype : mem ic ≠ ICMP_TIME_EXCEEDED ∧ mem ic ≠ ICMP_ECHOREPLY
    · rw [if_pos htype]
      exact (if_pos htype).symm
    · rw [if_neg htype]
      refine Eq.trans ?_ (if_neg htype).symm
      by_cases hreply : mem ic = ICMP_ECHOREPLY
      · rw [if_pos hreply]
        have hnot : ¬ ((message mem ic).icmp_type = ICMP_TIME_EXCEEDED ∧
            ((message mem ic).word12 ≠ pid ∨ (message mem ic).word13 ≠ pid)) :=
          fun h => reply_ne_exceeded (hreply.symm.trans h.1)
        rw [if_neg hnot]
        by_cases hseq : shortAt mem (ic + 6) ≠ pid
        · rw [if_pos hseq]
          exact (if_pos ⟨hreply, .inl hseq⟩).symm
        · rw [if_neg hseq]
          by_cases hid : shortAt mem (ic + 4) ≠ pid
          · exact (if_pos hid).trans (if_pos ⟨hreply, .inr hid⟩).symm
          · exact (if_neg hid).trans (if_neg fun h => h.2.elim hseq hid).symm
      · have hexceeded : mem ic = ICMP_TIME_EXCEEDED := not_not.mp fun hne => htype ⟨hne, hreply⟩
        rw [if_neg hreply]
        refine Eq.trans ?_ (if_neg fun h => hreply h.1).symm
        by_cases hseq : shortAt mem (ic + 32) ≠ pid
        · rw [if_pos hseq]
          exact (if_pos ⟨hexceeded, .inl hseq⟩).symm
        · rw [if_neg hseq]
          by_cases hid : shortAt mem (ic + 34) ≠ pid
          · exact (if_pos hid).trans (if_pos ⟨hexceeded, .inr hid⟩).symm
          · exact (if_neg hid).trans (if_neg fun h => h.2.elim hseq hid).symm

/-! ## The decoder -/

variable {mem}

theorem store_slice (n k : Nat) : store mem 0 (slice mem 0 n) k = mem k := by
  unfold store slice
  by_cases hk : k < n <;> simp [hk]

theorem store_putShort {i k : Nat} (n : UInt16) (l : List UInt8) (hlo : k ≠ i) (hhi : k ≠ i + 1) :
    store mem 0 (putShort i n l) k = store mem 0 l k := by
  unfold store putShort
  rw [Nat.sub_zero, List.getElem?_set_ne hhi.symm, List.getElem?_set_ne hlo.symm]

/-- Where the memory says that its ICMP header is. -/
def icmpAt (mem : Nat → UInt8) : Nat := (mem 0 &&& 0x0f).toNat <<< 2

theorem decode_unset (h : 48 < icmpAt mem) : ∃ d, icmpGenericDecode (slice mem 0 DATA_SIZE) = some d ∧ d.icmp = none := by
  refine ⟨⟨-1, none, slice mem 0 DATA_SIZE⟩, ?_, rfl⟩
  rw [icmpGenericDecode]
  apply if_pos
  rw [length_slice]
  show DATA_SIZE - 0 < icmpAt mem + ICMP_MINLEN
  rw [DATA_SIZE, ICMP_MINLEN]
  omega

/-- The decoder changes the checksum only. -/
theorem decode_set (h : icmpAt mem ≤ 48) : ∃ d, icmpGenericDecode (slice mem 0 DATA_SIZE) = some d ∧
    d.icmp = some (icmpAt mem) ∧ ∀ k, k ≠ icmpAt mem + 2 → k ≠ icmpAt mem + 3 → store mem 0 d.buffer k = mem k := by
  have hroom : ¬ (slice mem 0 DATA_SIZE).length < icmpAt mem + ICMP_MINLEN := by
    rw [length_slice, DATA_SIZE, ICMP_MINLEN]
    omega
  have hsum := @icmpCksum_eq ((putShort (icmpAt mem + 2) 0 (slice mem 0 DATA_SIZE)).drop (icmpAt mem))
    (by rw [List.length_drop, length_putShort, length_slice, DATA_SIZE]; omega)
  refine ⟨_, (if_neg hroom).trans (congrArg (Option.map _) hsum), rfl, fun k hlo hhi => ?_⟩
  exact (store_putShort _ _ hlo hhi).trans ((store_putShort _ _ hlo hhi).trans (store_slice _ k))

/-! ## What is examined -/

section Examined

variable {bytes : List UInt8} {ic : Nat}

theorem shortAt_eq (hmem : ∀ k < bytes.length, k ≠ ic + 2 → k ≠ ic + 3 → mem k = bytes.getD k 0) {i : Nat}
    (hi : ic + i + 1 < bytes.length) (h4 : 4 ≤ i) : shortAt mem (ic + i) = getShort bytes (ic + i) := by
  rw [shortAt, getShort, hmem (ic + i) (by omega) (by omega) (by omega), hmem (ic + i + 1) hi (by omega) (by omega)]

theorem mem_judgeUdp (port : UInt16) (ic : Nat) : ic ∈ (judgeUdp mem port ic).examined := by
  unfold judgeUdp
  split
  · exact List.mem_cons_self
  · split <;> exact List.mem_cons_self

theorem mem_judgeIcmp (dest : Address) (ic : Nat) : ic ∈ (judgeIcmp mem dest ic).examined := by
  unfold judgeIcmp
  simp only
  split
  · exact List.mem_cons_self
  · split <;> split <;> exact List.mem_cons_self

theorem judgeUdp_iff (port : UInt16) (hmem : ∀ k < bytes.length, k ≠ ic + 2 → k ≠ ic + 3 → mem k = bytes.getD k 0) :
    (∀ i ∈ (judgeUdp mem port ic).examined, i < bytes.length) ↔ ic < bytes.length ∧ Enough .udp bytes ic := by
  by_cases hic : ic < bytes.length
  · have htype := hmem ic hic (by omega) (by omega)
    rw [and_iff_right hic, Enough, ← htype, judgeUdp]
    by_cases hother : mem ic ≠ ICMP_TIME_EXCEEDED ∧ mem ic ≠ ICMP_DEST_UNREACH
    · rw [if_pos hother]
      exact iff_of_true (by simpa using hic) (.inl hother)
    rw [if_neg hother, or_iff_right hother]
    by_cases hunreach : mem ic = ICMP_DEST_UNREACH
    · by_cases hlen : ic + 1 < bytes.length
      · have hcode := hmem (ic + 1) hlen (by omega) (by omega)
        rw [← hcode]
        by_cases hport : mem (ic + 1) ≠ ICMP_PORT_UNREACH
        · rw [if_pos ⟨hunreach, hport⟩]
          exact iff_of_true (by simpa using ⟨hic, hlen⟩) (.inl ⟨hunreach, hlen, hport⟩)
        · rw [if_neg fun h => hport h.2, or_iff_right fun h => hport h.2.2]
          simp only [if_pos hunreach, List.cons_append, List.nil_append, List.forall_mem_cons]
          exact ⟨fun h => h.2.2.2.1, fun h => ⟨by omega, by omega, by omega, by omega, nofun⟩⟩
      · -- the code, too, is examined
        have hcode : ic + 1 ∈ (judgeUdp mem port ic).examined := by
          rw [judgeUdp, if_neg hother, if_pos hunreach]
          split <;> simp
        rw [judgeUdp, if_neg hother] at hcode
        refine iff_of_false (fun h => hlen (h _ hcode)) ?_
        omega
    · rw [if_neg fun h => hunreach h.1, or_iff_right fun h => hunreach h.1]
      simp only [if_neg hunreach, List.cons_append, List.nil_append, List.forall_mem_cons]
      exact ⟨fun h => h.2.2.1, fun h => ⟨by omega, by omega, by omega, nofun⟩⟩
  · exact iff_of_false (fun h => hic (h ic (mem_judgeUdp port ic))) fun h => hic h.1

theorem judgeIcmp_iff (dest : Address) (hmem : ∀ k < bytes.length, k ≠ ic + 2 → k ≠ ic + 3 → mem k = bytes.getD k 0) :
    (∀ i ∈ (judgeIcmp mem dest ic).examined, i < bytes.length) ↔ ic < bytes.length ∧ Enough .icmp bytes ic := by
  by_cases hic : ic < bytes.length
  · have htype := hmem ic hic (by omega) (by omega)
    rw [and_iff_right hic, Enough, ← htype, judgeIcmp]
    by_cases hother : mem ic ≠ ICMP_TIME_EXCEEDED ∧ mem ic ≠ ICMP_ECHOREPLY
    · rw [if_pos hother]
      exact iff_of_true (by simpa using hic) (.inl hother)
    simp only [if_neg hother]
    rw [or_iff_right hother]
    by_cases hreply : mem ic = ICMP_ECHOREPLY
    · have hnot : ¬ mem ic = ICMP_TIME_EXCEEDED := fun h => reply_ne_exceeded (hreply.symm.trans h)
      rw [if_pos hreply, or_iff_right (a := _ ∧ _ ∧ _) fun h => hnot h.1]
      have hlen : (mem ic = ICMP_ECHOREPLY ∧ ic + 8 ≤ bytes.length) ∨ ic + 36 ≤ bytes.length ↔ ic + 8 ≤ bytes.length :=
        ⟨fun h => h.elim And.right fun h => by omega, fun h => .inl ⟨hreply, h⟩⟩
      rw [hlen]
      split
      · simp only [List.forall_mem_cons]
        exact ⟨fun h => h.2.2.1, fun h => ⟨by omega, by omega, by omega, nofun⟩⟩
      · simp only [List.forall_mem_cons]
        exact ⟨fun h => h.2.2.1, fun h => ⟨by omega, by omega, by omega, by omega, by omega, nofun⟩⟩
    · have hexceeded : mem ic = ICMP_TIME_EXCEEDED := not_not.mp fun hne => hother ⟨hne, hreply⟩
      rw [if_neg hreply, or_iff_right fun h => hreply h.1, and_iff_right hexceeded]
      by_cases hlen : ic + 34 ≤ bytes.length
      · rw [and_iff_right hlen, ← shortAt_eq hmem (by omega) (by omega)]
        by_cases hseq : shortAt mem (ic + 32) ≠ pid
        · rw [if_pos hseq]
          exact iff_of_true (by simpa using ⟨hic, by omega, by omega⟩) (.inl hseq)
        · rw [if_neg hseq, or_iff_right hseq]
          simp only [List.forall_mem_cons]
          exact ⟨fun h => h.2.2.2.2.1, fun h => ⟨by omega, by omega, by omega, by omega, by omega, nofun⟩⟩
      · refine iff_of_false (fun h => hlen ?_) (by omega)
        apply h (ic + 33)
        split <;> simp
  · exact iff_of_false (fun h => hic (h ic (mem_judgeIcmp dest ic))) fun h => hic h.1

theorem judge_iff (dest : Address) (t : Trace) (hmem : ∀ k < bytes.length, k ≠ ic + 2 → k ≠ ic + 3 → mem k = bytes.getD k 0) :
    (∀ i ∈ (judge mem dest t ic).examined, i < bytes.length) ↔ ic < bytes.length ∧ Enough t.type bytes ic := by
  unfold judge
  cases t.type with
  | udp => exact judgeUdp_iff t.port hmem
  | icmp => exact judgeIcmp_iff dest hmem

end Examined

theorem store_getD {bytes : List UInt8} {data : Nat → UInt8} {k : Nat} (hk : k < bytes.length) :
    store data 0 bytes k = bytes.getD k 0 := by
  unfold store
  simp [hk]

theorem icmpAt_store {bytes : List UInt8} {data : Nat → UInt8} (h : bytes ≠ []) :
    icmpAt (store data 0 bytes) = ipHl bytes <<< 2 := by
  obtain ⟨b, l, rfl⟩ := List.exists_cons_of_ne_nil h
  rfl

/-- Whatever the memory held before: the datagram is judged by bytes that have come if and only if
    its header length leaves room for an ICMP header in the 56 bytes, and it is long enough for
    what its type makes of it. -/
theorem judges_iff (dest : Address) (t : Trace) (datagram : List UInt8) (data : Nat → UInt8) :
    Judges (received datagram).length (traceRead (store data 0 (received datagram)) dest t) ↔
      ipHl (received datagram) <<< 2 ≤ 48 ∧ ipHl (received datagram) <<< 2 < (received datagram).length ∧
        Enough t.type (received datagram) (ipHl (received datagram) <<< 2) := by
  generalize received datagram = bytes
  generalize hmem : store data 0 bytes = mem
  have hbytes : ∀ k < bytes.length, mem k = bytes.getD k 0 := fun k hk => hmem ▸ store_getD hk
  -- in terms of the memory, whether or not anything has come
  have hread : Judges bytes.length (traceRead mem dest t) ↔
      icmpAt mem ≤ 48 ∧ icmpAt mem < bytes.length ∧ Enough t.type bytes (icmpAt mem) := by
    unfold traceRead
    by_cases hroom : icmpAt mem ≤ 48
    · obtain ⟨d, hd, hicmp, hkeep⟩ := decode_set hroom
      simp only [hd, hicmp]
      rw [and_iff_right hroom, Judges, returns_ok]
      exact judge_iff dest t fun k hk hlo hhi => (hkeep k hlo hhi).trans (hbytes k hk)
    · obtain ⟨d, hd, hicmp⟩ := @decode_unset mem (by omega)
      simp only [hd, hicmp]
      exact iff_of_false id fun h => hroom h.1
  rw [hread]
  by_cases hnil : bytes = []
  · subst hnil
    exact iff_of_false (fun h => absurd h.2.1 (Nat.not_lt_zero _)) fun h => absurd h.2.1 (Nat.not_lt_zero _)
  · rw [← hmem, icmpAt_store hnil]

/-- What was in the memory: the octets of a port. -/
def stale : Nat → UInt8 := store (fun _ => 0) 50 [0x82, 0x9a]

def port33434 : Trace := ⟨.udp, 33434, 1⟩

/-- A "time exceeded" of eight bytes that quotes nothing, which is taken for an answer by what the
    memory held; a header length of thirteen words. -/
theorem judges_what_was_there :
    traceRead (store stale 0 (received (0x45 :: List.replicate 19 0 ++ [11, 0, 0, 0, 0, 0, 0, 0]))) 0 port33434 =
      .ok ⟨some false, [20, 50, 51]⟩ ∧
    ¬ Judges 28 (traceRead (store stale 0 (received (0x45 :: List.replicate 19 0 ++ [11, 0, 0, 0, 0, 0, 0, 0]))) 0 port33434) ∧
    traceRead (store stale 0 (received (0x4d :: List.replicate 55 0))) 0 port33434 = .error .unset := by
  decide +kernel

end Netutils.Traceroute.Read
