/-
  Netutils.Libinetutils.DesRw — the encrypted byte stream of rlogin and rsh (des_read and
  des_write of libinetutils/des_rw.c), with des_pcbc_encrypt as a parameter.

  A write is a record: its length, and its bytes encrypted, those of a short one at the end
  of a block. des_read gets one record, and keeps what its buffer has no room for in
  storage, but the count of what is kept there, nstored, is a local variable that every call
  starts at zero. So the rest of a record that is longer than the buffer is lost, and the
  stream loses nothing exactly where no record is (`stream_lossless_iff`).
-/

import Mathlib.Algebra.Group.Nat.Defs
import Mathlib.Data.List.Basic

namespace Netutils.Libinetutils

/-! ## Records -/

def roundup (x y : Nat) : Nat := (x + (y - 1)) / y * y

def sizeofLong : Nat := 8

/-- `sizeof (des_inbuf)` -/
def sizeofDesInbuf : Nat := 10240

/-- A long that htonl has been assigned to, as it lies in memory: four bytes in network
    order, and the upper half. -/
def htonl (n : Nat) : List UInt8 :=
  [UInt8.ofNat (n / 2 ^ 24), UInt8.ofNat (n / 2 ^ 16), UInt8.ofNat (n / 2 ^ 8), UInt8.ofNat n, 0, 0, 0, 0]

/-- ntohl, which takes the lower half. -/
def ntohl (l : List UInt8) : Nat := (l.take 4).foldl (fun n c => n * 256 + c.toNat) 0

/-- des_pcbc_encrypt with the key and its schedule: ENCRYPT on a text, DECRYPT on as many
    bytes of one. -/
structure Pcbc where
  encrypt : List UInt8 → List UInt8
  decrypt : List UInt8 → Nat → List UInt8

/-- Whole blocks come of either, and in DECRYPT mode it undoes ENCRYPT block by block. -/
structure Pcbc.Undoes (P : Pcbc) : Prop where
  length : ∀ l, (P.encrypt l).length = roundup l.length 8
  undoes : ∀ l n, roundup n 8 = roundup l.length 8 → l <+: P.decrypt (P.encrypt l) n

/-- A call of des_write, with the random () it puts in front of a short text. -/
structure Write where
  buf : List UInt8
  garbage : Vector UInt8 8

/-- garbage_buf: "right-justifies the data in the buffer" -/
def Write.garbageBuf (w : Write) : List UInt8 := w.garbage.toList.take (8 - w.buf.length) ++ w.buf

/-- What des_write puts on the wire. -/
def desWrite (P : Pcbc) (w : Write) : List UInt8 :=
  htonl w.buf.length ++ P.encrypt (if w.buf.length < 8 then w.garbageBuf else w.buf)

/-- What the stream still brings, and what lies in storage from store_ptr on. -/
structure Reader where
  wire : List UInt8
  store : List UInt8

def krbNetRead (wire : List UInt8) (n : Nat) : Option (List UInt8 × List UInt8) :=
  if n ≤ wire.length then some (wire.take n, wire.drop n) else none

/-- des_read: what it puts into buf. -/
def desRead (P : Pcbc) (s : Reader) (len : Nat) : List UInt8 × Reader :=
  let nstored := 0
  if nstored ≥ len then (s.store.take len, { s with store := s.store.drop len })
  else
    let buf := s.store.take nstored
    let len := len - nstored
    match krbNetRead s.wire sizeofLong with
    | none => ([], s)
    | some (l, wire) =>
      let netLen := ntohl l
      if netLen = 0 ∨ netLen > sizeofDesInbuf then ([], { s with wire := wire })
      else
        match krbNetRead wire (roundup netLen 8) with
        | none => ([], { s with wire := wire })
        | some (inbuf, wire) =>
          let storage := P.decrypt inbuf netLen
          let store := if netLen < 8 then storage.drop (8 - netLen) else storage
          let nstored := netLen
          if nstored > len then (buf ++ store.take len, ⟨wire, store.drop len⟩)
          else (buf ++ store.take nstored, ⟨wire, store⟩)

/-- des_read again and again: all that it returns. -/
def desReads (P : Pcbc) : Reader → List Nat → List UInt8
  | _, [] => []
  | s, len :: lens => (desRead P s len).1 ++ desReads P (desRead P s len).2 lens

/-! ## A record -/

theorem le_roundup (n : Nat) : n ≤ roundup n 8 := by
  unfold roundup
  omega

theorem roundup_short {n : Nat} (h0 : 0 < n) (h : n < 8) : roundup n 8 = 8 := by
  unfold roundup
  omega

theorem length_htonl (n : Nat) : (htonl n).length = sizeofLong := rfl

theorem ntohl_htonl {n : Nat} (h : n < 2 ^ 32) : ntohl (htonl n) = n := by
  simp [ntohl, htonl]
  omega

theorem krbNetRead_append {l rest : List UInt8} {n : Nat} (h : l.length = n) :
    krbNetRead (l ++ rest) n = some (l, rest) := by
  rw [krbNetRead, if_pos (by rw [List.length_append]; omega), List.take_left' h, List.drop_left' h]

variable {P : Pcbc}

theorem length_garbage {w : Write} (h : w.buf.length < 8) :
    (w.garbage.toList.take (8 - w.buf.length)).length = 8 - w.buf.length := by
  rw [List.length_take, Vector.length_toList]
  omega

theorem length_encrypted (hP : P.Undoes) {w : Write} (h0 : 0 < w.buf.length) :
    (P.encrypt (if w.buf.length < 8 then w.garbageBuf else w.buf)).length = roundup w.buf.length 8 := by
  rw [hP.length]
  by_cases h : w.buf.length < 8
  · have hg := length_garbage h
    rw [if_pos h, Write.garbageBuf, List.length_append, hg, roundup_short h0 h,
      show 8 - w.buf.length + w.buf.length = 8 by omega]
    rfl
  · rw [if_neg h]

/-- Decrypted, the bytes of a short record stand at the end of its block. -/
theorem decrypted (hP : P.Undoes) {w : Write} (h0 : 0 < w.buf.length) :
    let storage := P.decrypt (P.encrypt (if w.buf.length < 8 then w.garbageBuf else w.buf)) w.buf.length
    w.buf <+: if w.buf.length < 8 then storage.drop (8 - w.buf.length) else storage := by
  by_cases h : w.buf.length < 8
  · have hg := length_garbage h
    have hblock : roundup w.buf.length 8 = roundup w.garbageBuf.length 8 := by
      rw [Write.garbageBuf, List.length_append, hg, roundup_short h0 h,
        show 8 - w.buf.length + w.buf.length = 8 by omega]
      rfl
    obtain ⟨tail, ht⟩ := hP.undoes w.garbageBuf w.buf.length hblock
    simp only [if_pos h]
    rw [← ht, Write.garbageBuf, List.append_assoc, List.drop_left' hg]
    exact List.prefix_append _ _
  · simp only [if_neg h]
    exact hP.undoes w.buf w.buf.length rfl

/-- A read returns what its buffer has room for of one record, and the rest is gone from the
    wire. -/
theorem desRead_record (hP : P.Undoes) {w : Write} (h0 : 0 < w.buf.length) (hmax : w.buf.length ≤ sizeofDesInbuf)
    {len : Nat} (hlen : 0 < len) (rest store : List UInt8) :
    ∃ store', desRead P ⟨desWrite P w ++ rest, store⟩ len = (w.buf.take len, ⟨rest, store'⟩) := by
  have hbound : sizeofDesInbuf < 2 ^ 32 := by decide
  have hhead : krbNetRead (desWrite P w ++ rest) sizeofLong =
      some (htonl w.buf.length, P.encrypt (if w.buf.length < 8 then w.garbageBuf else w.buf) ++ rest) := by
    rw [desWrite, List.append_assoc]
    exact krbNetRead_append (length_htonl _)
  have hbody : krbNetRead (P.encrypt (if w.buf.length < 8 then w.garbageBuf else w.buf) ++ rest) _ = _ :=
    krbNetRead_append (length_encrypted hP h0)
  have hnet : ntohl (htonl w.buf.length) = w.buf.length := ntohl_htonl (by omega)
  obtain ⟨tail, htail⟩ := decrypted hP h0
  simp only [desRead, hhead, hnet, hbody, if_neg (show ¬ 0 ≥ len by omega), Nat.sub_zero, List.take_zero,
    List.nil_append, if_neg (show ¬ (w.buf.length = 0 ∨ w.buf.length > sizeofDesInbuf) by omega)]
  rw [← htail]
  by_cases hlong : w.buf.length > len
  · rw [if_pos hlong, List.take_append_of_le_length (by omega)]
    exact ⟨_, rfl⟩
  · rw [if_neg hlong, List.take_left, List.take_of_length_le (by omega)]
    exact ⟨_, rfl⟩

theorem desRead_empty (len : Nat) (store : List UInt8) (h : 0 < len) : desRead P ⟨[], store⟩ len = ([], ⟨[], store⟩) := by
  simp [desRead, krbNetRead, sizeofLong]
  omega

/-! ## The stream -/

/-- All that the writes put on the wire. -/
def wire (P : Pcbc) (ws : List Write) : List UInt8 := ws.flatMap (desWrite P)

def written (ws : List Write) : List UInt8 := ws.flatMap Write.buf

/-- A length between 1 and 10240. -/
def Write.Fits (w : Write) : Prop := 0 < w.buf.length ∧ w.buf.length ≤ sizeofDesInbuf

theorem desReads_empty {lens : List Nat} (hlens : ∀ k ∈ lens, 0 < k) (store : List UInt8) :
    desReads P ⟨[], store⟩ lens = [] := by
  induction lens with
  | nil => rfl
  | cons k lens ih =>
    rw [desReads, desRead_empty k store (hlens k List.mem_cons_self)]
    exact ih fun x hx => hlens x (List.mem_cons_of_mem _ hx)

/-- Read by read, the beginnings of the records. -/
theorem desReads_wire (hP : P.Undoes) {ws : List Write} (hws : ∀ w ∈ ws, w.Fits) {lens : List Nat}
    (hlens : ∀ k ∈ lens, 0 < k) (store : List UInt8) :
    desReads P ⟨wire P ws, store⟩ lens = (List.zipWith (fun w k => w.buf.take k) ws lens).flatten := by
  induction ws generalizing lens store with
  | nil => exact desReads_empty hlens store
  | cons w ws ih =>
    rcases lens with _ | ⟨k, lens⟩
    · rfl
    obtain ⟨h0, hmax⟩ := hws w List.mem_cons_self
    obtain ⟨store', hread⟩ := desRead_record hP h0 hmax (hlens k List.mem_cons_self) (wire P ws) store
    have hwire : wire P (w :: ws) = desWrite P w ++ wire P ws := rfl
    rw [hwire, desReads, hread, List.zipWith_cons_cons, List.flatten_cons]
    rw [ih (fun x hx => hws x (List.mem_cons_of_mem _ hx)) (fun x hx => hlens x (List.mem_cons_of_mem _ hx))]

/-- What is returned is no longer than what was written, and as long only if every record
    was read into a buffer that holds it. -/
theorem length_taken {ws : List Write} (hws : ∀ w ∈ ws, w.Fits) (lens : List Nat) :
    (List.zipWith (fun w k => w.buf.take k) ws lens).flatten.length ≤ (written ws).length ∧
      ((List.zipWith (fun w k => w.buf.take k) ws lens).flatten.length = (written ws).length →
        ∀ i (h : i < ws.length), ∃ k, lens[i]? = some k ∧ ws[i].buf.length ≤ k) := by
  induction ws generalizing lens with
  | nil => exact ⟨Nat.le_refl _, fun _ i h => absurd h (Nat.not_lt_zero i)⟩
  | cons w ws ih =>
    obtain ⟨h0, -⟩ := hws w List.mem_cons_self
    have hall : (written (w :: ws)).length = w.buf.length + (written ws).length := by
      rw [written, List.flatMap_cons, List.length_append]
      rfl
    rw [hall]
    rcases lens with _ | ⟨k, lens⟩
    · refine ⟨Nat.zero_le _, fun he => ?_⟩
      simp only [List.zipWith_nil_right, List.flatten_nil, List.length_nil] at he
      omega
    obtain ⟨hle, hex⟩ := ih (fun x hx => hws x (List.mem_cons_of_mem _ hx)) lens
    rw [List.zipWith_cons_cons, List.flatten_cons, List.length_append, List.length_take]
    refine ⟨by omega, fun he i hi => ?_⟩
    rcases i with _ | i
    · exact ⟨k, rfl, by simp only [List.getElem_cons_zero]; omega⟩
    · exact hex (by omega) i (Nat.lt_of_succ_lt_succ hi)

/-- The first `n` of the reads. -/
def returned (P : Pcbc) (ws : List Write) (r : Nat → Nat) (n : Nat) : List UInt8 :=
  desReads P ⟨wire P ws, []⟩ ((List.range n).map r)

/-- What is returned is a prefix of what was written, and in the end all of it. -/
def Lossless (P : Pcbc) (ws : List Write) (r : Nat → Nat) : Prop :=
  (∀ n, returned P ws r n <+: written ws) ∧ ∃ n, returned P ws r n = written ws

theorem taken_all {ws : List Write} {r : Nat → Nat} (h : ∀ i (h : i < ws.length), ws[i].buf.length ≤ r i) (n : Nat) :
    (List.zipWith (fun w k => w.buf.take k) ws ((List.range n).map r)).flatten = written (ws.take n) := by
  rw [written, List.flatMap_def]
  congr 1
  apply List.ext_getElem
  · simp [Nat.min_comm]
  · intro i hi hi'
    simp only [List.length_zipWith, List.length_map, List.length_range] at hi
    simp only [List.getElem_zipWith, List.getElem_map, List.getElem_range, List.getElem_take]
    exact List.take_of_length_le (h i (by omega))

theorem returned_eq (hP : P.Undoes) {ws : List Write} (hws : ∀ w ∈ ws, w.Fits) {r : Nat → Nat} (hr : ∀ i, 0 < r i)
    (n : Nat) : returned P ws r n = (List.zipWith (fun w k => w.buf.take k) ws ((List.range n).map r)).flatten := by
  refine desReads_wire hP hws ?_ []
  intro k hk
  obtain ⟨i, -, rfl⟩ := List.mem_map.mp hk
  exact hr i

theorem fits_of_lossless (hP : P.Undoes) {ws : List Write} (hws : ∀ w ∈ ws, w.Fits) {r : Nat → Nat} (hr : ∀ i, 0 < r i)
    (h : Lossless P ws r) : ∀ i (h : i < ws.length), ws[i].buf.length ≤ r i := by
  intro i hi
  obtain ⟨-, n, hall⟩ := h
  rw [returned_eq hP hws hr] at hall
  obtain ⟨k, hk, hle⟩ := (length_taken hws _).2 (congrArg List.length hall) i hi
  obtain ⟨_, hget⟩ := List.getElem?_eq_some_iff.mp hk
  rw [List.getElem_map, List.getElem_range] at hget
  rwa [hget]

/-- The stream loses nothing exactly where every record is read into a buffer that holds it. -/
theorem stream_lossless_iff (hP : P.Undoes) {ws : List Write} (hws : ∀ w ∈ ws, w.Fits) {r : Nat → Nat}
    (hr : ∀ i, 0 < r i) : Lossless P ws r ↔ ∀ i (h : i < ws.length), ws[i].buf.length ≤ r i := by
  refine ⟨fits_of_lossless hP hws hr, ?_⟩
  intro hfit
  have hsplit : ∀ n, written ws = written (ws.take n) ++ written (ws.drop n) := by
    intro n
    rw [written, written, written, ← List.flatMap_append, List.take_append_drop]
  refine ⟨fun n => ?_, ws.length, ?_⟩
  · rw [returned_eq hP hws hr, taken_all hfit, hsplit n]
    exact List.prefix_append _ _
  · rw [returned_eq hP hws hr, taken_all hfit, List.take_length]

/-! ## A block of DES -/

/-- A block, and what PCBC makes of it with 133457799BBCDFF1 for the key and the vector. -/
def plainBlock : List UInt8 := [0x12, 0x17, 0x12, 0x1e, 0x12, 0x17, 0x12, 0x1e]
def cipherBlock : List UInt8 := [0x85, 0xe8, 0x13, 0x54, 0x0f, 0x0a, 0xb4, 0x05]

def pad (l : List UInt8) : List UInt8 := l ++ List.replicate (roundup l.length 8 - l.length) 0

/-- DES on these two blocks, other texts being left as they are. -/
def knownBlock : Pcbc where
  encrypt l := if l = plainBlock then cipherBlock else if l = cipherBlock then plainBlock else pad l
  decrypt l _ := if l = cipherBlock then plainBlock else if l = plainBlock then cipherBlock else l

theorem eq_of_pad {l b : List UInt8} {c : UInt8} (h : pad l = b ++ [c]) (hc : c ≠ 0) : l = b ++ [c] := by
  unfold pad at h
  rcases hk : roundup l.length 8 - l.length with _ | k
  · rwa [hk, List.replicate_zero, List.append_nil] at h
  · rw [hk, List.replicate_succ', ← List.append_assoc] at h
    have := List.singleton_inj.mp (List.append_inj_right' h rfl)
    exact absurd this.symm hc

theorem knownBlock_undoes : knownBlock.Undoes where
  length l := by
    by_cases h1 : l = plainBlock
    · subst h1
      rfl
    by_cases h2 : l = cipherBlock
    · subst h2
      rfl
    have hle := le_roundup l.length
    simp only [knownBlock, if_neg h1, if_neg h2, pad, List.length_append, List.length_replicate]
    omega
  undoes l n _ := by
    by_cases h1 : l = plainBlock
    · subst h1
      exact List.prefix_rfl
    by_cases h2 : l = cipherBlock
    · subst h2
      exact List.prefix_rfl
    have hp : pad l ≠ plainBlock := fun he => h1 (eq_of_pad (b := plainBlock.take 7) (c := 0x1e) he (by decide))
    have hc : pad l ≠ cipherBlock := fun he => h2 (eq_of_pad (b := cipherBlock.take 7) (c := 0x05) he (by decide))
    simp only [knownBlock, if_neg h1, if_neg h2, if_neg hp, if_neg hc]
    exact List.prefix_append _ _

def oneBlock : Write := ⟨plainBlock, Vector.replicate 8 0⟩

theorem fits_oneBlock : ∀ w ∈ [oneBlock], w.Fits := by
  intro w hw
  obtain rfl := List.mem_singleton.mp hw
  exact ⟨by decide, by decide⟩

theorem stream_lossless_in_one_read : Lossless knownBlock [oneBlock] fun _ => 8 := by
  refine (stream_lossless_iff knownBlock_undoes fits_oneBlock (fun _ => by decide)).mpr ?_
  intro i hi
  obtain rfl : i = 0 := by simpa using hi
  show plainBlock.length ≤ 8
  decide

/-- Eight bytes written, and read four at a time: the last four never come. -/
theorem rest_of_a_record_is_lost :
    returned knownBlock [oneBlock] (fun _ => 4) 3 = plainBlock.take 4 ∧ ¬ Lossless knownBlock [oneBlock] fun _ => 4 := by
  refine ⟨by decide, fun h => ?_⟩
  have := fits_of_lossless knownBlock_undoes fits_oneBlock (fun _ => by decide) h 0 (by decide)
  revert this
  decide

end Netutils.Libinetutils
