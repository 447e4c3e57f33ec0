/-
  Netutils.Libinetutils.Ttymsg — the writing loop of ttymsg (libinetutils/ttymsg.c).

  After a short write the rest of the vector is copied to the front of localiov, advanced and
  trimmed. On the next short write it is copied to the front again, from inside localiov, and
  that memcpy overlaps itself as long as fewer entries lie before iov than there are from it on.
  What is left is counted in an int.

  (1) Between two writes, what was written and what the vector still holds make the message
      (`Stands`, `turn_short`), where the copy does not overlap.
  (2) So every run is right, for the message lengths that an int holds and the buffers among
      which no short write can end where the copy overlaps, and for these only (`ttymsg_right_iff`).
-/

import Mathlib.Algebra.Group.Nat.Defs
import Mathlib.Data.List.GetD
import Mathlib.Data.List.TakeDrop
import Netutils.Lib.Faults

namespace Netutils.Libinetutils.Ttymsg

open Netutils.Lib.Faults

/-! ## The code -/

/-- A struct iovec: where in which buffer iov_base points, and iov_len. -/
structure Iovec where
  buf : Nat
  off : Int
  iov_len : BitVec 64
  deriving DecidableEq

/-- What cannot be: an entry beyond an array, a byte beyond a buffer, a memcpy of what overlaps. -/
inductive Fault where
  | index
  | buffer
  | overlap
  deriving DecidableEq

inductive Errno where
  | EWOULDBLOCK
  | ENODEV
  | EIO
  | other
  deriving DecidableEq

/-- What writev comes to: how many bytes the terminal accepts (if there are as many), or an error. -/
inductive Result where
  | accepted (n : Nat)
  | failed (e : Errno)

inductive Area where
  | caller
  | localiov
  deriving DecidableEq

structure Ptr where
  area : Area
  idx : Nat
  deriving DecidableEq

structure State where
  caller : List Iovec
  localiov : List Iovec
  iov : Ptr
  iovcnt : Int
  left : BitVec 32
  forked : Bool
  errno : Errno
  /-- The bytes that the terminal has accepted. -/
  written : List UInt8
  deriving DecidableEq

inductive Outcome where
  /-- Everything is written, as far as `left` tells. -/
  | finished
  /-- ENODEV or EIO. -/
  | gone
  /-- The parent returns; the child goes on. -/
  | handedOver
  /-- `_exit (1)`: the write would block again. -/
  | expired
  /-- An error message, or `_exit (1)` in the child. -/
  | error
  | tooMany
  deriving DecidableEq

/-- `sizeof (localiov) / sizeof (localiov[0])` -/
def LOCAL_IOVS : Nat := 6

/-- The entries for the buffers, the first of which is the i-th. -/
def iovecs : Nat → List (List UInt8) → List Iovec
  | _, [] => []
  | i, b :: bs => ⟨i, 0, BitVec.ofNat 64 b.length⟩ :: iovecs (i + 1) bs

/-- What lies from `iov` on in its array. -/
def State.entries (s : State) : List Iovec :=
  match s.iov.area with
  | .caller => s.caller.drop s.iov.idx
  | .localiov => s.localiov.drop s.iov.idx

/-- iov[0] .. iov[iovcnt - 1] -/
def State.vector (s : State) : Except Fault (List Iovec) :=
  if s.iovcnt ≤ s.entries.length then .ok (s.entries.take s.iovcnt.toNat) else .error .index

section Buffers

variable (buffers : List (List UInt8))

/-- The bytes of one entry. -/
def bytesOf (v : Iovec) : Except Fault (List UInt8) :=
  let buffer := buffers.getD v.buf []
  if 0 ≤ v.off ∧ v.off + v.iov_len.toNat ≤ buffer.length then .ok ((buffer.drop v.off.toNat).take v.iov_len.toNat)
  else .error .buffer

def gather : List Iovec → Except Fault (List UInt8)
  | [] => .ok []
  | v :: vs => do
    let bytes ← bytesOf buffers v
    let rest ← gather vs
    .ok (bytes ++ rest)

/-- `wret = writev (fd, iov, iovcnt)` -/
def writev (s : State) (r : Result) : Except Fault (BitVec 32 × State) := do
  let vector ← s.vector
  let bytes ← gather buffers vector
  match r with
  | .accepted n => .ok (BitVec.ofNat 32 (min n bytes.length), { s with written := s.written ++ bytes.take n })
  | .failed e => .ok (-1, { s with errno := e })

/-- `if (iov != localiov)`: memcpy (localiov, iov, iovcnt * sizeof (struct iovec)), and iov to it. -/
def toLocal (s : State) : Except Fault State :=
  if s.iov = ⟨.localiov, 0⟩ then .ok s
  else do
    let vector ← s.vector
    if s.iovcnt < 0 ∨ s.localiov.length < vector.length then .error .index
    else if s.iov.area = .localiov ∧ s.iov.idx < vector.length then .error .overlap
    else .ok { s with localiov := vector ++ s.localiov.drop vector.length, iov := ⟨.localiov, 0⟩ }

/-- `for (cnt = 0; wret >= (int) iov->iov_len; ++cnt)`: how far it goes, and what of wret is left. -/
def advance : List Iovec → BitVec 32 → Except Fault (Nat × BitVec 32)
  | [], _ => .error .index
  | v :: vs, wret =>
    if (v.iov_len.setWidth 32).sle wret then (fun r => (r.1 + 1, r.2)) <$> advance vs (wret - v.iov_len.setWidth 32)
    else .ok (0, wret)

/-- iov_base += wret, iov_len -= wret -/
def Iovec.trim (wret : BitVec 32) (v : Iovec) : Iovec :=
  { v with off := v.off + wret.toInt, iov_len := v.iov_len - wret.signExtend 64 }

/-- A change of `*iov`, in the array that it is in. -/
def State.setHead (s : State) (f : Iovec → Iovec) : State :=
  match s.iov.area with
  | .caller => { s with caller := s.caller.modify s.iov.idx f }
  | .localiov => { s with localiov := s.localiov.modify s.iov.idx f }

/-- `if (wret >= 0)`: the vector without what was written. -/
def consume (wret : BitVec 32) (s : State) : Except Fault State := do
  let s ← toLocal { s with left := s.left - wret }
  let (cnt, wret) ← advance s.entries wret
  let s := { s with iov := ⟨s.iov.area, s.iov.idx + cnt⟩, iovcnt := s.iovcnt - cnt }
  .ok (if wret = 0 then s else s.setHead (Iovec.trim wret))

/-- One turn of `for (;;)`. fork2, where it is called, returns `cpid`. -/
def turn (cpid : Int) (s : State) (r : Result) : Except Fault (State × Option Outcome) := do
  let (wret, s) ← writev buffers s r
  if s.left.sle wret then .ok (s, some .finished)
  else if 0 ≤ wret.toInt then do
    let s ← consume wret s
    .ok (s, none)
  else
    match s.errno with
    | .EWOULDBLOCK =>
      if s.forked then .ok (s, some .expired)
      else if cpid < 0 then .ok (s, some .error)
      else if cpid ≠ 0 then .ok (s, some .handedOver)
      else .ok ({ s with forked := true }, none)
    | .ENODEV | Errno.EIO => .ok (s, some .gone)
    | .other => .ok (s, some .error)

/-- The loop, as far as the results of writev go. -/
def loop (cpid : Int) : State → List Result → Except Fault (State × Option Outcome)
  | s, [] => .ok (s, none)
  | s, r :: rs => do
    let (s, outcome) ← turn buffers cpid s r
    match outcome with
    | none => loop cpid s rs
    | some o => .ok (s, some o)

/-- Before the loop; localiov holds whatever it does, and so does errno. -/
def start (junk : Vector Iovec LOCAL_IOVS) (errno : Errno) : State where
  caller := iovecs 0 buffers
  localiov := junk.toList
  iov := ⟨.caller, 0⟩
  iovcnt := buffers.length
  left := (iovecs 0 buffers).foldl (fun left v => left + v.iov_len.setWidth 32) 0
  forked := false
  errno := errno
  written := []

/-- ttymsg, once the terminal is open. -/
def ttymsg (junk : Vector Iovec LOCAL_IOVS) (errno : Errno) (cpid : Int) (results : List Result) :
    Except Fault (State × Option Outcome) :=
  if LOCAL_IOVS < buffers.length then .ok (start buffers junk errno, some .tooMany)
  else loop buffers cpid (start buffers junk errno) results

/-- No fault, the caller's list is as it was, and what was written at the end is the message. -/
def Right (r : Except Fault (State × Option Outcome)) : Prop :=
  Returns (fun p => p.1.caller = iovecs 0 buffers ∧ (p.2 = some .finished → p.1.written = buffers.flatten)) r

end Buffers

/-- No short write can end in a buffer e, when the vector was last copied from a buffer j on,
    with fewer entries between the two than there are from e on. -/
def Apart (lens : List Nat) : Prop :=
  ∀ e < lens.length, ∀ j < e, (j = 0 ∨ lens.getD j 0 ≠ 0 ∧ lens.length ≤ 2 * j) → lens.getD e 0 ≠ 0 →
    lens.length - e ≤ e - j

instance (lens : List Nat) : Decidable (Apart lens) := by unfold Apart; infer_instance

/-! ## The numbers, below 2 ^ 31 -/

variable {a m n : Nat}

theorem toInt_ofNat (h : m < 2 ^ 31) : (BitVec.ofNat 32 m).toInt = m := by
  rw [BitVec.toInt_eq_toNat_of_lt]
  · simp only [BitVec.toNat_ofNat]
    omega
  · simp only [BitVec.toNat_ofNat]
    omega

theorem sle_ofNat (ha : a < 2 ^ 31) (hm : m < 2 ^ 31) : (BitVec.ofNat 32 a).sle (BitVec.ofNat 32 m) ↔ a ≤ m := by
  rw [BitVec.sle_eq_decide, decide_eq_true_iff, toInt_ofNat ha, toInt_ofNat hm]
  omega

/-- `(int) iov->iov_len` -/
theorem setWidth_ofNat (a : Nat) : (BitVec.ofNat 64 a).setWidth 32 = BitVec.ofNat 32 a := by
  apply BitVec.eq_of_toNat_eq
  simp only [BitVec.toNat_setWidth, BitVec.toNat_ofNat]
  omega

theorem sub_ofNat (h : a ≤ m) : BitVec.ofNat 32 m - BitVec.ofNat 32 a = BitVec.ofNat 32 (m - a) := by
  apply BitVec.eq_of_toNat_eq
  simp only [BitVec.toNat_sub, BitVec.toNat_ofNat]
  omega

@[simp] theorem trim_zero (v : Iovec) : v.trim 0 = v := by
  simp [Iovec.trim]

/-- A trimmed entry. -/
theorem trim_ofNat {e b len r : Nat} (h : b + r ≤ len) (hlen : len < 2 ^ 31) :
    Iovec.trim (BitVec.ofNat 32 r) ⟨e, (b : Int), BitVec.ofNat 64 (len - b)⟩ =
      ⟨e, ((b + r : Nat) : Int), BitVec.ofNat 64 (len - (b + r))⟩ := by
  have hr : (BitVec.ofNat 32 r).signExtend 64 = BitVec.ofNat 64 r := by
    apply BitVec.eq_of_toInt_eq
    rw [BitVec.toInt_signExtend_of_le (by decide), toInt_ofNat (by omega), BitVec.toInt_eq_toNat_of_lt]
    · simp only [BitVec.toNat_ofNat]
      omega
    · simp only [BitVec.toNat_ofNat]
      omega
  have hlen' : BitVec.ofNat 64 (len - b) - BitVec.ofNat 64 r = BitVec.ofNat 64 (len - (b + r)) := by
    apply BitVec.eq_of_toNat_eq
    simp only [BitVec.toNat_sub, BitVec.toNat_ofNat]
    omega
  rw [Iovec.trim, toInt_ofNat (by omega), hr]
  simp [hlen']

/-! ## The vector -/

/-- The entries for `bs`, which are the buffers from the e-th on, without the first `b` bytes. -/
def vecFrom (e b : Nat) : List (List UInt8) → List Iovec
  | [] => []
  | x :: xs => ⟨e, b, BitVec.ofNat 64 (x.length - b)⟩ :: iovecs (e + 1) xs

variable {buffers bs : List (List UInt8)} {e b : Nat}

theorem iovecs_eq_vecFrom (e : Nat) (bs : List (List UInt8)) : iovecs e bs = vecFrom e 0 bs := by
  cases bs <;> rfl

theorem vecFrom_cons (e b : Nat) (x : List UInt8) (xs : List (List UInt8)) :
    vecFrom e b (x :: xs) = ⟨e, b, BitVec.ofNat 64 (x.length - b)⟩ :: vecFrom (e + 1) 0 xs := by
  rw [vecFrom, iovecs_eq_vecFrom]

@[simp] theorem length_iovecs (e : Nat) (bs : List (List UInt8)) : (iovecs e bs).length = bs.length := by
  induction bs generalizing e with
  | nil => rfl
  | cons x xs ih => simp [iovecs, ih]

@[simp] theorem length_vecFrom (e b : Nat) (bs : List (List UInt8)) : (vecFrom e b bs).length = bs.length := by
  cases bs <;> simp [vecFrom]

/-- `b` bytes of the first buffer can be left out. -/
def Within (b : Nat) (bs : List (List UInt8)) : Prop := b ≤ (bs.headD []).length

theorem bytesOf_vecFrom {x : List UInt8} {xs : List (List UInt8)} (he : buffers.drop e = x :: xs) (hb : b ≤ x.length)
    (hx : x.length < 2 ^ 64) : bytesOf buffers ⟨e, b, BitVec.ofNat 64 (x.length - b)⟩ = .ok (x.drop b) := by
  have hat : buffers[e]? = some x := by rw [← List.head?_drop, he]; rfl
  have hlen : (BitVec.ofNat 64 (x.length - b)).toNat = x.length - b := by
    simp only [BitVec.toNat_ofNat]
    omega
  have hget : buffers.getD e [] = x := by simp [List.getD, hat]
  simp only [bytesOf, hget, hlen]
  rw [if_pos (by omega), Int.toNat_natCast, List.take_of_length_le (by simp)]

theorem drop_succ {x : List UInt8} {xs : List (List UInt8)} (he : buffers.drop e = x :: xs) : buffers.drop (e + 1) = xs := by
  rw [← List.drop_drop, he]
  rfl

theorem gather_iovecs (he : buffers.drop e = bs) (hs : bs.flatten.length < 2 ^ 64) :
    gather buffers (iovecs e bs) = .ok bs.flatten := by
  induction bs generalizing e with
  | nil => rfl
  | cons x xs ih =>
    rw [List.flatten_cons, List.length_append] at hs
    have hx := bytesOf_vecFrom (b := 0) he (Nat.zero_le _) (by omega)
    have hrest := ih (drop_succ he) (by omega)
    simp only [Int.ofNat_zero, Nat.sub_zero, List.drop_zero] at hx
    simp [iovecs, gather, hx, hrest, bind, Except.bind]

/-- What the vector holds. -/
theorem gather_vecFrom (he : buffers.drop e = bs) (hb : Within b bs) (hs : bs.flatten.length < 2 ^ 64) :
    gather buffers (vecFrom e b bs) = .ok (bs.flatten.drop b) := by
  cases bs with
  | nil => simp [vecFrom, gather]
  | cons x xs =>
    rw [List.flatten_cons, List.length_append] at hs
    have hx := bytesOf_vecFrom he hb (by omega)
    have hrest := gather_iovecs (drop_succ he) (by omega)
    have hdrop : (x ++ xs.flatten).drop b = x.drop b ++ xs.flatten := List.drop_append_of_le_length hb
    simp [vecFrom, gather, hx, hrest, hdrop, bind, Except.bind]

/-- `advance` comes to the buffer that the next byte is in. -/
theorem advance_vecFrom (hs : bs.flatten.length < 2 ^ 31) (hb : Within b bs) (hm : b + m < bs.flatten.length)
    (tail : List Iovec) :
    ∃ k b' r x xs, bs.drop k = x :: xs ∧ b' + r < x.length ∧ (bs.take k).flatten.length + (b' + r) = b + m ∧
      advance (vecFrom e b bs ++ tail) (BitVec.ofNat 32 m) = .ok (k, BitVec.ofNat 32 r) ∧
      (vecFrom e b bs ++ tail).drop k = vecFrom (e + k) b' (x :: xs) ++ tail := by
  induction bs generalizing e b m with
  | nil => simp at hm
  | cons x xs ih =>
    have hb' : b ≤ x.length := hb
    rw [List.flatten_cons, List.length_append] at hs hm
    by_cases hpass : x.length - b ≤ m
    · obtain ⟨k, b', r, y, ys, hdrop, hin, hpos, hadv, hvec⟩ :=
        ih (e := e + 1) (b := 0) (m := m - (x.length - b)) (by omega) (Nat.zero_le _) (by omega)
      refine ⟨k + 1, b', r, y, ys, hdrop, hin, ?_, ?_, ?_⟩
      · rw [List.take_succ_cons, List.flatten_cons, List.length_append]
        omega
      · rw [vecFrom_cons, List.cons_append, advance, setWidth_ofNat,
          if_pos ((sle_ofNat (by omega) (by omega)).mpr hpass), sub_ofNat hpass, hadv]
        rfl
      · rw [vecFrom_cons, List.cons_append, List.drop_succ_cons, hvec, Nat.add_right_comm, Nat.add_assoc]
    · refine ⟨0, b, m, x, xs, rfl, by omega, by simp, ?_, rfl⟩
      rw [vecFrom_cons, List.cons_append, advance, setWidth_ofNat, if_neg (mt (sle_ofNat (by omega) (by omega)).mp hpass)]

/-! ## Between two writes -/

/-- The place in the message at which the vector from `b` in the e-th buffer begins. -/
def offset (buffers : List (List UInt8)) (e b : Nat) : Nat := (buffers.take e).flatten.length + b

theorem flatten_split (buffers : List (List UInt8)) (e : Nat) :
    buffers.flatten = (buffers.take e).flatten ++ (buffers.drop e).flatten := by
  rw [← List.flatten_append, List.take_append_drop]

theorem drop_offset (buffers : List (List UInt8)) (e b : Nat) :
    buffers.flatten.drop (offset buffers e b) = (buffers.drop e).flatten.drop b := by
  rw [flatten_split buffers e]
  exact List.drop_length_add_append b

theorem length_offset (buffers : List (List UInt8)) (e : Nat) :
    offset buffers e 0 + (buffers.drop e).flatten.length = buffers.flatten.length := by
  rw [flatten_split buffers e, List.length_append]
  rfl

theorem offset_add (buffers : List (List UInt8)) (e k b : Nat) :
    offset buffers (e + k) b = offset buffers e 0 + (((buffers.drop e).take k).flatten.length + b) := by
  simp only [offset, List.take_add, List.flatten_append, List.length_append]
  omega

/-- The vector at a place in the message; it was last copied to the front of localiov when it
    began at the j-th buffer. -/
structure Holds (buffers : List (List UInt8)) (j e b : Nat) (s : State) : Prop where
  caller : s.caller = iovecs 0 buffers
  size : s.localiov.length = LOCAL_IOVS
  place : s.iov = ⟨.caller, 0⟩ ∧ e = 0 ∨ s.iov = ⟨.localiov, e - j⟩
  order : j ≤ e
  few : buffers.length ≤ LOCAL_IOVS
  inside : e ≤ buffers.length
  within : Within b (buffers.drop e)
  entries : ∃ tail, s.entries = vecFrom e b (buffers.drop e) ++ tail
  count : s.iovcnt = (buffers.length : Int) - e

/-- Copying what the vector holds to the front would overlap. -/
def Overlaps (buffers : List (List UInt8)) (j e : Nat) : Prop := j < e ∧ e - j < buffers.length - e

variable {j : Nat} {s : State}

theorem Holds.vector (h : Holds buffers j e b s) : s.vector = .ok (vecFrom e b (buffers.drop e)) := by
  obtain ⟨tail, htail⟩ := h.entries
  have hlen : (vecFrom e b (buffers.drop e)).length = buffers.length - e := by simp
  have hcount := h.count
  have hin := h.inside
  have hn : s.iovcnt.toNat = (vecFrom e b (buffers.drop e)).length := by omega
  rw [State.vector, htail, if_pos (by rw [List.length_append]; omega), hn, List.take_left']
  rfl

theorem Holds.vector_length (h : Holds buffers j e b s) :
    ((vecFrom e b (buffers.drop e)).length : Int) = s.iovcnt ∧ (vecFrom e b (buffers.drop e)).length ≤ s.localiov.length := by
  have hcount := h.count
  have hin := h.inside
  have hsize := h.size
  have hfew := h.few
  simp only [length_vecFrom, List.length_drop]
  omega

/-- The entries fit in localiov, wherever they come from. -/
theorem Holds.toLocal_eq (h : Holds buffers j e b s) (hne : s.iov ≠ ⟨.localiov, 0⟩) :
    toLocal s =
      if s.iov.area = .localiov ∧ s.iov.idx < buffers.length - e then .error .overlap
      else .ok { s with
        localiov := vecFrom e b (buffers.drop e) ++ s.localiov.drop (buffers.length - e)
        iov := ⟨.localiov, 0⟩ } := by
  obtain ⟨hcount, hfits⟩ := h.vector_length
  have hlen : (vecFrom e b (buffers.drop e)).length = buffers.length - e := by simp
  have hin : ¬ (s.iovcnt < 0 ∨ s.localiov.length < (vecFrom e b (buffers.drop e)).length) := by omega
  rw [toLocal, if_neg hne, h.vector]
  simp only [bind, Except.bind]
  rw [if_neg hin, hlen]

theorem Holds.toLocal_overlaps (h : Holds buffers j e b s) (ho : Overlaps buffers j e) : toLocal s = .error .overlap := by
  obtain ⟨hje, hlt⟩ := ho
  rcases h.place with ⟨-, rfl⟩ | hiov
  · omega
  · have hne : s.iov ≠ ⟨.localiov, 0⟩ := by
      rw [hiov]
      simp only [ne_eq, Ptr.mk.injEq, true_and]
      omega
    rw [h.toLocal_eq hne, if_pos ⟨by rw [hiov], by rw [hiov]; exact hlt⟩]

/-- Otherwise the vector is at the front then. -/
theorem Holds.toLocal_apart (h : Holds buffers j e b s) (ho : ¬ Overlaps buffers j e) :
    ∃ cells, toLocal s = .ok { s with localiov := cells, iov := ⟨.localiov, 0⟩ } ∧
      Holds buffers e e b { s with localiov := cells, iov := ⟨.localiov, 0⟩ } := by
  by_cases hfront : s.iov = ⟨.localiov, 0⟩
  · have heq : s = { s with localiov := s.localiov, iov := ⟨.localiov, 0⟩ } := by rw [← hfront]
    refine ⟨s.localiov, by rw [toLocal, if_pos hfront, ← heq], ?_⟩
    rw [← heq]
    exact { h with place := .inr (by rw [hfront, Nat.sub_self]), order := Nat.le_refl e }
  · have hnot : ¬ (s.iov.area = .localiov ∧ s.iov.idx < buffers.length - e) := by
      rintro ⟨harea, hidx⟩
      rcases h.place with ⟨hiov, -⟩ | hiov
      · rw [hiov] at harea
        cases harea
      · rw [hiov] at hidx hfront
        simp only [Ptr.mk.injEq, true_and] at hfront
        exact ho ⟨by omega, hidx⟩
    obtain ⟨-, hfits⟩ := h.vector_length
    simp only [length_vecFrom, List.length_drop] at hfits
    refine ⟨_, by rw [h.toLocal_eq hfront, if_neg hnot], ?_⟩
    exact { h with
      size := by simp only [List.length_append, length_vecFrom, List.length_drop, ← h.size]; omega
      place := .inr (by rw [Nat.sub_self])
      order := Nat.le_refl e
      entries := ⟨_, rfl⟩ }

/-- `if (wret)`: nothing is trimmed by 0, so the test changes nothing. -/
theorem setHead_trim (s : State) (wret : BitVec 32) :
    (if wret = 0 then s else s.setHead (Iovec.trim wret)) = s.setHead (Iovec.trim wret) := by
  split
  · rename_i h
    have hid : Iovec.trim 0 = id := funext trim_zero
    rw [h, hid]
    unfold State.setHead
    split <;> simp [List.modify_id]
  · rfl

theorem trim_vecFrom {x : List UInt8} {xs : List (List UInt8)} {b r : Nat} (h : b + r ≤ x.length) (hx : x.length < 2 ^ 31)
    (tail : List Iovec) :
    (vecFrom e b (x :: xs) ++ tail).modify 0 (Iovec.trim (BitVec.ofNat 32 r)) = vecFrom e (b + r) (x :: xs) ++ tail := by
  simp only [vecFrom, List.cons_append, List.modify_zero_cons]
  rw [trim_ofNat h hx]

/-- A short write moves the vector on by as many bytes, if the copy does not overlap. -/
theorem Holds.consume_apart (h : Holds buffers j e b s) (ho : ¬ Overlaps buffers j e)
    (hs : buffers.flatten.length < 2 ^ 31) (hm : offset buffers e b + m < buffers.flatten.length) :
    ∃ cells k e' b', consume (BitVec.ofNat 32 m) s =
        .ok { s with left := s.left - BitVec.ofNat 32 m, localiov := cells, iov := ⟨.localiov, k⟩, iovcnt := s.iovcnt - k } ∧
      Holds buffers e e' b' { s with localiov := cells, iov := ⟨.localiov, k⟩, iovcnt := s.iovcnt - k } ∧
      b' < (buffers.getD e' []).length ∧ offset buffers e' b' = offset buffers e b + m := by
  have hless : Holds buffers j e b { s with left := s.left - BitVec.ofNat 32 m } := { h with }
  obtain ⟨cells, hlocal, hfront⟩ := hless.toLocal_apart ho
  obtain ⟨tail, htail⟩ := hfront.entries
  have hcells : cells = vecFrom e b (buffers.drop e) ++ tail := htail
  have hsum := length_offset buffers e
  have hoff : offset buffers e b = offset buffers e 0 + b := rfl
  obtain ⟨k, b', r, x, xs, hdrop, hin, hpos, hadv, hvec⟩ :=
    advance_vecFrom (e := e) (m := m) (by omega) h.within (by omega) tail
  have hat : buffers.drop (e + k) = x :: xs := by rw [← List.drop_drop, hdrop]
  have hx : x.length < 2 ^ 31 := by
    have hlen := length_offset buffers (e + k)
    rw [hat, List.flatten_cons, List.length_append] at hlen
    omega
  have hget : buffers[e + k]? = some x := by rw [← List.head?_drop, hat]; rfl
  have hlt : e + k < buffers.length := (List.getElem?_eq_some_iff.mp hget).1
  have hcount := h.count
  refine ⟨cells.modify k (Iovec.trim (BitVec.ofNat 32 r)), k, e + k, b' + r, ?_, ?_, ?_, ?_⟩
  · rw [consume, hlocal]
    simp only [bind, Except.bind]
    rw [htail, hadv]
    simp only [setHead_trim]
    simp [State.setHead]
  · exact { h with
      size := by rw [List.length_modify]; exact hfront.size
      place := .inr (by rw [Nat.add_sub_cancel_left])
      order := Nat.le_add_right e k
      inside := Nat.le_of_lt hlt
      within := by rw [hat]; exact Nat.le_of_lt hin
      entries := ⟨tail, by
        show (cells.modify k _).drop k = _
        rw [List.drop_modify_of_ge _ _ _ _ (Nat.le_refl k), Nat.sub_self, hcells, hvec, hat,
          trim_vecFrom (Nat.le_of_lt hin) hx]⟩
      count := by show s.iovcnt - k = _; omega }
  · simpa [List.getD, hget] using hin
  · rw [offset_add]
    omega

/-- Between two turns: what is written is the message up to where the vector begins. -/
structure Stands (buffers : List (List UInt8)) (j e b : Nat) (s : State) : Prop extends Holds buffers j e b s where
  left : s.left = BitVec.ofNat 32 (buffers.flatten.length - offset buffers e b)
  written : s.written = buffers.flatten.take (offset buffers e b)

theorem Holds.gather (h : Holds buffers j e b s) (hs : buffers.flatten.length < 2 ^ 31) :
    gather buffers (vecFrom e b (buffers.drop e)) = .ok (buffers.flatten.drop (offset buffers e b)) := by
  have hlen := length_offset buffers e
  rw [drop_offset]
  exact gather_vecFrom rfl h.within (by omega)

theorem Stands.writev_accepted (h : Stands buffers j e b s) (hs : buffers.flatten.length < 2 ^ 31) (n : Nat) :
    writev buffers s (.accepted n) =
      .ok (BitVec.ofNat 32 (min n (buffers.flatten.length - offset buffers e b)),
        { s with written := buffers.flatten.take (offset buffers e b + n) }) := by
  rw [writev, h.vector]
  simp only [bind, Except.bind]
  rw [h.gather hs]
  simp only [List.length_drop, h.written, ← List.take_add]

theorem Stands.writev_failed (h : Stands buffers j e b s) (hs : buffers.flatten.length < 2 ^ 31) (r : Errno) :
    writev buffers s (.failed r) = .ok (-1, { s with errno := r }) := by
  rw [writev, h.vector]
  simp only [bind, Except.bind]
  rw [h.gather hs]

/-- Everything that is left is accepted. -/
theorem Stands.turn_rest (h : Stands buffers j e b s) (hs : buffers.flatten.length < 2 ^ 31) (cpid : Int)
    (hn : buffers.flatten.length ≤ offset buffers e b + n) :
    turn buffers cpid s (.accepted n) = .ok ({ s with written := buffers.flatten }, some .finished) := by
  rw [turn, h.writev_accepted hs]
  simp only [bind, Except.bind]
  rw [h.left, if_pos ((sle_ofNat (by omega) (by omega)).mpr (by omega)), List.take_of_length_le hn]

theorem Stands.turn_short (h : Stands buffers j e b s) (hs : buffers.flatten.length < 2 ^ 31) (cpid : Int)
    (hn : offset buffers e b + n < buffers.flatten.length) :
    turn buffers cpid s (.accepted n) =
      (consume (BitVec.ofNat 32 n) { s with written := buffers.flatten.take (offset buffers e b + n) }).map (·, none) := by
  have hmin : min n (buffers.flatten.length - offset buffers e b) = n := by omega
  rw [turn, h.writev_accepted hs, hmin]
  simp only [bind, Except.bind]
  rw [h.left, if_neg (mt (sle_ofNat (by omega) (by omega)).mp (by omega)), toInt_ofNat (by omega), if_pos (by omega)]
  rfl

theorem Stands.turn_overlaps (h : Stands buffers j e b s) (hs : buffers.flatten.length < 2 ^ 31) (cpid : Int)
    (hn : offset buffers e b + n < buffers.flatten.length) (ho : Overlaps buffers j e) :
    turn buffers cpid s (.accepted n) = .error .overlap := by
  have hless : Holds buffers j e b { s with
      written := buffers.flatten.take (offset buffers e b + n), left := s.left - BitVec.ofNat 32 n } := { h with }
  rw [h.turn_short hs cpid hn, consume, hless.toLocal_overlaps ho]
  rfl

theorem Stands.turn_apart (h : Stands buffers j e b s) (hs : buffers.flatten.length < 2 ^ 31) (cpid : Int)
    (hn : offset buffers e b + n < buffers.flatten.length) (ho : ¬ Overlaps buffers j e) :
    ∃ e' b' t, turn buffers cpid s (.accepted n) = .ok (t, none) ∧ Stands buffers e e' b' t ∧
      b' < (buffers.getD e' []).length ∧ offset buffers e' b' = offset buffers e b + n := by
  have hless : Holds buffers j e b { s with written := buffers.flatten.take (offset buffers e b + n) } := { h.toHolds with }
  obtain ⟨cells, k, e', b', hcons, hholds, hin, hoff⟩ := hless.consume_apart ho hs hn
  refine ⟨e', b', _, by rw [h.turn_short hs cpid hn, hcons]; rfl, ?_, hin, hoff⟩
  exact { hholds with
    left := by
      simp only [h.left]
      rw [sub_ofNat (by omega), hoff]
      congr 1
      omega
    written := by rw [hoff] }

/-- An error does not end the loop as if everything were written. -/
theorem Stands.turn_failed (h : Stands buffers j e b s) (hs : buffers.flatten.length < 2 ^ 31) (cpid : Int) (r : Errno) :
    ∃ t o, turn buffers cpid s (.failed r) = .ok (t, o) ∧ o ≠ some .finished ∧ Stands buffers j e b t := by
  have hneg : ¬ (s.left.sle (-1) : Bool) := by
    rw [BitVec.sle_eq_decide, decide_eq_true_iff, h.left, toInt_ofNat (by omega)]
    have : (-1 : BitVec 32).toInt = -1 := by decide
    omega
  rw [turn, h.writev_failed hs]
  simp only [bind, Except.bind]
  rw [if_neg hneg, if_neg (by decide)]
  cases r with
  | EWOULDBLOCK =>
    simp only
    split
    · exact ⟨_, _, rfl, nofun, { h with }⟩
    split
    · exact ⟨_, _, rfl, nofun, { h with }⟩
    split
    · exact ⟨_, _, rfl, nofun, { h with }⟩
    · exact ⟨_, _, rfl, nofun, { h with }⟩
  | ENODEV => exact ⟨_, _, rfl, nofun, { h with }⟩
  | EIO => exact ⟨_, _, rfl, nofun, { h with }⟩
  | other => exact ⟨_, _, rfl, nofun, { h with }⟩

/-! ## Runs -/

theorem sum_iov_len (left : BitVec 32) (e : Nat) (bs : List (List UInt8)) :
    (iovecs e bs).foldl (fun left v => left + v.iov_len.setWidth 32) left = left + BitVec.ofNat 32 bs.flatten.length := by
  induction bs generalizing left e with
  | nil => simp [iovecs]
  | cons x xs ih =>
    rw [iovecs, List.foldl_cons, ih, setWidth_ofNat, BitVec.add_assoc, ← BitVec.ofNat_add, List.flatten_cons, List.length_append]

theorem start_left (buffers : List (List UInt8)) (junk : Vector Iovec LOCAL_IOVS) (errno : Errno) :
    (start buffers junk errno).left = BitVec.ofNat 32 buffers.flatten.length := by
  rw [start, sum_iov_len, BitVec.ofNat_eq_ofNat, BitVec.zero_add]

theorem stands_start (hfew : buffers.length ≤ LOCAL_IOVS) (junk : Vector Iovec LOCAL_IOVS) (errno : Errno) :
    Stands buffers 0 0 0 (start buffers junk errno) where
  caller := rfl
  size := Vector.length_toList
  place := .inl ⟨rfl, rfl⟩
  order := Nat.le_refl 0
  few := hfew
  inside := Nat.zero_le _
  within := Nat.zero_le _
  entries := ⟨[], by rw [List.append_nil, List.drop_zero, ← iovecs_eq_vecFrom]; rfl⟩
  count := by simp [start]
  left := start_left buffers junk errno
  written := rfl

theorem getD_lens (buffers : List (List UInt8)) (e : Nat) : (buffers.map List.length).getD e 0 = (buffers.getD e []).length :=
  List.getD_map buffers [] List.length

theorem loop_cons (cpid : Int) (s : State) (r : Result) (rs : List Result) :
    loop buffers cpid s (r :: rs) = turn buffers cpid s r >>= fun p =>
      match p.2 with
      | none => loop buffers cpid p.1 rs
      | some o => .ok (p.1, some o) := rfl

/-- Where the buffers are apart, a run from anywhere in the message is right. -/
theorem Stands.loop_right (h : Stands buffers j e b s) (hs : buffers.flatten.length < 2 ^ 31)
    (hapart : Apart (buffers.map List.length)) (hj : j = 0 ∨ (buffers.getD j []).length ≠ 0 ∧ buffers.length ≤ 2 * j)
    (he : e = 0 ∨ b < (buffers.getD e []).length) (cpid : Int) (results : List Result) :
    Right buffers (loop buffers cpid s results) := by
  induction results generalizing j e b s with
  | nil => exact ⟨h.caller, nofun⟩
  | cons r rs ih =>
    have happ : j < e → buffers.length - e ≤ e - j := by
      intro hje
      have hin : b < (buffers.getD e []).length := he.resolve_left (by omega)
      have hlt : e < buffers.length := by
        by_contra hge
        rw [List.getD_eq_default _ _ (by omega)] at hin
        simp at hin
      have := hapart e (by rwa [List.length_map]) j hje
      rw [getD_lens, getD_lens, List.length_map] at this
      exact this hj (by omega)
    have ho : ¬ Overlaps buffers j e := fun ho => absurd (happ ho.1) (Nat.not_le_of_lt ho.2)
    rw [loop_cons]
    cases r with
    | accepted n =>
      by_cases hn : offset buffers e b + n < buffers.flatten.length
      · obtain ⟨e', b', t, hturn, ht, hin, -⟩ := h.turn_apart hs cpid hn ho
        rw [hturn]
        refine ih ht ?_ (.inr hin)
        -- the next copy begins where this one was written from
        by_cases hje : j < e
        · have hin : b < (buffers.getD e []).length := he.resolve_left (by omega)
          have := happ hje
          exact .inr ⟨by omega, by omega⟩
        · obtain rfl : j = e := Nat.le_antisymm h.order (Nat.le_of_not_lt hje)
          exact hj
      · rw [h.turn_rest hs cpid (by omega)]
        exact ⟨h.caller, fun _ => rfl⟩
    | failed r =>
      obtain ⟨t, o, hturn, hne, ht⟩ := h.turn_failed hs cpid r
      rw [hturn]
      cases o with
      | none => exact ih ht hj he
      | some o => exact ⟨ht.caller, fun heq => absurd heq hne⟩

/-! ## Where it goes wrong -/

theorem offset_succ (buffers : List (List UInt8)) (e : Nat) :
    offset buffers (e + 1) 0 = offset buffers e 0 + (buffers.getD e []).length := by
  rw [offset_add]
  congr 1
  cases hd : buffers.drop e with
  | nil =>
    rw [List.getD_eq_default _ _ (List.drop_eq_nil_iff.mp hd)]
    rfl
  | cons x xs =>
    have hget : buffers[e]? = some x := by rw [← List.head?_drop, hd]; rfl
    simp [List.getD, hget]

theorem offset_mono {e' : Nat} (h : e ≤ e') : offset buffers e 0 ≤ offset buffers e' 0 := by
  obtain ⟨k, rfl⟩ := Nat.exists_eq_add_of_le h
  rw [offset_add]
  omega

/-- A byte of the message is in one buffer. -/
theorem offset_unique {e' b' : Nat} (hb : b < (buffers.getD e []).length) (hb' : b' < (buffers.getD e' []).length)
    (h : offset buffers e b = offset buffers e' b') : e = e' := by
  have hsplit : ∀ e b, offset buffers e b = offset buffers e 0 + b := fun _ _ => rfl
  have hsucc := offset_succ buffers e
  have hsucc' := offset_succ buffers e'
  rw [hsplit e, hsplit e'] at h
  rcases Nat.lt_trichotomy e e' with hlt | heq | hgt
  · have hle : offset buffers (e + 1) 0 ≤ offset buffers e' 0 := offset_mono (Nat.succ_le_of_lt hlt)
    omega
  · exact heq
  · have hle : offset buffers (e' + 1) 0 ≤ offset buffers e 0 := offset_mono (Nat.succ_le_of_lt hgt)
    omega

theorem offset_lt (he : (buffers.getD e []).length ≠ 0) : offset buffers e 0 < buffers.flatten.length := by
  have hsucc := offset_succ buffers e
  have hlen := length_offset buffers (e + 1)
  omega

/-- A short write can end before any buffer that is not empty. -/
theorem Stands.turn_to (h : Stands buffers j e b s) (hs : buffers.flatten.length < 2 ^ 31) (ho : ¬ Overlaps buffers j e)
    {e' : Nat} (he' : (buffers.getD e' []).length ≠ 0) (hle : offset buffers e b ≤ offset buffers e' 0) (cpid : Int) :
    ∃ t b', turn buffers cpid s (.accepted (offset buffers e' 0 - offset buffers e b)) = .ok (t, none) ∧
      Stands buffers e e' b' t ∧ offset buffers e' b' = offset buffers e' 0 := by
  have hlt := offset_lt he'
  obtain ⟨i, b', t, hturn, ht, hin, hoff⟩ := h.turn_apart hs cpid (n := offset buffers e' 0 - offset buffers e b) (by omega) ho
  have hoff' : offset buffers i b' = offset buffers e' 0 := by omega
  obtain rfl := offset_unique hin (Nat.pos_of_ne_zero he') hoff'
  exact ⟨t, b', hturn, ht, hoff'⟩

/-- Where they are not apart, two or three short writes lead to an overlapping copy. -/
theorem overlap_of_not_apart (hfew : buffers.length ≤ LOCAL_IOVS) (hs : buffers.flatten.length < 2 ^ 31)
    (hapart : ¬ Apart (buffers.map List.length)) (junk : Vector Iovec LOCAL_IOVS) (errno : Errno) (cpid : Int) :
    ∃ results, loop buffers cpid (start buffers junk errno) results = .error .overlap := by
  have hstart := stands_start hfew junk errno
  have hfirst : ¬ Overlaps buffers 0 0 := fun ho => absurd ho.1 (Nat.lt_irrefl 0)
  unfold Apart at hapart
  push Not at hapart
  obtain ⟨e, he, j, hje, hj, hlen, hlt⟩ := hapart
  rw [List.length_map] at he hlt
  simp only [getD_lens, List.length_map] at hj hlen
  have hin := offset_lt hlen
  rcases hj with rfl | ⟨hjlen, hhalf⟩
  · obtain ⟨t, b', hturn, ht, hoff⟩ := hstart.turn_to hs hfirst hlen (offset_mono (Nat.zero_le e)) cpid
    have hover := ht.turn_overlaps hs cpid (n := 0) (by omega) ⟨hje, by omega⟩
    refine ⟨[.accepted (offset buffers e 0 - offset buffers 0 0), .accepted 0], ?_⟩
    rw [loop_cons, hturn]
    simp only [bind, Except.bind]
    rw [loop_cons, hover]
    rfl
  · obtain ⟨t, b', hturn, ht, hoff⟩ := hstart.turn_to hs hfirst hjlen (offset_mono (Nat.zero_le j)) cpid
    have hapart : ¬ Overlaps buffers 0 j := by
      rintro ⟨-, hlt⟩
      omega
    have hle : offset buffers j b' ≤ offset buffers e 0 := hoff ▸ offset_mono (Nat.le_of_lt hje)
    obtain ⟨u, b'', hturn', hu, hoff'⟩ := ht.turn_to hs hapart hlen hle cpid
    have hover := hu.turn_overlaps hs cpid (n := 0) (by omega) ⟨hje, by omega⟩
    refine ⟨[.accepted (offset buffers j 0 - offset buffers 0 0), .accepted (offset buffers e 0 - offset buffers j b'),
      .accepted 0], ?_⟩
    rw [loop_cons, hturn]
    simp only [bind, Except.bind]
    rw [loop_cons, hturn']
    simp only [bind, Except.bind]
    rw [loop_cons, hover]
    rfl

/-- The bytes of the vector, if the lengths do not fit in a size_t either. -/
theorem gather_mod {bs : List (List UInt8)} (he : buffers.drop e = bs) :
    ∃ bytes, gather buffers (iovecs e bs) = .ok bytes ∧ bytes.length % 2 ^ 32 = bs.flatten.length % 2 ^ 32 := by
  induction bs generalizing e with
  | nil => exact ⟨[], rfl, rfl⟩
  | cons x xs ih =>
    obtain ⟨bytes, hbytes, hmod⟩ := ih (drop_succ he)
    have hat : buffers[e]? = some x := by rw [← List.head?_drop, he]; rfl
    have hget : buffers.getD e [] = x := by simp [List.getD, hat]
    have hx : bytesOf buffers ⟨e, 0, BitVec.ofNat 64 x.length⟩ = .ok (x.take (x.length % 2 ^ 64)) := by
      simp only [bytesOf, hget, BitVec.toNat_ofNat]
      rw [if_pos (by omega)]
      rfl
    refine ⟨x.take (x.length % 2 ^ 64) ++ bytes, ?_, ?_⟩
    · simp [iovecs, gather, hx, hbytes, bind, Except.bind]
    · rw [List.flatten_cons, List.length_append, List.length_append, List.length_take]
      omega

/-- A message that an int does not count: a write of as many bytes as the int says ends the loop. -/
theorem finished_early (hlong : 2 ^ 31 ≤ buffers.flatten.length) (junk : Vector Iovec LOCAL_IOVS) (errno : Errno) (cpid : Int) :
    ∃ n t, loop buffers cpid (start buffers junk errno) [.accepted n] = .ok (t, some .finished) ∧ t.written ≠ buffers.flatten := by
  obtain ⟨bytes, hbytes, hmod⟩ := gather_mod (List.drop_zero (l := buffers))
  have hvec : (start buffers junk errno).vector = .ok (iovecs 0 buffers) := by
    simp [State.vector, State.entries, start]
  let left := BitVec.ofNat 32 buffers.flatten.length
  have hleft : left.toNat = buffers.flatten.length % 2 ^ 32 := BitVec.toNat_ofNat _ _
  have hint : left.toInt.toNat ≤ left.toNat ∧ left.toInt.toNat < 2 ^ 31 ∧ left.toInt ≤ left.toInt.toNat := by
    have hcond := BitVec.toInt_eq_toNat_cond left
    have hlt := left.isLt
    split at hcond <;> omega
  obtain ⟨hnat, hsmall, hle⟩ := hint
  have hmin : min left.toInt.toNat bytes.length = left.toInt.toNat := by omega
  let t : State := { start buffers junk errno with written := bytes.take left.toInt.toNat }
  have hwrite : writev buffers (start buffers junk errno) (.accepted left.toInt.toNat) = .ok (BitVec.ofNat 32 left.toInt.toNat, t) := by
    rw [writev, hvec]
    simp only [bind, Except.bind]
    rw [hbytes]
    simp only [hmin]
    rfl
  have hturn : turn buffers cpid (start buffers junk errno) (.accepted left.toInt.toNat) = .ok (t, some .finished) := by
    rw [turn, hwrite]
    simp only [bind, Except.bind]
    rw [show t.left = left from start_left buffers junk errno, if_pos]
    rw [BitVec.sle_eq_decide, decide_eq_true_iff, toInt_ofNat hsmall]
    exact hle
  refine ⟨left.toInt.toNat, t, ?_, ?_⟩
  · rw [loop_cons, hturn]
    rfl
  · intro heq
    have hlen := congrArg List.length heq
    have hshort : t.written.length ≤ left.toInt.toNat := List.length_take_le _ _
    omega

/-- Every run writes the message once, wherever writev stops and whatever localiov held, exactly
    for the messages that an int counts and the buffers that are apart. -/
theorem ttymsg_right_iff (buffers : List (List UInt8)) :
    (∀ junk errno cpid results, Right buffers (ttymsg buffers junk errno cpid results)) ↔
      LOCAL_IOVS < buffers.length ∨ buffers.flatten.length < 2 ^ 31 ∧ Apart (buffers.map List.length) := by
  constructor
  · intro hall
    by_contra hnot
    obtain ⟨hmany, hnot⟩ := not_or.mp hnot
    have hfew := Nat.le_of_not_lt hmany
    let junk : Vector Iovec LOCAL_IOVS := Vector.replicate LOCAL_IOVS ⟨0, 0, 0⟩
    by_cases hs : buffers.flatten.length < 2 ^ 31
    · obtain ⟨results, hover⟩ := overlap_of_not_apart hfew hs (fun h => hnot ⟨hs, h⟩) junk .other 0
      have := hall junk .other 0 results
      rw [ttymsg, if_neg hmany, hover] at this
      exact this
    · obtain ⟨n, t, hloop, hne⟩ := finished_early (Nat.le_of_not_lt hs) junk .other 0
      have := hall junk .other 0 [.accepted n]
      rw [ttymsg, if_neg hmany, hloop] at this
      exact hne (this.2 rfl)
  · intro h junk errno cpid results
    by_cases hmany : LOCAL_IOVS < buffers.length
    · rw [ttymsg, if_pos hmany]
      exact ⟨rfl, nofun⟩
    · obtain ⟨hs, hapart⟩ := h.resolve_left hmany
      rw [ttymsg, if_neg hmany]
      exact (stands_start (Nat.le_of_not_lt hmany) junk errno).loop_right hs hapart (.inl rfl) (.inl rfl) cpid results

/-- Three buffers of one byte: the second copy is of two entries, from the second place to the first. -/
theorem copies_over_itself : ¬ Right [[0x61], [0x62], [0x63]]
    (ttymsg [[0x61], [0x62], [0x63]] (Vector.replicate LOCAL_IOVS ⟨0, 0, 0⟩) .other 0 [.accepted 1, .accepted 0]) := by
  have hover : ttymsg [[0x61], [0x62], [0x63]] (Vector.replicate LOCAL_IOVS ⟨0, 0, 0⟩) .other 0 [.accepted 1, .accepted 0] =
      .error .overlap := by decide
  rw [hover]
  exact id

end Netutils.Libinetutils.Ttymsg
