/-
  Netutils.Lib.Buffered — a file read item by item through a buffer over its descriptor.

  The descriptor runs ahead of the reader, to the next multiple of the buffer's size or to
  the end of the file (`reads`).
-/

import Mathlib.Data.List.Basic
import Mathlib.Algebra.Order.Ring.Nat

namespace Netutils.Lib.Buffered

variable {α : Type}

/-! ## The reader -/

structure Reader (α : Type) where
  file : List α
  /-- The offset of the descriptor. -/
  off : Nat
  /-- What has been read and not been taken. -/
  buf : List α

def Reader.open (file : List α) : Reader α := ⟨file, 0, []⟩

/-- At most `n` items from the descriptor. -/
def Reader.read (n : Nat) (r : Reader α) : List α × Reader α :=
  let chunk := (r.file.drop r.off).take n
  (chunk, { r with off := r.off + chunk.length })

/-- The next item, `none` at the end. -/
def Reader.getc (size : Nat) (r : Reader α) : Option α × Reader α :=
  match r.buf with
  | c :: buf => (some c, { r with buf := buf })
  | [] =>
    let x := r.read size
    match x.1 with
    | [] => (none, x.2)
    | c :: buf => (some c, { x.2 with buf := buf })

/-- What is still to come. -/
def Reader.contents (r : Reader α) : List α := r.buf ++ r.file.drop r.off

/-! ## Where the descriptor is -/

/-- The least multiple of `size` that is not below `p`. -/
def ahead (size p : Nat) : Nat := if p % size = 0 then p else p + (size - p % size)

/-- `p` items have been taken. -/
structure At (size : Nat) (file : List α) (p : Nat) (r : Reader α) : Prop where
  file_eq : r.file = file
  le : p ≤ file.length
  off_eq : r.off = min (ahead size p) file.length
  buf_eq : r.buf = (file.drop p).take (ahead size p - p)

variable {size : Nat} {file : List α} {p : Nat} {r : Reader α}

theorem le_ahead (size p : Nat) : p ≤ ahead size p := by
  unfold ahead
  split <;> omega

theorem ahead_eq_self_iff (hsize : 0 < size) : ahead size p = p ↔ p % size = 0 := by
  have := Nat.mod_lt p hsize
  unfold ahead
  split <;> omega

/-- It is the multiple of `size` that is less than `size` behind. -/
theorem ahead_eq_iff (hsize : 0 < size) {q : Nat} (hq : q < p) : ahead size q = p ↔ p % size = 0 ∧ p < q + size := by
  have hlt := Nat.mod_lt q hsize
  have hdiv := Nat.div_add_mod q size
  have hnext : size * (q / size + 1) = size * (q / size) + size := Nat.mul_succ _ _
  unfold ahead
  constructor
  · intro h
    split at h
    · omega
    · obtain rfl : p = size * (q / size + 1) := by omega
      exact ⟨Nat.mul_mod_right _ _, by omega⟩
  · rintro ⟨hmod, hbound⟩
    obtain ⟨k, rfl⟩ := Nat.dvd_of_mod_eq_zero hmod
    have hlow : q / size < k := Nat.lt_of_mul_lt_mul_left (a := size) (by omega)
    have hhigh : k < q / size + 2 := by
      refine Nat.lt_of_mul_lt_mul_left (a := size) ?_
      have : size * (q / size + 2) = size * (q / size) + size + size := by rw [Nat.mul_add]; omega
      omega
    obtain rfl : k = q / size + 1 := by omega
    split <;> omega

/-- Within the buffer the descriptor stays, behind it moves by the buffer's size. -/
theorem ahead_succ (hsize : 0 < size) : ahead size (p + 1) = if p % size = 0 then p + size else ahead size p := by
  have hlt := Nat.mod_lt p hsize
  unfold ahead
  by_cases hsucc : p % size + 1 < size
  · have h : (p + 1) % size = p % size + 1 := by
      rw [Nat.add_mod, Nat.mod_eq_of_lt (show 1 < size by omega), Nat.mod_eq_of_lt hsucc]
    rw [h]
    split <;> split <;> omega
  · have h : (p + 1) % size = 0 := by
      have hdiv := Nat.div_add_mod p size
      have hp : p + 1 = size * (p / size + 1) := by rw [Nat.mul_add]; omega
      rw [hp, Nat.mul_mod_right]
    rw [h]
    split <;> split <;> omega

theorem at_open (size : Nat) (file : List α) : At size file 0 (.open file) :=
  ⟨rfl, Nat.zero_le _, by simp [Reader.open, ahead], by simp [Reader.open, ahead]⟩

theorem At.contents_eq (h : At size file p r) : r.contents = file.drop p := by
  have hle := le_ahead size p
  have hoff : file.drop (min (ahead size p) file.length) = (file.drop p).drop (ahead size p - p) := by
    rw [List.drop_drop, Nat.add_sub_cancel' hle]
    by_cases hlen : ahead size p ≤ file.length
    · rw [Nat.min_eq_left hlen]
    · rw [Nat.min_eq_right (by omega), List.drop_length, List.drop_eq_nil_of_le (by omega)]
  rw [Reader.contents, h.file_eq, h.off_eq, h.buf_eq, hoff, List.take_append_drop]

theorem At.buf_eq_nil_iff (hsize : 0 < size) (h : At size file p r) : r.buf = [] ↔ p % size = 0 ∨ p = file.length := by
  have hle := le_ahead size p
  have hplen := h.le
  rw [h.buf_eq, List.take_eq_nil_iff, List.drop_eq_nil_iff, ← ahead_eq_self_iff hsize]
  omega

/-- Taking the next item. -/
theorem At.getc_some (hsize : 0 < size) (h : At size file p r) (hp : p < file.length) :
    ∃ r', r.getc size = (some file[p], r') ∧ At size file (p + 1) r' := by
  have hsucc := ahead_succ (p := p) hsize
  have hle := le_ahead size p
  have hdrop := List.drop_eq_getElem_cons hp
  cases hbuf : r.buf with
  | nil =>
    -- the buffer is filled again
    have hmod : p % size = 0 := ((h.buf_eq_nil_iff hsize).mp hbuf).resolve_right (by omega)
    have hself := (ahead_eq_self_iff hsize).mpr hmod
    have hoff : r.off = p := by rw [h.off_eq, hself]; omega
    obtain ⟨k, rfl⟩ : ∃ k, size = k + 1 := ⟨size - 1, by omega⟩
    have hread : r.read (k + 1) = (file[p] :: (file.drop (p + 1)).take k,
        { r with off := p + (file[p] :: (file.drop (p + 1)).take k).length }) := by
      simp only [Reader.read, h.file_eq, hoff, hdrop, List.take_succ_cons]
    refine ⟨⟨r.file, p + (file[p] :: (file.drop (p + 1)).take k).length, (file.drop (p + 1)).take k⟩,
      by simp only [Reader.getc, hbuf, hread], h.file_eq, hp, ?_, ?_⟩
    · rw [hsucc, if_pos hmod]
      simp only [List.length_cons, List.length_take, List.length_drop]
      omega
    · rw [hsucc, if_pos hmod, show p + (k + 1) - (p + 1) = k by omega]
  | cons c buf =>
    have hb := h.buf_eq
    rw [hbuf, hdrop] at hb
    have hmod : p % size ≠ 0 := by
      intro hmod
      rw [(ahead_eq_self_iff hsize).mpr hmod, Nat.sub_self, List.take_zero] at hb
      cases hb
    have hlt : p < ahead size p := by
      have := (ahead_eq_self_iff (p := p) hsize).not.mpr hmod
      omega
    obtain ⟨k, hk⟩ : ∃ k, ahead size p - p = k + 1 := ⟨ahead size p - p - 1, by omega⟩
    rw [hk, List.take_succ_cons] at hb
    obtain ⟨rfl, rfl⟩ := List.cons.inj hb
    refine ⟨⟨r.file, r.off, (file.drop (p + 1)).take k⟩, by simp only [Reader.getc, hbuf], h.file_eq, hp, ?_, ?_⟩
    · rw [hsucc, if_neg hmod]
      exact h.off_eq
    · rw [hsucc, if_neg hmod, show ahead size p - (p + 1) = k by omega]

/-- The end. -/
theorem At.getc_none (h : At size file file.length r) : (r.getc size).1 = none := by
  have hc := h.contents_eq
  rw [List.drop_length, Reader.contents, List.append_eq_nil_iff] at hc
  simp [Reader.getc, Reader.read, hc.1, hc.2]

end Netutils.Lib.Buffered
