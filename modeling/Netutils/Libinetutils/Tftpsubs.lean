/-
  Netutils.Libinetutils.Tftpsubs — the two packet buffers of the TFTP programs
  (libinetutils/tftpsubs.c): a file is read one block ahead of what is being sent, or written
  one block behind what is being received.

  In both modes: a reader finds the blocks of the file's code in order, read ahead or not
  (`readit_fetched`, `readit_ahead`); a writer's block is in the file, decoded, once
  write_behind has been called (`writeBehind_pending`).
-/

import Mathlib.Logic.Function.Basic
import Netutils.Arpa
import Netutils.Lib.Newline

namespace Netutils.Libinetutils.Tftpsubs

open Netutils.Arpa Netutils.Lib.Newline

/-! ## The buffers -/

structure Bf where
  /-- The size of the data in the buffer, or one of the two flags. -/
  counter : Int
  buf : Tftphdr

def BF_ALLOC : Int := -3
def BF_FREE : Int := -2

structure Subs where
  bfs : Bool → Bf
  nextone : Bool
  current : Bool
  /-- fillbuf: in the middle of newline expansion. -/
  newline : Bool
  /-- -1 is `none`. -/
  prevchar : Option UInt8

/-- What dp points to. -/
def Subs.dp (s : Subs) : Tftphdr := (s.bfs s.current).buf

def Subs.setDp (s : Subs) (p : Tftphdr) : Subs :=
  { s with bfs := Function.update s.bfs s.current { s.bfs s.current with buf := p } }

/-- The buffers' bytes stay what they were. -/
def rwInit (x : Bool) (s : Subs) : Subs :=
  { bfs := fun i => { s.bfs i with counter := if i then BF_FREE else BF_ALLOC }
    nextone := x, current := false, newline := false, prevchar := none }

def rInit (s : Subs) : Subs := rwInit true s

def wInit (s : Subs) : Subs := rwInit false s

/-! ## Reading ahead -/

/-- `for (i = 0; i < SEGSIZE; i++)`: the bytes, and newline, prevchar and the file afterwards. -/
def fill : Nat → Bool → Option UInt8 → List UInt8 → List UInt8 × Bool × Option UInt8 × List UInt8
  | 0, newline, prevchar, file => ([], newline, prevchar, file)
  | n + 1, true, prevchar, file =>
    let r := fill n false prevchar file
    ((if prevchar = some LF then LF else NUL) :: r.1, r.2)
  | _ + 1, false, prevchar, [] => ([], false, prevchar, [])
  | n + 1, false, prevchar, c :: file =>
    if c = LF ∨ c = CR then
      let r := fill n true (some c) file
      (CR :: r.1, r.2)
    else
      let r := fill n false prevchar file
      (c :: r.1, r.2)

def readAhead (convert : Bool) (s : Subs) (file : List UInt8) : Subs × List UInt8 :=
  let b := s.bfs s.nextone
  if b.counter ≠ BF_FREE then (s, file)
  else if convert then
    let r := fill SEGSIZE s.newline s.prevchar file
    ({ s with
        bfs := Function.update s.bfs s.nextone ⟨r.1.length, { b.buf with data := r.1 }⟩
        nextone := !s.nextone, newline := r.2.1, prevchar := r.2.2.1 }, r.2.2.2)
  else
    let data := file.take SEGSIZE
    ({ s with
        bfs := Function.update s.bfs s.nextone ⟨data.length, { b.buf with data := data }⟩
        nextone := !s.nextone }, file.drop SEGSIZE)

/-- The size, the buffers and the file. -/
def readit (convert : Bool) (s : Subs) (file : List UInt8) : Int × Subs × List UInt8 :=
  let s := { s with
    bfs := Function.update s.bfs s.current { s.bfs s.current with counter := BF_FREE }, current := !s.current }
  let r := if (s.bfs s.current).counter = BF_FREE then readAhead convert s file else (s, file)
  ((r.1.bfs s.current).counter, r.1, r.2)

/-! ## Writing behind -/

/-- `while (ct--)`: prevchar and the file afterwards. -/
def putbuf : List UInt8 → Option UInt8 → List UInt8 → Option UInt8 × List UInt8
  | [], prevchar, file => (prevchar, file)
  | c :: buf, prevchar, file =>
    if prevchar = some CR then
      if c = LF then putbuf buf (some c) (file.dropLast ++ [c])
      else if c = NUL then putbuf buf (some c) file
      else putbuf buf (some c) (file ++ [c])
    else putbuf buf (some c) (file ++ [c])

def writeBehind (convert : Bool) (s : Subs) (file : List UInt8) : Subs × List UInt8 :=
  let b := s.bfs s.nextone
  if b.counter < -1 then (s, file)
  else
    let s := { s with bfs := Function.update s.bfs s.nextone { b with counter := BF_FREE }, nextone := !s.nextone }
    if b.counter ≤ 0 then (s, file)
    else if convert then
      let r := putbuf (b.buf.data.take b.counter.toNat) s.prevchar file
      ({ s with prevchar := r.1 }, r.2)
    else (s, file ++ b.buf.data.take b.counter.toNat)

/-- The buffers and the file; what it returns is `ct`. -/
def writeit (convert : Bool) (s : Subs) (file : List UInt8) (ct : Int) : Subs × List UInt8 :=
  let s := { s with
    bfs := Function.update s.bfs s.current { s.bfs s.current with counter := ct }, current := !s.current }
  let r := if (s.bfs s.current).counter ≠ BF_FREE then writeBehind convert s file else (s, file)
  ({ r.1 with bfs := Function.update r.1.bfs s.current { r.1.bfs s.current with counter := BF_ALLOC } }, r.2)

/-! ## Netascii -/

/-- `lf -> cr,lf and cr -> cr,nul` -/
def netascii (file : List UInt8) : List UInt8 := escape CR LF NUL file

/-- What a file is sent as. -/
def encoded (convert : Bool) (file : List UInt8) : List UInt8 := if convert then netascii file else file

/-- What is written of a text. -/
def decoded (convert : Bool) (text : List UInt8) : List UInt8 := if convert then decode CR LF NUL text else text

@[simp] theorem encoded_false (file : List UInt8) : encoded false file = file := rfl

@[simp] theorem decoded_false (text : List UInt8) : decoded false text = text := rfl

theorem decoded_encoded (convert : Bool) (file : List UInt8) : decoded convert (encoded convert file) = file := by
  cases convert with
  | false => rfl
  | true => exact decode_escape lf_ne_cr nul_ne_lf file

/-! ## The blocks of a text -/

/-- The `k`-th block, from 1 on. -/
def piece (text : List UInt8) (k : Nat) : List UInt8 := (text.drop (SEGSIZE * (k - 1))).take SEGSIZE

/-- The first block that is not full. -/
def lastBlock (text : List UInt8) : Nat := text.length / SEGSIZE + 1

variable {convert : Bool} {text file rest : List UInt8} {k : Nat} {s : Subs}

theorem length_piece (text : List UInt8) (k : Nat) : (piece text k).length = min SEGSIZE (text.length - SEGSIZE * (k - 1)) := by
  rw [piece, List.length_take, List.length_drop]

/-- A block is short if it is the last. -/
theorem length_piece_lt_iff (hk : 1 ≤ k) (hlast : k ≤ lastBlock text) :
    (piece text k).length = SEGSIZE ↔ k + 1 ≤ lastBlock text := by
  rw [length_piece]
  unfold lastBlock SEGSIZE at *
  omega

theorem flatten_pieces (text : List UInt8) (n : Nat) :
    ((List.range' 1 n).map (piece text)).flatten = text.take (SEGSIZE * n) := by
  induction n with
  | zero => simp
  | succ n ih =>
    rw [List.range'_1_concat, List.map_append, List.flatten_append, ih, List.map_singleton, List.flatten_singleton,
      piece, Nat.add_sub_cancel_left, Nat.mul_succ, List.take_add]

/-- Together the blocks are the text. -/
theorem flatten_blocks (text : List UInt8) : ((List.range' 1 (lastBlock text)).map (piece text)).flatten = text := by
  rw [flatten_pieces, List.take_of_length_le]
  unfold lastBlock SEGSIZE
  omega

/-! ## Reading -/

/-- The second byte of an expansion, if that is still to come. -/
def half (newline : Bool) (prevchar : Option UInt8) : List UInt8 :=
  if newline then [if prevchar = some LF then LF else NUL] else []

/-- What read_ahead has still to give. -/
def coming (convert : Bool) (s : Subs) (rest : List UInt8) : List UInt8 :=
  if convert then half s.newline s.prevchar ++ netascii rest else rest

/-- The expansions go on where the buffer before has ended. -/
theorem fill_spec (n : Nat) (newline : Bool) (prevchar : Option UInt8) (file : List UInt8) :
    (fill n newline prevchar file).1 = (half newline prevchar ++ netascii file).take n ∧
      half (fill n newline prevchar file).2.1 (fill n newline prevchar file).2.2.1 ++
          netascii (fill n newline prevchar file).2.2.2 =
        (half newline prevchar ++ netascii file).drop n := by
  fun_induction fill n newline prevchar file with
  | case1 => simp
  | case2 n prevchar file r ih => simpa [half] using ih
  | case3 => simp [half, netascii]
  | case4 n prevchar c file hc r ih =>
    have hcode : escapeCode CR LF NUL c = CR :: half true (some c) := by
      rcases hc with rfl | rfl <;> rfl
    simpa [half, netascii, escape_cons, hcode] using ih
  | case5 n prevchar c file hc r ih =>
    have hcode : escapeCode CR LF NUL c = [c] := by
      rw [not_or] at hc
      rw [escapeCode, if_neg hc.1, if_neg hc.2]
    simpa [half, netascii, escape_cons, hcode] using ih

/-- Block `k` is at dp, and nothing is read ahead; block 0 is what stands there at first. -/
structure Fetched (convert : Bool) (text : List UInt8) (k : Nat) (s : Subs) (rest : List UInt8) : Prop where
  at_dp : (s.bfs s.current).counter ≠ BF_FREE
  other : (s.bfs (!s.current)).counter = BF_FREE
  nextone : s.nextone = !s.current
  rest : coming convert s rest = text.drop (SEGSIZE * k)

/-- And the next block is in the other buffer. -/
structure Ahead (convert : Bool) (text : List UInt8) (k : Nat) (s : Subs) (rest : List UInt8) : Prop where
  at_dp : (s.bfs s.current).counter ≠ BF_FREE
  counter : (s.bfs (!s.current)).counter = (piece text (k + 1)).length
  data : (s.bfs (!s.current)).buf.data = piece text (k + 1)
  nextone : s.nextone = s.current
  rest : coming convert s rest = text.drop (SEGSIZE * (k + 1))

theorem rInit_fetched (convert : Bool) (file : List UInt8) (s : Subs) :
    Fetched convert (encoded convert file) 0 (rInit s) file := by
  refine ⟨by simp [rInit, rwInit, BF_ALLOC, BF_FREE], by simp [rInit, rwInit], rfl, ?_⟩
  cases convert <;> rfl

theorem setDp_fetched (p : Tftphdr) (h : Fetched convert text k s rest) : Fetched convert text k (s.setDp p) rest :=
  ⟨by simpa [Subs.setDp] using h.at_dp, by simpa [Subs.setDp] using h.other, h.nextone, h.rest⟩

theorem length_ne_free (l : List UInt8) : (l.length : Int) ≠ BF_FREE := by
  unfold BF_FREE
  omega

/-- The next block comes to the buffer that is free. -/
theorem readAhead_free (h : (s.bfs s.nextone).counter = BF_FREE) (hrest : coming convert s rest = text.drop (SEGSIZE * k)) :
    (readAhead convert s rest).1.bfs =
        Function.update s.bfs s.nextone
          ⟨(piece text (k + 1)).length, { (s.bfs s.nextone).buf with data := piece text (k + 1) }⟩ ∧
      (readAhead convert s rest).1.nextone = !s.nextone ∧ (readAhead convert s rest).1.current = s.current ∧
      coming convert (readAhead convert s rest).1 (readAhead convert s rest).2 = text.drop (SEGSIZE * (k + 1)) := by
  have htake : (coming convert s rest).take SEGSIZE = piece text (k + 1) := by rw [hrest, piece, Nat.add_sub_cancel]
  have hdrop : (coming convert s rest).drop SEGSIZE = text.drop (SEGSIZE * (k + 1)) := by
    rw [hrest, List.drop_drop, Nat.mul_succ]
  cases convert with
  | false =>
    simp only [coming, Bool.false_eq_true, if_false] at htake hdrop
    rw [readAhead, if_neg (not_not.mpr h), if_neg (by decide), htake, hdrop]
    exact ⟨rfl, rfl, rfl, rfl⟩
  | true =>
    obtain ⟨hdata, hleft⟩ := fill_spec SEGSIZE s.newline s.prevchar rest
    simp only [coming, if_true] at htake hdrop
    rw [htake] at hdata
    rw [hdrop] at hleft
    rw [readAhead, if_neg (not_not.mpr h), if_pos rfl]
    simp only [hdata]
    exact ⟨trivial, trivial, trivial, hleft⟩

/-- The packet at dp stays. -/
theorem readAhead_fetched (h : Fetched convert text k s rest) :
    Ahead convert text k (readAhead convert s rest).1 (readAhead convert s rest).2 ∧
      (readAhead convert s rest).1.dp = s.dp := by
  have hfree : (s.bfs s.nextone).counter = BF_FREE := by rw [h.nextone, h.other]
  obtain ⟨hbfs, hnextone, hcurrent, hcoming⟩ := readAhead_free hfree h.rest
  rw [h.nextone] at hbfs hnextone
  refine ⟨⟨?_, ?_, ?_, ?_, hcoming⟩, ?_⟩
  · simpa [hbfs, hcurrent] using h.at_dp
  · simp [hbfs, hcurrent]
  · simp [hbfs, hcurrent]
  · simp [hnextone, hcurrent]
  · simp [Subs.dp, hbfs, hcurrent]

/-- Once the next block is there, nothing happens. -/
theorem readAhead_ahead (h : Ahead convert text k s rest) : readAhead convert s rest = (s, rest) := by
  rw [readAhead, if_pos (by rw [h.nextone]; exact h.at_dp)]

/-- The next block is read now. -/
theorem readit_fetched (h : Fetched convert text k s rest) :
    (readit convert s rest).1 = (piece text (k + 1)).length ∧
      Fetched convert text (k + 1) (readit convert s rest).2.1 (readit convert s rest).2.2 ∧
      (readit convert s rest).2.1.dp.data = piece text (k + 1) := by
  have hother : Function.update s.bfs s.current { s.bfs s.current with counter := BF_FREE } (!s.current) = s.bfs (!s.current) :=
    Function.update_of_ne (by simp) _ _
  have hfree : (s.bfs (!s.current)).counter = BF_FREE := h.other
  simp only [readit, hother, hfree, if_true]
  generalize ht : ({ s with
    bfs := Function.update s.bfs s.current { s.bfs s.current with counter := BF_FREE }, current := !s.current } : Subs) = t
  have hcurrent : t.current = !s.current := by rw [← ht]
  have hnextone : t.nextone = !s.current := by rw [← ht, ← h.nextone]
  have hfreed : (t.bfs s.current).counter = BF_FREE := by simp [← ht]
  have hnext : (t.bfs t.nextone).counter = BF_FREE := by
    rw [hnextone, ← ht]
    simpa using hfree
  have hrest : coming convert t rest = text.drop (SEGSIZE * k) := by rw [← ht]; exact h.rest
  obtain ⟨hbfs', hnextone', hcurrent', hcoming⟩ := readAhead_free hnext hrest
  rw [hnextone] at hbfs' hnextone'
  rw [hcurrent] at hcurrent'
  refine ⟨by simp [hbfs'], ⟨?_, ?_, ?_, hcoming⟩, ?_⟩
  · rw [hbfs', hcurrent', Function.update_self]
    exact length_ne_free _
  · simpa [hbfs', hcurrent'] using hfreed
  · simp [hnextone', hcurrent']
  · simp [Subs.dp, hbfs', hcurrent']

/-- The next block has been read ahead. -/
theorem readit_ahead (h : Ahead convert text k s rest) :
    (readit convert s rest).1 = (piece text (k + 1)).length ∧
      Fetched convert text (k + 1) (readit convert s rest).2.1 (readit convert s rest).2.2 ∧
      (readit convert s rest).2.1.dp.data = piece text (k + 1) := by
  have hother : Function.update s.bfs s.current { s.bfs s.current with counter := BF_FREE } (!s.current) = s.bfs (!s.current) :=
    Function.update_of_ne (by simp) _ _
  have hfull : (s.bfs (!s.current)).counter ≠ BF_FREE := by
    rw [h.counter]
    exact length_ne_free _
  simp only [readit, hother, if_neg hfull]
  refine ⟨h.counter, ⟨?_, by simp, by simpa using h.nextone, h.rest⟩, ?_⟩
  · simpa using hfull
  · simpa [Subs.dp] using h.data

/-! ## Writing -/

theorem putbuf_append (a b : List UInt8) (prevchar : Option UInt8) (file : List UInt8) :
    putbuf (a ++ b) prevchar file = putbuf b (putbuf a prevchar file).1 (putbuf a prevchar file).2 := by
  fun_induction putbuf a prevchar file with
  | case1 => rfl
  | case2 => simp_all [putbuf]
  | case3 => simp_all [putbuf]
  | case4 => simp_all [putbuf]
  | case5 => simp_all [putbuf]

/-- A CR is written at once, and is smashed by the LF behind it. -/
theorem putbuf_decode (buf : List UInt8) :
    (∀ prevchar file, prevchar ≠ some CR → (putbuf buf prevchar file).2 = file ++ decodeFrom CR LF NUL false buf) ∧
      ∀ file, (putbuf buf (some CR) (file ++ [CR])).2 = file ++ decodeFrom CR LF NUL true buf := by
  induction buf with
  | nil => simp [putbuf, decodeFrom]
  | cons c buf ih =>
    obtain ⟨hclear, hpending⟩ := ih
    constructor
    · intro prevchar file hprev
      rw [putbuf, if_neg hprev, decodeFrom, if_neg (by decide)]
      by_cases hcr : c = CR
      · rw [if_pos hcr, hcr, hpending]
      · rw [if_neg hcr, hclear _ _ (by simpa using hcr)]
        simp
    · intro file
      rw [putbuf, if_pos rfl, decodeFrom, if_pos rfl]
      by_cases hlf : c = LF
      · rw [if_pos hlf, if_pos hlf, hlf, hclear _ _ (by decide)]
        simp
      · rw [if_neg hlf, if_neg hlf]
        by_cases hnul : c = NUL
        · rw [if_pos hnul, if_pos hnul, hnul, hclear _ _ (by decide)]
          simp
        · rw [if_neg hnul, if_neg hnul]
          by_cases hcr : c = CR
          · rw [if_pos hcr, hcr, hpending]
            simp
          · rw [if_neg hcr, hclear _ _ (by simpa using hcr)]
            simp

/-- The text has been written, and its last byte is known. -/
def Written (convert : Bool) (text : List UInt8) (s : Subs) (file : List UInt8) : Prop :=
  if convert then (s.prevchar, file) = putbuf text none [] else file = text

theorem Written.eq_decoded (h : Written convert text s file) : file = decoded convert text := by
  cases convert with
  | false => exact h
  | true =>
    have hfile : file = (putbuf text none []).2 := congrArg Prod.snd h
    rw [hfile, (putbuf_decode text).1 none [] (by decide)]
    rfl

theorem written_congr {t : Subs} (hprev : t.prevchar = s.prevchar) (h : Written convert text s file) :
    Written convert text t file := by
  rwa [Written, hprev]

/-- The next packet is to come to dp, and everything is in the file. -/
structure Empty (s : Subs) : Prop where
  at_dp : (s.bfs s.current).counter = BF_ALLOC
  other : (s.bfs (!s.current)).counter = BF_FREE
  nextone : s.nextone = s.current

/-- The block `d` is still to be written. -/
structure Pending (d : List UInt8) (s : Subs) : Prop where
  at_dp : (s.bfs s.current).counter = BF_ALLOC
  other : (s.bfs (!s.current)).counter = d.length
  data : (s.bfs (!s.current)).buf.data = d
  nextone : s.nextone = !s.current

theorem wInit_empty (s : Subs) : Empty (wInit s) :=
  ⟨by simp [wInit, rwInit], by simp [wInit, rwInit], rfl⟩

theorem wInit_written (convert : Bool) (s : Subs) : Written convert [] (wInit s) [] := by
  cases convert <;> rfl

theorem setDp_empty (p : Tftphdr) (h : Empty s) : Empty (s.setDp p) :=
  ⟨by simpa [Subs.setDp] using h.at_dp, by simpa [Subs.setDp] using h.other, h.nextone⟩

theorem setDp_pending {d : List UInt8} (p : Tftphdr) (h : Pending d s) : Pending d (s.setDp p) :=
  ⟨by simpa [Subs.setDp] using h.at_dp, by simpa [Subs.setDp] using h.other, by simpa [Subs.setDp] using h.data, h.nextone⟩

theorem setDp_written (p : Tftphdr) (h : Written convert text s file) : Written convert text (s.setDp p) file :=
  written_congr (t := s.setDp p) rfl h

theorem writeBehind_empty (h : Empty s) : writeBehind convert s file = (s, file) := by
  rw [writeBehind, if_pos (by rw [h.nextone, h.at_dp]; decide)]

/-- The block goes to the file. -/
theorem writeBehind_full {d : List UInt8} (hcounter : (s.bfs s.nextone).counter = d.length)
    (hdata : (s.bfs s.nextone).buf.data = d) (h : Written convert text s file) :
    (writeBehind convert s file).1.bfs =
        Function.update s.bfs s.nextone { s.bfs s.nextone with counter := BF_FREE } ∧
      (writeBehind convert s file).1.nextone = !s.nextone ∧ (writeBehind convert s file).1.current = s.current ∧
      Written convert (text ++ d) (writeBehind convert s file).1 (writeBehind convert s file).2 := by
  rw [writeBehind, if_neg (by omega)]
  by_cases hzero : (s.bfs s.nextone).counter ≤ 0
  · have hd : d = [] := List.length_eq_zero_iff.mp (by omega)
    simp only [if_pos hzero, hd, List.append_nil]
    exact ⟨trivial, trivial, trivial, h⟩
  · have htake : (s.bfs s.nextone).buf.data.take (s.bfs s.nextone).counter.toNat = d := by
      rw [hcounter, hdata, Int.toNat_natCast, List.take_length]
    simp only [if_neg hzero, htake]
    cases convert with
    | false => exact ⟨rfl, rfl, rfl, congrArg (· ++ d) h⟩
    | true =>
      obtain ⟨hprev, hfile⟩ := Prod.mk.inj (show (s.prevchar, file) = putbuf text none [] from h)
      refine ⟨rfl, rfl, rfl, ?_⟩
      show putbuf d s.prevchar file = putbuf (text ++ d) none []
      rw [putbuf_append, ← hprev, ← hfile]

theorem writeBehind_pending {d : List UInt8} (h : Pending d s) (hwritten : Written convert text s file) :
    Empty (writeBehind convert s file).1 ∧
      Written convert (text ++ d) (writeBehind convert s file).1 (writeBehind convert s file).2 ∧
      (writeBehind convert s file).1.dp = s.dp := by
  obtain ⟨hbfs, hnextone, hcurrent, hwritten⟩ := writeBehind_full (d := d) (by rw [h.nextone, h.other])
    (by rw [h.nextone, h.data]) hwritten
  rw [h.nextone] at hbfs hnextone
  refine ⟨⟨?_, ?_, ?_⟩, hwritten, ?_⟩
  · simpa [hbfs, hcurrent] using h.at_dp
  · simp [hbfs, hcurrent]
  · simp [hnextone, hcurrent]
  · simp [Subs.dp, hbfs, hcurrent]

/-- The packet at dp is taken as a block. -/
theorem writeit_empty (h : Empty s) (hwritten : Written convert text s file) :
    Pending s.dp.data (writeit convert s file s.dp.data.length).1 ∧
      Written convert text (writeit convert s file s.dp.data.length).1 (writeit convert s file s.dp.data.length).2 := by
  have hother : Function.update s.bfs s.current { s.bfs s.current with counter := (s.dp.data.length : Int) } (!s.current) =
      s.bfs (!s.current) := Function.update_of_ne (by simp) _ _
  have hfree : (s.bfs (!s.current)).counter = BF_FREE := h.other
  simp only [writeit, hother, hfree, ne_eq, not_true_eq_false, if_false]
  exact ⟨⟨by simp, by simp, by simp [Subs.dp], by simpa using h.nextone⟩, hwritten⟩

/-- And the block before it is written now. -/
theorem writeit_pending {d : List UInt8} (h : Pending d s) (hwritten : Written convert text s file) :
    Pending s.dp.data (writeit convert s file s.dp.data.length).1 ∧
      Written convert (text ++ d) (writeit convert s file s.dp.data.length).1
        (writeit convert s file s.dp.data.length).2 := by
  have hother : Function.update s.bfs s.current { s.bfs s.current with counter := (s.dp.data.length : Int) } (!s.current) =
      s.bfs (!s.current) := Function.update_of_ne (by simp) _ _
  have hfull : (s.bfs (!s.current)).counter ≠ BF_FREE := by
    rw [h.other]
    exact length_ne_free d
  simp only [writeit, hother, if_pos hfull]
  generalize ht : ({ s with
    bfs := Function.update s.bfs s.current { s.bfs s.current with counter := (s.dp.data.length : Int) }
    current := !s.current } : Subs) = t
  have hcurrent : t.current = !s.current := by rw [← ht]
  have hnextone : t.nextone = !s.current := by rw [← ht, ← h.nextone]
  have htaken : t.bfs s.current = { s.bfs s.current with counter := (s.dp.data.length : Int) } := by simp [← ht]
  have hcounter : (t.bfs t.nextone).counter = d.length := by
    rw [hnextone, ← ht]
    simpa using h.other
  have hdata : (t.bfs t.nextone).buf.data = d := by
    rw [hnextone, ← ht]
    simpa using h.data
  obtain ⟨hbfs', hnextone', hcurrent', hwritten'⟩ := writeBehind_full hcounter hdata
    (written_congr (t := t) (by rw [← ht]) hwritten)
  rw [hnextone] at hbfs' hnextone'
  rw [hcurrent] at hcurrent'
  refine ⟨⟨?_, ?_, ?_, ?_⟩, written_congr rfl hwritten'⟩
  · simp [hcurrent']
  · simp [hbfs', hcurrent', htaken]
  · simp [hbfs', hcurrent', htaken, Subs.dp]
  · simp [hnextone', hcurrent']

end Netutils.Libinetutils.Tftpsubs
