/-
  Netutils.Ftpd.Transfer — the bytes ftpd sends for a plain file, and what it makes of the
  bytes it receives (ftpd/ftpd.c, ftpd/ftpcmd.y).

  retrieve skips to the restart point by getc in type A and by lseek else; send_data maps the
  file from the offset of its descriptor on, or reads it. Where the two do not agree (the
  descriptor is ahead of getc), or the file can not be mapped (retrieve asks for blocks of
  no bytes), something else is sent, with the reply 226; and from 2^31 on the int of REST is
  not the number of its digits. `resumes_iff` says when not.
-/

import Mathlib.Data.Nat.Find
import Netutils.Arpa
import Netutils.Ftpd.SiteModes
import Netutils.Lib.Buffered
import Netutils.Lib.Newline

namespace Netutils.Ftpd.Transfer

open Netutils.Arpa Netutils.Lib.Buffered Netutils.Lib.Newline

/-! ## What a transfer meets -/

/-- The machine and its library. -/
structure Machine where
  /-- The size of a stdio buffer. -/
  bufsize : Nat
  pagesize : Nat
  /-- mmap is there, and does a plain file from a page on. -/
  mmap : Bool
  /-- `malloc (0)` is not NULL. -/
  malloc0 : Bool

/-- What becomes of one transfer. -/
structure Chances where
  lseek : Bool
  /-- dataconn does not return NULL. -/
  dataconn : Bool
  /-- `ferror (outstr) == 0` once it has been flushed. -/
  flushed : Bool
  /-- The `i`-th write: -1, or that many bytes and one, if there are so many. -/
  write : Nat → Option Nat

/-- The bytes sent, and whether the reply is 226. -/
structure Outcome where
  sent : List UInt8
  complete : Bool

def Outcome.error : Outcome := ⟨[], false⟩

abbrev File := Reader UInt8

/-! ## send_data -/

/-- `if (c == '\n') putc ('\r', outstr); putc (c, outstr);` -/
def putcs (c : UInt8) : List UInt8 := (if c = LF then [CR] else []) ++ [c]

/-- `while (len < filesize)` -/
def mapLoop : List UInt8 → List UInt8
  | [] => []
  | c :: buf => putcs c ++ mapLoop buf

/-- `while ((c = getc (instr)) != EOF)`, with turns enough. -/
def getcLoop (m : Machine) : Nat → File → List UInt8
  | n + 1, f =>
    match f.getc m.bufsize with
    | (some c, f) => putcs c ++ getcLoop m n f
    | (none, _) => []
  | 0, _ => []

/-- `do … while (cnt > 0 && len > 0);` -/
def writeLoop (e : Chances) : Nat → Nat → List UInt8 → Outcome
  | n + 1, i, bp =>
    match e.write i with
    | none => .error
    | some k =>
      let rest := bp.drop (k + 1)
      if rest = [] then ⟨bp, true⟩
      else
        let r := writeLoop e n (i + 1) rest
        ⟨bp.take (k + 1) ++ r.sent, r.complete⟩
  | 0, _, _ => .error

/-- `while ((cnt = read (filefd, buf, blksize)) > 0 && write (netfd, buf, cnt) == cnt)` -/
def readLoop (e : Chances) (blksize : Nat) : Nat → Nat → File → Outcome
  | n + 1, i, f =>
    let r := f.read blksize
    if r.1 = [] then ⟨[], true⟩
    else
      match e.write i with
      | none => .error
      | some k =>
        if k + 1 < r.1.length then ⟨r.1.take (k + 1), false⟩
        else
          let rs := readLoop e blksize n (i + 1) r.2
          ⟨r.1 ++ rs.sent, rs.complete⟩
  | 0, _, _ => .error

/-- `mmap (0, filesize, PROT_READ, MAP_SHARED, filefd, curpos)`, unless it is MAP_FAILED. -/
def mapped (m : Machine) (fileSize : Nat) (f : File) : Option (List UInt8) :=
  let filesize := fileSize - f.off
  if fileSize > 0 ∧ filesize > 0 ∧ f.off % m.pagesize = 0 ∧ m.mmap then some ((f.file.drop f.off).take filesize) else none

def sendData (m : Machine) (e : Chances) (type : TransferType) (fileSize blksize : Nat) (f : File) : Outcome :=
  match type with
  | .A =>
    match mapped m fileSize f with
    | some buf => ⟨mapLoop buf, e.flushed⟩
    | none => ⟨getcLoop m (f.contents.length + 1) f, e.flushed⟩
  | .I | .L =>
    match mapped m fileSize f with
    | some buf => writeLoop e buf.length 0 buf
    | none =>
      if blksize = 0 ∧ m.malloc0 = false then .error
      else readLoop e blksize (f.contents.length + 1) 0 f

/-! ## retrieve -/

/-- `while (i++ < n)`, with turns enough; `none` at the end of the file. A negative `n` is as good
    as none. -/
def skip (m : Machine) (n : Nat) : Nat → Nat → File → Option File
  | turns + 1, i, f =>
    if i < n then
      match f.getc m.bufsize with
      | (some c, f) => skip m n turns (if c = LF then i + 2 else i + 1) f
      | (none, _) => none
    else some f
  | 0, _, f => some f

/-- What is to be read after REST; lseek refuses what is negative. -/
def position (m : Machine) (e : Chances) (type : TransferType) (restartPoint : Int) (f : File) : Option File :=
  if restartPoint = 0 then some f
  else match type with
    | .A => skip m restartPoint.toNat restartPoint.toNat 0 f
    | .I | .L => if e.lseek = true ∧ 0 ≤ restartPoint then some { f with off := restartPoint.toNat } else none

/-- Of a plain file, with `cmd == 0`: buffer_size is 0 then. -/
def retrieve (m : Machine) (e : Chances) (type : TransferType) (restartPoint : Int) (file : List UInt8) : Outcome :=
  match position m e type restartPoint (.open file) with
  | none => .error
  | some f => if e.dataconn then sendData m e type file.length 0 f else .error

/-! ## SIZE -/

/-- The count of type A, with turns enough. -/
def countLoop (m : Machine) : Nat → File → Nat
  | n + 1, f =>
    match f.getc m.bufsize with
    | (some c, f) => (if c = LF then 2 else 1) + countLoop m n f
    | (none, _) => 0
  | 0, _ => 0

def sizecmd (m : Machine) (type : TransferType) (file : List UInt8) : Nat :=
  match type with
  | .A => countLoop m (file.length + 1) (.open file)
  | .I | .L => file.length

/-! ## receive_data -/

/-- What has been made of the data connection's bytes; byte_count counts the turns of the loop. -/
structure Received where
  outstr : List UInt8
  byteCount : Nat
  bareLfs : Nat

def Received.putc (r : Received) (c : UInt8) : Received := { r with outstr := r.outstr ++ [c] }

/-- `while ((c = getc (instr)) != EOF)`, and with `true` `while (c == '\r')`, up to the end of
    the connection. -/
def receiveLoop : Bool → List UInt8 → Received → Received
  | false, [], r => r
  | true, [], r => r.putc CR
  | false, c :: instr, r =>
    let r := { r with byteCount := r.byteCount + 1, bareLfs := if c = LF then r.bareLfs + 1 else r.bareLfs }
    if c = CR then receiveLoop true instr r else receiveLoop false instr (r.putc c)
  | true, c :: instr, r =>
    if c ≠ LF then
      let r := r.putc CR
      if c = NUL then receiveLoop false instr r
      else if c = CR then receiveLoop true instr r
      else receiveLoop false instr (r.putc c)
    else receiveLoop false instr (r.putc c)

/-- Neither of the two files fails. -/
def receiveData (type : TransferType) (instr : List UInt8) : Received :=
  match type with
  | .A => receiveLoop false instr ⟨[], 0, 0⟩
  | .I | .L => ⟨instr, instr.length, 0⟩

/-! ## The property -/

/-- The full transmission. -/
def transmission (type : TransferType) (l : List UInt8) : List UInt8 :=
  match type with
  | .A => encode CR LF l
  | .I | .L => l

/-- The restart point behind the first `p` bytes of the file. -/
def restartAt (type : TransferType) (file : List UInt8) (p : Nat) : Nat := (transmission type (file.take p)).length

/-- With REST and these digits, whatever the transfer meets: an error, or all from there on. And
    SIZE tells how much there is. -/
def Resumes (m : Machine) (type : TransferType) (file : List UInt8) (ds : Str) : Prop :=
  (∀ e, (retrieve m e type (Ftpd.atoi ds) file).complete = true →
    (retrieve m e type (Ftpd.atoi ds) file).sent = (transmission type file).drop (Libc.number 10 ds)) ∧
  sizecmd m type file = (transmission type file).length

/-- mmap does the file from this offset on. -/
def Machine.Maps (m : Machine) (file : List UInt8) (off : Nat) : Prop :=
  off < file.length ∧ off % m.pagesize = 0 ∧ m.mmap = true

/-- In type A: getc has used its buffer up, or the file can not be mapped from where the
    descriptor is. Else: there is nothing left, or the file can be mapped, or malloc (0) fails. -/
def SoundAt (m : Machine) (type : TransferType) (file : List UInt8) (p : Nat) : Prop :=
  match type with
  | .A => p % m.bufsize = 0 ∨ ¬ m.Maps file (ahead m.bufsize p)
  | .I | .L => p = file.length ∨ m.Maps file p ∨ m.malloc0 = false

/-- The restart point behind `p` bytes is an int; or its int `r` does as well. In type A the
    buffer that getc has come to is the last one before it. Else lseek refuses `r`, or the file
    can not be mapped from there on, and there is nothing left, or malloc (0) fails. -/
def Sound (m : Machine) (type : TransferType) (file : List UInt8) (p : Nat) (r : Int) : Prop :=
  if restartAt type file p < 2 ^ 31 then SoundAt m type file p
  else match type with
    | .A => p % m.bufsize = 0 ∧ m.Maps file p ∧ restartAt .A file (p - m.bufsize) < r
    | .I | .L => r < 0 ∨ (¬ m.Maps file r.toNat ∧ (p = file.length ∨ m.malloc0 = false))

/-! ## The loops -/

theorem putcs_eq (c : UInt8) : putcs c = code CR LF c := by
  unfold putcs code
  split
  · rename_i h
    rw [h]
    rfl
  · rfl

theorem mapLoop_eq (l : List UInt8) : mapLoop l = encode CR LF l := by
  induction l with
  | nil => rfl
  | cons c l ih => rw [mapLoop, ih, putcs_eq, encode_cons]

variable {m : Machine} {e : Chances} {file : List UInt8} {p : Nat} {f : File}

theorem encode_drop (h : p < file.length) :
    encode CR LF (file.drop p) = code CR LF file[p] ++ encode CR LF (file.drop (p + 1)) := by
  rw [List.drop_eq_getElem_cons h, encode_cons]

theorem getcLoop_eq (hsize : 0 < m.bufsize) {n : Nat} (h : Lib.Buffered.At m.bufsize file p f) (hn : file.length - p < n) :
    getcLoop m n f = encode CR LF (file.drop p) := by
  induction n generalizing p f with
  | zero => omega
  | succ n ih =>
    by_cases hp : p < file.length
    · obtain ⟨f', hget, hf'⟩ := h.getc_some hsize hp
      simp only [getcLoop, hget]
      rw [ih hf' (by omega), putcs_eq, encode_drop hp]
    · have hle := h.le
      obtain rfl : p = file.length := by omega
      have hget := h.getc_none
      unfold getcLoop
      generalize f.getc m.bufsize = x at hget
      obtain ⟨c, f'⟩ := x
      obtain rfl : c = none := hget
      rw [List.drop_length]
      rfl

theorem length_code (c : UInt8) : (code CR LF c).length = if c = LF then 2 else 1 := by
  unfold code
  split <;> rfl

theorem countLoop_eq (hsize : 0 < m.bufsize) {n : Nat} (h : Lib.Buffered.At m.bufsize file p f) (hn : file.length - p < n) :
    countLoop m n f = (encode CR LF (file.drop p)).length := by
  induction n generalizing p f with
  | zero => omega
  | succ n ih =>
    by_cases hp : p < file.length
    · obtain ⟨f', hget, hf'⟩ := h.getc_some hsize hp
      simp only [countLoop, hget]
      rw [ih hf' (by omega), encode_drop hp, List.length_append, length_code]
    · have hle := h.le
      obtain rfl : p = file.length := by omega
      have hget := h.getc_none
      unfold countLoop
      generalize f.getc m.bufsize = x at hget
      obtain ⟨c, f'⟩ := x
      obtain rfl : c = none := hget
      rw [List.drop_length]
      rfl

/-- The SIZE reply is the length of the full transmission. -/
theorem sizecmd_eq (hsize : 0 < m.bufsize) (type : TransferType) (file : List UInt8) :
    sizecmd m type file = (transmission type file).length := by
  cases type with
  | A => exact countLoop_eq hsize (at_open _ file) (by omega)
  | I => rfl
  | L => rfl

/-! ## Skipping -/

theorem encode_take_succ (h : p < file.length) :
    (encode CR LF (file.take (p + 1))).length = (encode CR LF (file.take p)).length + if file[p] = LF then 2 else 1 := by
  rw [List.take_succ_eq_append_getElem h, encode_append, List.length_append, ← length_code]
  simp [encode]

theorem encode_take_le {q : Nat} (h : q ≤ p) : (encode CR LF (file.take q)).length ≤ (encode CR LF (file.take p)).length := by
  have hsplit : file.take p = file.take q ++ (file.take p).drop q := by
    have := List.take_append_drop q (file.take p)
    rwa [List.take_take, Nat.min_eq_left h, eq_comm] at this
  rw [hsplit, encode_append, List.length_append]
  exact Nat.le_add_right _ _

/-- The loop stops at the first place that `n` is not behind. -/
theorem skip_spec (hsize : 0 < m.bufsize) (hp : p ≤ file.length) {n : Nat} (hbefore : ∀ j < p, restartAt .A file j < n)
    (hbehind : n ≤ restartAt .A file p) {turns q : Nat} (hq : q ≤ p) (h : Lib.Buffered.At m.bufsize file q f)
    (hturns : n ≤ turns + restartAt .A file q) :
    ∃ f', skip m n turns (restartAt .A file q) f = some f' ∧ Lib.Buffered.At m.bufsize file p f' := by
  induction turns generalizing q f with
  | zero =>
    refine ⟨f, rfl, ?_⟩
    rcases Nat.lt_or_ge q p with hlt | hge
    · have := hbefore q hlt
      omega
    · obtain rfl : q = p := by omega
      exact h
  | succ turns ih =>
    rcases Nat.lt_or_ge q p with hlt | hge
    · have hqlen : q < file.length := by omega
      have hsucc : restartAt .A file (q + 1) = _ := encode_take_succ hqlen
      obtain ⟨f', hget, hf'⟩ := h.getc_some hsize hqlen
      have hnext : (if file[q] = LF then restartAt .A file q + 2 else restartAt .A file q + 1) = restartAt .A file (q + 1) := by
        rw [hsucc]
        split <;> rfl
      simp only [skip, if_pos (hbefore q hlt), hget, hnext]
      refine ih hlt hf' ?_
      rw [← hnext]
      split <;> omega
    · obtain rfl : q = p := by omega
      exact ⟨f, by simp [skip, hbehind], h⟩

theorem receiveLoop_outstr (behind : Bool) (instr : List UInt8) (r : Received) :
    (receiveLoop behind instr r).outstr = r.outstr ++ decodeFrom CR LF NUL behind instr := by
  induction instr generalizing behind r with
  | nil => cases behind <;> simp [receiveLoop, decodeFrom, Received.putc]
  | cons c instr ih =>
    cases behind with
    | false => by_cases hc : c = CR <;> simp [receiveLoop, decodeFrom, ih, hc, Received.putc]
    | true =>
      by_cases hl : c = LF
      · simp [receiveLoop, decodeFrom, ih, hl, Received.putc]
      · by_cases hn : c = NUL
        · simp [receiveLoop, decodeFrom, ih, hn, Received.putc]
        · by_cases hc : c = CR <;> simp [receiveLoop, decodeFrom, ih, hl, hn, hc, Received.putc]

/-- receive_data undoes the newlines, and an escaped CR. -/
theorem receiveData_outstr (instr : List UInt8) : (receiveData .A instr).outstr = decode CR LF NUL instr :=
  (receiveLoop_outstr false instr _).trans (List.nil_append _)

/-! ## Restart points -/

theorem restartAt_mono {q : Nat} (h : q ≤ p) : restartAt .A file q ≤ restartAt .A file p := encode_take_le h

theorem restartAt_lt {q : Nat} (h : q < p) (hp : p ≤ file.length) : restartAt .A file q < restartAt .A file p := by
  have hsucc : restartAt .A file (q + 1) = _ := encode_take_succ (by omega)
  have hle := @restartAt_mono file p (q + 1) h
  have hone : restartAt .A file q < restartAt .A file (q + 1) := by
    rw [hsucc]
    split <;> exact Nat.lt_add_of_pos_right (by decide)
  omega

/-- Where getc gets to on the way to `r`. -/
theorem exists_position (file : List UInt8) (p : Nat) (r : Int) (hr : r ≤ restartAt .A file p) :
    ∃ q ≤ p, (∀ j < q, (restartAt .A file j : Int) < r) ∧ r ≤ restartAt .A file q := by
  have hex : ∃ q, r ≤ (restartAt .A file q : Int) := ⟨p, hr⟩
  refine ⟨Nat.find hex, Nat.find_min' hex hr, fun j hj => ?_, Nat.find_spec hex⟩
  exact Int.not_le.mp (Nat.find_min hex hj)

/-- What atoi makes of digits. -/
theorem atoi_spec (ds : Str) :
    (Libc.number 10 ds < 2 ^ 31 → Ftpd.atoi ds = Libc.number 10 ds) ∧
    (2 ^ 31 ≤ Libc.number 10 ds → Ftpd.atoi ds + 1 < Libc.number 10 ds) := by
  rw [SiteModes.atoi_digits]
  constructor
  · intro h
    rw [SiteModes.low_of_small h, if_pos h]
  · intro h
    have hlow : SiteModes.low ds = min (Libc.number 10 ds) (2 ^ 63 - 1) % 2 ^ 32 := rfl
    split <;> omega

/-- Every point up to the size in type A is behind some bytes of the file, or inside of the
    pair that a newline is sent as. -/
theorem restartAt_or_inside {n : Nat} (hn : n ≤ (transmission .A file).length) :
    ∃ p ≤ file.length, n = restartAt .A file p ∨
      (∃ h : p < file.length, file[p] = LF ∧ n = restartAt .A file p + 1) := by
  have key : ∀ p ≤ file.length, n ≤ restartAt .A file p →
      ∃ q ≤ file.length, n = restartAt .A file q ∨ (∃ h : q < file.length, file[q] = LF ∧ n = restartAt .A file q + 1) := by
    intro p hp hle
    induction p with
    | zero => exact ⟨0, hp, Or.inl (Nat.le_zero.mp hle)⟩
    | succ p ih =>
      have hsucc := @encode_take_succ file p hp
      rcases Nat.lt_or_ge (restartAt .A file p) n with hlt | hge
      · by_cases hn : n = restartAt .A file (p + 1)
        · exact ⟨p + 1, hp, Or.inl hn⟩
        · refine ⟨p, by omega, Or.inr ⟨hp, ?_, ?_⟩⟩
          all_goals
            simp only [restartAt, transmission] at hle hlt hn ⊢
            split at hsucc
            · omega
            · omega
      · exact ih (by omega) hge
  refine key file.length (Nat.le_refl _) ?_
  rwa [restartAt, List.take_length]

/-- What is left of the transmission is that of what is left of the file. -/
theorem drop_transmission (type : TransferType) (hp : p ≤ file.length) :
    (transmission type file).drop (restartAt type file p) = transmission type (file.drop p) := by
  have hsplit := List.take_append_drop p file
  cases type with
  | A =>
    simp only [restartAt, transmission]
    conv => lhs; rw [← hsplit, encode_append]
    rw [show (encode CR LF ((file.take p ++ file.drop p).take p)) = encode CR LF (file.take p) by rw [hsplit],
      List.drop_left]
  | I | L => simp [restartAt, transmission, Nat.min_eq_left hp]

/-! ## Where send_data starts -/

theorem mapped_eq_some_iff {buf : List UInt8} :
    mapped m f.file.length f = some buf ↔ m.Maps f.file f.off ∧ buf = f.file.drop f.off := by
  have htake : (f.file.drop f.off).take (f.file.length - f.off) = f.file.drop f.off :=
    List.take_of_length_le (List.length_drop ..).le
  simp only [mapped, htake, Machine.Maps]
  split
  · rename_i h
    rw [Option.some.injEq]
    exact ⟨fun hb => ⟨⟨by omega, h.2.2⟩, hb.symm⟩, fun hb => hb.2.symm⟩
  · rename_i h
    refine ⟨nofun, fun hb => absurd ?_ h⟩
    have hlt := hb.1.1
    exact ⟨by omega, by omega, hb.1.2⟩

theorem mapped_of_maps (h : m.Maps f.file f.off) : mapped m f.file.length f = some (f.file.drop f.off) :=
  mapped_eq_some_iff.mpr ⟨h, rfl⟩

theorem mapped_of_not (h : ¬ m.Maps f.file f.off) : mapped m f.file.length f = none := by
  cases hm : mapped m f.file.length f with
  | none => rfl
  | some buf => exact absurd (mapped_eq_some_iff.mp hm).1 h

/-- In type A the descriptor is where getc has left it. -/
theorem position_A (hsize : 0 < m.bufsize) (hp : p ≤ file.length) {r : Int}
    (hbefore : ∀ j < p, (restartAt .A file j : Int) < r) (hbehind : r ≤ restartAt .A file p) :
    ∃ f, position m e .A r (.open file) = some f ∧ Lib.Buffered.At m.bufsize file p f := by
  by_cases hzero : r = 0
  · subst hzero
    obtain rfl : p = 0 := by
      by_contra hpos
      have := hbefore 0 (Nat.pos_of_ne_zero hpos)
      omega
    exact ⟨.open file, by rw [position, if_pos rfl], at_open _ _⟩
  · obtain ⟨f, hskip, hf⟩ : ∃ f, skip m r.toNat r.toNat 0 (.open file) = some f ∧ Lib.Buffered.At m.bufsize file p f := by
      refine skip_spec hsize hp (fun j hj => ?_) (by omega) (Nat.zero_le p) (at_open _ file) (Nat.le_add_right _ _)
      have := hbefore j hj
      omega
    exact ⟨f, by rw [position, if_neg hzero]; exact hskip, hf⟩

theorem maps_min_iff {a : Nat} : m.Maps file (min a file.length) ↔ m.Maps file a := by
  rcases Nat.lt_or_ge a file.length with hlt | hge
  · rw [Nat.min_eq_left hlt.le]
  · rw [Nat.min_eq_right hge]
    exact ⟨fun h => absurd h.1 (by omega), fun h => absurd h.1 (by omega)⟩

/-! ## What send_data sends -/

/-- A transfer that comes to its end has written everything. -/
theorem writeLoop_complete {n i : Nat} {bp : List UInt8} (h : (writeLoop e n i bp).complete = true) :
    (writeLoop e n i bp).sent = bp := by
  induction n generalizing i bp with
  | zero => cases h
  | succ n ih =>
    rw [writeLoop] at h ⊢
    cases hw : e.write i with
    | none => rw [hw] at h; cases h
    | some k =>
      simp only [hw] at h ⊢
      split
      · rfl
      · rename_i hrest
        rw [if_neg hrest] at h
        have := ih h
        simp only [this, List.take_append_drop]

/-- Everything goes out at once. -/
def atOnce (file : List UInt8) : Chances := ⟨true, true, true, fun _ => some file.length⟩

theorem sendData_maps (blksize : Nat) (h : m.Maps f.file f.off) :
    sendData m e .A f.file.length blksize f = ⟨encode CR LF (f.file.drop f.off), e.flushed⟩ := by
  simp only [sendData, mapped_of_maps h, mapLoop_eq]

theorem sendData_getc (hsize : 0 < m.bufsize) (blksize : Nat) (h : Lib.Buffered.At m.bufsize file p f)
    (hmap : ¬ m.Maps f.file f.off) :
    sendData m e .A f.file.length blksize f = ⟨encode CR LF (file.drop p), e.flushed⟩ := by
  have hlen : file.length - p < f.contents.length + 1 := by
    rw [h.contents_eq, List.length_drop]
    omega
  simp only [sendData, mapped_of_not hmap, getcLoop_eq hsize h hlen]

/-- What is encoded is shorter, unless nothing was left out. -/
theorem encode_drop_inj {q : Nat} (hp : p ≤ file.length) (hq : q ≤ file.length)
    (h : encode CR LF (file.drop q) = encode CR LF (file.drop p)) : q = p := by
  have key : ∀ {a b : Nat}, a ≤ b → b ≤ file.length →
      encode CR LF (file.drop b) = encode CR LF (file.drop a) → a = b := by
    intro a b hab hb h
    have hsplit := List.take_append_drop (b - a) (file.drop a)
    rw [List.drop_drop, Nat.add_sub_cancel' hab] at hsplit
    have hlen := congrArg List.length h
    rw [← hsplit, encode_append, List.length_append] at hlen
    have hle : ((file.drop a).take (b - a)).length ≤ (encode CR LF ((file.drop a).take (b - a))).length := length_le_encode _
    rw [List.length_take, List.length_drop] at hle
    omega
  rcases Nat.le_total q p with hle | hle
  · exact key hle hp h.symm
  · exact (key hle hq h).symm

/-- What is sent is the rest behind `p` just if `p` is where send_data starts. -/
theorem retrieve_A_iff (hsize : 0 < m.bufsize) {q : Nat} (hq : q ≤ file.length) {r : Int}
    (hbefore : ∀ j < q, (restartAt .A file j : Int) < r) (hbehind : r ≤ restartAt .A file q) (hp : p ≤ file.length) :
    (∀ e, (retrieve m e .A r file).complete = true → (retrieve m e .A r file).sent = encode CR LF (file.drop p)) ↔
      (m.Maps file (ahead m.bufsize q) ∧ ahead m.bufsize q = p) ∨ (¬ m.Maps file (ahead m.bufsize q) ∧ q = p) := by
  have hret : ∀ e, ∃ f, Lib.Buffered.At m.bufsize file q f ∧ f.file = file ∧
      (m.Maps f.file f.off ↔ m.Maps file (ahead m.bufsize q)) ∧
      retrieve m e .A r file = if e.dataconn then sendData m e .A f.file.length 0 f else .error := by
    intro e
    obtain ⟨f, hpos, hf⟩ := position_A (m := m) (e := e) hsize hq hbefore hbehind
    have hmaps := @maps_min_iff m file (ahead m.bufsize q)
    rw [← hf.off_eq] at hmaps
    exact ⟨f, hf, hf.file_eq, by rwa [hf.file_eq], by rw [retrieve, hpos, hf.file_eq]⟩
  by_cases hmap : m.Maps file (ahead m.bufsize q)
  · have hsend : ∀ e, retrieve m e .A r file =
        if e.dataconn then ⟨encode CR LF (file.drop (ahead m.bufsize q)), e.flushed⟩ else .error := by
      intro e
      obtain ⟨f, hf, hfile, hmaps, heq⟩ := hret e
      rw [heq, sendData_maps 0 (hmaps.mpr hmap), hfile, hf.off_eq, Nat.min_eq_left hmap.1.le]
    rw [and_iff_right hmap, or_iff_left fun h => h.1 hmap]
    constructor
    · intro h
      have hsent := h (atOnce file)
      rw [hsend] at hsent
      exact encode_drop_inj hp hmap.1.le (hsent rfl)
    · rintro rfl e hcomplete
      rw [hsend] at hcomplete ⊢
      split at hcomplete
      · rename_i hconn
        rw [if_pos hconn]
      · cases hcomplete
  · have hsend : ∀ e, retrieve m e .A r file =
        if e.dataconn then ⟨encode CR LF (file.drop q), e.flushed⟩ else .error := by
      intro e
      obtain ⟨f, hf, -, hmaps, heq⟩ := hret e
      rw [heq, sendData_getc hsize 0 hf (hmaps.not.mpr hmap)]
    rw [or_iff_right fun h => hmap h.1, and_iff_right hmap]
    constructor
    · intro h
      have hsent := h (atOnce file)
      rw [hsend] at hsent
      exact encode_drop_inj hp hq (hsent rfl)
    · rintro rfl e hcomplete
      rw [hsend] at hcomplete ⊢
      split at hcomplete
      · rename_i hconn
        rw [if_pos hconn]
      · cases hcomplete

theorem resumes_A_iff (hsize : 0 < m.bufsize) (hp : p ≤ file.length) {ds : Str} (hn : Libc.number 10 ds = restartAt .A file p) :
    Resumes m .A file ds ↔ Sound m .A file p (Ftpd.atoi ds) := by
  have hresumes : Resumes m .A file ds ↔ ∀ e, (retrieve m e .A (Ftpd.atoi ds) file).complete = true →
      (retrieve m e .A (Ftpd.atoi ds) file).sent = encode CR LF (file.drop p) := by
    rw [Resumes, hn, drop_transmission .A hp]
    exact and_iff_left (sizecmd_eq hsize .A file)
  obtain ⟨hsmall, hlarge⟩ := atoi_spec ds
  rw [hresumes, Sound, ← hn]
  by_cases hint : Libc.number 10 ds < 2 ^ 31
  · have hr := hsmall hint
    rw [if_pos hint, retrieve_A_iff hsize hp (fun j hj => ?_) (by omega) hp]
    · -- getc stops at p
      rw [ahead_eq_self_iff hsize, SoundAt]
      tauto
    · have := restartAt_lt hj hp
      omega
  · have hr := hlarge (by omega)
    obtain ⟨q, hqp, hbefore, hbehind⟩ := exists_position file p (Ftpd.atoi ds) (by omega)
    have hq : q < p := by
      refine Nat.lt_of_le_of_ne hqp ?_
      rintro rfl
      -- the place before is not before r either
      obtain ⟨k, rfl⟩ : ∃ k, q = k + 1 := Nat.exists_eq_succ_of_ne_zero fun hzero => by
        rw [hzero, restartAt, List.take_zero] at hn
        exact hint (by rw [hn]; decide)
      have hsucc : restartAt .A file (k + 1) = _ := encode_take_succ hp
      have hk := hbefore k (Nat.lt_succ_self k)
      have hle : restartAt .A file (k + 1) ≤ restartAt .A file k + 2 := by
        rw [hsucc]
        split <;> exact Nat.add_le_add_left (by decide) _
      omega
    rw [if_neg hint, retrieve_A_iff hsize (by omega) hbefore hbehind hp, or_iff_left fun h => absurd h.2 (by omega)]
    -- the last buffer before p is the one that r is in
    have hlast : p < q + m.bufsize ∧ p % m.bufsize = 0 ↔
        restartAt .A file (p - m.bufsize) < Ftpd.atoi ds ∧ p % m.bufsize = 0 := by
      refine and_congr_left fun hmod => ⟨fun h => hbefore _ ?_, fun h => ?_⟩
      · have hone := Nat.le_of_dvd (by omega) (Nat.dvd_of_mod_eq_zero hmod)
        omega
      · by_contra hnot
        have := @restartAt_mono file (p - m.bufsize) q (by omega)
        omega
    constructor
    · rintro ⟨hmap, hahead⟩
      rw [hahead] at hmap
      obtain ⟨hmod, hlt⟩ := (ahead_eq_iff hsize hq).mp hahead
      exact ⟨hmod, hmap, (hlast.mp ⟨hlt, hmod⟩).1⟩
    · rintro ⟨hmod, hmap, hr'⟩
      have hahead := (ahead_eq_iff hsize hq).mpr ⟨hmod, (hlast.mpr ⟨hr', hmod⟩).1⟩
      exact ⟨hahead.symm ▸ hmap, hahead⟩

/-! ## The other types -/

theorem restartAt_I (hp : p ≤ file.length) : restartAt .I file p = p := by
  rw [restartAt, transmission, List.length_take, Nat.min_eq_left hp]

theorem position_I (r : Int) :
    position m e .I r (.open file) = if r = 0 ∨ (e.lseek = true ∧ 0 ≤ r) then some ⟨file, r.toNat, []⟩ else none := by
  rw [position]
  by_cases hzero : r = 0
  · rw [if_pos hzero, if_pos (Or.inl hzero), hzero]
    rfl
  · rw [if_neg hzero]
    simp only [hzero, false_or]
    rfl

theorem writeLoop_atOnce {bp : List UInt8} (hbp : bp ≠ []) (hlen : bp.length ≤ file.length) :
    writeLoop (atOnce file) bp.length 0 bp = ⟨bp, true⟩ := by
  obtain ⟨n, hn⟩ : ∃ n, bp.length = n + 1 := Nat.exists_eq_succ_of_ne_zero fun h => hbp (List.length_eq_zero_iff.mp h)
  rw [hn, writeLoop]
  have hrest : bp.drop (file.length + 1) = [] := List.drop_eq_nil_of_le (by omega)
  simp only [atOnce, hrest, if_true]

theorem sendData_I_maps (blksize : Nat) (h : m.Maps f.file f.off)
    (hcomplete : (sendData m e .I f.file.length blksize f).complete = true) :
    (sendData m e .I f.file.length blksize f).sent = f.file.drop f.off := by
  simp only [sendData, mapped_of_maps h] at hcomplete ⊢
  exact writeLoop_complete hcomplete

/-- A block of no bytes is the end of the file to the loop. -/
theorem sendData_I_not (h : ¬ m.Maps f.file f.off) :
    sendData m e .I f.file.length 0 f = if m.malloc0 = false then .error else ⟨[], true⟩ := by
  simp only [sendData, mapped_of_not h, true_and]
  split
  · rfl
  · simp [readLoop, Reader.read]

/-- A transfer that is complete has come as far as send_data. -/
theorem retrieve_I_complete {r : Int} (h : (retrieve m e .I r file).complete = true) :
    retrieve m e .I r file = sendData m e .I file.length 0 ⟨file, r.toNat, []⟩ := by
  rw [retrieve, position_I] at h ⊢
  by_cases hseek : r = 0 ∨ (e.lseek = true ∧ 0 ≤ r)
  · rw [if_pos hseek] at h ⊢
    by_cases hconn : e.dataconn = true
    · exact if_pos hconn
    · simp only [hconn] at h
      cases h
  · rw [if_neg hseek] at h
    cases h

/-- What is sent is the rest behind `p` just if lseek fails, or goes to `p` and the file can be
    mapped from there on, or nothing is to be sent; nothing is, or an error, if it can not. -/
theorem retrieve_I_iff (hp : p ≤ file.length) {r : Int} (hr : r ≤ p) :
    (∀ e, (retrieve m e .I r file).complete = true → (retrieve m e .I r file).sent = file.drop p) ↔
      r < 0 ∨ (m.Maps file r.toNat ∧ r = p) ∨ (¬ m.Maps file r.toNat ∧ (p = file.length ∨ m.malloc0 = false)) := by
  by_cases hneg : r < 0
  · refine iff_of_true (fun e h => ?_) (Or.inl hneg)
    rw [retrieve, position_I, if_neg (by omega)] at h
    cases h
  have hpos : 0 ≤ r := Int.not_lt.mp hneg
  rw [or_iff_right hneg]
  have honce : retrieve m (atOnce file) .I r file = sendData m (atOnce file) .I file.length 0 ⟨file, r.toNat, []⟩ := by
    rw [retrieve, position_I, if_pos (Or.inr ⟨rfl, hpos⟩)]
    exact if_pos rfl
  by_cases hmap : m.Maps file r.toNat
  · rw [and_iff_right hmap, or_iff_left fun h => h.1 hmap]
    constructor
    · intro h
      have hsend : retrieve m (atOnce file) .I r file = ⟨file.drop r.toNat, true⟩ := by
        have hne : file.drop r.toNat ≠ [] := fun hnil => absurd (List.drop_eq_nil_iff.mp hnil) (Nat.not_le.mpr hmap.1)
        rw [honce]
        simp only [sendData, mapped_of_maps (f := ⟨file, r.toNat, []⟩) hmap]
        exact writeLoop_atOnce hne (by rw [List.length_drop]; omega)
      have hsent := h (atOnce file)
      rw [hsend] at hsent
      have hlen := congrArg List.length (hsent rfl)
      simp only [List.length_drop] at hlen
      have := hmap.1
      omega
    · rintro rfl e h
      have heq := retrieve_I_complete h
      rw [heq] at h ⊢
      exact sendData_I_maps (f := ⟨file, p, []⟩) 0 hmap h
  · have hsend : ∀ e, sendData m e .I file.length 0 ⟨file, r.toNat, []⟩ = if m.malloc0 = false then .error else ⟨[], true⟩ :=
      fun e => sendData_I_not (f := ⟨file, r.toNat, []⟩) hmap
    rw [or_iff_right fun h => hmap h.1, and_iff_right hmap]
    constructor
    · intro h
      cases hm : m.malloc0 with
      | false => exact Or.inr rfl
      | true =>
        have hsent := h (atOnce file)
        rw [honce, hsend, hm, if_neg (by decide)] at hsent
        have hnil : file.drop p = [] := (hsent rfl).symm
        rw [List.drop_eq_nil_iff] at hnil
        exact Or.inl (by omega)
    · intro h e hcomplete
      have heq := (retrieve_I_complete hcomplete).trans (hsend e)
      rw [heq] at hcomplete ⊢
      split
      · rename_i hm
        rw [if_pos hm] at hcomplete
        cases hcomplete
      · rename_i hm
        obtain rfl := h.resolve_right hm
        exact List.drop_length.symm

theorem resumes_I_iff (hp : p ≤ file.length) {ds : Str} (hn : Libc.number 10 ds = restartAt .I file p) :
    Resumes m .I file ds ↔ Sound m .I file p (Ftpd.atoi ds) := by
  have hresumes : Resumes m .I file ds ↔ ∀ e, (retrieve m e .I (Ftpd.atoi ds) file).complete = true →
      (retrieve m e .I (Ftpd.atoi ds) file).sent = file.drop p := by
    rw [Resumes, hn, drop_transmission .I hp]
    exact and_iff_left rfl
  obtain ⟨hsmall, hlarge⟩ := atoi_spec ds
  rw [restartAt_I hp] at hn
  rw [hresumes, Sound, restartAt_I hp]
  by_cases hint : p < 2 ^ 31
  · have hr : Ftpd.atoi ds = p := by rw [hsmall (hn ▸ hint), hn]
    have hend : p = file.length → ¬ m.Maps file p := fun h hmap => absurd hmap.1 (by omega)
    rw [if_pos hint, hr, retrieve_I_iff hp (Int.le_refl _), Int.toNat_natCast, SoundAt]
    constructor
    · rintro (h | ⟨h, -⟩ | ⟨-, h | h⟩)
      · omega
      · exact Or.inr (Or.inl h)
      · exact Or.inl h
      · exact Or.inr (Or.inr h)
    · intro h
      by_cases hmap : m.Maps file p
      · exact Or.inr (Or.inl ⟨hmap, rfl⟩)
      · refine Or.inr (Or.inr ⟨hmap, ?_⟩)
        exact h.imp_right (Or.resolve_left · hmap)
  · have hr := hlarge (by omega)
    rw [if_neg hint, retrieve_I_iff hp (by omega)]
    exact or_congr_right (or_iff_right fun h => absurd h.2 (by omega))

/-! ## REST -/

/-- With the digits of the restart point behind `p` bytes, a transfer sends the rest of the file,
    or fails, exactly when the descriptor is where the reading is or is not asked, and the file
    can be mapped where it has to be; and of what is no int, when nothing comes of that. -/
theorem resumes_iff (m : Machine) (type : TransferType) (file : List UInt8) (p : Nat) (ds : Str) (hsize : 0 < m.bufsize)
    (hp : p ≤ file.length) (hn : Libc.number 10 ds = restartAt type file p) :
    Resumes m type file ds ↔ Sound m type file p (Ftpd.atoi ds) := by
  cases type with
  | A => exact resumes_A_iff hsize hp hn
  | I => exact resumes_I_iff hp hn
  | L => exact resumes_I_iff hp hn

/-- Pages of 4096 bytes. -/
def page : Machine := ⟨4096, 4096, true, true⟩

/-- From the second byte of three on, in type A. -/
theorem resumes_second : Resumes page .A [1, 2, 3] (Libc.text "1") :=
  (resumes_iff page .A [1, 2, 3] 1 (Libc.text "1") (by decide) (by decide) (by decide)).mpr
    ((if_pos (by decide)).mpr (Or.inr fun h => absurd h.1 (by decide)))

/-- REST 1 in type I: nothing is sent, and the reply is 226. -/
theorem resumes_with_nothing :
    ¬ ∀ (m : Machine) (type : TransferType) (file : List UInt8) (p : Nat) (ds : Str), 0 < m.bufsize → p ≤ file.length →
      Libc.number 10 ds = restartAt type file p → Resumes m type file ds := by
  intro h
  have hsent := (h page .I [1, 2, 3] 1 (Libc.text "1") (by decide) (by decide) (by decide)).1 (atOnce [1, 2, 3])
  exact absurd (hsent (by decide)) (by decide)

end Netutils.Ftpd.Transfer
