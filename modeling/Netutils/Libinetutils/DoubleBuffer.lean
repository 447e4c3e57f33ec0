/-
  Netutils.Libinetutils.DoubleBuffer — the two buffers of libinetutils/tftpsubs.c in any
  schedule: readit once for each block with read_ahead in between, writeit once for each block
  with write_behind in between, at whatever moments the timeouts make them come.

  A reader gets the blocks of the file in order and keeps the one it has (`reads_once`). All
  but the last block of a writer is in the file at any time, the last one waits in the buffer
  that has not been handed out (`writes_once`).
-/

import Netutils.Libinetutils.Netascii

namespace Netutils.Libinetutils.Tftpsubs

open Netutils.Arpa

/-! ## The sender's calls -/

inductive ReadEvent where
  /-- The header is written in front of the block. -/
  | header (opcode block : UInt16)
  | readAhead
  | readit
  deriving DecidableEq

structure Reader where
  subs : Subs
  file : List UInt8
  /-- The sizes returned, and the data that dp was set to. -/
  returned : List (Int × List UInt8)

def Reader.step (convert : Bool) (r : Reader) : ReadEvent → Reader
  | .header opcode block => { r with subs := r.subs.setDp { r.subs.dp with opcode := opcode, block := block } }
  | .readAhead =>
    let t := Tftpsubs.readAhead convert r.subs r.file
    { r with subs := t.1, file := t.2 }
  | .readit =>
    let t := Tftpsubs.readit convert r.subs r.file
    ⟨t.2.1, t.2.2, r.returned ++ [(t.1, t.2.1.dp.data)]⟩

def readRun (convert : Bool) (s : Subs) (file : List UInt8) (es : List ReadEvent) : Reader :=
  es.foldl (Reader.step convert) ⟨rInit s, file, []⟩

/-- Full blocks, and one that is not full. -/
structure Splits (text : List UInt8) (blocks : List (List UInt8)) : Prop where
  flatten : blocks.flatten = text
  full : ∀ b ∈ blocks.dropLast, b.length = SEGSIZE
  short : ∃ b, blocks.getLast? = some b ∧ b.length < SEGSIZE

theorem splits_pieces (text : List UInt8) : Splits text ((List.range' 1 (lastBlock text)).map (piece text)) := by
  have hlast : lastBlock text = lastBlock text - 1 + 1 := rfl
  have hcut : (List.range' 1 (lastBlock text)).map (piece text) =
      (List.range' 1 (lastBlock text - 1)).map (piece text) ++ [piece text (lastBlock text)] := by
    conv_lhs => rw [hlast, List.range'_1_concat, List.map_append]
    rw [Nat.add_comm 1, ← hlast]
    rfl
  refine ⟨flatten_blocks text, ?_, piece text (lastBlock text), ?_, ?_⟩
  · rw [hcut, List.dropLast_concat]
    intro b hb
    obtain ⟨k, hk, rfl⟩ := List.mem_map.mp hb
    obtain ⟨hpos, hlt⟩ := List.mem_range'_1.mp hk
    exact (length_piece_lt_iff hpos (by omega)).mpr (by omega)
  · rw [hcut, List.getLast?_concat]
  · have hne := mt (length_piece_lt_iff (k := lastBlock text) (by omega) (Nat.le_refl _)).mp (by omega)
    have hle : (piece text (lastBlock text)).length ≤ SEGSIZE := by
      rw [length_piece]
      exact Nat.min_le_left _ _
    omega

/-- `k` blocks have been returned, and the last one is at dp. -/
structure Reads (convert : Bool) (text : List UInt8) (k : Nat) (r : Reader) : Prop where
  ready : Ready convert text k r.subs r.file
  returned : r.returned = (List.range' 1 k).map fun i => (((piece text i).length : Int), piece text i)
  kept : 1 ≤ k → r.subs.dp.data = piece text k

variable {convert : Bool} {text file : List UInt8} {k : Nat} {s : Subs} {r : Reader}

theorem setDp_dp (s : Subs) (p : Tftphdr) : (s.setDp p).dp = p := by simp [Subs.dp, Subs.setDp]

theorem setDp_ahead (p : Tftphdr) {rest : List UInt8} (h : Ahead convert text k s rest) :
    Ahead convert text k (s.setDp p) rest :=
  ⟨by simpa [Subs.setDp] using h.at_dp, by simpa [Subs.setDp] using h.counter, by simpa [Subs.setDp] using h.data,
    h.nextone, h.rest⟩

theorem readAhead_dp {rest : List UInt8} (h : Ready convert text k s rest) :
    (Tftpsubs.readAhead convert s rest).1.dp = s.dp := by
  rcases h with h | h
  · exact (readAhead_fetched h).2
  · rw [readAhead_ahead h]

theorem Reads.step (h : Reads convert text k r) (e : ReadEvent) :
    Reads convert text (k + if e = .readit then 1 else 0) (r.step convert e) := by
  cases e with
  | header opcode block =>
    refine ⟨h.ready.imp (setDp_fetched _) (setDp_ahead _), h.returned, fun hk => ?_⟩
    simp only [Reader.step, setDp_dp]
    exact h.kept hk
  | readAhead =>
    refine ⟨readAhead_ready h.ready, h.returned, fun hk => ?_⟩
    exact (congrArg Tftphdr.data (readAhead_dp h.ready)).trans (h.kept hk)
  | readit =>
    obtain ⟨hsize, hfetched, hdata⟩ := readit_ready h.ready
    refine ⟨Or.inl hfetched, ?_, fun _ => hdata⟩
    simp only [Reader.step, hsize, hdata, h.returned]
    rw [if_pos trivial, List.range'_1_concat, List.map_append, Nat.add_comm 1 k]
    rfl

theorem readRun_reads (convert : Bool) (s : Subs) (file : List UInt8) (es : List ReadEvent) :
    Reads convert (encoded convert file) (es.count .readit) (readRun convert s file es) := by
  have hrun : ∀ (k : Nat) (r : Reader), Reads convert (encoded convert file) k r →
      Reads convert (encoded convert file) (k + es.count .readit) (es.foldl (Reader.step convert) r) := by
    induction es with
    | nil => exact fun _ _ h => h
    | cons e es ih =>
      intro k r h
      have hnext := ih _ _ (h.step e)
      rw [List.count_cons, List.foldl_cons]
      rw [show k + (es.count ReadEvent.readit + if (e == ReadEvent.readit) = true then 1 else 0) =
        (k + if e = .readit then 1 else 0) + es.count .readit by simp only [beq_iff_eq]; omega]
      exact hnext
  have hstart : Reads convert (encoded convert file) 0 ⟨rInit s, file, []⟩ :=
    ⟨Or.inl (rInit_fetched convert file s), rfl, fun h => absurd h (by decide)⟩
  have h := hrun 0 _ hstart
  rwa [Nat.zero_add] at h

/-! ## The receiver's calls -/

inductive WriteEvent where
  /-- A packet comes to dp. -/
  | recv (p : Tftphdr)
  | writeBehind
  /-- What is at dp is a block. -/
  | writeit

structure Writer where
  subs : Subs
  file : List UInt8
  /-- The blocks given to writeit so far. -/
  blocks : List (List UInt8)

def Writer.step (convert : Bool) (w : Writer) : WriteEvent → Writer
  | .recv p => { w with subs := w.subs.setDp p }
  | .writeBehind =>
    let t := Tftpsubs.writeBehind convert w.subs w.file
    { w with subs := t.1, file := t.2 }
  | .writeit =>
    let d := w.subs.dp.data
    let t := Tftpsubs.writeit convert w.subs w.file d.length
    ⟨t.1, t.2, w.blocks ++ [d]⟩

def writeRun (convert : Bool) (s : Subs) (es : List WriteEvent) : Writer :=
  es.foldl (Writer.step convert) ⟨wInit s, [], []⟩

/-- There is something to flush in this buffer. -/
def Subs.waits (s : Subs) (i : Bool) : Prop := -1 ≤ (s.bfs i).counter

/-- The blocks are in the file, but for the one that waits. -/
structure Writes (convert : Bool) (done waiting : List (List UInt8)) (w : Writer) : Prop where
  blocks : w.blocks = done ++ waiting
  written : Written convert done.flatten w.subs w.file
  state : waiting = [] ∧ Empty w.subs ∨ ∃ d, waiting = [d] ∧ Pending d w.subs

variable {w : Writer} {done waiting : List (List UInt8)}

theorem Writes.flushed (h : Writes convert done waiting w) :
    Writes convert (done ++ waiting) [] (w.step convert .writeBehind) := by
  rcases h.state with ⟨rfl, hempty⟩ | ⟨d, rfl, hpending⟩
  · simp only [Writer.step, writeBehind_empty hempty, List.append_nil]
    exact ⟨h.blocks, h.written, Or.inl ⟨rfl, hempty⟩⟩
  · obtain ⟨hempty, hwritten, -⟩ := writeBehind_pending hpending h.written
    refine ⟨by rw [List.append_nil]; exact h.blocks, ?_, Or.inl ⟨rfl, hempty⟩⟩
    rw [List.flatten_append, List.flatten_singleton]
    exact hwritten

theorem Writes.step (h : Writes convert done waiting w) (e : WriteEvent) :
    ∃ done' waiting', Writes convert done' waiting' (w.step convert e) := by
  cases e with
  | recv p =>
    refine ⟨done, waiting, h.blocks, setDp_written p h.written, ?_⟩
    refine h.state.imp (And.imp_right (setDp_empty p)) ?_
    intro ⟨d, hd, hpending⟩
    exact ⟨d, hd, setDp_pending p hpending⟩
  | writeBehind => exact ⟨done ++ waiting, [], h.flushed⟩
  | writeit =>
    refine ⟨done ++ waiting, [w.subs.dp.data], ?_⟩
    have hblocks : (w.step convert .writeit).blocks = done ++ waiting ++ [w.subs.dp.data] :=
      congrArg (· ++ [w.subs.dp.data]) h.blocks
    rcases h.state with ⟨rfl, hempty⟩ | ⟨d, rfl, hpending⟩
    · obtain ⟨hpending', hwritten'⟩ := writeit_empty hempty h.written
      refine ⟨hblocks, ?_, Or.inr ⟨_, rfl, hpending'⟩⟩
      rw [List.append_nil]
      exact hwritten'
    · obtain ⟨hpending', hwritten'⟩ := writeit_pending hpending h.written
      refine ⟨hblocks, ?_, Or.inr ⟨_, rfl, hpending'⟩⟩
      rw [List.flatten_append, List.flatten_singleton]
      exact hwritten'

theorem writeRun_writes (convert : Bool) (s : Subs) (es : List WriteEvent) :
    ∃ done waiting, Writes convert done waiting (writeRun convert s es) := by
  have hrun : ∀ w, (∃ done waiting, Writes convert done waiting w) →
      ∃ done waiting, Writes convert done waiting (es.foldl (Writer.step convert) w) := by
    induction es with
    | nil => exact fun _ h => h
    | cons e es ih =>
      intro w ⟨done, waiting, h⟩
      exact ih _ (h.step e)
  exact hrun _ ⟨[], [], rfl, wInit_written convert s, Or.inl ⟨rfl, wInit_empty s⟩⟩

/-! ## Each block once, in order -/

/-- What a sender gets: the first blocks of the file, as many as it has called readit, and the
    last one stays at dp until the next call. -/
structure ReadsOnce (convert : Bool) (blocks : List (List UInt8)) (es : List ReadEvent) (r : Reader) : Prop where
  count : r.returned.length = es.count .readit
  sizes : ∀ x ∈ r.returned, x.1 = x.2.length
  in_order : (r.returned.map (·.2)).take blocks.length = blocks.take (es.count .readit)
  kept : ∀ x, r.returned.getLast? = some x → r.subs.dp.data = x.2
  undisturbed : (r.step convert .readAhead).subs.dp = r.subs.dp

/-- What a receiver's blocks come to: all in the file but for one at most, which waits in the
    buffer that packets do not come to, and all in the file when write_behind is called. -/
structure WritesOnce (convert : Bool) (w : Writer) : Prop where
  in_order : ∃ done waiting, w.blocks = done ++ waiting ∧ w.file = decoded convert done.flatten ∧
    (waiting = [] ∧ ¬ w.subs.waits (!w.subs.current) ∨
      ∃ d, waiting = [d] ∧ w.subs.waits (!w.subs.current) ∧ (w.subs.bfs (!w.subs.current)).buf.data = d)
  handed_out : ¬ w.subs.waits w.subs.current
  flushed : (w.step convert .writeBehind).file = decoded convert w.blocks.flatten

theorem reads_once (convert : Bool) (s : Subs) (file : List UInt8) :
    ∃ blocks, Splits (encoded convert file) blocks ∧
      ∀ es, ReadsOnce convert blocks es (readRun convert s file es) := by
  refine ⟨_, splits_pieces (encoded convert file), fun es => ?_⟩
  have h := readRun_reads convert s file es
  generalize readRun convert s file es = r at h
  generalize encoded convert file = text at h
  obtain ⟨k, hk⟩ : ∃ k, es.count .readit = k := ⟨_, rfl⟩
  rw [hk] at h
  refine ⟨by simp [h.returned, hk], ?_, ?_, ?_, readAhead_dp h.ready⟩
  · intro x hx
    rw [h.returned] at hx
    obtain ⟨i, -, rfl⟩ := List.mem_map.mp hx
    rfl
  · have hcomm : (List.range' 1 k).take (lastBlock text) = (List.range' 1 (lastBlock text)).take k := by
      rcases Nat.le_total k (lastBlock text) with hle | hle
      · rw [List.take_range'_of_length_le hle, List.take_range'_of_length_ge hle]
      · rw [List.take_range'_of_length_ge hle, List.take_range'_of_length_le hle]
    rw [h.returned, hk, List.map_map, List.length_map, List.length_range', ← List.map_take, ← List.map_take, hcomm]
    rfl
  · intro x hx
    rcases k with _ | k
    · rw [h.returned] at hx
      cases hx
    · rw [h.returned, List.range'_1_concat, List.map_append, List.map_singleton, List.getLast?_concat] at hx
      rw [h.kept (Nat.succ_le_succ (Nat.zero_le k)), ← Option.some.inj hx, Nat.add_comm 1 k]

theorem writes_once (convert : Bool) (s : Subs) (es : List WriteEvent) : WritesOnce convert (writeRun convert s es) := by
  obtain ⟨done, waiting, h⟩ := writeRun_writes convert s es
  generalize writeRun convert s es = w at h
  refine ⟨⟨done, waiting, h.blocks, h.written.eq_decoded, ?_⟩, ?_, ?_⟩
  · refine h.state.imp (And.imp_right fun hempty => ?_) ?_
    · rw [Subs.waits, hempty.other]
      decide
    · intro h
      obtain ⟨d, rfl, hpending⟩ := h
      refine ⟨d, rfl, ?_, hpending.data⟩
      rw [Subs.waits, hpending.other]
      omega
  · have halloc : (w.subs.bfs w.subs.current).counter = BF_ALLOC := by
      rcases h.state with ⟨-, hempty⟩ | ⟨d, -, hpending⟩
      · exact hempty.at_dp
      · exact hpending.at_dp
    rw [Subs.waits, halloc]
    decide
  · rw [h.blocks]
    exact h.flushed.written.eq_decoded

/-- Both directions, in octet mode and in netascii. -/
theorem each_block_once :
    (∀ convert s file, ∃ blocks, Splits (encoded convert file) blocks ∧
      ∀ es, ReadsOnce convert blocks es (readRun convert s file es)) ∧
    ∀ convert s es, WritesOnce convert (writeRun convert s es) :=
  ⟨reads_once, writes_once⟩

end Netutils.Libinetutils.Tftpsubs
