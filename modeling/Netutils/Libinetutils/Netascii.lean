/-
  Netutils.Libinetutils.Netascii — a file through readit, read_ahead, writeit and write_behind
  (libinetutils/tftpsubs.c), with read_ahead and write_behind called as often as the two ends
  like, and the packets' headers written to the buffers in between.

  The blocks that are read are those of the file's code, whatever is read ahead
  (`readBlocks_eq`); what is written is the text of the blocks, decoded (`writeBlocks_spec`). So
  an expansion that straddles two blocks comes out right (`netascii_round_trip`).
-/

import Netutils.Libinetutils.Tftpsubs

namespace Netutils.Libinetutils.Tftpsubs

open Netutils.Arpa

/-! ## A reader and a writer -/

def readAheads (convert : Bool) : Nat → Subs → List UInt8 → Subs × List UInt8
  | 0, s, file => (s, file)
  | n + 1, s, file =>
    let r := readAhead convert s file
    readAheads convert n r.1 r.2

/-- The blocks, for each what was put at dp and how often read_ahead was called before its readit. -/
def readBlocks (convert : Bool) : List (Tftphdr × Nat) → Subs → List UInt8 → List (List UInt8)
  | [], _, _ => []
  | (p, n) :: trips, s, file =>
    let r := readAheads convert n (s.setDp p) file
    let r := readit convert r.1 r.2
    r.2.1.dp.data.take r.1.toNat :: readBlocks convert trips r.2.1 r.2.2

def writeBehinds (convert : Bool) : Nat → Subs → List UInt8 → Subs × List UInt8
  | 0, s, file => (s, file)
  | n + 1, s, file =>
    let r := writeBehind convert s file
    writeBehinds convert n r.1 r.2

/-- Each packet comes to dp, is given to writeit and followed by so many calls of write_behind. -/
def writeBlocks (convert : Bool) : List (Tftphdr × Nat) → Subs → List UInt8 → Subs × List UInt8
  | [], s, file => (s, file)
  | (p, n) :: packets, s, file =>
    let r := writeit convert (s.setDp p) file p.data.length
    let r := writeBehinds convert n r.1 r.2
    writeBlocks convert packets r.1 r.2

/-- The file of a writer that calls write_behind once more at the end. -/
def writeFile (convert : Bool) (packets : List (Tftphdr × Nat)) (s : Subs) : List UInt8 :=
  let r := writeBlocks convert packets (wInit s) []
  (writeBehind convert r.1 r.2).2

/-! ## Reading -/

variable {convert : Bool} {text file rest : List UInt8} {k : Nat} {s : Subs}

/-- Before a readit. -/
def Ready (convert : Bool) (text : List UInt8) (k : Nat) (s : Subs) (rest : List UInt8) : Prop :=
  Fetched convert text k s rest ∨ Ahead convert text k s rest

theorem readAhead_ready (h : Ready convert text k s rest) :
    Ready convert text k (readAhead convert s rest).1 (readAhead convert s rest).2 := by
  rcases h with h | h
  · exact Or.inr (readAhead_fetched h).1
  · rw [readAhead_ahead h]
    exact Or.inr h

theorem readAheads_ready (n : Nat) (h : Ready convert text k s rest) :
    Ready convert text k (readAheads convert n s rest).1 (readAheads convert n s rest).2 := by
  induction n generalizing s rest with
  | zero => exact h
  | succ n ih => exact ih (readAhead_ready h)

theorem readit_ready (h : Ready convert text k s rest) :
    (readit convert s rest).1 = (piece text (k + 1)).length ∧
      Fetched convert text (k + 1) (readit convert s rest).2.1 (readit convert s rest).2.2 ∧
      (readit convert s rest).2.1.dp.data = piece text (k + 1) :=
  h.elim readit_fetched readit_ahead

/-- The blocks come in order, read ahead or not. -/
theorem readBlocks_eq (trips : List (Tftphdr × Nat)) (h : Fetched convert text k s rest) :
    readBlocks convert trips s rest = (List.range' (k + 1) trips.length).map (piece text) := by
  induction trips generalizing k s rest with
  | nil => rfl
  | cons trip trips ih =>
    obtain ⟨p, n⟩ := trip
    obtain ⟨hsize, hfetched, hdata⟩ := readit_ready (readAheads_ready n (Or.inl (setDp_fetched p h)))
    rw [readBlocks, List.length_cons, List.range'_succ, List.map_cons]
    simp only [hsize, hdata, Int.toNat_natCast, List.take_length]
    rw [ih hfetched]

/-! ## Writing -/

/-- Everything but this has been written of the text. -/
def Behind (convert : Bool) (text : List UInt8) (s : Subs) (file : List UInt8) : Prop :=
  (Empty s ∧ Written convert text s file) ∨
    ∃ done d, text = done ++ d ∧ Pending d s ∧ Written convert done s file

theorem writeBehind_behind (h : Behind convert text s file) :
    Empty (writeBehind convert s file).1 ∧ Written convert text (writeBehind convert s file).1 (writeBehind convert s file).2 := by
  rcases h with ⟨hempty, hwritten⟩ | ⟨done, d, rfl, hpending, hwritten⟩
  · rw [writeBehind_empty hempty]
    exact ⟨hempty, hwritten⟩
  · obtain ⟨hempty, hwritten, -⟩ := writeBehind_pending hpending hwritten
    exact ⟨hempty, hwritten⟩

theorem writeBehinds_behind (n : Nat) (h : Behind convert text s file) :
    Behind convert text (writeBehinds convert n s file).1 (writeBehinds convert n s file).2 := by
  induction n generalizing s file with
  | zero => exact h
  | succ n ih => exact ih (Or.inl (writeBehind_behind h))

theorem writeit_behind (p : Tftphdr) (h : Behind convert text s file) :
    Behind convert (text ++ p.data) (writeit convert (s.setDp p) file p.data.length).1
      (writeit convert (s.setDp p) file p.data.length).2 := by
  have hdp : (s.setDp p).dp = p := by simp [Subs.dp, Subs.setDp]
  right
  rcases h with ⟨hempty, hwritten⟩ | ⟨done, d, rfl, hpending, hwritten⟩
  · obtain ⟨hpending', hwritten'⟩ := writeit_empty (setDp_empty p hempty) (setDp_written p hwritten)
    rw [hdp] at hpending' hwritten'
    exact ⟨text, p.data, rfl, hpending', hwritten'⟩
  · obtain ⟨hpending', hwritten'⟩ := writeit_pending (setDp_pending p hpending) (setDp_written p hwritten)
    rw [hdp] at hpending' hwritten'
    exact ⟨done ++ d, p.data, rfl, hpending', hwritten'⟩

theorem writeBlocks_behind (packets : List (Tftphdr × Nat)) (h : Behind convert text s file) :
    Behind convert (text ++ (packets.map (·.1.data)).flatten) (writeBlocks convert packets s file).1
      (writeBlocks convert packets s file).2 := by
  induction packets generalizing text s file with
  | nil => simpa [writeBlocks] using h
  | cons packet packets ih =>
    obtain ⟨p, n⟩ := packet
    have hnext := ih (writeBehinds_behind n (writeit_behind p h))
    rwa [List.append_assoc] at hnext

/-- The file is what the text of the blocks stands for. -/
theorem writeBlocks_spec (convert : Bool) (packets : List (Tftphdr × Nat)) (s : Subs) :
    writeFile convert packets s = decoded convert (packets.map (·.1.data)).flatten := by
  have hbehind := writeBlocks_behind packets (Or.inl ⟨wInit_empty s, wInit_written convert s⟩)
  exact (writeBehind_behind hbehind).2.eq_decoded

/-! ## There and back -/

/-- Blocks up to a short one are all there is. -/
theorem flatten_of_short {n : Nat} (h : ∃ b ∈ (List.range' 1 n).map (piece text), b.length ≠ SEGSIZE) :
    ((List.range' 1 n).map (piece text)).flatten = text := by
  obtain ⟨b, hb, hshort⟩ := h
  obtain ⟨k, hk, rfl⟩ := List.mem_map.mp hb
  obtain ⟨hpos, hlt⟩ := List.mem_range'_1.mp hk
  rw [length_piece] at hshort
  rw [flatten_pieces, List.take_of_length_le]
  unfold SEGSIZE at *
  omega

theorem short_of_lastBlock {n : Nat} (h : lastBlock text ≤ n) :
    ∃ b ∈ (List.range' 1 n).map (piece text), b.length ≠ SEGSIZE := by
  have hpos : 1 ≤ lastBlock text := Nat.succ_le_succ (Nat.zero_le _)
  refine ⟨piece text (lastBlock text), List.mem_map.mpr ⟨lastBlock text, ?_, rfl⟩, ?_⟩
  · exact List.mem_range'_1.mpr ⟨hpos, by omega⟩
  · rw [Ne, length_piece_lt_iff hpos (Nat.le_refl _)]
    omega

/-- A reader comes to a short block, and a writer that is given the blocks up to there has
    written the file. -/
theorem netascii_round_trip (file : List UInt8) (s t : Subs) :
    (∃ n, ∀ trips : List (Tftphdr × Nat), n ≤ trips.length →
      ∃ b ∈ readBlocks true trips (rInit s) file, b.length ≠ SEGSIZE) ∧
    ∀ trips packets : List (Tftphdr × Nat), (∃ b ∈ readBlocks true trips (rInit s) file, b.length ≠ SEGSIZE) →
      packets.map (·.1.data) = readBlocks true trips (rInit s) file → writeFile true packets t = file := by
  have hread : ∀ trips, readBlocks true trips (rInit s) file =
      (List.range' 1 trips.length).map (piece (encoded true file)) := by
    intro trips
    exact readBlocks_eq trips (rInit_fetched true file s)
  simp only [hread]
  refine ⟨⟨lastBlock (encoded true file), fun trips => short_of_lastBlock⟩, ?_⟩
  intro trips packets hshort hpackets
  rw [writeBlocks_spec, hpackets, flatten_of_short hshort, decoded_encoded]

end Netutils.Libinetutils.Tftpsubs
