/-
  Netutils.Talkd.Announce — the message on the callee's terminal (talkd/announce.c): the
  lines print_mesg formats, and the buffer finish_line puts them into.

  format_line cuts a line to its row but keeps the length it would have had, and finish_line
  pads every row to the longest of these. The buffer is as large as the rows are, with the
  three characters that come first; but each row gets four more than the longest line has, and
  the last a NUL. So all is well up to lines of 251 characters (`length_finishLine_le_iff`),
  and a host with a long name makes longer ones (`long_names_overrun`). The rows themselves
  are never left.

  Lines are taken to be as short as an int can say, so that vsnprintf gives their length.
-/

import Netutils.Libc.Ctype
import Netutils.Libc.Stdio
import Netutils.Protocols.Talkd

namespace Netutils.Talkd

open Netutils.Arpa Netutils.Libc
open Netutils.Protocols (Str)

/-! ## LINE -/

def N_LINES : Nat := 5
def N_CHARS : Nat := 256

/-- `sizeof buf` -/
def BUF_SIZE : Nat := N_LINES * N_CHARS + 3

/-- What is stored in so many bytes, without the NUL, and the length of the whole. -/
def vsnprintf (size : Nat) (s : Str) : Str × Nat := (s.take (size - 1), s.length)

/-- The rows that are in use, with their sizes. -/
structure Line where
  maxSize : Nat
  rows : List (Str × Nat)

namespace Line

def init : Line := ⟨0, []⟩

/-- format_line, of what the format makes of its arguments. -/
def formatLine (lp : Line) (s : Str) : Line :=
  if N_LINES ≤ lp.rows.length then lp
  else
    let row := vsnprintf N_CHARS s
    ⟨max lp.maxSize row.2, lp.rows ++ [row]⟩

def BEL : UInt8 := 0x07
def SPACE : UInt8 := 0x20

def finishRow (maxSize : Nat) (row : Str × Nat) : Str :=
  cstring (row.1 ++ [NUL]) ++ List.replicate (maxSize + 2 - row.2) SPACE ++ [CR, LF]

/-- All that is stored from buf on. -/
def finishLine (lp : Line) : Str := [BEL, CR, LF] ++ lp.rows.flatMap (finishRow lp.maxSize) ++ [NUL]

/-- Neither the buffer nor a row is left, and no row is used that is not there. -/
structure Inside (lp : Line) : Prop where
  buf : lp.finishLine.length ≤ BUF_SIZE
  row : ∀ row ∈ lp.rows, row.1.length + 1 ≤ N_CHARS
  ind : lp.rows.length ≤ N_LINES

end Line

/-! ## print_mesg -/

/-- `%02d` -/
def twoDigits (n : Nat) : Str := if n < 10 then 0x30 :: decimal n else decimal n

/-- `"Message from Talk_Daemon@%s at %d:%02d ..."` -/
def messageFrom (hostname : Str) (hour min : Nat) : Str :=
  text "Message from Talk_Daemon@" ++ cstring hostname ++ text " at " ++ decimal hour ++ text ":" ++ twoDigits min ++
    text " ..."

/-- `"talk: connection requested by %s@%s"` -/
def requestedBy (lName remoteMachine : Str) : Str :=
  text "talk: connection requested by " ++ cstring lName ++ text "@" ++ cstring remoteMachine

/-- `"talk: respond with:  talk %s@%s"` -/
def respondWith (lName remoteMachine : Str) : Str :=
  text "talk: respond with:  talk " ++ cstring lName ++ text "@" ++ cstring remoteMachine

/-- The lines of print_mesg. -/
def printMesg (hostname : Str) (hour min : Nat) (lName remoteMachine : Str) : Line :=
  ((((((Line.init.formatLine []).formatLine (messageFrom hostname hour min)).formatLine
    (requestedBy lName remoteMachine)).formatLine (respondWith lName remoteMachine)).formatLine []).formatLine [])

/-! ## Rows -/

namespace Line

variable {lp : Line} {s : Str}

/-- As many as there are; a row is a text that has been cut to fit it. -/
structure Formatted (lp : Line) : Prop where
  ind : lp.rows.length ≤ N_LINES
  row : ∀ row ∈ lp.rows, ∃ s, NUL ∉ s ∧ row = vsnprintf N_CHARS s

theorem init_formatted : init.Formatted := by
  refine ⟨Nat.zero_le _, fun row hrow => ?_⟩
  cases hrow

theorem formatLine_formatted (h : lp.Formatted) (hs : NUL ∉ s) : (lp.formatLine s).Formatted := by
  rw [formatLine]
  split_ifs with hfull
  · exact h
  · refine ⟨?_, ?_⟩
    · simp only [List.length_append, List.length_cons, List.length_nil]
      omega
    · intro row hrow
      rcases List.mem_append.mp hrow with hrow | hrow
      · exact h.row row hrow
      · exact ⟨s, hs, List.mem_singleton.mp hrow⟩

theorem Formatted.row_le (h : lp.Formatted) : ∀ row ∈ lp.rows, row.1.length + 1 ≤ N_CHARS := by
  intro row hrow
  obtain ⟨s, -, rfl⟩ := h.row row hrow
  have hle : (s.take (N_CHARS - 1)).length ≤ N_CHARS - 1 := List.length_take_le _ _
  exact Nat.succ_le_succ hle

/-- What a row takes in the buffer. -/
def cost (maxSize size : Nat) : Nat := min (N_CHARS - 1) size + (maxSize + 2 - size) + 2

theorem length_finishRow (hs : NUL ∉ s) (maxSize : Nat) :
    (finishRow maxSize (vsnprintf N_CHARS s)).length = cost maxSize s.length := by
  have hrow : NUL ∉ s.take (N_CHARS - 1) := fun h => hs (List.mem_of_mem_take h)
  rw [finishRow, vsnprintf, cstring_append_nul hrow]
  simp only [List.length_append, List.length_replicate, List.length_take, List.length_cons, List.length_nil, cost]

theorem length_finishLine (h : lp.Formatted) :
    lp.finishLine.length = 4 + (lp.rows.map fun row => cost lp.maxSize row.2).foldr (· + ·) 0 := by
  have hrows : (lp.rows.map fun row => (finishRow lp.maxSize row).length) =
      lp.rows.map fun row => cost lp.maxSize row.2 := by
    refine List.map_congr_left fun row hrow => ?_
    obtain ⟨s, hs, rfl⟩ := h.row row hrow
    exact length_finishRow hs lp.maxSize
  rw [← List.sum_eq_foldr, ← hrows]
  simp only [finishLine, List.length_append, List.length_flatMap, List.length_cons, List.length_nil]
  omega

end Line

/-! ## The announcement -/

theorem nul_not_mem_decimal (n : Nat) : NUL ∉ decimal n := fun h => absurd (isdigit_decimal h) (by decide)

theorem nul_not_mem_twoDigits (n : Nat) : NUL ∉ twoDigits n := by
  rw [twoDigits]
  split_ifs
  · rw [List.mem_cons, not_or]
    exact ⟨by decide, nul_not_mem_decimal n⟩
  · exact nul_not_mem_decimal n

variable (hostname : Str) (hour min : Nat) (lName remoteMachine : Str)

theorem messageFrom_nul : NUL ∉ messageFrom hostname hour min := by
  simp only [messageFrom, List.mem_append, not_or]
  exact ⟨⟨⟨⟨⟨⟨by decide, cstring_nul hostname⟩, by decide⟩, nul_not_mem_decimal hour⟩, by decide⟩,
    nul_not_mem_twoDigits min⟩, by decide⟩

theorem requestedBy_nul : NUL ∉ requestedBy lName remoteMachine := by
  simp only [requestedBy, List.mem_append, not_or]
  exact ⟨⟨⟨by decide, cstring_nul lName⟩, by decide⟩, cstring_nul remoteMachine⟩

theorem respondWith_nul : NUL ∉ respondWith lName remoteMachine := by
  simp only [respondWith, List.mem_append, not_or]
  exact ⟨⟨⟨by decide, cstring_nul lName⟩, by decide⟩, cstring_nul remoteMachine⟩

theorem length_messageFrom : (messageFrom hostname hour min).length =
    34 + ((cstring hostname).length + (decimal hour).length + (twoDigits min).length) := by
  have hfrom : (text "Message from Talk_Daemon@").length = 25 := rfl
  have hat : (text " at ").length = 4 := rfl
  have hcolon : (text ":").length = 1 := rfl
  have hdots : (text " ...").length = 4 := rfl
  simp only [messageFrom, List.length_append, hfrom, hat, hcolon, hdots]
  omega

theorem length_requestedBy :
    (requestedBy lName remoteMachine).length = 31 + ((cstring lName).length + (cstring remoteMachine).length) := by
  have hby : (text "talk: connection requested by ").length = 30 := rfl
  have hat : (text "@").length = 1 := rfl
  simp only [requestedBy, List.length_append, hby, hat]
  omega

theorem length_respondWith :
    (respondWith lName remoteMachine).length = 27 + ((cstring lName).length + (cstring remoteMachine).length) := by
  have hwith : (text "talk: respond with:  talk ").length = 26 := rfl
  have hat : (text "@").length = 1 := rfl
  simp only [respondWith, List.length_append, hwith, hat]
  omega

theorem printMesg_formatted : (printMesg hostname hour min lName remoteMachine).Formatted := by
  have hempty : NUL ∉ ([] : Str) := List.not_mem_nil
  have h0 := Line.formatLine_formatted Line.init_formatted hempty
  have h1 := Line.formatLine_formatted h0 (messageFrom_nul hostname hour min)
  have h2 := Line.formatLine_formatted h1 (requestedBy_nul lName remoteMachine)
  have h3 := Line.formatLine_formatted h2 (respondWith_nul lName remoteMachine)
  exact Line.formatLine_formatted (Line.formatLine_formatted h3 hempty) hempty

/-- The second of the empty lines at the end finds no row. -/
theorem printMesg_eq : printMesg hostname hour min lName remoteMachine =
    ⟨max (max (messageFrom hostname hour min).length (requestedBy lName remoteMachine).length)
        (respondWith lName remoteMachine).length,
      [vsnprintf N_CHARS [], vsnprintf N_CHARS (messageFrom hostname hour min),
        vsnprintf N_CHARS (requestedBy lName remoteMachine), vsnprintf N_CHARS (respondWith lName remoteMachine),
        vsnprintf N_CHARS []]⟩ := by
  simp [printMesg, Line.formatLine, Line.init, N_LINES, vsnprintf]

/-- The names leave no line of more than 251 characters. -/
def Short : Prop :=
  (cstring hostname).length + (decimal hour).length + (twoDigits min).length ≤ 217 ∧
    (cstring lName).length + (cstring remoteMachine).length ≤ 220

/-- Four more than the longest line for each row, as long as none is cut; and too much from 252 on. -/
theorem length_finishLine_le_iff : (printMesg hostname hour min lName remoteMachine).finishLine.length ≤ BUF_SIZE ↔
    Short hostname hour min lName remoteMachine := by
  rw [Line.length_finishLine (printMesg_formatted hostname hour min lName remoteMachine), printMesg_eq, Short]
  simp only [vsnprintf, List.map_cons, List.map_nil, List.foldr_cons, List.foldr_nil, Line.cost, List.length_nil,
    length_messageFrom, length_requestedBy, length_respondWith, BUF_SIZE, N_LINES, N_CHARS]
  omega

/-- The announcement is kept inside LINE exactly if the names are short enough for the buffer. -/
theorem announcement_iff :
    (printMesg hostname hour min lName remoteMachine).Inside ↔ Short hostname hour min lName remoteMachine := by
  have hformatted := printMesg_formatted hostname hour min lName remoteMachine
  rw [← length_finishLine_le_iff]
  exact ⟨fun h => h.buf, fun h => ⟨h, hformatted.row_le, hformatted.ind⟩⟩

/-- At noon, for `joe` on a host with a name of 218 characters. -/
theorem long_names_overrun :
    ¬ (printMesg [0x61] 12 0 [0x6a, 0x6f, 0x65] (List.replicate 218 0x78)).Inside := by
  intro h
  have hshort := (length_finishLine_le_iff _ _ _ _ _).mp h.buf
  have hremote : cstring (List.replicate 218 0x78) = List.replicate 218 0x78 :=
    cstring_of_not_mem fun hmem => absurd (List.eq_of_mem_replicate hmem) (by decide)
  have hlength := hshort.2
  rw [hremote, List.length_replicate] at hlength
  revert hlength
  decide

end Netutils.Talkd
