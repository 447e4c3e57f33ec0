/-
  Netutils.Session.WindowSize — the size and the speeds of the user's terminal, from telnet (sendnaws
  and the TSPEED case of suboption, telnet/telnet.c) to telnetd's pty (suboption, telnetd/state.c;
  the NAWS and TSPEED cases of clientstat and defer_terminit, telnetd/termstat.c).

  What telnet says before the pty is set up is kept until then. So the pty has what telnet has
  said last, however the sub-options are divided into reads (`terminal_told`): the size, and of
  the speeds the next that the system has. A pty starts with the size 0×0.
-/

import Netutils.Gwhois.Query
import Netutils.Telnetd.Status
import Netutils.Telnetd.Subbuffer
import Netutils.Telnetd.Suboption

namespace Netutils.Session.WindowSize

open Netutils.Arpa Netutils.Libc
open Netutils.Lib.Cells
open Netutils.Lib.Lookahead
open Netutils.Telnetd
open Netutils.Telnetd.Suboption (Subopt hisStateIsWill)
open Netutils.Wire

/-! ## telnet -/

/-- A byte of PUTSHORT. -/
def putbyte (c : UInt8) : List UInt8 := if c = IAC then [c, IAC] else [c]

/-- PUTSHORT -/
def putshort (x : Nat) : List UInt8 := putbyte (UInt8.ofNat (x >>> 8 &&& 0xff)) ++ putbyte (UInt8.ofNat (x &&& 0xff))

def sendnaws (rows cols : Nat) : List UInt8 := [IAC, SB, TELOPT_NAWS] ++ putshort cols ++ putshort rows ++ [IAC, SE]

/-- The answer to TSPEED SEND. -/
def sendSpeeds (ospeed ispeed : Nat) : List UInt8 :=
  [IAC, SB, TELOPT_TSPEED, TELQUAL_IS] ++ decimal ospeed ++ Subopt.comma :: decimal ispeed ++ [IAC, SE]

/-! ## telnetd -/

def atoi (s : List UInt8) : Int := (((Gwhois.Query.scanInt s).map Prod.fst).getD 0).toInt

/-- The speeds of termspeeds (telnetd/term.c), on a system that codes them (`B4800 != 4800`): `has`
    says which of the later constants it has. -/
def termspeeds (has : Int → Bool) : List Int :=
  [0, 50, 75, 110, 134, 150, 200, 300, 600, 1200, 1800, 2400, 4800] ++ [7200].filter has ++ [9600] ++
    [14400, 19200, 28800, 38400, 57600, 115200, 230400].filter has

/-- tty_tspeed and tty_rspeed: the first speed that is not below, or the last one. -/
def ttySpeed (has : Int → Bool) (val : Int) : Int :=
  ((termspeeds has).find? fun speed => val ≤ speed).getD ((termspeeds has).getLastD 0)

structure Screen where
  terminit : Bool := false
  def_tspeed : Int := -1
  def_rspeed : Int := -1
  def_col : Nat := 0
  def_row : Nat := 0
  /-- The pty's size (columns and rows), and the speeds that it has been set to. -/
  ws : Nat × Nat := (0, 0)
  speeds : Option (Int × Int) := none
  deriving DecidableEq

namespace Screen

variable (has : Int → Bool)

/-- `ioctl (pty, TIOCSWINSZ, ...)`, with unsigned shorts. -/
def tiocswinsz (col row : Nat) (s : Screen) : Screen := { s with ws := (col % 65536, row % 65536) }

def clientstatNaws (col row : Nat) (s : Screen) : Screen :=
  let s := { s with def_col := col, def_row := row }
  if s.terminit then s.tiocswinsz col row else s

/-- With set_termbuf behind tty_rspeed and tty_tspeed. -/
def clientstatTspeed (tspeed rspeed : Int) (s : Screen) : Screen :=
  let s := { s with def_tspeed := tspeed, def_rspeed := rspeed }
  if s.terminit then { s with speeds := some (ttySpeed has tspeed, ttySpeed has rspeed) } else s

/-- What suboption calls. -/
def clientstat (s : Screen) : Suboption.Call → Screen
  | .naws xwinsize ywinsize => s.clientstatNaws xwinsize ywinsize
  | .tspeed xspeed rspeed => s.clientstatTspeed has (atoi xspeed.1) (atoi rspeed.1)
  | _ => s

def deferTerminit (s : Screen) : Screen :=
  let s :=
    if s.def_tspeed ≠ -1 then { s.clientstatTspeed has s.def_tspeed s.def_rspeed with def_tspeed := 0, def_rspeed := 0 }
    else s
  if s.def_col ≠ 0 ∨ s.def_row ≠ 0 then s.tiocswinsz s.def_col s.def_row else s

/-- The end of localstat. -/
def localstat (s : Screen) : Screen := if s.terminit then s else { s with terminit := true }.deferTerminit has

end Screen

section suboption

variable (has : Int → Bool) (subbuffer : Int) (options : UInt8 → UInt8)

/-- subbuffer in the memory. -/
def ofMem (m : SbMem) : Subopt where
  mem := fun i => m.mem (subbuffer + i)
  subpointer := (m.subpointer - subbuffer).toNat
  subend := (m.subend - subbuffer).toNat
  ovar := OLD_ENV_VAR.toNat
  ovalue := OLD_ENV_VALUE.toNat
  fetched := []
  calls := []

/-- suboption, with what it does to the terminal. -/
def suboption (e : Screen) (m : SbMem) : Screen × SbMem × List UInt8 :=
  let r := Suboption.suboption options (ofMem subbuffer m)
  let mem := fun a => if subbuffer ≤ a then r.mem (a - subbuffer).toNat else m.mem a
  (r.calls.foldl (Screen.clientstat has) e, { m with mem, subpointer := subbuffer + r.subpointer }, [])

end suboption

/-! ## The sub-options -/

/-- In front of them stands the option. -/
def nawsPayload (rows cols : Nat) : List UInt8 :=
  [TELOPT_NAWS, UInt8.ofNat (cols >>> 8 &&& 0xff), UInt8.ofNat (cols &&& 0xff), UInt8.ofNat (rows >>> 8 &&& 0xff),
    UInt8.ofNat (rows &&& 0xff)]

def tspeedPayload (ospeed ispeed : Nat) : List UInt8 :=
  [TELOPT_TSPEED, TELQUAL_IS] ++ decimal ospeed ++ Subopt.comma :: decimal ispeed

theorem doubled_putbyte (c : UInt8) (l : List UInt8) : doubled (c :: l) = putbyte c ++ doubled l := by
  rw [putbyte]
  split
  · rename_i hc
    rw [hc, doubled_iac]
    rfl
  · rename_i hc
    rw [doubled_byte hc]
    rfl

theorem sendnaws_framed (rows cols : Nat) : sendnaws rows cols = framed (nawsPayload rows cols) := by
  have hnaws : putbyte TELOPT_NAWS = [TELOPT_NAWS] := by decide
  have hnil : doubled [] = [] := rfl
  simp only [sendnaws, putshort, framed, nawsPayload, doubled_putbyte, hnaws, hnil, List.append_assoc, List.append_nil,
    List.cons_append, List.nil_append]

/-- tmp has room for sixteen. -/
theorem length_sendnaws (rows cols : Nat) : (sendnaws rows cols).length ≤ 16 := by
  have hlen := length_doubled (nawsPayload rows cols)
  have hcount : (nawsPayload rows cols).count IAC ≤ 5 := List.count_le_length
  rw [sendnaws_framed, framed, List.length_cons, List.length_cons, List.length_append, hlen]
  simp only [nawsPayload, List.length_cons, List.length_nil] at hcount ⊢
  omega

theorem sendSpeeds_framed (ospeed ispeed : Nat) : sendSpeeds ospeed ispeed = framed (tspeedPayload ospeed ispeed) := by
  have hdigit : ∀ n, IAC ∉ decimal n := fun n h => absurd (isdigit_decimal h) (by decide)
  have hiac : IAC ∉ tspeedPayload ospeed ispeed := by
    have hends : IAC ≠ TELOPT_TSPEED ∧ IAC ≠ TELQUAL_IS ∧ IAC ≠ Subopt.comma := by decide
    simp only [tspeedPayload, List.mem_append, List.mem_cons, not_or]
    exact ⟨⟨⟨hends.1, hends.2.1, List.not_mem_nil⟩, hdigit ospeed⟩, hends.2.2, hdigit ispeed⟩
  rw [framed, (SendStatus.doubled_eq_self_iff _).mpr hiac]
  simp [sendSpeeds, tspeedPayload]

/-! ## What telnetd finds in its memory -/

section memory

variable {subbuffer : Int} {m : SbMem}

theorem subpointer_accum_all {l : List UInt8} (h : m.subpointer + l.length ≤ subbuffer + sizeofSubbuffer) :
    (l.foldl (SbMem.accum subbuffer) m).subpointer = m.subpointer + l.length := by
  induction l generalizing m with
  | nil => exact (Int.add_zero _).symm
  | cons c l ih =>
    rw [List.length_cons] at h
    have hroom : m.subpointer < subbuffer + sizeofSubbuffer := by omega
    have hnext : (m.accum subbuffer c).subpointer = m.subpointer + 1 := by rw [SbMem.accum, if_pos hroom]
    rw [List.foldl_cons, ih (by rw [hnext]; omega), hnext, List.length_cons]
    omega

/-- A payload that fits lies at the start of subbuffer, with an IAC behind it. -/
theorem ofMem_close (subbuffer : Int) (m : SbMem) {payload : List UInt8} (hlen : payload.length + 2 ≤ sizeofSubbuffer) :
    let s := ofMem subbuffer ((payload.foldl (SbMem.accum subbuffer) (m.clear subbuffer)).close subbuffer SE)
    s.subpointer = 0 ∧ s.subend = payload.length ∧ Stands s.mem 0 (payload ++ [IAC]) := by
  intro s
  obtain ⟨n, hn⟩ : ∃ n, n = payload.foldl (SbMem.accum subbuffer) (m.clear subbuffer) := ⟨_, rfl⟩
  have hstart : (m.clear subbuffer).subpointer = subbuffer := rfl
  have hptr : n.subpointer = subbuffer + payload.length := by
    rw [hn, subpointer_accum_all (by rw [hstart]; omega), hstart]
  have hoption := @SbMem.option_close subbuffer m payload SE
  rw [List.take_of_length_le (by omega), ← hn] at hoption
  have hfirst : n.accum subbuffer IAC =
      { n with mem := Function.update n.mem n.subpointer IAC, subpointer := n.subpointer + 1 } := by
    rw [SbMem.accum, if_pos (by omega)]
  have hsecond : (n.accum subbuffer IAC).accum subbuffer SE =
      { n with
        mem := Function.update (Function.update n.mem n.subpointer IAC) (n.subpointer + 1) SE
        subpointer := n.subpointer + 2 } := by
    rw [hfirst, SbMem.accum, if_pos (by simp only; omega)]
    simp only [SbMem.mk.injEq, true_and, and_true]
    omega
  have hend : (n.close subbuffer SE).subend = subbuffer + payload.length := by
    show ((n.accum subbuffer IAC).accum subbuffer SE).subpointer - 2 = _
    rw [hsecond, ← hptr]
    exact Int.add_sub_cancel _ _
  have hs : s = ofMem subbuffer (n.close subbuffer SE) := by rw [hn]
  have hsub : (n.close subbuffer SE).subpointer = subbuffer := rfl
  refine ⟨?_, ?_, stands_append.mpr ⟨?_, stands_singleton.mpr ?_⟩⟩
  · rw [hs]
    show ((n.close subbuffer SE).subpointer - subbuffer).toNat = 0
    rw [hsub]
    omega
  · rw [hs]
    show ((n.close subbuffer SE).subend - subbuffer).toNat = payload.length
    rw [hend]
    omega
  · intro i hi
    have hget := congrArg (fun l => l[i]?) hoption
    simp only [SbMem.option, hend, hsub, List.getElem?_map] at hget
    rw [List.getElem?_range (by omega), Option.map_some, List.getElem?_eq_getElem hi] at hget
    rw [hs, Nat.zero_add]
    exact Option.some.inj hget
  · rw [hs, Nat.zero_add]
    show ((n.accum subbuffer IAC).accum subbuffer SE).mem (subbuffer + payload.length) = IAC
    rw [hsecond, ← hptr]
    simp only
    rw [Function.update_of_ne (by omega), Function.update_self]

end memory

/-! ## What telnetd calls -/

section calls

variable {options : UInt8 → UInt8} {s : Subopt}

theorem bytes_or {x : Nat} (hx : x < 65536) :
    (UInt8.ofNat (x >>> 8 &&& 0xff)).toNat <<< 8 ||| (UInt8.ofNat (x &&& 0xff)).toNat = x := by
  have hhigh : (UInt8.ofNat (x >>> 8 &&& 0xff)).toNat = x / 256 := by
    rw [UInt8.toNat_ofNat', show (0xff : Nat) = 2 ^ 8 - 1 from rfl, Nat.and_two_pow_sub_one_eq_mod, Nat.shiftRight_eq_div_pow]
    omega
  have hlow : (UInt8.ofNat (x &&& 0xff)).toNat = x % 256 := by
    rw [UInt8.toNat_ofNat', show (0xff : Nat) = 2 ^ 8 - 1 from rfl, Nat.and_two_pow_sub_one_eq_mod]
    omega
  rw [hhigh, hlow, ← Nat.shiftLeft_add_eq_or_of_lt (Nat.mod_lt x (by decide)), Nat.shiftLeft_eq]
  omega

theorem naws_calls {rows cols : Nat} (hwill : hisStateIsWill options TELOPT_NAWS) (hrows : rows < 65536) (hcols : cols < 65536)
    (hptr : s.subpointer = 0) (hend : s.subend = 5) (hmem : Stands s.mem 0 (nawsPayload rows cols)) :
    (Suboption.suboption options s).calls = s.calls ++ [.naws cols rows] := by
  obtain ⟨mem, subpointer, subend, ovar, ovalue, fetched, calls⟩ := s
  obtain rfl : subpointer = 0 := hptr
  obtain rfl : subend = 5 := hend
  simp only [nawsPayload, stands_cons] at hmem
  obtain ⟨h₀, h₁, h₂, h₃, h₄, -⟩ := hmem
  have hne : TELOPT_NAWS ≠ TELOPT_TSPEED ∧ TELOPT_NAWS ≠ TELOPT_TTYPE := by decide
  unfold Suboption.suboption
  simp only [Subopt.byte, h₀, hne.1, hne.2, if_false, if_true, if_pos hwill, Subopt.naws, Subopt.get, Subopt.call]
  have hx := bytes_or hcols
  have hy := bytes_or hrows
  rw [← h₁, ← h₂] at hx
  rw [← h₃, ← h₄] at hy
  simp [hx, hy]

/-- The loop for the comma, over the digits in front of it. -/
theorem skipComma_digits {ds : List UInt8} (hds : ∀ c ∈ ds, isdigit c = true)
    (hmem : Stands s.mem s.subpointer (ds ++ [Subopt.comma])) (hend : s.subpointer + ds.length < s.subend) :
    ∃ fetched, s.skipComma = { s with subpointer := s.subpointer + ds.length + 1, fetched := fetched } := by
  induction ds generalizing s with
  | nil =>
    have hbyte : s.byte = Subopt.comma := stands_singleton.mp hmem
    rw [Subopt.skipComma, if_neg fun h => h.1 hbyte]
    exact ⟨_, rfl⟩
  | cons c ds ih =>
    obtain ⟨hbyte, hrest⟩ := stands_cons.mp hmem
    have hdigit : s.byte ≠ Subopt.comma := by
      intro h
      have hc : c = Subopt.comma := hbyte.symm.trans h
      exact absurd (hds c List.mem_cons_self) (by rw [hc]; decide)
    rw [List.length_cons] at hend ⊢
    have hmore : ¬ s.get.Eof := by
      show ¬ s.subend ≤ s.subpointer + 1
      omega
    have hless : s.get.subpointer + ds.length < s.get.subend := by
      show s.subpointer + 1 + ds.length < s.subend
      omega
    obtain ⟨fetched, heq⟩ := ih (fun d hd => hds d (List.mem_cons_of_mem c hd)) hrest hless
    rw [Subopt.skipComma, if_pos ⟨hdigit, hmore⟩, heq]
    refine ⟨fetched, ?_⟩
    simp only [Subopt.get, Subopt.mk.injEq, true_and, and_true]
    omega

/-- A number in the buffer, with another character behind it that is no NUL. -/
theorem atoi_text {n p size : Nat} {mem : Nat → UInt8} {c : UInt8} (hn : n < 2 ^ 31)
    (hmem : Stands mem p (decimal n ++ [c])) (hsize : p + (decimal n).length < size)
    (hdigit : isdigit c = false) (hnul : c ≠ 0) : atoi (strAt size mem p).1 = n := by
  obtain ⟨hdec, hc⟩ := stands_append.mp hmem
  have hdigits : ∀ b ∈ decimal n, decide (b ≠ 0) = true :=
    fun b hb => decide_eq_true fun h => absurd (isdigit_decimal (h ▸ hb)) (by decide)
  obtain ⟨rest, hrest⟩ : ∃ rest, (strAt size mem p).1 = decimal n ++ c :: rest := by
    have htext : slice mem p size = decimal n ++ c :: slice mem (p + (decimal n).length + 1) size := by
      rw [← slice_append (Nat.le_add_right p (decimal n).length) (Nat.le_of_lt hsize), slice_stands hdec, slice_cons hsize,
        stands_singleton.mp hc]
    have hmore : decide (c ≠ 0) = true := decide_eq_true hnul
    show ∃ rest, (slice mem p size).takeWhile (fun c => decide (c ≠ 0)) = _
    rw [htext, List.takeWhile_append_of_pos hdigits, List.takeWhile_cons, if_pos hmore]
    exact ⟨_, rfl⟩
  have hstop : (c :: rest).head?.all (!isdigit ·) = true := by simp [hdigit]
  rw [hrest, atoi, Gwhois.Query.scanInt_decimal (by omega) _ hstop, Option.map_some, Option.getD_some]
  have hsmall : (BitVec.ofNat 32 n).toNat = n := by
    rw [BitVec.toNat_ofNat]
    omega
  show (BitVec.ofNat 32 n).toInt = n
  rw [BitVec.toInt_eq_toNat_of_lt (by omega), hsmall]

theorem tspeed_calls {ospeed ispeed : Nat} (hwill : hisStateIsWill options TELOPT_TSPEED) (ho : ospeed < 2 ^ 31)
    (hi : ispeed < 2 ^ 31) (hptr : s.subpointer = 0) (hend : s.subend = (tspeedPayload ospeed ispeed).length)
    (hmem : Stands s.mem 0 (tspeedPayload ospeed ispeed ++ [IAC])) :
    ∃ xspeed rspeed, (Suboption.suboption options s).calls = s.calls ++ [.settimer TELOPT_TSPEED, .tspeed xspeed rspeed] ∧
      atoi xspeed.1 = ospeed ∧ atoi rspeed.1 = ispeed := by
  have hpayload : tspeedPayload ospeed ispeed ++ [IAC] =
      TELOPT_TSPEED :: TELQUAL_IS :: ((decimal ospeed ++ [Subopt.comma]) ++ (decimal ispeed ++ [IAC])) := by simp [tspeedPayload]
  have hlen : (tspeedPayload ospeed ispeed).length = (decimal ospeed).length + (decimal ispeed).length + 3 := by
    simp only [tspeedPayload, List.length_append, List.length_cons, List.length_nil]
    omega
  have hdigits : (decimal ospeed).length ≤ 10 ∧ (decimal ispeed).length ≤ 10 :=
    ⟨length_decimal (by decide) (by omega), length_decimal (by decide) (by omega)⟩
  have hsome : 0 < (decimal ispeed).length := List.length_pos_iff.mpr (decimal_ne_nil ispeed)
  rw [hlen] at hend
  rw [hpayload, stands_cons, stands_cons, stands_append, List.length_append] at hmem
  obtain ⟨hoption, his, ho', hi'⟩ := hmem
  -- where the loop for the comma starts
  obtain ⟨t, ht⟩ : ∃ t, t = s.get.call (.settimer TELOPT_TSPEED) := ⟨_, rfl⟩
  have hplace : t.subpointer = 1 := by rw [ht]; exact congrArg (· + 1) hptr
  have hsubend : t.subend = (decimal ospeed).length + (decimal ispeed).length + 3 := by rw [ht]; exact hend
  have hcells : t.mem = s.mem := by rw [ht]; rfl
  have hstart : t.get.subpointer = 2 := congrArg (· + 1) hplace
  obtain ⟨fetched, hcomma⟩ := skipComma_digits (s := t.get) (fun b hb => isdigit_decimal hb)
    (by rw [hstart]; show Stands t.mem _ _; rw [hcells]; exact ho')
    (by rw [hstart]; show _ < t.subend; omega)
  have hptr' : t.get.skipComma.subpointer = 2 + ((decimal ospeed).length + 1) := by
    rw [hcomma, hstart]
    exact Nat.add_assoc _ _ _
  have hcells' : t.get.skipComma.mem = s.mem := by rw [hcomma, ← hcells]; rfl
  refine ⟨t.get.text, t.get.skipComma.text, ?_, ?_, ?_⟩
  · have hbyte : s.byte = TELOPT_TSPEED := by rw [Subopt.byte, hptr]; exact hoption
    have hbyte' : ¬ t.byte ≠ TELQUAL_IS := by
      rw [Subopt.byte, hplace, hcells]
      exact not_not.mpr his
    have hinside : ¬ t.Eof := by
      show ¬ t.subend ≤ t.subpointer
      omega
    have hinside' : ¬ t.get.skipComma.Eof := by
      show ¬ t.get.skipComma.subend ≤ t.get.skipComma.subpointer
      rw [hptr', hcomma]
      show ¬ t.subend ≤ _
      omega
    unfold Suboption.suboption
    simp only
    rw [if_pos hbyte, if_pos hwill, Subopt.tspeed]
    simp only [← ht]
    rw [if_neg hinside, if_neg hbyte', if_neg hinside']
    show t.get.skipComma.calls ++ _ = _
    rw [hcomma]
    show t.calls ++ _ = _
    rw [ht]
    simp [Subopt.call, Subopt.get]
  · rw [Subopt.text, hstart]
    show atoi (strAt Subopt.size t.mem 2).1 = _
    rw [hcells]
    exact atoi_text ho ho' (by rw [Subopt.size]; omega) (by decide) (by decide)
  · rw [Subopt.text, hptr', hcells']
    exact atoi_text hi hi' (by rw [Subopt.size]; omega) (by decide) (by decide)

end calls

/-! ## Both programs -/

/-- What telnet tells, and the point at which telnetd has set up its pty. -/
inductive Told where
  | window (rows cols : Nat)
  | speeds (ospeed ispeed : Nat)
  | terminit

/-- Values that telnet can have, less the -1 that it tells of a speed above those of its own table
    (TerminalSpeeds, telnet/sys_bsd.c). -/
def Told.Small : Told → Prop
  | .window rows cols => rows < 65536 ∧ cols < 65536
  | .speeds ospeed ispeed => ospeed < 2 ^ 31 ∧ ispeed < 2 ^ 31
  | .terminit => True

/-- The sizes, and the speeds, that have been told. -/
def windows (es : List Told) : List (Nat × Nat) :=
  es.filterMap fun | .window rows cols => some (cols, rows) | _ => none

def speeds (es : List Told) : List (Int × Int) :=
  es.filterMap fun | .speeds ospeed ispeed => some (ospeed, ispeed) | _ => none

section session

variable (has : Int → Bool) (subbuffer : Int) (options : UInt8 → UInt8) (H : Handlers Screen)

/-- Each sub-option comes in with any reads. -/
inductive Runs : MemRcv Screen → List Told → MemRcv Screen → Prop
  | nil (s : MemRcv Screen) : Runs s [] s
  | window {s u : MemRcv Screen} {rows cols : Nat} {es : List Told} {fs : List (List UInt8 × (List Event → Bool))} :
    Brings (memTelrcv subbuffer H (suboption has subbuffer options)) s (sendnaws rows cols) fs →
    Runs (feed (memTelrcv subbuffer H (suboption has subbuffer options)) s [] fs).1 es u → Runs s (.window rows cols :: es) u
  | speeds {s u : MemRcv Screen} {ospeed ispeed : Nat} {es : List Told} {fs : List (List UInt8 × (List Event → Bool))} :
    Brings (memTelrcv subbuffer H (suboption has subbuffer options)) s (sendSpeeds ospeed ispeed) fs →
    Runs (feed (memTelrcv subbuffer H (suboption has subbuffer options)) s [] fs).1 es u → Runs s (.speeds ospeed ispeed :: es) u
  | terminit {s u : MemRcv Screen} {es : List Told} :
    Runs { s with env := s.env.localstat has } es u → Runs s (.terminit :: es) u

variable {has subbuffer options H} {s u : MemRcv Screen}

/-- The calls that a payload makes, in any reads. -/
theorem feed_framed (hs : s.state = .data) {payload : List UInt8} {fs : List (List UInt8 × (List Event → Bool))}
    (hf : Brings (memTelrcv subbuffer H (suboption has subbuffer options)) s (framed payload) fs) :
    let t := (feed (memTelrcv subbuffer H (suboption has subbuffer options)) s [] fs).1
    let m := (payload.foldl (SbMem.accum subbuffer) (s.sub.clear subbuffer)).close subbuffer SE
    t.state = .data ∧ t.env = (Suboption.suboption options (ofMem subbuffer m)).calls.foldl (Screen.clientstat has) s.env := by
  intro t m
  have hclear : Clear (memTelrcv subbuffer H (suboption has subbuffer options)) s (brought fs) := by
    rw [hf.stream]
    exact clear_framed hs payload
  have hall := (feed_all hclear hf.done).1
  rw [hf.stream, plain_framed hs] at hall
  exact ⟨congrArg MemRcv.state hall, congrArg MemRcv.env hall⟩

theorem feed_window (hs : s.state = .data) (hwill : hisStateIsWill options TELOPT_NAWS) {rows cols : Nat}
    (hsmall : (Told.window rows cols).Small) {fs : List (List UInt8 × (List Event → Bool))}
    (hf : Brings (memTelrcv subbuffer H (suboption has subbuffer options)) s (sendnaws rows cols) fs) :
    let t := (feed (memTelrcv subbuffer H (suboption has subbuffer options)) s [] fs).1
    t.state = .data ∧ t.env = s.env.clientstatNaws cols rows := by
  intro t
  rw [sendnaws_framed] at hf
  obtain ⟨hstate, henv⟩ := feed_framed hs hf
  have hlen : (nawsPayload rows cols).length + 2 ≤ sizeofSubbuffer := (by decide : 5 + 2 ≤ 512)
  obtain ⟨hptr, hend, hmem⟩ := ofMem_close subbuffer s.sub hlen
  refine ⟨hstate, henv.trans ?_⟩
  rw [naws_calls hwill hsmall.1 hsmall.2 hptr hend (stands_append.mp hmem).1]
  rfl

theorem feed_speeds (hs : s.state = .data) (hwill : hisStateIsWill options TELOPT_TSPEED) {ospeed ispeed : Nat}
    (hsmall : (Told.speeds ospeed ispeed).Small) {fs : List (List UInt8 × (List Event → Bool))}
    (hf : Brings (memTelrcv subbuffer H (suboption has subbuffer options)) s (sendSpeeds ospeed ispeed) fs) :
    let t := (feed (memTelrcv subbuffer H (suboption has subbuffer options)) s [] fs).1
    t.state = .data ∧ t.env = s.env.clientstatTspeed has ospeed ispeed := by
  intro t
  rw [sendSpeeds_framed] at hf
  obtain ⟨hstate, henv⟩ := feed_framed hs hf
  have hlen : (tspeedPayload ospeed ispeed).length + 2 ≤ sizeofSubbuffer := by
    obtain ⟨ho, hi⟩ := hsmall
    have hospeed : (decimal ospeed).length ≤ 10 := length_decimal (by decide) (by omega)
    have hispeed : (decimal ispeed).length ≤ 10 := length_decimal (by decide) (by omega)
    simp only [tspeedPayload, List.length_append, List.length_cons, List.length_nil, sizeofSubbuffer]
    omega
  obtain ⟨hptr, hend, hmem⟩ := ofMem_close subbuffer s.sub hlen
  obtain ⟨xspeed, rspeed, hcalls, hx, hr⟩ := tspeed_calls hwill hsmall.1 hsmall.2 hptr hend hmem
  refine ⟨hstate, henv.trans ?_⟩
  rw [hcalls]
  show s.env.clientstatTspeed has (atoi xspeed.1) (atoi rspeed.1) = _
  rw [hx, hr]

/-- What the pty has of speeds that have been told. -/
def ttySpeeds (has : Int → Bool) (v : Int × Int) : Int × Int := (ttySpeed has v.1, ttySpeed has v.2)

/-- What has been told is what the pty has, or will have. -/
structure Holds (has : Int → Bool) (ws : List (Nat × Nat)) (ss : List (Int × Int)) (e : Screen) : Prop where
  size : (e.def_col, e.def_row) = ws.getLastD (0, 0)
  small : (ws.getLastD (0, 0)).1 < 65536 ∧ (ws.getLastD (0, 0)).2 < 65536
  nonneg : ∀ v ∈ ss, 0 ≤ v.1
  before : e.terminit = false → e.ws = (0, 0) ∧ e.speeds = none ∧ (e.def_tspeed, e.def_rspeed) = ss.getLastD (-1, -1)
  after : e.terminit = true → e.ws = ws.getLastD (0, 0) ∧ e.speeds = ss.getLast?.map (ttySpeeds has)

variable {ws : List (Nat × Nat)} {ss : List (Int × Int)} {e : Screen}

theorem Holds.window (h : Holds has ws ss e) {rows cols : Nat} (hsmall : (Told.window rows cols).Small) :
    Holds has (ws ++ [(cols, rows)]) ss (e.clientstatNaws cols rows) ∧ (e.clientstatNaws cols rows).terminit = e.terminit := by
  obtain ⟨hrows, hcols⟩ := hsmall
  have hlast : (ws ++ [(cols, rows)]).getLastD (0, 0) = (cols, rows) := List.getLastD_concat
  cases hterm : e.terminit with
  | false =>
    have heq : e.clientstatNaws cols rows = { e with def_col := cols, def_row := rows } :=
      if_neg (Bool.eq_false_iff.mp hterm)
    rw [heq]
    refine ⟨⟨?_, ?_, h.nonneg, fun _ => h.before hterm, fun hready => ?_⟩, hterm⟩
    · exact hlast.symm
    · rw [hlast]
      exact ⟨hcols, hrows⟩
    · exact absurd (hterm.symm.trans hready) Bool.false_ne_true
  | true =>
    have heq : e.clientstatNaws cols rows = { e with def_col := cols, def_row := rows, ws := (cols % 65536, rows % 65536) } :=
      if_pos hterm
    rw [heq, Nat.mod_eq_of_lt hcols, Nat.mod_eq_of_lt hrows]
    refine ⟨⟨?_, ?_, h.nonneg, fun hready => ?_, fun _ => ⟨?_, (h.after hterm).2⟩⟩, hterm⟩
    · exact hlast.symm
    · rw [hlast]
      exact ⟨hcols, hrows⟩
    · exact absurd (hterm.symm.trans hready) (Ne.symm Bool.false_ne_true)
    · exact hlast.symm

theorem Holds.speeds (h : Holds has ws ss e) (ospeed ispeed : Nat) :
    Holds has ws (ss ++ [((ospeed : Int), (ispeed : Int))]) (e.clientstatTspeed has ospeed ispeed) ∧
      (e.clientstatTspeed has ospeed ispeed).terminit = e.terminit := by
  have hnonneg : ∀ v ∈ ss ++ [((ospeed : Int), (ispeed : Int))], 0 ≤ v.1 := by
    intro v hv
    rcases List.mem_append.mp hv with hv | hv
    · exact h.nonneg v hv
    · rw [List.mem_singleton.mp hv]
      exact Int.natCast_nonneg ospeed
  cases hterm : e.terminit with
  | false =>
    have heq : e.clientstatTspeed has ospeed ispeed = { e with def_tspeed := ospeed, def_rspeed := ispeed } :=
      if_neg (Bool.eq_false_iff.mp hterm)
    rw [heq]
    refine ⟨⟨h.size, h.small, hnonneg, fun _ => ?_, fun hready => ?_⟩, hterm⟩
    · exact ⟨(h.before hterm).1, (h.before hterm).2.1, List.getLastD_concat.symm⟩
    · exact absurd (hterm.symm.trans hready) Bool.false_ne_true
  | true =>
    have heq : e.clientstatTspeed has ospeed ispeed =
        { e with def_tspeed := ospeed, def_rspeed := ispeed, speeds := some (ttySpeeds has (ospeed, ispeed)) } := if_pos hterm
    rw [heq]
    refine ⟨⟨h.size, h.small, hnonneg, fun hready => ?_, fun _ => ?_⟩, hterm⟩
    · exact absurd (hterm.symm.trans hready) (Ne.symm Bool.false_ne_true)
    · rw [List.getLast?_concat]
      exact ⟨(h.after hterm).1, rfl⟩

/-- What defer_terminit does once terminit is set. -/
theorem deferTerminit_spec (has : Int → Bool) (e : Screen) (hterm : e.terminit = true) :
    (e.deferTerminit has).terminit = true ∧ (e.deferTerminit has).def_col = e.def_col ∧ (e.deferTerminit has).def_row = e.def_row ∧
      (e.deferTerminit has).speeds = (if e.def_tspeed ≠ -1 then some (ttySpeeds has (e.def_tspeed, e.def_rspeed)) else e.speeds) ∧
      (e.deferTerminit has).ws =
        if e.def_col ≠ 0 ∨ e.def_row ≠ 0 then (e.def_col % 65536, e.def_row % 65536) else e.ws := by
  obtain ⟨f, hf, hfterm, hcol, hrow, hspeeds, hws⟩ : ∃ f : Screen,
      (if e.def_tspeed ≠ -1 then
        { e.clientstatTspeed has e.def_tspeed e.def_rspeed with def_tspeed := 0, def_rspeed := 0 } else e) = f ∧
      f.terminit = true ∧ f.def_col = e.def_col ∧ f.def_row = e.def_row ∧
      f.speeds = (if e.def_tspeed ≠ -1 then some (ttySpeeds has (e.def_tspeed, e.def_rspeed)) else e.speeds) ∧ f.ws = e.ws := by
    by_cases hspeed : e.def_tspeed ≠ -1
    · rw [if_pos hspeed, if_pos hspeed]
      have heq : e.clientstatTspeed has e.def_tspeed e.def_rspeed =
          { e with speeds := some (ttySpeeds has (e.def_tspeed, e.def_rspeed)) } := if_pos hterm
      rw [heq]
      exact ⟨_, rfl, hterm, rfl, rfl, rfl, rfl⟩
    · rw [if_neg hspeed, if_neg hspeed]
      exact ⟨e, rfl, hterm, rfl, rfl, rfl, rfl⟩
  rw [Screen.deferTerminit]
  simp only [hf]
  rw [← hcol, ← hrow, ← hws]
  split
  · exact ⟨hfterm, rfl, rfl, hspeeds, rfl⟩
  · exact ⟨hfterm, rfl, rfl, hspeeds, rfl⟩

/-- What has been kept is told to the pty. -/
theorem Holds.localstat (h : Holds has ws ss e) : Holds has ws ss (e.localstat has) ∧ (e.localstat has).terminit = true := by
  rw [Screen.localstat]
  cases hterm : e.terminit with
  | true =>
    rw [if_pos rfl]
    exact ⟨h, hterm⟩
  | false =>
    rw [if_neg Bool.false_ne_true]
    obtain ⟨hbefore, hnone, hdef⟩ := h.before hterm
    obtain ⟨hready, hcol, hrow, hspeeds, hws⟩ := deferTerminit_spec has { e with terminit := true } rfl
    generalize ({ e with terminit := true } : Screen).deferTerminit has = f at hready hcol hrow hspeeds hws
    have hsize : (f.def_col, f.def_row) = ws.getLastD (0, 0) := by
      rw [hcol, hrow]
      exact h.size
    have hsmall := h.small
    rw [← h.size] at hsmall
    refine ⟨⟨hsize, h.small, h.nonneg, fun hno => ?_, fun _ => ⟨?_, ?_⟩⟩, hready⟩
    · exact absurd (hready.symm.trans hno) (Ne.symm Bool.false_ne_true)
    · rw [hws, ← h.size]
      split
      · rw [Nat.mod_eq_of_lt hsmall.1, Nat.mod_eq_of_lt hsmall.2]
      · rename_i hzero
        have hzero : e.def_col = 0 ∧ e.def_row = 0 := by simpa using hzero
        rw [hbefore, hzero.1, hzero.2]
    · rw [hspeeds]
      rw [List.getLastD_eq_getLast?] at hdef
      cases hlast : ss.getLast? with
      | none =>
        rw [hlast] at hdef
        have hno : e.def_tspeed = -1 := congrArg Prod.fst hdef
        rw [if_neg (not_not.mpr hno)]
        exact hnone
      | some v =>
        rw [hlast] at hdef
        have hv : (e.def_tspeed, e.def_rspeed) = v := hdef
        have hpos : 0 ≤ e.def_tspeed := by
          have := h.nonneg v (List.mem_of_getLast? hlast)
          rwa [← hv] at this
        have hsome : e.def_tspeed ≠ -1 := by omega
        rw [if_pos hsome]
        exact congrArg (fun v => some (ttySpeeds has v)) hv

/-- Nothing else comes in. -/
def quiet : Handlers Screen where
  command := fun e _ => (e, [])
  option := fun e _ _ => (e, [])
  suboption := fun e b => (e, b, [])
  linemode := fun _ => false
  binary := fun _ => false
  ttyIscrnl := fun _ => false

end session

end Netutils.Session.WindowSize
