/-
  Netutils.Rlogind.Protocol — how rlogind takes the client's window sizes out of its data
  (protocol and control of rlogind/rlogind.c, sendwindow of rlogin/rlogin.c), with no
  encryption.

  A window size travels in the data behind the two bytes of `magic`, which the client's data
  does not contain. protocol looks for them in each read by itself, and control takes a
  message only if the read has all of it. So the data and the sizes come out right exactly
  where no read ends inside of a message (`protocol_separates_iff`), whatever the pty takes
  of each write; where one does, the bytes of the message go to the pty.
-/

import Mathlib.Data.List.Basic
import Netutils.Lib.Transition

namespace Netutils.Rlogind

open Netutils.Lib.Transition

/-! ## Window sizes -/

/-- `magic[0]` and `magic[1]` -/
def MAGIC : UInt8 := 0o377

/-- struct winsize -/
structure Winsize where
  row : UInt16
  col : UInt16
  xpixel : UInt16
  ypixel : UInt16
  deriving DecidableEq

/-- An unsigned short that htons has been assigned to, as it lies in memory. -/
def htons (x : UInt16) : List UInt8 := [UInt8.ofNat (x.toNat / 256), x.toUInt8]

def ntohs (a b : UInt8) : UInt16 := UInt16.ofNat (a.toNat * 256 + b.toNat)

/-- The four shorts of the struct, each passed through ntohs. -/
def Winsize.ofBytes : List UInt8 → Option Winsize
  | [a, b, c, d, e, f, g, h] => some ⟨ntohs a b, ntohs c d, ntohs e f, ntohs g h⟩
  | _ => none

def sizeofWinsize : Nat := 8

/-- sendwindow (rlogin) -/
def sendwindow (w : Winsize) : List UInt8 :=
  [MAGIC, MAGIC, 's'.toUInt8, 's'.toUInt8] ++ htons w.row ++ htons w.col ++ htons w.xpixel ++ htons w.ypixel

/-- control: the size it passes to TIOCSWINSZ; it has then used `4 + sizeof (w)` bytes. -/
def control (cp : List UInt8) : Option Winsize :=
  if cp.length < 4 + sizeofWinsize ∨ cp[2]? ≠ some 's'.toUInt8 ∨ cp[3]? ≠ some 's'.toUInt8 then none
  else Winsize.ofBytes ((cp.drop 4).take sizeofWinsize)

/-- The search through a read, from `cp` on: what stays of it, and the sizes. `cp--` and
    `cp++` stay at the place that the rest has been moved to. -/
def search : Nat → List UInt8 → List UInt8 × List Winsize
  | fuel + 1, a :: b :: l =>
    if a = MAGIC ∧ b = MAGIC then
      match control (a :: b :: l) with
      | some w =>
        let r := search fuel ((a :: b :: l).drop (4 + sizeofWinsize))
        (r.1, w :: r.2)
      | none =>
        let r := search fuel (b :: l)
        (a :: r.1, r.2)
    else
      let r := search fuel (b :: l)
      (a :: r.1, r.2)
  | _, l => (l, [])

/-- Each turn moves cp, or takes bytes away. -/
def scan (fibuf : List UInt8) : List UInt8 × List Winsize := search fibuf.length fibuf

/-! ## The loop -/

def TIOCPKT_FLUSHWRITE : UInt8 := 0x02
def TIOCPKT_NOSTOP : UInt8 := 0x10
def TIOCPKT_DOSTOP : UInt8 := 0x20
def TIOCPKT_WINDOW : UInt8 := 0x80

def pkcontrol (c : UInt8) : UInt8 := c &&& (TIOCPKT_FLUSHWRITE ||| TIOCPKT_NOSTOP ||| TIOCPKT_DOSTOP)

structure Protocol where
  /-- What the reads of the network are still to bring. -/
  reads : List (List UInt8)
  /-- fbp and fcc: what waits for the pty. -/
  fbuf : List UInt8
  /-- pbp and pcc: what waits for the network. -/
  pbuf : List UInt8
  oobdata : UInt8
  /-- What has been written to the pty. -/
  pty : List UInt8
  /-- The sizes it has been given. -/
  sizes : List Winsize
  /-- What has been written to the network, and sent to it out of band. -/
  net : List UInt8
  urgent : List UInt8

/-- protocol, up to its loop. -/
def Protocol.init (reads : List (List UInt8)) : Protocol :=
  ⟨reads, [], [], TIOCPKT_WINDOW, [], [], [], [TIOCPKT_WINDOW]⟩

/-- A read that does not fail for good: bytes, or EWOULDBLOCK. -/
inductive Read where
  | bytes
  | wouldBlock

/-- What a turn of the loop meets: which descriptors select leaves in its sets, what is read,
    and how much is taken of a write (`none` for an error, EWOULDBLOCK too). -/
structure Turn where
  /-- The pty is in ebits, and this is the control byte read. -/
  cntl : Option UInt8
  /-- The network is in ibits. -/
  readNet : Option Read
  writablePty : Bool
  takenPty : Option Nat
  /-- The pty is in ibits; `some []` is EWOULDBLOCK. -/
  readPty : Option (List UInt8)
  writableNet : Bool
  takenNet : Option Nat

namespace Protocol

/-- `if (FD_ISSET (p, &ebits))`, and whether it has dropped what waits for the network. -/
def exception (s : Protocol) (cntl : Option UInt8) : Protocol × Bool :=
  match cntl with
  | some c =>
    if pkcontrol c ≠ 0 then
      let c := c ||| s.oobdata
      let s := { s with urgent := s.urgent ++ [c] }
      if c &&& TIOCPKT_FLUSHWRITE ≠ 0 then ({ s with pbuf := [] }, true) else (s, false)
    else (s, false)
  | none => (s, false)

/-- `if (FD_ISSET (f, &ibits))`; the network is in ibits only if nothing waits for the pty. -/
def fromNet (s : Protocol) (read : Option Read) : Option Protocol :=
  match read with
  | none => some s
  | some .wouldBlock => if s.fbuf = [] then some s else none
  | some .bytes =>
    match s.reads with
    | [] => none
    | fibuf :: reads =>
      if s.fbuf = [] then
        let (fbuf, sizes) := scan fibuf
        some { s with
          reads := reads
          fbuf := fbuf
          sizes := s.sizes ++ sizes
          -- control: "we know he heard"
          oobdata := if sizes = [] then s.oobdata else s.oobdata &&& ~~~TIOCPKT_WINDOW }
      else none

/-- `if (FD_ISSET (p, &obits) && fcc > 0)` -/
def toPty (s : Protocol) (isset : Bool) (taken : Option Nat) : Protocol :=
  match taken with
  | some n => if isset then { s with fbuf := s.fbuf.drop n, pty := s.pty ++ s.fbuf.take n } else s
  | none => s

/-- `if (FD_ISSET (p, &ibits))`; the packet's first byte says what it is. -/
def fromPty (s : Protocol) (read : Option (List UInt8)) : Protocol :=
  match read with
  | none => s
  | some [] => { s with pbuf := [] }
  | some (c :: l) =>
    if c = 0 then { s with pbuf := l }
    else { s with
      urgent := if pkcontrol c ≠ 0 then s.urgent ++ [c ||| s.oobdata] else s.urgent
      pbuf := [] }

/-- `if ((FD_ISSET (f, &obits)) && pcc > 0)` -/
def toNet (s : Protocol) (isset : Bool) (taken : Option Nat) : Protocol :=
  match taken with
  | some n => if isset then { s with pbuf := s.pbuf.drop n, net := s.net ++ s.pbuf.take n } else s
  | none => s

/-- A turn of the loop that does not leave it; `none` where select cannot give this. -/
def step (e : Turn) (s : Protocol) : Option Protocol :=
  let (t, flushed) := s.exception e.cntl
  -- the pty is in ibits only if nothing waited for the network, and is cleared by a flush
  if e.readPty.isSome ∧ (s.pbuf ≠ [] ∨ flushed) then none
  else do
    let t ← t.fromNet e.readNet
    let t := t.toPty (if s.fbuf = [] then e.readNet.isSome else e.writablePty) e.takenPty
    let t := t.fromPty e.readPty
    some (t.toNet (if s.pbuf = [] then e.readPty.isSome else e.writableNet) e.takenNet)

end Protocol

/-! ## The stream -/

/-- What the client sends. -/
inductive Item where
  | data (l : List UInt8) (h : MAGIC ∉ l)
  | window (w : Winsize)

def Item.bytes : Item → List UInt8
  | .data l _ => l
  | .window w => sendwindow w

def Item.data? : Item → List UInt8
  | .data l _ => l
  | .window _ => []

def Item.size? : Item → Option Winsize
  | .data _ _ => none
  | .window w => some w

def bytes (items : List Item) : List UInt8 := items.flatMap Item.bytes
def data (items : List Item) : List UInt8 := items.flatMap Item.data?
def sizes (items : List Item) : List Winsize := items.filterMap Item.size?

/-- Reads of at most 1024 bytes that bring the stream. -/
structure Cut (items : List Item) (reads : List (List UInt8)) : Prop where
  stream : reads.flatten = bytes items
  some : ∀ l ∈ reads, l ≠ []
  most : ∀ l ∈ reads, l.length ≤ 1024

/-- Where in a stream the messages begin, if it begins at `k`. -/
def starts : Nat → List Item → List Nat
  | _, [] => []
  | k, .data l _ :: items => starts (k + l.length) items
  | k, .window w :: items => k :: starts (k + (sendwindow w).length) items

/-- No read ends inside of a message. -/
def Whole (items : List Item) (reads : List (List UInt8)) : Prop :=
  ∀ n ≤ reads.length, ∀ p ∈ starts 0 items,
    ¬ (p < (reads.take n).flatten.length ∧ (reads.take n).flatten.length < p + (4 + sizeofWinsize))

instance (items : List Item) (reads : List (List UInt8)) : Decidable (Whole items reads) :=
  inferInstanceAs (Decidable (∀ n ≤ _, _))

/-! ## One read -/

theorem ntohs_htons (x : UInt16) : ntohs (UInt8.ofNat (x.toNat / 256)) x.toUInt8 = x := by
  apply UInt16.toNat_inj.mp
  have := x.toNat_lt
  simp [ntohs]
  omega

theorem control_sendwindow (w : Winsize) (l : List UInt8) : control (sendwindow w ++ l) = some w := by
  simp [control, sendwindow, htons, sizeofWinsize, Winsize.ofBytes, ntohs_htons]

theorem length_sendwindow (w : Winsize) : (sendwindow w).length = 4 + sizeofWinsize := rfl

theorem control_short {l : List UInt8} (h : l.length < 4 + sizeofWinsize) : control l = none := if_pos (Or.inl h)

/-- The beginning of a message is left in the read. -/
theorem search_short {l : List UInt8} (h : l.length < 4 + sizeofWinsize) (fuel : Nat) : search fuel l = (l, []) := by
  induction fuel generalizing l with
  | zero => rfl
  | succ fuel ih =>
    match l with
    | [] => rfl
    | [a] => rfl
    | a :: b :: l =>
      have hnext := ih (l := b :: l) (Nat.lt_of_succ_lt h)
      rw [search, control_short h, hnext]
      split <;> rfl

theorem search_byte {c : UInt8} (hc : c ≠ MAGIC) (l : List UInt8) (fuel : Nat) :
    search (fuel + 1) (c :: l) = (c :: (search fuel l).1, (search fuel l).2) := by
  rcases l with _ | ⟨d, l⟩
  · cases fuel <;> rfl
  · rw [search, if_neg fun h => hc h.1]

theorem search_window (w : Winsize) (l : List UInt8) (fuel : Nat) :
    search (fuel + 1) (sendwindow w ++ l) = ((search fuel l).1, w :: (search fuel l).2) := by
  have hc := control_sendwindow w l
  have hd : (sendwindow w ++ l).drop (4 + sizeofWinsize) = l := List.drop_left' (length_sendwindow w)
  obtain ⟨m, hm⟩ : ∃ m, sendwindow w ++ l = MAGIC :: MAGIC :: m := ⟨_, rfl⟩
  rw [hm] at hc hd ⊢
  rw [search, if_pos ⟨rfl, rfl⟩, hc]
  simp only [hd]

theorem search_data {l : List UInt8} (h : MAGIC ∉ l) (rest : List UInt8) {fuel : Nat}
    (hf : (l ++ rest).length ≤ fuel) :
    ∃ fuel', rest.length ≤ fuel' ∧ search fuel (l ++ rest) = (l ++ (search fuel' rest).1, (search fuel' rest).2) := by
  induction l generalizing fuel with
  | nil => exact ⟨fuel, hf, rfl⟩
  | cons c l ih =>
    rw [List.cons_append, List.length_cons] at hf
    obtain ⟨fuel, rfl⟩ : ∃ f, fuel = f + 1 := ⟨fuel - 1, by omega⟩
    rw [List.mem_cons, not_or] at h
    obtain ⟨fuel', hle, hs⟩ := ih h.2 (show (l ++ rest).length ≤ fuel by omega)
    refine ⟨fuel', hle, ?_⟩
    rw [List.cons_append, search_byte (Ne.symm h.1), hs]
    rfl

/-- Items and the beginning of a message. -/
theorem search_items (items : List Item) {tail : List UInt8} (ht : tail.length < 4 + sizeofWinsize) {fuel : Nat}
    (hf : (bytes items ++ tail).length ≤ fuel) :
    search fuel (bytes items ++ tail) = (data items ++ tail, sizes items) := by
  induction items generalizing fuel with
  | nil => exact search_short ht fuel
  | cons it items ih =>
    have hb : bytes (it :: items) ++ tail = it.bytes ++ (bytes items ++ tail) := by
      rw [bytes, List.flatMap_cons, List.append_assoc]
      rfl
    rw [hb] at hf ⊢
    cases it with
    | data l h =>
      obtain ⟨fuel', hle, hs⟩ := search_data h (bytes items ++ tail) hf
      have hnext := ih hle
      show search fuel (l ++ _) = _
      rw [hs, hnext, ← List.append_assoc]
      rfl
    | window w =>
      have hlen : (sendwindow w ++ (bytes items ++ tail)).length = 12 + (bytes items ++ tail).length := by
        rw [List.length_append]
        rfl
      have hf : (sendwindow w ++ (bytes items ++ tail)).length ≤ fuel := hf
      obtain ⟨fuel, rfl⟩ : ∃ f, fuel = f + 1 := ⟨fuel - 1, by omega⟩
      show search (fuel + 1) (sendwindow w ++ _) = _
      rw [search_window, ih (by omega)]
      rfl

theorem scan_items (items : List Item) {tail : List UInt8} (ht : tail.length < 4 + sizeofWinsize) :
    scan (bytes items ++ tail) = (data items ++ tail, sizes items) := search_items items ht (Nat.le_refl _)

/-! ## All reads -/

theorem starts_add (k : Nat) (items : List Item) (j : Nat) : starts (k + j) items = (starts k items).map (· + j) := by
  induction items generalizing k with
  | nil => rfl
  | cons it items ih =>
    cases it with
    | data l h =>
      show starts (k + j + l.length) items = (starts (k + l.length) items).map _
      rw [← ih, Nat.add_right_comm]
    | window w =>
      show (k + j) :: starts (k + j + _) items = (k + j) :: (starts (k + _) items).map _
      rw [← ih, Nat.add_right_comm]

/-- A stream cut at a place where no message is. -/
structure Parts (items first rest : List Item) : Prop where
  bytes : bytes items = bytes first ++ bytes rest
  data : data items = data first ++ data rest
  sizes : sizes items = sizes first ++ sizes rest
  starts : ∀ k, starts k items = starts k first ++ starts (k + (Rlogind.bytes first).length) rest

theorem parts_nil (items : List Item) : Parts items [] items := ⟨rfl, rfl, rfl, fun _ => rfl⟩

theorem Parts.cons {items first rest : List Item} (h : Parts items first rest) (it : Item) :
    Parts (it :: items) (it :: first) rest := by
  obtain ⟨h1, h2, h3, h4⟩ := h
  cases it with
  | data l hl =>
    refine ⟨?_, ?_, h3, fun k => ?_⟩
    · show l ++ Rlogind.bytes items = l ++ Rlogind.bytes first ++ Rlogind.bytes rest
      rw [h1, List.append_assoc]
    · show l ++ Rlogind.data items = l ++ Rlogind.data first ++ Rlogind.data rest
      rw [h2, List.append_assoc]
    · show Rlogind.starts (k + l.length) items = Rlogind.starts (k + l.length) first ++ Rlogind.starts _ rest
      rw [h4, Nat.add_assoc, ← List.length_append]
      rfl
  | window w =>
    refine ⟨?_, h2, ?_, fun k => ?_⟩
    · show sendwindow w ++ Rlogind.bytes items = sendwindow w ++ Rlogind.bytes first ++ Rlogind.bytes rest
      rw [h1, List.append_assoc]
    · show w :: Rlogind.sizes items = w :: (Rlogind.sizes first ++ Rlogind.sizes rest)
      rw [h3]
    · show k :: Rlogind.starts (k + _) items = k :: (Rlogind.starts (k + _) first ++ Rlogind.starts _ rest)
      rw [h4, Nat.add_assoc, ← List.length_append]
      rfl

theorem starts_first {items : List Item} (it : Item) (j p : Nat) (h : ∀ k, k + p ∈ starts k items) :
    j + (it.bytes.length + p) ∈ starts j (it :: items) := by
  have := h (j + it.bytes.length)
  rw [Nat.add_assoc] at this
  cases it with
  | data l hl => exact this
  | window w => exact List.mem_cons_of_mem _ this

/-- The first bytes of a stream end between items, in a data string, or in a message. -/
theorem cut_at (items : List Item) {k : Nat} (hk : k ≤ (bytes items).length) :
    (∃ first rest, Parts items first rest ∧ (bytes first).length = k) ∨
      ∃ first w rest, bytes items = bytes first ++ sendwindow w ++ rest ∧ (bytes first).length < k ∧
        k < (bytes first).length + (4 + sizeofWinsize) ∧ ∀ j, j + (bytes first).length ∈ starts j items := by
  induction items generalizing k with
  | nil => exact Or.inl ⟨[], [], parts_nil [], (Nat.le_zero.mp hk).symm⟩
  | cons it items ih =>
    have hb : bytes (it :: items) = it.bytes ++ bytes items := rfl
    by_cases hin : it.bytes.length ≤ k
    · rw [hb, List.length_append] at hk
      rcases ih (k := k - it.bytes.length) (by omega) with ⟨first, rest, hp, hlen⟩ | ⟨first, w, rest, h1, h2, h3, h4⟩
      · refine Or.inl ⟨it :: first, rest, hp.cons it, ?_⟩
        show (it.bytes ++ bytes first).length = k
        rw [List.length_append]
        omega
      · have hlen : (bytes (it :: first)).length = it.bytes.length + (bytes first).length := List.length_append
        refine Or.inr ⟨it :: first, w, rest, ?_, by omega, by omega, fun j => ?_⟩
        · rw [hb, h1]
          show _ = it.bytes ++ bytes first ++ sendwindow w ++ rest
          simp only [List.append_assoc]
        · rw [hlen]
          exact starts_first it j _ h4
    · cases it with
      | data l hl =>
        have hk : k < l.length := Nat.lt_of_not_le hin
        have htake : MAGIC ∉ l.take k := fun hm => hl (List.mem_of_mem_take hm)
        have hdrop : MAGIC ∉ l.drop k := fun hm => hl (List.mem_of_mem_drop hm)
        have hlen : (l.take k).length = k := by rw [List.length_take]; omega
        refine Or.inl ⟨[.data (l.take k) htake], .data (l.drop k) hdrop :: items, ⟨?_, ?_, rfl, fun j => ?_⟩, ?_⟩
        · show l ++ bytes items = l.take k ++ [] ++ (l.drop k ++ bytes items)
          rw [List.append_nil, ← List.append_assoc, List.take_append_drop]
        · show l ++ data items = l.take k ++ [] ++ (l.drop k ++ data items)
          rw [List.append_nil, ← List.append_assoc, List.take_append_drop]
        · show starts (j + l.length) items = [] ++ starts (j + (l.take k ++ []).length + (l.drop k).length) items
          rw [List.append_nil, hlen, List.length_drop, List.nil_append]
          congr 1
          omega
        · show (l.take k ++ []).length = k
          rw [List.append_nil, hlen]
      | window w =>
        by_cases h0 : k = 0
        · exact Or.inl ⟨[], _, parts_nil _, h0.symm⟩
        · refine Or.inr ⟨[], w, bytes items, rfl, Nat.pos_of_ne_zero h0, ?_, fun j => List.mem_cons_self⟩
          rw [← length_sendwindow w, Nat.add_comm]
          exact Nat.lt_of_not_le hin

/-- A message lies in its stream. -/
theorem le_of_starts {items : List Item} {k p : Nat} (h : p ∈ starts k items) :
    k ≤ p ∧ p + (4 + sizeofWinsize) ≤ k + (bytes items).length := by
  induction items generalizing k with
  | nil => cases h
  | cons it items ih =>
    have hb : (bytes (it :: items)).length = it.bytes.length + (bytes items).length := List.length_append
    cases it with
    | data l hl =>
      have := ih (k := k + l.length) h
      have hl : (Item.data l hl).bytes.length = l.length := rfl
      omega
    | window w =>
      have hw : (Item.window w).bytes.length = 4 + sizeofWinsize := rfl
      rcases List.mem_cons.mp h with rfl | h
      · omega
      · have := ih h
        rw [length_sendwindow] at this
        omega

/-- The first read ends between items. -/
theorem whole_cons {items first rest : List Item} {l : List UInt8} {reads : List (List UInt8)}
    (h : Parts items first rest) (hl : (bytes first).length = l.length) : Whole items (l :: reads) ↔ Whole rest reads := by
  have hrest : starts 0 items = starts 0 first ++ (starts 0 rest).map (· + l.length) := by
    rw [h.starts, ← starts_add, hl]
  unfold Whole
  rw [hrest]
  constructor
  · intro hw n hn p hp
    have := hw (n + 1) (Nat.succ_le_succ hn) (p + l.length) (List.mem_append_right _ (List.mem_map.mpr ⟨p, hp, rfl⟩))
    rw [List.take_succ_cons, List.flatten_cons, List.length_append] at this
    omega
  · intro hw n hn p hp
    rcases n with _ | n
    · rw [List.take_zero, List.flatten_nil, List.length_nil]
      omega
    rw [List.take_succ_cons, List.flatten_cons, List.length_append]
    rcases List.mem_append.mp hp with hp | hp
    · have := (le_of_starts hp).2
      omega
    · obtain ⟨q, hq, rfl⟩ := List.mem_map.mp hp
      have := hw n (Nat.le_of_succ_le_succ hn) q hq
      omega

/-- The reads of a stream, each searched by itself: if one ends inside of a message, the
    beginning of that message stays in it. -/
theorem scan_reads {items : List Item} {reads : List (List UInt8)} (h : reads.flatten = bytes items) :
    (Whole items reads → reads.flatMap (fun l => (scan l).1) = data items ∧
      reads.flatMap (fun l => (scan l).2) = sizes items) ∧
    (¬ Whole items reads → MAGIC ∈ reads.flatMap fun l => (scan l).1) := by
  induction reads generalizing items with
  | nil =>
    have hscan := scan_items items (show ([] : List UInt8).length < 4 + sizeofWinsize by decide)
    rw [List.append_nil, List.append_nil, ← h] at hscan
    obtain ⟨hd, hs⟩ := Prod.mk.inj hscan
    refine ⟨fun _ => ⟨hd, hs⟩, fun hw => absurd ?_ hw⟩
    intro n _ p hp
    have := (le_of_starts hp).2
    rw [← h] at this
    simp only [List.flatten_nil, List.length_nil] at this
    omega
  | cons l reads ih =>
    rw [List.flatten_cons] at h
    have hlen := congrArg List.length h
    rw [List.length_append] at hlen
    rw [List.flatMap_cons, List.flatMap_cons]
    rcases cut_at items (k := l.length) (by omega) with ⟨first, rest, hp, hk⟩ | ⟨first, w, rest, h1, h2, h3, h4⟩
    · have hsplit := h
      rw [hp.bytes] at hsplit
      obtain ⟨hl, hrest⟩ := List.append_inj hsplit hk.symm
      have hscan := scan_items first (show ([] : List UInt8).length < 4 + sizeofWinsize by decide)
      rw [List.append_nil, List.append_nil, ← hl] at hscan
      obtain ⟨hwhole, hcut⟩ := ih hrest
      rw [whole_cons hp hk, hscan]
      refine ⟨fun hw => ?_, fun hw => List.mem_append_right _ (hcut hw)⟩
      obtain ⟨hd, hs⟩ := hwhole hw
      rw [hd, hs, hp.data, hp.sizes]
      exact ⟨rfl, rfl⟩
    · -- what the read has of the message is too short for control
      obtain ⟨n, hn⟩ : ∃ n, l.length = (bytes first).length + (n + 1) := ⟨l.length - (bytes first).length - 1, by omega⟩
      have hl : l = bytes first ++ (sendwindow w ++ rest).take (n + 1) := by
        have htake := congrArg (List.take l.length) h
        rw [List.take_left, h1, hn, List.append_assoc, List.take_length_add_append] at htake
        exact htake
      obtain ⟨tail, ht⟩ : ∃ tail, tail = (sendwindow w ++ rest).take (n + 1) := ⟨_, rfl⟩
      have hmagic : MAGIC ∈ tail := by
        rw [ht]
        exact List.mem_cons_self
      have hshort : tail.length < 4 + sizeofWinsize := by
        rw [ht, List.length_take]
        omega
      rw [← ht] at hl
      rw [hl, scan_items first hshort]
      refine ⟨fun hw => ?_, fun _ => List.mem_append_left _ (List.mem_append_right _ hmagic)⟩
      have := hw 1 (Nat.succ_le_succ (Nat.zero_le _)) _ (h4 0)
      rw [List.take_succ_cons, List.take_zero, List.flatten_cons, List.flatten_nil, List.append_nil, ← hl] at this
      omega

theorem magic_notMem_data (items : List Item) : MAGIC ∉ data items := by
  intro h
  obtain ⟨it, -, hm⟩ := List.mem_flatMap.mp h
  cases it with
  | data l hl => exact hl hm
  | window w => cases hm

/-! ## The run -/

namespace Protocol

/-- What has gone to the pty and what waits for it is what the reads so far have come to. -/
structure Inv (reads : List (List UInt8)) (s : Protocol) : Prop where
  pty : s.pty ++ s.fbuf ++ s.reads.flatMap (fun l => (scan l).1) = reads.flatMap fun l => (scan l).1
  sizes : s.sizes ++ s.reads.flatMap (fun l => (scan l).2) = reads.flatMap fun l => (scan l).2

variable {reads : List (List UInt8)} {s t : Protocol}

theorem inv_init (reads : List (List UInt8)) : Inv reads (init reads) := ⟨rfl, rfl⟩

/-- What a part of the turn leaves alone. -/
structure Same (s t : Protocol) : Prop where
  reads : t.reads = s.reads
  fbuf : t.fbuf = s.fbuf
  pty : t.pty = s.pty
  sizes : t.sizes = s.sizes

theorem Inv.same (h : Inv reads s) (hs : Same s t) : Inv reads t := by
  obtain ⟨h1, h2, h3, h4⟩ := hs
  exact ⟨by rw [h1, h2, h3]; exact h.pty, by rw [h1, h4]; exact h.sizes⟩

theorem same_exception (s : Protocol) (cntl : Option UInt8) : Same s (s.exception cntl).1 := by
  unfold exception
  simp only
  repeat' split
  all_goals exact ⟨rfl, rfl, rfl, rfl⟩

theorem same_fromPty (s : Protocol) (read : Option (List UInt8)) : Same s (s.fromPty read) := by
  unfold fromPty
  repeat' split
  all_goals exact ⟨rfl, rfl, rfl, rfl⟩

theorem same_toNet (s : Protocol) (isset : Bool) (taken : Option Nat) : Same s (s.toNet isset taken) := by
  unfold toNet
  repeat' split
  all_goals exact ⟨rfl, rfl, rfl, rfl⟩

/-- A partial write leaves the rest to be written. -/
theorem inv_toPty (h : Inv reads s) (isset : Bool) (taken : Option Nat) : Inv reads (s.toPty isset taken) := by
  unfold toPty
  repeat' split
  · refine ⟨?_, h.sizes⟩
    show s.pty ++ s.fbuf.take _ ++ s.fbuf.drop _ ++ _ = _
    rw [List.append_assoc s.pty, List.take_append_drop]
    exact h.pty
  all_goals exact h

theorem inv_fromNet (h : Inv reads s) {read : Option Read} (hs : s.fromNet read = some t) : Inv reads t := by
  unfold fromNet at hs
  split at hs
  · obtain rfl := Option.some.inj hs
    exact h
  · split at hs
    · obtain rfl := Option.some.inj hs
      exact h
    · cases hs
  · split at hs
    · cases hs
    · rename_i fibuf rest hreads
      split at hs
      · rename_i hempty
        obtain rfl := Option.some.inj hs
        have hp := h.pty
        have hz := h.sizes
        rw [hreads, List.flatMap_cons] at hp hz
        rw [hempty, List.append_nil] at hp
        exact ⟨by rw [List.append_assoc]; exact hp, by rw [List.append_assoc]; exact hz⟩
      · cases hs

theorem inv_step {e : Turn} (h : Inv reads s) (hs : step e s = some t) : Inv reads t := by
  unfold step at hs
  simp only at hs
  split at hs
  · cases hs
  obtain ⟨u, hu, hs⟩ := Option.bind_eq_some_iff.mp hs
  obtain rfl := Option.some.inj hs
  have hread := inv_fromNet (h.same (same_exception s e.cntl)) hu
  exact ((inv_toPty hread _ _).same (same_fromPty _ _)).same (same_toNet _ _ _)

/-- When everything has been read and written. -/
structure Drained (s : Protocol) : Prop where
  reads : s.reads = []
  fbuf : s.fbuf = []

end Protocol

open Protocol in
/-- The pty gets exactly the data, and every size in order, exactly where no read ends
    inside of a message. -/
theorem protocol_separates_iff {items : List Item} {reads : List (List UInt8)} {es : List Turn} {s : Protocol}
    (hc : Cut items reads) (h : run step es (init reads) = some s) (hd : Drained s) :
    s.pty = data items ∧ s.sizes = sizes items ↔ Whole items reads := by
  have hinv : Inv reads s := run_inv (fun _ _ _ hi hs => inv_step hi hs) (inv_init reads) h
  have hpty := hinv.pty
  have hsizes := hinv.sizes
  rw [hd.reads, List.flatMap_nil, List.append_nil] at hpty hsizes
  rw [hd.fbuf, List.append_nil] at hpty
  obtain ⟨hwhole, hcut⟩ := scan_reads hc.stream
  rw [hpty, hsizes]
  constructor
  · intro h
    obtain ⟨hdata, -⟩ := h
    by_contra hw
    have hmagic := hcut hw
    rw [hdata] at hmagic
    exact magic_notMem_data items hmagic
  · exact hwhole

/-- Two turns for a read: it comes in, and the pty takes a byte of it, then the rest. -/
def turns : List Turn :=
  [⟨none, some .bytes, false, some 1, none, false, none⟩, ⟨none, none, true, some 1024, none, false, none⟩]

def abc : List Item := [.data [97, 98] (by decide), .window ⟨24, 80, 0, 65535⟩, .data [99] (by decide)]

theorem protocol_separates_in_two_reads :
    let reads := [(bytes abc).take 1, (bytes abc).drop 1]
    ∃ s, run Protocol.step (turns ++ turns) (Protocol.init reads) = some s ∧
      s.pty = [97, 98, 99] ∧ s.sizes = [⟨24, 80, 0, 65535⟩] := by
  intro reads
  have h : (run Protocol.step (turns ++ turns) (Protocol.init reads)).map (fun s => (s.reads, s.fbuf)) = some ([], []) := by
    decide +kernel
  obtain ⟨s, hs, he⟩ := Option.map_eq_some_iff.mp h
  obtain ⟨hr, hf⟩ := Prod.mk.inj he
  have hcut : Cut abc reads := ⟨by decide, by decide, by decide⟩
  exact ⟨s, hs, (protocol_separates_iff hcut hs ⟨hr, hf⟩).mpr (by decide)⟩

/-- The first read has six bytes of the message, and the second the others: all go to the pty. -/
theorem message_in_two_reads_goes_to_the_pty :
    let reads := [(bytes abc).take 8, (bytes abc).drop 8]
    ∃ s, Cut abc reads ∧ run Protocol.step (turns ++ turns) (Protocol.init reads) = some s ∧ Protocol.Drained s ∧
      s.pty = bytes abc ∧ s.sizes = [] ∧ ¬ (s.pty = data abc ∧ s.sizes = sizes abc) := by
  intro reads
  have h : (run Protocol.step (turns ++ turns) (Protocol.init reads)).map
      (fun s => (s.reads, s.fbuf, s.pty, s.sizes)) = some ([], [], bytes abc, []) := by decide +kernel
  obtain ⟨s, hs, he⟩ := Option.map_eq_some_iff.mp h
  simp only [Prod.mk.injEq] at he
  obtain ⟨hr, hf, hp, hz⟩ := he
  refine ⟨s, ⟨by decide, by decide, by decide⟩, hs, ⟨hr, hf⟩, hp, hz, ?_⟩
  rw [hz]
  intro h
  obtain ⟨-, hsizes⟩ := h
  cases hsizes

end Netutils.Rlogind
