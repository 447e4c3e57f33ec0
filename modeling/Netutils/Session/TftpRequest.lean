/-
  Netutils.Session.TftpRequest — tftpd reads from a request what tftp has put into it (makerequest,
  tftp/tftp.c; the beginning of tftp, tftpd/tftpd.c).
-/

import Netutils.Tftpd.LastBlock
import Netutils.Tftpd.Request

namespace Netutils.Session.TftpRequest

open Netutils.Arpa
open Netutils.Lib.Cells
open Netutils.Libc
open Netutils.Tftpd

/-! ## tftp -/

def high (v : UInt16) : UInt8 := UInt8.ofNat (v.toNat / 256)
def low (v : UInt16) : UInt8 := UInt8.ofNat (v.toNat % 256)

/-- makerequest: ackbuf, and the size of the request. -/
def makerequest (request : UInt16) (name mode : List UInt8) (tp : Nat → UInt8) : (Nat → UInt8) × Nat :=
  let tp := store tp 0 [high request, low request]
  let cp := stuff
  let tp := store tp cp (name ++ [0])
  let cp := cp + name.length
  let tp := store tp cp [0]
  let cp := cp + 1
  let tp := store tp cp (mode ++ [0])
  let cp := cp + mode.length
  let tp := store tp cp [0]
  (tp, cp + 1)

/-- The modes of tftp/main.c, and the `convert` of get and put. -/
def modes : List (List UInt8 × Bool) := [(text "netascii", true), (text "octet", false)]

/-- What is sent. -/
def request (opcode : UInt16) (name mode : List UInt8) : List UInt8 :=
  [high opcode, low opcode] ++ (name ++ [0]) ++ (mode ++ [0])

theorem makerequest_sent (opcode : UInt16) (name mode : List UInt8) (tp : Nat → UInt8) :
    let r := makerequest opcode name mode tp
    r.2 = (request opcode name mode).length ∧ slice r.1 0 r.2 = request opcode name mode := by
  intro r
  have hsize : r.2 = (request opcode name mode).length := by
    simp only [r, makerequest, request, List.length_append, List.length_cons, List.length_nil, stuff]
    omega
  refine ⟨hsize, ?_⟩
  have hopcode : slice (store tp 0 [high opcode, low opcode]) 0 stuff = [high opcode, low opcode] :=
    slice_store_same [high opcode, low opcode]
  have hnul : ∀ (m : Nat → UInt8) (j : Nat), slice (store m j [0]) 0 (j + 1) = slice m 0 j ++ [0] :=
    fun m j => slice_store [0] (Nat.zero_le j)
  -- each NUL that is put behind a string stands there already
  simp only [r, makerequest]
  rw [hnul, slice_store_front mode [0] (Nat.zero_le _), hnul, slice_store_front name [0] (Nat.zero_le _), hopcode]
  simp [request]

/-! ## tftpd -/

variable {m : Nat → UInt8} {p : Nat} {v w : List UInt8}

theorem stands_received (w : List UInt8) (old : Nat → UInt8) : Stands (received w old) 0 w := by
  intro i hi
  rw [Nat.zero_add, received, List.getD_eq_getElem?_getD, List.getElem?_eq_getElem hi, Option.getD_some]

/-- The loop stops at the end of a string. -/
theorem scan_stands (left : Nat) (h : Stands m p (w ++ [0])) (h0 : 0 ∉ w) (hleft : w.length < left) :
    (scan m left p).1 = p + w.length := by
  obtain ⟨hw, hnul⟩ := stands_append.mp h
  have hend : m (p + w.length) = 0 := hnul 0 Nat.one_pos
  obtain ⟨hle, hzero⟩ := scan_stops left (Nat.le_add_right p w.length) (by omega) hend
  obtain ⟨hlow, -, -, -⟩ := scan_spec m left p
  by_contra hne
  exact ne_of_stands hw h0 hlow (by omega) hzero

theorem lower_before (n : Nat) (m : Nat → UInt8) {p i : Nat} (h : i < p) : (lower n m p).1 i = m i := by
  induction n generalizing m p with
  | zero => rfl
  | succ n ih =>
    rw [lower]
    split
    · rfl
    · simp only
      rw [ih _ (by omega)]
      split
      · exact store_ne _ (by omega)
      · rfl

/-- The mode in lower case. -/
theorem lower_stands (h : Stands m p (w ++ [0])) (h0 : 0 ∉ w) :
    Stands (lower w.length m p).1 p (w.map tolower ++ [0]) := by
  induction w generalizing m p with
  | nil =>
    exact h
  | cons c w ih =>
    obtain ⟨hc, hrest⟩ := stands_cons.mp h
    obtain ⟨hne, h0⟩ := not_or.mp (mt List.mem_cons.mpr h0)
    have hnz : m p ≠ 0 := by rw [hc]; exact fun h => hne h.symm
    rw [List.length_cons, lower, if_neg hnz]
    -- the byte at p, which the rest of the loop leaves alone
    obtain ⟨m', hm'⟩ : ∃ m', m' = if isupper (m p) = true then store m p [tolower (m p)] else m := ⟨_, rfl⟩
    have hother : ∀ i, p < i → m' i = m i := by
      intro i hi
      rw [hm']
      split
      · exact store_ne _ (by omega)
      · rfl
    have hat : m' p = tolower c := by
      rw [hm', hc, tolower]
      split
      · exact store_same _
      · exact hc
    have hrest' : Stands m' (p + 1) (w ++ [0]) := by
      intro i hi
      rw [hother _ (by omega)]
      exact hrest i hi
    simp only [← hm']
    refine stands_cons.mpr ⟨?_, ih hrest' h0⟩
    rw [lower_before, hat]
    omega

theorem strcmp_stands (h : Stands m p (w ++ [0])) (h0 : 0 ∉ w) (hv : 0 ∉ v) : (strcmp m v p).1 = (v == w) := by
  induction v generalizing w p with
  | nil =>
    rcases w with _ | ⟨c, w⟩
    · exact decide_eq_true (h 0 Nat.one_pos)
    · obtain ⟨hc, -⟩ := stands_cons.mp h
      have hne : c ≠ 0 := fun hc => h0 (hc ▸ List.mem_cons_self)
      rw [strcmp, hc]
      exact decide_eq_false hne
  | cons d v ih =>
    obtain ⟨hd, hv⟩ := not_or.mp (mt List.mem_cons.mpr hv)
    rw [strcmp]
    rcases w with _ | ⟨c, w⟩
    · have hnul : m p = 0 := h 0 Nat.one_pos
      rw [if_neg (hnul ▸ hd)]
      rfl
    · obtain ⟨hc, hrest⟩ := stands_cons.mp h
      obtain ⟨-, h0⟩ := not_or.mp (mt List.mem_cons.mpr h0)
      by_cases hcd : c = d
      · rw [hc, if_pos hcd, hcd]
        show (strcmp m v (p + 1)).1 = (d :: v == d :: w)
        rw [ih hrest h0 hv, List.cons_beq_cons, beq_self_eq_true, Bool.true_and]
      · rw [hc, if_neg hcd, List.cons_beq_cons, beq_false_of_ne (Ne.symm hcd), Bool.false_and]

theorem lookup_stands (h : Stands m p (w ++ [0])) (h0 : 0 ∉ w) {l : List (List UInt8 × Bool)}
    (hl : ∀ pf ∈ l, 0 ∉ pf.1) : (lookup m p l).1 = (l.find? (·.1 == w)).map Prod.snd := by
  induction l with
  | nil => rfl
  | cons pf l ih =>
    have hcmp := strcmp_stands h h0 (hl pf List.mem_cons_self)
    rw [lookup, hcmp, List.find?_cons]
    cases pf.1 == w with
    | true => rfl
    | false => exact ih fun pf hpf => hl pf (List.mem_cons_of_mem _ hpf)

theorem not_mem_lower (h0 : 0 ∉ w) : 0 ∉ w.map tolower := by
  intro hm
  obtain ⟨c, hc, hzero⟩ := List.mem_map.mp hm
  exact h0 (tolower_eq_zero_iff.mp hzero ▸ hc)

/-- A name and a mode: tftpd finds both, in any case of the mode. -/
theorem parse_request (opcode : UInt16) {name mode : List UInt8} (hname : 0 ∉ name) (hmode : 0 ∉ mode)
    (old : Nat → UInt8) :
    let d := request opcode name mode
    (parse (received d old) d.length).1 =
      (formats.find? (·.1 == mode.map tolower)).map fun pf => ⟨stuff, stuff + name.length + 1, pf.2⟩ := by
  intro d
  have hd : d.length = stuff + name.length + 1 + mode.length + 1 := by
    simp only [d, request, List.length_append, List.length_cons, List.length_nil, stuff]
    omega
  obtain ⟨hfront, hmode'⟩ := stands_append.mp (stands_received d old)
  obtain ⟨-, hname'⟩ := stands_append.mp hfront
  generalize received d old = m at hname' hmode'
  generalize d.length = size at hd
  have hname' : Stands m stuff (name ++ [0]) := hname'
  have hmode' : Stands m (stuff + name.length + 1) (mode ++ [0]) := by
    have hplace : 0 + ([high opcode, low opcode] ++ (name ++ [0])).length = stuff + name.length + 1 := by
      simp only [List.length_append, List.length_cons, List.length_nil, stuff]
      omega
    rwa [hplace] at hmode'
  have hscan := scan_stands (size - stuff) hname' hname (by omega)
  have hscan' := scan_stands (size - (stuff + name.length + 1)) hmode' hmode (by omega)
  have hnul : m (stuff + name.length) = 0 := (stands_append.mp hname').2 0 Nat.one_pos
  have hnul' : m (stuff + name.length + 1 + mode.length) = 0 := (stands_append.mp hmode').2 0 Nat.one_pos
  have hlower := lower_stands hmode' hmode
  have hformats : ∀ pf ∈ formats, 0 ∉ pf.1 := by decide
  unfold parse
  simp only [hscan, hnul, ne_eq, not_true_eq_false, if_false, hscan', hnul', Nat.add_sub_cancel_left]
  rw [lookup_stands hlower (not_mem_lower hmode) hformats, Option.map_map]
  rfl

theorem ntohs_high_low (v : UInt16) : ntohs (high v) (low v) = v := by
  have hv := v.toNat_lt
  have hhigh : (high v).toNat = v.toNat / 256 := by
    rw [high, UInt8.toNat_ofNat']
    omega
  have hlow : (low v).toNat = v.toNat % 256 := by
    rw [low, UInt8.toNat_ofNat']
    omega
  rw [ntohs, hhigh, hlow, Nat.div_add_mod]
  exact UInt16.ofNat_toNat

theorem length_request (opcode : UInt16) (name mode : List UInt8) :
    (request opcode name mode).length = name.length + mode.length + 4 := by
  simp only [request, List.length_append, List.length_cons, List.length_nil]
  omega

theorem makerequest_outside (opcode : UInt16) (name mode : List UInt8) (tp : Nat → UInt8) {i : Nat}
    (hi : name.length + mode.length + 4 ≤ i) : (makerequest opcode name mode tp).1 i = tp i := by
  have hlen : stuff = 2 := rfl
  simp only [makerequest]
  rw [store_outside, store_outside, store_outside, store_outside, store_outside] <;> right <;>
    simp only [List.length_append, List.length_cons, List.length_nil] <;> omega

/-- A request has two NULs, so tftpd stays inside it. -/
theorem twoNuls_request (opcode : UInt16) (name mode : List UInt8) : TwoNuls (request opcode name mode) := by
  refine ⟨name.length + 2, name.length + mode.length + 3, Nat.le_add_left 2 _, by omega, ?_, ?_⟩
  · rw [request, List.append_assoc, List.append_assoc, List.getElem?_append_right (by simp),
      List.getElem?_append_right (by simp)]
    simp
  · rw [request, List.getElem?_append_right (by simp), List.getElem?_append_right (by simp)]
    simp only [List.length_append, List.length_cons, List.length_nil]
    rw [show name.length + mode.length + 3 - (0 + 1 + 1 + (name.length + (0 + 1))) - mode.length = 0 by omega]
    rfl

/-- What tftp asks for is what tftpd goes by: the opcode, the name of the file, and the conversion;
    tftp writes no more than it sends, and tftpd reads no more. -/
theorem request_understood (opcode : UInt16) {name mode : List UInt8} {convert : Bool} (hname : 0 ∉ name)
    (hmode : (mode, convert) ∈ modes) (hroom : name.length + mode.length + 4 ≤ PKTSIZE) (tp old : Nat → UInt8) :
    let sent := makerequest opcode name mode tp
    let d := slice sent.1 0 sent.2
    d.length ≤ PKTSIZE ∧ (∀ i, d.length ≤ i → sent.1 i = tp i) ∧
      ntohs (received d old 0) (received d old 1) = opcode ∧
      ∃ r, (parse (received d old) d.length).1 = some r ∧ r.convert = convert ∧
        (strAt d.length (received d old) r.filename).1 = name ∧
        ∀ i ∈ (parse (received d old) d.length).2, i < d.length := by
  intro sent d
  obtain ⟨-, hsent⟩ := makerequest_sent opcode name mode tp
  have hd : d = request opcode name mode := hsent
  have hlen := length_request opcode name mode
  have hmodes : 0 ∉ mode ∧ formats.find? (·.1 == mode.map tolower) = some (mode, convert) := by
    simp only [modes, List.mem_cons, List.not_mem_nil, or_false, Prod.mk.injEq] at hmode
    rcases hmode with ⟨rfl, rfl⟩ | ⟨rfl, rfl⟩ <;> exact ⟨by decide, by decide⟩
  have hparse := parse_request opcode hname hmodes.1 old
  rw [hd]
  refine ⟨by omega, ?_, ntohs_high_low opcode, ⟨stuff, stuff + name.length + 1, convert⟩, ?_, rfl, ?_, ?_⟩
  · intro i hi
    exact makerequest_outside opcode name mode tp (by omega)
  · rw [hparse, hmodes.2]
    rfl
  · obtain ⟨hfront, -⟩ := stands_append.mp (stands_received (request opcode name mode) old)
    obtain ⟨-, hname'⟩ := stands_append.mp hfront
    have hname' : Stands (received (request opcode name mode) old) stuff (name ++ [0]) := hname'
    have hinside : stuff + name.length < (request opcode name mode).length := by
      rw [hlen, stuff]
      omega
    exact strAt_stands hname' hname hinside
  · exact (parse_inside (twoNuls_request opcode name mode)).examined

/-- A request of tftp for motd. -/
theorem request_understood_motd :
    let sent := makerequest RRQ (text "motd") (text "octet") (fun _ => 0)
    let d := slice sent.1 0 sent.2
    ∃ r, (parse (received d fun _ => 7) d.length).1 = some r ∧ r.convert = false ∧
      (strAt d.length (received d fun _ => 7) r.filename).1 = text "motd" := by
  intro sent d
  have hname : 0 ∉ text "motd" := by decide
  have hmode : (text "octet", false) ∈ modes := by decide
  obtain ⟨-, -, -, r, hr, hconvert, hfile, -⟩ := request_understood RRQ hname hmode (by decide) (fun _ => 0) (fun _ => 7)
  exact ⟨r, hr, hconvert, hfile⟩

end Netutils.Session.TftpRequest
