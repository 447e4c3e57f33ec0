/-
  Netutils.Telnet.Slc — the special characters of telnet (telnet/telnet.c), and the room
  its replies have in slc_reply.

  slc_add_reply writes where slc_replyp stands without looking for room. What slc leaves of
  a function and answers a triplet with is known from the function alone (`answerOne`), so
  the reply stays in slc_reply exactly where the answers to a payload take no more than what
  the header and IAC SE leave of it (`slc_inside_iff`).
-/

import Netutils.Lib.Exchange
import Netutils.Wire.Triplet

namespace Netutils.Telnet

open Netutils.Arpa
open Netutils.Lib.Exchange
open Netutils.Wire

/-! ## The table and the reply -/

/-- `valp` is the index of a character of the terminal; `none` is NULL. -/
structure Spc where
  val : UInt8
  valp : Option Nat
  flags : UInt8
  mylevel : UInt8
  deriving DecidableEq

/-- Size of slc_reply. -/
def slcReplySize : Nat := 128

structure Slc where
  spcData : Nat → Spc
  /-- The characters of the terminal. -/
  chars : Nat → UInt8
  /-- What lies between slc_reply and slc_replyp, which moves on until slc_start_reply. -/
  slcReply : List UInt8
  /-- The replies supplied to netoring. -/
  sent : List (List UInt8)

/-- What slc does with a triplet for `e`: what it leaves of it, and its answer. -/
def answerOne (e : Spc) (c : UInt8 × UInt8) : Spc × Option (UInt8 × UInt8) :=
  let level := c.1 &&& (SLC_LEVELBITS ||| SLC_ACK)
  if c.2 = e.val ∧ level &&& SLC_LEVELBITS = e.flags &&& SLC_LEVELBITS then (e, none)
  else
    let flags := if level = SLC_DEFAULT ||| SLC_ACK then c.1 &&& ~~~SLC_ACK else c.1
    if level = e.flags &&& SLC_LEVELBITS ||| SLC_ACK then ({ e with val := c.2, flags := flags }, none)
    else
      let level := level &&& ~~~SLC_ACK
      let e := if level ≤ e.mylevel &&& SLC_LEVELBITS then { e with flags := flags ||| SLC_ACK, val := c.2 } else e
      let e :=
        if level = SLC_DEFAULT then
          if e.mylevel &&& SLC_LEVELBITS ≠ SLC_DEFAULT then { e with flags := e.mylevel }
          else { e with flags := SLC_NOSUPPORT }
        else e
      (e, some (e.flags, e.val))

namespace Slc

/-- _POSIX_VDISABLE -/
def vdisable : UInt8 := 0

def setSpc (s : Slc) (i : Nat) (e : Spc) : Slc := { s with spcData := Function.update s.spcData i e }

/-- `*slc_replyp++ = c` -/
def put (s : Slc) (c : UInt8) : Slc := { s with slcReply := s.slcReply ++ [c] }

def putEsc (s : Slc) (c : UInt8) : Slc := if c = IAC then (s.put c).put IAC else s.put c

def slcStartReply (s : Slc) : Slc := { s with slcReply := [IAC, SB, TELOPT_LINEMODE, LM_SLC] }

def slcAddReply (s : Slc) (func flags value : UInt8) : Slc := ((s.putEsc func).putEsc flags).putEsc value

/-- `room n`: NETROOM () > n -/
def slcEndReply (s : Slc) (room : Nat → Bool) : Slc :=
  let t := (s.put IAC).put SE
  if t.slcReply.length ≤ 6 then t
  else if room t.slcReply.length then { t with sent := t.sent ++ [t.slcReply] }
  else t

/-- A function is left as `r` says, and its triplet is added if there is one. -/
def settle (s : Slc) (func : UInt8) (r : Spc × Option (UInt8 × UInt8)) : Slc :=
  let t := s.setSpc func.toNat r.1
  match r.2 with
  | some a => t.slcAddReply func a.1 a.2
  | none => t

/-- 1 to NSLC -/
def functions : List Nat := List.range' 1 NSLC

/-- The body of the loop of slc_update. -/
def updateOne (s : Slc) (i : Nat) : Slc :=
  let e := s.spcData i
  if e.flags &&& SLC_ACK = 0 then s
  else
    let t := s.setSpc i { e with flags := e.flags &&& ~~~SLC_ACK }
    match e.valp with
    | some p => if s.chars p ≠ e.val then { t with chars := fun k => if k = p then e.val else s.chars k } else t
    | none => t

def slcUpdate (s : Slc) : Slc := functions.foldl updateOne s

/-- The body of the loop of slc. -/
def slcOne (s : Slc) (func flags val : UInt8) : Slc :=
  if func = 0 then s
  else if func.toNat > NSLC then
    if flags &&& SLC_LEVELBITS ≠ SLC_NOSUPPORT then s.slcAddReply func SLC_NOSUPPORT 0 else s
  else s.settle func (answerOne (s.spcData func.toNat) (flags, val))

def slcAll : Slc → List UInt8 → Slc
  | s, func :: flags :: val :: cp => slcAll (s.slcOne func flags val) cp
  | s, _ => s

def slc (s : Slc) (room : Nat → Bool) (cp : List UInt8) : Slc :=
  ((s.slcStartReply.slcAll cp).slcEndReply room).slcUpdate

/-- What slc_export does with a function. -/
def exported (chars : Nat → UInt8) (e : Spc) : Spc × Option (UInt8 × UInt8) :=
  if e.mylevel = SLC_NOSUPPORT then (e, none)
  else
    let e := { e with
      flags := if e.val = vdisable then SLC_NOSUPPORT else e.mylevel
      val := (e.valp.map chars).getD e.val }
    (e, some (e.flags, e.val))

/-- What slc_check does with a function. -/
def checked (chars : Nat → UInt8) (e : Spc) : Spc × Option (UInt8 × UInt8) :=
  match e.valp with
  | some p =>
    if e.val ≠ chars p then
      let e := { e with val := chars p, flags := if chars p = vdisable then SLC_NOSUPPORT else e.mylevel }
      (e, some (e.flags, e.val))
    else (e, none)
  | none => (e, none)

/-- The loops of slc_export and slc_check. -/
def settleAll (g : (Nat → UInt8) → Spc → Spc × Option (UInt8 × UInt8)) (s : Slc) (l : List Nat) : Slc :=
  l.foldl (fun t i => t.settle i.toUInt8 (g t.chars (t.spcData i))) s

/-- `chars` is what TerminalDefaultChars leaves. -/
def slcExport (s : Slc) (room : Nat → Bool) (chars : Nat → UInt8) : Slc :=
  (({ s with chars := chars }.slcStartReply.settleAll exported functions).slcEndReply room).slcUpdate

/-- `chars` is what the user has set. -/
def slcCheck (s : Slc) (room : Nat → Bool) (chars : Nat → UInt8) : Slc :=
  ({ s with chars := chars }.slcStartReply.settleAll checked functions).slcEndReply room

/-- `initfunc (func, flags)` -/
def initfunc (tcval : Nat → Option Nat) (chars : Nat → UInt8) (tab : Nat → Spc) (f : Nat × UInt8) : Nat → Spc :=
  fun k =>
    if k = f.1 then
      match tcval f.1 with
      | some p => ⟨chars p, some p, (tab k).flags, SLC_VARIABLE ||| f.2⟩
      | none => ⟨0, none, (tab k).flags, SLC_DEFAULT⟩
    else tab k

/-- slc_init, up to the call of slc_export; SYSV_TERMIO and USE_TERMIO as they are defined. -/
def slcInit (sysv termio : Bool) (tcval : Nat → Option Nat) (chars : Nat → UInt8) : Slc :=
  let first : List (Nat × UInt8) :=
    [(SLC_SYNCH, 0), (SLC_AO, 0), (SLC_AYT, 0), (SLC_ABORT, SLC_FLUSHIN ||| SLC_FLUSHOUT), (SLC_EOF, 0)] ++
      (if sysv then [] else [(SLC_SUSP, SLC_FLUSHIN)]) ++ [(SLC_EC, 0), (SLC_EL, 0)] ++
      (if sysv then [] else [(SLC_EW, 0), (SLC_RP, 0), (SLC_LNEXT, 0)]) ++ [(SLC_XON, 0), (SLC_XOFF, 0)]
  let last : List (Nat × UInt8) :=
    [(SLC_FORW1, 0)] ++ (if termio then [(SLC_FORW2, 0)] else []) ++ [(SLC_IP, SLC_FLUSHIN ||| SLC_FLUSHOUT)]
  let tab := first.foldl (initfunc tcval chars) fun _ => ⟨0, none, SLC_NOSUPPORT, SLC_NOSUPPORT⟩
  let tab := fun k => if sysv ∧ (k = SLC_XON ∨ k = SLC_XOFF) then { tab k with mylevel := SLC_CANTCHANGE } else tab k
  ⟨last.foldl (initfunc tcval chars) tab, chars, [], []⟩

/-! ## The answers -/

/-- The table that a triplet leaves, and its answers. -/
def respond (tab : Nat → Spc) (t : Triplet) : (Nat → Spc) × List Triplet :=
  if t.1 = 0 then (tab, [])
  else if t.1.toNat > NSLC then (tab, if t.2.1 &&& SLC_LEVELBITS ≠ SLC_NOSUPPORT then [(t.1, SLC_NOSUPPORT, 0)] else [])
  else
    let r := answerOne (tab t.1.toNat) t.2
    (Function.update tab t.1.toNat r.1, (r.2.map (t.1, ·)).toList)

theorem isKeyed_respond : IsKeyed UInt8.toNat (fun _ => answerOne) (fun k => k.toNat ∈ functions) respond := by
  rintro tab ⟨func, c⟩ hk
  simp only [functions, List.mem_range'_1] at hk
  have h1 : ¬ func.toNat > NSLC := by omega
  have h0 : func ≠ 0 := by
    rintro rfl
    exact absurd hk.1 (by decide)
  unfold respond keyed
  simp only [if_neg h1, if_neg h0]

/-- The bytes that a payload is answered with, triplet by triplet. -/
def spent : (Nat → Spc) → List Triplet → Nat
  | tab, t :: ts => ((respond tab t).2.map Triplet.width).sum + spent (respond tab t).1 ts
  | _, [] => 0

/-- The reply has become longer by `ts`, and the table is `tab`. -/
structure Adds (s t : Slc) (tab : Nat → Spc) (ts : List Triplet) : Prop where
  slcReply : t.slcReply = s.slcReply ++ sentBytes ts
  spcData : t.spcData = tab
  sent : t.sent = s.sent

variable {s t u : Slc} {tab tab' : Nat → Spc} {ts us : List Triplet}

theorem Adds.trans (h : Adds s t tab ts) (h' : Adds t u tab' us) : Adds s u tab' (ts ++ us) :=
  ⟨by rw [h'.slcReply, h.slcReply, sentBytes_append, List.append_assoc], h'.spcData, h'.sent.trans h.sent⟩

theorem adds_setSpc (s : Slc) (i : Nat) (e : Spc) :
    Adds s (s.setSpc i e) (Function.update s.spcData i e) [] :=
  ⟨(List.append_nil _).symm, rfl, rfl⟩

theorem putEsc_eq (s : Slc) (c : UInt8) : s.putEsc c = { s with slcReply := s.slcReply ++ doubled [c] } := by
  unfold putEsc put doubled
  split <;> rename_i h <;> simp [h]

theorem adds_slcAddReply (s : Slc) (func flags value : UInt8) :
    Adds s (s.slcAddReply func flags value) s.spcData [(func, flags, value)] := by
  unfold slcAddReply
  rw [putEsc_eq, putEsc_eq, putEsc_eq]
  refine ⟨?_, rfl, rfl⟩
  simp [sentBytes, Triplet.bytes, doubled]

theorem adds_settle (s : Slc) (func : UInt8) (r : Spc × Option (UInt8 × UInt8)) :
    Adds s (s.settle func r) (Function.update s.spcData func.toNat r.1) (r.2.map (func, ·)).toList := by
  rcases r with ⟨e, _ | a⟩
  · exact adds_setSpc s _ _
  · exact (adds_setSpc s _ _).trans (adds_slcAddReply _ _ _ _)

theorem chars_settle (s : Slc) (func : UInt8) (r : Spc × Option (UInt8 × UInt8)) : (s.settle func r).chars = s.chars := by
  rcases r with ⟨e, _ | a⟩
  · rfl
  · show (((s.setSpc _ e).slcAddReply func a.1 a.2)).chars = _
    unfold slcAddReply
    rw [putEsc_eq, putEsc_eq, putEsc_eq]
    rfl

theorem lt_of_mem_functions : ∀ i ∈ functions, i < 256 := by decide

/-- The loops go through the functions one by one. -/
theorem adds_settleAll (g : (Nat → UInt8) → Spc → Spc × Option (UInt8 × UInt8)) (s : Slc) {l : List Nat}
    (hl : ∀ i ∈ l, i < 256) :
    let r := sweep UInt8.toNat (fun _ => g s.chars) s.spcData (l.map Nat.toUInt8)
    Adds s (s.settleAll g l) r.1 r.2 := by
  induction l generalizing s with
  | nil => exact ⟨(List.append_nil _).symm, rfl, rfl⟩
  | cons i l ih =>
    have hi : i.toUInt8.toNat = i := UInt8.toNat_ofNat_of_lt' (hl i List.mem_cons_self)
    have hone := adds_settle s i.toUInt8 (g s.chars (s.spcData i))
    have hrest := ih (s.settle i.toUInt8 (g s.chars (s.spcData i))) fun j hj => hl j (List.mem_cons_of_mem _ hj)
    rw [hone.spcData, chars_settle, hi] at hrest
    rw [hi] at hone
    simp only [List.map_cons, sweep_cons, hi]
    exact hone.trans hrest

theorem adds_slcOne (s : Slc) (func flags val : UInt8) :
    Adds s (s.slcOne func flags val) (respond s.spcData (func, flags, val)).1
      (respond s.spcData (func, flags, val)).2 := by
  unfold slcOne respond
  by_cases h0 : func = 0
  · simp only [if_pos h0]
    exact ⟨(List.append_nil _).symm, rfl, rfl⟩
  simp only [if_neg h0]
  by_cases h1 : func.toNat > NSLC
  · simp only [if_pos h1]
    by_cases h2 : flags &&& SLC_LEVELBITS ≠ SLC_NOSUPPORT
    · simp only [if_pos h2]
      exact adds_slcAddReply s _ _ _
    · simp only [if_neg h2]
      exact ⟨(List.append_nil _).symm, rfl, rfl⟩
  simp only [if_neg h1]
  exact adds_settle s func _

theorem adds_slcAll (s : Slc) (cp : List UInt8) :
    Adds s (s.slcAll cp) (converse respond s.spcData (triplets cp)).1 (converse respond s.spcData (triplets cp)).2 := by
  induction s, cp using slcAll.induct with
  | case1 s func flags val cp ih =>
    have h := adds_slcOne s func flags val
    rw [h.spcData] at ih
    rw [slcAll, triplets]
    exact h.trans ih
  | case2 cp s h =>
    rw [slcAll, triplets]
    · exact ⟨(List.append_nil _).symm, rfl, rfl⟩
    · exact h
    · exact h

theorem updateOne_slcReply (s : Slc) (i : Nat) : (s.updateOne i).slcReply = s.slcReply := by
  unfold updateOne
  simp only
  repeat' split
  all_goals rfl

theorem slcUpdate_slcReply (s : Slc) : s.slcUpdate.slcReply = s.slcReply := by
  unfold slcUpdate
  induction functions generalizing s with
  | nil => rfl
  | cons i l ih => rw [List.foldl_cons, ih, updateOne_slcReply]

theorem slcEndReply_slcReply (s : Slc) (room : Nat → Bool) : (s.slcEndReply room).slcReply = s.slcReply ++ [IAC, SE] := by
  have h : ((s.put IAC).put SE).slcReply = s.slcReply ++ [IAC, SE] := by simp [put]
  unfold slcEndReply
  simp only
  split
  · exact h
  · split <;> exact h

theorem length_answers (tab : Nat → Spc) (ts : List Triplet) :
    (sentBytes (converse respond tab ts).2).length = spent tab ts := by
  induction ts generalizing tab with
  | nil => rfl
  | cons t ts ih => rw [converse, sentBytes_append, List.length_append, ih, length_sentBytes, spent]

/-- slc_replyp goes as far as the header, the answers and IAC SE. -/
theorem length_slcReply (s : Slc) (room : Nat → Bool) (cp : List UInt8) :
    (s.slc room cp).slcReply.length = 6 + spent s.spcData (triplets cp) := by
  have h := length_answers s.spcData (triplets cp)
  unfold slc
  rw [slcUpdate_slcReply, slcEndReply_slcReply, (adds_slcAll s.slcStartReply cp).slcReply]
  simp only [List.length_append, List.length_cons, List.length_nil, slcStartReply]
  omega

/-- A function once slc_update has seen it. -/
def cleared (e : Spc) : Spc := { e with flags := e.flags &&& ~~~SLC_ACK }

theorem updateOne_eq (s : Slc) (i : Nat) :
    (s.updateOne i).spcData = (fun k => if k = i then cleared (s.spcData k) else s.spcData k) ∧
      (s.updateOne i).sent = s.sent := by
  unfold updateOne
  by_cases h : (s.spcData i).flags &&& SLC_ACK = 0
  · simp only [h, if_true, and_true]
    funext k
    by_cases hk : k = i
    · have hc : cleared (s.spcData i) = s.spcData i := by
        rw [cleared, clear_of_ack h]
      rw [if_pos hk, hk, hc]
    · rw [if_neg hk]
  · have hset : (s.setSpc i (cleared (s.spcData i))).spcData =
        fun k => if k = i then cleared (s.spcData k) else s.spcData k := by
      funext k
      by_cases hk : k = i
      · simp [setSpc, hk]
      · simp [setSpc, hk, Function.update_of_ne]
    simp only [if_neg h]
    rw [← hset]
    split
    · split <;> exact ⟨rfl, rfl⟩
    · exact ⟨rfl, rfl⟩

theorem slcUpdate_eq (s : Slc) :
    s.slcUpdate.spcData = (fun k => if k ∈ functions then cleared (s.spcData k) else s.spcData k) ∧
      s.slcUpdate.sent = s.sent := by
  unfold slcUpdate
  induction functions generalizing s with
  | nil => simp
  | cons i l ih =>
    obtain ⟨h1, h2⟩ := updateOne_eq s i
    obtain ⟨h3, h4⟩ := ih (s.updateOne i)
    rw [List.foldl_cons]
    refine ⟨?_, h4.trans h2⟩
    rw [h3, h1]
    -- a function cleared twice is as it was after the first time
    have hidem : ∀ e, cleared (cleared e) = cleared e := by
      intro e
      rw [cleared, cleared, clear_of_ack (ack_clear e.flags)]
    funext k
    by_cases hk : k = i <;> by_cases hl : k ∈ l <;> simp [hk, hl, hidem]

theorem sent_slcEndReply {s t : Slc} (h : Adds s t tab ts) (hs : s.slcReply = [IAC, SB, TELOPT_LINEMODE, LM_SLC]) :
    (t.slcEndReply fun _ => true).sent = s.sent ++ slcMessage ts ∧ (t.slcEndReply fun _ => true).spcData = tab := by
  have hb : ((t.put IAC).put SE).slcReply = slcFrame ts := by
    show t.slcReply ++ [IAC] ++ [SE] = _
    rw [h.slcReply, hs, slcFrame, List.append_assoc _ [IAC] [SE]]
    rfl
  unfold slcEndReply slcMessage
  simp only [hb]
  by_cases hz : ts = []
  · rw [if_pos (by rw [hz]; decide), if_pos hz, List.append_nil]
    exact ⟨h.sent, h.spcData⟩
  · have hlen : ¬ (slcFrame ts).length ≤ 6 := by
      obtain ⟨x, l, rfl⟩ := List.exists_cons_of_ne_nil hz
      rw [slcFrame, List.length_append, List.length_append, length_sentBytes, List.map_cons, List.sum_cons,
        Triplet.width]
      simp only [List.length_cons, List.length_nil]
      omega
    rw [if_neg hlen, if_pos trivial, if_neg hz]
    exact ⟨congrArg (· ++ [slcFrame ts]) h.sent, h.spcData⟩

/-- A sub-option is answered with what its triplets are answered with, and then no function
    has an acknowledgement left. -/
theorem slc_eq (s : Slc) (cp : List UInt8) :
    (s.slc (fun _ => true) cp).sent = s.sent ++ slcMessage (converse respond s.spcData (triplets cp)).2 ∧
      (s.slc (fun _ => true) cp).spcData =
        fun k =>
          if k ∈ functions then cleared ((converse respond s.spcData (triplets cp)).1 k)
          else (converse respond s.spcData (triplets cp)).1 k := by
  obtain ⟨h1, h2⟩ := sent_slcEndReply (adds_slcAll s.slcStartReply cp) rfl
  obtain ⟨h3, h4⟩ := slcUpdate_eq ((s.slcStartReply.slcAll cp).slcEndReply fun _ => true)
  exact ⟨h4.trans h1, by rw [slc, h3, h2]; rfl⟩

/-- slc_export tells what it has made of each function. -/
theorem slcExport_eq (s : Slc) (chars : Nat → UInt8) :
    let r := sweep UInt8.toNat (fun _ => exported chars) s.spcData (functions.map Nat.toUInt8)
    (s.slcExport (fun _ => true) chars).sent = s.sent ++ slcMessage r.2 ∧
      (s.slcExport (fun _ => true) chars).spcData = fun k => if k ∈ functions then cleared (r.1 k) else r.1 k := by
  have hadds := adds_settleAll exported { s with chars := chars }.slcStartReply lt_of_mem_functions
  obtain ⟨h1, h2⟩ := sent_slcEndReply hadds rfl
  obtain ⟨h3, h4⟩ := slcUpdate_eq
    (({ s with chars := chars }.slcStartReply.settleAll exported functions).slcEndReply fun _ => true)
  exact ⟨h4.trans h1, by rw [slcExport, h3, h2]; rfl⟩

theorem slcCheck_eq (s : Slc) (chars : Nat → UInt8) :
    let r := sweep UInt8.toNat (fun _ => checked chars) s.spcData (functions.map Nat.toUInt8)
    (s.slcCheck (fun _ => true) chars).sent = s.sent ++ slcMessage r.2 ∧
      (s.slcCheck (fun _ => true) chars).spcData = r.1 := by
  have hadds := adds_settleAll checked { s with chars := chars }.slcStartReply lt_of_mem_functions
  obtain ⟨h1, h2⟩ := sent_slcEndReply hadds rfl
  exact ⟨h1, h2⟩

/-- slc_export and slc_check leave a function alone, or say to which of two levels they have
    put it. -/
theorem told_cases (chars : Nat → UInt8) (e : Spc) : ∀ r ∈ [exported chars e, checked chars e],
    r = (e, none) ∨ ∃ flags val, (flags = SLC_NOSUPPORT ∨ flags = e.mylevel) ∧
      r = ({ e with flags := flags, val := val }, some (flags, val)) := by
  intro r hr
  simp only [List.mem_cons, List.not_mem_nil, or_false] at hr
  have hor : ∀ p : Prop, [Decidable p] → (if p then SLC_NOSUPPORT else e.mylevel) = SLC_NOSUPPORT ∨
      (if p then SLC_NOSUPPORT else e.mylevel) = e.mylevel := by
    intro p _
    split
    · exact Or.inl rfl
    · exact Or.inr rfl
  rcases hr with rfl | rfl
  · unfold exported
    split
    · exact Or.inl rfl
    · exact Or.inr ⟨_, _, hor _, rfl⟩
  · unfold checked
    rcases e.valp with _ | p
    · exact Or.inl rfl
    · simp only
      split
      · exact Or.inr ⟨_, _, hor _, rfl⟩
      · exact Or.inl rfl

/-- The reply stays in slc_reply exactly where the answers leave room for the header and
    IAC SE. -/
theorem slc_inside_iff (s : Slc) (room : Nat → Bool) (cp : List UInt8) :
    (s.slc room cp).slcReply.length ≤ slcReplySize ↔ spent s.spcData (triplets cp) ≤ slcReplySize - 6 := by
  have hsize : slcReplySize = 128 := rfl
  rw [length_slcReply, hsize]
  omega

/-- A triplet is answered with one, or with none. -/
theorem respond_width_le (tab : Nat → Spc) (t : Triplet) : ((respond tab t).2.map Triplet.width).sum ≤ 6 := by
  unfold respond
  by_cases h0 : t.1 = 0
  · rw [if_pos h0]
    exact Nat.zero_le _
  rw [if_neg h0]
  by_cases h1 : t.1.toNat > NSLC
  · rw [if_pos h1]
    split
    · exact Triplet.width_le _
    · exact Nat.zero_le _
  rw [if_neg h1]
  show (((answerOne (tab t.1.toNat) t.2).2.map (t.1, ·)).toList.map Triplet.width).sum ≤ 6
  rcases (answerOne (tab t.1.toNat) t.2).2 with _ | a
  · exact Nat.zero_le _
  · exact Triplet.width_le (t.1, a)

theorem spent_le (tab : Nat → Spc) (ts : List Triplet) : spent tab ts ≤ 6 * ts.length := by
  induction ts generalizing tab with
  | nil => exact Nat.le_refl _
  | cons t ts ih =>
    have hone := respond_width_le tab t
    have hrest := ih (respond tab t).1
    rw [spent, List.length_cons]
    omega

/-- However long its answers are, a request of twenty triplets is safe. -/
theorem slc_inside_of_length (s : Slc) (room : Nat → Bool) {cp : List UInt8} (h : (triplets cp).length ≤ 20) :
    (s.slc room cp).slcReply.length ≤ slcReplySize := by
  have hle := spent_le s.spcData (triplets cp)
  rw [length_slcReply, slcReplySize]
  omega

/-- Forty-one triplets for a function that telnet does not know take slc_replyp out of
    slc_reply. -/
theorem refusals_overrun : slcReplySize <
    ((slcInit false true (fun _ => none) fun _ => 0).slc (fun _ => true)
      (List.replicate 41 [30, SLC_VARIABLE, 0]).flatten).slcReply.length := by
  rw [length_slcReply]
  decide +kernel

end Slc

end Netutils.Telnet
