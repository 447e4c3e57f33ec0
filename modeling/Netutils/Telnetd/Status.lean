/-
  Netutils.Telnetd.Status — telnetd's answer to STATUS SEND (telnetd/state.c, send_status, with
  send_slc and end_slc of telnetd/slc.c).

  The bytes of the special characters come from slcbuf, where add_slc has doubled each IAC
  already, and ADD_DATA doubles both of them again. And end_slc gives nothing as long as a
  request of the client waits for the pty. Otherwise what is read back from the reply is what
  telnetd has (`status_decodable_iff`).
-/

import Netutils.Telnetd.SlcReply

namespace Netutils.Telnetd.SendStatus

open Netutils.Arpa Netutils.Wire

/-! ## send_status -/

def MY_WANT_STATE_WILL : UInt8 := 0x02
def MY_WANT_STATE_DO : UInt8 := 0x08

/-- Size of statusbuf. -/
def statusbufSize : Nat := 256

structure Status where
  options : UInt8 → UInt8
  flowmode : Int
  restartany : Int
  /-- Of MODE_MASK. -/
  editmode : UInt8
  slc : Slc
  terminit : Bool

namespace Status

def myWantStateIsWill (s : Status) (i : UInt8) : Bool := s.options i &&& MY_WANT_STATE_WILL ≠ 0

def hisWantStateIsWill (s : Status) (i : UInt8) : Bool := s.options i &&& MY_WANT_STATE_DO ≠ 0

end Status

/-- ADD; `none` is trunc. -/
def add (c : UInt8) (ncp : List UInt8) : Option (List UInt8) :=
  if ncp.length < statusbufSize then some (ncp ++ [c]) else none

def addAll (l ncp : List UInt8) : Option (List UInt8) := l.foldlM (fun ncp c => add c ncp) ncp

/-- ADD_DATA -/
def addData (c : UInt8) (ncp : List UInt8) : Option (List UInt8) := do
  let ncp ← add c ncp
  if c = SE ∨ c = IAC then add c ncp else pure ncp

/-- end_slc (&cp): what lies between cp and cpe. -/
def endSlcInto (s : Slc) (terminit : Bool) : List UInt8 :=
  if s.defSlcbuf.isSome ∧ terminit = false then []
  else if s.slcbuf.length > 4 then s.slcbuf.drop 4
  else []

namespace Status

/-- The body of the loop over the options. -/
def addOption (s : Status) (ncp : List UInt8) (i : UInt8) : Option (List UInt8) := do
  let ncp ← (if s.myWantStateIsWill i then add WILL ncp >>= addData i else pure ncp)
  (if s.hisWantStateIsWill i then add DO ncp >>= addData i else pure ncp)

def addLflow (s : Status) (ncp : List UInt8) : Option (List UInt8) := do
  let ncp ← addAll [SB, TELOPT_LFLOW, if s.flowmode ≠ 0 then LFLOW_ON else LFLOW_OFF, SE] ncp
  if s.restartany ≥ 0 then
    addAll [SB, TELOPT_LFLOW, if s.restartany ≠ 0 then LFLOW_RESTART_ANY else LFLOW_RESTART_XON, SE] ncp
  else pure ncp

/-- start_slc (0), send_slc and end_slc. -/
def slcData (s : Status) : List UInt8 := endSlcInto (s.slc.startSlc s.slc.chars).sendSlc s.terminit

def addLinemode (s : Status) (ncp : List UInt8) : Option (List UInt8) := do
  let ncp ← addAll [SB, TELOPT_LINEMODE, LM_MODE] ncp
  let ncp ← addData s.editmode ncp
  let ncp ← addAll [SE, SB, TELOPT_LINEMODE, LM_SLC] ncp
  let ncp ← s.slcData.foldlM (fun ncp c => addData c ncp) ncp
  add SE ncp

end Status

/-- The options below `n`. -/
def optionsBelow (n : Nat) : List UInt8 := (List.range n).map Nat.toUInt8

/-- What is handed to net_output_datalen, if anything is. -/
def sendStatus (s : Status) : Option (List UInt8) := do
  let ncp ← addAll [IAC, SB, TELOPT_STATUS, TELQUAL_IS] []
  let ncp ← (optionsBelow NTELOPTS).foldlM s.addOption ncp
  let ncp ← (if s.hisWantStateIsWill TELOPT_LFLOW then s.addLflow ncp else pure ncp)
  let ncp ← (if s.hisWantStateIsWill TELOPT_LINEMODE then s.addLinemode ncp else pure ncp)
  addAll [IAC, SE] ncp

/-! ## What a STATUS reply says -/

inductive Item where
  | will (i : UInt8)
  | do_ (i : UInt8)
  | lflow (c : UInt8)
  | mode (c : UInt8)
  /-- With the bytes of its triplets. -/
  | slc (data : List UInt8)
  deriving DecidableEq

/-- A byte of data, and what is behind it. -/
def readByte : List UInt8 → Option (UInt8 × List UInt8)
  | c :: d :: l => if c = SE ∨ c = IAC then (if d = c then some (c, l) else none) else some (c, d :: l)
  | [c] => if c = SE ∨ c = IAC then none else some (c, [])
  | [] => none

/-- The data up to an SE that is not doubled, and what is behind that. -/
def readData : List UInt8 → Option (List UInt8 × List UInt8)
  | c :: d :: l =>
    if d = c ∧ (c = SE ∨ c = IAC) then (readData l).map fun r => (c :: r.1, r.2)
    else if c = SE then some ([], d :: l)
    else if c = IAC then none
    else (readData (d :: l)).map fun r => (c :: r.1, r.2)
  | [c] => if c = SE then some ([], []) else none
  | [] => none

/-- A sub-option of one byte. -/
def readOne (item : UInt8 → Item) (l : List UInt8) : Option (Item × List UInt8) :=
  (readData l).bind fun r =>
    match r.1 with
    | [c] => some (item c, r.2)
    | _ => none

def readSub : List UInt8 → Option (Item × List UInt8)
  | o :: k :: l =>
    if o = TELOPT_LFLOW then readOne .lflow (k :: l)
    else if o = TELOPT_LINEMODE ∧ k = LM_MODE then readOne .mode l
    else if o = TELOPT_LINEMODE ∧ k = LM_SLC then (readData l).map fun r => (.slc r.1, r.2)
    else none
  | _ => none

def readItem : List UInt8 → Option (Item × List UInt8)
  | c :: l =>
    if c = WILL then (readByte l).map fun r => (.will r.1, r.2)
    else if c = DO then (readByte l).map fun r => (.do_ r.1, r.2)
    else if c = SB then readSub l
    else none
  | [] => none

/-- At most `n` items. -/
def readItems : Nat → List UInt8 → Option (List Item)
  | _, [] => some []
  | 0, _ :: _ => none
  | n + 1, c :: l => (readItem (c :: l)).bind fun r => (readItems n r.2).map (r.1 :: ·)

/-- What lies between IAC SB STATUS IS and IAC SE. -/
def readStatus (body : List UInt8) : Option (List Item) := readItems body.length body

/-- The data of a sub-option as it is sent. -/
def escaped (data : List UInt8) : List UInt8 := data.flatMap fun c => if c = SE ∨ c = IAC then [c, c] else [c]

def Item.encode : Item → List UInt8
  | .will i => WILL :: escaped [i]
  | .do_ i => DO :: escaped [i]
  | .lflow c => [SB, TELOPT_LFLOW] ++ escaped [c] ++ [SE]
  | .mode c => [SB, TELOPT_LINEMODE, LM_MODE] ++ escaped [c] ++ [SE]
  | .slc data => [SB, TELOPT_LINEMODE, LM_SLC] ++ escaped data ++ [SE]

theorem escaped_cons (c : UInt8) (data : List UInt8) :
    escaped (c :: data) = (if c = SE ∨ c = IAC then [c, c] else [c]) ++ escaped data :=
  List.flatMap_cons

theorem readByte_escaped (c : UInt8) (rest : List UInt8) : readByte (escaped [c] ++ rest) = some (c, rest) := by
  rw [escaped_cons]
  by_cases hc : c = SE ∨ c = IAC
  · rw [if_pos hc]
    show (if c = SE ∨ c = IAC then _ else _) = _
    rw [if_pos hc, if_pos rfl]
    rfl
  · rw [if_neg hc]
    show readByte (c :: rest) = _
    cases rest with
    | nil =>
      show (if c = SE ∨ c = IAC then _ else _) = _
      rw [if_neg hc]
    | cons d rest =>
      show (if c = SE ∨ c = IAC then _ else _) = _
      rw [if_neg hc]

/-- The SE behind the data is the end, as the next item does not begin with another one. -/
theorem readData_escaped (data : List UInt8) {rest : List UInt8} (hrest : rest.head? ≠ some SE) :
    readData (escaped data ++ SE :: rest) = some (data, rest) := by
  induction data with
  | nil =>
    show readData (SE :: rest) = _
    cases rest with
    | nil => rfl
    | cons d rest =>
      have hd : ¬ (d = SE ∧ (SE = SE ∨ SE = IAC)) := fun h => hrest (congrArg some h.1)
      rw [readData, if_neg hd, if_pos rfl]
  | cons c data ih =>
    rw [escaped_cons]
    by_cases hc : c = SE ∨ c = IAC
    · rw [if_pos hc]
      show readData (c :: c :: (escaped data ++ SE :: rest)) = _
      rw [readData, if_pos ⟨rfl, hc⟩, ih, Option.map_some]
    · rw [if_neg hc]
      show readData (c :: (escaped data ++ SE :: rest)) = _
      obtain ⟨d, l, hl⟩ := List.exists_cons_of_ne_nil (l := escaped data ++ SE :: rest) (by simp)
      rw [hl] at ih ⊢
      rw [readData, if_neg fun h => hc h.2, if_neg fun h => hc (Or.inl h), if_neg fun h => hc (Or.inr h), ih,
        Option.map_some]

theorem readItem_encode (i : Item) {rest : List UInt8} (hrest : rest.head? ≠ some SE) :
    readItem (i.encode ++ rest) = some (i, rest) := by
  cases i with
  | will i =>
    show (readByte (escaped [i] ++ rest)).map _ = _
    rw [readByte_escaped, Option.map_some]
  | do_ i =>
    show (readByte (escaped [i] ++ rest)).map _ = _
    rw [readByte_escaped, Option.map_some]
  | lflow c =>
    have hdata := readData_escaped [c] hrest
    obtain ⟨k, l, hl⟩ := List.exists_cons_of_ne_nil (l := escaped [c] ++ SE :: rest) (by simp)
    show readSub (TELOPT_LFLOW :: (escaped [c] ++ [SE] ++ rest)) = _
    rw [List.append_assoc, List.singleton_append, hl]
    show readOne .lflow (k :: l) = _
    rw [readOne, ← hl, hdata, Option.bind_some]
  | mode c =>
    show readOne .mode (escaped [c] ++ [SE] ++ rest) = _
    rw [List.append_assoc, List.singleton_append, readOne, readData_escaped [c] hrest, Option.bind_some]
  | slc data =>
    show (readData (escaped data ++ [SE] ++ rest)).map _ = _
    rw [List.append_assoc, List.singleton_append, readData_escaped data hrest, Option.map_some]

theorem encode_head (i : Item) (rest : List UInt8) :
    (i.encode ++ rest).head? ≠ some SE ∧ i.encode ++ rest ≠ [] ∧ 1 ≤ i.encode.length := by
  cases i <;> exact ⟨by simp [Item.encode, WILL, DO, SB, SE], by simp [Item.encode], by simp [Item.encode]⟩

theorem readItems_encode (items : List Item) {n : Nat} (hn : items.length ≤ n) :
    readItems n (items.flatMap Item.encode) = some items := by
  induction items generalizing n with
  | nil => unfold readItems; rfl
  | cons i items ih =>
    rw [List.length_cons] at hn
    obtain ⟨n, rfl⟩ : ∃ m, n = m + 1 := ⟨n - 1, by omega⟩
    have hrest : (items.flatMap Item.encode).head? ≠ some SE := by
      cases items with
      | nil =>
        intro h
        cases h
      | cons j items => exact (encode_head j _).1
    have hitem := readItem_encode i hrest
    rw [List.flatMap_cons]
    obtain ⟨c, l, hl⟩ := List.exists_cons_of_ne_nil (encode_head i (items.flatMap Item.encode)).2.1
    rw [hl] at hitem ⊢
    rw [readItems, hitem, Option.bind_some, ih (by omega), Option.map_some]

theorem length_le_encode (items : List Item) : items.length ≤ (items.flatMap Item.encode).length := by
  induction items with
  | nil => exact Nat.le_refl 0
  | cons i items ih =>
    have hi := (encode_head i []).2.2
    rw [List.flatMap_cons, List.length_append, List.length_cons]
    omega

theorem readStatus_encode (items : List Item) : readStatus (items.flatMap Item.encode) = some items :=
  readItems_encode items (length_le_encode items)

/-! ## What send_status writes -/

/-- Whatever is in statusbuf, `f` puts `l` behind it or finds no room. -/
def Writes (f : List UInt8 → Option (List UInt8)) (l : List UInt8) : Prop :=
  ∀ ncp, ncp.length ≤ statusbufSize → f ncp = if (ncp ++ l).length ≤ statusbufSize then some (ncp ++ l) else none

variable {f g : List UInt8 → Option (List UInt8)} {l l' : List UInt8} {s : Status}

theorem writes_pure : Writes pure [] := by
  intro ncp hncp
  rw [List.append_nil, if_pos hncp]
  rfl

theorem writes_add (c : UInt8) : Writes (add c) [c] := by
  intro ncp _
  unfold add
  by_cases h : ncp.length < statusbufSize
  · rw [if_pos h, if_pos (by rw [List.length_append]; exact h)]
  · rw [if_neg h, if_neg fun h' => h (by rw [List.length_append] at h'; exact h')]

theorem Writes.bind (hf : Writes f l) (hg : Writes g l') : Writes (fun ncp => (f ncp).bind g) (l ++ l') := by
  intro ncp hncp
  show (f ncp).bind g = _
  rw [hf ncp hncp, ← List.append_assoc]
  by_cases h : (ncp ++ l).length ≤ statusbufSize
  · rw [if_pos h, Option.bind_some, hg _ h]
  · rw [if_neg h, Option.bind_none, if_neg]
    have hlen : (ncp ++ l ++ l').length = (ncp ++ l).length + l'.length := List.length_append
    omega

theorem Writes.ite (p : Prop) [Decidable p] (hf : Writes f l) :
    Writes (fun ncp => if p then f ncp else pure ncp) (if p then l else []) := by
  by_cases h : p
  · simp only [if_pos h]
    exact hf
  · simp only [if_neg h]
    exact writes_pure

theorem Writes.foldlM {α : Type} {step : List UInt8 → α → Option (List UInt8)} {text : α → List UInt8} (as : List α)
    (h : ∀ a ∈ as, Writes (fun ncp => step ncp a) (text a)) : Writes (fun ncp => as.foldlM step ncp) (as.flatMap text) := by
  induction as with
  | nil => exact writes_pure
  | cons a as ih =>
    have hrest := ih fun b hb => h b (List.mem_cons_of_mem _ hb)
    rw [List.flatMap_cons]
    exact (h a List.mem_cons_self).bind hrest

theorem writes_addAll (l : List UInt8) : Writes (addAll l) l := by
  have h := Writes.foldlM l fun c _ => writes_add c
  rw [List.flatMap_singleton'] at h
  exact h

theorem writes_addData (c : UInt8) : Writes (addData c) (escaped [c]) := by
  have h : Writes (fun ncp => (add c ncp).bind fun ncp => if c = SE ∨ c = IAC then add c ncp else pure ncp)
      ([c] ++ if c = SE ∨ c = IAC then [c] else []) := (writes_add c).bind ((writes_add c).ite _)
  rw [escaped_cons, show escaped [] = [] from rfl, List.append_nil]
  by_cases hc : c = SE ∨ c = IAC
  · rw [if_pos hc] at h ⊢
    exact h
  · rw [if_neg hc] at h ⊢
    exact h

namespace Status

/-- What is said of one option. -/
def optionItems (s : Status) (i : UInt8) : List Item :=
  (if s.myWantStateIsWill i then [.will i] else []) ++ if s.hisWantStateIsWill i then [.do_ i] else []

def lflowItems (s : Status) : List Item :=
  if s.hisWantStateIsWill TELOPT_LFLOW then
    .lflow (if s.flowmode ≠ 0 then LFLOW_ON else LFLOW_OFF) ::
      if s.restartany ≥ 0 then [.lflow (if s.restartany ≠ 0 then LFLOW_RESTART_ANY else LFLOW_RESTART_XON)] else []
  else []

def linemodeItems (s : Status) (data : List UInt8) : List Item :=
  if s.hisWantStateIsWill TELOPT_LINEMODE then [.mode s.editmode, .slc data] else []

/-- What the reply lists. -/
def shown (s : Status) : List Item :=
  (optionsBelow NTELOPTS).flatMap s.optionItems ++ s.lflowItems ++ s.linemodeItems s.slcData

end Status

theorem writes_addOption (s : Status) (i : UInt8) :
    Writes (fun ncp => s.addOption ncp i) ((s.optionItems i).flatMap Item.encode) := by
  have hwill := ((writes_add WILL).bind (writes_addData i)).ite (s.myWantStateIsWill i = true)
  have hdo := ((writes_add DO).bind (writes_addData i)).ite (s.hisWantStateIsWill i = true)
  have h := hwill.bind hdo
  have htext : (s.optionItems i).flatMap Item.encode =
      (if s.myWantStateIsWill i = true then [WILL] ++ escaped [i] else []) ++
        if s.hisWantStateIsWill i = true then [DO] ++ escaped [i] else [] := by
    unfold Status.optionItems
    rw [List.flatMap_append]
    congr 1
    · split
      · exact List.flatMap_singleton _ _
      · rfl
    · split
      · exact List.flatMap_singleton _ _
      · rfl
  rw [htext]
  exact h

theorem encode_lflow {c : UInt8} (hc : escaped [c] = [c]) : (Item.lflow c).encode = [SB, TELOPT_LFLOW, c, SE] := by
  show [SB, TELOPT_LFLOW] ++ escaped [c] ++ [SE] = _
  rw [hc]
  rfl

theorem writes_addLflow (s : Status) :
    Writes (fun ncp => if s.hisWantStateIsWill TELOPT_LFLOW = true then s.addLflow ncp else pure ncp)
      (s.lflowItems.flatMap Item.encode) := by
  have h := ((writes_addAll [SB, TELOPT_LFLOW, if s.flowmode ≠ 0 then LFLOW_ON else LFLOW_OFF, SE]).bind
    ((writes_addAll [SB, TELOPT_LFLOW, if s.restartany ≠ 0 then LFLOW_RESTART_ANY else LFLOW_RESTART_XON, SE]).ite
      (s.restartany ≥ 0))).ite (s.hisWantStateIsWill TELOPT_LFLOW = true)
  have htext : s.lflowItems.flatMap Item.encode = if s.hisWantStateIsWill TELOPT_LFLOW = true then
      [SB, TELOPT_LFLOW, if s.flowmode ≠ 0 then LFLOW_ON else LFLOW_OFF, SE] ++
        if s.restartany ≥ 0 then [SB, TELOPT_LFLOW, if s.restartany ≠ 0 then LFLOW_RESTART_ANY else LFLOW_RESTART_XON, SE]
        else []
      else [] := by
    unfold Status.lflowItems
    split
    · rw [List.flatMap_cons, encode_lflow (by split <;> decide)]
      congr 1
      split
      · rw [List.flatMap_singleton, encode_lflow (by split <;> decide)]
      · rfl
    · rfl
  rw [htext]
  exact h

theorem writes_addLinemode (s : Status) :
    Writes (fun ncp => if s.hisWantStateIsWill TELOPT_LINEMODE = true then s.addLinemode ncp else pure ncp)
      ((s.linemodeItems s.slcData).flatMap Item.encode) := by
  have hdata : Writes (fun ncp => s.slcData.foldlM (fun ncp c => addData c ncp) ncp) (escaped s.slcData) := by
    have h := Writes.foldlM s.slcData fun c _ => writes_addData c
    have htext : s.slcData.flatMap (fun c => escaped [c]) = escaped s.slcData := by
      unfold escaped
      simp
    rw [htext] at h
    exact h
  have h := ((writes_addAll [SB, TELOPT_LINEMODE, LM_MODE]).bind ((writes_addData s.editmode).bind
    ((writes_addAll [SE, SB, TELOPT_LINEMODE, LM_SLC]).bind (hdata.bind (writes_add SE))))).ite
      (s.hisWantStateIsWill TELOPT_LINEMODE = true)
  have htext : (s.linemodeItems s.slcData).flatMap Item.encode = if s.hisWantStateIsWill TELOPT_LINEMODE = true then
      [SB, TELOPT_LINEMODE, LM_MODE] ++ (escaped [s.editmode] ++ ([SE, SB, TELOPT_LINEMODE, LM_SLC] ++
        (escaped s.slcData ++ [SE]))) else [] := by
    unfold Status.linemodeItems
    split
    · simp [Item.encode]
    · rfl
  rw [htext]
  exact h

/-- The reply is the text of its items, if statusbuf has room for it. -/
theorem sendStatus_eq (s : Status) :
    sendStatus s =
      let m := [IAC, SB, TELOPT_STATUS, TELQUAL_IS] ++ s.shown.flatMap Item.encode ++ [IAC, SE]
      if m.length ≤ statusbufSize then some m else none := by
  have hoptions := Writes.foldlM (optionsBelow NTELOPTS) fun i _ => writes_addOption s i
  have h := (writes_addAll [IAC, SB, TELOPT_STATUS, TELQUAL_IS]).bind (hoptions.bind ((writes_addLflow s).bind
    ((writes_addLinemode s).bind (writes_addAll [IAC, SE]))))
  have hsend := h [] (Nat.zero_le _)
  have htext : [IAC, SB, TELOPT_STATUS, TELQUAL_IS] ++ s.shown.flatMap Item.encode ++ [IAC, SE] =
      [] ++ ([IAC, SB, TELOPT_STATUS, TELQUAL_IS] ++ ((optionsBelow NTELOPTS).flatMap
        (fun i => (s.optionItems i).flatMap Item.encode) ++ (s.lflowItems.flatMap Item.encode ++
          ((s.linemodeItems s.slcData).flatMap Item.encode ++ [IAC, SE])))) := by
    simp [Status.shown, List.flatMap_assoc]
  rw [htext]
  exact hsend

/-! ## What it says -/

namespace Status

/-- A request of the client waits for the pty. -/
def Deferred (s : Status) : Prop := s.slc.defSlcbuf.isSome ∧ s.terminit = false

instance (s : Status) : Decidable s.Deferred := inferInstanceAs (Decidable (_ ∧ _))

/-- The current characters of the functions that are supported. -/
def supported (s : Status) : List Triplet := Slc.functions.filterMap (Slc.told s.slc.slctab)

/-- What the reply should list. -/
def current (s : Status) : List Item :=
  (optionsBelow 256).flatMap s.optionItems ++ s.lflowItems ++ s.linemodeItems (s.supported.flatMap Triplet.bytes)

/-- A byte of slcbuf in the reply, where IAC is doubled twice. -/
def width (c : UInt8) : Nat := if c = IAC then 4 else if c = SE then 2 else 1

/-- The length of the reply. -/
def room (s : Status) : Nat :=
  6 + 2 * (optionsBelow NTELOPTS).countP s.myWantStateIsWill + 2 * (optionsBelow NTELOPTS).countP s.hisWantStateIsWill +
    (if s.hisWantStateIsWill TELOPT_LFLOW then (if s.restartany ≥ 0 then 8 else 4) else 0) +
    (if s.hisWantStateIsWill TELOPT_LINEMODE then
      8 + (escaped [s.editmode]).length +
        (if s.Deferred then 0 else ((s.supported.flatMap Triplet.bytes).map width).sum)
    else 0)

/-- The special characters come out right, and there are no options that are not looked at. -/
structure Tells (s : Status) : Prop where
  single : s.hisWantStateIsWill TELOPT_LINEMODE = true → ¬ s.Deferred → ∀ t ∈ s.supported, IAC ∉ t.bytes
  present : s.hisWantStateIsWill TELOPT_LINEMODE = true → s.Deferred → s.supported = []
  known : ∀ i : UInt8, NTELOPTS ≤ i.toNat → s.myWantStateIsWill i = false ∧ s.hisWantStateIsWill i = false

/-- What is queued, if anything is, is a reply that lists what it should. -/
def Decodable (s : Status) : Prop :=
  ∀ m, sendStatus s = some m → ∃ body items, m = [IAC, SB, TELOPT_STATUS, TELQUAL_IS] ++ body ++ [IAC, SE] ∧
    readStatus body = some items ∧ items.Perm s.current

theorem slcData_eq (s : Status) : s.slcData = if s.Deferred then [] else sentBytes s.supported := by
  have hadds := Slc.adds_sendSlc (s.slc.startSlc s.slc.chars)
  have hbuf : (s.slc.startSlc s.slc.chars).sendSlc.slcbuf = [IAC, SB, TELOPT_LINEMODE, LM_SLC] ++ sentBytes s.supported :=
    hadds.slcbuf
  have hsaved : (s.slc.startSlc s.slc.chars).sendSlc.defSlcbuf = s.slc.defSlcbuf := hadds.saved
  unfold slcData endSlcInto
  rw [hsaved, hbuf]
  refine if_congr Iff.rfl rfl ?_
  cases sentBytes s.supported with
  | nil => rfl
  | cons c l => rfl

end Status

theorem mem_optionsBelow {n : Nat} (hn : n ≤ 256) {i : UInt8} : i ∈ optionsBelow n ↔ i.toNat < n := by
  unfold optionsBelow
  rw [List.mem_map]
  constructor
  · intro h
    obtain ⟨k, hk, rfl⟩ := h
    rw [List.mem_range] at hk
    rw [show k.toUInt8.toNat = k % 256 from rfl, Nat.mod_eq_of_lt (by omega)]
    exact hk
  · intro hi
    exact ⟨i.toNat, List.mem_range.mpr hi, by simp⟩

/-- Doubling shows where there is an IAC. -/
theorem doubled_eq_self_iff (l : List UInt8) : doubled l = l ↔ IAC ∉ l := by
  constructor
  · intro h
    have hlen := length_doubled l
    rw [h] at hlen
    exact List.count_eq_zero.mp (by omega)
  · intro h
    unfold doubled
    rw [List.flatMap_congr fun c hc => if_neg fun hiac : c = IAC => h (hiac ▸ hc), List.flatMap_singleton']

/-! ## How long it is -/

theorem length_optionItems (is : List UInt8) (h : ∀ i ∈ is, ¬ (i = SE ∨ i = IAC)) :
    ((is.flatMap s.optionItems).flatMap Item.encode).length =
      2 * is.countP s.myWantStateIsWill + 2 * is.countP s.hisWantStateIsWill := by
  induction is with
  | nil => rfl
  | cons i is ih =>
    have hrest := ih fun k hk => h k (List.mem_cons_of_mem _ hk)
    have hplain : escaped [i] = [i] := by
      rw [escaped_cons, if_neg (h i List.mem_cons_self)]
      rfl
    have hone : ((s.optionItems i).flatMap Item.encode).length =
        2 * (if s.myWantStateIsWill i = true then 1 else 0) + 2 * (if s.hisWantStateIsWill i = true then 1 else 0) := by
      unfold Status.optionItems
      rw [List.flatMap_append, List.length_append]
      congr 1
      · split
        · rw [List.flatMap_singleton, Item.encode, hplain]; rfl
        · rfl
      · split
        · rw [List.flatMap_singleton, Item.encode, hplain]; rfl
        · rfl
    rw [List.flatMap_cons, List.flatMap_append, List.length_append, hone, hrest, List.countP_cons, List.countP_cons]
    omega

theorem length_lflowItems (s : Status) :
    (s.lflowItems.flatMap Item.encode).length =
      if s.hisWantStateIsWill TELOPT_LFLOW then (if s.restartany ≥ 0 then 8 else 4) else 0 := by
  unfold Status.lflowItems
  split
  · rw [List.flatMap_cons, encode_lflow (by split <;> decide)]
    by_cases hrestart : s.restartany ≥ 0
    · rw [if_pos hrestart, if_pos hrestart, List.flatMap_singleton, encode_lflow (by split <;> decide)]
      rfl
    · rw [if_neg hrestart, if_neg hrestart]
      rfl
  · rfl

theorem length_escaped_doubled (l : List UInt8) : (escaped (doubled l)).length = (l.map Status.width).sum := by
  induction l with
  | nil => rfl
  | cons c l ih =>
    have hd : doubled (c :: l) = (if c = IAC then [IAC, IAC] else [c]) ++ doubled l := List.flatMap_cons
    have happ : ∀ a b : List UInt8, escaped (a ++ b) = escaped a ++ escaped b := fun a b => List.flatMap_append
    have hone : (escaped (if c = IAC then [IAC, IAC] else [c])).length = Status.width c := by
      unfold Status.width
      split
      · rfl
      · rename_i hiac
        rw [escaped_cons]
        by_cases hse : c = SE
        · rw [if_pos (Or.inl hse), if_pos hse]
          rfl
        · rw [if_neg fun h => h.elim hse hiac, if_neg hse]
          rfl
    rw [hd, happ, List.length_append, hone, ih, List.map_cons, List.sum_cons]

theorem length_linemodeItems (s : Status) :
    ((s.linemodeItems s.slcData).flatMap Item.encode).length =
      if s.hisWantStateIsWill TELOPT_LINEMODE then
        8 + (escaped [s.editmode]).length +
          (if s.Deferred then 0 else ((s.supported.flatMap Triplet.bytes).map Status.width).sum)
      else 0 := by
  unfold Status.linemodeItems
  split
  · have hdata : (escaped s.slcData).length =
        if s.Deferred then 0 else ((s.supported.flatMap Triplet.bytes).map Status.width).sum := by
      rw [s.slcData_eq]
      split
      · rfl
      · exact length_escaped_doubled _
    rw [← hdata, List.flatMap_cons, List.flatMap_singleton]
    simp only [Item.encode, List.length_append, List.length_cons, List.length_nil]
    omega
  · rfl

theorem not_escaped_of_lt {i : UInt8} (hi : i.toNat < NTELOPTS) : ¬ (i = SE ∨ i = IAC) := by
  rintro (rfl | rfl)
  · exact absurd hi (by decide)
  · exact absurd hi (by decide)

theorem length_reply (s : Status) :
    ([IAC, SB, TELOPT_STATUS, TELQUAL_IS] ++ s.shown.flatMap Item.encode ++ [IAC, SE]).length = s.room := by
  have hoptions := length_optionItems (optionsBelow NTELOPTS) (s := s) fun i hi =>
    not_escaped_of_lt ((mem_optionsBelow (by decide)).mp hi)
  have hlflow := length_lflowItems s
  have hlinemode := length_linemodeItems s
  unfold Status.shown Status.room
  rw [List.flatMap_append, List.flatMap_append]
  simp only [List.length_append, List.length_cons, List.length_nil, hoptions, hlflow, hlinemode]
  omega

/-! ## What should be there -/

theorem mem_optionItems {i : UInt8} {x : Item} : x ∈ s.optionItems i ↔
    x = .will i ∧ s.myWantStateIsWill i = true ∨ x = .do_ i ∧ s.hisWantStateIsWill i = true := by
  unfold Status.optionItems
  rw [List.mem_append]
  split <;> split <;> simp_all

/-- Of what is shown, each kind is where it is looked for. -/
theorem mem_shown {x : Item} : x ∈ s.shown ↔ (∃ i : UInt8, i.toNat < NTELOPTS ∧ x ∈ s.optionItems i) ∨ x ∈ s.lflowItems ∨
    x ∈ s.linemodeItems s.slcData := by
  unfold Status.shown
  rw [List.mem_append, List.mem_append, List.mem_flatMap, or_assoc]
  refine or_congr_left ⟨?_, ?_⟩
  · intro ⟨i, hi, hx⟩
    exact ⟨i, (mem_optionsBelow (by decide)).mp hi, hx⟩
  · intro ⟨i, hi, hx⟩
    exact ⟨i, (mem_optionsBelow (by decide)).mpr hi, hx⟩

theorem not_lflowItems {x : Item} (hx : ∀ c, x ≠ .lflow c) : x ∉ s.lflowItems := by
  unfold Status.lflowItems
  intro h
  split at h
  · rcases List.mem_cons.mp h with h | h
    · exact hx _ h
    · split at h
      · exact hx _ (List.mem_singleton.mp h)
      · cases h
  · cases h

theorem mem_linemodeItems {x : Item} {data : List UInt8} : x ∈ s.linemodeItems data ↔
    s.hisWantStateIsWill TELOPT_LINEMODE = true ∧ (x = .mode s.editmode ∨ x = .slc data) := by
  unfold Status.linemodeItems
  split
  · simp_all
  · simp_all

/-- An option of the list is one that is looked at. -/
theorem option_shown {i : UInt8} {x : Item} (hi : x = .will i ∨ x = .do_ i) (hx : x ∈ s.shown) : i.toNat < NTELOPTS := by
  have hnot : x ∉ s.lflowItems ∧ x ∉ s.linemodeItems s.slcData := by
    refine ⟨not_lflowItems fun c h => ?_, fun h => ?_⟩
    · rcases hi with rfl | rfl <;> cases h
    · rcases hi with rfl | rfl <;> rcases (mem_linemodeItems.mp h).2 with h | h <;> cases h
  rcases mem_shown.mp hx with ⟨k, hk, hx⟩ | hx | hx
  · have hik : k = i := by
      rcases mem_optionItems.mp hx with ⟨rfl, -⟩ | ⟨rfl, -⟩ <;> rcases hi with h | h <;> cases h <;> rfl
    exact hik ▸ hk
  · exact absurd hx hnot.1
  · exact absurd hx hnot.2

theorem slc_shown {data : List UInt8} (hx : Item.slc data ∈ s.shown) : data = s.slcData := by
  rcases mem_shown.mp hx with ⟨k, hk, hx⟩ | hx | hx
  · rcases mem_optionItems.mp hx with ⟨h, -⟩ | ⟨h, -⟩ <;> cases h
  · exact absurd hx (not_lflowItems fun c h => by cases h)
  · rcases (mem_linemodeItems.mp hx).2 with h | h
    · cases h
    · exact Item.slc.inj h

theorem tells_of_perm (h : s.shown.Perm s.current) : s.Tells := by
  have hdata : s.hisWantStateIsWill TELOPT_LINEMODE = true → s.supported.flatMap Triplet.bytes = s.slcData := by
    intro hon
    refine slc_shown (h.mem_iff.mpr ?_)
    exact List.mem_append_right _ (mem_linemodeItems.mpr ⟨hon, Or.inr rfl⟩)
  constructor
  · intro hon hnow t ht hiac
    have heq := hdata hon
    rw [s.slcData_eq, if_neg hnow] at heq
    exact (doubled_eq_self_iff _).mp heq.symm (List.mem_flatMap.mpr ⟨t, ht, hiac⟩)
  · intro hon hdeferred
    have heq := hdata hon
    rw [s.slcData_eq, if_pos hdeferred] at heq
    rw [← triplets_bytes s.supported, heq]
    rfl
  · intro i hi
    have hnot : ∀ x, x = Item.will i ∨ x = Item.do_ i → x ∉ s.optionItems i := by
      intro x hx hmem
      have hall : x ∈ (optionsBelow 256).flatMap s.optionItems :=
        List.mem_flatMap.mpr ⟨i, (mem_optionsBelow (Nat.le_refl _)).mpr i.toNat_lt, hmem⟩
      have hshown := h.mem_iff.mpr (List.mem_append_left _ (List.mem_append_left _ hall))
      exact absurd (option_shown hx hshown) (Nat.not_lt.mpr hi)
    constructor
    · by_contra hwill
      exact hnot _ (Or.inl rfl) (mem_optionItems.mpr (Or.inl ⟨rfl, eq_true_of_ne_false hwill⟩))
    · by_contra hdo
      exact hnot _ (Or.inr rfl) (mem_optionItems.mpr (Or.inr ⟨rfl, eq_true_of_ne_false hdo⟩))

theorem shown_of_tells (h : s.Tells) : s.shown = s.current := by
  have hoptions : (optionsBelow 256).flatMap s.optionItems = (optionsBelow NTELOPTS).flatMap s.optionItems := by
    have hsplit : optionsBelow 256 = optionsBelow NTELOPTS ++ (List.range' NTELOPTS (256 - NTELOPTS)).map Nat.toUInt8 := by
      unfold optionsBelow
      have h := List.range'_append_1 (s := 0) (m := NTELOPTS) (n := 256 - NTELOPTS)
      rw [Nat.zero_add] at h
      rw [← List.map_append, List.range_eq_range', List.range_eq_range', h]
      rfl
    rw [hsplit, List.flatMap_append]
    refine (congrArg _ (List.flatMap_eq_nil_iff.mpr ?_)).trans (List.append_nil _)
    intro i hi
    obtain ⟨k, hk, rfl⟩ := List.mem_map.mp hi
    rw [List.mem_range'_1] at hk
    have hk' : NTELOPTS ≤ k.toUInt8.toNat := by
      rw [show k.toUInt8.toNat = k % 256 from rfl, Nat.mod_eq_of_lt (by have : NTELOPTS = 40 := rfl; omega)]
      exact hk.1
    obtain ⟨h1, h2⟩ := h.known _ hk'
    simp [Status.optionItems, h1, h2]
  have hlinemode : s.linemodeItems s.slcData = s.linemodeItems (s.supported.flatMap Triplet.bytes) := by
    unfold Status.linemodeItems
    split
    · rename_i hon
      have hdata : s.slcData = s.supported.flatMap Triplet.bytes := by
        rw [s.slcData_eq]
        split
        · rename_i hdeferred
          rw [h.present hon hdeferred]
          rfl
        · rename_i hnow
          refine (doubled_eq_self_iff _).mpr fun hiac => ?_
          obtain ⟨t, ht, hiac⟩ := List.mem_flatMap.mp hiac
          exact h.single hon hnow t ht hiac
      rw [hdata]
    · rfl
  unfold Status.shown Status.current
  rw [hoptions, hlinemode]

/-- The reply says what telnetd has exactly where there is none, as it would be too long, or the
    special characters are there and have no IAC among them. -/
theorem status_decodable_iff (s : Status) : s.Decodable ↔ statusbufSize < s.room ∨ s.Tells := by
  have hsend := sendStatus_eq s
  simp only [length_reply] at hsend
  by_cases hroom : s.room ≤ statusbufSize
  · rw [if_pos hroom] at hsend
    constructor
    · intro h
      obtain ⟨body, items, hm, hread, hperm⟩ := h _ hsend
      have hbody : s.shown.flatMap Item.encode = body :=
        List.append_cancel_left (List.append_cancel_right hm)
      rw [← hbody, readStatus_encode] at hread
      rw [← Option.some.inj hread] at hperm
      exact Or.inr (tells_of_perm hperm)
    · intro h m hm
      have htells := h.resolve_left (Nat.not_lt.mpr hroom)
      rw [hsend] at hm
      refine ⟨s.shown.flatMap Item.encode, s.shown, (Option.some.inj hm).symm, readStatus_encode _, ?_⟩
      rw [shown_of_tells htells]
  · rw [if_neg hroom] at hsend
    refine iff_of_true ?_ (Or.inl (Nat.lt_of_not_le hroom))
    intro m hm
    rw [hsend] at hm
    cases hm

/-- LINEMODE is on, and the interrupt character is 255. -/
def interrupt255 : Status where
  options := fun i => if i = TELOPT_LINEMODE then MY_WANT_STATE_DO else 0
  flowmode := 1
  restartany := -1
  editmode := 1
  slc :=
    { slctab := fun i => if i = SLC_IP then ⟨⟨SLC_VARIABLE, 3⟩, ⟨SLC_VARIABLE, 0xff⟩, some 0⟩ else ⟨⟨0, 0⟩, ⟨0, 0⟩, none⟩
      chars := fun _ => 0xff
      slcchange := false
      slcbuf := []
      furthest := 0
      defSlcbuf := none
      sent := [] }
  terminit := true

/-- The 255 is there four times, and is read as two. -/
theorem interrupt255_not_decodable : ¬ interrupt255.Decodable := by
  intro h
  obtain ⟨body, items, hm, hread, hperm⟩ := h ([IAC, SB, TELOPT_STATUS, TELQUAL_IS] ++
    [DO, TELOPT_LINEMODE, SB, TELOPT_LINEMODE, LM_MODE, 1, SE,
      SB, TELOPT_LINEMODE, LM_SLC, 3, 2, 255, 255, 255, 255, SE] ++ [IAC, SE]) (by decide +kernel)
  rw [← List.append_cancel_left (List.append_cancel_right hm),
    show readStatus _ = some [.do_ TELOPT_LINEMODE, .mode 1, .slc [3, 2, 255, 255]] by decide +kernel] at hread
  rw [← Option.some.inj hread] at hperm
  have hslc : Item.slc [3, 2, 255] ∈ interrupt255.current := by decide +kernel
  exact absurd (hperm.mem_iff.mpr hslc) (by decide)

end Netutils.Telnetd.SendStatus
