/-
  Netutils.Telnetd.Slc — telnetd's negotiation of the special characters (telnetd/slc.c),
  and the room its reply has in slcbuf.

  add_slc writes where slcptr stands without looking for room. What a triplet does to the
  table (`retab`) and adds to the reply (`cost`: nothing, one triplet, or the whole table)
  is known from the table before it, so the reply stays in slcbuf exactly where these costs
  sum to no more than the room between its header and its IAC SE (`exchange_inside_iff`).
-/

import Netutils.Arpa
import Mathlib.Data.List.Basic

namespace Netutils.Telnetd

open Netutils.Arpa

/-! ## The table and the reply -/

structure Slcent where
  flag : UInt8
  val : UInt8

/-- slcfun; `sptr` is the index of a character in the terminal structures. -/
structure Slcfun where
  defset : Slcent
  current : Slcent
  sptr : Option Nat

/-- Size of slcbuf. -/
def slcbufSize : Nat := NSLC * 6

structure Slc where
  slctab : Nat → Slcfun
  /-- The control characters of the terminal structures. -/
  chars : Nat → UInt8
  slcchange : Bool
  /-- What lies between slcbuf and slcptr. -/
  slcbuf : List UInt8
  /-- The furthest that slcptr has been from slcbuf since start_slc. -/
  furthest : Nat
  defSlcbuf : Option (List UInt8)
  /-- The replies handed to net_output_datalen. -/
  sent : List (List UInt8)

def vdisable : UInt8 := 0

def level (flag : UInt8) : UInt8 := flag &&& SLC_LEVELBITS

namespace Slc

/-- `slctab[i].current = c` -/
def setCurrent (s : Slc) (i : Nat) (c : Slcent) : Slc :=
  { s with slctab := fun k => if k = i then { s.slctab k with current := c } else s.slctab k }

/-- `*(slctab[i].sptr) = val` -/
def setChar (s : Slc) (p : Nat) (val : UInt8) : Slc := { s with chars := fun k => if k = p then val else s.chars k }

/-- `*slcptr++ = c` -/
def put (s : Slc) (c : UInt8) : Slc :=
  { s with slcbuf := s.slcbuf ++ [c], furthest := max s.furthest (s.slcbuf.length + 1) }

def putEsc (s : Slc) (c : UInt8) : Slc := if c = 0xff then (s.put c).put 0xff else s.put c

def addSlc (s : Slc) (func flag val : UInt8) : Slc := ((s.putEsc func).putEsc flag).putEsc val

/-- 1 to NSLC -/
def functions : List Nat := List.range' 1 NSLC

def sendSlc (s : Slc) : Slc :=
  functions.foldl (fun t i =>
    if level (t.slctab i).defset.flag = SLC_NOSUPPORT then t
    else t.addSlc i.toUInt8 (t.slctab i).current.flag (t.slctab i).current.val) s

/-- The body of the loop of default_slc. -/
def defaultOne (s : Slc) (i : Nat) : Slc :=
  let f := s.slctab i
  let t := s.setCurrent i ⟨if f.defset.val = vdisable then SLC_NOSUPPORT else f.defset.flag, f.defset.val⟩
  match f.sptr with
  | some p => t.setChar p f.defset.val
  | none => t

def defaultSlc (s : Slc) : Slc := { functions.foldl defaultOne s with slcchange := true }

def changeSlc (s : Slc) (func flag val : UInt8) : Slc :=
  let f := s.slctab func.toNat
  let hislevel := level flag
  let mylevel := level f.defset.flag
  if hislevel = SLC_NOSUPPORT then
    (s.setCurrent func.toNat ⟨flag, vdisable⟩).addSlc func (flag ||| SLC_ACK) val
  else if hislevel = SLC_DEFAULT then
    let c : Slcent := ⟨if mylevel = SLC_DEFAULT then SLC_NOSUPPORT else f.defset.flag, f.defset.val⟩
    (s.setCurrent func.toNat c).addSlc func c.flag c.val
  else
    match f.sptr with
    | some p =>
      let t := (s.setCurrent func.toNat ⟨flag, val⟩).setChar p val
      { t with slcchange := true }.addSlc func (flag ||| SLC_ACK) val
    | none =>
      if mylevel = SLC_DEFAULT then
        (s.setCurrent func.toNat ⟨flag, val⟩).addSlc func (flag ||| SLC_ACK) val
      else if hislevel = SLC_CANTCHANGE ∧ mylevel = SLC_CANTCHANGE then
        let flag := flag &&& ~~~SLC_LEVELBITS ||| SLC_NOSUPPORT
        (s.setCurrent func.toNat ⟨flag, f.current.val⟩).addSlc func flag val
      else
        let flag := flag &&& ~~~SLC_LEVELBITS ||| mylevel
        let cur := if mylevel = SLC_CANTCHANGE then f.defset.val else f.current.val
        let val := if mylevel = SLC_CANTCHANGE then cur else val
        (s.setCurrent func.toNat ⟨flag, cur⟩).addSlc func flag val

def processSlc (s : Slc) (func flag val : UInt8) : Slc :=
  if func.toNat > NSLC then s.addSlc func SLC_NOSUPPORT 0
  else if func = 0 then
    if level flag = SLC_DEFAULT then s.defaultSlc.sendSlc
    else if level flag = SLC_VARIABLE then s.sendSlc
    else s
  else
    let f := s.slctab func.toNat
    let ack := flag &&& SLC_ACK
    if level flag = level f.current.flag ∧ (val = f.current.val ∨ ack ≠ 0) then s
    else if ack ≠ 0 then s
    else s.changeSlc func flag val

/-- start_slc (1); `chars` is what init_termbuf reads. -/
def startSlc (s : Slc) (chars : Nat → UInt8) : Slc :=
  { s with chars := chars, slcchange := false, slcbuf := [IAC, SB, TELOPT_LINEMODE, LM_SLC], furthest := 4 }

/-- end_slc (0) -/
def endSlc (s : Slc) (terminit : Bool) : Slc :=
  if s.defSlcbuf.isSome ∧ terminit = false then s
  else if s.slcbuf.length > 4 then
    let t := (s.put IAC).put SE
    { t with sent := t.sent ++ [t.slcbuf] }
  else s

/-- The loop of do_opt_slc; a triplet that is not whole is left. -/
def processAll : Slc → List UInt8 → Slc
  | s, func :: flag :: val :: l => processAll (s.processSlc func flag val) l
  | s, _ => s

/-- do_opt_slc; `malloc`: there is memory to save the request in. -/
def doOptSlc (s : Slc) (terminit malloc : Bool) (l : List UInt8) : Slc :=
  if terminit then s.processAll l
  else if s.defSlcbuf = none then (if malloc then { s with defSlcbuf := some l } else s)
  else s

/-- What suboption does on LINEMODE SLC, and deferslc with what was saved. -/
def exchange (s : Slc) (chars : Nat → UInt8) (terminit malloc : Bool) (l : List UInt8) : Slc :=
  ((s.startSlc chars).doOptSlc terminit malloc l).endSlc terminit

def deferslc (s : Slc) (chars : Nat → UInt8) (terminit malloc : Bool) : Slc :=
  match s.defSlcbuf with
  | some l => { s.exchange chars terminit malloc l with defSlcbuf := none }
  | none => s

/-! ## What a triplet does to the table, and what it costs

  The same negotiation without the reply: the table that a triplet leaves (`retab`), and
  the bytes it is answered with (`cost`), from the table before it. -/

/-- The bytes of a triplet in the reply. -/
def width (func flag val : UInt8) : Nat :=
  3 + (if func = 0xff then 1 else 0) + (if flag = 0xff then 1 else 0) + (if val = 0xff then 1 else 0)

/-- The bytes of the whole table. -/
def tableCost (tab : Nat → Slcfun) : List Nat → Nat
  | [] => 0
  | i :: l =>
    (if level (tab i).defset.flag = SLC_NOSUPPORT then 0 else width i.toUInt8 (tab i).current.flag (tab i).current.val) +
      tableCost tab l

def setEntry (tab : Nat → Slcfun) (i : Nat) (c : Slcent) : Nat → Slcfun :=
  fun k => if k = i then { tab k with current := c } else tab k

/-- A function with its default for its value. -/
def restored (f : Slcfun) : Slcfun :=
  { f with current := ⟨if f.defset.val = vdisable then SLC_NOSUPPORT else f.defset.flag, f.defset.val⟩ }

/-- What a change of `f` leaves, and what it is answered with. -/
def change (f : Slcfun) (flag val : UInt8) : Slcent × Slcent :=
  let unlevelled := flag &&& ~~~SLC_LEVELBITS
  let mylevel := level f.defset.flag
  if level flag = SLC_NOSUPPORT then (⟨flag, vdisable⟩, ⟨flag ||| SLC_ACK, val⟩)
  else if level flag = SLC_DEFAULT then
    let c : Slcent := ⟨if mylevel = SLC_DEFAULT then SLC_NOSUPPORT else f.defset.flag, f.defset.val⟩
    (c, c)
  else if f.sptr.isSome ∨ mylevel = SLC_DEFAULT then (⟨flag, val⟩, ⟨flag ||| SLC_ACK, val⟩)
  else if level flag = SLC_CANTCHANGE ∧ mylevel = SLC_CANTCHANGE then
    (⟨unlevelled ||| SLC_NOSUPPORT, f.current.val⟩, ⟨unlevelled ||| SLC_NOSUPPORT, val⟩)
  else if mylevel = SLC_CANTCHANGE then
    (⟨unlevelled ||| mylevel, f.defset.val⟩, ⟨unlevelled ||| mylevel, f.defset.val⟩)
  else (⟨unlevelled ||| mylevel, f.current.val⟩, ⟨unlevelled ||| mylevel, val⟩)

/-- An acknowledgement, or what the table has already. -/
def Ignored (f : Slcfun) (flag val : UInt8) : Prop :=
  flag &&& SLC_ACK ≠ 0 ∨ level flag = level f.current.flag ∧ val = f.current.val

instance (f : Slcfun) (flag val : UInt8) : Decidable (Ignored f flag val) := inferInstanceAs (Decidable (_ ∨ _))

/-- The table that a triplet leaves. -/
def retab (tab : Nat → Slcfun) (func flag val : UInt8) : Nat → Slcfun :=
  if func.toNat > NSLC then tab
  else if func = 0 then
    if level flag = SLC_DEFAULT then fun k => if k ∈ functions then restored (tab k) else tab k else tab
  else if Ignored (tab func.toNat) flag val then tab
  else setEntry tab func.toNat (change (tab func.toNat) flag val).1

/-- The bytes that a triplet adds to the reply. -/
def cost (tab : Nat → Slcfun) (func flag val : UInt8) : Nat :=
  if func.toNat > NSLC then width func SLC_NOSUPPORT 0
  else if func = 0 then
    if level flag = SLC_DEFAULT ∨ level flag = SLC_VARIABLE then tableCost (retab tab func flag val) functions else 0
  else if Ignored (tab func.toNat) flag val then 0
  else width func (change (tab func.toNat) flag val).2.flag (change (tab func.toNat) flag val).2.val

/-- The bytes that a request adds, triplet by triplet. -/
def spent : (Nat → Slcfun) → List UInt8 → Nat
  | tab, func :: flag :: val :: l => cost tab func flag val + spent (retab tab func flag val) l
  | _, _ => 0

/-! ## How the reply grows -/

/-- The reply is `n` bytes longer, slcptr has been no further than where it is now, and the
    table has become `tab`. -/
structure Grows (s t : Slc) (tab : Nat → Slcfun) (n : Nat) : Prop where
  length : t.slcbuf.length = s.slcbuf.length + n
  furthest : s.furthest = s.slcbuf.length → t.furthest = t.slcbuf.length
  saved : t.defSlcbuf = s.defSlcbuf
  slctab : t.slctab = tab

variable {s t u : Slc} {tab tab' : Nat → Slcfun} {n m : Nat}

theorem Grows.refl (s : Slc) : Grows s s s.slctab 0 := ⟨rfl, id, rfl, rfl⟩

theorem Grows.trans (h : Grows s t tab n) (h' : Grows t u tab' m) : Grows s u tab' (n + m) :=
  ⟨by rw [h'.length, h.length]; omega, fun hf => h'.furthest (h.furthest hf), h'.saved.trans h.saved, h'.slctab⟩

theorem grows_put (s : Slc) (c : UInt8) : Grows s (s.put c) s.slctab 1 := by
  refine ⟨by simp [put], ?_, rfl, rfl⟩
  intro hf
  simp only [put, hf, List.length_append, List.length_singleton]
  omega

theorem grows_putEsc (s : Slc) (c : UInt8) : Grows s (s.putEsc c) s.slctab (1 + if c = 0xff then 1 else 0) := by
  unfold putEsc
  by_cases h : c = 0xff
  · simp only [h, if_true]
    exact (grows_put s _).trans (grows_put _ _)
  · simp only [h, if_false]
    exact grows_put s c

@[simp] theorem slctab_putEsc (s : Slc) (c : UInt8) : (s.putEsc c).slctab = s.slctab := (grows_putEsc s c).slctab

theorem grows_addSlc (s : Slc) (func flag val : UInt8) :
    Grows s (s.addSlc func flag val) s.slctab (width func flag val) := by
  have h := ((grows_putEsc s func).trans (grows_putEsc _ flag)).trans (grows_putEsc _ val)
  have hn : width func flag val = 1 + (if func = 0xff then 1 else 0) + (1 + if flag = 0xff then 1 else 0) +
      (1 + if val = 0xff then 1 else 0) := by
    unfold width
    omega
  rw [hn, addSlc]
  simpa using h

/-- A step that puts nothing into the reply, and a triplet behind it. -/
theorem Grows.addSlc (h : Grows s t tab 0) (func flag val : UInt8) :
    Grows s (t.addSlc func flag val) tab (width func flag val) := by
  have := h.trans (grows_addSlc t func flag val)
  rwa [Nat.zero_add, h.slctab] at this

theorem grows_sendSlc (s : Slc) : Grows s s.sendSlc s.slctab (tableCost s.slctab functions) := by
  unfold sendSlc
  induction functions generalizing s with
  | nil => exact Grows.refl s
  | cons i l ih =>
    rw [List.foldl_cons, tableCost]
    by_cases h : level (s.slctab i).defset.flag = SLC_NOSUPPORT
    · rw [if_pos h, if_pos h, Nat.zero_add]
      exact ih s
    · rw [if_neg h, if_neg h]
      have hadd := grows_addSlc s i.toUInt8 (s.slctab i).current.flag (s.slctab i).current.val
      have := ih (s.addSlc i.toUInt8 (s.slctab i).current.flag (s.slctab i).current.val)
      rw [hadd.slctab] at this
      exact hadd.trans this

theorem grows_defaultOne (s : Slc) (i : Nat) :
    Grows s (s.defaultOne i) (fun k => if k = i then restored (s.slctab k) else s.slctab k) 0 := by
  have htab : (fun k => if k = i then restored (s.slctab k) else s.slctab k) =
      (s.setCurrent i (restored (s.slctab i)).current).slctab := by
    funext k
    by_cases hk : k = i
    · subst hk
      simp [setCurrent, restored]
    · simp [setCurrent, hk]
  rw [htab]
  unfold defaultOne
  simp only
  cases (s.slctab i).sptr with
  | some p => exact ⟨rfl, id, rfl, rfl⟩
  | none => exact ⟨rfl, id, rfl, rfl⟩

theorem grows_defaultSlc (s : Slc) :
    Grows s s.defaultSlc (fun k => if k ∈ functions then restored (s.slctab k) else s.slctab k) 0 := by
  have h : Grows s (functions.foldl defaultOne s)
      (fun k => if k ∈ functions then restored (s.slctab k) else s.slctab k) 0 := by
    induction functions generalizing s with
    | nil => simpa using Grows.refl s
    | cons i l ih =>
      have hone := grows_defaultOne s i
      have hrest := ih (s.defaultOne i)
      have htab : (fun k => if k ∈ l then restored ((s.defaultOne i).slctab k) else (s.defaultOne i).slctab k) =
          fun k => if k ∈ i :: l then restored (s.slctab k) else s.slctab k := by
        -- a function restored twice is as it was after the first time
        have hidem : ∀ f, restored (restored f) = restored f := fun f => rfl
        funext k
        rw [hone.slctab]
        by_cases hk : k = i <;> by_cases hl : k ∈ l <;> simp [hk, hl, hidem]
      rw [htab] at hrest
      exact hone.trans hrest
  exact ⟨h.length, h.furthest, h.saved, h.slctab⟩

/-- A change sets the entry of its function, and is answered by one triplet. -/
theorem grows_changeSlc (s : Slc) (func flag val : UInt8) :
    Grows s (s.changeSlc func flag val)
      (setEntry s.slctab func.toNat (change (s.slctab func.toNat) flag val).1)
      (width func (change (s.slctab func.toNat) flag val).2.flag (change (s.slctab func.toNat) flag val).2.val) := by
  have hset : ∀ c, Grows s (s.setCurrent func.toNat c) (setEntry s.slctab func.toNat c) 0 :=
    fun c => ⟨rfl, id, rfl, rfl⟩
  unfold changeSlc change
  simp only
  by_cases h1 : level flag = SLC_NOSUPPORT
  · simp only [h1, if_true]
    exact (hset _).addSlc _ _ _
  rw [if_neg h1, if_neg h1]
  by_cases h2 : level flag = SLC_DEFAULT
  · rw [if_pos h2, if_pos h2]
    exact (hset _).addSlc _ _ _
  rw [if_neg h2, if_neg h2]
  cases hp : (s.slctab func.toNat).sptr with
  | some p =>
    have hchar : ∀ c, Grows s { (s.setCurrent func.toNat c).setChar p val with slcchange := true }
        (setEntry s.slctab func.toNat c) 0 := fun c => ⟨rfl, id, rfl, rfl⟩
    simp only [Option.isSome_some, true_or, if_true]
    exact (hchar _).addSlc _ _ _
  | none =>
    simp only [Option.isSome_none, Bool.false_eq_true, false_or]
    by_cases h3 : level (s.slctab func.toNat).defset.flag = SLC_DEFAULT
    · simp only [h3, if_true]
      exact (hset _).addSlc _ _ _
    rw [if_neg h3, if_neg h3]
    by_cases h4 : level flag = SLC_CANTCHANGE ∧ level (s.slctab func.toNat).defset.flag = SLC_CANTCHANGE
    · rw [if_pos h4, if_pos h4]
      exact (hset _).addSlc _ _ _
    · rw [if_neg h4, if_neg h4]
      by_cases h5 : level (s.slctab func.toNat).defset.flag = SLC_CANTCHANGE
      · simp only [h5, if_true]
        exact (hset _).addSlc _ _ _
      · simp only [h5, if_false]
        exact (hset _).addSlc _ _ _

theorem grows_processSlc (s : Slc) (func flag val : UInt8) :
    Grows s (s.processSlc func flag val) (retab s.slctab func flag val) (cost s.slctab func flag val) := by
  unfold processSlc cost retab
  by_cases h1 : func.toNat > NSLC
  · simp only [if_pos h1]
    exact grows_addSlc s _ _ _
  simp only [if_neg h1]
  by_cases h2 : func = 0
  · simp only [if_pos h2]
    by_cases h3 : level flag = SLC_DEFAULT
    · have hsend := grows_sendSlc s.defaultSlc
      rw [(grows_defaultSlc s).slctab] at hsend
      have := (grows_defaultSlc s).trans hsend
      rw [Nat.zero_add] at this
      simp only [if_pos h3, if_pos (Or.inl h3 : level flag = SLC_DEFAULT ∨ level flag = SLC_VARIABLE)]
      exact this
    · by_cases h4 : level flag = SLC_VARIABLE
      · simp only [if_neg h3, if_pos h4, if_pos (Or.inr h4 : level flag = SLC_DEFAULT ∨ level flag = SLC_VARIABLE)]
        exact grows_sendSlc s
      · simp only [h3, h4, or_self, if_false]
        exact Grows.refl s
  simp only [if_neg h2]
  by_cases h5 : Ignored (s.slctab func.toNat) flag val
  · simp only [if_pos h5]
    rcases h5 with h5 | ⟨h5, h6⟩
    · simp only [if_pos h5, ite_self]
      exact Grows.refl s
    · simp only [if_pos (And.intro h5 (Or.inl h6))]
      exact Grows.refl s
  · obtain ⟨h6, h7⟩ := not_or.mp h5
    simp only [if_neg h5]
    rw [if_neg (fun h => h7 ⟨h.1, h.2.resolve_right h6⟩), if_neg h6]
    exact grows_changeSlc s func flag val

theorem grows_processAll (s : Slc) (l : List UInt8) : ∃ tab, Grows s (s.processAll l) tab (spent s.slctab l) := by
  induction s, l using processAll.induct with
  | case1 s func flag val l ih =>
    obtain ⟨tab, ih⟩ := ih
    have h := grows_processSlc s func flag val
    rw [h.slctab] at ih
    rw [processAll, spent]
    exact ⟨tab, h.trans ih⟩
  | case2 l s h =>
    rw [processAll, spent]
    · exact ⟨_, Grows.refl s⟩
    · exact h
    · exact h

/-! ## The whole reply -/

/-- slcptr goes as far as the header, the answers and, where there are any, IAC SE. -/
theorem furthest_exchange (s : Slc) (chars : Nat → UInt8) (terminit malloc : Bool) (l : List UInt8) :
    (s.exchange chars terminit malloc l).furthest =
      if terminit = true ∧ spent s.slctab l ≠ 0 then 6 + spent s.slctab l else 4 := by
  obtain ⟨_, h⟩ := grows_processAll (s.startSlc chars) l
  have hlen : ((s.startSlc chars).processAll l).slcbuf.length = 4 + spent s.slctab l := h.length
  have hfur := h.furthest rfl
  unfold exchange endSlc doOptSlc
  cases terminit with
  | true =>
    simp only [if_true, Bool.true_eq_false, and_false, if_false, true_and]
    by_cases hz : spent s.slctab l = 0
    · rw [if_neg (by omega), if_neg (by omega), hfur]
      omega
    · rw [if_pos (by omega), if_pos hz]
      show ((((s.startSlc chars).processAll l).put IAC).put SE).furthest = _
      have hput := (grows_put ((s.startSlc chars).processAll l) IAC).trans (grows_put _ SE)
      rw [hput.furthest hfur, hput.length]
      omega
  | false =>
    simp only [Bool.false_eq_true, if_false, and_true, false_and]
    have hf : (s.startSlc chars).furthest = 4 := rfl
    have h4 : (s.startSlc chars).slcbuf.length = 4 := rfl
    repeat' split
    all_goals first
      | exact hf
      | simp_all

/-- The reply to an SLC sub-option, at once or deferred, stays in slcbuf exactly where its
    answers leave room for the header and IAC SE. -/
theorem exchange_inside_iff (s : Slc) (chars : Nat → UInt8) (terminit malloc : Bool) (l : List UInt8) :
    ((s.exchange chars terminit malloc l).furthest ≤ slcbufSize ↔
      (terminit = true → spent s.slctab l ≤ slcbufSize - 6)) ∧
    (s.defSlcbuf = some l → ((s.deferslc chars terminit malloc).furthest ≤ slcbufSize ↔
      (terminit = true → spent s.slctab l ≤ slcbufSize - 6))) := by
  have h : (s.exchange chars terminit malloc l).furthest ≤ slcbufSize ↔
      (terminit = true → spent s.slctab l ≤ slcbufSize - 6) := by
    have hsize : slcbufSize = 108 := rfl
    rw [furthest_exchange, hsize]
    by_cases ht : terminit = true
    · by_cases hz : spent s.slctab l = 0
      · simp [hz]
      · simp only [ht, hz, ne_eq, not_false_eq_true, and_self, if_true, forall_const]
        omega
    · simp [ht]
  refine ⟨h, ?_⟩
  intro hd
  rw [deferslc, hd]
  exact h

/-- A table of functions that are not supported. -/
def bare : Slc := ⟨fun _ => ⟨⟨0, 0⟩, ⟨0, 0⟩, none⟩, fun _ => 0, false, [], 0, none, []⟩

/-- Thirty-five triplets for a function that telnetd does not know take slcptr out of
    slcbuf. -/
theorem unknown_functions_overrun :
    slcbufSize < (bare.exchange (fun _ => 0) true true (List.replicate 35 [30, 0, 0]).flatten).furthest := by
  decide +kernel

end Slc

end Netutils.Telnetd
