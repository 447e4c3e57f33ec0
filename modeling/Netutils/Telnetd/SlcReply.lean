/-
  Netutils.Telnetd.SlcReply — the first table of telnetd's special characters, and its
  replies as the triplets they are made of.
-/

import Netutils.Lib.Exchange
import Netutils.Telnetd.Slc
import Netutils.Wire.Triplet

namespace Netutils.Telnetd

open Netutils.Arpa
open Netutils.Lib.Exchange
open Netutils.Wire

/-! ## The first table -/

/-- Where the characters of the terminal are kept in the terminal structures; `none` where
    the platform does not have one. -/
structure Termdesc where
  eofc : Nat
  erase : Nat
  kill : Nat
  ip : Nat
  abort : Nat
  xon : Option Nat
  xoff : Option Nat
  ew : Option Nat
  rp : Option Nat
  lnext : Option Nat
  ao : Option Nat
  susp : Option Nat
  forw1 : Option Nat
  forw2 : Option Nat
  status : Option Nat

def setval (chars : Nat → UInt8) (p : Nat) (b : UInt8) : Slcent × Option Nat := (⟨b, chars p⟩, some p)

def defval (a : UInt8) : Slcent × Option Nat := (⟨SLC_DEFAULT, a⟩, none)

/-- `setval` where the platform has the character, else what is given. -/
def setvalOr (other : Slcent × Option Nat) (chars : Nat → UInt8) (p : Option Nat) (b : UInt8) : Slcent × Option Nat :=
  match p with
  | some p => setval chars p b
  | none => other

/-- What spcset returns, and what it sets `*valp` and `*valpp` to. -/
def spcset (d : Termdesc) (chars : Nat → UInt8) (func : Nat) : Slcent × Option Nat :=
  let unsupported : Slcent × Option Nat := (⟨SLC_NOSUPPORT, 0⟩, none)
  if func = SLC_EOF then setval chars d.eofc SLC_VARIABLE
  else if func = SLC_EC then setval chars d.erase SLC_VARIABLE
  else if func = SLC_EL then setval chars d.kill SLC_VARIABLE
  else if func = SLC_IP then setval chars d.ip (SLC_VARIABLE ||| SLC_FLUSHIN ||| SLC_FLUSHOUT)
  else if func = SLC_ABORT then setval chars d.abort (SLC_VARIABLE ||| SLC_FLUSHIN ||| SLC_FLUSHOUT)
  else if func = SLC_XON then setvalOr (defval 0x13) chars d.xon SLC_VARIABLE
  else if func = SLC_XOFF then setvalOr (defval 0x11) chars d.xoff SLC_VARIABLE
  else if func = SLC_EW then setvalOr (defval 0) chars d.ew SLC_VARIABLE
  else if func = SLC_RP then setvalOr (defval 0) chars d.rp SLC_VARIABLE
  else if func = SLC_LNEXT then setvalOr (defval 0) chars d.lnext SLC_VARIABLE
  else if func = SLC_AO then setvalOr (defval 0) chars d.ao (SLC_VARIABLE ||| SLC_FLUSHOUT)
  else if func = SLC_SUSP then setvalOr (defval 0) chars d.susp (SLC_VARIABLE ||| SLC_FLUSHIN)
  else if func = SLC_FORW1 then setvalOr unsupported chars d.forw1 SLC_VARIABLE
  else if func = SLC_FORW2 then setvalOr unsupported chars d.forw2 SLC_VARIABLE
  else if func = SLC_AYT then setvalOr (defval 0) chars d.status SLC_VARIABLE
  else if func = SLC_BRK ∨ func = SLC_SYNCH ∨ func = SLC_EOR then defval 0
  else unsupported

/-- What telnetd can do with a function: it keeps the character, it takes any value, or it
    knows nothing of it. -/
def Provided (c : Slcent × Option Nat) : Prop :=
  c.2.isSome ∧ level c.1.flag = SLC_VARIABLE ∧ c.1.flag &&& SLC_ACK = 0 ∨
    c.2 = none ∧ (c.1.flag = SLC_DEFAULT ∨ c.1.flag = SLC_NOSUPPORT)

theorem provided_setval (chars : Nat → UInt8) (p : Nat) {b : UInt8}
    (hb : level b = SLC_VARIABLE ∧ b &&& SLC_ACK = 0) : Provided (setval chars p b) :=
  Or.inl ⟨rfl, hb⟩

theorem provided_setvalOr {other : Slcent × Option Nat} (ho : Provided other) (chars : Nat → UInt8)
    (p : Option Nat) {b : UInt8} (hb : level b = SLC_VARIABLE ∧ b &&& SLC_ACK = 0) :
    Provided (setvalOr other chars p b) := by
  cases p with
  | some p => exact provided_setval chars p hb
  | none => exact ho

theorem provided_ite {p : Prop} [Decidable p] {a b : Slcent × Option Nat} (ha : Provided a) (hb : Provided b) :
    Provided (if p then a else b) := by
  split
  · exact ha
  · exact hb

theorem provided_spcset (d : Termdesc) (chars : Nat → UInt8) (func : Nat) :
    Provided (spcset d chars func) := by
  have hd : ∀ a, Provided (defval a) := fun a => Or.inr ⟨rfl, Or.inl rfl⟩
  have hu : Provided (⟨SLC_NOSUPPORT, 0⟩, none) := Or.inr ⟨rfl, Or.inr rfl⟩
  have h0 : level SLC_VARIABLE = SLC_VARIABLE ∧ SLC_VARIABLE &&& SLC_ACK = 0 := by decide
  have h1 : level (SLC_VARIABLE ||| SLC_FLUSHIN ||| SLC_FLUSHOUT) = SLC_VARIABLE ∧
      (SLC_VARIABLE ||| SLC_FLUSHIN ||| SLC_FLUSHOUT) &&& SLC_ACK = 0 := by decide
  have h2 : level (SLC_VARIABLE ||| SLC_FLUSHOUT) = SLC_VARIABLE ∧ (SLC_VARIABLE ||| SLC_FLUSHOUT) &&& SLC_ACK = 0 := by
    decide
  have h3 : level (SLC_VARIABLE ||| SLC_FLUSHIN) = SLC_VARIABLE ∧ (SLC_VARIABLE ||| SLC_FLUSHIN) &&& SLC_ACK = 0 := by
    decide
  unfold spcset
  repeat' apply provided_ite
  all_goals first
    | exact provided_setval _ _ h0
    | exact provided_setval _ _ h1
    | exact provided_setvalOr (hd _) _ _ h0
    | exact provided_setvalOr (hd _) _ _ h2
    | exact provided_setvalOr (hd _) _ _ h3
    | exact provided_setvalOr hu _ _ h0
    | exact hd _
    | exact hu

namespace Slc

/-- `chars` is what init_termbuf reads. -/
def getSlcDefaults (s : Slc) (d : Termdesc) (chars : Nat → UInt8) : Slc :=
  { s with
    chars := chars
    slctab := fun i =>
      if i ∈ functions then ⟨(spcset d chars i).1, ⟨SLC_NOSUPPORT, 0⟩, (spcset d chars i).2⟩ else s.slctab i }

/-- What check_slc does with function `i`; `eof`: term_change_eof () -/
def checked (eof : Bool) (chars : Nat → UInt8) (i : Nat) (f : Slcfun) :
    Slcfun × Option (UInt8 × UInt8) :=
  if i = SLC_EOF ∧ eof then (f, none)
  else
    match f.sptr with
    | some p =>
      if chars p ≠ f.current.val then
        let c : Slcent := ⟨if chars p = vdisable then SLC_NOSUPPORT else f.defset.flag, chars p⟩
        ({ f with current := c }, some (c.flag, c.val))
      else (f, none)
    | none => (f, none)

/-- The body of the loop of check_slc. -/
def checkOne (eof : Bool) (s : Slc) (i : Nat) : Slc :=
  let r := checked eof s.chars i (s.slctab i)
  match r.2 with
  | some a => (s.setCurrent i ⟨a.1, a.2⟩).addSlc i.toUInt8 a.1 a.2
  | none => s

def checkSlc (s : Slc) (eof : Bool) : Slc := functions.foldl (checkOne eof) s

/-! ## The answers -/

/-- The triplet of a function that the client is told about. -/
def told (tab : Nat → Slcfun) (i : Nat) : Option Triplet :=
  if level (tab i).defset.flag = SLC_NOSUPPORT then none
  else some (i.toUInt8, (tab i).current.flag, (tab i).current.val)

/-- The table that a triplet leaves, and its answers. -/
def respond (tab : Nat → Slcfun) (t : Triplet) : (Nat → Slcfun) × List Triplet :=
  (retab tab t.1 t.2.1 t.2.2,
    if t.1.toNat > NSLC then [(t.1, SLC_NOSUPPORT, 0)]
    else if t.1 = 0 then
      if level t.2.1 = SLC_DEFAULT ∨ level t.2.1 = SLC_VARIABLE then
        functions.filterMap (told (retab tab t.1 t.2.1 t.2.2))
      else []
    else if Ignored (tab t.1.toNat) t.2.1 t.2.2 then []
    else
      let a := (change (tab t.1.toNat) t.2.1 t.2.2).2
      [(t.1, a.flag, a.val)])

/-- What becomes of one function, and its answer. -/
def stepOne (f : Slcfun) (c : UInt8 × UInt8) : Slcfun × Option (UInt8 × UInt8) :=
  if Ignored f c.1 c.2 then (f, none)
  else
    let r := change f c.1 c.2
    ({ f with current := r.1 }, some (r.2.flag, r.2.val))

theorem isKeyed_respond : IsKeyed UInt8.toNat (fun _ => stepOne) (fun k => k.toNat ∈ functions) respond := by
  rintro tab ⟨func, flag, val⟩ hk
  simp only [functions, List.mem_range'_1] at hk
  have h1 : ¬ func.toNat > NSLC := by omega
  have h0 : func ≠ 0 := by
    rintro rfl
    exact absurd hk.1 (by decide)
  unfold respond keyed stepOne retab
  simp only [if_neg h1, if_neg h0]
  by_cases hi : Ignored (tab func.toNat) flag val
  · simp only [if_pos hi, Function.update_eq_self]
    rfl
  · simp only [if_neg hi]
    have hset : ∀ c, setEntry tab func.toNat c = Function.update tab func.toNat { tab func.toNat with current := c } := by
      intro c
      funext k
      by_cases hk : k = func.toNat
      · subst hk
        simp [setEntry]
      · simp [setEntry, hk, Function.update_of_ne]
    rw [hset]
    rfl

/-- The reply has become longer by `ts`, and nothing has been sent or put off. -/
structure Adds (s t : Slc) (ts : List Triplet) : Prop where
  slcbuf : t.slcbuf = s.slcbuf ++ sentBytes ts
  sent : t.sent = s.sent
  saved : t.defSlcbuf = s.defSlcbuf

variable {s t u : Slc} {ts us : List Triplet}

theorem Adds.refl (s : Slc) : Adds s s [] := ⟨(List.append_nil _).symm, rfl, rfl⟩

theorem Adds.trans (h : Adds s t ts) (h' : Adds t u us) : Adds s u (ts ++ us) :=
  ⟨by rw [h'.slcbuf, h.slcbuf, sentBytes_append, List.append_assoc], h'.sent.trans h.sent, h'.saved.trans h.saved⟩

theorem adds_putEsc (s : Slc) (c : UInt8) :
    (s.putEsc c).slcbuf = s.slcbuf ++ doubled [c] ∧ (s.putEsc c).sent = s.sent ∧
      (s.putEsc c).defSlcbuf = s.defSlcbuf := by
  unfold putEsc put doubled IAC
  by_cases h : c = 0xff <;> simp [h]

theorem adds_addSlc (s : Slc) (func flag val : UInt8) : Adds s (s.addSlc func flag val) [(func, flag, val)] := by
  obtain ⟨h1, h2, h3⟩ := adds_putEsc s func
  obtain ⟨h4, h5, h6⟩ := adds_putEsc (s.putEsc func) flag
  obtain ⟨h7, h8, h9⟩ := adds_putEsc ((s.putEsc func).putEsc flag) val
  refine ⟨?_, h8.trans (h5.trans h2), h9.trans (h6.trans h3)⟩
  show (((s.putEsc func).putEsc flag).putEsc val).slcbuf = _
  rw [h7, h4, h1]
  simp [sentBytes, Triplet.bytes, doubled]

theorem chars_addSlc (s : Slc) (func flag val : UInt8) : (s.addSlc func flag val).chars = s.chars := by
  have h : ∀ (t : Slc) c, (t.putEsc c).chars = t.chars := by
    intro t c
    unfold putEsc
    split <;> rfl
  unfold addSlc
  rw [h, h, h]

/-- A step that puts nothing into the reply, and a triplet behind it. -/
theorem Adds.addSlc (h : Adds s t []) (func flag val : UInt8) : Adds s (t.addSlc func flag val) [(func, flag, val)] :=
  h.trans (adds_addSlc t func flag val)

theorem adds_setCurrent (s : Slc) (i : Nat) (c : Slcent) : Adds s (s.setCurrent i c) [] :=
  ⟨(List.append_nil _).symm, rfl, rfl⟩

theorem adds_sendSlc (s : Slc) : Adds s s.sendSlc (functions.filterMap (told s.slctab)) := by
  unfold sendSlc
  induction functions generalizing s with
  | nil => exact Adds.refl s
  | cons i l ih =>
    rw [List.foldl_cons]
    by_cases h : level (s.slctab i).defset.flag = SLC_NOSUPPORT
    · rw [if_pos h, List.filterMap_cons_none (by rw [told, if_pos h])]
      exact ih s
    · rw [if_neg h, List.filterMap_cons_some (by rw [told, if_neg h])]
      have hadd := adds_addSlc s i.toUInt8 (s.slctab i).current.flag (s.slctab i).current.val
      have hrest := ih (s.addSlc i.toUInt8 (s.slctab i).current.flag (s.slctab i).current.val)
      rw [(grows_addSlc s _ _ _).slctab] at hrest
      exact hadd.trans hrest

theorem adds_defaultSlc (s : Slc) : Adds s s.defaultSlc [] := by
  have h : Adds s (functions.foldl defaultOne s) [] := by
    induction functions generalizing s with
    | nil => exact Adds.refl s
    | cons i l ih =>
      have hone : Adds s (s.defaultOne i) [] := by
        unfold defaultOne
        simp only
        split <;> exact ⟨(List.append_nil _).symm, rfl, rfl⟩
      exact hone.trans (ih _)
  exact ⟨h.slcbuf, h.sent, h.saved⟩

theorem adds_changeSlc (s : Slc) (func flag val : UInt8) :
    Adds s (s.changeSlc func flag val)
      [(func, (change (s.slctab func.toNat) flag val).2.flag, (change (s.slctab func.toNat) flag val).2.val)] := by
  unfold changeSlc change
  simp only
  by_cases h1 : level flag = SLC_NOSUPPORT
  · simp only [h1, if_true]
    exact (adds_setCurrent s _ _).addSlc _ _ _
  rw [if_neg h1, if_neg h1]
  by_cases h2 : level flag = SLC_DEFAULT
  · rw [if_pos h2, if_pos h2]
    exact (adds_setCurrent s _ _).addSlc _ _ _
  rw [if_neg h2, if_neg h2]
  cases hp : (s.slctab func.toNat).sptr with
  | some p =>
    have hchar : Adds s { (s.setCurrent func.toNat ⟨flag, val⟩).setChar p val with slcchange := true } [] :=
      ⟨(List.append_nil _).symm, rfl, rfl⟩
    simp only [Option.isSome_some, true_or, if_true]
    exact hchar.addSlc _ _ _
  | none =>
    simp only [Option.isSome_none, Bool.false_eq_true, false_or]
    by_cases h3 : level (s.slctab func.toNat).defset.flag = SLC_DEFAULT
    · simp only [h3, if_true]
      exact (adds_setCurrent s _ _).addSlc _ _ _
    rw [if_neg h3, if_neg h3]
    by_cases h4 : level flag = SLC_CANTCHANGE ∧ level (s.slctab func.toNat).defset.flag = SLC_CANTCHANGE
    · rw [if_pos h4, if_pos h4]
      exact (adds_setCurrent s _ _).addSlc _ _ _
    · rw [if_neg h4, if_neg h4]
      by_cases h5 : level (s.slctab func.toNat).defset.flag = SLC_CANTCHANGE
      · simp only [h5, if_true]
        exact (adds_setCurrent s _ _).addSlc _ _ _
      · simp only [h5, if_false]
        exact (adds_setCurrent s _ _).addSlc _ _ _

theorem adds_processSlc (s : Slc) (func flag val : UInt8) :
    Adds s (s.processSlc func flag val) (respond s.slctab (func, flag, val)).2 := by
  unfold processSlc respond
  by_cases h1 : func.toNat > NSLC
  · simp only [if_pos h1]
    exact adds_addSlc s _ _ _
  simp only [if_neg h1]
  by_cases h2 : func = 0
  · simp only [if_pos h2]
    by_cases h3 : level flag = SLC_DEFAULT
    · have hsend := adds_sendSlc s.defaultSlc
      have htab : retab s.slctab func flag val = s.defaultSlc.slctab := by
        have := (grows_defaultSlc s).slctab
        rw [this, retab, if_neg h1, if_pos h2, if_pos h3]
      rw [← htab] at hsend
      simp only [if_pos h3, if_pos (Or.inl h3 : level flag = SLC_DEFAULT ∨ level flag = SLC_VARIABLE)]
      exact (adds_defaultSlc s).trans hsend
    · have htab : retab s.slctab func flag val = s.slctab := by rw [retab, if_neg h1, if_pos h2, if_neg h3]
      by_cases h4 : level flag = SLC_VARIABLE
      · simp only [if_neg h3, if_pos h4, if_pos (Or.inr h4 : level flag = SLC_DEFAULT ∨ level flag = SLC_VARIABLE), htab]
        exact adds_sendSlc s
      · simp only [h3, h4, or_self, if_false]
        exact Adds.refl s
  simp only [if_neg h2]
  by_cases h5 : Ignored (s.slctab func.toNat) flag val
  · simp only [if_pos h5]
    rcases h5 with h5 | ⟨h5, h6⟩
    · simp only [if_pos h5, ite_self]
      exact Adds.refl s
    · simp only [if_pos (And.intro h5 (Or.inl h6))]
      exact Adds.refl s
  · obtain ⟨h6, h7⟩ := not_or.mp h5
    simp only [if_neg h5]
    rw [if_neg (fun h => h7 ⟨h.1, h.2.resolve_right h6⟩), if_neg h6]
    exact adds_changeSlc s func flag val

theorem adds_processAll (s : Slc) (l : List UInt8) :
    Adds s (s.processAll l) (converse respond s.slctab (triplets l)).2 ∧
      (s.processAll l).slctab = (converse respond s.slctab (triplets l)).1 := by
  induction s, l using processAll.induct with
  | case1 s func flag val l ih =>
    have h := adds_processSlc s func flag val
    rw [(grows_processSlc s func flag val).slctab] at ih
    rw [processAll, triplets]
    exact ⟨h.trans ih.1, ih.2⟩
  | case2 l s h =>
    rw [processAll, triplets]
    · exact ⟨Adds.refl s, rfl⟩
    · exact h
    · exact h

theorem setCurrent_slctab (s : Slc) (i : Nat) (c : Slcent) :
    (s.setCurrent i c).slctab = Function.update s.slctab i { s.slctab i with current := c } := by
  funext k
  by_cases hk : k = i
  · subst hk
    simp [setCurrent]
  · simp [setCurrent, hk, Function.update_of_ne]

theorem checked_current (eof : Bool) (chars : Nat → UInt8) (i : Nat) (f : Slcfun) :
    (checked eof chars i f).1 = ((checked eof chars i f).2.map fun a => { f with current := ⟨a.1, a.2⟩ }).getD f := by
  unfold checked
  simp only
  repeat' split
  all_goals rfl

/-- check_slc goes through the functions one by one. -/
theorem adds_checkSlc (s : Slc) (eof : Bool) {l : List Nat} (hl : ∀ i ∈ l, i < 256) :
    let r := sweep UInt8.toNat (fun k => checked eof s.chars k.toNat) s.slctab (l.map Nat.toUInt8)
    Adds s (l.foldl (checkOne eof) s) r.2 ∧ (l.foldl (checkOne eof) s).slctab = r.1 := by
  induction l generalizing s with
  | nil => exact ⟨Adds.refl s, rfl⟩
  | cons i l ih =>
    have hi : i.toUInt8.toNat = i := UInt8.toNat_ofNat_of_lt' (hl i List.mem_cons_self)
    obtain ⟨r, hr⟩ : ∃ r, r = checked eof s.chars i (s.slctab i) := ⟨_, rfl⟩
    have hone : Adds s (s.checkOne eof i) (r.2.map (i.toUInt8, ·)).toList ∧
        (s.checkOne eof i).slctab = Function.update s.slctab i r.1 ∧ (s.checkOne eof i).chars = s.chars := by
      have hcur := checked_current eof s.chars i (s.slctab i)
      rw [← hr] at hcur
      unfold checkOne
      simp only
      rw [← hr]
      rcases r with ⟨f, _ | a⟩
      · obtain rfl : f = s.slctab i := hcur
        exact ⟨Adds.refl s, (Function.update_eq_self i s.slctab).symm, rfl⟩
      · obtain rfl : f = { s.slctab i with current := ⟨a.1, a.2⟩ } := hcur
        have hadd := (adds_setCurrent s i ⟨a.1, a.2⟩).addSlc i.toUInt8 a.1 a.2
        exact ⟨hadd, (grows_addSlc _ _ _ _).slctab.trans (setCurrent_slctab s i _), chars_addSlc _ _ _ _⟩
    obtain ⟨h1, h2, h3⟩ := hone
    obtain ⟨h4, h5⟩ := ih (s.checkOne eof i) fun j hj => hl j (List.mem_cons_of_mem _ hj)
    rw [h2, h3] at h4 h5
    simp only [List.map_cons, sweep_cons, hi, ← hr]
    exact ⟨h1.trans h4, h5⟩

/-- What the client is told, function by function. -/
theorem told_eq (tab : Nat → Slcfun) {l : List Nat} (hl : ∀ i ∈ l, i < 256) :
    sweep UInt8.toNat (fun _ f => (f, if level f.defset.flag = SLC_NOSUPPORT then none
      else some (f.current.flag, f.current.val))) tab (l.map Nat.toUInt8) = (tab, l.filterMap (told tab)) := by
  induction l with
  | nil => rfl
  | cons i l ih =>
    have hi : i.toUInt8.toNat = i := UInt8.toNat_ofNat_of_lt' (hl i List.mem_cons_self)
    have hrest := ih fun j hj => hl j (List.mem_cons_of_mem _ hj)
    simp only [List.map_cons, sweep_cons, hi, Function.update_eq_self]
    rw [hrest]
    by_cases h : level (tab i).defset.flag = SLC_NOSUPPORT
    · rw [List.filterMap_cons_none (by rw [told, if_pos h]), if_pos h]
      rfl
    · rw [List.filterMap_cons_some (by rw [told, if_neg h]), if_neg h]
      rfl

/-- A reply that is not put off is sent as it is. -/
theorem sent_endSlc (h : Adds s t ts) (hs : s.slcbuf = [IAC, SB, TELOPT_LINEMODE, LM_SLC]) :
    (t.endSlc true).sent = s.sent ++ slcMessage ts ∧ (t.endSlc true).slctab = t.slctab ∧
      (t.endSlc true).defSlcbuf = s.defSlcbuf := by
  have hb := h.slcbuf
  rw [hs] at hb
  unfold endSlc slcMessage
  simp only [Bool.true_eq_false, and_false, if_false]
  by_cases hz : ts = []
  · rw [if_neg (by rw [hb, hz]; decide), if_pos hz, List.append_nil]
    exact ⟨h.sent, rfl, h.saved⟩
  · have hlen : t.slcbuf.length > 4 := by
      obtain ⟨x, l, rfl⟩ := List.exists_cons_of_ne_nil hz
      rw [hb, List.length_append, length_sentBytes, List.map_cons, List.sum_cons, Triplet.width]
      simp only [List.length_cons, List.length_nil]
      omega
    rw [if_pos hlen, if_neg hz]
    refine ⟨?_, rfl, h.saved⟩
    show t.sent ++ [t.slcbuf ++ [IAC] ++ [SE]] = _
    rw [h.sent, hb, slcFrame, List.append_assoc _ [IAC] [SE]]
    rfl

/-- A sub-option is answered at once with what its triplets are answered with. -/
theorem exchange_eq (s : Slc) (chars : Nat → UInt8) (malloc : Bool) (l : List UInt8) :
    (s.exchange chars true malloc l).sent = s.sent ++ slcMessage (converse respond s.slctab (triplets l)).2 ∧
      (s.exchange chars true malloc l).slctab = (converse respond s.slctab (triplets l)).1 ∧
      (s.exchange chars true malloc l).defSlcbuf = s.defSlcbuf := by
  obtain ⟨hadds, htab⟩ := adds_processAll (s.startSlc chars) l
  obtain ⟨h1, h2, h3⟩ := sent_endSlc hadds rfl
  exact ⟨h1, h2.trans htab, h3⟩

theorem lt_of_mem_functions : ∀ i ∈ functions, i < 256 := by decide

/-- Where no request is put off, a reply never is. -/
theorem endSlc_of_none (h : s.defSlcbuf = none) (terminit : Bool) : s.endSlc terminit = s.endSlc true := by
  unfold endSlc
  simp [h]

theorem checkSlc_eq (s : Slc) (chars : Nat → UInt8) (eof terminit : Bool) (h : s.defSlcbuf = none) :
    let r := sweep UInt8.toNat (fun k => checked eof chars k.toNat) s.slctab (functions.map Nat.toUInt8)
    (((s.startSlc chars).checkSlc eof).endSlc terminit).sent = s.sent ++ slcMessage r.2 ∧
      (((s.startSlc chars).checkSlc eof).endSlc terminit).slctab = r.1 ∧
      (((s.startSlc chars).checkSlc eof).endSlc terminit).defSlcbuf = none := by
  obtain ⟨hadds, htab⟩ := adds_checkSlc (s.startSlc chars) eof lt_of_mem_functions
  unfold checkSlc
  rw [endSlc_of_none (hadds.saved.trans h)]
  obtain ⟨h1, h2, h3⟩ := sent_endSlc hadds rfl
  exact ⟨h1, h2.trans htab, h3.trans h⟩

theorem sendSlc_eq (s : Slc) (chars : Nat → UInt8) (terminit : Bool) (h : s.defSlcbuf = none) :
    ((s.startSlc chars).sendSlc.endSlc terminit).sent = s.sent ++ slcMessage (functions.filterMap (told s.slctab)) ∧
      ((s.startSlc chars).sendSlc.endSlc terminit).slctab = s.slctab ∧
      ((s.startSlc chars).sendSlc.endSlc terminit).defSlcbuf = none := by
  have hadds := adds_sendSlc (s.startSlc chars)
  rw [endSlc_of_none (hadds.saved.trans h)]
  obtain ⟨h1, h2, h3⟩ := sent_endSlc hadds rfl
  exact ⟨h1, h2.trans (grows_sendSlc _).slctab, h3.trans h⟩

/-- Before the terminal is set up it is put off, or dropped behind one that has been. -/
theorem exchange_early (s : Slc) (chars : Nat → UInt8) (l : List UInt8) :
    (s.exchange chars false true l).sent = s.sent ∧ (s.exchange chars false true l).slctab = s.slctab ∧
      (s.exchange chars false true l).defSlcbuf = some (s.defSlcbuf.getD l) := by
  unfold exchange doOptSlc endSlc startSlc
  rcases s.defSlcbuf with _ | m <;> simp

end Slc

end Netutils.Telnetd
