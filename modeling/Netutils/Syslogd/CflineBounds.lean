/-
  Netutils.Syslogd.CflineBounds — what cfline of syslogd (syslogd/syslogd.c) touches: the line,
  buf, the masks, the amounts of its shifts, and the names of a user action.

  strchr finds the NUL in ",;" too, words are copied without a look at buf, and what decode
  returns is shifted before it is looked at. The list of users has as many places as it has
  commas and one, but names are put only into as many as there are items that are not blank.
  A line is harmless exactly where none of this matters (`harmless_iff`).
-/

import Mathlib.Data.List.DropRight
import Mathlib.Data.List.TakeWhile
import Netutils.Syslogd.Cfline

namespace Netutils.Syslogd.Bounds

open Netutils.Arpa Netutils.Libc

/-! ## What goes wrong -/

inductive Fault where
  /-- The line is read behind its NUL. -/
  | line
  | buf
  | f_pmask
  | shift
  deriving DecidableEq

/-- Why cfline does not come to the action. -/
inductive Halt where
  | fault (f : Fault)
  /-- "unknown priority name" -/
  | unknownPriority (name : Str)
  /-- "unknown facility name" -/
  | unknownFacility (name : Str)
  deriving DecidableEq

/-- The bits of an int. -/
def INT_BITS : Nat := 32

/-- The int with these bits is negative. -/
def isNegative (i : Nat) : Bool := 2 ^ (INT_BITS - 1) ≤ i

/-- `atoi`: strtol stops at LONG_MAX, and the int is its low bits. -/
def atoiBits (s : Str) : Nat := min (atoi s) (2 ^ 63 - 1) % 2 ^ INT_BITS

/-- decode, as the bits of an int. -/
def decode (name : Str) (codetab : List CODE) : Nat :=
  if name.head?.any isdigit then atoiBits name else (lookup codetab name).getD (2 ^ INT_BITS - 1)

/-! ## The priority -/

def levelChange (excl : Bool) (bp : Str) : Except Halt Change :=
  if bp.head? = some star then .ok ⟨0, LOG_UPTO LOG_PRIMASK⟩
  else
    let pri := decode bp prioritynames
    if isNegative pri then .error (.unknownPriority bp)
    else if pri = INTERNAL_NOPRI then .ok ⟨255, 0⟩
    -- `1 << pri`, or `1 << (pri + 1)`
    else if pri + (if excl then 0 else 1) < INT_BITS then .ok ⟨0, if excl then LOG_MASK pri else LOG_UPTO pri⟩
    else .error (.fault .shift)

def priorityChange (field : Str) : Except Halt Change :=
  let mods := field.takeWhile isModifier
  (levelChange (mods.contains equals) (field.dropWhile isModifier)).map fun c =>
    if mods.contains bang then c.exchange else c

/-! ## The facilities -/

def facilityChange (c : Change) (buf : Str) (m : Masks) : Except Halt Masks :=
  if MAXLINE ≤ buf.length then .error (.fault .buf)
  else if buf.head? = some star then
    .ok { m with pmask := fun i => if buf[1]? = some star ∧ i.val ∈ m.seen then m.pmask i else c.on (m.pmask i) }
  else
    let i := decode buf facilitynames
    -- `facilities_seen |= (1 << LOG_FAC (i))`
    if INT_BITS ≤ LOG_FAC i then .error (.fault .shift)
    else if isNegative i then .error (.unknownFacility buf)
    else if h : LOG_FAC i < LOG_NFACILITIES + 1 then
      .ok { pmask := Function.update m.pmask ⟨LOG_FAC i, h⟩ (c.on (m.pmask ⟨LOG_FAC i, h⟩)), seen := LOG_FAC i :: m.seen }
    else .error (.fault .f_pmask)

/-- The words of a facility list, as "Scan facilities" comes to them. -/
def facilityWords : Nat → Str → List Str
  | 0, _ => []
  | k + 1, p =>
    if p.head?.all endsFacilities then []
    else p.takeWhile (fun c => !endsFacility c) ::
      facilityWords k ((p.dropWhile fun c => !endsFacility c).dropWhile fun c => c == comma || c == space)

/-- The masks, word by word. -/
def facilities (c : Change) : List Str → Masks → Except Halt Masks
  | [], m => .ok m
  | buf :: words, m => (facilityChange c buf m).bind (facilities c words)

/-! ## The selectors -/

/-- The words of a selector, and the line behind it. -/
structure Words where
  facilities : List Str
  priority : Str
  rest : Str

/-- The words of the selector at `p`. -/
def wordsAt (p : Str) : Words where
  facilities := facilityWords p.length p
  priority := (afterDot p).takeWhile fun c => !endsPriority c
  rest := ((afterDot p).dropWhile fun c => !endsPriority c).dropWhile isCruft

/-- One selector: the masks behind it. -/
def selector (w : Words) (m : Masks) : Except Halt Masks :=
  if MAXLINE ≤ w.priority.length then .error (.fault .buf)
  -- strchr finds the NUL in ",;", and goes on behind it
  else if w.rest = [] then .error (.fault .line)
  else (priorityChange w.priority).bind fun c => facilities c w.facilities m

/-- All selectors: the masks, and the line from the white space before the action on. -/
def selectors : Nat → Str → Masks → Except Halt (Masks × Str)
  | 0, p, m => .ok (m, p)
  | k + 1, p, m =>
    if p.head?.all isBlank then .ok (m, p)
    else (selector (wordsAt p) m).bind (selectors k (wordsAt p).rest)

/-! ## The action -/

def hyphen : UInt8 := 0x2d
def at_ : UInt8 := 0x40
def bar : UInt8 := 0x7c
def slash : UInt8 := 0x2f

inductive Action where
  /-- A file, a terminal, a pipe, another host, or everybody. -/
  | other
  /-- `f_nusers`, and the names that have been put into f_unames, from the first place on. -/
  | users (nusers : Nat) (unames : List Str)

/-- The loop that fills f_unames. -/
def unames : Nat → Str → List Str
  | 0, _ => []
  | k + 1, p =>
    if p = [] then []
    else p.takeWhile (· ≠ comma) :: unames k ((p.dropWhile (· ≠ comma)).dropWhile fun c => c == comma || c == space)

def users (p : Str) : Action := .users (p.count comma + 1) (unames p.length p)

/-- What the action starts with. -/
def actionAt (p : Str) : Str :=
  let p := p.dropWhile isBlank
  if p.head? = some hyphen then p.tail else p

def action (p : Str) : Action :=
  if p.head?.any fun c => c == at_ || c == bar || c == slash || c == star then .other else users p

/-- cfline up to `switch (*p)`: the masks, and the action; each turn takes some of the line. -/
def cfline (seen : List Nat) (line : Str) : Except Halt (Masks × Str) :=
  (selectors line.length line { seen }).map fun r => (r.1, actionAt r.2)

/-! ## What it is to keep to -/

/-- Without the blanks in front. -/
def unblank (t : Str) : Str := t.dropWhile (· == space)

/-- A name of a user in the list. -/
def Names (list name : Str) : Prop := unblank name ≠ [] ∧ unblank name ∈ (list.splitOn comma).map unblank

/-- Each place of f_unames has a name of the list. -/
def Action.Proper (list : Str) : Action → Prop
  | .other => True
  | .users nusers unames => ∀ i < nusers, ∃ name, unames[i]? = some name ∧ Names list name

/-- There is no fault, and a result is as it should be. -/
def Safely {α : Type} (P : α → Prop) : Except Halt α → Prop
  | .error (.fault _) => False
  | .error _ => True
  | .ok a => P a

/-- cfline keeps to its line, its tables and its word, and the users are those of the list. -/
def Keeps (seen : List Nat) (line : Str) : Prop := Safely (fun r => (action r.2).Proper r.2) (cfline seen line)

/-! ## Harmless lines -/

/-- The masks are changed for this word. -/
def FacilityKnown (w : Str) : Prop :=
  w.head? = some star ∨ isNegative (decode w facilitynames) = false ∧ LOG_FAC (decode w facilitynames) ≤ LOG_NFACILITIES

/-- A number too large for an int, with bits that are a small shift: cfline stops there. -/
def FacilityNegative (w : Str) : Prop :=
  w.head? ≠ some star ∧ isNegative (decode w facilitynames) = true ∧ LOG_FAC (decode w facilitynames) < INT_BITS

def HarmlessFacilities (next : Prop) : List Str → Prop
  | [] => next
  | w :: words => w.length < MAXLINE ∧ (FacilityNegative w ∨ FacilityKnown w ∧ HarmlessFacilities next words)

/-- The level of a priority, as it stands behind the modifiers. -/
def level (field : Str) : Str := field.dropWhile isModifier

/-- A level that is an amount for a shift, or none. -/
def PriorityKnown (field : Str) : Prop :=
  (level field).head? = some star ∨ decode (level field) prioritynames = INTERNAL_NOPRI ∨
    decode (level field) prioritynames + (if (field.takeWhile isModifier).contains equals then 0 else 1) < INT_BITS

def PriorityUnknown (field : Str) : Prop :=
  (level field).head? ≠ some star ∧ isNegative (decode (level field) prioritynames) = true

def HarmlessSelector (next : Prop) (w : Words) : Prop :=
  w.priority.length < MAXLINE ∧ w.rest ≠ [] ∧
    (PriorityUnknown w.priority ∨ PriorityKnown w.priority ∧ HarmlessFacilities next w.facilities)

/-- An action that is no list of users, or a list without a blank item. -/
def HarmlessAction (p : Str) : Prop :=
  (p.head?.any fun c => c == at_ || c == bar || c == slash || c == star) = true ∨
    ∀ item ∈ p.splitOn comma, unblank item ≠ []

/-- The line is harmless, selector by selector as far as cfline comes. -/
def Harmless : Nat → Str → Prop
  | 0, p => HarmlessAction (actionAt p)
  | k + 1, p => if p.head?.all isBlank then HarmlessAction (actionAt p) else HarmlessSelector (Harmless k (wordsAt p).rest) (wordsAt p)

/-! ## Faults -/

section Safely

variable {α β : Type} {P Q : α → Prop} {R : β → Prop} {next : Prop} {x : Except Halt α}

theorem safely_bind (f : α → Except Halt β) : Safely R (x.bind f) ↔ Safely (fun a => Safely R (f a)) x := by
  cases x with
  | ok a => exact Iff.rfl
  | error e => cases e <;> exact Iff.rfl

theorem safely_map (f : α → β) : Safely R (x.map f) ↔ Safely (fun a => R (f a)) x := by
  cases x with
  | ok a => exact Iff.rfl
  | error e => cases e <;> exact Iff.rfl

theorem safely_congr (h : ∀ a, P a ↔ Q a) : Safely P x ↔ Safely Q x := by
  cases x with
  | ok a => exact h a
  | error e => cases e <;> exact Iff.rfl

end Safely

variable {next : Prop} {c : Change} {m : Masks} {w field p : Str}

theorem facilityChange_safely :
    Safely (fun _ => next) (facilityChange c w m) ↔ w.length < MAXLINE ∧ (FacilityNegative w ∨ FacilityKnown w ∧ next) := by
  unfold facilityChange FacilityNegative FacilityKnown
  by_cases hlen : MAXLINE ≤ w.length
  · rw [if_pos hlen]
    exact iff_of_false id fun h => Nat.not_le.mpr h.1 hlen
  · rw [if_neg hlen]
    have hshort : w.length < MAXLINE := Nat.not_le.mp hlen
    by_cases hstar : w.head? = some star
    · rw [if_pos hstar]
      exact ⟨fun h => ⟨hshort, Or.inr ⟨Or.inl hstar, h⟩⟩, fun h => (h.2.resolve_left fun hn => hn.1 hstar).2⟩
    · rw [if_neg hstar]
      generalize decode w facilitynames = i
      simp only [hshort, hstar, true_and, false_or, ne_eq, not_false_eq_true]
      by_cases hshift : INT_BITS ≤ LOG_FAC i
      · have hfac : ¬ LOG_FAC i ≤ LOG_NFACILITIES := by
          rw [INT_BITS] at hshift
          rw [LOG_NFACILITIES]
          omega
        rw [if_pos hshift]
        refine iff_of_false id fun h => ?_
        rcases h with h | h
        · exact Nat.not_le.mpr h.2 hshift
        · exact hfac h.1.2
      · rw [if_neg hshift]
        have hin : LOG_FAC i < INT_BITS := Nat.not_le.mp hshift
        cases hneg : isNegative i with
        | true => exact iff_of_true trivial (Or.inl ⟨rfl, hin⟩)
        | false =>
          by_cases hfac : LOG_FAC i < LOG_NFACILITIES + 1
          · simp only [Bool.false_eq_true, if_false, dif_pos hfac, Nat.lt_succ_iff.mp hfac, false_and, false_or, true_and]
            exact Iff.rfl
          · simp only [Bool.false_eq_true, if_false, dif_neg hfac]
            refine iff_of_false id fun h => ?_
            rcases h with h | h
            · exact h.1
            · exact hfac (Nat.lt_succ_iff.mpr h.1.2)

theorem levelChange_safely (excl : Bool) (bp : Str) :
    Safely (fun _ => next) (levelChange excl bp) ↔
      bp.head? ≠ some star ∧ isNegative (decode bp prioritynames) = true ∨
        (bp.head? = some star ∨ decode bp prioritynames = INTERNAL_NOPRI ∨
          decode bp prioritynames + (if excl then 0 else 1) < INT_BITS) ∧ next := by
  unfold levelChange
  by_cases hstar : bp.head? = some star
  · rw [if_pos hstar]
    exact ⟨fun h => Or.inr ⟨Or.inl hstar, h⟩, fun h => (h.resolve_left fun hn => hn.1 hstar).2⟩
  · rw [if_neg hstar]
    generalize decode bp prioritynames = pri
    simp only [hstar, false_or, ne_eq, not_false_eq_true, true_and]
    cases hneg : isNegative pri with
    | true => exact iff_of_true trivial (Or.inl rfl)
    | false =>
      simp only [Bool.false_eq_true, if_false, false_or]
      by_cases hnopri : pri = INTERNAL_NOPRI
      · rw [if_pos hnopri]
        exact ⟨fun h => ⟨Or.inl hnopri, h⟩, fun h => h.2⟩
      · rw [if_neg hnopri]
        simp only [hnopri, false_or]
        by_cases hshift : pri + (if excl then 0 else 1) < INT_BITS
        · rw [if_pos hshift]
          exact ⟨fun h => ⟨hshift, h⟩, fun h => h.2⟩
        · rw [if_neg hshift]
          exact iff_of_false id fun h => hshift h.1

theorem priorityChange_safely : Safely (fun _ => next) (priorityChange field) ↔
    PriorityUnknown field ∨ PriorityKnown field ∧ next := by
  rw [priorityChange, safely_map]
  exact levelChange_safely _ _

theorem facilities_safely (words : List Str) (m : Masks) :
    Safely (fun _ => next) (facilities c words m) ↔ HarmlessFacilities next words := by
  induction words generalizing m with
  | nil => exact Iff.rfl
  | cons w words ih =>
    rw [facilities, safely_bind, safely_congr (Q := fun _ => HarmlessFacilities next words) fun m => ih m]
    exact facilityChange_safely

theorem selector_safely (w : Words) (m : Masks) : Safely (fun _ => next) (selector w m) ↔ HarmlessSelector next w := by
  rw [selector, HarmlessSelector]
  by_cases hlen : MAXLINE ≤ w.priority.length
  · rw [if_pos hlen]
    exact iff_of_false id fun h => Nat.not_le.mpr h.1 hlen
  · rw [if_neg hlen]
    by_cases hrest : w.rest = []
    · rw [if_pos hrest]
      exact iff_of_false id fun h => h.2.1 hrest
    · rw [if_neg hrest, safely_bind, safely_congr (Q := fun _ => HarmlessFacilities next w.facilities)
        fun c => facilities_safely w.facilities m, priorityChange_safely]
      exact ⟨fun h => ⟨Nat.not_le.mp hlen, hrest, h⟩, fun h => h.2.2⟩

/-! ## Each turn takes something -/

theorem length_afterDot_lt (hp : p.head?.all isBlank = false) : (afterDot p).length < p.length := by
  have hle : ∀ t : Str, (afterDot t).length ≤ t.length := by
    intro t
    induction t with
    | nil => exact Nat.le_refl 0
    | cons c t ih =>
      rw [afterDot]
      split
      · exact Nat.le_refl _
      · split
        · exact Nat.le_succ _
        · exact Nat.le_succ_of_le ih
  cases p with
  | nil => cases hp
  | cons c p =>
    have htab : c ≠ tab := by
      intro htab
      rw [htab] at hp
      cases hp
    rw [afterDot, if_neg htab]
    split
    · exact Nat.lt_succ_self _
    · exact Nat.lt_succ_of_le (hle p)

/-- More turns than the line has characters change nothing. -/
theorem selectors_enough (k : Nat) (p : Str) (m : Masks) (hk : p.length ≤ k) : selectors (k + 1) p m = selectors k p m := by
  induction k generalizing p m with
  | zero =>
    rw [List.length_eq_zero_iff.mp (Nat.le_zero.mp hk)]
    rfl
  | succ k ih =>
    rw [selectors, selectors]
    cases hblank : p.head?.all isBlank with
    | true => rfl
    | false =>
      have hdot := length_afterDot_lt hblank
      have hrest : (wordsAt p).rest.length ≤ (afterDot p).length :=
        ((List.dropWhile_sublist _).trans (List.dropWhile_sublist _)).length_le
      rw [funext fun m => ih (wordsAt p).rest m (by omega)]

theorem facilityWords_enough (k : Nat) (p : Str) (hk : p.length ≤ k) : facilityWords (k + 1) p = facilityWords k p := by
  induction k generalizing p with
  | zero =>
    rw [List.length_eq_zero_iff.mp (Nat.le_zero.mp hk)]
    rfl
  | succ k ih =>
    conv_lhs => rw [facilityWords]
    conv_rhs => rw [facilityWords]
    cases hends : p.head?.all endsFacilities with
    | true => rfl
    | false =>
      have hlt : ((p.dropWhile fun c => !endsFacility c).dropWhile fun c => c == comma || c == space).length < p.length := by
        cases p with
        | nil => cases hends
        | cons c p =>
          have hc : endsFacilities c = false := hends
          by_cases hcomma : c = comma
          · subst hcomma
            rw [List.dropWhile_cons_of_neg (by decide), List.dropWhile_cons_of_pos (by decide)]
            exact Nat.lt_succ_of_le (List.dropWhile_sublist _).length_le
          · rw [List.dropWhile_cons_of_pos (by simp [endsFacility, hc, hcomma])]
            exact Nat.lt_succ_of_le ((List.dropWhile_sublist _).trans (List.dropWhile_sublist _)).length_le
      rw [ih _ (by omega)]

/-! ## The users -/

/-- The items that are not blank, without the blanks in front. -/
def entries (t : Str) : List Str := ((t.splitOn comma).map unblank).filter (· ≠ [])

theorem splitOn_comma (t : Str) : (comma :: t).splitOn comma = [] :: t.splitOn comma :=
  List.splitOn_append_cons_self_of_not_mem List.not_mem_nil t

/-- The items, from the first one on. -/
theorem splitOn_first (t : Str) : ∃ later, t.splitOn comma = t.takeWhile (· ≠ comma) :: later ∧
    (t.dropWhile (· ≠ comma) = [] ∧ later = [] ∨
      ∃ u, t.dropWhile (· ≠ comma) = comma :: u ∧ later = u.splitOn comma) := by
  by_cases ht : comma ∈ t
  · obtain ⟨l, u, rfl, hl⟩ := List.eq_append_cons_of_mem ht
    have hpos : ∀ c ∈ l, decide (c ≠ comma) = true := fun c hc => decide_eq_true fun h => hl (h ▸ hc)
    refine ⟨u.splitOn comma, ?_, Or.inr ⟨u, ?_, rfl⟩⟩
    · rw [List.splitOn_append_cons_self_of_not_mem hl, List.takeWhile_append_of_pos hpos, List.takeWhile_cons_of_neg (by decide),
        List.append_nil]
    · rw [List.dropWhile_append_of_pos hpos, List.dropWhile_cons_of_neg (by decide)]
  · have hpos : ∀ c ∈ t, decide (c ≠ comma) = true := fun c hc => decide_eq_true fun h => ht (h ▸ hc)
    refine ⟨[], ?_, Or.inl ⟨?_, rfl⟩⟩
    · rw [List.splitOn_eq_singleton ht, List.takeWhile_eq_self_iff.mpr hpos]
    · rw [List.dropWhile_eq_nil_iff]
      exact hpos

/-- Commas and blanks in front are passed over. -/
theorem entries_dropWhile (t : Str) : entries (t.dropWhile fun c => c == comma || c == space) = entries t := by
  induction t with
  | nil => rfl
  | cons c t ih =>
    by_cases hcomma : c = comma
    · subst hcomma
      rw [List.dropWhile_cons_of_pos (by decide), ih, entries, entries, splitOn_comma]
      rfl
    · by_cases hspace : c = space
      · subst hspace
        rw [List.dropWhile_cons_of_pos (by decide), ih]
        obtain ⟨item, later, hsplit⟩ := List.exists_cons_of_ne_nil (List.splitOn_ne_nil comma t)
        rw [entries, entries, List.splitOn_cons_eq_if_modifyHead, if_neg (by decide), hsplit]
        rfl
      · rw [List.dropWhile_cons_of_neg (by simp [hcomma, hspace])]

theorem unblank_ne_nil {c : UInt8} (hc : c ≠ space) (t : Str) : unblank (c :: t) = c :: t :=
  List.dropWhile_cons_of_neg (by simpa using hc)

theorem unblank_unblank (t : Str) : unblank (unblank t) = unblank t := List.dropWhile_idempotent ..

/-- The names behind the first one. -/
theorem unames_cons (k : Nat) (c : UInt8) (t : Str) (ih : ∀ u : Str, u.length < (c :: t).length →
      unames k (u.dropWhile fun c => c == comma || c == space) = entries u) {later : List Str}
    (hlater : (c :: t).dropWhile (· ≠ comma) = [] ∧ later = [] ∨
      ∃ u, (c :: t).dropWhile (· ≠ comma) = comma :: u ∧ later = u.splitOn comma) :
    unames (k + 1) (c :: t) = (c :: t).takeWhile (· ≠ comma) :: (later.map unblank).filter (· ≠ []) := by
  rw [unames, if_neg (List.cons_ne_nil _ _)]
  congr 1
  rcases hlater with ⟨hdrop, rfl⟩ | ⟨u, hdrop, rfl⟩
  · rw [hdrop]
    cases k <;> rfl
  · have hlen := (List.dropWhile_sublist (l := c :: t) (· ≠ comma)).length_le
    rw [hdrop, List.length_cons] at hlen
    rw [hdrop, List.dropWhile_cons_of_pos (by decide)]
    exact ih u (by omega)

theorem unames_entries (k : Nat) (t : Str) (hk : t.length ≤ k) :
    unames k (t.dropWhile fun c => c == comma || c == space) = entries t := by
  induction k generalizing t with
  | zero =>
    rw [List.length_eq_zero_iff.mp (Nat.le_zero.mp hk)]
    rfl
  | succ k ih =>
    rw [← entries_dropWhile]
    have hle := (List.dropWhile_sublist (l := t) fun c => c == comma || c == space).length_le
    have hhead := List.head?_dropWhile_not (fun c => c == comma || c == space) t
    generalize (t.dropWhile fun c => c == comma || c == space) = t at hle hhead
    cases t with
    | nil => rfl
    | cons c t =>
      simp only [List.head?_cons, Bool.or_eq_false_iff, beq_eq_false_iff_ne] at hhead
      obtain ⟨later, hsplit, hlater⟩ := splitOn_first (c :: t)
      rw [unames_cons k c t (fun u hu => ih u (by omega)) hlater, entries, hsplit, List.map_cons,
        List.takeWhile_cons_of_pos (by simpa using hhead.1), unblank_ne_nil hhead.2]
      rfl

theorem count_comma (t : Str) : t.count comma + 1 = (t.splitOn comma).length := by
  induction t with
  | nil => rfl
  | cons c t ih =>
    rw [List.splitOn_cons_eq_if_modifyHead, List.count_cons]
    by_cases hc : c = comma
    · simp [hc, ih]
    · simp [hc, ih]

/-- The places of f_unames have names of the list exactly where no item of it is blank. -/
theorem users_proper (p : Str) : (users p).Proper p ↔ ∀ item ∈ p.splitOn comma, unblank item ≠ [] := by
  cases p with
  | nil =>
    refine iff_of_false (fun h => ?_) fun h => h [] List.mem_cons_self rfl
    obtain ⟨name, hname, -⟩ := h 0 Nat.zero_lt_one
    cases hname
  | cons c t =>
    obtain ⟨later, hsplit, hlater⟩ := splitOn_first (c :: t)
    have hnames := unames_cons t.length c t (fun u hu => unames_entries _ u (Nat.le_of_lt_succ hu)) hlater
    have hcount : (c :: t).count comma + 1 = later.length + 1 := by rw [count_comma, hsplit]; rfl
    rw [users, Action.Proper, List.length_cons, hcount, hnames, hsplit]
    constructor
    · intro h
      obtain ⟨name, hname, hfirst, -⟩ := h 0 (Nat.zero_lt_succ _)
      obtain ⟨last, hlast, -⟩ := h later.length (Nat.lt_succ_self _)
      have hlen : (later.map unblank).length ≤ ((later.map unblank).filter (· ≠ [])).length := by
        have hlt := (List.getElem?_eq_some_iff.mp hlast).1
        rw [List.length_cons] at hlt
        rw [List.length_map]
        omega
      have hall := List.length_filter_eq_length_iff.mp (Nat.le_antisymm (List.length_filter_le _ _) hlen)
      intro item hitem
      rcases List.mem_cons.mp hitem with rfl | hitem
      · rw [← Option.some.inj hname] at hfirst
        exact hfirst
      · simpa using hall (unblank item) (List.mem_map_of_mem hitem)
    · intro h i hi
      obtain ⟨hfirst, hlater'⟩ := List.forall_mem_cons.mp h
      have hall : (later.map unblank).filter (· ≠ []) = later.map unblank := by
        rw [List.filter_eq_self]
        intro item hitem
        obtain ⟨item', hitem', rfl⟩ := List.mem_map.mp hitem
        simpa using hlater' item' hitem'
      rw [hall]
      cases i with
      | zero => exact ⟨_, rfl, hfirst, by rw [hsplit]; exact List.mem_cons_self⟩
      | succ i =>
        have hi' : i < later.length := Nat.lt_of_succ_lt_succ hi
        refine ⟨unblank later[i], by simp [hi'], ?_, ?_⟩
        · rw [unblank_unblank]
          exact hlater' _ (List.getElem_mem hi')
        · rw [unblank_unblank, hsplit]
          exact List.mem_cons_of_mem _ (List.mem_map_of_mem (List.getElem_mem hi'))

/-! ## The line -/

theorem action_proper (p : Str) : (action p).Proper p ↔ HarmlessAction p := by
  rw [action, HarmlessAction]
  by_cases h : (p.head?.any fun c => c == at_ || c == bar || c == slash || c == star) = true
  · rw [if_pos h]
    exact iff_of_true trivial (Or.inl h)
  · rw [if_neg h, users_proper]
    exact ⟨Or.inr, fun hor => hor.resolve_left h⟩

theorem selectors_safely (k : Nat) (p : Str) (m : Masks) :
    Safely (fun r => HarmlessAction (actionAt r.2)) (selectors k p m) ↔ Harmless k p := by
  induction k generalizing p m with
  | zero => exact Iff.rfl
  | succ k ih =>
    rw [selectors, Harmless]
    by_cases hblank : p.head?.all isBlank = true
    · rw [if_pos hblank, if_pos hblank]
      exact Iff.rfl
    · rw [if_neg hblank, if_neg hblank, safely_bind, safely_congr fun m => ih (wordsAt p).rest m]
      exact selector_safely (wordsAt p) m

/-- cfline keeps to its line, its tables and its word, and the users are those of the list,
    exactly where the line is harmless. -/
theorem harmless_iff (seen : List Nat) (line : Str) : Keeps seen line ↔ Harmless line.length line := by
  rw [Keeps, cfline, safely_map]
  exact (safely_congr fun r : Masks × Str => action_proper (actionAt r.2)).trans (selectors_safely line.length line { seen })

/-- `mail.info`, without an action -/
def unended : Str := text "mail.info"

def joe : Str := text "joe,"

/-- It is read on behind its end; the shift for the facility 1016 is too wide; and the second
    place behind `*.info` has no name put into it. -/
theorem harmful_lines : ¬ Keeps [] unended ∧ ¬ Keeps [] (text "1016.info" ++ tab :: joe) ∧
    ¬ Keeps [] (text "*.info" ++ tab :: joe) := by
  refine ⟨fun h => h, fun h => h, fun h => ?_⟩
  have husers : (users joe).Proper joe := h
  obtain ⟨name, hname, -⟩ := husers 1 (by decide)
  cases hname

end Netutils.Syslogd.Bounds
