/-
  Netutils.Syslogd.Selectors — what the selectors of a configuration line mean (syslog.conf(5)),
  and the masks that cfline makes of them.

  The facility "mark" is not enabled by an asterisk, the manual says; but the loop over all
  facilities runs to LOG_NFACILITIES itself, where the mask of "mark" is. The other masks are
  always as documented, that of "mark" exactly where no asterisk has the last word on one of its
  levels and changes it (`cfline_iff`).
-/

import Mathlib.Data.Finset.Basic
import Mathlib.Data.Fintype.Basic
import Netutils.Syslogd.Cfline

namespace Netutils.Syslogd

open Netutils.Arpa Netutils.Libc

/-! ## What a selector is -/

abbrev Level := Fin (LOG_PRIMASK + 1)

abbrev Facility := Fin (LOG_NFACILITIES + 1)

def markFacility : Facility := Fin.last LOG_NFACILITIES

inductive Modifier where
  | not
  | only
  deriving DecidableEq

def Modifier.char : Modifier → UInt8
  | .not => bang
  | .only => equals

inductive Facilities where
  | all
  | list (first : Str) (more : List Str)

inductive Priority where
  | all (mods : List Modifier)
  | level (mods : List Modifier) (name : Str)
  | none (name : Str)

structure Selector where
  facilities : Facilities
  priority : Priority

/-! ## How it is written -/

def Facilities.spell : Facilities → Str
  | .all => [star]
  | .list first more => first ++ more.flatMap (comma :: ·)

def Priority.spell : Priority → Str
  | .all mods => mods.map Modifier.char ++ [star]
  | .level mods name => mods.map Modifier.char ++ name
  | .none name => name

def Selector.spell (s : Selector) : Str := s.facilities.spell ++ dot :: s.priority.spell

/-- A selector and more of them. -/
def spellLine (s : Selector) (more : List Selector) : Str := s.spell ++ more.flatMap (semicolon :: Selector.spell ·)

/-! ## Known names -/

/-- The facility of a name. -/
def facilityOf (name : Str) : Option Facility :=
  (lookup facilitynames name).bind fun i => if h : LOG_FAC i < LOG_NFACILITIES + 1 then some ⟨LOG_FAC i, h⟩ else none

/-- The level of a name other than "none". -/
def levelOf (name : Str) : Option Level :=
  (lookup prioritynames name).bind fun i => if h : i < LOG_PRIMASK + 1 then some ⟨i, h⟩ else none

def Facilities.names : Facilities → List Str
  | .all => []
  | .list first more => first :: more

/-- Only known names, and no modifier twice. -/
def Priority.Known : Priority → Prop
  | .all mods => mods.Nodup
  | .level mods name => mods.Nodup ∧ (levelOf name).isSome = true
  | .none name => strcaseeq name (text "none") = true

structure Selector.Known (s : Selector) : Prop where
  facilities : ∀ name ∈ s.facilities.names, (facilityOf name).isSome = true
  priority : s.priority.Known

/-! ## What it means -/

/-- The levels that are meant. -/
def Priority.levels : Priority → Finset Level
  | .all _ => Finset.univ
  | .level mods name =>
    match levelOf name with
    | some p => if .only ∈ mods then {p} else Finset.univ.filter (· ≤ p)
    | .none => ∅
  | .none _ => Finset.univ

def Priority.removes : Priority → Bool
  | .all mods | .level mods _ => mods.contains .not
  | .none _ => true

def Priority.effect (p : Priority) (levels : Finset Level) : Finset Level :=
  if p.removes then levels \ p.levels else levels ∪ p.levels

def Facilities.has : Facilities → Facility → Bool
  | .all, f => f ≠ markFacility
  | .list first more, f => (first :: more).any fun name => facilityOf name = some f

/-- From the empty set, left to right. -/
def denote (ss : List Selector) (f : Facility) : Finset Level :=
  ss.foldl (fun levels s => if s.facilities.has f then s.priority.effect levels else levels) ∅

/-- The levels that a mask has. -/
def maskLevels (mask : UInt8) : Finset Level := Finset.univ.filter fun l => mask &&& LOG_MASK l ≠ 0

/-! ## Masks -/

theorem mem_maskLevels {mask : UInt8} {l : Level} : l ∈ maskLevels mask ↔ mask.toBitVec.getLsbD l = true := by
  have hone : (LOG_MASK l).toBitVec = BitVec.twoPow 8 l := by
    revert l
    decide
  have hne : mask &&& LOG_MASK l ≠ 0 ↔ mask.toBitVec &&& BitVec.twoPow 8 l ≠ 0#8 := by
    rw [← hone]
    exact not_congr (UInt8.toBitVec_inj).symm
  have hpow : ∀ l : Level, BitVec.twoPow 8 l ≠ 0#8 := by decide
  simp only [maskLevels, Finset.mem_filter, Finset.mem_univ, true_and, hne, BitVec.and_twoPow]
  cases hbit : mask.toBitVec.getLsbD l with
  | false => simp
  | true =>
    simp only [if_true, iff_true]
    exact hpow l

theorem maskLevels_on (c : Change) (mask : UInt8) :
    maskLevels (c.on mask) = (maskLevels mask \ maskLevels c.clear) ∪ maskLevels c.set := by
  ext l
  have hl : l.val < 8 := l.isLt
  simp only [Finset.mem_union, Finset.mem_sdiff, mem_maskLevels, Change.on, UInt8.toBitVec_or, UInt8.toBitVec_and,
    UInt8.toBitVec_not, BitVec.getLsbD_or, BitVec.getLsbD_and, BitVec.getLsbD_not, Bool.or_eq_true, Bool.and_eq_true,
    hl, decide_true, Bool.true_and, Bool.not_eq_true']
  rw [Bool.not_eq_true]

theorem maskLevels_zero : maskLevels 0 = ∅ := by decide

theorem maskLevels_all : maskLevels 255 = Finset.univ := by decide

theorem maskLevels_mask (p : Level) : maskLevels (LOG_MASK p) = {p} := by
  revert p
  decide

theorem maskLevels_upto (p : Level) : maskLevels (LOG_UPTO p) = Finset.univ.filter (· ≤ p) := by
  revert p
  decide

/-! ## Names -/

/-- A letter or a digit. -/
def isWordChar (c : UInt8) : Bool := (0x61 ≤ tolower c && tolower c ≤ 0x7a) || isdigit (tolower c)

/-- What the names of the tables are like, in any case. -/
structure Wordy (name : Str) : Prop where
  short : name.length + 2 < MAXLINE
  letter : ∃ c t, name = c :: t ∧ isdigit c = false
  chars : ∀ c ∈ name, isWordChar c = true

theorem isdigit_tolower (c : UInt8) : isdigit (tolower c) = isdigit c := by
  have hall : ∀ n : Fin 256, isdigit (tolower (UInt8.ofFin n)) = isdigit (UInt8.ofFin n) := by decide +kernel
  exact hall c.toFin

theorem isWordChar_congr {c d : UInt8} (h : tolower c = tolower d) : isWordChar c = isWordChar d := by
  rw [isWordChar, isWordChar, h]

theorem Wordy.of_caseeq {s t : Str} (h : strcaseeq s t = true) (ht : Wordy t) : Wordy s := by
  have hmap : s.map tolower = t.map tolower := beq_iff_eq.mp h
  have hlen : s.length = t.length := by simpa using congrArg List.length hmap
  refine ⟨hlen ▸ ht.short, ?_, ?_⟩
  · obtain ⟨d, t, rfl, hd⟩ := ht.letter
    cases s with
    | nil => exact nomatch hlen
    | cons c s =>
      refine ⟨c, s, rfl, ?_⟩
      rw [← isdigit_tolower, (List.cons.inj hmap).1, isdigit_tolower]
      exact hd
  · intro c hc
    have hmem : tolower c ∈ t.map tolower := hmap ▸ List.mem_map_of_mem hc
    obtain ⟨d, hd, heq⟩ := List.mem_map.mp hmem
    rw [← isWordChar_congr heq]
    exact ht.chars d hd

/-- The same, for a test. -/
def wordy (name : Str) : Bool := name.length + 2 < MAXLINE && name.head?.any (!isdigit ·) && name.all isWordChar

theorem Wordy.of_test {name : Str} (h : wordy name = true) : Wordy name := by
  simp only [wordy, Bool.and_eq_true, decide_eq_true_eq, List.all_eq_true] at h
  obtain ⟨⟨hshort, hhead⟩, hchars⟩ := h
  refine ⟨hshort, ?_, hchars⟩
  cases name with
  | nil => exact nomatch hhead
  | cons c t => exact ⟨c, t, rfl, Bool.not_eq_true' _ |>.mp hhead⟩

theorem wordy_of_lookup {codetab : List CODE} (htab : ∀ e ∈ codetab, wordy e.name = true) {name : Str} {i : Nat}
    (h : lookup codetab name = some i) : Wordy name := by
  obtain ⟨e, he, -⟩ := Option.map_eq_some_iff.mp h
  have hcase := List.find?_some he
  exact .of_caseeq hcase (.of_test (htab e (List.mem_of_find?_eq_some he)))

theorem Wordy.decode {name : Str} (h : Wordy name) (codetab : List CODE) : decode name codetab = lookup codetab name := by
  obtain ⟨c, t, rfl, hc⟩ := h.letter
  rw [Syslogd.decode, List.head?_cons, Option.any_some, hc, if_neg (by decide)]

theorem facilityOf_spec {name : Str} {f : Facility} (h : facilityOf name = some f) :
    Wordy name ∧ ∃ i, lookup facilitynames name = some i ∧ LOG_FAC i = f := by
  obtain ⟨i, hi, hf⟩ := Option.bind_eq_some_iff.mp h
  refine ⟨wordy_of_lookup (by decide) hi, i, hi, ?_⟩
  split at hf
  · exact congrArg Fin.val (Option.some.inj hf)
  · exact nomatch hf

theorem levelOf_spec {name : Str} {l : Level} (h : levelOf name = some l) :
    Wordy name ∧ lookup prioritynames name = some l.val := by
  obtain ⟨i, hi, hl⟩ := Option.bind_eq_some_iff.mp h
  refine ⟨wordy_of_lookup (by decide) hi, ?_⟩
  split at hl
  · rw [hi, ← congrArg Fin.val (Option.some.inj hl)]
  · exact nomatch hl

theorem none_spec {name : Str} (h : strcaseeq name (text "none") = true) :
    Wordy name ∧ lookup prioritynames name = some INTERNAL_NOPRI := by
  refine ⟨.of_caseeq h (.of_test (by decide)), ?_⟩
  have hmap : name.map tolower = (text "none").map tolower := beq_iff_eq.mp h
  simp only [lookup, strcaseeq, hmap]
  decide

theorem Wordy.head {name : Str} (h : Wordy name) : ∃ c t, name = c :: t ∧ isWordChar c = true := by
  obtain ⟨c, t, rfl, -⟩ := h.letter
  exact ⟨c, t, rfl, h.chars c List.mem_cons_self⟩

/-- No character of a name has a meaning of its own. -/
theorem ne_of_isWordChar {c d : UInt8} (hc : isWordChar c = true) (hd : isWordChar d = false) : c ≠ d := by
  rintro rfl
  exact Bool.false_ne_true (hd.symm.trans hc)

/-! ## The priority -/

theorem maskLevels_set (set mask : UInt8) : maskLevels ((Change.mk 0 set).on mask) = maskLevels mask ∪ maskLevels set := by
  rw [maskLevels_on, maskLevels_zero, Finset.sdiff_empty]

theorem maskLevels_clear (clear mask : UInt8) :
    maskLevels ((Change.mk clear 0).on mask) = maskLevels mask \ maskLevels clear := by
  rw [maskLevels_on, maskLevels_zero, Finset.union_empty]

theorem takeWhile_modifiers (mods : List Modifier) (rest : Str) (hrest : rest.head?.all (!isModifier ·) = true) :
    (mods.map Modifier.char ++ rest).takeWhile isModifier = mods.map Modifier.char ∧
      (mods.map Modifier.char ++ rest).dropWhile isModifier = rest := by
  have hmods : ∀ c ∈ mods.map Modifier.char, isModifier c = true := by
    intro c hc
    obtain ⟨m, -, rfl⟩ := List.mem_map.mp hc
    cases m <;> decide
  exact span_append hmods hrest

theorem contains_modifiers (mods : List Modifier) (m : Modifier) :
    (mods.map Modifier.char).contains m.char = mods.contains m := by
  have hinj : Function.Injective Modifier.char := by
    intro a b
    cases a <;> cases b <;> decide
  rw [Bool.eq_iff_iff, List.contains_iff_mem, List.contains_iff_mem, List.mem_map_of_injective hinj]

/-- Modifiers in front of a level that sets these levels. -/
theorem priorityChange_mods (mods : List Modifier) (rest : Str) {set : UInt8}
    (hrest : rest.head?.all (!isModifier ·) = true) (hset : levelChange (mods.contains .only) rest = .ok ⟨0, set⟩) :
    ∃ c, priorityChange (mods.map Modifier.char ++ rest) = .ok c ∧ ∀ mask, maskLevels (c.on mask) =
      if mods.contains .not then maskLevels mask \ maskLevels set else maskLevels mask ∪ maskLevels set := by
  obtain ⟨htake, hdrop⟩ := takeWhile_modifiers mods rest hrest
  have honly : (mods.map Modifier.char).contains equals = mods.contains .only := contains_modifiers mods .only
  have hnot : (mods.map Modifier.char).contains bang = mods.contains .not := contains_modifiers mods .not
  rw [priorityChange]
  simp only [htake, hdrop, honly, hnot, hset, Except.map]
  refine ⟨_, rfl, fun mask => ?_⟩
  split
  · exact maskLevels_clear set mask
  · exact maskLevels_set set mask

theorem priorityChange_spell {p : Priority} (h : p.Known) :
    ∃ c, priorityChange p.spell = .ok c ∧ ∀ mask, maskLevels (c.on mask) = p.effect (maskLevels mask) := by
  cases p with
  | all mods =>
    obtain ⟨c, hc, hon⟩ := priorityChange_mods mods [star] (by decide) rfl
    refine ⟨c, hc, fun mask => ?_⟩
    rw [hon]
    rfl
  | level mods name =>
    obtain ⟨l, hl⟩ := Option.isSome_iff_exists.mp h.2
    obtain ⟨hwordy, hlookup⟩ := levelOf_spec hl
    obtain ⟨x, t, rfl, hx⟩ := hwordy.head
    have hset : levelChange (mods.contains .only) (x :: t) =
        .ok ⟨0, if mods.contains .only then LOG_MASK l else LOG_UPTO l⟩ := by
      have hstar : ¬ some x = some star := fun heq => ne_of_isWordChar hx (by decide) (Option.some.inj heq)
      have hpri : l.val ≠ INTERNAL_NOPRI := by
        have := l.isLt
        simp only [INTERNAL_NOPRI, LOG_PRIMASK] at this ⊢
        omega
      rw [levelChange, List.head?_cons, if_neg hstar, hwordy.decode, hlookup]
      simp only [if_neg hpri]
    have hmod : isModifier x = false := by
      simp only [isModifier, Bool.or_eq_false_iff, beq_eq_false_iff_ne]
      exact ⟨ne_of_isWordChar hx (by decide), ne_of_isWordChar hx (by decide)⟩
    obtain ⟨c, hc, hon⟩ := priorityChange_mods mods _ (by simp [hmod]) hset
    refine ⟨c, hc, fun mask => ?_⟩
    rw [hon, Priority.effect, Priority.removes, Priority.levels]
    simp only [hl, ← List.contains_iff_mem]
    cases mods.contains .only
    · simp only [Bool.false_eq_true, if_false, maskLevels_upto]
    · simp only [if_true, maskLevels_mask]
  | none name =>
    obtain ⟨hwordy, hlookup⟩ := none_spec h
    obtain ⟨x, t, rfl, hx⟩ := hwordy.head
    have hstar : ¬ some x = some star := fun heq => ne_of_isWordChar hx (by decide) (Option.some.inj heq)
    have hmod : isModifier x = false := by
      simp only [isModifier, Bool.or_eq_false_iff, beq_eq_false_iff_ne]
      exact ⟨ne_of_isWordChar hx (by decide), ne_of_isWordChar hx (by decide)⟩
    obtain ⟨htake, hdrop⟩ := takeWhile_modifiers [] (x :: t) (by simp [hmod])
    rw [List.map_nil, List.nil_append] at htake hdrop
    refine ⟨⟨255, 0⟩, ?_, fun mask => ?_⟩
    · rw [Priority.spell, priorityChange]
      simp only [htake, hdrop, levelChange, List.head?_cons, if_neg hstar, hwordy.decode, hlookup, if_true, Except.map]
      rfl
    · rw [maskLevels_clear, maskLevels_all]
      rfl

/-! ## The facilities -/

/-- What cfline takes an asterisk for: "mark" as well. -/
def Facilities.hasCode : Facilities → Facility → Bool
  | .all, _ => true
  | .list first more, f => (first :: more).any fun name => facilityOf name = some f

theorem takeWhile_stop {stop : UInt8 → Bool} {name tail : Str} (hname : ∀ c ∈ name, stop c = false)
    (htail : tail.head?.all stop = true) :
    (name ++ tail).takeWhile (fun c => !stop c) = name ∧ (name ++ tail).dropWhile (fun c => !stop c) = tail := by
  have hall : ∀ c ∈ name, (!stop c) = true := fun c hc => by rw [hname c hc]; rfl
  exact span_append hall (by simpa using htail)

theorem endsFacility_word {c : UInt8} (hc : isWordChar c = true) : endsFacility c = false := by
  simp only [endsFacility, endsFacilities, Bool.or_eq_false_iff, beq_eq_false_iff_ne]
  refine ⟨?_, ⟨⟨?_, ?_⟩, ?_⟩, ?_⟩ <;> exact ne_of_isWordChar hc (by decide)

/-- A name is found in the table, and its mask is changed. -/
theorem facilities_name (c : Change) {name : Str} {i : Facility} (h : facilityOf name = some i) (k : Nat) {tail : Str}
    (htail : tail.head?.all endsFacility = true) (m : Masks) :
    facilities c (k + 1) (name ++ tail) m =
      facilities c k (tail.dropWhile fun c => c == comma || c == space)
        ⟨Function.update m.pmask i (c.on (m.pmask i)), i :: m.seen⟩ := by
  obtain ⟨hwordy, v, hlookup, hv⟩ := facilityOf_spec h
  obtain ⟨htake, hdrop⟩ := takeWhile_stop (fun c hc => endsFacility_word (hwordy.chars c hc)) htail
  obtain ⟨x, t, rfl, hx⟩ := hwordy.head
  have hends : endsFacilities x = false := (Bool.or_eq_false_iff.mp (endsFacility_word hx)).2
  have hstar : ¬ some x = some star := fun heq => ne_of_isWordChar hx (by decide) (Option.some.inj heq)
  have hshort : ¬ MAXLINE ≤ (x :: t).length := by
    have := hwordy.short
    omega
  have hchange : facilityChange c (x :: t) m = .ok ⟨Function.update m.pmask i (c.on (m.pmask i)), i :: m.seen⟩ := by
    have hlt : LOG_FAC v < LOG_NFACILITIES + 1 := hv ▸ i.isLt
    obtain rfl : (⟨LOG_FAC v, hlt⟩ : Facility) = i := Fin.ext hv
    rw [facilityChange, List.head?_cons, if_neg hstar, hwordy.decode, hlookup]
    simp only [dif_pos hlt]
  rw [facilities, htake, hdrop]
  simp only [List.cons_append, List.head?_cons, Option.all_some, hends, Bool.false_eq_true, if_false, if_neg hshort, hchange]

theorem Priority.effect_effect (p : Priority) (levels : Finset Level) : p.effect (p.effect levels) = p.effect levels := by
  unfold effect
  split
  · rw [sdiff_sdiff_left, sup_idem]
  · rw [Finset.union_assoc, Finset.union_self]

variable {p : Priority} {c : Change}

theorem maskLevels_update (hon : ∀ mask, maskLevels (c.on mask) = p.effect (maskLevels mask)) (pmask : Pmask) {name : Str}
    {i : Facility} (hi : facilityOf name = some i) (f : Facility) :
    maskLevels (Function.update pmask i (c.on (pmask i)) f) =
      if facilityOf name = some f then p.effect (maskLevels (pmask f)) else maskLevels (pmask f) := by
  rw [hi]
  by_cases hf : f = i
  · subst hf
    rw [Function.update_self, if_pos rfl, hon]
  · rw [Function.update_of_ne hf, if_neg fun heq => hf (Option.some.inj heq).symm]

theorem facilities_list (hon : ∀ mask, maskLevels (c.on mask) = p.effect (maskLevels mask)) (r : Str) (first : Str)
    (more : List Str) (hknown : ∀ name ∈ first :: more, (facilityOf name).isSome = true) (k : Nat) (hk : more.length < k)
    (m : Masks) :
    ∃ m', facilities c k (first ++ (more.flatMap (comma :: ·) ++ dot :: r)) m = .ok m' ∧
      ∀ f, maskLevels (m'.pmask f) =
        if (Facilities.list first more).hasCode f then p.effect (maskLevels (m.pmask f)) else maskLevels (m.pmask f) := by
  induction more generalizing first k m with
  | nil =>
    obtain ⟨k, rfl⟩ : ∃ j, k = j + 1 := ⟨k - 1, by omega⟩
    obtain ⟨i, hi⟩ := Option.isSome_iff_exists.mp (hknown first List.mem_cons_self)
    rw [List.flatMap_nil, List.nil_append, facilities_name c hi k rfl]
    refine ⟨⟨Function.update m.pmask i (c.on (m.pmask i)), i :: m.seen⟩, ?_, fun f => ?_⟩
    · cases k <;> rfl
    · rw [maskLevels_update hon m.pmask hi]
      simp only [Facilities.hasCode, List.any_cons, List.any_nil, Bool.or_false, decide_eq_true_eq]
  | cons next more ih =>
    obtain ⟨k, rfl⟩ : ∃ j, k = j + 1 := ⟨k - 1, by omega⟩
    obtain ⟨i, hi⟩ := Option.isSome_iff_exists.mp (hknown first List.mem_cons_self)
    have hknown' : ∀ name ∈ next :: more, (facilityOf name).isSome = true :=
      fun name hn => hknown name (List.mem_cons_of_mem _ hn)
    obtain ⟨j, hj⟩ := Option.isSome_iff_exists.mp (hknown' next List.mem_cons_self)
    obtain ⟨x, t, hx, hword⟩ := (facilityOf_spec hj).1.head
    have hstop : (x == comma || x == space) = false := by
      simp only [Bool.or_eq_false_iff, beq_eq_false_iff_ne]
      exact ⟨ne_of_isWordChar hword (by decide), ne_of_isWordChar hword (by decide)⟩
    have hskip : ∀ l : Str, (comma :: (next ++ l)).dropWhile (fun c => c == comma || c == space) = next ++ l := by
      intro l
      rw [List.dropWhile_cons, show (comma == comma || comma == space) = true by decide, if_pos rfl, hx, List.cons_append,
        List.dropWhile_cons, hstop, if_neg Bool.false_ne_true]
    obtain ⟨m', hm', hlevels⟩ := ih next hknown' k (by rw [List.length_cons] at hk; omega)
      ⟨Function.update m.pmask i (c.on (m.pmask i)), i :: m.seen⟩
    refine ⟨m', ?_, fun f => ?_⟩
    · rw [List.flatMap_cons, List.cons_append, List.cons_append, List.append_assoc, facilities_name c hi k rfl, hskip]
      exact hm'
    · rw [hlevels, maskLevels_update hon m.pmask hi]
      simp only [Facilities.hasCode, List.any_cons, Bool.or_eq_true, decide_eq_true_eq]
      by_cases hf : facilityOf first = some f
      · rw [if_pos hf, if_pos (Or.inl hf), p.effect_effect, ite_self]
      · simp only [hf, if_false, false_or]

theorem facilities_spell (hon : ∀ mask, maskLevels (c.on mask) = p.effect (maskLevels mask)) (r : Str) {fs : Facilities}
    (hknown : ∀ name ∈ fs.names, (facilityOf name).isSome = true) (k : Nat) (hk : fs.names.length < k) (m : Masks) :
    ∃ m', facilities c k (fs.spell ++ dot :: r) m = .ok m' ∧
      ∀ f, maskLevels (m'.pmask f) = if fs.hasCode f then p.effect (maskLevels (m.pmask f)) else maskLevels (m.pmask f) := by
  cases fs with
  | all =>
    obtain ⟨k, rfl⟩ : ∃ j, k = j + 1 := ⟨k - 1, by omega⟩
    refine ⟨{ m with pmask := fun i => c.on (m.pmask i) }, ?_, fun f => ?_⟩
    · cases k <;> rfl
    · rw [hon]
      rfl
  | list first more =>
    rw [Facilities.spell, List.append_assoc]
    exact facilities_list hon r first more hknown k (Nat.lt_of_succ_lt hk) m

/-! ## One selector -/

theorem Facilities.mem_spell {fs : Facilities} (hknown : ∀ name ∈ fs.names, (facilityOf name).isSome = true) {x : UInt8}
    (hx : x ∈ fs.spell) : x = star ∨ x = comma ∨ isWordChar x = true := by
  have hchars : ∀ name ∈ fs.names, ∀ y ∈ name, isWordChar y = true := by
    intro name hname
    obtain ⟨i, hi⟩ := Option.isSome_iff_exists.mp (hknown name hname)
    exact (facilityOf_spec hi).1.chars
  cases fs with
  | all => exact Or.inl (List.mem_singleton.mp hx)
  | list first more =>
    rcases List.mem_append.mp hx with hx | hx
    · exact Or.inr (Or.inr (hchars first List.mem_cons_self x hx))
    · obtain ⟨name, hname, hx⟩ := List.mem_flatMap.mp hx
      rcases List.mem_cons.mp hx with rfl | hx
      · exact Or.inr (Or.inl rfl)
      · exact Or.inr (Or.inr (hchars name (List.mem_cons_of_mem _ hname) x hx))

theorem Facilities.spell_head {fs : Facilities} (hknown : ∀ name ∈ fs.names, (facilityOf name).isSome = true) :
    ∃ x t, fs.spell = x :: t ∧ (x = star ∨ isWordChar x = true) := by
  cases fs with
  | all => exact ⟨star, [], rfl, Or.inl rfl⟩
  | list first more =>
    obtain ⟨i, hi⟩ := Option.isSome_iff_exists.mp (hknown first List.mem_cons_self)
    obtain ⟨x, t, rfl, hx⟩ := (facilityOf_spec hi).1.head
    exact ⟨x, _, rfl, Or.inr hx⟩

theorem Facilities.length_names_le (fs : Facilities) : fs.names.length ≤ fs.spell.length + 1 := by
  cases fs with
  | all => exact Nat.zero_le _
  | list first more =>
    have hmore : more.length ≤ (more.flatMap (comma :: ·)).length := by
      induction more with
      | nil => exact Nat.le_refl _
      | cons name more ih =>
        rw [List.flatMap_cons, List.length_append, List.length_cons, List.length_cons]
        omega
    rw [names, spell, List.length_cons, List.length_append]
    omega

theorem length_modifiers {mods : List Modifier} (h : mods.Nodup) : mods.length ≤ 2 := by
  match mods, h with
  | [], _ | [_], _ | [_, _], _ => simp
  | a :: b :: c :: _, h =>
    cases a <;> cases b <;> cases c <;> simp at h

theorem Priority.spell_spec {p : Priority} (h : p.Known) :
    p.spell.length < MAXLINE ∧ ∀ x ∈ p.spell, endsPriority x = false := by
  have hword : ∀ {x}, isWordChar x = true → endsPriority x = false := by
    intro x hx
    simp only [endsPriority, Bool.or_eq_false_iff, beq_eq_false_iff_ne]
    refine ⟨⟨⟨?_, ?_⟩, ?_⟩, ?_⟩ <;> exact ne_of_isWordChar hx (by decide)
  have hmods : ∀ {mods : List Modifier} {x : UInt8}, x ∈ mods.map Modifier.char → endsPriority x = false := by
    intro mods x hx
    obtain ⟨m, -, rfl⟩ := List.mem_map.mp hx
    cases m <;> decide
  cases p with
  | all mods =>
    have hlen := length_modifiers h
    refine ⟨?_, fun x hx => ?_⟩
    · rw [spell, List.length_append, List.length_map, List.length_singleton, MAXLINE]
      omega
    · rcases List.mem_append.mp hx with hx | hx
      · exact hmods hx
      · rw [List.mem_singleton.mp hx]
        decide
  | level mods name =>
    obtain ⟨l, hl⟩ := Option.isSome_iff_exists.mp h.2
    have hwordy := (levelOf_spec hl).1
    have hlen := length_modifiers h.1
    have hshort := hwordy.short
    refine ⟨?_, fun x hx => ?_⟩
    · rw [spell, List.length_append, List.length_map]
      omega
    · rcases List.mem_append.mp hx with hx | hx
      · exact hmods hx
      · exact hword (hwordy.chars x hx)
  | none name =>
    have hwordy := (none_spec h).1
    have hshort := hwordy.short
    exact ⟨show name.length < MAXLINE by omega, fun x hx => hword (hwordy.chars x hx)⟩

theorem afterDot_append {a : Str} (ha : ∀ x ∈ a, x ≠ tab ∧ x ≠ dot) (r : Str) : afterDot (a ++ dot :: r) = r := by
  induction a with
  | nil => rfl
  | cons x a ih =>
    obtain ⟨htab, hdot⟩ := ha x List.mem_cons_self
    rw [List.cons_append, afterDot, if_neg htab, if_neg hdot, ih fun y hy => ha y (List.mem_cons_of_mem x hy)]

/-- What one selector does to the levels of a mask. -/
def Selector.effectCode (s : Selector) (f : Facility) (levels : Finset Level) : Finset Level :=
  if s.facilities.hasCode f then s.priority.effect levels else levels

theorem selectors_spell {s : Selector} (h : s.Known) (k : Nat) {x : UInt8} {tail rest : Str} (hx : endsPriority x = true)
    (hrest : (x :: tail).dropWhile isCruft = rest) (hne : rest ≠ []) (m : Masks) :
    ∃ m', selectors (k + 1) (s.spell ++ x :: tail) m = selectors k rest m' ∧
      ∀ f, maskLevels (m'.pmask f) = s.effectCode f (maskLevels (m.pmask f)) := by
  obtain ⟨c, hc, hon⟩ := priorityChange_spell h.priority
  obtain ⟨hshort, hends⟩ := Priority.spell_spec h.priority
  obtain ⟨htake, hdrop⟩ := takeWhile_stop hends (show (x :: tail).head?.all endsPriority = true from hx)
  have hdot : afterDot (s.spell ++ x :: tail) = s.priority.spell ++ x :: tail := by
    rw [Selector.spell, List.append_assoc]
    refine afterDot_append (fun y hy => ?_) _
    rcases Facilities.mem_spell h.facilities hy with rfl | rfl | hy
    · decide
    · decide
    · exact ⟨ne_of_isWordChar hy (by decide), ne_of_isWordChar hy (by decide)⟩
  have hfuel : s.facilities.names.length < (s.spell ++ x :: tail).length := by
    have := s.facilities.length_names_le
    rw [Selector.spell, List.length_append, List.length_append, List.length_cons, List.length_cons]
    omega
  obtain ⟨m', hm', hlevels⟩ := facilities_spell hon (s.priority.spell ++ x :: tail) h.facilities _ hfuel m
  have hscan : facilities c (s.spell ++ x :: tail).length (s.spell ++ x :: tail) m = .ok m' := by
    rw [← hm', Selector.spell, List.append_assoc]
    rfl
  have hblank : ((s.spell ++ x :: tail).head?.all isBlank) = false := by
    obtain ⟨y, t, ht, hy⟩ := Facilities.spell_head h.facilities
    rw [Selector.spell, ht]
    have hne : y ≠ tab ∧ y ≠ space := by
      rcases hy with rfl | hy
      · decide
      · exact ⟨ne_of_isWordChar hy (by decide), ne_of_isWordChar hy (by decide)⟩
    simpa [isBlank] using hne
  refine ⟨m', ?_, hlevels⟩
  rw [selectors, hblank, hdot, htake, hdrop, hrest]
  simp only [Bool.false_eq_true, if_false, Nat.not_le.mpr hshort, hne, or_self, hc, hscan]

/-! ## All selectors -/

/-- The levels as cfline reads the selectors. -/
def denoteCode (ss : List Selector) (f : Facility) : Finset Level := ss.foldl (fun levels s => s.effectCode f levels) ∅

theorem endsLine {x : UInt8} (hx : isBlank x = true) : endsPriority x = true ∧ isCruft x = false := by
  simp only [isBlank, Bool.or_eq_true, beq_iff_eq] at hx
  rcases hx with rfl | rfl <;> decide

theorem selectors_line (s : Selector) (more : List Selector) (hknown : ∀ t ∈ s :: more, t.Known) (k : Nat)
    (hk : more.length < k) {x : UInt8} (hx : isBlank x = true) (rest : Str) (m : Masks) :
    ∃ m', selectors k (spellLine s more ++ x :: rest) m = .ok (m', x :: rest) ∧
      ∀ f, maskLevels (m'.pmask f) = (s :: more).foldl (fun levels t => t.effectCode f levels) (maskLevels (m.pmask f)) := by
  obtain ⟨hends, hcruft⟩ := endsLine hx
  obtain ⟨k, rfl⟩ : ∃ j, k = j + 1 := ⟨k - 1, by omega⟩
  induction more generalizing s k m with
  | nil =>
    have hrest : (x :: rest).dropWhile isCruft = x :: rest := by
      rw [List.dropWhile_cons, hcruft, if_neg Bool.false_ne_true]
    obtain ⟨m', hm', hlevels⟩ := selectors_spell (hknown s List.mem_cons_self) k hends hrest (List.cons_ne_nil _ _) m
    refine ⟨m', ?_, hlevels⟩
    rw [spellLine, List.flatMap_nil, List.append_nil, hm']
    cases k with
    | zero => rfl
    | succ k =>
      have hstop : ((x :: rest).head?.all isBlank) = true := hx
      rw [selectors, if_pos hstop]
  | cons t more ih =>
    have hknown' : ∀ u ∈ t :: more, u.Known := fun u hu => hknown u (List.mem_cons_of_mem _ hu)
    obtain ⟨y, r, hy, hhead⟩ := Facilities.spell_head (hknown' t List.mem_cons_self).facilities
    have hnot : isCruft y = false := by
      rw [isCruft, Bool.or_eq_false_iff, beq_eq_false_iff_ne, beq_eq_false_iff_ne]
      rcases hhead with rfl | hhead
      · decide
      · exact ⟨ne_of_isWordChar hhead (by decide), ne_of_isWordChar hhead (by decide)⟩
    have hdrop : (semicolon :: (spellLine t more ++ x :: rest)).dropWhile isCruft = spellLine t more ++ x :: rest := by
      rw [List.dropWhile_cons, show isCruft semicolon = true by decide, if_pos rfl, spellLine, Selector.spell, hy]
      simp only [List.cons_append, List.dropWhile_cons, hnot, Bool.false_eq_true, if_false]
    have hne : spellLine t more ++ x :: rest ≠ [] := fun h => List.cons_ne_nil _ _ (List.append_eq_nil_iff.mp h).2
    obtain ⟨m', hm', hlevels⟩ := selectors_spell (hknown s List.mem_cons_self) k (by decide) hdrop hne m
    obtain ⟨k, rfl⟩ : ∃ j, k = j + 1 := ⟨k - 1, by rw [List.length_cons] at hk; omega⟩
    obtain ⟨m'', hm'', hlevels'⟩ := ih t hknown' m' k (by rw [List.length_cons] at hk; omega)
    refine ⟨m'', ?_, fun f => ?_⟩
    · have hline : spellLine s (t :: more) ++ x :: rest = s.spell ++ semicolon :: (spellLine t more ++ x :: rest) := by
        simp only [spellLine, List.flatMap_cons, List.append_assoc, List.cons_append]
      rw [hline, hm', hm'']
    · rw [hlevels', hlevels]
      rfl

theorem cfline_levels (s : Selector) (more : List Selector) (hknown : ∀ t ∈ s :: more, t.Known) {x : UInt8}
    (hx : isBlank x = true) (rest : Str) (seen : List Nat) :
    ∃ m, cfline seen (spellLine s more ++ x :: rest) = .ok (m, x :: rest) ∧
      ∀ f, maskLevels (m.pmask f) = denoteCode (s :: more) f := by
  have hfuel : more.length < (spellLine s more ++ x :: rest).length + 1 := by
    have hmore : more.length ≤ (more.flatMap (semicolon :: Selector.spell ·)).length := by
      induction more with
      | nil => exact Nat.le_refl _
      | cons t more ih =>
        have := ih fun u hu => hknown u (by simp at hu ⊢; tauto)
        rw [List.flatMap_cons, List.length_append, List.length_cons, List.length_cons]
        omega
    rw [spellLine, List.length_append, List.length_append]
    omega
  obtain ⟨m, hm, hlevels⟩ := selectors_line s more hknown _ hfuel hx rest { seen }
  refine ⟨m, hm, fun f => (hlevels f).trans ?_⟩
  rw [show maskLevels (({ seen } : Masks).pmask f) = ∅ from maskLevels_zero]
  rfl

/-! ## The mask of "mark" -/

theorem Facilities.hasCode_eq (fs : Facilities) {f : Facility} (hf : f ≠ markFacility) : fs.hasCode f = fs.has f := by
  cases fs with
  | all => exact (decide_eq_true hf).symm
  | list first more => rfl

/-- The other masks are as documented. -/
theorem denoteCode_eq (ss : List Selector) {f : Facility} (hf : f ≠ markFacility) : denoteCode ss f = denote ss f := by
  simp only [denoteCode, denote, Selector.effectCode, Facilities.hasCode_eq _ hf]

theorem Priority.mem_effect {p : Priority} {l : Level} (hl : l ∈ p.levels) (levels : Finset Level) :
    l ∈ p.effect levels ↔ p.removes = false := by
  unfold effect
  cases p.removes <;> simp [hl]

theorem Priority.mem_effect_of_not_mem {p : Priority} {l : Level} (hl : l ∉ p.levels) (levels : Finset Level) :
    l ∈ p.effect levels ↔ l ∈ levels := by
  unfold effect
  cases p.removes <;> simp [hl]

/-- No asterisk has the last word on this level of "mark", but what the selectors before it that
    name "mark" have left. -/
def SparesAt (l : Level) (ss : List Selector) : Prop :=
  ∀ before s after, ss = before ++ s :: after → s.facilities = .all → l ∈ s.priority.levels →
    (∀ t ∈ after, t.facilities.hasCode markFacility = true → l ∉ t.priority.levels) →
    (l ∈ denote before markFacility ↔ s.priority.removes = false)

def Spares (ss : List Selector) : Prop := ∀ l, SparesAt l ss

variable {l : Level} {ss : List Selector} {s : Selector}

/-- Behind the last word no other counts. -/
theorem sparesAt_concat : SparesAt l (ss ++ [s]) ↔
    (s.facilities = .all → l ∈ s.priority.levels → (l ∈ denote ss markFacility ↔ s.priority.removes = false)) ∧
      ((s.facilities.hasCode markFacility = true → l ∉ s.priority.levels) → SparesAt l ss) := by
  constructor
  · intro h
    refine ⟨fun hall hl => h ss s [] rfl hall hl nofun, ?_⟩
    intro hs before t after hss hall hl hafter
    refine h before t (after ++ [s]) (by rw [hss, List.append_assoc, List.cons_append]) hall hl ?_
    intro u hu
    rcases List.mem_append.mp hu with hu | hu
    · exact hafter u hu
    · rw [List.mem_singleton.mp hu]
      exact hs
  · intro h before t after hss hall hl hafter
    obtain ⟨hend, hrest⟩ := h
    rcases List.eq_nil_or_concat' after with rfl | ⟨after, u, rfl⟩
    · obtain ⟨rfl, hlast⟩ := List.append_inj' hss rfl
      obtain rfl := (List.cons.inj hlast).1
      exact hend hall hl
    · rw [← List.cons_append, ← List.append_assoc] at hss
      obtain ⟨rfl, hlast⟩ := List.append_inj' hss rfl
      obtain rfl := (List.cons.inj hlast).1
      exact hrest (hafter s (by simp)) before t after rfl hall hl fun v hv => hafter v (List.mem_append_left _ hv)

theorem mark_iff (l : Level) (ss : List Selector) :
    (l ∈ denoteCode ss markFacility ↔ l ∈ denote ss markFacility) ↔ SparesAt l ss := by
  induction ss using List.reverseRecOn with
  | nil => exact iff_of_true Iff.rfl fun before s after h => (List.append_ne_nil_of_right_ne_nil _ (List.cons_ne_nil _ _) h.symm).elim
  | append_singleton ss s ih =>
    have hcode : denoteCode (ss ++ [s]) markFacility = s.effectCode markFacility (denoteCode ss markFacility) := by
      rw [denoteCode, List.foldl_append]
      rfl
    have hdoc : denote (ss ++ [s]) markFacility =
        if s.facilities.has markFacility then s.priority.effect (denote ss markFacility) else denote ss markFacility := by
      rw [denote, List.foldl_append]
      rfl
    rw [sparesAt_concat, hcode, hdoc, Selector.effectCode]
    by_cases hl : l ∈ s.priority.levels
    · cases hfs : s.facilities with
      | all =>
        have hhas : Facilities.all.has markFacility = false := by decide
        rw [hhas, if_neg Bool.false_ne_true, show Facilities.all.hasCode markFacility = true from rfl, if_pos rfl,
          Priority.mem_effect hl]
        exact ⟨fun h => ⟨fun _ _ => h.symm, fun hno => absurd hl (hno rfl)⟩, fun h => (h.1 rfl hl).symm⟩
      | list first more =>
        rw [show (Facilities.list first more).has markFacility = (Facilities.list first more).hasCode markFacility from rfl]
        cases hhas : (Facilities.list first more).hasCode markFacility with
        | true =>
          rw [if_pos rfl, if_pos rfl, Priority.mem_effect hl, Priority.mem_effect hl]
          exact iff_of_true Iff.rfl ⟨nofun, fun hno => absurd hl (hno rfl)⟩
        | false =>
          rw [if_neg Bool.false_ne_true, if_neg Bool.false_ne_true, ih]
          exact ⟨fun h => ⟨nofun, fun _ => h⟩, fun h => h.2 nofun⟩
    · have hsame : ∀ (b : Bool) (levels : Finset Level),
          (l ∈ if b then s.priority.effect levels else levels) ↔ l ∈ levels := by
        intro b levels
        cases b
        · exact Iff.rfl
        · exact Priority.mem_effect_of_not_mem hl levels
      rw [hsame, hsame, ih]
      exact ⟨fun h => ⟨fun _ hin => absurd hin hl, fun _ => h⟩, fun h => h.2 fun _ => hl⟩

/-- All masks are as documented exactly where no asterisk has the last word on a level of "mark",
    other than the one it had. -/
theorem cfline_iff (s : Selector) (more : List Selector) (hknown : ∀ t ∈ s :: more, t.Known) (x : UInt8)
    (hx : isBlank x = true) (rest : Str) (seen : List Nat) :
    ∃ m, cfline seen (spellLine s more ++ x :: rest) = .ok (m, x :: rest) ∧
      ((∀ f, maskLevels (m.pmask f) = denote (s :: more) f) ↔ Spares (s :: more)) := by
  obtain ⟨m, hm, hlevels⟩ := cfline_levels s more hknown hx rest seen
  refine ⟨m, hm, ?_⟩
  constructor
  · intro h l
    rw [← mark_iff, ← hlevels, h]
  · intro h f
    rw [hlevels]
    by_cases hf : f = markFacility
    · subst hf
      ext l
      exact (mark_iff l (s :: more)).mpr (h l)
    · exact denoteCode_eq _ hf

/-- `mail,news.!=info` -/
def mailNews : Selector := ⟨.list (text "mail") [text "news"], .level [.not, .only] (text "info")⟩

theorem mailNews_known : mailNews.Known := by
  refine ⟨?_, ?_, ?_⟩
  · decide
  · decide
  · decide

theorem cfline_mailNews :
    ∃ m, cfline [] (spellLine mailNews [mailNews] ++ tab :: text "/var/log/x") = .ok (m, tab :: text "/var/log/x") ∧
      ((∀ f, maskLevels (m.pmask f) = denote [mailNews, mailNews] f) ↔ Spares [mailNews, mailNews]) :=
  cfline_iff mailNews [mailNews] (by simpa using mailNews_known) tab (by decide) _ _

/-- `*.info` -/
def allInfo : Selector := ⟨.all, .level [] (text "info")⟩

/-- `*.info` enables "mark". -/
theorem star_marks : allInfo.Known ∧
    (cfline [] (spellLine allInfo [] ++ tab :: text "/var/log/x")).toOption.map (fun r => maskLevels (r.1.pmask markFacility)) =
      some (Finset.univ.filter (· ≤ 6)) ∧ (Finset.univ.filter (· ≤ 6) : Finset Level) ≠ denote [allInfo] markFacility := by
  refine ⟨⟨?_, ?_, ?_⟩, ?_, ?_⟩ <;> decide +kernel

end Netutils.Syslogd
