/-
  Netutils.Telnet.Termname — the names of the terminal that telnet has for the server (mklist,
  is_unique and gettermname, telnet/telnet.c). The answer finds room in netoring, and TERM stays
  as it is.
-/

import Netutils.Libc.Ctype

namespace Netutils.Telnet

open Netutils.Libc

def islower (c : UInt8) : Bool := 0x61 ≤ c && c ≤ 0x7a

def toupper (c : UInt8) : UInt8 := if islower c then c - 0x20 else c

def upcase (s : List UInt8) : List UInt8 := s.map toupper

def BAR : UInt8 := 0x7c
def COLON : UInt8 := 0x3a
def SP : UInt8 := 0x20

def name_unknown : List UInt8 := text "UNKNOWN"

/-! ## mklist -/

/-- argv, while mklist fills it. -/
structure Argv where
  /-- *argv -/
  front : Option (List UInt8)
  /-- argv + 1, up to argvp. -/
  names : List (List UInt8)
  /-- argv[1] == buf -/
  atBuf : Bool

def isUnique (name : List UInt8) (as : List (List UInt8)) : Bool := as.all fun ap => !strcaseeq ap name

/-- A name from cp2 on has ended. `start`: cp2 is buf. -/
def Argv.add (name : Option (List UInt8)) (word : List UInt8) (n start : Bool) (a : Argv) : Argv :=
  if n ∨ word.length > 40 then a
  else if name.any (strcaseeq · word) then { a with front := some word }
  else if isUnique word a.names then
    { a with names := a.names ++ [word], atBuf := if a.names.isEmpty then start else a.atBuf }
  else a

/-- A space, or not ASCII. -/
def verbose (c : UInt8) : Bool := c == SP || c ≥ 0x80

/-- The loop over buf, with the name that starts at cp2 as far as it goes. `skip`: the bars after a
    name are skipped; where they are the end of buf, cp steps over it. -/
def mklistLoop (name : Option (List UInt8)) : List UInt8 → Bool → List UInt8 → Bool → Bool → Argv → Option Argv
  | [], skip, _, _, _, a => if skip then none else some a
  | c :: rest, true, word, n, start, a =>
    if c = BAR then mklistLoop name rest true word n start a
    else mklistLoop name rest false [toupper c] (verbose c) false a
  | c :: rest, false, word, n, start, a =>
    if c = COLON then some (a.add name word n start)
    else if c = BAR then mklistLoop name rest true [] false false (a.add name word n start)
    else mklistLoop name rest false (word ++ [toupper c]) (n || verbose c) start a

/-- An old name of two characters goes to the end. -/
def Argv.moveOld (a : Argv) : List (List UInt8) :=
  if a.atBuf ∧ (a.names.headD []).length = 2 then a.names.tail ++ a.names.take 1 else a.names

/-- The last name stands twice. -/
def dupLast (names : List (List UInt8)) : List (List UInt8) := names ++ names.getLast?.toList

/-- argv in the end. `name` is TERM. Without any name in front argv is shifted down, but for its
    end: the last name stands three times. -/
def Argv.list (name : Option (List UInt8)) (a : Argv) : List (List UInt8) :=
  match a.front, name with
  | some front, _ => dupLast (front :: a.moveOld)
  | none, some name => name :: dupLast a.moveOld
  | none, none => if a.moveOld.isEmpty then [name_unknown] else dupLast (dupLast a.moveOld)

/-- TERM in capitals, unless it is too long. -/
def termName (name : Option (List UInt8)) : Option (List UInt8) := (name.filter (·.length ≤ 40)).map upcase

/-- `buf` is the entry for TERM. -/
def mklist (buf : List UInt8) (name : Option (List UInt8)) : Option (List (List UInt8)) :=
  (mklistLoop (termName name) buf false [] false true ⟨none, [], false⟩).map (Argv.list (termName name))

/-! ## gettermname -/

/-- `next` is what is left of tnamep. -/
structure Termname where
  tnamep : List (List UInt8)
  next : List (List UInt8)
  ne : tnamep ≠ []

/-- The list without an entry for TERM. -/
def unknownList (tname : Option (List UInt8)) : List (List UInt8) :=
  [(termName tname).getD name_unknown]

/-- The next name, and from the start again after the last one. -/
def Termname.gettermname (s : Termname) : List UInt8 × Termname :=
  match s.next with
  | [] => (s.tnamep.head s.ne, { s with next := s.tnamep.tail })
  | name :: next => (name, { s with next := next })

/-! ## The list -/

/-- The names differ in more than case. -/
def Apart (names : List (List UInt8)) : Prop := names.Pairwise fun v w => strcaseeq v w = false

/-- A name that fits in the answer, without what has a meaning in telnet. -/
def Fit (word : List UInt8) : Prop := word.length ≤ 40 ∧ ∀ c ∈ word, c < 0x80

structure Argv.Ok (name : Option (List UInt8)) (a : Argv) : Prop where
  apart : Apart a.names
  other : ∀ w ∈ a.names, name.any (strcaseeq · w) = false
  fit : ∀ w ∈ a.names, Fit w
  front : ∀ w ∈ a.front, Fit w ∧ name.any (strcaseeq · w) = true

theorem strcaseeq_iff {v w : List UInt8} : strcaseeq v w = true ↔ v.map tolower = w.map tolower := beq_iff_eq

theorem strcaseeq_comm (v w : List UInt8) : strcaseeq v w = strcaseeq w v := by
  rw [Bool.eq_iff_iff, strcaseeq_iff, strcaseeq_iff]
  exact eq_comm

theorem toupper_ascii {c : UInt8} (h : verbose c = false) : toupper c < 0x80 := by
  obtain ⟨b⟩ := c
  revert b
  decide +kernel

variable {name : Option (List UInt8)} {a : Argv}

theorem Argv.Ok.add {word : List UInt8} {n start : Bool} (h : a.Ok name) (hword : n = false → ∀ c ∈ word, c < 0x80) :
    (a.add name word n start).Ok name := by
  unfold Argv.add
  split
  · exact h
  rename_i hshort
  obtain ⟨hn, hlen⟩ := not_or.mp hshort
  have hfit : Fit word := ⟨by omega, hword (Bool.eq_false_iff.mpr hn)⟩
  split
  · rename_i hname
    refine ⟨h.apart, h.other, h.fit, ?_⟩
    rintro w hw
    obtain rfl := Option.mem_some.mp hw
    exact ⟨hfit, hname⟩
  rename_i hname
  split
  · rename_i hunique
    have hnew : ∀ v ∈ a.names, strcaseeq v word = false := by
      intro v hv
      have := List.all_eq_true.mp hunique v hv
      exact Bool.not_eq_true' _ ▸ this
    refine ⟨List.pairwise_append.mpr ⟨h.apart, List.pairwise_singleton _ _, ?_⟩, ?_, ?_, h.front⟩
    · intro v hv w hw
      obtain rfl := List.mem_singleton.mp hw
      exact hnew v hv
    · intro w hw
      rcases List.mem_append.mp hw with hw | hw
      · exact h.other w hw
      · obtain rfl := List.mem_singleton.mp hw
        exact Bool.eq_false_iff.mpr hname
    · intro w hw
      rcases List.mem_append.mp hw with hw | hw
      · exact h.fit w hw
      · obtain rfl := List.mem_singleton.mp hw
        exact hfit
  · exact h

theorem Argv.Ok.loop {buf word : List UInt8} {skip n start : Bool} {b : Argv} (h : a.Ok name)
    (hword : n = false → ∀ c ∈ word, c < 0x80) (hloop : mklistLoop name buf skip word n start a = some b) :
    b.Ok name := by
  have hnil : false = false → ∀ c ∈ ([] : List UInt8), c < 0x80 := fun _ => nofun
  induction buf generalizing skip word n start a with
  | nil =>
    cases skip with
    | true => cases hloop
    | false =>
      obtain rfl := Option.some.inj hloop
      exact h
  | cons c rest ih =>
    cases skip with
    | true =>
      rw [mklistLoop] at hloop
      split at hloop
      · exact ih h hword hloop
      · refine ih h ?_ hloop
        intro hc d hd
        obtain rfl := List.mem_singleton.mp hd
        exact toupper_ascii hc
    | false =>
      rw [mklistLoop] at hloop
      split at hloop
      · obtain rfl := Option.some.inj hloop
        exact h.add hword
      split at hloop
      · exact ih (h.add hword) hnil hloop
      · refine ih h ?_ hloop
        intro hn d hd
        obtain ⟨hn, hc⟩ := Bool.or_eq_false_iff.mp hn
        rcases List.mem_append.mp hd with hd | hd
        · exact hword hn d hd
        · obtain rfl := List.mem_singleton.mp hd
          exact toupper_ascii hc

theorem apart_perm {v w : List (List UInt8)} (h : v.Perm w) (hv : Apart v) : Apart w :=
  (h.pairwise_iff fun {x y} hxy => (strcaseeq_comm y x).trans hxy).mp hv

theorem moveOld_perm (a : Argv) : a.moveOld.Perm a.names := by
  unfold Argv.moveOld
  split
  · cases a.names with
    | nil => exact .refl _
    | cons w names => exact List.perm_append_singleton w names
  · exact .refl _

/-- The list of names: telnet begins with what is TERM, and says the last name twice, before
    anything else that it says again. -/
structure Listed (name : Option (List UInt8)) (names l : List (List UInt8)) : Prop where
  ne : names ≠ []
  apart : Apart names
  short : ∀ w ∈ names, w.length ≤ 40
  term : ∀ n ∈ name, ∀ w ∈ names.head?, strcaseeq n w = true
  twice : (∃ again, l = dupLast names ++ again ∧ again ⊆ names) ∨ l = names ∧ names.length = 1

theorem dupLast_cons (w : List UInt8) {names : List (List UInt8)} (h : names ≠ []) :
    dupLast (w :: names) = w :: dupLast names := by
  obtain ⟨v, names, rfl⟩ := List.exists_cons_of_ne_nil h
  rw [dupLast, dupLast, List.getLast?_cons_cons]
  rfl

theorem last_subset (names : List (List UInt8)) : names.getLast?.toList ⊆ names := fun _ hw =>
  List.mem_of_getLast? (Option.mem_toList.mp hw)

theorem listed_one {name : Option (List UInt8)} {w : List UInt8} (hw : w.length ≤ 40)
    (hterm : ∀ n ∈ name, strcaseeq n w = true) : Listed name [w] [w] := by
  refine ⟨List.cons_ne_nil _ _, List.pairwise_singleton _ _, ?_, ?_, .inr ⟨rfl, rfl⟩⟩
  · intro v hv
    obtain rfl := List.mem_singleton.mp hv
    exact hw
  · intro n hn v hv
    obtain rfl := Option.mem_some.mp hv
    exact hterm n hn

theorem strcaseeq_refl (w : List UInt8) : strcaseeq w w = true := strcaseeq_iff.mpr rfl

/-- A name in front of others that are apart from TERM. -/
theorem listed_cons {name : Option (List UInt8)} {w : List UInt8} {names l : List (List UInt8)} (hname : name ≠ none)
    (hw : w.length ≤ 40) (hterm : ∀ n ∈ name, strcaseeq n w = true) (hapart : Apart names)
    (hshort : ∀ v ∈ names, v.length ≤ 40) (hother : ∀ v ∈ names, name.any (strcaseeq · v) = false)
    (htwice : l = dupLast (w :: names)) : Listed name (w :: names) l := by
  obtain ⟨n, rfl⟩ := Option.ne_none_iff_exists'.mp hname
  have hnw : strcaseeq n w = true := hterm n rfl
  refine ⟨List.cons_ne_nil _ _, List.pairwise_cons.mpr ⟨?_, hapart⟩, ?_, ?_, .inl ⟨[], ?_, List.nil_subset _⟩⟩
  · intro v hv
    have hnv : strcaseeq n v = false := hother v hv
    rw [Bool.eq_false_iff, Ne, strcaseeq_iff] at hnv ⊢
    rw [strcaseeq_iff] at hnw
    rwa [← hnw]
  · intro v hv
    rcases List.mem_cons.mp hv with rfl | hv
    · exact hw
    · exact hshort v hv
  · intro m hm v hv
    obtain rfl := Option.mem_some.mp hm
    obtain rfl := Option.mem_some.mp hv
    exact hnw
  · rw [List.append_nil]
    exact htwice

theorem length_termName (name : Option (List UInt8)) : ∀ n ∈ termName name, n.length ≤ 40 := by
  intro n hn
  obtain ⟨m, hm, rfl⟩ := Option.map_eq_some_iff.mp hn
  obtain ⟨-, hlen⟩ := Option.filter_eq_some_iff.mp hm
  rw [upcase, List.length_map]
  exact of_decide_eq_true hlen

theorem listed_list {name : Option (List UInt8)} {a : Argv} (hname : ∀ n ∈ name, n.length ≤ 40) (hok : a.Ok name) :
    ∃ names, Listed name names (a.list name) := by
  have hperm := moveOld_perm a
  have hapart : Apart a.moveOld := apart_perm hperm.symm hok.apart
  have hshort : ∀ w ∈ a.moveOld, w.length ≤ 40 := fun w hw => (hok.fit w (hperm.mem_iff.mp hw)).1
  have hother : ∀ w ∈ a.moveOld, name.any (strcaseeq · w) = false := fun w hw => hok.other w (hperm.mem_iff.mp hw)
  unfold Argv.list
  rcases hfront : a.front with _ | front <;> rcases name with _ | n <;> dsimp only
  · by_cases hnil : a.moveOld = []
    · rw [hnil]
      exact ⟨[name_unknown], listed_one (by decide) nofun⟩
    · have hfull : ¬ a.moveOld.isEmpty = true := fun he => hnil (List.isEmpty_iff.mp he)
      rw [if_neg hfull]
      refine ⟨a.moveOld, hnil, hapart, hshort, nofun, .inl ⟨_, rfl, ?_⟩⟩
      -- the last of these is the last again
      rw [dupLast]
      exact List.Subset.trans (last_subset _) (List.append_subset.mpr ⟨List.Subset.refl _, last_subset _⟩)
  · have hn : ∀ m ∈ some n, strcaseeq m n = true := by
      intro m hm
      obtain rfl := Option.mem_some.mp hm
      exact strcaseeq_refl _
    by_cases hnil : a.moveOld = []
    · rw [hnil]
      exact ⟨[n], listed_one (hname n rfl) hn⟩
    · exact ⟨n :: a.moveOld, listed_cons nofun (hname n rfl) hn hapart hshort hother (dupLast_cons n hnil).symm⟩
  · have hnone := (hok.front front (by rw [hfront]; rfl)).2
    cases hnone
  · obtain ⟨hfit, hterm⟩ := hok.front front (by rw [hfront]; rfl)
    refine ⟨front :: a.moveOld, listed_cons nofun hfit.1 ?_ hapart hshort hother rfl⟩
    intro m hm
    obtain rfl := Option.mem_some.mp hm
    exact hterm

theorem mklist_spec {buf : List UInt8} {name : Option (List UInt8)} {l : List (List UInt8)} (h : mklist buf name = some l) :
    ∃ names, Listed (termName name) names l := by
  obtain ⟨a, hloop, rfl⟩ := Option.map_eq_some_iff.mp h
  have hstart : Argv.Ok (termName name) ⟨none, [], false⟩ := by
    refine ⟨List.Pairwise.nil, ?_, ?_, ?_⟩ <;> intro w hw <;> cases hw
  exact listed_list (length_termName _) (hstart.loop (fun _ _ hc => absurd hc List.not_mem_nil) hloop)

theorem unknown_spec (name : Option (List UInt8)) : Listed (termName name) (unknownList name) (unknownList name) := by
  have hlen := length_termName name
  unfold unknownList
  generalize termName name = name at hlen
  rcases name with _ | n
  · exact listed_one (by decide) nofun
  · refine listed_one (hlen n rfl) fun m hm => ?_
    obtain rfl := Option.mem_some.mp hm
    exact strcaseeq_refl _

/-! ## Entries -/

/-- The names of an entry, up to the colon in front of the capabilities. -/
structure Entry (names caps : List UInt8) : Prop where
  colon : COLON ∉ names
  bar : names.getLast? ≠ some BAR

theorem length_add (name : Option (List UInt8)) (word : List UInt8) (n start : Bool) (a : Argv) :
    (a.add name word n start).names.length ≤ a.names.length + 1 := by
  unfold Argv.add
  split
  · omega
  split
  · exact Nat.le_succ _
  split
  · simp
  · omega

/-- The loop ends at the colon, with no more names than mklist has counted. -/
theorem loop_ends (name : Option (List UInt8)) {names caps : List UInt8} (h : Entry names caps) (skip : Bool)
    (hskip : skip = true → names ≠ []) (word : List UInt8) (n start : Bool) (a : Argv) :
    ∃ b, mklistLoop name (names ++ COLON :: caps) skip word n start a = some b ∧
      b.names.length ≤ a.names.length + names.count BAR + 1 := by
  induction names generalizing skip word n start a with
  | nil =>
    have hno : skip = false := Bool.eq_false_iff.mpr fun h => hskip h rfl
    rw [hno, List.nil_append, mklistLoop, if_pos rfl]
    exact ⟨_, rfl, length_add name word n start a⟩
  | cons c names ih =>
    have hcolon : c ≠ COLON := fun hc => h.colon (hc ▸ List.mem_cons_self)
    -- what is left is an entry too, and does not end with this bar
    have hrest : Entry names caps := by
      refine ⟨fun hm => h.colon (List.mem_cons_of_mem c hm), fun hbar => h.bar ?_⟩
      rw [List.getLast?_cons, hbar]
      rfl
    have hmore : c = BAR → names ≠ [] := by
      rintro rfl rfl
      exact h.bar rfl
    rw [List.cons_append]
    by_cases hbar : c = BAR
    · have hcount : (c :: names).count BAR = names.count BAR + 1 := by rw [hbar, List.count_cons_self]
      cases skip with
      | true =>
        obtain ⟨b, hb, hlen⟩ := ih hrest true (fun _ => hmore hbar) word n start a
        rw [mklistLoop, if_pos hbar]
        exact ⟨b, hb, by omega⟩
      | false =>
        obtain ⟨b, hb, hlen⟩ := ih hrest true (fun _ => hmore hbar) [] false false (a.add name word n start)
        have hadd := length_add name word n start a
        rw [mklistLoop, if_neg hcolon, if_pos hbar]
        exact ⟨b, hb, by omega⟩
    · have hcount : (c :: names).count BAR = names.count BAR := List.count_cons_of_ne hbar
      cases skip with
      | true =>
        obtain ⟨b, hb, hlen⟩ := ih hrest false nofun [toupper c] (verbose c) false a
        rw [mklistLoop, if_neg hbar]
        exact ⟨b, hb, by omega⟩
      | false =>
        obtain ⟨b, hb, hlen⟩ := ih hrest false nofun (word ++ [toupper c]) (n || verbose c) start a
        rw [mklistLoop, if_neg hcolon, if_neg hbar]
        exact ⟨b, hb, by omega⟩

end Netutils.Telnet
