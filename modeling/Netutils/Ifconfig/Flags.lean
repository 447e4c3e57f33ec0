/-
  Netutils.Ifconfig.Flags — the names of interface flags (ifconfig/flags.c).

  The loops stop at an entry without a name, which the table does not have: a flag or a name
  that is not in it leads behind its end. The search for a better name goes on from the first
  match without a look at the mask, and takes a name for avoided only where it occurs first in
  the list. Where the lookups stay in the table and find what they are to find is
  `lookups_iff`.
-/

import Netutils.Lib.Faults
import Netutils.Lib.Preference
import Netutils.Libc.Ctype

namespace Netutils.Ifconfig

open Netutils.Lib Netutils.Lib.Faults Netutils.Libc

/-! ## if_flags -/

abbrev Str := List UInt8

structure IfFlag where
  name : Str
  mask : BitVec 32
  deriving DecidableEq

/-- An entry as the file has it, with the macro of its mask behind IFF_; for D1/SNAP it has to
    be there, or the file does not compile. -/
structure Source where
  name : String
  mask : String := name
  /-- `# if` of two macros, which have to have one value. -/
  same : Option (String × String) := none

def sources : List Source :=
  [{ name := "UP" }, { name := "BROADCAST" }, { name := "DEBUG" }, { name := "LOOPBACK" }, { name := "POINTOPOINT" },
   { name := "RUNNING" }, { name := "NOARP" }, { name := "PROMISC" }, { name := "ALLMULTI" }, { name := "MULTICAST" },
   { name := "NOTRAILERS" }, { name := "MASTER" }, { name := "SLAVE" }, { name := "PORTSEL" }, { name := "AUTOMEDIA" },
   { name := "DYNAMIC" }, { name := "OACTIVE" }, { name := "SIMPLEX" }, { name := "LINK0" }, { name := "LINK1" },
   { name := "LINK2/ALTPHYS", mask := "LINK2", same := some ("LINK2", "ALTPHYS") }, { name := "LINK2" }, { name := "ALTPHYS" },
   { name := "INTELLIGENT" }, { name := "MULTI_BCAST" }, { name := "UNNUMBERED" }, { name := "DHCPRUNNING" },
   { name := "PRIVATE" }, { name := "NOTRAILERS" }, { name := "LOCALSUBNETS" }, { name := "CKO" }, { name := "NOACC" },
   { name := "OACTIVE" }, { name := "NOSR8025" }, { name := "CKO_ETC" }, { name := "AR_SR8025" }, { name := "ALT_SR8025" },
   { name := "PFCOPYALL" }, { name := "UIOMOVE" }, { name := "PKTOK" }, { name := "SOCKBUF" }, { name := "VAR_MTU" },
   { name := "NOCHECKSUM" }, { name := "MULTINET" }, { name := "VMIFNET" },
   { name := "D1/SNAP", mask := "D2", same := some ("D1", "SNAP") }, { name := "D2" }, { name := "SNAP" }, { name := "D2" }]

/-- The macros IFF_…, as far as the system defines them. -/
abbrev Macros := String → Option (BitVec 32)

def Source.included (iff : Macros) (s : Source) : Bool :=
  match s.same with
  | none => true
  | some (a, b) => (iff a).isSome && iff a == iff b

def Source.entry (iff : Macros) (s : Source) : Option IfFlag :=
  if s.included iff then (iff s.mask).map fun mask => ⟨text s.name, mask⟩ else none

def ifFlags (iff : Macros) : List IfFlag := sources.filterMap (Source.entry iff)

/-! ## if_flagtoname, if_nametoflag, print_if_flags -/

inductive FlagFault where
  /-- Behind the last entry of if_flags. -/
  | if_flags
  /-- Before the first character of avoid. -/
  | avoid
  deriving DecidableEq

def COLON : UInt8 := 0x3a

/-- strstr: where the text begins first. -/
def strstr (s t : Str) : Option Nat := (List.range (s.length + 1)).find? fun i => t.isPrefixOf (s.drop i)

/-- `while (fp->name)`: fp goes from entry to entry, and only a match ends the loop. -/
def firstMatch (flag : BitVec 32) : List IfFlag → Except FlagFault (IfFlag × List IfFlag)
  | [] => .error .if_flags
  | fp :: rest => if flag = fp.mask then .ok (fp, rest) else firstMatch flag rest

/-- "Look for a better one." -/
def better (avoid : Str) : List IfFlag → Except FlagFault Str
  | [] => .error .if_flags
  | fp :: rest =>
    match strstr avoid fp.name with
    | none => .ok fp.name
    | some 0 => .error .avoid
    | some (start + 1) =>
      if avoid.getD start 0 ≠ COLON ∨ avoid.getD (start + 1 + fp.name.length) 0 ≠ COLON then .ok fp.name else better avoid rest

/-- if_flagtoname -/
def ifFlagtoname (iff : Macros) (flag : BitVec 32) (avoid : Option Str) : Except FlagFault (Option Str) := do
  let (fp, rest) ← firstMatch flag (ifFlags iff)
  match avoid with
  | none => return some fp.name
  | some avoid => some <$> better avoid (fp :: rest)

def nametoflagLoop (name : Str) : List IfFlag → Except FlagFault (BitVec 32)
  | [] => .error .if_flags
  | fp :: rest => if strcaseeq name fp.name then .ok fp.mask else nametoflagLoop name rest

/-- if_nametoflag -/
def ifNametoflag (iff : Macros) (name : Str) : Except FlagFault (BitVec 32) := nametoflagLoop name (ifFlags iff)

/-- The variables of print_if_flags, with what is printed. -/
structure Printing where
  flags : BitVec 32
  first : Bool := true
  length : Nat := 0
  out : Str := []

/-- Behind a separator, unless it is the first. -/
def Printing.put (p : Printing) (seperator : UInt8) (s : Str) : Printing :=
  let p := if p.first then p else { p with out := p.out ++ [seperator], length := p.length + 1 }
  { p with out := p.out ++ s, length := p.length + s.length }

/-- `while (flags && f)`, for the turns until `f` is shifted out. -/
def flagsLoop (iff : Macros) (avoid : Option Str) (seperator : UInt8) : Nat → BitVec 32 → Printing → Except FlagFault Printing
  | 0, _, p => .ok p
  | n + 1, f, p =>
    if p.flags ≠ 0 ∧ f ≠ 0 then do
      if f &&& p.flags ≠ 0 then
        let name ← ifFlagtoname iff f avoid
        match name with
        | some name => flagsLoop iff avoid seperator n (f <<< 1) { p.put seperator name with flags := p.flags &&& ~~~ f, first := false }
        | none => flagsLoop iff avoid seperator n (f <<< 1) p
      else flagsLoop iff avoid seperator n (f <<< 1) p
    else .ok p

/-- `%#x` of a number that is not zero -/
def hex (n : BitVec 32) : Str := text "0x" ++ (Nat.toDigits 16 n.toNat).map fun c => UInt8.ofNat c.toNat

/-- print_if_flags: what is printed, and the result. -/
def printIfFlags (iff : Macros) (flags : BitVec 32) (avoid : Option Str) (seperator : UInt8) : Except FlagFault (Str × Nat) := do
  let p ← flagsLoop iff avoid seperator 32 1 { flags }
  let p := if p.flags ≠ 0 then p.put seperator (hex p.flags) else p
  return (p.out, p.length)

/-! ## What they are to do -/

/-- "a ':' surrounded and seperated list of flag names" -/
structure Avoid where
  names : List Str
  plain : ∀ n ∈ names, COLON ∉ n ∧ 0 ∉ n

def Avoid.text (a : Avoid) : Str := COLON :: a.names.flatMap (· ++ [COLON])

def Avoided (avoid : Option Avoid) (e : IfFlag) : Bool := avoid.any fun a => decide (e.name ∈ a.names)

/-- The first entry with that mask that is not in the list, or the first if all are. -/
def wanted (iff : Macros) (flag : BitVec 32) (avoid : Option Avoid) : Option IfFlag :=
  Preference.preferred (fun e => decide (e.mask = flag)) (Avoided avoid) (ifFlags iff)

/-- The test of the better match: where the name occurs first there are colons around it. -/
def hidden (avoid : Option Avoid) (e : IfFlag) : Bool :=
  avoid.any fun a => (strstr a.text e.name).any fun start =>
    a.text.getD (start - 1) 0 = COLON && a.text.getD (start + e.name.length) 0 = COLON

/-- The entry at which the search ends, past those that pass the test. -/
def End (iff : Macros) (flag : BitVec 32) (avoid : Option Avoid) (e : IfFlag) : Prop :=
  Preference.walk (fun e => decide (e.mask = flag)) (hidden avoid) (ifFlags iff) = some e

/-- It has the mask, and is not to be avoided or cannot be. -/
def Suits (iff : Macros) (flag : BitVec 32) (avoid : Option Avoid) (e : IfFlag) : Prop :=
  e.mask = flag ∧ (Avoided avoid e = false ∨
    (∀ x ∈ ifFlags iff, x.mask = flag → Avoided avoid x = true) ∧ (ifFlags iff).find? (fun x => decide (x.mask = flag)) = some e)

/-! ## The table -/

variable {iff : Macros} {flag : BitVec 32} {avoid : Option Avoid} {e e' : IfFlag} {l : List IfFlag} {name : Str}

theorem mem_ifFlags (h : e ∈ ifFlags iff) : ∃ s ∈ sources, e.name = text s.name ∧ iff s.mask = some e.mask := by
  obtain ⟨s, hs, hentry⟩ := List.mem_filterMap.mp h
  rw [Source.entry] at hentry
  split at hentry
  · obtain ⟨mask, hmask, rfl⟩ := Option.map_eq_some_iff.mp hentry
    exact ⟨s, hs, rfl, hmask⟩
  · cases hentry

theorem plain_sources : ∀ s ∈ sources, text s.name ≠ [] ∧ COLON ∉ text s.name := by decide +kernel

theorem sources_mask : ∀ s ∈ sources, ∀ t ∈ sources, strcaseeq (text s.name) (text t.name) = true → s.mask = t.mask := by
  decide +kernel

theorem plain_name (h : e ∈ ifFlags iff) : e.name ≠ [] ∧ COLON ∉ e.name := by
  obtain ⟨s, hs, hname, -⟩ := mem_ifFlags h
  rw [hname]
  exact plain_sources s hs

/-- One name, one mask. -/
theorem mask_eq (h : e ∈ ifFlags iff) (h' : e' ∈ ifFlags iff) (hname : strcaseeq e.name e'.name = true) : e.mask = e'.mask := by
  obtain ⟨s, hs, hs', hmask⟩ := mem_ifFlags h
  obtain ⟨t, ht, ht', hmask'⟩ := mem_ifFlags h'
  rw [hs', ht'] at hname
  rw [sources_mask s hs t ht hname, hmask'] at hmask
  exact (Option.some.inj hmask).symm

theorem strcaseeq_refl (s : Str) : strcaseeq s s = true := beq_self_eq_true _

theorem entry_eq (h : e ∈ ifFlags iff) (h' : e' ∈ ifFlags iff) (hname : e.name = e'.name) : e = e' := by
  have hmask := mask_eq h h' (by rw [hname]; exact strcaseeq_refl _)
  cases e
  cases e'
  congr

/-! ## The list of names to avoid -/

theorem strstr_spec {s t : Str} {i : Nat} (h : strstr s t = some i) : t <+: s.drop i := by
  have hprefix := List.find?_some h
  exact List.isPrefixOf_iff_prefix.mp hprefix

/-- What stands between two colons of the list and has none is one of the names. -/
theorem mem_names {names : List Str} (hplain : ∀ n ∈ names, COLON ∉ n) (hname : COLON ∉ name) {before after : Str}
    (h : COLON :: names.flatMap (· ++ [COLON]) = before ++ COLON :: (name ++ COLON :: after)) : name ∈ names := by
  induction names generalizing before with
  | nil =>
    have hlen := congrArg List.length h
    simp only [List.flatMap_nil, List.length_cons, List.length_nil, List.length_append] at hlen
    omega
  | cons n names ih =>
    have hn := hplain n List.mem_cons_self
    replace ih := @ih fun n hn => hplain n (List.mem_cons_of_mem _ hn)
    rw [List.flatMap_cons, List.append_assoc, List.singleton_append] at h
    cases before with
    | nil =>
      -- the first name
      have heq := (List.cons.inj h).2
      have hspan := congrArg (List.takeWhile (· != COLON)) heq
      have hstop : ∀ {t rest : Str}, COLON ∉ t → (t ++ COLON :: rest).takeWhile (· != COLON) = t := fun ht =>
        (span_append (p := (· != COLON)) (fun c hc => bne_iff_ne.mpr fun hcolon => ht (hcolon ▸ hc)) rfl).1
      rw [hstop hn, hstop hname] at hspan
      exact hspan ▸ List.mem_cons_self
    | cons b before =>
      have heq := (List.cons.inj h).2
      rcases List.append_eq_append_iff.mp heq with ⟨c, -, hc⟩ | ⟨c, hc, hrest⟩
      · exact List.mem_cons_of_mem _ (ih hc)
      · cases c with
        | nil => exact List.mem_cons_of_mem _ (@ih [] hrest.symm)
        | cons d c =>
          obtain rfl := (List.cons.inj hrest).1
          exact absurd (hc ▸ List.mem_append_right before List.mem_cons_self) hn

theorem strstr_pos {a : Avoid} (he : e ∈ ifFlags iff) : strstr a.text e.name ≠ some 0 := by
  intro h
  obtain ⟨tail, htail⟩ := strstr_spec h
  obtain ⟨hne, hcolon⟩ := plain_name he
  obtain ⟨c, name, hname⟩ := List.exists_cons_of_ne_nil hne
  rw [hname, List.drop_zero, Avoid.text] at htail
  apply hcolon
  rw [hname, (List.cons.inj htail).1]
  exact List.mem_cons_self

theorem getElem?_of_getD {s : Str} {i : Nat} (h : s.getD i 0 = COLON) : s[i]? = some COLON := by
  rw [List.getD_eq_getElem?_getD] at h
  cases hget : s[i]? with
  | none => rw [hget] at h; cases h
  | some c => rw [hget] at h; exact congrArg some h

theorem mem_of_hidden (he : e ∈ ifFlags iff) (h : hidden avoid e = true) : Avoided avoid e = true := by
  cases avoid with
  | none => cases h
  | some a =>
    rw [hidden, Option.any_some] at h
    cases hstart : strstr a.text e.name with
    | none => rw [hstart] at h; cases h
    | some start =>
      rw [hstart, Option.any_some] at h
      obtain ⟨hbefore, hafter⟩ := Bool.and_eq_true_iff.mp h
      cases start with
      | zero => exact absurd hstart (strstr_pos he)
      | succ k =>
        have hk : a.text[k]? = some COLON := getElem?_of_getD (of_decide_eq_true hbefore)
        have hend := getElem?_of_getD (of_decide_eq_true hafter)
        obtain ⟨tail, htail⟩ := strstr_spec hstart
        -- the text is cut at the colon before the name and at the one behind it
        have hhead : a.text.drop k = COLON :: a.text.drop (k + 1) := by
          rw [List.drop_eq_getElem_cons (List.getElem?_eq_some_iff.mp hk).1, (List.getElem?_eq_some_iff.mp hk).2]
        obtain ⟨after, rfl⟩ : ∃ after, tail = COLON :: after := by
          rw [← List.head?_eq_some_iff, ← hend, List.head?_eq_getElem?, ← List.getElem?_drop, ← htail, List.getElem?_append_right]
          · rw [Nat.sub_self]
          · exact Nat.le_refl _
        apply decide_eq_true
        have hcut : a.text = a.text.take k ++ COLON :: (e.name ++ COLON :: after) := by
          rw [htail, ← hhead, List.take_append_drop]
        exact mem_names (fun n hn => (a.plain n hn).1) (plain_name he).2 hcut

/-! ## Reads -/

theorem firstMatch_eq (flag : BitVec 32) (l : List IfFlag) : firstMatch flag l =
    match l.dropWhile (fun e => !decide (e.mask = flag)) with
    | [] => .error .if_flags
    | fp :: rest => .ok (fp, rest) := by
  induction l with
  | nil => rfl
  | cons fp l ih =>
    rw [firstMatch]
    by_cases hfp : flag = fp.mask
    · rw [if_pos hfp, List.dropWhile_cons_of_neg (by simp [hfp])]
    · rw [if_neg hfp, List.dropWhile_cons_of_pos (by simpa using fun h => hfp h.symm)]
      exact ih

theorem returns_better {a : Avoid} {P : Str → Prop} (hl : ∀ e ∈ l, e ∈ ifFlags iff) :
    Returns P (better a.text l) ↔ ∃ e, (l.dropWhile (hidden (some a))).head? = some e ∧ P e.name := by
  induction l with
  | nil => exact iff_of_false id fun h => by obtain ⟨e, he, -⟩ := h; cases he
  | cons fp l ih =>
    have hstop : hidden (some a) fp = false →
        (P fp.name ↔ ∃ e, ((fp :: l).dropWhile (hidden (some a))).head? = some e ∧ P e.name) := by
      intro hfp
      rw [List.dropWhile_cons_of_neg (by rw [hfp]; exact Bool.false_ne_true)]
      simp only [List.head?_cons, Option.some.injEq, exists_eq_left']
    rw [better]
    cases hstart : strstr a.text fp.name with
    | none =>
      apply hstop
      rw [hidden, Option.any_some, hstart]
      rfl
    | some start =>
      cases start with
      | zero => exact absurd hstart (strstr_pos (hl fp List.mem_cons_self))
      | succ k =>
        have hfp : hidden (some a) fp =
            (decide (a.text.getD k 0 = COLON) && decide (a.text.getD (k + 1 + fp.name.length) 0 = COLON)) := by
          rw [hidden, Option.any_some, hstart]
          rfl
        by_cases hcolons : a.text.getD k 0 ≠ COLON ∨ a.text.getD (k + 1 + fp.name.length) 0 ≠ COLON
        · simp only [if_pos hcolons]
          apply hstop
          rw [hfp, ← Bool.decide_and, decide_eq_false_iff_not, not_and_or]
          exact hcolons
        · simp only [if_neg hcolons]
          rw [not_or, not_not, not_not] at hcolons
          rw [List.dropWhile_cons_of_pos (by rw [hfp, decide_eq_true hcolons.1, decide_eq_true hcolons.2]; rfl)]
          exact ih fun e he => hl e (List.mem_cons_of_mem fp he)

theorem returns_ifFlagtoname {P : Option Str → Prop} : Returns P (ifFlagtoname iff flag (avoid.map Avoid.text)) ↔
    ∃ e, End iff flag avoid e ∧ P (some e.name) := by
  rw [ifFlagtoname, firstMatch_eq]
  simp only [End, Preference.walk, Preference.rest]
  cases hrest : (ifFlags iff).dropWhile fun e => !decide (e.mask = flag) with
  | nil => exact iff_of_false id fun h => by obtain ⟨e, he, -⟩ := h; cases he
  | cons fp rest =>
    cases avoid with
    | none =>
      rw [List.dropWhile_cons_of_neg Bool.false_ne_true]
      simp only [List.head?_cons, Option.some.injEq, exists_eq_left']
      exact Iff.rfl
    | some a =>
      have hl : ∀ e ∈ fp :: rest, e ∈ ifFlags iff := fun e he =>
        (List.dropWhile_sublist fun e => !decide (e.mask = flag)).subset (hrest ▸ he)
      show Returns P (some <$> better a.text (fp :: rest)) ↔ _
      rw [returns_map, returns_better hl]

theorem returns_nametoflagLoop {P : BitVec 32 → Prop} : Returns P (nametoflagLoop name l) ↔
    ∃ e, l.find? (fun e => strcaseeq name e.name) = some e ∧ P e.mask := by
  induction l with
  | nil => exact iff_of_false id fun h => by obtain ⟨e, he, -⟩ := h; cases he
  | cons fp l ih =>
    rw [nametoflagLoop]
    by_cases hfp : strcaseeq name fp.name = true
    · rw [if_pos hfp, List.find?_cons_of_pos (p := fun e : IfFlag => strcaseeq name e.name) hfp]
      simp only [Option.some.injEq, exists_eq_left']
      exact Iff.rfl
    · rw [if_neg hfp, List.find?_cons_of_neg (p := fun e : IfFlag => strcaseeq name e.name) hfp]
      exact ih

/-- The name of an entry leads back to its mask. -/
theorem ifNametoflag_name (he : e ∈ ifFlags iff) : ifNametoflag iff e.name = .ok e.mask := by
  have hreturns : Returns (fun mask => mask = e.mask) (ifNametoflag iff e.name) := by
    rw [ifNametoflag, returns_nametoflagLoop]
    cases hfind : (ifFlags iff).find? fun x => strcaseeq e.name x.name with
    | none => exact absurd (strcaseeq_refl e.name) (List.find?_eq_none.mp hfind e he)
    | some x =>
      have hx := List.find?_some hfind
      exact ⟨x, rfl, (mask_eq he (List.mem_of_find?_eq_some hfind) hx).symm⟩
  obtain ⟨mask, hmask, rfl⟩ := returns_iff_exists.mp hreturns
  exact hmask

/-! ## print_if_flags -/

theorem twoPow_succ {w : Nat} (k : Nat) : BitVec.twoPow w k <<< 1 = BitVec.twoPow w (k + 1) := by
  rw [BitVec.twoPow_eq, BitVec.twoPow_eq, BitVec.shiftLeft_add]

theorem twoPow_ne_zero {w k : Nat} (hk : k < w) : BitVec.twoPow w k ≠ 0 := by
  intro h
  have hbit := congrArg (fun x => BitVec.getLsbD x k) h
  simp only [BitVec.getLsbD_twoPow, BitVec.ofNat_eq_ofNat, BitVec.getLsbD_zero, decide_true, Bool.and_true,
    decide_eq_false_iff_not] at hbit
  exact hbit hk

/-- Every bit that is left is looked up, since a name takes away its own bit only. -/
theorem returns_flagsLoop {seperator : UInt8} {n : Nat} {p : Printing} (hn : n ≤ 32) :
    Returns (fun _ => True) (flagsLoop iff (avoid.map Avoid.text) seperator n (BitVec.twoPow 32 (32 - n)) p) ↔
      ∀ k < 32, 32 - n ≤ k → p.flags.getLsbD k = true → ∃ e, End iff (BitVec.twoPow 32 k) avoid e := by
  induction n generalizing p with
  | zero => exact iff_of_true trivial fun k hk hle => by omega
  | succ n ih =>
    have hnext : ∀ p, Returns (fun _ => True)
        (flagsLoop iff (avoid.map Avoid.text) seperator n (BitVec.twoPow 32 (32 - (n + 1)) <<< 1) p) ↔
        ∀ k < 32, 32 - n ≤ k → p.flags.getLsbD k = true → ∃ e, End iff (BitVec.twoPow 32 k) avoid e := by
      intro p
      rw [twoPow_succ, show 32 - (n + 1) + 1 = 32 - n by omega]
      exact ih (by omega)
    rw [flagsLoop]
    by_cases hflags : p.flags = 0
    · rw [if_neg fun h => h.1 hflags, hflags]
      exact iff_of_true trivial fun k _ _ hk => by rw [BitVec.ofNat_eq_ofNat, BitVec.getLsbD_zero] at hk; cases hk
    · have hone : BitVec.twoPow 32 (32 - (n + 1)) ≠ 0 := twoPow_ne_zero (by omega)
      rw [if_pos ⟨hflags, hone⟩, BitVec.twoPow_and]
      by_cases hbit : p.flags.getLsbD (32 - (n + 1)) = true
      · rw [if_pos hbit, if_pos hone, returns_bind, returns_ifFlagtoname]
        simp only [hnext]
        have hsame : ∀ k < 32, 32 - n ≤ k →
            (p.flags &&& ~~~ BitVec.twoPow 32 (32 - (n + 1))).getLsbD k = p.flags.getLsbD k := by
          intro k hk hle
          have hne : ¬ 32 - (n + 1) = k := by omega
          rw [BitVec.getLsbD_and, BitVec.getLsbD_not, BitVec.getLsbD_twoPow, decide_eq_false hne, decide_eq_true hk,
            Bool.and_false, Bool.not_false, Bool.and_true, Bool.and_true]
        constructor
        · intro h k hk hle hset
          obtain ⟨e, he, hrest⟩ := h
          rcases Nat.eq_or_lt_of_le hle with rfl | hlt
          · exact ⟨e, he⟩
          · exact hrest k hk (by omega) ((hsame k hk (by omega)).trans hset)
        · intro h
          obtain ⟨e, he⟩ := h (32 - (n + 1)) (by omega) (Nat.le_refl _) hbit
          exact ⟨e, he, fun k hk hle hset => h k hk (by omega) ((hsame k hk hle).symm.trans hset)⟩
      · rw [if_neg hbit, if_neg (fun h => h rfl), hnext]
        refine forall₂_congr fun k hk => ⟨fun h hle hset => ?_, fun h hle => h (by omega)⟩
        rcases Nat.eq_or_lt_of_le hle with rfl | hlt
        · exact absurd hset hbit
        · exact h (by omega) hset

/-! ## The lookups -/

/-- For every table that the macros make: the name of a flag is the one that is wanted, and
    leads back, if and only if the search ends at an entry, and at one that suits; a name is
    looked up in the table if and only if it is there, and a word of flags is printed if and
    only if the search ends at an entry for each of them. -/
theorem lookups_iff (iff : Macros) :
    (∀ flag avoid, (ifFlagtoname iff flag (avoid.map Avoid.text) = .ok ((wanted iff flag avoid).map IfFlag.name) ∧
        ∀ e, wanted iff flag avoid = some e → ifNametoflag iff e.name = .ok flag) ↔
      ∃ e, End iff flag avoid e ∧ Suits iff flag avoid e) ∧
    (∀ name, (∃ mask, ifNametoflag iff name = .ok mask) ↔ ∃ e ∈ ifFlags iff, strcaseeq name e.name = true) ∧
    ∀ flags avoid seperator, (∃ r, printIfFlags iff flags (avoid.map Avoid.text) seperator = .ok r) ↔
      ∀ k < 32, flags.getLsbD k = true → ∃ e, End iff (BitVec.twoPow 32 k) avoid e := by
  refine ⟨fun flag avoid => ?_, fun name => ?_, fun flags avoid seperator => ?_⟩
  · have hreturns : ∀ n, ifFlagtoname iff flag (avoid.map Avoid.text) = .ok n ↔ ∃ e, End iff flag avoid e ∧ some e.name = n := by
      intro n
      rw [← returns_ifFlagtoname (P := fun name => name = n), returns_iff_exists]
      exact ⟨fun h => ⟨n, h, rfl⟩, fun h => by obtain ⟨m, h, rfl⟩ := h; exact h⟩
    have hend : ∀ e, (End iff flag avoid e ∧ wanted iff flag avoid = some e) ↔ End iff flag avoid e ∧ Suits iff flag avoid e := by
      intro e
      have h : _ ∧ wanted iff flag avoid = some e ↔ _ := Preference.walk_preferred_iff fun x hx => mem_of_hidden hx
      simp only [decide_eq_true_eq] at h
      exact h
    constructor
    · intro h
      obtain ⟨hname, -⟩ := h
      obtain ⟨e, he, hname⟩ := (hreturns _).mp hname
      obtain ⟨w, hw, hname⟩ := Option.map_eq_some_iff.mp hname.symm
      obtain rfl : w = e := entry_eq ((Preference.mem_of_preferred hw)) (Preference.mem_of_walk he) hname
      exact ⟨w, (hend w).mp ⟨he, hw⟩⟩
    · intro h
      obtain ⟨e, he⟩ := h
      obtain ⟨he, hw⟩ := (hend e).mpr he
      refine ⟨(hreturns _).mpr ⟨e, he, by rw [hw]; rfl⟩, fun w hw' => ?_⟩
      obtain rfl := Option.some.inj (hw.symm.trans hw')
      have hmask := ((hend e).mp ⟨he, hw⟩).2.1
      rw [ifNametoflag_name (Preference.mem_of_walk he), hmask]
  · have hreturns : Returns (fun _ => True) (ifNametoflag iff name) ↔ _ := returns_nametoflagLoop
    rw [returns_iff_exists] at hreturns
    simp only [and_true] at hreturns
    rw [hreturns, ← Option.isSome_iff_exists, List.find?_isSome]
  · have hreturns : Returns (fun _ => True) (flagsLoop iff (avoid.map Avoid.text) seperator 32 1 { flags }) ↔ _ :=
      returns_flagsLoop (Nat.le_refl 32)
    simp only [Nat.sub_self, Nat.zero_le, forall_const] at hreturns
    rw [← hreturns, printIfFlags]
    cases flagsLoop iff (avoid.map Avoid.text) seperator 32 1 { flags } with
    | error => exact iff_of_false (fun h => by obtain ⟨r, hr⟩ := h; cases hr) id
    | ok p => exact iff_of_true ⟨_, rfl⟩ trivial

/-- The macros of FreeBSD, where two names share a mask. -/
def freeBSD : Macros := fun name => [("UP", 0x1), ("BROADCAST", 0x2), ("DEBUG", 0x4), ("LOOPBACK", 0x8), ("POINTOPOINT", 0x10),
  ("RUNNING", 0x40), ("NOARP", 0x80), ("PROMISC", 0x100), ("ALLMULTI", 0x200), ("OACTIVE", 0x400), ("SIMPLEX", 0x800),
  ("LINK0", 0x1000), ("LINK1", 0x2000), ("LINK2", 0x4000), ("ALTPHYS", 0x4000), ("MULTICAST", 0x8000)].lookup name

/-- EXPECT_ALTPHYS -/
def expectAltphys : Avoid := ⟨[text "LINK2/ALTPHYS", text "LINK2"], by decide⟩

def avoidUp : Avoid := ⟨[text "UP"], by decide⟩

/-- A flag and a name that are not in the table lead behind it; LINK2 is not taken for avoided,
    as it begins in LINK2/ALTPHYS first; and behind UP there is another flag. -/
theorem lookups_leave_the_table :
    ifFlagtoname freeBSD 0x10000 none = .error .if_flags ∧ ifNametoflag freeBSD (text "NONE") = .error .if_flags ∧
    printIfFlags freeBSD 0x10001 none 0x2c = .error .if_flags ∧
    ifFlagtoname freeBSD 0x4000 (some expectAltphys.text) = .ok (some (text "LINK2")) ∧
    (wanted freeBSD 0x4000 (some expectAltphys)).map IfFlag.name = some (text "ALTPHYS") ∧
    ifFlagtoname freeBSD 0x1 (some avoidUp.text) = .ok (some (text "BROADCAST")) ∧
    (wanted freeBSD 0x1 (some avoidUp)).map IfFlag.name = some (text "UP") := by
  decide +kernel

end Netutils.Ifconfig
