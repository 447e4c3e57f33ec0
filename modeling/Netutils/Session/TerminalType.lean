/-
  Netutils.Session.TerminalType — telnetd asks telnet for names of its terminal until it knows one.

  Of the names that telnet has, telnetd takes the first that it knows, and otherwise the first one:
  telnet says the last name twice, no other name comes twice in a row, and what comes after it does
  not matter.
-/

import Netutils.Telnet.Termname
import Netutils.Telnetd.Terminaltype

namespace Netutils.Session.TerminalType

open Netutils.Libc
open Netutils.Telnet
open Netutils.Telnetd (Terminal)
open Netutils.Telnetd.Terminal

/-- telnet answers each request with the next name. -/
def answer (s : Termname) : Option (List UInt8) × Termname := (some s.gettermname.1, s.gettermname.2)

/-- A name as telnetd keeps it. -/
def lower (name : List UInt8) : List UInt8 := name.map tolower

variable {tgetent : List UInt8 → Bool} {t : Terminal Termname}

theorem asks (h : t.will = true) :
    t.gettermname answer = { t with
      terminaltype := some (lower t.client.gettermname.1)
      client := t.client.gettermname.2
      asked := t.asked + 1 } := by
  rw [Terminal.gettermname, if_neg (not_not.mpr h)]
  rfl

theorem gettermname_cons {s : Termname} {name : List UInt8} {next : List (List UInt8)} (h : s.next = name :: next) :
    s.gettermname = (name, { s with next := next }) := by rw [Termname.gettermname, h]

/-- The same name again: telnetd goes by the first one. -/
theorem loop_same {x f : List UInt8} (hwill : t.will = true) (hx : t.terminaltype = some (lower x))
    (hnext : t.client.gettermname.1 = x) (hbad : tgetent (lower x) = false) (fuel : Nat) :
    ∃ u, getterminaltypeLoop answer tgetent (some f) (fuel + 1) t = some u ∧
      u.terminaltype = some f ∧ u.asked ≤ t.asked + 2 := by
  obtain ⟨u, hu⟩ : ∃ u, u = t.gettermname answer := ⟨_, rfl⟩
  have hask := hu.trans (asks hwill)
  rw [hnext] at hask
  have hterm : u.terminaltype = some (lower x) := congrArg Terminal.terminaltype hask
  have hasked : u.asked = t.asked + 1 := congrArg Terminal.asked hask
  have hagain : (u.gettermname answer).asked ≤ t.asked + 2 := by
    have hwill : u.will = true := (congrArg Terminal.will hask).trans hwill
    rw [asks hwill]
    show u.asked + 1 ≤ t.asked + 2
    omega
  have hno : ¬ terminaltypeok tgetent (some (lower x)) = true := Bool.eq_false_iff.mp hbad
  rw [getterminaltypeLoop]
  simp only [← hu, hterm, hx]
  rw [if_neg hno, if_pos (Or.inl trivial)]
  by_cases hf : some f = some (lower x)
  · rw [if_pos hf]
    exact ⟨u, rfl, hterm.trans hf.symm, by omega⟩
  · rw [if_neg hf]
    split
    · exact ⟨_, rfl, rfl, hagain⟩
    · rename_i hsame
      exact ⟨_, rfl, (not_not.mp hsame).symm, hagain⟩

/-- telnetd has heard of `x`, and telnet has the names `rest`, the last one again, and more. -/
theorem loop_finds {x f : List UInt8} {rest again : List (List UInt8)} (hwill : t.will = true)
    (hx : t.terminaltype = some (lower x)) (hnext : t.client.next = rest ++ (x :: rest).getLast?.toList ++ again)
    (hapart : Apart (x :: rest)) (hbad : tgetent (lower x) = false) {fuel : Nat} (hfuel : rest.length < fuel) :
    ∃ u, getterminaltypeLoop answer tgetent (some f) fuel t = some u ∧
      u.terminaltype = some (((rest.map lower).find? tgetent).getD f) ∧ u.asked ≤ t.asked + rest.length + 2 := by
  induction rest generalizing x t fuel with
  | nil =>
    obtain ⟨fuel, rfl⟩ := Nat.exists_eq_add_of_lt hfuel
    have hx' : t.client.gettermname.1 = x := by
      rw [gettermname_cons hnext]
      rfl
    simpa using loop_same hwill hx hx' hbad (f := f) fuel
  | cons y rest ih =>
    obtain ⟨fuel, rfl⟩ := Nat.exists_eq_add_of_lt hfuel
    have hfuel' : rest.length < (y :: rest).length + fuel := by
      simp only [List.length_cons]
      omega
    rw [List.getLast?_cons_cons, List.cons_append, List.cons_append] at hnext
    obtain ⟨u, hu⟩ : ∃ u, u = t.gettermname answer := ⟨_, rfl⟩
    have hask := hu.trans (asks hwill)
    rw [gettermname_cons hnext] at hask
    have hterm : u.terminaltype = some (lower y) := congrArg Terminal.terminaltype hask
    have hasked : u.asked = t.asked + 1 := congrArg Terminal.asked hask
    have hother : ¬ (some (lower x) = some (lower y) ∨ ¬ u.will = true) := by
      have hxy := (List.pairwise_cons.mp hapart).1 y List.mem_cons_self
      rw [Bool.eq_false_iff, Ne, strcaseeq_iff] at hxy
      have hwill : u.will = true := (congrArg Terminal.will hask).trans hwill
      rintro (h | h)
      · exact hxy (Option.some.inj h)
      · exact h hwill
    rw [getterminaltypeLoop]
    simp only [← hu, hterm, hx]
    rw [List.map_cons, List.find?_cons]
    cases hok : tgetent (lower y) with
    | true =>
      have hyes : terminaltypeok tgetent (some (lower y)) = true := hok
      rw [if_pos hyes]
      exact ⟨u, rfl, hterm, by omega⟩
    | false =>
      have hno : ¬ terminaltypeok tgetent (some (lower y)) = true := Bool.eq_false_iff.mp hok
      rw [if_neg hno, if_neg hother]
      have hclient : u.client.next = rest ++ (y :: rest).getLast?.toList ++ again :=
        congrArg (fun t => t.client.next) hask
      obtain ⟨v, hv, hfound, hless⟩ := ih ((congrArg Terminal.will hask).trans hwill) hterm hclient
        (List.pairwise_cons.mp hapart).2 hok hfuel'
      refine ⟨v, hv, hfound, ?_⟩
      simp only [List.length_cons]
      omega

/-- telnet begins at the start of its list. -/
def client (l : List (List UInt8)) (hl : l ≠ []) : Terminal Termname := ⟨none, true, ⟨l, l, hl⟩, 0⟩

theorem listed_finds {name : Option (List UInt8)} {names l : List (List UInt8)} (h : Listed name names l) (hl : l ≠ [])
    (tgetent : List UInt8 → Bool) :
    ∃ t, getterminaltype answer tgetent l.length (client l hl) = some t ∧
      t.terminaltype = some (((names.map lower).find? tgetent).getD (lower (l.head hl))) ∧ t.asked ≤ l.length + 2 := by
  obtain ⟨x, rest, rfl⟩ := List.exists_cons_of_ne_nil h.ne
  obtain ⟨next, rfl⟩ : ∃ next, l = x :: next := by
    rcases h.twice with ⟨again, rfl, -⟩ | ⟨rfl, -⟩
    · exact ⟨_, rfl⟩
    · exact ⟨_, rfl⟩
  obtain ⟨t, ht⟩ : ∃ t, t = (client (x :: next) hl).gettermname answer := ⟨_, rfl⟩
  have hask : t = ⟨some (lower x), true, ⟨x :: next, next, hl⟩, 1⟩ := ht.trans (asks rfl)
  have hterm : t.terminaltype = some (lower x) := congrArg Terminal.terminaltype hask
  have hasked : t.asked = 1 := congrArg Terminal.asked hask
  rw [getterminaltype]
  simp only [← ht, hterm]
  rw [List.map_cons, List.find?_cons, List.head_cons]
  cases hok : tgetent (lower x) with
  | true =>
    have hyes : ¬ (t.will = true ∧ ¬ terminaltypeok tgetent (some (lower x)) = true) := fun hno => hno.2 hok
    rw [if_neg hyes]
    exact ⟨t, rfl, hterm, by rw [hasked]; omega⟩
  | false =>
    have hno : t.will = true ∧ ¬ terminaltypeok tgetent (some (lower x)) = true :=
      ⟨congrArg Terminal.will hask, Bool.eq_false_iff.mp hok⟩
    rw [if_pos hno]
    rcases h.twice with ⟨again, htwice, -⟩ | ⟨hone, hlen⟩
    · have hnext : next = rest ++ (x :: rest).getLast?.toList ++ again := (List.cons.inj htwice).2
      have hlen : (x :: next).length = rest.length + again.length + 2 := by
        rw [hnext]
        simp [List.getLast?_cons]
        omega
      have hfuel : rest.length < (x :: next).length := by omega
      have hclient : t.client.next = rest ++ (x :: rest).getLast?.toList ++ again :=
        (congrArg (fun t => t.client.next) hask).trans hnext
      obtain ⟨u, hu, hfound, hless⟩ := loop_finds (f := lower x) hno.1 hterm hclient h.apart hok hfuel
      exact ⟨u, hu, hfound, by omega⟩
    · -- a list of one name, which telnet repeats
      obtain rfl : next = rest := (List.cons.inj hone).2
      obtain rfl : next = [] := List.length_eq_zero_iff.mp (Nat.succ.inj hlen)
      have hnext : t.client.gettermname.1 = x := by rw [hask]; rfl
      obtain ⟨u, hu, hfound, hless⟩ := loop_same (f := lower x) hno.1 hterm hnext hok 0
      exact ⟨u, hu, hfound, by simp only [List.length_cons, List.length_nil]; omega⟩

theorem length_dupLast (names : List (List UInt8)) : (dupLast names).length ≤ names.length + 1 := by
  have hlast : names.getLast?.toList.length ≤ 1 := by cases names.getLast? <;> simp
  rw [dupLast, List.length_append]
  omega

theorem length_list (name : Option (List UInt8)) (a : Argv) : (a.list name).length ≤ a.names.length + 2 := by
  have hold := (moveOld_perm a).length_eq
  have hdup := length_dupLast a.moveOld
  unfold Argv.list
  split
  · rename_i front _
    have hfront := length_dupLast (front :: a.moveOld)
    rw [List.length_cons] at hfront
    omega
  · rw [List.length_cons]
    omega
  · split
    · rw [List.length_singleton]
      omega
    · have htwice := length_dupLast (dupLast a.moveOld)
      omega

theorem lower_upcase (n : List UInt8) : lower (upcase n) = lower n := by
  have hbyte : ∀ c, tolower (toupper c) = tolower c := by
    rintro ⟨b⟩
    revert b
    decide +kernel
  rw [lower, upcase, List.map_map]
  exact List.map_congr_left fun c _ => hbyte c

/-- The names that stand twice do not matter. -/
theorem find_listed {name : Option (List UInt8)} {names l : List (List UInt8)} (h : Listed name names l) :
    (l.map lower).find? tgetent = (names.map lower).find? tgetent := by
  rcases h.twice with ⟨again, rfl, hagain⟩ | ⟨rfl, -⟩
  · rw [dupLast, List.append_assoc, List.map_append, List.find?_append]
    cases hfind : (names.map lower).find? tgetent with
    | some w => rfl
    | none =>
      rw [Option.none_or, List.find?_eq_none]
      intro w hw
      obtain ⟨v, hv, rfl⟩ := List.mem_map.mp hw
      have hmem : v ∈ names := List.append_subset.mpr ⟨last_subset names, hagain⟩ hv
      exact List.find?_eq_none.mp hfind _ (List.mem_map_of_mem hmem)
  · rfl

end Netutils.Session.TerminalType
