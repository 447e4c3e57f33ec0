/-
  Netutils.Ping.IpOpt — the options of an IP header as ping prints them (ping/ping_echo.c,
  print_ip_opt).

  The loop goes on while there is an option left, but what an option says of its own length
  is not compared with that: a source route or a recorded route is read as far as its length
  byte goes, and those bytes themselves are read without a look. The reads stay in the header
  exactly where every option that is come to lies in it (`options_harmless_iff`). A recorded route
  that is the same as the last one is only compared with it.
-/

import Netutils.Lib.Cells
import Netutils.Lib.Faults
import Netutils.Ping.Libping

namespace Netutils.Ping

open Netutils.Lib Netutils.Lib.Faults Netutils.Libicmp

def IPOPT_EOL : UInt8 := 0
def IPOPT_NOP : UInt8 := 1
def IPOPT_RR : UInt8 := 7
def IPOPT_LSRR : UInt8 := 131
def IPOPT_MINOFF : Nat := 4
def MAX_IPOPTLEN : Nat := 40

/-! ## print_ip_opt -/

inductive OptFault where
  /-- A read behind the header. -/
  | header
  | old_rr
  /-- The turns that were allowed are over. -/
  | turns
  deriving DecidableEq

/-- old_rr and old_rrlen, which stay from call to call. -/
structure Saved where
  old_rr : Nat → UInt8
  old_rrlen : Nat
  room : old_rrlen < MAX_IPOPTLEN

/-- `*cp`, for a header of these bytes. -/
def peek (ip : List UInt8) (cp : Nat) : Except OptFault UInt8 :=
  match ip[cp]? with
  | some b => .ok b
  | none => .error .header

/-- The `n` bytes from `cp` on. -/
def peeks (ip : List UInt8) (cp n : Nat) : Except OptFault (List UInt8) :=
  if cp + n ≤ ip.length then .ok ((ip.drop cp).take n) else .error .header

/-- cp and hlen. -/
structure Cursor where
  cp : Nat
  hlen : Int

/-- An address: `l = *++cp`, four times. -/
def Cursor.address (ip : List UInt8) (c : Cursor) : Except OptFault Cursor := do
  let _ ← peeks ip (c.cp + 1) 4
  return ⟨c.cp + 4, c.hlen - 4⟩

/-- The loop for IPOPT_LSRR. -/
def lsrrLoop (ip : List UInt8) : Nat → Cursor → Nat → Except OptFault Cursor
  | 0, _, _ => .error .turns
  | n + 1, c, j => do
    let c ← c.address ip
    if j - 4 ≤ IPOPT_MINOFF then return c else lsrrLoop ip n c (j - 4)

/-- The loop for IPOPT_RR. -/
def rrLoop (ip : List UInt8) : Nat → Cursor → Nat → Nat → Except OptFault Cursor
  | 0, _, _, _ => .error .turns
  | n + 1, c, i, j => do
    let c ← c.address ip
    if i - 4 = 0 then return c
    -- "truncated route"
    else if MAX_IPOPTLEN ≤ j + 4 then return c
    else rrLoop ip n c (i - 4) (j + 4)

/-- memcmp with old_rr: the `i` bytes are the same. -/
def Saved.memcmp (s : Saved) (ip : List UInt8) (cp i : Nat) : Except OptFault Bool := do
  let l ← peeks ip cp i
  if i ≤ MAX_IPOPTLEN then return l = Cells.slice s.old_rr 0 i else .error .old_rr

/-- memmove to old_rr -/
def Saved.memmove (s : Saved) (ip : List UInt8) (cp i : Nat) (h : i < MAX_IPOPTLEN) : Except OptFault Saved := do
  let l ← peeks ip cp i
  if i ≤ MAX_IPOPTLEN then return ⟨Cells.store s.old_rr 0 l, i, h⟩ else .error .old_rr

/-- What is saved of a route. -/
def Saved.keep (s : Saved) (ip : List UInt8) (cp i : Nat) : Except OptFault Saved :=
  if h : i < MAX_IPOPTLEN then s.memmove ip cp i h else .ok ⟨s.old_rr, 0, by decide⟩

/-- The route is the one that was saved, at the same place. -/
def Saved.sameRoute (OPT_FLOOD : Bool) (s : Saved) (ip : List UInt8) (cp i : Nat) : Except OptFault Bool :=
  if i = s.old_rrlen ∧ cp = sizeof_ip + 2 then do
    let same ← s.memcmp ip cp i
    return same && !OPT_FLOOD
  else return false

/-- IPOPT_RR, behind the length and the pointer, with `i` bytes of addresses. -/
def recordRoute (OPT_FLOOD : Bool) (ip : List UInt8) (c : Cursor) (i : Nat) (s : Saved) : Except OptFault (Cursor × Saved) := do
  let same ← s.sameRoute OPT_FLOOD ip c.cp i
  if same then
    let i := (i + 3) / 4 * 4
    return (⟨c.cp + i, c.hlen - i⟩, s)
  else
    let s ← s.keep ip c.cp i
    let c ← rrLoop ip i c i 0
    return (c, s)

/-- `switch (*cp)` -/
def option (OPT_FLOOD : Bool) (ip : List UInt8) (c : Cursor) (s : Saved) : Except OptFault (Cursor × Saved) := do
  let type ← peek ip c.cp
  if type = IPOPT_EOL then return ({ c with hlen := 0 }, s)
  else if type = IPOPT_LSRR then
    let j ← peek ip (c.cp + 1)
    let c : Cursor := ⟨c.cp + 2, c.hlen - 2⟩
    if IPOPT_MINOFF < j.toNat then
      let c ← lsrrLoop ip j.toNat c j.toNat
      return (c, s)
    else return (c, s)
  else if type = IPOPT_RR then
    let j ← peek ip (c.cp + 1)
    let i ← peek ip (c.cp + 2)
    let c : Cursor := ⟨c.cp + 2, c.hlen - 2⟩
    let i := min i.toNat j.toNat - IPOPT_MINOFF
    if i = 0 then return (c, s)
    else recordRoute OPT_FLOOD ip c i s
  -- IPOPT_NOP and unknown options
  else return (c, s)

def optLoop (OPT_FLOOD : Bool) (ip : List UInt8) : Nat → Cursor → Saved → Except OptFault Saved
  | 0, _, _ => .error .turns
  | n + 1, c, s =>
    if sizeof_ip < c.hlen then do
      let (c, s) ← option OPT_FLOOD ip c s
      optLoop OPT_FLOOD ip n ⟨c.cp + 1, c.hlen - 1⟩ s
    else return s

/-- print_ip_opt, for a header of these bytes; every turn takes a byte at least. -/
def printIpOpt (OPT_FLOOD : Bool) (ip : List UInt8) (s : Saved) : Except OptFault Saved :=
  optLoop OPT_FLOOD ip (ip.length + 1) ⟨sizeof_ip, ip.length⟩ s

/-! ## Options that lie in the header -/

/-- The addresses of a source route of this length. -/
def sourceRoute (j : UInt8) : Nat := (j.toNat - 1) / 4

/-- The bytes of a recorded route that are used, by its length and its pointer. -/
def recorded (j i : UInt8) : Nat := min i.toNat j.toNat - IPOPT_MINOFF

/-- The addresses that are printed of so many bytes. -/
def printed (i : Nat) : Nat := min ((i + 3) / 4) (MAX_IPOPTLEN / 4)

/-- A route at the beginning, from its pointer on, is the saved one. -/
def Repeated (OPT_FLOOD : Bool) (first : Option Saved) (i : Nat) (l : List UInt8) : Prop :=
  ∃ s, first = some s ∧ i = s.old_rrlen ∧ l.take i = Cells.slice s.old_rr 0 i ∧ OPT_FLOOD = false

/-- The options from here on lie in the header; `first` is the saved route at the beginning. -/
inductive Lies (OPT_FLOOD : Bool) : Option Saved → List UInt8 → Prop
  | nil (first) : Lies OPT_FLOOD first []
  | eol (first) (l) : Lies OPT_FLOOD first (IPOPT_EOL :: l)
  | lsrr (first) (j : UInt8) (l) : (sourceRoute j ≠ 0 → 1 + 4 * sourceRoute j ≤ l.length) →
      Lies OPT_FLOOD none (l.drop (1 + 4 * sourceRoute j)) → Lies OPT_FLOOD first (IPOPT_LSRR :: j :: l)
  | rr (first) (j i : UInt8) (l) : ¬ Repeated OPT_FLOOD first (recorded j i) (i :: l) → 4 * printed (recorded j i) ≤ l.length →
      Lies OPT_FLOOD none (l.drop (4 * printed (recorded j i))) → Lies OPT_FLOOD first (IPOPT_RR :: j :: i :: l)
  | repeated (first) (j i : UInt8) (l) : Repeated OPT_FLOOD first (recorded j i) (i :: l) →
      Lies OPT_FLOOD none (l.drop (4 * printed (recorded j i))) → Lies OPT_FLOOD first (IPOPT_RR :: j :: i :: l)
  | other (first) (c : UInt8) (l) : c ≠ IPOPT_EOL → c ≠ IPOPT_LSRR → c ≠ IPOPT_RR → Lies OPT_FLOOD none l →
      Lies OPT_FLOOD first (c :: l)

/-! ## Reads -/

section Reads

variable {ip : List UInt8} {cp n i j : Nat} {c : Cursor} {s : Saved} {P : Cursor → Prop}

theorem returns_peeks {P : List UInt8 → Prop} :
    Returns P (peeks ip cp n) ↔ cp + n ≤ ip.length ∧ P ((ip.drop cp).take n) := by
  rw [peeks]
  split
  · rename_i h
    exact (and_iff_right h).symm
  · rename_i h
    exact iff_of_false id fun hn => h hn.1

theorem returns_address : Returns P (c.address ip) ↔ c.cp + 4 < ip.length ∧ P ⟨c.cp + 4, c.hlen - 4⟩ := by
  rw [Cursor.address, returns_bind, returns_peeks]
  exact and_congr_left fun _ => by omega

/-- The cursor behind so many addresses. -/
def Cursor.skip (c : Cursor) (n : Nat) : Cursor := ⟨c.cp + n, c.hlen - n⟩

theorem skip_skip (c : Cursor) (n k : Nat) : (c.skip n).skip k = c.skip (n + k) := by
  simp only [Cursor.skip, Cursor.mk.injEq]
  omega

theorem returns_lsrrLoop (hj : IPOPT_MINOFF < j) (hn : j ≤ n) :
    Returns P (lsrrLoop ip n c j) ↔ c.cp + 4 * ((j - 1) / 4) < ip.length ∧ P (c.skip (4 * ((j - 1) / 4))) := by
  rw [IPOPT_MINOFF] at hj
  induction n generalizing c j with
  | zero => omega
  | succ n ih =>
    rw [lsrrLoop, returns_bind, returns_address, IPOPT_MINOFF]
    by_cases hlast : j - 4 ≤ 4
    · rw [if_pos hlast, show 4 * ((j - 1) / 4) = 4 by omega]
      exact Iff.rfl
    · rw [if_neg hlast, ih (by omega) (by omega)]
      have hskip : (⟨c.cp + 4, c.hlen - 4⟩ : Cursor) = c.skip 4 := rfl
      rw [hskip, skip_skip, show 4 + 4 * ((j - 4 - 1) / 4) = 4 * ((j - 1) / 4) by omega, ← and_assoc]
      refine and_congr_left fun _ => ?_
      show c.cp + 4 < ip.length ∧ c.cp + 4 + 4 * ((j - 4 - 1) / 4) < ip.length ↔ _
      omega

theorem returns_rrLoop (hi : 0 < i) (hn : i ≤ n) (hj : j + 4 ≤ MAX_IPOPTLEN) (hj4 : j % 4 = 0) :
    Returns P (rrLoop ip n c i j) ↔ c.cp + 4 * min ((i + 3) / 4) ((MAX_IPOPTLEN - j) / 4) < ip.length ∧
      P (c.skip (4 * min ((i + 3) / 4) ((MAX_IPOPTLEN - j) / 4))) := by
  rw [MAX_IPOPTLEN] at hj
  induction n generalizing c i j with
  | zero => omega
  | succ n ih =>
    rw [rrLoop, returns_bind, returns_address, MAX_IPOPTLEN]
    by_cases hlast : i - 4 = 0
    · rw [if_pos hlast, show 4 * min ((i + 3) / 4) ((40 - j) / 4) = 4 by omega]
      exact Iff.rfl
    · rw [if_neg hlast]
      by_cases htruncated : 40 ≤ j + 4
      · rw [if_pos htruncated, show 4 * min ((i + 3) / 4) ((40 - j) / 4) = 4 by omega]
        exact Iff.rfl
      · rw [if_neg htruncated, ih (by omega) (by omega) (by omega) (by omega), MAX_IPOPTLEN]
        have hskip : (⟨c.cp + 4, c.hlen - 4⟩ : Cursor) = c.skip 4 := rfl
        have hwidth : 4 + 4 * min ((i - 4 + 3) / 4) ((40 - (j + 4)) / 4) = 4 * min ((i + 3) / 4) ((40 - j) / 4) := by omega
        rw [hskip, skip_skip, hwidth, ← and_assoc]
        refine and_congr_left fun _ => ?_
        show c.cp + 4 < ip.length ∧ c.cp + 4 + 4 * min ((i - 4 + 3) / 4) ((40 - (j + 4)) / 4) < ip.length ↔ _
        omega

/-- What is saved lies before the end of the last address that is printed. -/
theorem keep_eq (hroom : cp + 4 * printed i < ip.length) : ∃ t, s.keep ip cp i = .ok t := by
  rw [printed, MAX_IPOPTLEN] at hroom
  rw [Saved.keep]
  by_cases hi : i < MAX_IPOPTLEN
  · rw [dif_pos hi, Saved.memmove, peeks]
    rw [MAX_IPOPTLEN] at hi
    rw [if_pos (by omega)]
    refine ⟨_, if_pos ?_⟩
    rw [MAX_IPOPTLEN]
    omega
  · rw [dif_neg hi]
    exact ⟨_, rfl⟩

theorem memcmp_eq (hin : cp + i ≤ ip.length) (hi : i < MAX_IPOPTLEN) :
    s.memcmp ip cp i = .ok ((ip.drop cp).take i = Cells.slice s.old_rr 0 i) := by
  rw [Saved.memcmp, peeks, if_pos hin]
  exact if_pos (Nat.le_of_lt hi)

variable {OPT_FLOOD : Bool} {l : List UInt8}

theorem sameRoute_of_repeated (hi : 0 < i) (hl : ip.drop cp = l)
    (h : Repeated OPT_FLOOD (if cp = sizeof_ip + 2 then some s else none) i l) : s.sameRoute OPT_FLOOD ip cp i = .ok true := by
  obtain ⟨t, hfirst, hlen, hroute, rfl⟩ := h
  split at hfirst
  · rename_i hcp
    obtain rfl := Option.some.inj hfirst
    have hin : cp + i ≤ ip.length := by
      have htake := congrArg List.length hroute
      rw [List.length_take, Cells.length_slice, ← hl, List.length_drop] at htake
      have := s.room
      omega
    rw [Saved.sameRoute, if_pos ⟨hlen, hcp⟩, memcmp_eq hin (hlen ▸ s.room), hl, decide_eq_true hroute]
    rfl
  · cases hfirst

theorem sameRoute_of_not (hl : ip.drop cp = l)
    (h : ¬ Repeated OPT_FLOOD (if cp = sizeof_ip + 2 then some s else none) i l) (hroom : cp + 4 * printed i < ip.length) :
    s.sameRoute OPT_FLOOD ip cp i = .ok false := by
  rw [Saved.sameRoute]
  split
  · rename_i hplace
    obtain ⟨hlen, hcp⟩ := hplace
    have hsaved := s.room
    rw [printed, MAX_IPOPTLEN] at hroom
    rw [MAX_IPOPTLEN] at hsaved
    rw [memcmp_eq (by omega) (hlen ▸ s.room), hl]
    show Except.ok (decide (l.take i = Cells.slice s.old_rr 0 i) && !OPT_FLOOD) = Except.ok false
    by_cases hroute : l.take i = Cells.slice s.old_rr 0 i
    · cases OPT_FLOOD with
      | true => rw [Bool.not_true, Bool.and_false]
      | false => exact absurd ⟨s, if_pos hcp, hlen, hroute, rfl⟩ h
    · rw [decide_eq_false hroute, Bool.false_and]
  · rfl

end Reads

/-! ## One option -/

section Turn

variable {OPT_FLOOD : Bool} {ip l : List UInt8} {i : Nat} {c : Cursor} {s : Saved}

/-- A route is passed with the addresses that are printed, which have to be there unless it is
    the saved one. -/
theorem recordRoute_spec (hl : ip.drop c.cp = l) (hi : 0 < i) :
    ∃ t, ∀ P, Returns P (recordRoute OPT_FLOOD ip c i s) ↔
      (Repeated OPT_FLOOD (if c.cp = sizeof_ip + 2 then some s else none) i l ∨ c.cp + 4 * printed i < ip.length) ∧
        P (c.skip (4 * printed i), t) := by
  by_cases hrep : Repeated OPT_FLOOD (if c.cp = sizeof_ip + 2 then some s else none) i l
  · refine ⟨s, fun P => ?_⟩
    have hlen : i < MAX_IPOPTLEN := by
      obtain ⟨t, -, hlen, -⟩ := hrep
      have := t.room
      omega
    rw [recordRoute, sameRoute_of_repeated hi hl hrep]
    rw [printed, MAX_IPOPTLEN] at *
    rw [show 4 * min ((i + 3) / 4) (40 / 4) = (i + 3) / 4 * 4 by omega, and_iff_right (Or.inl hrep)]
    exact Iff.rfl
  · by_cases hroom : c.cp + 4 * printed i < ip.length
    · obtain ⟨t, ht⟩ := keep_eq (s := s) hroom
      refine ⟨t, fun P => ?_⟩
      have hloop : Returns (fun c => P (c, t)) (rrLoop ip i c i 0) ↔ _ := returns_rrLoop hi (Nat.le_refl i) (by decide) rfl
      have heq : recordRoute OPT_FLOOD ip c i s = (do let c ← rrLoop ip i c i 0; return (c, t)) := by
        rw [recordRoute, sameRoute_of_not hl hrep hroom]
        show (do let s ← s.keep ip c.cp i; let c ← rrLoop ip i c i 0; return (c, s) : Except OptFault (Cursor × Saved)) = _
        rw [ht]
        rfl
      rw [heq, returns_bind, and_iff_right (Or.inr hroom)]
      exact hloop.trans (and_iff_right hroom)
    · refine ⟨s, fun P => iff_of_false ?_ fun h => h.1.elim hrep hroom⟩
      intro h
      rw [recordRoute, returns_bind] at h
      obtain ⟨same, hsame, h⟩ := returns_iff_exists.mp h
      cases same with
      | true =>
        -- the comparison says so only of the saved route
        apply hrep
        rw [Saved.sameRoute] at hsame
        split at hsame
        · rename_i hplace
          obtain ⟨hlen, hcp⟩ := hplace
          have hret : Returns (fun b => b = true) (Saved.memcmp s ip c.cp i >>= fun same => pure (same && !OPT_FLOOD)) := by
            rw [returns_iff_exists]
            exact ⟨true, hsame, rfl⟩
          rw [returns_bind, Saved.memcmp, returns_bind, returns_peeks, returns_ite, hl] at hret
          have htrue := hret.2.1 (by have := s.room; omega)
          simp only [returns_pure, Bool.and_eq_true, decide_eq_true_eq, Bool.not_eq_true'] at htrue
          exact ⟨s, if_pos hcp, hlen, htrue.1, htrue.2⟩
        · cases hsame
      | false =>
        simp only [Bool.false_eq_true, if_false, returns_bind] at h
        obtain ⟨t, -, h⟩ := returns_iff_exists.mp h
        rw [returns_rrLoop hi (Nat.le_refl i) (by decide) rfl] at h
        exact hroom h.1

/-- The option is passed under a condition that is what it takes to lie in the header. -/
def Passed (OPT_FLOOD : Bool) (ip : List UInt8) (c : Cursor) (s : Saved) (b : UInt8) (l : List UInt8) : Prop :=
  ∃ (G : Prop) (w : Nat) (t : Saved), (∀ P, Returns P (option OPT_FLOOD ip c s) ↔ G ∧ P (c.skip w, t)) ∧
    (Lies OPT_FLOOD (if c.cp = sizeof_ip then some s else none) (b :: l) ↔ G ∧ Lies OPT_FLOOD none (l.drop w))

theorem getElem?_of_drop {cp : Nat} {l' : List UInt8} {b : UInt8} (hl : ip.drop cp = b :: l') : ip[cp]? = some b := by
  rw [← List.head?_drop, hl, List.head?_cons]

theorem drop_of_drop {cp : Nat} {l' : List UInt8} {b : UInt8} (hl : ip.drop cp = b :: l') (w : Nat) :
    ip.drop (cp + 1 + w) = l'.drop w := by
  rw [← List.drop_drop, ← List.drop_drop, hl, List.drop_succ_cons, List.drop_zero]

theorem peek_of_drop {cp : Nat} {l' : List UInt8} {b : UInt8} (hl : ip.drop cp = b :: l') : peek ip cp = .ok b := by
  rw [peek, getElem?_of_drop hl]

theorem peek_of_nil {cp : Nat} (hl : ip.drop cp = []) : peek ip cp = .error .header := by
  rw [peek, ← List.head?_drop, hl, List.head?_nil]

theorem lies_lsrr {first : Option Saved} {j : UInt8} : Lies OPT_FLOOD first (IPOPT_LSRR :: j :: l) ↔
    (sourceRoute j ≠ 0 → 1 + 4 * sourceRoute j ≤ l.length) ∧ Lies OPT_FLOOD none (l.drop (1 + 4 * sourceRoute j)) := by
  constructor
  · intro h
    cases h with
    | lsrr _ _ _ hroom hl => exact ⟨hroom, hl⟩
    | other _ _ _ _ hlsrr _ _ => exact absurd rfl hlsrr
  · exact fun h => .lsrr first j l h.1 h.2

theorem lies_rr {first : Option Saved} {j i : UInt8} : Lies OPT_FLOOD first (IPOPT_RR :: j :: i :: l) ↔
    (Repeated OPT_FLOOD first (recorded j i) (i :: l) ∨ 4 * printed (recorded j i) ≤ l.length) ∧
      Lies OPT_FLOOD none (l.drop (4 * printed (recorded j i))) := by
  constructor
  · intro h
    cases h with
    | rr _ _ _ _ _ hroom hl => exact ⟨.inr hroom, hl⟩
    | repeated _ _ _ _ hrep hl => exact ⟨.inl hrep, hl⟩
    | other _ _ _ _ _ hrr _ => exact absurd rfl hrr
  · intro h
    by_cases hrep : Repeated OPT_FLOOD first (recorded j i) (i :: l)
    · exact .repeated first j i l hrep h.2
    · exact .rr first j i l hrep (h.1.resolve_left hrep) h.2

theorem option_lsrr (hl : ip.drop c.cp = IPOPT_LSRR :: l) : Passed OPT_FLOOD ip c s IPOPT_LSRR l := by
  have hnext := drop_of_drop hl 0
  have htype : option OPT_FLOOD ip c s = (do
      let j ← peek ip (c.cp + 1)
      if IPOPT_MINOFF < j.toNat then
        let c ← lsrrLoop ip j.toNat (c.skip 2) j.toNat
        return (c, s)
      else return (c.skip 2, s)) := by
    rw [option, peek_of_drop hl]
    rfl
  cases l with
  | nil =>
    refine ⟨False, 0, s, fun P => ?_, ?_⟩
    · rw [htype, peek_of_nil hnext, false_and]
      exact Iff.rfl
    · rw [false_and, iff_false]
      intro h
      cases h with
      | other _ _ _ _ hlsrr _ _ => exact hlsrr rfl
  | cons j l =>
    refine ⟨sourceRoute j ≠ 0 → 1 + 4 * sourceRoute j ≤ l.length, 2 + 4 * sourceRoute j, s, fun P => ?_, ?_⟩
    · have hlen := congrArg List.length hl
      rw [List.length_drop, List.length_cons, List.length_cons] at hlen
      rw [htype, peek_of_drop hnext, returns_bind, returns_ok]
      by_cases hj : IPOPT_MINOFF < j.toNat
      · rw [if_pos hj, returns_bind, returns_lsrrLoop hj (Nat.le_refl _), skip_skip]
        rw [IPOPT_MINOFF] at hj
        refine and_congr ?_ Iff.rfl
        show c.cp + 2 + 4 * sourceRoute j < ip.length ↔ _
        rw [imp_iff_right (by rw [sourceRoute]; omega)]
        omega
      · rw [if_neg hj]
        rw [IPOPT_MINOFF] at hj
        have hnone : sourceRoute j = 0 := by rw [sourceRoute]; omega
        rw [hnone, and_iff_right (absurd rfl)]
        exact Iff.rfl
    · rw [lies_lsrr, show 2 + 4 * sourceRoute j = 1 + 4 * sourceRoute j + 1 by omega, List.drop_succ_cons]

theorem option_rr (hl : ip.drop c.cp = IPOPT_RR :: l) : Passed OPT_FLOOD ip c s IPOPT_RR l := by
  have hnext := drop_of_drop hl 0
  have htype : option OPT_FLOOD ip c s = (do
      let j ← peek ip (c.cp + 1)
      let i ← peek ip (c.cp + 2)
      if recorded j i = 0 then return (c.skip 2, s) else recordRoute OPT_FLOOD ip (c.skip 2) (recorded j i) s) := by
    rw [option, peek_of_drop hl]
    rfl
  rcases l with - | ⟨j, - | ⟨i, l⟩⟩
  · refine ⟨False, 0, s, fun P => ?_, ?_⟩
    · rw [htype, peek_of_nil hnext, false_and]
      exact Iff.rfl
    · rw [false_and, iff_false]
      intro h
      cases h with
      | other _ _ _ _ _ hrr _ => exact hrr rfl
  · refine ⟨False, 0, s, fun P => ?_, ?_⟩
    · rw [htype, peek_of_drop hnext, peek_of_nil (drop_of_drop hl 1), false_and]
      exact Iff.rfl
    · rw [false_and, iff_false]
      intro h
      cases h with
      | other _ _ _ _ _ hrr _ => exact hrr rfl
  · have hroute : ip.drop (c.skip 2).cp = i :: l := drop_of_drop hl 1
    have hlen := congrArg List.length hroute
    rw [List.length_drop, List.length_cons] at hlen
    by_cases hi : recorded j i = 0
    · refine ⟨True, 2, s, fun P => ?_, ?_⟩
      · rw [htype, peek_of_drop hnext, returns_bind, returns_ok, peek_of_drop (drop_of_drop hl 1), returns_bind, returns_ok,
          if_pos hi, true_and]
        exact Iff.rfl
      · rw [lies_rr, hi]
        exact and_congr_left fun _ => iff_of_true (.inr (Nat.zero_le _)) trivial
    · obtain ⟨t, ht⟩ := @recordRoute_spec OPT_FLOOD ip _ _ _ s hroute (Nat.pos_of_ne_zero hi)
      have hplace : (if (c.skip 2).cp = sizeof_ip + 2 then some s else none) = if c.cp = sizeof_ip then some s else none :=
        if_congr Nat.add_right_cancel_iff rfl rfl
      rw [hplace] at ht
      refine ⟨Repeated OPT_FLOOD (if c.cp = sizeof_ip then some s else none) (recorded j i) (i :: l) ∨
        4 * printed (recorded j i) ≤ l.length, 2 + 4 * printed (recorded j i), t, fun P => ?_, ?_⟩
      · rw [htype, peek_of_drop hnext, returns_bind, returns_ok, peek_of_drop (drop_of_drop hl 1), returns_bind, returns_ok,
          if_neg hi, ht, skip_skip]
        refine and_congr_left fun _ => or_congr_right ?_
        change ip.length - (c.cp + 2) = _ at hlen
        show c.cp + 2 + 4 * printed (recorded j i) < ip.length ↔ _
        omega
      · rw [lies_rr, show 2 + 4 * printed (recorded j i) = 4 * printed (recorded j i) + 1 + 1 by omega, List.drop_succ_cons,
          List.drop_succ_cons]

/-- What one option does, the end apart. -/
theorem option_spec {b : UInt8} (hl : ip.drop c.cp = b :: l) (hb : b ≠ IPOPT_EOL) : Passed OPT_FLOOD ip c s b l := by
  by_cases hlsrr : b = IPOPT_LSRR
  · subst hlsrr
    exact option_lsrr hl
  · by_cases hrr : b = IPOPT_RR
    · subst hrr
      exact option_rr hl
    · refine ⟨True, 0, s, fun P => ?_, ?_⟩
      · rw [option, peek_of_drop hl, returns_bind, returns_ok, if_neg hb, if_neg hlsrr, if_neg hrr, true_and]
        show P (c, s) ↔ P (⟨c.cp, c.hlen - 0⟩, s)
        rw [Int.sub_zero]
      · rw [true_and, List.drop_zero]
        constructor
        · intro h
          cases h with
          | eol => exact absurd rfl hb
          | lsrr => exact absurd rfl hlsrr
          | rr => exact absurd rfl hrr
          | repeated => exact absurd rfl hrr
          | other _ _ _ _ _ _ hl => exact hl
        · exact .other _ b l hb hlsrr hrr

theorem option_eol (hl : ip.drop c.cp = IPOPT_EOL :: l) : option OPT_FLOOD ip c s = .ok ({ c with hlen := 0 }, s) := by
  rw [option, peek_of_drop hl]
  rfl

/-- All of them, with what is left in step with the place. -/
theorem optLoop_iff {n : Nat} (hn : ip.length - c.cp < n) (hcp : sizeof_ip ≤ c.cp)
    (hhlen : c.hlen = sizeof_ip + ip.length - c.cp) : Returns (fun _ => True) (optLoop OPT_FLOOD ip n c s) ↔
      Lies OPT_FLOOD (if c.cp = sizeof_ip then some s else none) (ip.drop c.cp) := by
  induction n generalizing c s with
  | zero => omega
  | succ n ih =>
    rw [optLoop]
    rcases hl : ip.drop c.cp with - | ⟨b, l⟩
    · have hend := List.drop_eq_nil_iff.mp hl
      rw [if_neg (by omega)]
      exact iff_of_true trivial (.nil _)
    · have hlen := congrArg List.length hl
      rw [List.length_drop, List.length_cons] at hlen
      rw [if_pos (by omega)]
      by_cases hb : b = IPOPT_EOL
      · subst hb
        rw [option_eol hl, returns_bind, returns_ok]
        refine iff_of_true ?_ (.eol _ l)
        cases n with
        | zero => omega
        | succ n =>
          show Returns (fun _ => True) (optLoop OPT_FLOOD ip (n + 1) ⟨c.cp + 1, 0 - 1⟩ s)
          rw [optLoop, if_neg (by simp only [sizeof_ip]; omega)]
          exact trivial
      · have hpassed : Passed OPT_FLOOD ip c s b l := option_spec hl hb
        obtain ⟨G, w, t, hreturns, hlies⟩ := hpassed
        have hdrop : ip.drop (c.cp + w + 1) = l.drop w := by rw [Nat.add_right_comm, drop_of_drop hl]
        rw [returns_bind, hreturns, hlies]
        refine and_congr_right fun _ => ?_
        have hnext := ih (c := ⟨c.cp + w + 1, c.hlen - w - 1⟩) (s := t) (by simp only; omega) (by simp only; omega)
          (by simp only; omega)
        rw [if_neg (by simp only; omega), hdrop] at hnext
        exact hnext

end Turn

/-! ## The header of a packet -/

/-- It has as many bytes as print_ip_opt is told. -/
theorem length_header {datagram : List UInt8} {d : Decoded} {icmp : Nat} (hd : icmpGenericDecode datagram = some d)
    (hicmp : d.icmp = some icmp) : (d.buffer.take icmp).length = icmp := by
  rw [icmpGenericDecode] at hd
  simp only at hd
  split at hd
  · obtain rfl := Option.some.inj hd
    cases hicmp
  · rename_i hroom
    obtain ⟨cksum, -, rfl⟩ := Option.map_eq_some_iff.mp hd
    obtain rfl := Option.some.inj hicmp
    rw [List.length_take, length_putShort, length_putShort]
    omega

/-- For every packet that icmp_generic_decode takes, ping reads in the header, compares and
    copies in old_rr and comes to an end if and only if the options that it comes to lie there. -/
theorem options_harmless_iff (OPT_FLOOD : Bool) (s : Saved) (datagram : List UInt8) (d : Decoded) (icmp : Nat)
    (hd : icmpGenericDecode datagram = some d) (hicmp : d.icmp = some icmp) :
    (d.buffer.take icmp).length = icmp ∧
    ((∃ t, printIpOpt OPT_FLOOD (d.buffer.take icmp) s = .ok t) ↔
      Lies OPT_FLOOD (some s) ((d.buffer.take icmp).drop sizeof_ip)) := by
  refine ⟨length_header hd hicmp, ?_⟩
  have hloop : Returns (fun _ => True) (printIpOpt OPT_FLOOD (d.buffer.take icmp) s) ↔ _ :=
    optLoop_iff (by simp only; omega) (Nat.le_refl _) (by simp only; omega)
  rw [returns_iff_exists, if_pos rfl] at hloop
  rw [← hloop]
  exact exists_congr fun t => (and_iff_left trivial).symm

/-- Nothing is saved yet. -/
def noRoute : Saved := ⟨fun _ => 0, 0, by decide⟩

/-- An echo reply behind a header with these options. -/
def replyWith (options : List UInt8) : List UInt8 :=
  UInt8.ofNat (0x45 + options.length / 4) :: List.replicate 19 0 ++ options ++ [0, 0, 0xff, 0xff, 0, 0, 0, 0]

/-- A recorded route of one address, and the end. -/
theorem harmless_route : ∃ t, printIpOpt false ((replyWith [7, 7, 8, 10, 0, 0, 1, 0]).take 28) noRoute = .ok t := by
  have h := options_harmless_iff false noRoute (replyWith [7, 7, 8, 10, 0, 0, 1, 0]) _ 28 rfl rfl
  refine h.2.mpr (.rr _ 7 8 [10, 0, 0, 1, 0] ?_ (by decide) (.eol _ []))
  intro hrep
  obtain ⟨s, hs, hlen, -⟩ := hrep
  obtain rfl := Option.some.inj hs
  exact absurd hlen (by decide)

/-- The length of a source route is believed. -/
theorem source_route_leaves_the_header :
    ∃ d icmp, icmpGenericDecode (replyWith [131, 39, 4, 0]) = some d ∧ d.icmp = some icmp ∧
      printIpOpt false (d.buffer.take icmp) noRoute = .error .header :=
  ⟨⟨0, some 24, replyWith [131, 39, 4, 0]⟩, 24, by decide, rfl, rfl⟩

end Netutils.Ping
