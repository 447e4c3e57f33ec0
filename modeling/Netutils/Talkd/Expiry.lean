/-
  Netutils.Talkd.Expiry — when talkd forgets an invitation (talkd/table.c, lookup_request).

  The test for an entry that is too old has its operands the wrong way round: `ptr->time - now`
  is never more than max_request_ttl for an entry of the past. So an expired entry that a lookup
  comes to is not removed, and may be the answer; and if one were removed, its next would be
  read behind the `free`. A run is as it should be exactly as long as no lookup comes to an
  entry that has expired (`forgets_iff`).
-/

import Netutils.Talkd.Process

namespace Netutils.Talkd

open Netutils.Protocols Netutils.Lib.Transition

/-! ## What it is for -/

/-- An invitation that was last refreshed then has expired. -/
def Expired (ttl now : Int) (e : Entry) : Prop := ttl < now - e.time

instance (ttl now : Int) (e : Entry) : Decidable (Expired ttl now e) := inferInstanceAs (Decidable (_ < _))

/-- A lookup answers from no expired entry, removes those it comes to, and keeps off what it has
    freed. -/
structure Forgets (ttl now : Int) (l : Lookup) : Prop where
  answered : ∀ e, (e, .answered) ∈ l.seen → ¬ Expired ttl now e
  removed : ∀ x ∈ l.seen, Expired ttl now x.1 → x.2 = .removed
  followed : l.followed = false

/-! ## One lookup -/

/-- The entries up to the first one that the comparison finds. -/
def upTo (comp : Entry → Option Entry) : List Entry → List Entry
  | [] => []
  | e :: es => if (comp e).isSome then [e] else e :: upTo comp es

variable {ttl now : Int} {w : World} {comp : Entry → Option Entry} {table : List Entry} {s : Daemon} {msg : CtlMsg}
  {rp : CtlResponse}

theorem upTo_subset (comp : Entry → Option Entry) (table : List Entry) : upTo comp table ⊆ table := by
  induction table with
  | nil => exact List.Subset.refl _
  | cons e es ih =>
    rw [upTo]
    split
    · exact List.cons_subset_cons e (List.nil_subset _)
    · exact List.cons_subset_cons e ih

/-- Nothing is removed as long as nothing has expired. -/
theorem lookupRequest_fresh (htime : ∀ e ∈ table, e.time ≤ now) (hfresh : ∀ e ∈ upTo comp table, ¬ Expired ttl now e) :
    Forgets ttl now (lookupRequest ttl now comp table) := by
  induction table with
  | nil => exact ⟨nofun, nofun, rfl⟩
  | cons e es ih =>
    have hhead : ¬ Expired ttl now e := by
      refine hfresh e ?_
      rw [upTo]
      split <;> exact List.mem_cons_self
    have hkept : ¬ ttl < e.time - now := by
      have := htime e List.mem_cons_self
      unfold Expired at hhead
      omega
    rw [lookupRequest, if_neg hkept]
    cases hcomp : comp e with
    | some e' =>
      refine ⟨?_, ?_, rfl⟩
      · intro x hx
        obtain ⟨rfl, -⟩ := Prod.mk.inj (List.mem_singleton.mp hx)
        exact hhead
      · intro x hx hexp
        rw [List.mem_singleton.mp hx] at hexp
        exact absurd hexp hhead
    | none =>
      have hrest : ∀ x ∈ upTo comp es, ¬ Expired ttl now x := by
        intro x hx
        refine hfresh x ?_
        rw [upTo, hcomp, if_neg (by decide)]
        exact List.mem_cons_of_mem _ hx
      obtain ⟨hanswered, hremoved, hfollowed⟩ := ih (fun x hx => htime x (List.mem_cons_of_mem _ hx)) hrest
      refine ⟨?_, ?_, hfollowed⟩
      · intro x hx
        rcases List.mem_cons.mp hx with heq | hx
        · exact absurd (Prod.mk.inj heq).2 (by decide)
        · exact hanswered x hx
      · intro x hx hexp
        rcases List.mem_cons.mp hx with rfl | hx
        · exact absurd hexp hhead
        · exact hremoved x hx hexp

/-- The first expired entry stays, or its next is followed. -/
theorem lookupRequest_expired (hexp : ∃ e ∈ upTo comp table, Expired ttl now e) :
    ¬ Forgets ttl now (lookupRequest ttl now comp table) := by
  induction table with
  | nil =>
    obtain ⟨e, he, -⟩ := hexp
    exact nomatch he
  | cons e es ih =>
    intro h
    obtain ⟨hanswered, hremoved, hfollowed⟩ := h
    by_cases hold : ttl < e.time - now
    · rw [lookupRequest, if_pos hold] at hfollowed
      exact Bool.noConfusion hfollowed
    · rw [lookupRequest, if_neg hold] at hanswered hremoved hfollowed
      rw [upTo] at hexp
      cases hcomp : comp e with
      | some e' =>
        rw [hcomp, Option.isSome_some, if_pos rfl] at hexp
        obtain ⟨x, hx, hxexp⟩ := hexp
        obtain rfl := List.mem_singleton.mp hx
        rw [hcomp] at hanswered
        exact hanswered x (List.mem_singleton.mpr rfl) hxexp
      | none =>
        rw [hcomp, if_neg (by decide)] at hexp
        rw [hcomp] at hanswered hremoved hfollowed
        obtain ⟨x, hx, hxexp⟩ := hexp
        rcases List.mem_cons.mp hx with rfl | hx
        · exact Fate.noConfusion (hremoved _ List.mem_cons_self hxexp)
        · refine ih ⟨x, hx, hxexp⟩ ⟨?_, ?_, hfollowed⟩
          · exact fun y hy => hanswered y (List.mem_cons_of_mem _ hy)
          · exact fun y hy => hremoved y (List.mem_cons_of_mem _ hy)

theorem lookupRequest_forgets_iff (htime : ∀ e ∈ table, e.time ≤ now) :
    Forgets ttl now (lookupRequest ttl now comp table) ↔ ∀ e ∈ upTo comp table, ¬ Expired ttl now e := by
  constructor
  · intro h e he hexp
    exact lookupRequest_expired ⟨e, he, hexp⟩ h
  · exact lookupRequest_fresh htime

/-! ## All requests -/

/-- What is left in the table was there, or is what the comparison has left. -/
theorem mem_lookupRequest {x : Entry} (hx : x ∈ (lookupRequest ttl now comp table).table) :
    x ∈ table ∨ ∃ e ∈ table, comp e = some x := by
  induction table with
  | nil => exact nomatch hx
  | cons e es ih =>
    have hrest : x ∈ (lookupRequest ttl now comp es).table → x ∈ e :: es ∨ ∃ y ∈ e :: es, comp y = some x := by
      intro hx
      rcases ih hx with hmem | ⟨y, hy, hyx⟩
      · exact Or.inl (List.mem_cons_of_mem _ hmem)
      · exact Or.inr ⟨y, List.mem_cons_of_mem _ hy, hyx⟩
    rw [lookupRequest] at hx
    split at hx
    · exact hrest hx
    · cases hcomp : comp e with
      | some e' =>
        rw [hcomp] at hx
        rcases List.mem_cons.mp hx with rfl | hx
        · exact Or.inr ⟨e, List.mem_cons_self, hcomp⟩
        · exact Or.inl (List.mem_cons_of_mem _ hx)
      | none =>
        rw [hcomp] at hx
        rcases List.mem_cons.mp hx with rfl | hx
        · exact Or.inl List.mem_cons_self
        · exact hrest hx

/-- No invitation is from the future. -/
def Past (s : Served) : Prop := ∀ e ∈ s.daemon.table, e.time ≤ s.clock

theorem past_lookup {w : World} (hc : comparison w msg = some comp) (htime : ∀ e ∈ table, e.time ≤ w.now) :
    ∀ e ∈ (lookupRequest ttl w.now comp table).table, e.time ≤ w.now := by
  intro x hx
  rcases mem_lookupRequest hx with hmem | ⟨e, he, hex⟩
  · exact htime x hmem
  · rcases comparison_eq hc hex with rfl | rfl
    · exact Int.le_refl _
    · exact htime _ he

theorem past_does {d : Daemon} {l : Option Lookup} {told : List (Nat × Nat)} (htime : ∀ e ∈ s.table, e.time ≤ w.now)
    (hlater : w.now ≤ w.later) (h : Does ttl w s msg d l told) : ∀ e ∈ d.table, e.time ≤ w.later := by
  have hle : ∀ {t : Int}, t ≤ w.now → t ≤ w.later := fun ht => Int.le_trans ht hlater
  cases h with
  | nothing => exact fun e he => hle (htime e he)
  | delete =>
    intro e he
    unfold Daemon.deleteInvite at he
    split at he
    · exact hle (htime e (List.mem_of_mem_eraseP he))
    · exact hle (htime e he)
  | miss comp hc => exact fun e he => hle (past_lookup hc htime e he)
  | answer comp hc => exact fun e he => hle (past_lookup hc htime e he)
  | reannounce comp hc i =>
    intro e he
    obtain ⟨j, hj, rfl⟩ := List.getElem_of_mem he
    simp only [Daemon.reissue, List.length_modify] at hj
    have hold := hle (past_lookup hc htime _ (List.getElem_mem hj))
    simp only [Daemon.reissue, List.getElem_modify]
    split <;> exact hold
  | insert comp hc _ _ request =>
    intro e he
    rcases List.mem_cons.mp he with rfl | he
    · exact Int.le_refl _
    · exact hle (past_lookup hc htime e he)

/-- What a request looks up. -/
theorem does_lookup {d : Daemon} {l : Option Lookup} {told : List (Nat × Nat)} (h : Does ttl w s msg d l told) :
    l = (comparison w msg).map fun comp => lookupRequest ttl w.now comp s.table := by
  cases h with
  | nothing hc | delete hc | miss _ hc | answer _ hc | reannounce _ hc | insert _ hc => rw [hc]; rfl

/-- The request does not come to an entry that has expired. -/
def Timely (ttl : Int) (e : Event) (s : Served) : Prop :=
  ∀ comp, comparison e.world e.msg = some comp → ∀ x ∈ upTo comp s.daemon.table, ¬ Expired ttl e.world.now x

/-- All lookups so far have been as they should be. -/
def AllForget (ttl : Int) (s : Served) : Prop := ∀ l ∈ s.lookups, Forgets ttl l.1 l.2

theorem serve_step (e : Event) (s t : Served) (hs : Past s) (h : serve ttl e s = some t) :
    Past t ∧ (AllForget ttl t ↔ AllForget ttl s ∧ Timely ttl e s) := by
  obtain ⟨l, told, hdoes, hlookups, -, hclock, hnow, hlater⟩ := serve_does h
  have htime : ∀ x ∈ s.daemon.table, x.time ≤ e.world.now := fun x hx => Int.le_trans (hs x hx) hnow
  refine ⟨?_, ?_⟩
  · rw [Past, hclock]
    exact past_does htime hlater hdoes
  · rw [does_lookup hdoes] at hlookups
    simp only [AllForget, Timely, hlookups]
    cases comparison e.world e.msg with
    | none => simp
    | some comp => simp [or_imp, forall_and, lookupRequest_forgets_iff htime]

/-- In a run of talkd all lookups are as they should be exactly where none comes to an invitation
    that has expired. -/
theorem forgets_iff (ttl clock : Int) (es : List Event) (s : Served)
    (h : run (serve ttl) es (Served.init clock) = some s) :
    AllForget ttl s ↔ Meets (serve ttl) (Timely ttl) es (Served.init clock) := by
  have hstart : Past (Served.init clock) := nofun
  rw [run_inv_iff (fun e s t hs => serve_step e s t hs) hstart h]
  exact and_iff_right nofun

/-- The other one looks for it. -/
def ask : CtlMsg := { leave with type := LOOK_UP, lName := [0x62], rName := [0x61] }

theorem forgets_soon : ∃ s, run (serve MAX_LIFE) [sent 0 leave, sent 30 ask] (Served.init 0) = some s ∧ AllForget MAX_LIFE s := by
  refine ⟨_, rfl, (forgets_iff MAX_LIFE 0 [sent 0 leave, sent 30 ask] _ rfl).mpr ⟨?_, ?_⟩⟩
  · exact fun _ _ _ hx => nomatch hx
  · intro s hs
    obtain rfl := Option.some.inj hs
    refine ⟨?_, fun _ _ => trivial⟩
    intro comp _ x hx
    have hmem := upTo_subset comp _ hx
    obtain rfl := List.mem_singleton.mp hmem
    decide

/-- An hour later the invitation is still the answer. -/
theorem answered_late :
    ∃ s, run (serve MAX_LIFE) [sent 0 leave, sent 3600 ask] (Served.init 0) = some s ∧ ¬ AllForget MAX_LIFE s := by
  refine ⟨_, rfl, fun h => ?_⟩
  exact (h _ List.mem_concat_self).answered _ (List.mem_singleton.mpr rfl) (by decide)

end Netutils.Talkd
