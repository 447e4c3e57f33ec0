/-
  Netutils.Telnet.Replies — the replies of the option routines, which nothing checks for
  room, and the output ring.

  A server that sends DO for options the client refuses gets a WONT of three bytes for each
  and, while the network takes nothing, fills netoring to the last byte; the next WONT
  writes over the first bytes that wait (`refusals_overrun_the_ring`). A run keeps every
  byte until it is sent exactly where, at each verb, netoring has room for the verbs that
  the state of the option calls for (`replies_kept_iff`).
-/

import Netutils.Telnet.Client

namespace Netutils.Telnet.Client

open Netutils.Arpa
open Netutils.Lib.Cells
open Netutils.Lib.Circular
open Netutils.Lib.Negotiation (Half)
open Netutils.Lib.Transition
open Netutils.Options
open Netutils.Wire

/-! ## What is to hold, and where -/

/-- How many bytes wait to be sent. -/
def held (s : Client) : Nat := s.appended.length - s.sent.length

/-- What has been sent is the first of what was appended, and netoring has the rest. -/
structure Kept (s : Client) : Prop where
  sent : s.sent <+: s.appended
  waits : s.netoring.Holds (s.appended.drop s.sent.length)

/-- The request is one that send_do and its like let through. -/
def Asks (o : Opt) : Verb → Prop
  | .will => o.will.asks true
  | .wont => o.will.asks false
  | .do_ => o.do_.asks true
  | .dont => o.do_.asks false

instance (o : Opt) (v : Verb) : Decidable (Asks o v) := by cases v <;> exact inferInstanceAs (Decidable (¬_))

/-- How many verbs the options call for where `v` is received for `c`: one where nothing is
    outstanding and the verb asks for a change, and for LINEMODE one more for SGA. -/
def due (opts : UInt8 → Opt) (v : Verb) (c : UInt8) : Nat :=
  let o := opts c
  match v with
  | .will => if c ≠ TELOPT_TM ∧ o.do_.credit true = 0 ∧ o.myWantStateIsDo = false then 1 else 0
  | .wont => if c ≠ TELOPT_TM ∧ o.do_.credit false = 0 ∧ o.myWantStateIsDo = true ∧ o.myStateIsDo = true then 1 else 0
  | .do_ =>
    if o.will.credit true = 0 then
      if c = TELOPT_LINEMODE then 1 + if Asks (opts TELOPT_SGA) .do_ then 1 else 0
      else if o.myWantStateIsWill = false then 1 else 0
    else 0
  | .dont => if o.will.credit false = 0 ∧ o.myWantStateIsWill = true ∧ o.myStateIsWill = true then 1 else 0

/-- What slc_init writes, if it finds room, before the last of the verbs. -/
def between (s : Client) (w : World) (v : Verb) (c : UInt8) : Nat :=
  let o := s.opts c
  if v = .do_ ∧ c = TELOPT_LINEMODE ∧ o.will.credit true = 0 ∧ o.myWantStateIsWill = true ∧
      (if Asks (s.opts TELOPT_SGA) .do_ then 3 else 0) + w.reply.length < s.netroom then w.reply.length
  else 0

/-- There is room for the verbs that are due, and for what the user commands. -/
def Fits : Action → Ctl Client → Prop
  | .received c w, k =>
    match k.frame with
    | .verb v => 3 * due k.env.opts v c + k.env.between w v c ≤ k.env.netroom
    | .se => c ≠ IAC ∧ k.env.DisplayGone w (k.sub.close c) ∧ Asks (k.env.opts TELOPT_XDISPLOC) .wont → 3 ≤ k.env.netroom
    | _ => True
  | .command l, k => l.length ≤ k.env.netroom
  | .synch, k => 2 ≤ k.env.netroom
  | .ask v c, k => Asks (k.env.opts c) v → 3 ≤ k.env.netroom
  | _, _ => True

/-- ring_clock does not wrap around. -/
def Ticks (_ : Action) (k : Ctl Client) : Prop := k.env.netoring.ringClock + k.env.netoring.size + 1 < clockRange

instance (a : Action) (k : Ctl Client) : Decidable (Fits a k) := by
  unfold Fits
  split
  · split <;> infer_instance
  all_goals infer_instance

instance (a : Action) (k : Ctl Client) : Decidable (Ticks a k) := inferInstanceAs (Decidable (_ < _))

/-! ## Appending -/

variable {s t u : Client} {n m : Nat}

theorem length_waiting : (s.appended.drop s.sent.length).length = s.held := List.length_drop

theorem Kept.netroom (h : s.Kept) : s.netroom = s.netoring.size - s.held := by
  have := h.waits.stand.emptyCount
  rwa [length_waiting] at this

theorem Kept.held_le (h : s.Kept) : s.held ≤ s.netoring.size := by
  have := h.waits.stand.room
  rwa [length_waiting] at this

/-- `n` bytes are appended, for better or worse. -/
structure Adds (s t : Client) (n : Nat) : Prop where
  sent : t.sent = s.sent
  appended : t.appended.length = s.appended.length + n
  size : t.netoring.size = s.netoring.size
  keeps : s.Kept → s.held + n ≤ s.netoring.size → s.netoring.ringClock + n < clockRange →
    t.Kept ∧ t.netoring.ringClock ≤ s.netoring.ringClock + n

theorem Adds.held (h : Adds s t n) (hk : s.Kept) : t.held = s.held + n := by
  have := hk.sent.length_le
  unfold Client.held
  rw [h.sent, h.appended]
  omega

theorem Adds.trans (h : Adds s t n) (h' : Adds t u m) : Adds s u (n + m) := by
  refine ⟨h'.sent.trans h.sent, ?_, h'.size.trans h.size, ?_⟩
  · rw [h'.appended, h.appended, Nat.add_assoc]
  · intro hk hroom hclock
    obtain ⟨ht, hct⟩ := h.keeps hk (by omega) (by omega)
    have hheld := h.held hk
    have hsize := h.size
    obtain ⟨hu, hcu⟩ := h'.keeps ht (by omega) (by omega)
    exact ⟨hu, by omega⟩

/-- The bytes are kept exactly where there was room for them all. -/
theorem Adds.kept_iff (h : Adds s t n) (hk : s.Kept) (hc : s.netoring.ringClock + s.netoring.size < clockRange) :
    t.Kept ↔ n ≤ s.netroom := by
  have hroom := hk.netroom
  have hle := hk.held_le
  constructor
  · intro ht
    have hle' := ht.held_le
    rw [h.held hk, h.size] at hle'
    omega
  · intro hn
    exact (h.keeps hk (by omega) (by omega)).1

/-- What is written where there is room for it changes nothing about that. -/
theorem Adds.guarded (h : Adds s t n) (h' : Adds t u m) (hm : t.Kept → m ≤ t.netroom) (hk : s.Kept)
    (hc : s.netoring.ringClock + s.netoring.size < clockRange) : u.Kept ↔ n ≤ s.netroom := by
  rw [(h.trans h').kept_iff hk hc]
  constructor
  · intro hn
    omega
  · intro hn
    have ht := (h.kept_iff hk hc).mpr hn
    have hroom := hk.netroom
    have hroom' := ht.netroom
    rw [h.held hk, h.size] at hroom'
    have := hm ht
    have := hk.held_le
    omega

/-- Nothing but the options changes. -/
theorem adds_set (s : Client) (opts : UInt8 → Opt) : Adds s { s with opts := opts } 0 :=
  ⟨rfl, rfl, rfl, fun hk _ _ => ⟨⟨hk.sent, hk.waits⟩, Nat.le_refl _⟩⟩

theorem adds_refl (s : Client) : Adds s s 0 := adds_set s s.opts

theorem drop_append_sent (h : s.sent <+: s.appended) (l : List UInt8) :
    (s.appended ++ l).drop s.sent.length = s.appended.drop s.sent.length ++ l :=
  List.drop_append_of_le_length h.length_le

theorem adds_netadd (s : Client) (c : UInt8) : Adds s (s.netadd c) 1 := by
  refine ⟨rfl, by simp [netadd], rfl, ?_⟩
  intro hk hroom hclock
  have hlen := length_waiting (s := s)
  have hpos : s.netoring.supply + 1 ≤ s.netoring.size := by
    obtain ⟨-, htop, hpos⟩ := hk.waits.stand.emptyConsecutive
    have := hpos (by omega)
    omega
  refine ⟨⟨hk.sent.trans (List.prefix_append _ _), ?_⟩, Nat.le_of_eq (Ring.tick_eq hclock)⟩
  have := hk.waits.supplied (l := [c]) (by simp) (by rw [hlen]; exact hroom) hpos hclock
  show Ring.Holds _ ((s.appended ++ [c]).drop s.sent.length)
  rw [drop_append_sent hk.sent]
  exact this

theorem adds_netadds (s : Client) (l : List UInt8) : Adds s (l.foldl netadd s) l.length := by
  induction l generalizing s with
  | nil => exact adds_refl s
  | cons c l ih =>
    have := (adds_netadd s c).trans (ih (s.netadd c))
    rwa [Nat.add_comm] at this

theorem adds_put (s : Client) (c : UInt8) (v : Verb) : Adds s (s.put c v) 3 :=
  adds_netadds s [IAC, verbByte v, c]

theorem adds_supplyData (s : Client) (l : List UInt8) : Adds s (s.supplyData l) l.length := by
  refine ⟨rfl, by simp [supplyData], (Ring.supplyLoop_frame _ _ _).1, ?_⟩
  intro hk hroom hclock
  have hlen := length_waiting (s := s)
  obtain ⟨h, hc⟩ := hk.waits.ringSupplyData (l := l) (by rw [hlen]; exact hroom) hclock
  refine ⟨⟨hk.sent.trans (List.prefix_append _ _), ?_⟩, hc⟩
  show Ring.Holds _ ((s.appended ++ l).drop s.sent.length)
  rw [drop_append_sent hk.sent]
  exact h

theorem adds_offer (s : Client) (l : List UInt8) : Adds s (s.offer l) (if l.length < s.netroom then l.length else 0) := by
  unfold offer
  by_cases h : l.length < s.netroom
  · rw [if_pos h, if_pos h]
    exact adds_supplyData s l
  · rw [if_neg h, if_neg h]
    exact adds_refl s

theorem adds_answer (s : Client) (c : UInt8) (r : Opt × List Verb) : Adds s (s.answer c r) (3 * r.2.length) := by
  have hverbs : ∀ (vs : List Verb) (s : Client), Adds s (vs.foldl (put · c) s) (3 * vs.length) := by
    intro vs
    induction vs with
    | nil => exact adds_refl
    | cons v vs ih =>
      intro s
      have := (adds_put s c v).trans (ih (s.put c v))
      rwa [Nat.add_comm, ← Nat.mul_succ] at this
  have := (adds_set s _).trans (hverbs r.2 (s.set c r.1))
  rwa [Nat.zero_add] at this

/-! ## How many verbs a routine sends -/

theorem length_receive_true (M : Nat) (ok : Bool) (h : Half) :
    (h.receive M ok true).2.length = if h.credit true = 0 ∧ h.want = false then 1 else 0 := by
  unfold Half.receive
  by_cases hr : h.credit true = 0 ∧ h.want = false
  · rw [if_pos ⟨hr.1, by simp [hr.2]⟩, if_pos hr, if_pos rfl]
    cases ok <;> rfl
  · rw [if_neg (by simpa using hr), if_neg hr]
    rfl

theorem length_receive_false (M : Nat) (ok : Bool) (h : Half) :
    (h.receive M ok false).2.length = if h.credit false = 0 ∧ h.want = true ∧ h.state = true then 1 else 0 := by
  unfold Half.receive
  by_cases hr : h.credit false = 0 ∧ h.want = true
  · rw [if_pos ⟨hr.1, by simp [hr.2]⟩, if_neg (by simp)]
    cases hs : h.state <;> simp [hr]
  · have hr' : ¬ (h.credit false = 0 ∧ h.want = true ∧ h.state = true) := fun hn => hr ⟨hn.1, hn.2.1⟩
    rw [if_neg (by simpa using hr), if_neg hr']
    rfl

theorem length_request (M : Nat) (new : Bool) (h : Half) :
    (h.request M new).2.length = if h.asks new then 1 else 0 := by
  by_cases ha : h.asks new
  · rw [if_pos ha, Half.request, if_neg ha]
    rfl
  · rw [if_neg ha, Half.request, if_pos (not_not.mp ha)]
    rfl

/-- A send_* with `init` set. -/
theorem adds_ask (s : Client) (v : Verb) (c : UInt8) : Adds s (s.ask v c) (3 * if Asks (s.opts c) v then 1 else 0) := by
  cases v with
  | will =>
    have := adds_answer s c (Options.Telnet.sendWill true (s.opts c))
    rwa [Options.Telnet.sendWill, Opt.setWill, List.length_map, send, if_pos rfl, length_request] at this
  | wont =>
    have := adds_answer s c (Options.Telnet.sendWont true (s.opts c))
    rwa [Options.Telnet.sendWont, Opt.setWill, List.length_map, send, if_pos rfl, length_request] at this
  | do_ =>
    have := adds_answer s c (Options.Telnet.sendDo true (s.opts c))
    rwa [Options.Telnet.sendDo, Opt.setDo, List.length_map, send, if_pos rfl, length_request] at this
  | dont =>
    have := adds_answer s c (Options.Telnet.sendDont true (s.opts c))
    rwa [Options.Telnet.sendDont, Opt.setDo, List.length_map, send, if_pos rfl, length_request] at this

/-- And one without. -/
theorem adds_sendDo (s : Client) (c : UInt8) : Adds s (s.sendDo c false) 3 :=
  adds_answer s c (Options.Telnet.sendDo false (s.opts c))

theorem adds_sendWill (s : Client) (c : UInt8) : Adds s (s.sendWill c false) 3 :=
  adds_answer s c (Options.Telnet.sendWill false (s.opts c))

/-! ## The option routines -/

theorem adds_willoption (s : Client) (c : UInt8) : Adds s (s.willoption c) (3 * due s.opts .will c) := by
  unfold willoption
  by_cases ht : c = TELOPT_TM ∧ (s.opts c).do_.credit true = 0 ∧ (s.opts c).myWantStateIsDo = false
  · have hd : due s.opts .will c = 0 := if_neg fun hn => hn.1 ht.1
    rw [hd]
    rw [if_pos ht]
    exact adds_set s _
  · have hn : (Options.Telnet.willoption (willOk c) (s.opts c)).2.length = due s.opts .will c := by
      rw [Options.Telnet.willoption, Opt.setDo, List.length_map, length_receive_true]
      exact if_congr ⟨fun hp => ⟨fun hc => ht ⟨hc, hp⟩, hp⟩, fun hp => hp.2⟩ rfl rfl
    rw [← hn]
    rw [if_neg ht]
    exact adds_answer s c _

theorem adds_wontoption (s : Client) (c : UInt8) : Adds s (s.wontoption c) (3 * due s.opts .wont c) := by
  unfold wontoption
  by_cases ht : c = TELOPT_TM
  · have hd : due s.opts .wont c = 0 := if_neg fun hn => hn.1 ht
    rw [if_pos ht, hd]
    exact adds_set s _
  · have hn : (Options.Telnet.wontoption (s.opts c)).2.length = due s.opts .wont c := by
      rw [Options.Telnet.wontoption, Opt.setDo, List.length_map, length_receive_false]
      exact if_congr ⟨fun hp => ⟨ht, hp⟩, fun hp => hp.2⟩ rfl rfl
    rw [if_neg ht, ← hn]
    exact adds_answer s c _

theorem adds_dontoption (s : Client) (c : UInt8) : Adds s (s.dontoption c) (3 * due s.opts .dont c) := by
  have := adds_answer s c (Options.Telnet.dontoption (s.opts c))
  rwa [Options.Telnet.dontoption, Opt.setWill, List.length_map, length_receive_false] at this

/-- LINEMODE apart, which is turned on with SGA. -/
theorem adds_dooption (s : Client) (w : World) (c : UInt8)
    (hl : ¬ (c = TELOPT_LINEMODE ∧ (s.opts c).will.credit true = 0)) :
    Adds s (s.dooption w c) (3 * due s.opts .do_ c) := by
  unfold dooption
  by_cases ht : c = TELOPT_TM ∧ (s.opts c).will.credit true = 0 ∧ (s.opts c).myWantStateIsWill = false
  · have hd : due s.opts .do_ c = 1 := by
      have hc : c ≠ TELOPT_LINEMODE := fun hc => hl ⟨hc, ht.2.1⟩
      show (if (s.opts c).will.credit true = 0 then _ else 0) = 1
      rw [if_pos ht.2.1, if_neg hc, if_pos ht.2.2]
    rw [if_pos ht, hd]
    have := (adds_set s _).trans (adds_sendWill (s.set c { s.opts c with will := ⟨false, false, (s.opts c).will.credit true⟩ }) c)
    rwa [Nat.zero_add] at this
  · have hn : (Options.Telnet.dooption (doOk w c) (s.opts c)).2.length = due s.opts .do_ c := by
      rw [Options.Telnet.dooption, Opt.setWill, List.length_map, length_receive_true]
      show _ = if (s.opts c).will.credit true = 0 then _ else 0
      by_cases hr : (s.opts c).will.credit true = 0
      · have hc : c ≠ TELOPT_LINEMODE := fun hc => hl ⟨hc, hr⟩
        rw [if_pos hr, if_neg hc]
        exact if_congr ⟨fun hp => hp.2, fun hp => ⟨hr, hp⟩⟩ rfl rfl
      · rw [if_neg hr, if_neg fun hp => hr hp.1]
    rw [if_neg ht, if_neg hl, ← hn]
    exact adds_answer s c _

/-- Where LINEMODE was not wanted yet, slc_init writes last, and else before the second verb
    for SGA. -/
theorem linemode_kept_iff (hk : s.Kept) (hc : s.netoring.ringClock + s.netoring.size < clockRange) (w : World)
    (hr : (s.opts TELOPT_LINEMODE).will.credit true = 0) :
    (s.dooption w TELOPT_LINEMODE).Kept ↔
      3 * due s.opts .do_ TELOPT_LINEMODE + s.between w .do_ TELOPT_LINEMODE ≤ s.netroom := by
  have hask := adds_ask s .do_ TELOPT_SGA
  obtain ⟨a, ha⟩ : ∃ a, a = if Asks (s.opts TELOPT_SGA) .do_ then 1 else 0 := ⟨_, rfl⟩
  have hd : due s.opts .do_ TELOPT_LINEMODE = 1 + a := by
    rw [ha]
    exact (if_pos hr).trans (if_pos rfl)
  rw [← ha] at hask
  rw [hd]
  have htm : ¬ (TELOPT_LINEMODE = TELOPT_TM ∧ (s.opts TELOPT_LINEMODE).will.credit true = 0 ∧
      (s.opts TELOPT_LINEMODE).myWantStateIsWill = false) := fun hn => absurd hn.1 (by decide)
  unfold dooption
  rw [if_neg htm, if_pos ⟨rfl, hr⟩]
  simp only
  by_cases hw : (s.opts TELOPT_LINEMODE).myWantStateIsWill = false
  · have hb : s.between w .do_ TELOPT_LINEMODE = 0 := if_neg fun hn => by simp [hw] at hn
    have hverbs := (hask.trans (adds_set _ _)).trans (adds_sendWill ((s.sendDo TELOPT_SGA true).set TELOPT_LINEMODE
      { s.opts TELOPT_LINEMODE with will := ⟨true, true, (s.opts TELOPT_LINEMODE).will.credit true⟩ }) TELOPT_LINEMODE)
    have := hverbs.guarded (adds_offer _ w.reply) (fun _ => by split <;> omega) hk hc
    rw [if_pos hw, hb]
    refine this.trans ?_
    omega
  · rw [if_neg hw]
    obtain ⟨y, hy⟩ : ∃ y, y = (s.sendDo TELOPT_SGA true).set TELOPT_LINEMODE
      { s.opts TELOPT_LINEMODE with will := ⟨true, true, (s.opts TELOPT_LINEMODE).will.credit true⟩ } := ⟨_, rfl⟩
    have hfirst : Adds s y (3 * a) := by
      rw [hy]
      exact hask.trans (adds_set _ _)
    have hall := (hfirst.trans (adds_offer y w.reply)).trans (adds_sendDo _ TELOPT_SGA)
    rw [← hy]
    refine (hall.kept_iff hk hc).trans ?_
    have hb : s.between w .do_ TELOPT_LINEMODE = if 3 * a + w.reply.length < s.netroom then w.reply.length else 0 := by
      have h3 : (if Asks (s.opts TELOPT_SGA) .do_ then 3 else 0) = 3 * a := by
        rw [ha]
        split <;> rfl
      unfold between
      simp only [h3, hr, Bool.not_eq_false _ ▸ hw, true_and]
    by_cases hroom : 3 * a ≤ s.netroom
    · -- the first verb fits, and slc_init finds the room that it leaves
      have hy' := ((hfirst.kept_iff hk hc).mpr hroom).netroom
      rw [hfirst.held hk, hfirst.size] at hy'
      have hs' := hk.netroom
      rw [hb]
      split <;> split <;> omega
    · omega

theorem adds_sendnaws (s : Client) (w : World) : ∃ m, Adds s (s.sendnaws w) m ∧ m ≤ s.netroom := by
  unfold sendnaws
  split
  · exact ⟨0, adds_refl s, Nat.zero_le _⟩
  · split
    · rename_i hroom
      exact ⟨w.naws.length, adds_supplyData s w.naws, hroom⟩
    · exact ⟨0, adds_refl s, Nat.zero_le _⟩

/-- TS_WILL, TS_WONT, TS_DO and TS_DONT. -/
theorem option_kept_iff (hk : s.Kept) (hc : s.netoring.ringClock + s.netoring.size < clockRange) (w : World)
    (v : Verb) (c : UInt8) : (s.option w v c).Kept ↔ 3 * due s.opts v c + s.between w v c ≤ s.netroom := by
  have hb : ∀ v, ¬ (v = .do_ ∧ c = TELOPT_LINEMODE ∧ (s.opts c).will.credit true = 0) → s.between w v c = 0 :=
    fun v hn => if_neg fun h => hn ⟨h.1, h.2.1, h.2.2.1⟩
  cases v with
  | will =>
    rw [hb .will nofun]
    exact (adds_willoption s c).kept_iff hk hc
  | wont =>
    rw [hb .wont nofun]
    exact (adds_wontoption s c).kept_iff hk hc
  | dont =>
    rw [hb .dont nofun]
    exact (adds_dontoption s c).kept_iff hk hc
  | do_ =>
    by_cases hl : c = TELOPT_LINEMODE ∧ (s.opts c).will.credit true = 0
    · obtain ⟨rfl, hr⟩ := hl
      have hn : TELOPT_LINEMODE ≠ TELOPT_NAWS := by decide
      have hoption : s.option w .do_ TELOPT_LINEMODE = s.dooption w TELOPT_LINEMODE := by
        unfold option
        exact if_neg hn
      rw [hoption]
      exact linemode_kept_iff hk hc w hr
    · have hdo := adds_dooption s w c hl
      rw [hb .do_ fun hn => hl hn.2, Nat.add_zero]
      by_cases hn : c = TELOPT_NAWS
      · have hnaws : s.option w .do_ c = (s.dooption w c).sendnaws w := if_pos hn
        obtain ⟨m, hm, hle⟩ := adds_sendnaws (s.dooption w c) w
        rw [hnaws]
        exact hdo.guarded hm (fun _ => hle) hk hc
      · have hnaws : s.option w .do_ c = s.dooption w c := if_neg hn
        rw [hnaws]
        exact hdo.kept_iff hk hc

theorem suboption_kept_iff (hk : s.Kept) (hc : s.netoring.ringClock + s.netoring.size < clockRange) (w : World)
    (b : SubBuf) : (s.suboption w b).Kept ↔
      (s.DisplayGone w b ∧ Asks (s.opts TELOPT_XDISPLOC) .wont → 3 ≤ s.netroom) := by
  unfold suboption
  by_cases hg : s.DisplayGone w b
  · rw [if_pos hg]
    refine ((adds_ask s .wont TELOPT_XDISPLOC).kept_iff hk hc).trans ?_
    by_cases ha : Asks (s.opts TELOPT_XDISPLOC) .wont
    · rw [if_pos ha]
      exact ⟨fun h _ => h, fun h => h ⟨hg, ha⟩⟩
    · rw [if_neg ha]
      exact ⟨fun _ h => absurd h.2 ha, fun _ => Nat.zero_le _⟩
  · rw [if_neg hg]
    have := (adds_refl s).guarded (adds_offer s w.reply) (fun _ => by split <;> omega) hk hc
    exact this.trans ⟨fun _ h => absurd h.1 hg, fun _ => Nat.zero_le _⟩

/-! ## Steps -/

theorem command_env (w : World) (k : Ctl Client) (c : UInt8) : (k.command (acts w) commands c).env = k.env := by
  unfold Ctl.command
  repeat' split
  all_goals rfl

/-- A turn of telrcv's loop. -/
theorem received_kept_iff {k : Ctl Client} (hk : k.env.Kept)
    (hc : k.env.netoring.ringClock + k.env.netoring.size < clockRange) (c : UInt8) (w : World) :
    (k.next (acts w) commands c).env.Kept ↔ Fits (.received c w) k := by
  rcases hf : k.frame with _ | _ | _ | _ | v
  case data =>
    have he : (k.next (acts w) commands c).env = k.env := by
      simp only [Ctl.next, hf]
      split <;> rfl
    simp only [he, Fits, hf, hk]
  case iac =>
    have he : (k.next (acts w) commands c).env = k.env := by
      simp only [Ctl.next, hf]
      exact command_env w k c
    simp only [he, Fits, hf, hk]
  case sb =>
    have he : (k.next (acts w) commands c).env = k.env := by
      simp only [Ctl.next, hf]
      split <;> rfl
    simp only [he, Fits, hf, hk]
  case se =>
    simp only [Fits, hf]
    by_cases hi : c = IAC
    · have he : (k.next (acts w) commands c).env = k.env := by
        simp only [Ctl.next, hf, if_pos hi]
      rw [he]
      exact iff_of_true hk fun h => absurd hi h.1
    · have he : (k.next (acts w) commands c).env = k.env.suboption w (k.sub.close c) := by
        simp only [Ctl.next, hf, if_neg hi]
        split
        · rfl
        · exact command_env w _ c
      rw [he, suboption_kept_iff hk hc w]
      exact ⟨fun h hn => h hn.2, fun h hn => h ⟨hi, hn⟩⟩
  case verb =>
    have he : (k.next (acts w) commands c).env = k.env.option w v c := by
      simp only [Ctl.next, hf]
      rfl
    rw [he]
    simp only [Fits, hf]
    exact option_kept_iff hk hc w v c

theorem synch_kept_iff (hk : s.Kept) (hc : s.netoring.ringClock + s.netoring.size < clockRange) :
    s.dosynch.Kept ↔ 2 ≤ s.netroom := by
  have hmark : Adds (s.netadd IAC) (s.netadd IAC).setneturg 0 := by
    refine ⟨rfl, rfl, rfl, ?_⟩
    intro hk' _ _
    refine ⟨⟨hk'.sent, hk'.waits.ringMark ?_⟩, Nat.le_refl _⟩
    show (s.appended ++ [IAC]).drop s.sent.length ≠ []
    rw [drop_append_sent hk.sent]
    simp
  exact (((adds_netadd s IAC).trans hmark).trans (adds_netadd _ DM)).kept_iff hk hc

theorem Kept.netflush (hk : s.Kept) {n : Nat} (hn : n ≤ s.netoring.ringFullConsecutive)
    (hc : s.netoring.ringClock + 1 < clockRange) : (s.netflush n).Kept := by
  obtain ⟨hstay, hgone, -⟩ := hk.waits.ringConsumed hn hc
  obtain ⟨hle, -⟩ := hk.waits.stand.fullConsecutive
  obtain ⟨l, hl⟩ := hk.sent
  have hwait : s.appended.drop s.sent.length = l := by rw [← hl, List.drop_left]
  rw [hwait] at hle hgone hstay
  have hsent : (s.netflush n).sent = s.sent ++ l.take n := congrArg (s.sent ++ ·) hgone
  have hlen : (s.sent ++ l.take n).length = s.sent.length + n := by
    rw [List.length_append, List.length_take]
    omega
  have hsplit : s.appended = s.sent ++ l.take n ++ l.drop n := by
    rw [List.append_assoc, List.take_append_drop, hl]
  constructor
  · rw [hsent]
    exact ⟨l.drop n, hsplit.symm⟩
  · show Ring.Holds _ (s.appended.drop (s.netflush n).sent.length)
    rw [hsent, hsplit, List.drop_left]
    exact hstay

theorem step_kept_iff {a : Action} {k k' : Ctl Client} (hk : k.env.Kept) (hc : Ticks a k) (h : step a k = some k') :
    k'.env.Kept ↔ Fits a k := by
  have hc : k.env.netoring.ringClock + k.env.netoring.size + 1 < clockRange := hc
  have hc' : k.env.netoring.ringClock + k.env.netoring.size < clockRange := Nat.lt_of_succ_lt hc
  cases a with
  | received c w =>
    obtain rfl := Option.some.inj h
    exact received_kept_iff hk hc' c w
  | typed l =>
    simp only [step] at h
    split at h
    · rename_i hl
      obtain rfl := Option.some.inj h
      exact ((adds_netadds k.env l).kept_iff hk hc').trans (iff_of_true (by omega) trivial)
    · cases h
  | command l =>
    obtain rfl := Option.some.inj h
    exact (adds_netadds k.env l).kept_iff hk hc'
  | synch =>
    obtain rfl := Option.some.inj h
    exact synch_kept_iff hk hc'
  | ask v c =>
    obtain rfl := Option.some.inj h
    refine ((adds_ask k.env v c).kept_iff hk hc').trans ?_
    show _ ↔ (Asks (k.env.opts c) v → 3 ≤ k.env.netroom)
    by_cases ha : Asks (k.env.opts c) v
    · rw [if_pos ha]
      exact ⟨fun h _ => h, fun h => h ha⟩
    · rw [if_neg ha]
      exact ⟨fun _ h => absurd h ha, fun _ => Nat.zero_le _⟩
  | offer l =>
    simp only [step] at h
    split at h
    · rename_i hl
      obtain rfl := Option.some.inj h
      exact ((adds_supplyData k.env l).kept_iff hk hc').trans (iff_of_true hl trivial)
    · cases h
  | netflush n =>
    simp only [step] at h
    split at h
    · rename_i hn
      obtain rfl := Option.some.inj h
      exact iff_of_true (hk.netflush hn.1 (by omega)) trivial
    · cases h
  | other =>
    obtain rfl := Option.some.inj h
    exact iff_of_true ⟨hk.sent, hk.waits.tick (by omega)⟩ trivial

/-! ## Runs -/

theorem start_kept (opts : UInt8 → Opt) (size : Nat) : (start opts size).env.Kept :=
  ⟨List.prefix_rfl, Ring.holding_init _ _ _, rfl⟩

/-- Every byte appended is kept until it is sent, all along a run, exactly where each step of
    it finds the room that it takes. -/
theorem replies_kept_iff {opts : UInt8 → Opt} {size : Nat} {as : List Action} {k : Ctl Client}
    (hclock : Meets step Ticks as (start opts size)) (h : run step as (start opts size) = some k) :
    (∀ bs k', bs <+: as → run step bs (start opts size) = some k' → k'.env.Kept) ↔
      Meets step Fits as (start opts size) :=
  run_always_iff_of_meets (fun _ _ _ hk hc hs => step_kept_iff hk hc hs) (start_kept opts size) hclock h

/-- No display, no window, nothing to say. -/
def bare : World := ⟨false, [], []⟩

/-- `n` times DO for an option. -/
def asked (n : Nat) (c : UInt8) : List Action := (List.replicate n [IAC, DO, c]).flatten.map (.received · bare)

/-- Two refusals in a ring for four bytes, with the first sent in between. -/
theorem refusals_kept_when_sent :
    let as := asked 1 99 ++ [.netflush 3] ++ asked 1 99
    ∃ k, run step as (start (fun _ => .init) 4) = some k ∧
      ∀ bs k', bs <+: as → run step bs (start (fun _ => .init) 4) = some k' → k'.env.Kept := by
  obtain ⟨k, hk⟩ := Option.isSome_iff_exists.mp (show (run step (asked 1 99 ++ [.netflush 3] ++ asked 1 99)
    (start (fun _ => .init) 4)).isSome by decide +kernel)
  exact ⟨k, hk, (replies_kept_iff (by decide +kernel) hk).mpr (by decide +kernel)⟩

/-! ## A server that only asks -/

theorem answer_opts (s : Client) (c : UInt8) (r : Opt × List Verb) : (s.answer c r).opts c = r.1 := by
  have hverbs : ∀ (vs : List Verb) (s : Client), (vs.foldl (put · c) s).opts = s.opts := by
    intro vs
    induction vs with
    | nil => exact fun _ => rfl
    | cons v vs ih => exact fun s => ih (s.put c v)
  unfold answer
  rw [hverbs]
  exact if_pos rfl

/-- IAC DO brings dooption for the byte behind. -/
theorem run_asked (n : Nat) (c : UInt8) {k : Ctl Client} (hf : k.frame = .data) :
    run step (asked (n + 1) c) k =
      run step (asked n c) { k with frame := .data, env := k.env.option bare .do_ c } := by
  have h1 : k.next (acts bare) commands IAC = { k with frame := .iac } := by simp only [Ctl.next, hf, if_pos]
  have h2 : ({ k with frame := .iac } : Ctl Client).next (acts bare) commands DO = { k with frame := .verb .do_ } := rfl
  show (step (.received IAC bare) k).bind _ = _
  simp only [step, h1, Option.bind_some]
  show (step (.received DO bare) _).bind _ = _
  simp only [step, h2, Option.bind_some]
  rfl

/-- The client refuses the option each time, with three bytes. -/
theorem refusals_add {c : UInt8} (hok : doOk bare c = false) (htm : c ≠ TELOPT_TM) (hlm : c ≠ TELOPT_LINEMODE)
    (n : Nat) {k : Ctl Client} (hf : k.frame = .data) (hr : (k.env.opts c).will.credit true = 0)
    (hw : (k.env.opts c).will.want = false) :
    ∃ k', run step (asked n c) k = some k' ∧ Adds k.env k'.env (3 * n) := by
  induction n generalizing k with
  | zero => exact ⟨k, rfl, adds_refl k.env⟩
  | succ n ih =>
    have hnaws : c ≠ TELOPT_NAWS := by
      rintro rfl
      exact absurd hok (by decide)
    have hoption : k.env.option bare .do_ c = k.env.answer c (Options.Telnet.dooption false (k.env.opts c)) := by
      rw [← hok]
      unfold option
      exact (if_neg hnaws).trans ((if_neg fun h => htm h.1).trans (if_neg fun h => hlm h.1))
    have hreceive : (k.env.opts c).will.receive respRange false true = (⟨true, false, 1⟩, [false]) := by
      unfold Half.receive
      rw [if_pos ⟨hr, by simp [hw]⟩, if_pos rfl, hr, hw]
      rfl
    have hopts : (k.env.option bare .do_ c).opts c = { k.env.opts c with will := ⟨true, false, 1⟩ } := by
      rw [hoption, answer_opts, Options.Telnet.dooption, Opt.setWill, hreceive]
    have hadds : Adds k.env (k.env.option bare .do_ c) 3 := by
      have := adds_answer k.env c (Options.Telnet.dooption false (k.env.opts c))
      rwa [← hoption, Options.Telnet.dooption, Opt.setWill, hreceive] at this
    rw [run_asked n c hf]
    obtain ⟨k', hk', hadds'⟩ := ih (k := { k with frame := .data, env := k.env.option bare .do_ c }) rfl
      (by rw [hopts]; rfl) (by rw [hopts])
    refine ⟨k', hk', ?_⟩
    have := hadds.trans hadds'
    rwa [Nat.add_comm, ← Nat.mul_succ] at this

/-- BUFSIZ -/
def BUFSIZ : Nat := 8192

/-- 16386 bytes of WONT in a ring for 16384, and none of them sent. -/
theorem refusals_overrun_the_ring : ∃ k,
    run step (asked 5462 99) (start (fun _ => .init) (2 * BUFSIZ)) = some k ∧ k.env.sent = [] ∧
      k.env.netoring.size < k.env.appended.length ∧ ¬ k.env.Kept := by
  obtain ⟨k, hk, hadds⟩ := refusals_add (c := 99) (by decide) (by decide) (by decide) 5462
    (k := start (fun _ => .init) (2 * BUFSIZ)) rfl (by decide) rfl
  have hsent : k.env.sent = [] := hadds.sent
  have hlen : k.env.appended.length = 0 + 3 * 5462 := hadds.appended
  have hsize : k.env.netoring.size = 2 * BUFSIZ := hadds.size
  have hover : k.env.netoring.size < k.env.appended.length := by
    rw [hsize, hlen]
    decide
  refine ⟨k, hk, hsent, hover, ?_⟩
  intro hkept
  have := hkept.held_le
  rw [held, hsent, List.length_nil, Nat.sub_zero] at this
  exact absurd this (Nat.not_le_of_lt hover)

end Netutils.Telnet.Client
