/-
  Netutils.Talkd.Reply — what of talkd's responses comes from the request, and what from the
  stack: talkd_run never clears the response that process_request fills in (talkd/process.c).

  Each way out sets the fields that a client reads, but for one: LEAVE_INVITE for which the table
  has nothing yet puts the invitation in and leaves `answer` as it was (`settled_iff`).
-/

import Netutils.Talkd.Process

namespace Netutils.Talkd

open Netutils.Protocols

/-- The fields that a client reads are the same. -/
structure Agree (msg : CtlMsg) (r r' : CtlResponse) : Prop where
  vers : r.vers = r'.vers
  type : r.type = r'.type
  answer : r.answer = r'.answer
  idNum : r.idNum = r'.idNum
  addr : msg.type = LOOK_UP → r.answer = SUCCESS → r.addr = r'.addr

section

variable (ttl : Int) (w : World) (s : Daemon) (msg : CtlMsg)

/-- Whatever is in the response before, what is sent is the same. -/
def Settled : Prop :=
  ∀ rp rp' r r', (processRequest ttl w s msg rp).response = some r → (processRequest ttl w s msg rp').response = some r' →
    Agree msg r r'

/-- The lookup does not stop at this entry. -/
def Passed (e : Entry) : Prop := ttl < e.time - w.now ∨ exactComp msg w.now e = none

/-- An invitation is left that the table does not have. -/
def Leaves : Prop := accepted w msg = true ∧ msg.type = LEAVE_INVITE ∧ ∀ e ∈ s.table, Passed ttl w msg e

end

variable {ttl : Int} {w : World} {s : Daemon} {msg : CtlMsg} {rp rp' r r' : CtlResponse}

theorem lookupRequest_none {now : Int} {comp : Entry → Option Entry} (table : List Entry) :
    (lookupRequest ttl now comp table).found = none ↔ ∀ e ∈ table, ttl < e.time - now ∨ comp e = none := by
  induction table with
  | nil => exact iff_of_true rfl (List.forall_mem_nil _)
  | cons e table ih =>
    rw [List.forall_mem_cons, lookupRequest]
    by_cases hold : ttl < e.time - now
    · rw [if_pos hold]
      exact ih.trans (and_iff_right (Or.inl hold)).symm
    · rw [if_neg hold]
      cases hcomp : comp e with
      | some e' => exact iff_of_false (by simp) (by simp [hold])
      | none =>
        simp only [Option.map_eq_none_iff]
        exact ih.trans (and_iff_right (Or.inr trivial)).symm

/-- The header that both runs set alike. -/
structure Alike (rp rp' : CtlResponse) : Prop where
  vers : rp.vers = rp'.vers
  type : rp.type = rp'.type
  idNum : rp.idNum = rp'.idNum

/-- An answer and an id are set, and nothing else is read. -/
theorem Alike.agree (h : Alike rp rp') (answer : UInt8) (hlook : msg.type ≠ LOOK_UP ∨ answer ≠ SUCCESS) :
    Agree msg { rp with answer } { rp' with answer } :=
  ⟨h.vers, h.type, rfl, h.idNum, fun ht ha => absurd ha (hlook.resolve_left fun hn => hn ht)⟩

theorem Alike.agree_id (h : Alike rp rp') (answer : UInt8) (idNum : Nat) (hlook : msg.type ≠ LOOK_UP) :
    Agree msg { rp with idNum, answer } { rp' with idNum, answer } :=
  ⟨h.vers, h.type, rfl, rfl, fun ht => absurd ht hlook⟩

theorem doAnnounce_agree (h : Alike rp rp') (ht : msg.type = ANNOUNCE)
    (hr : (doAnnounce ttl w s msg rp).response = some r) (hr' : (doAnnounce ttl w s msg rp').response = some r') :
    Agree msg r r' := by
  have hlook : msg.type ≠ LOOK_UP := by rw [ht]; decide
  unfold doAnnounce at hr hr'
  by_cases huser : w.findUser.1 ≠ SUCCESS
  · rw [if_pos huser] at hr hr'
    rw [← Option.some.inj hr, ← Option.some.inj hr']
    exact h.agree _ (Or.inl hlook)
  · rw [if_neg huser] at hr hr'
    cases hhost : w.host with
    | none =>
      simp only [hhost] at hr hr'
      rw [← Option.some.inj hr, ← Option.some.inj hr']
      exact h.agree _ (Or.inl hlook)
    | some host =>
      simp only [hhost] at hr hr'
      cases hfound : (lookupRequest ttl w.now (exactComp { msg with rTty := w.findUser.2 } w.now) s.table).found with
      | none =>
        simp only [hfound] at hr hr'
        rw [← Option.some.inj hr, ← Option.some.inj hr']
        exact h.agree_id _ _ hlook
      | some x =>
        simp only [hfound] at hr hr'
        by_cases hid : x.2.request.idNum < msg.idNum
        · simp only [if_pos hid] at hr hr'
          rw [← Option.some.inj hr, ← Option.some.inj hr']
          exact h.agree_id _ _ hlook
        · simp only [if_neg hid] at hr hr'
          rw [← Option.some.inj hr, ← Option.some.inj hr']
          exact h.agree_id _ _ hlook

/-- An invitation that is there already is answered. -/
theorem leaveInvite_agree (h : Alike rp rp') (ht : msg.type = LEAVE_INVITE)
    (hfound : (lookupRequest ttl w.now (exactComp msg w.now) s.table).found ≠ none)
    (hr : (leaveInvite ttl w s msg rp).response = some r) (hr' : (leaveInvite ttl w s msg rp').response = some r') :
    Agree msg r r' := by
  obtain ⟨x, hx⟩ := Option.ne_none_iff_exists'.mp hfound
  simp only [leaveInvite, hx] at hr hr'
  rw [← Option.some.inj hr, ← Option.some.inj hr']
  exact h.agree_id _ _ (by rw [ht]; decide)

/-- One that is not leaves the answer as it was. -/
theorem leaveInvite_answer (hfound : (lookupRequest ttl w.now (exactComp msg w.now) s.table).found = none)
    (hr : (leaveInvite ttl w s msg rp).response = some r) : r.answer = rp.answer := by
  simp only [leaveInvite, hfound] at hr
  rw [← Option.some.inj hr]
  rfl

theorem lookUp_agree (h : Alike rp rp') (hr : (lookUp ttl w s msg rp).response = some r)
    (hr' : (lookUp ttl w s msg rp').response = some r') : Agree msg r r' := by
  unfold lookUp at hr hr'
  cases hfound : (lookupRequest ttl w.now (fuzzyComp msg) s.table).found with
  | none =>
    simp only [hfound] at hr hr'
    rw [← Option.some.inj hr, ← Option.some.inj hr']
    exact h.agree _ (Or.inr (by decide))
  | some x =>
    simp only [hfound] at hr hr'
    rw [← Option.some.inj hr, ← Option.some.inj hr']
    exact ⟨h.vers, h.type, rfl, rfl, fun _ _ => rfl⟩

theorem dispatch_agree (h : Alike rp rp')
    (hleave : msg.type = LEAVE_INVITE → (lookupRequest ttl w.now (exactComp msg w.now) s.table).found ≠ none)
    (hr : (dispatch ttl w s msg rp).response = some r) (hr' : (dispatch ttl w s msg rp').response = some r') :
    Agree msg r r' := by
  unfold dispatch at hr hr'
  by_cases hann : msg.type = ANNOUNCE
  · rw [if_pos hann] at hr hr'
    exact doAnnounce_agree h hann hr hr'
  · rw [if_neg hann] at hr hr'
    by_cases hl : msg.type = LEAVE_INVITE
    · rw [if_pos hl] at hr hr'
      exact leaveInvite_agree h hl (hleave hl) hr hr'
    · rw [if_neg hl] at hr hr'
      by_cases hlook : msg.type = LOOK_UP
      · rw [if_pos hlook] at hr hr'
        exact lookUp_agree h hr hr'
      · rw [if_neg hlook] at hr hr'
        by_cases hdel : msg.type = DELETE
        · rw [if_pos hdel] at hr hr'
          rw [← Option.some.inj hr, ← Option.some.inj hr']
          exact h.agree _ (Or.inl hlook)
        · rw [if_neg hdel] at hr hr'
          rw [← Option.some.inj hr, ← Option.some.inj hr']
          exact h.agree _ (Or.inl hlook)

/-- What process_request sets before it looks at the request. -/
def begun (msg : CtlMsg) (rp : CtlResponse) : CtlResponse := { rp with vers := TALK_VERSION, type := msg.type, idNum := 0 }

theorem alike_begun (msg : CtlMsg) (rp rp' : CtlResponse) : Alike (begun msg rp) (begun msg rp') := ⟨rfl, rfl, rfl⟩

/-- A request that is refused is answered, if at all. -/
theorem refused_agree (ha : accepted w msg = false) (hr : (processRequest ttl w s msg rp).response = some r)
    (hr' : (processRequest ttl w s msg rp').response = some r') : Agree msg r r' := by
  unfold processRequest at hr hr'
  by_cases hdenied : w.denied = true
  · rw [if_pos hdenied] at hr
    cases hr
  · rw [if_neg hdenied] at hr hr'
    by_cases hvers : msg.vers ≠ TALK_VERSION
    · simp only [if_pos hvers] at hr hr'
      rw [← Option.some.inj hr, ← Option.some.inj hr']
      exact (alike_begun msg rp rp').agree BADVERSION (Or.inr (by decide))
    · simp only [if_neg hvers] at hr hr'
      by_cases haddr : msg.addr.family ≠ AF_INET
      · simp only [if_pos haddr] at hr hr'
        rw [← Option.some.inj hr, ← Option.some.inj hr']
        exact (alike_begun msg rp rp').agree BADADDR (Or.inr (by decide))
      · simp only [if_neg haddr] at hr hr'
        by_cases hctl : msg.ctlAddr.family ≠ AF_INET
        · simp only [if_pos hctl] at hr hr'
          rw [← Option.some.inj hr, ← Option.some.inj hr']
          exact (alike_begun msg rp rp').agree BADCTLADDR (Or.inr (by decide))
        · rw [accepted, Bool.eq_false_iff] at ha
          simp only [not_not] at hvers haddr hctl
          exact absurd (by simp [hdenied, hvers, haddr, hctl]) ha

/-- What a client reads depends on the request and the table exactly where the request does not
    leave an invitation that the table does not have. -/
theorem settled_iff (ttl : Int) (w : World) (s : Daemon) (msg : CtlMsg) : Settled ttl w s msg ↔ ¬ Leaves ttl w s msg := by
  constructor
  · intro hset hleaves
    obtain ⟨ha, ht, hnone⟩ := hleaves
    have hfound := (lookupRequest_none s.table).mpr hnone
    have hresponse : ∀ rp, (processRequest ttl w s msg rp).response = (leaveInvite ttl w s msg (begun msg rp)).response := by
      intro rp
      rw [processRequest_accepted ha, dispatch, if_neg (by rw [ht]; decide), if_pos ht]
      rfl
    have hsome : ∀ rp, ∃ r, (leaveInvite ttl w s msg rp).response = some r := by
      intro rp
      simp only [leaveInvite, hfound]
      exact ⟨_, rfl⟩
    -- two stacks that differ in the answer
    obtain ⟨r, hr⟩ := hsome (begun msg ⟨0, 0, 0, 0, ⟨0, []⟩⟩)
    obtain ⟨r', hr'⟩ := hsome (begun msg ⟨0, 0, 1, 0, ⟨0, []⟩⟩)
    have hagree := (hset _ _ r r' ((hresponse _).trans hr) ((hresponse _).trans hr')).answer
    rw [leaveInvite_answer hfound hr, leaveInvite_answer hfound hr'] at hagree
    exact absurd (show (0 : UInt8) = 1 from hagree) (by decide)
  · intro hno rp rp' r r' hr hr'
    cases ha : accepted w msg with
    | false => exact refused_agree ha hr hr'
    | true =>
      rw [processRequest_accepted ha] at hr hr'
      refine dispatch_agree (alike_begun msg rp rp') (fun ht hnone => hno ⟨ha, ht, ?_⟩) hr hr'
      exact (lookupRequest_none s.table).mp hnone

/-- The first invitation to be left is answered with what was on the stack. -/
theorem leave_unanswered : ¬ Settled MAX_LIFE (sent 0 leave).world .init leave := by
  intro h
  have hagree := (h ⟨0, 0, 0, 0, ⟨0, []⟩⟩ ⟨0, 0, 1, 0, ⟨0, []⟩⟩ _ _ rfl rfl).answer
  revert hagree
  decide

end Netutils.Talkd
