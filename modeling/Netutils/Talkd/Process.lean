/-
  Netutils.Talkd.Process — what talkd does with a request (talkd/process.c), and a run of it.
-/

import Netutils.Lib.Transition
import Netutils.Talkd.Table

namespace Netutils.Talkd

open Netutils.Protocols

/-! ## One request -/

/-- What process_request meets. -/
structure World where
  /-- acl_match -/
  denied : Bool
  /-- What find_user returns, and the tty it leaves. -/
  findUser : UInt8 × Str
  /-- gethostbyaddr of the control address. -/
  host : Option Str
  announce : UInt8
  /-- `time ()` in a lookup, and in insert_table. -/
  now : Int
  later : Int

structure Outcome where
  /-- `none`: the request is dropped. -/
  response : Option CtlResponse
  daemon : Daemon
  /-- The lookup, if it has come to one. -/
  lookup : Option Lookup
  /-- The invitation that the id of the response is of. -/
  about : Option Nat

section Request

variable (ttl : Int) (w : World)

def doAnnounce (s : Daemon) (mp : CtlMsg) (rp : CtlResponse) : Outcome :=
  if w.findUser.1 ≠ SUCCESS then ⟨some { rp with answer := w.findUser.1 }, s, none, none⟩
  else
    match w.host with
    | none => ⟨some { rp with answer := MACHINE_UNKNOWN }, s, none, none⟩
    | some _ =>
      let mp := { mp with rTty := w.findUser.2 }
      let l := lookupRequest ttl w.now (exactComp mp w.now) s.table
      let s := { s with table := l.table }
      match l.found with
      | none =>
        let r := s.insertTable w.later mp rp
        ⟨some { r.2 with answer := w.announce }, r.1, some l, some r.1.issued⟩
      | some (i, ptr) =>
        if ptr.request.idNum < mp.idNum then
          -- explicit re-announce
          let s := s.reissue i
          ⟨some { rp with idNum := s.currentId, answer := w.announce }, s, some l, some s.issued⟩
        else ⟨some { rp with idNum := ptr.request.idNum, answer := SUCCESS }, s, some l, some ptr.issue⟩

def leaveInvite (s : Daemon) (msg : CtlMsg) (rp : CtlResponse) : Outcome :=
  let l := lookupRequest ttl w.now (exactComp msg w.now) s.table
  let s := { s with table := l.table }
  match l.found with
  | some (_, ptr) => ⟨some { rp with idNum := ptr.request.idNum, answer := SUCCESS }, s, some l, some ptr.issue⟩
  | none =>
    let r := s.insertTable w.later msg rp
    ⟨some r.2, r.1, some l, some r.1.issued⟩

def lookUp (s : Daemon) (msg : CtlMsg) (rp : CtlResponse) : Outcome :=
  let l := lookupRequest ttl w.now (fuzzyComp msg) s.table
  let s := { s with table := l.table }
  match l.found with
  | some (_, ptr) =>
    ⟨some { rp with idNum := ptr.request.idNum, addr := ptr.request.addr, answer := SUCCESS }, s, some l, some ptr.issue⟩
  | none => ⟨some { rp with answer := NOT_HERE }, s, some l, none⟩

/-- `switch (msg->type)` -/
def dispatch (s : Daemon) (msg : CtlMsg) (rp : CtlResponse) : Outcome :=
  if msg.type = ANNOUNCE then doAnnounce ttl w s msg rp
  else if msg.type = LEAVE_INVITE then leaveInvite ttl w s msg rp
  else if msg.type = LOOK_UP then lookUp ttl w s msg rp
  else if msg.type = DELETE then
    let r := s.deleteInvite msg.idNum
    ⟨some { rp with answer := r.1 }, r.2, none, none⟩
  else ⟨some { rp with answer := UNKNOWN_REQUEST }, s, none, none⟩

/-- The request gets past the checks in front. -/
def accepted (msg : CtlMsg) : Bool :=
  !w.denied && msg.vers = TALK_VERSION && msg.addr.family = AF_INET && msg.ctlAddr.family = AF_INET

/-- process_request; `rp` is what the response had in it before. -/
def processRequest (s : Daemon) (msg : CtlMsg) (rp : CtlResponse) : Outcome :=
  if w.denied then ⟨none, s, none, none⟩
  else
    let rp := { rp with vers := TALK_VERSION, type := msg.type, idNum := 0 }
    if msg.vers ≠ TALK_VERSION then ⟨some { rp with answer := BADVERSION }, s, none, none⟩
    else if msg.addr.family ≠ AF_INET then ⟨some { rp with answer := BADADDR }, s, none, none⟩
    else if msg.ctlAddr.family ≠ AF_INET then ⟨some { rp with answer := BADCTLADDR }, s, none, none⟩
    else dispatch ttl w s msg rp

end Request

/-! ## A run -/

/-- A request, what it meets, and what is in the response before. -/
structure Event where
  world : World
  msg : CtlMsg
  rp : CtlResponse

structure Served where
  daemon : Daemon
  clock : Int
  /-- The lookups there have been, and when. -/
  lookups : List (Int × Lookup)
  /-- The ids told to somebody, and of which invitations. -/
  told : List (Nat × Nat)

def Served.init (clock : Int) : Served := ⟨.init, clock, [], []⟩

/-- The id in the response, if it is of an invitation. -/
def Outcome.tells (o : Outcome) : List (Nat × Nat) :=
  match o.response, o.about with
  | some rp, some issue => [(rp.idNum, issue)]
  | _, _ => []

/-- The clock does not go back. -/
def serve (ttl : Int) (e : Event) (s : Served) : Option Served :=
  if s.clock ≤ e.world.now ∧ e.world.now ≤ e.world.later then
    let o := processRequest ttl e.world s.daemon e.msg e.rp
    some ⟨o.daemon, e.world.later, s.lookups ++ (o.lookup.map fun l => (e.world.now, l)).toList, s.told ++ o.tells⟩
  else none

/-! ## What a request does -/

/-- The comparison that a request comes to. -/
def comparison (w : World) (msg : CtlMsg) : Option (Entry → Option Entry) :=
  if accepted w msg = false then none
  else if msg.type = ANNOUNCE then
    if w.findUser.1 = SUCCESS ∧ w.host.isSome then some (exactComp { msg with rTty := w.findUser.2 } w.now) else none
  else if msg.type = LEAVE_INVITE then some (exactComp msg w.now)
  else if msg.type = LOOK_UP then some (fuzzyComp msg)
  else none

variable {ttl : Int} {w : World} {s : Daemon} {msg : CtlMsg} {rp : CtlResponse}

/-- What a response says of itself, whatever the request comes to. -/
structure Outcome.Headed (o : Outcome) (vers type : UInt8) : Prop where
  vers : ∀ r, o.response = some r → r.vers = vers
  type : ∀ r, o.response = some r → r.type = type

theorem headed_some {r : CtlResponse} {d : Daemon} {l : Option Lookup} {about : Option Nat} :
    Outcome.Headed ⟨some r, d, l, about⟩ r.vers r.type :=
  ⟨fun _ h => Option.some.inj h ▸ rfl, fun _ h => Option.some.inj h ▸ rfl⟩

theorem headed_dispatch : (dispatch ttl w s msg rp).Headed rp.vers rp.type := by
  unfold dispatch doAnnounce leaveInvite lookUp
  simp only
  repeat' split
  all_goals exact headed_some

/-- A response has the version of the protocol and the type of the request. -/
theorem headed_processRequest (ttl : Int) (w : World) (s : Daemon) (msg : CtlMsg) (rp : CtlResponse) :
    (processRequest ttl w s msg rp).Headed TALK_VERSION msg.type := by
  unfold processRequest
  simp only
  repeat' split
  · exact ⟨nofun, nofun⟩
  · exact headed_some
  · exact headed_some
  · exact headed_some
  · exact headed_dispatch

/-- A comparison is exact_comp or fuzzy_comp. -/
theorem comparison_cases {comp : Entry → Option Entry} (h : comparison w msg = some comp) :
    (∃ m, comp = exactComp m w.now) ∨ comp = fuzzyComp msg := by
  unfold comparison at h
  split at h
  · exact absurd h (by simp)
  · split at h
    · split at h
      · exact Or.inl ⟨_, (Option.some.inj h).symm⟩
      · exact absurd h (by simp)
    · split at h
      · exact Or.inl ⟨_, (Option.some.inj h).symm⟩
      · split at h
        · exact Or.inr (Option.some.inj h).symm
        · exact absurd h (by simp)

theorem exactComp_eq {m : CtlMsg} {now : Int} {e e' : Entry} (h : exactComp m now e = some e') : e' = { e with time := now } := by
  unfold exactComp at h
  split at h
  · exact (Option.some.inj h).symm
  · exact absurd h (by simp)

theorem fuzzyComp_eq {m : CtlMsg} {e e' : Entry} (h : fuzzyComp m e = some e') : e' = e := by
  unfold fuzzyComp at h
  split at h
  · exact (Option.some.inj h).symm
  · exact absurd h (by simp)

/-- What is found is left as it is, or with this time. -/
theorem comparison_eq {comp : Entry → Option Entry} {e e' : Entry} (h : comparison w msg = some comp) (he : comp e = some e') :
    e' = { e with time := w.now } ∨ e' = e := by
  rcases comparison_cases h with ⟨m, rfl⟩ | rfl
  · exact Or.inl (exactComp_eq he)
  · exact Or.inr (fuzzyComp_eq he)

theorem processRequest_accepted (h : accepted w msg = true) (s : Daemon) (rp : CtlResponse) :
    processRequest ttl w s msg rp = dispatch ttl w s msg { rp with vers := TALK_VERSION, type := msg.type, idNum := 0 } := by
  simp only [accepted, Bool.and_eq_true, Bool.not_eq_true', decide_eq_true_eq] at h
  obtain ⟨⟨⟨hdenied, hvers⟩, haddr⟩, hctl⟩ := h
  simp [processRequest, hdenied, hvers, haddr, hctl]

theorem processRequest_refused (h : accepted w msg = false) (s : Daemon) (rp : CtlResponse) :
    (processRequest ttl w s msg rp).daemon = s ∧ (processRequest ttl w s msg rp).lookup = none ∧
      (processRequest ttl w s msg rp).about = none := by
  unfold processRequest
  split
  · exact ⟨rfl, rfl, rfl⟩
  · simp only
    split
    · exact ⟨rfl, rfl, rfl⟩
    · split
      · exact ⟨rfl, rfl, rfl⟩
      · split
        · exact ⟨rfl, rfl, rfl⟩
        · simp_all [accepted]

/-- All that a request can do: to the table, by a lookup, and by an id told. -/
inductive Does (ttl : Int) (w : World) (s : Daemon) (msg : CtlMsg) : Daemon → Option Lookup → List (Nat × Nat) → Prop
  | nothing (hc : comparison w msg = none) (hd : accepted w msg = false ∨ msg.type ≠ DELETE) : Does ttl w s msg s none []
  | delete (hc : comparison w msg = none) (ha : accepted w msg = true) (ht : msg.type = DELETE) :
    Does ttl w s msg (s.deleteInvite msg.idNum).2 none []
  | miss (comp : Entry → Option Entry) (hc : comparison w msg = some comp) (ht : msg.type = LOOK_UP)
    (hf : (lookupRequest ttl w.now comp s.table).found = none) :
    Does ttl w s msg { s with table := (lookupRequest ttl w.now comp s.table).table }
      (some (lookupRequest ttl w.now comp s.table)) []
  | answer (comp : Entry → Option Entry) (hc : comparison w msg = some comp) (i : Nat) (ptr : Entry)
    (hf : (lookupRequest ttl w.now comp s.table).found = some (i, ptr))
    (ht : ¬(msg.type = ANNOUNCE ∧ ptr.request.idNum < msg.idNum)) :
    Does ttl w s msg { s with table := (lookupRequest ttl w.now comp s.table).table }
      (some (lookupRequest ttl w.now comp s.table)) [(ptr.request.idNum, ptr.issue)]
  | reannounce (comp : Entry → Option Entry) (hc : comparison w msg = some comp) (i : Nat) (ptr : Entry)
    (hf : (lookupRequest ttl w.now comp s.table).found = some (i, ptr))
    (ht : msg.type = ANNOUNCE ∧ ptr.request.idNum < msg.idNum) :
    Does ttl w s msg (({ s with table := (lookupRequest ttl w.now comp s.table).table } : Daemon).reissue i)
      (some (lookupRequest ttl w.now comp s.table)) [(newId s.currentId, s.issued + 1)]
  | insert (comp : Entry → Option Entry) (hc : comparison w msg = some comp) (ht : msg.type ≠ LOOK_UP)
    (hf : (lookupRequest ttl w.now comp s.table).found = none) (request : CtlMsg) (rp : CtlResponse) :
    Does ttl w s msg
      (({ s with table := (lookupRequest ttl w.now comp s.table).table } : Daemon).insertTable w.later request rp).1
      (some (lookupRequest ttl w.now comp s.table)) [(newId s.currentId, s.issued + 1)]

theorem announce_does (ha : accepted w msg = true) (ht : msg.type = ANNOUNCE) :
    Does ttl w s msg (doAnnounce ttl w s msg rp).daemon (doAnnounce ttl w s msg rp).lookup (doAnnounce ttl w s msg rp).tells := by
  have hnodelete : msg.type ≠ DELETE := by rw [ht]; decide
  have hnolookup : msg.type ≠ LOOK_UP := by rw [ht]; decide
  unfold doAnnounce
  by_cases huser : w.findUser.1 = SUCCESS
  · rw [if_neg (not_not.mpr huser)]
    cases hhost : w.host with
    | none => exact .nothing (by simp [comparison, ha, ht, hhost]) (Or.inr hnodelete)
    | some name =>
      have hc : comparison w msg = some (exactComp { msg with rTty := w.findUser.2 } w.now) := by
        simp [comparison, ha, ht, huser, hhost]
      simp only
      cases hf : (lookupRequest ttl w.now (exactComp { msg with rTty := w.findUser.2 } w.now) s.table).found with
      | none => exact .insert _ hc hnolookup hf _ rp
      | some x =>
        obtain ⟨i, ptr⟩ := x
        by_cases hid : ptr.request.idNum < msg.idNum
        · simp only [if_pos hid]
          exact .reannounce _ hc i ptr hf ⟨ht, hid⟩
        · simp only [if_neg hid]
          exact .answer _ hc i ptr hf fun h => hid h.2
  · rw [if_pos huser]
    exact .nothing (by simp [comparison, ha, ht, huser]) (Or.inr hnodelete)

theorem leaveInvite_does (ha : accepted w msg = true) (ht : msg.type = LEAVE_INVITE) :
    Does ttl w s msg (leaveInvite ttl w s msg rp).daemon (leaveInvite ttl w s msg rp).lookup (leaveInvite ttl w s msg rp).tells := by
  have hc : comparison w msg = some (exactComp msg w.now) := by
    simp [comparison, ha, ht, LEAVE_INVITE, ANNOUNCE]
  unfold leaveInvite
  simp only
  cases hf : (lookupRequest ttl w.now (exactComp msg w.now) s.table).found with
  | none => exact .insert _ hc (by rw [ht]; decide) hf _ rp
  | some x => exact .answer _ hc x.1 x.2 hf fun h => absurd (ht.symm.trans h.1) (by decide)

theorem lookUp_does (ha : accepted w msg = true) (ht : msg.type = LOOK_UP) :
    Does ttl w s msg (lookUp ttl w s msg rp).daemon (lookUp ttl w s msg rp).lookup (lookUp ttl w s msg rp).tells := by
  have hc : comparison w msg = some (fuzzyComp msg) := by
    simp [comparison, ha, ht, LOOK_UP, LEAVE_INVITE, ANNOUNCE]
  unfold lookUp
  simp only
  cases hf : (lookupRequest ttl w.now (fuzzyComp msg) s.table).found with
  | none => exact .miss _ hc ht hf
  | some x => exact .answer _ hc x.1 x.2 hf fun h => absurd (ht.symm.trans h.1) (by decide)

theorem processRequest_does (ttl : Int) (w : World) (s : Daemon) (msg : CtlMsg) (rp : CtlResponse) :
    Does ttl w s msg (processRequest ttl w s msg rp).daemon (processRequest ttl w s msg rp).lookup
      (processRequest ttl w s msg rp).tells := by
  cases ha : accepted w msg with
  | false =>
    obtain ⟨hdaemon, hlookup, habout⟩ := processRequest_refused ha s rp
    have htells : (processRequest ttl w s msg rp).tells = [] := by
      rw [Outcome.tells, habout]
      cases (processRequest ttl w s msg rp).response <;> rfl
    rw [hdaemon, hlookup, htells]
    exact .nothing (by simp [comparison, ha]) (Or.inl ha)
  | true =>
    rw [processRequest_accepted ha, dispatch]
    by_cases hannounce : msg.type = ANNOUNCE
    · rw [if_pos hannounce]
      exact announce_does ha hannounce
    · rw [if_neg hannounce]
      by_cases hleave : msg.type = LEAVE_INVITE
      · rw [if_pos hleave]
        exact leaveInvite_does ha hleave
      · rw [if_neg hleave]
        by_cases hlook : msg.type = LOOK_UP
        · rw [if_pos hlook]
          exact lookUp_does ha hlook
        · rw [if_neg hlook]
          have hc : comparison w msg = none := by simp [comparison, ha, hannounce, hleave, hlook]
          by_cases hdelete : msg.type = DELETE
          · rw [if_pos hdelete]
            exact .delete hc ha hdelete
          · rw [if_neg hdelete]
            exact .nothing hc (Or.inr hdelete)

/-- A request served, and what was written down of it. -/
theorem serve_does {e : Event} {u t : Served} (h : serve ttl e u = some t) :
    ∃ l told, Does ttl e.world u.daemon e.msg t.daemon l told ∧
      t.lookups = u.lookups ++ (l.map fun l => (e.world.now, l)).toList ∧ t.told = u.told ++ told ∧
      t.clock = e.world.later ∧ u.clock ≤ e.world.now ∧ e.world.now ≤ e.world.later := by
  unfold serve at h
  split at h
  · rename_i hclock
    obtain rfl := Option.some.inj h
    exact ⟨_, _, processRequest_does ttl e.world u.daemon e.msg e.rp, rfl, rfl, rfl, hclock⟩
  · exact absurd h (by simp)

/-- One user leaves an invitation for another. -/
def leave : CtlMsg := ⟨TALK_VERSION, LEAVE_INVITE, 0, ⟨AF_INET, []⟩, ⟨AF_INET, []⟩, 1, [0x61], [0x62], []⟩

/-- Where nothing is in the way. -/
def sent (now : Int) (msg : CtlMsg) : Event :=
  ⟨⟨false, (SUCCESS, []), some [], SUCCESS, now, now⟩, msg, ⟨0, 0, 0, 0, ⟨AF_INET, []⟩⟩⟩

end Netutils.Talkd
