/-
  Netutils.Talkd.Ids — the ids of talkd's invitations (talkd/table.c, new_id), and what a DELETE
  takes away.

  new_id goes round after 15999 ids and looks at no invitation. So an id is unique as long as the
  counter does not come to one that is still in the table, and an id that somebody was told is
  good for a DELETE as long as it has not come to another invitation since (`identifies_iff`).
  A re-announced invitation counts as a new one here: it has the id of its own response, and
  what was told before is gone.
-/

import Mathlib.Data.List.Nodup
import Netutils.Talkd.Process

namespace Netutils.Talkd

open Netutils.Protocols Netutils.Lib.Transition

/-! ## What it is for -/

def Entry.id (e : Entry) : Nat := e.request.idNum

/-- The ids in the table are different, and none is 0. -/
def Distinct (s : Daemon) : Prop := (s.table.map Entry.id).Nodup ∧ ∀ e ∈ s.table, e.id ≠ 0

/-- A DELETE with an id that was told takes away the invitation that it was told for, and no other. -/
def DeletesTold (ttl : Int) (e : Event) (s : Served) : Prop :=
  accepted e.world e.msg = true → e.msg.type = DELETE → ∀ issue, (e.msg.idNum, issue) ∈ s.told →
    (processRequest ttl e.world s.daemon e.msg e.rp).daemon.table = s.daemon.table.filter fun x => x.issue ≠ issue

/-- All along, ids tell the invitations apart. -/
def Identifies (ttl : Int) : Served → List Event → Prop
  | s, [] => Distinct s.daemon
  | s, e :: es => Distinct s.daemon ∧ DeletesTold ttl e s ∧ ∀ t, serve ttl e s = some t → Identifies ttl t es

/-! ## When they do -/

/-- The other invitations, when a request gets an id for one. -/
def others (ttl : Int) (e : Event) (s : Daemon) : List Entry :=
  match comparison e.world e.msg with
  | none => []
  | some comp =>
    let l := lookupRequest ttl e.world.now comp s.table
    match l.found with
    | none => if e.msg.type = LOOK_UP then [] else l.table
    | some (i, ptr) => if e.msg.type = ANNOUNCE ∧ ptr.request.idNum < e.msg.idNum then l.table.eraseIdx i else []

/-- The counter's next id is not that of another invitation. -/
def Unused (ttl : Int) (e : Event) (s : Served) : Prop := ∀ x ∈ others ttl e s.daemon, x.id ≠ newId s.daemon.currentId

/-- The id of a DELETE, if it was told, has not come to another invitation. -/
def Current (e : Event) (s : Served) : Prop :=
  accepted e.world e.msg = true → e.msg.type = DELETE → ∀ issue, (e.msg.idNum, issue) ∈ s.told →
    ∀ x ∈ s.daemon.table, x.id = e.msg.idNum → x.issue = issue

/-! ## The tables that a request leaves -/

variable {ttl now : Int} {w : World} {comp : Entry → Option Entry} {table : List Entry} {s : Daemon} {msg : CtlMsg}

/-- What an id and its issue are of. -/
def Entry.name (e : Entry) : Nat × Nat := (e.id, e.issue)

theorem comparison_name {e e' : Entry} (hc : comparison w msg = some comp) (he : comp e = some e') : e'.name = e.name := by
  rcases comparison_eq hc he with rfl | rfl <;> rfl

/-- A lookup changes no name, and at most removes some. -/
theorem lookupRequest_names (hc : ∀ e e', comp e = some e' → e'.name = e.name) :
    ((lookupRequest ttl now comp table).table.map Entry.name).Sublist (table.map Entry.name) := by
  induction table with
  | nil => exact List.Sublist.refl _
  | cons e es ih =>
    rw [lookupRequest]
    split
    · exact ih.cons _
    · cases hcomp : comp e with
      | some e' =>
        simp only [List.map_cons, hc e e' hcomp]
        exact List.Sublist.refl _
      | none => exact ih.cons_cons _

theorem modify_length (f : Entry → Entry) (a b : List Entry) (x : Entry) :
    (a ++ x :: b).modify a.length f = a ++ f x :: b := by
  induction a with
  | nil => rfl
  | cons y a ih => exact congrArg (y :: ·) ih

/-- The entry that is found is in the table. -/
theorem lookupRequest_found {i : Nat} {ptr : Entry} (h : (lookupRequest ttl now comp table).found = some (i, ptr)) :
    ∃ a b, (lookupRequest ttl now comp table).table = a ++ ptr :: b ∧ a.length = i := by
  induction table generalizing i with
  | nil => exact absurd h (by simp [lookupRequest])
  | cons e es ih =>
    rw [lookupRequest] at h ⊢
    split at h
    · rename_i hold
      rw [if_pos hold]
      exact ih h
    · rename_i hold
      rw [if_neg hold]
      cases hcomp : comp e with
      | some e' =>
        rw [hcomp] at h
        obtain ⟨rfl, rfl⟩ := Prod.mk.inj (Option.some.inj h)
        exact ⟨[], es, rfl, rfl⟩
      | none =>
        rw [hcomp] at h
        obtain ⟨x, hx, heq⟩ := Option.map_eq_some_iff.mp h
        obtain ⟨rfl, rfl⟩ := Prod.mk.inj heq
        obtain ⟨a, b, htable, hlength⟩ := ih (i := x.1) (by rw [hx])
        exact ⟨e :: a, b, congrArg (e :: ·) htable, congrArg (· + 1) hlength⟩

/-! ## Names -/

theorem newId_ne_zero (currentId : Nat) : newId currentId ≠ 0 := by
  unfold newId
  split
  · decide
  · assumption

/-- Each issue is of one invitation, and what was told of one that is there is its name. -/
structure Numbered (names : List (Nat × Nat)) (issued : Nat) (told : List (Nat × Nat)) : Prop where
  issues : (names.map Prod.snd).Nodup
  le : ∀ p ∈ names, p.2 ≤ issued
  pos : ∀ p ∈ names, p.1 ≠ 0
  told_le : ∀ p ∈ told, p.2 ≤ issued
  told_eq : ∀ p ∈ told, ∀ q ∈ names, q.2 = p.2 → q = p

variable {ns ns' told : List (Nat × Nat)} {issued : Nat}

theorem Numbered.sublist (h : Numbered ns issued told) (hs : ns'.Sublist ns) : Numbered ns' issued told :=
  ⟨(hs.map _).nodup h.issues, fun p hp => h.le p (hs.subset hp), fun p hp => h.pos p (hs.subset hp), h.told_le,
    fun p hp q hq => h.told_eq p hp q (hs.subset hq)⟩

/-- The name of an invitation that is there is told. -/
theorem Numbered.tell (h : Numbered ns issued told) {new : List (Nat × Nat)} (hnew : new ⊆ ns) :
    Numbered ns issued (told ++ new) := by
  refine ⟨h.issues, h.le, h.pos, ?_, ?_⟩
  · intro p hp
    rcases List.mem_append.mp hp with hp | hp
    · exact h.told_le p hp
    · exact h.le p (hnew hp)
  · intro p hp q hq heq
    rcases List.mem_append.mp hp with hp | hp
    · exact h.told_eq p hp q hq heq
    · exact List.inj_on_of_nodup_map h.issues hq (hnew hp) heq

/-- An invitation gets the next name. -/
theorem Numbered.issue {a b : List (Nat × Nat)} {id : Nat} (h : Numbered ns issued told) (hs : (a ++ b).Sublist ns)
    (hid : id ≠ 0) : Numbered (a ++ (id, issued + 1) :: b) (issued + 1) (told ++ [(id, issued + 1)]) := by
  have hrest := h.sublist hs
  have hmem : ∀ p, p ∈ a ++ (id, issued + 1) :: b ↔ p = (id, issued + 1) ∨ p ∈ a ++ b := by
    intro p
    simp only [List.mem_append, List.mem_cons]
    tauto
  refine ⟨?_, ?_, ?_, ?_, ?_⟩
  · rw [List.map_append, List.map_cons, List.nodup_middle, List.nodup_cons, ← List.map_append]
    refine ⟨?_, hrest.issues⟩
    intro hin
    obtain ⟨p, hp, heq⟩ := List.mem_map.mp hin
    have hle := hrest.le p hp
    omega
  · intro p hp
    rcases (hmem p).mp hp with rfl | hp
    · exact Nat.le_refl _
    · exact Nat.le_succ_of_le (hrest.le p hp)
  · intro p hp
    rcases (hmem p).mp hp with rfl | hp
    · exact hid
    · exact hrest.pos p hp
  · intro p hp
    rcases List.mem_append.mp hp with hp | hp
    · exact Nat.le_succ_of_le (h.told_le p hp)
    · rw [List.mem_singleton.mp hp]
  · intro p hp q hq heq
    rcases List.mem_append.mp hp with hp | hp
    · have hle := h.told_le p hp
      rcases (hmem q).mp hq with rfl | hq
      · exact absurd heq (by simp only; omega)
      · exact hrest.told_eq p hp q hq heq
    · rw [List.mem_singleton.mp hp] at heq ⊢
      rcases (hmem q).mp hq with rfl | hq
      · rfl
      · have hle := hrest.le q hq
        exact absurd heq (by simp only; omega)

/-! ## One request -/

def Daemon.names (s : Daemon) : List (Nat × Nat) := s.table.map Entry.name

/-- An id is given out, beside these other invitations, or none is. -/
theorem does_names {e : Event} {d : Daemon} {l : Option Lookup} (h : Does ttl e.world s e.msg d l told) :
    (d.names.Sublist s.names ∧ d.issued = s.issued ∧ told ⊆ d.names ∧ others ttl e s = []) ∨
      ∃ a b, others ttl e s = a ++ b ∧ ((a ++ b).map Entry.name).Sublist s.names ∧
        d.names = a.map Entry.name ++ (newId s.currentId, s.issued + 1) :: b.map Entry.name ∧ d.issued = s.issued + 1 ∧
        told = [(newId s.currentId, s.issued + 1)] := by
  cases h with
  | nothing hc => exact Or.inl ⟨List.Sublist.refl _, rfl, List.nil_subset _, by simp [others, hc]⟩
  | delete hc =>
    left
    unfold Daemon.deleteInvite
    split
    · exact ⟨(List.eraseP_sublist).map _, rfl, List.nil_subset _, by simp [others, hc]⟩
    · exact ⟨List.Sublist.refl _, rfl, List.nil_subset _, by simp [others, hc]⟩
  | miss comp hc ht hf =>
    exact Or.inl ⟨lookupRequest_names fun _ _ => comparison_name hc, rfl, List.nil_subset _, by simp [others, hc, hf, ht]⟩
  | answer comp hc i ptr hf ht =>
    refine Or.inl ⟨lookupRequest_names fun _ _ => comparison_name hc, rfl, ?_, by simp [others, hc, hf, ht]⟩
    obtain ⟨a, b, htable, -⟩ := lookupRequest_found hf
    intro p hp
    rw [List.mem_singleton.mp hp]
    exact List.mem_map.mpr ⟨ptr, by simp [htable], rfl⟩
  | reannounce comp hc i ptr hf ht =>
    right
    obtain ⟨a, b, htable, rfl⟩ := lookupRequest_found hf
    have hnames : ((lookupRequest ttl e.world.now comp s.table).table.map Entry.name).Sublist s.names :=
      lookupRequest_names fun _ _ => comparison_name hc
    refine ⟨a, b, ?_, ?_, ?_, rfl, rfl⟩
    · simp [others, hc, hf, ht, htable, List.eraseIdx_append_of_length_le]
    · refine List.Sublist.trans ?_ hnames
      rw [htable, List.map_append, List.map_append, List.map_cons]
      exact List.Sublist.append_left (List.sublist_cons_self _ _) _
    · simp [Daemon.names, Daemon.reissue, htable, modify_length, Entry.name, Entry.id]
  | insert comp hc ht hf request =>
    right
    refine ⟨[], (lookupRequest ttl e.world.now comp s.table).table, ?_, ?_, rfl, rfl, rfl⟩
    · simp [others, hc, hf, ht]
    · exact lookupRequest_names fun _ _ => comparison_name hc

/-- The invariant of a run. -/
def Ordered (s : Served) : Prop := Numbered s.daemon.names s.daemon.issued s.told

variable {e : Event} {t : Served}

theorem distinct_iff {u : Served} (h : Ordered u) : Distinct u.daemon ↔ (u.daemon.names.map Prod.fst).Nodup := by
  have hmap : u.daemon.names.map Prod.fst = u.daemon.table.map Entry.id := by
    rw [Daemon.names, List.map_map]
    rfl
  rw [hmap, Distinct]
  exact and_iff_left fun x hx => h.pos x.name (List.mem_map_of_mem hx)

/-- The ids stay different exactly if no id is given out that another invitation has. -/
theorem serve_ordered {u : Served} (hu : Ordered u) (h : serve ttl e u = some t) :
    Ordered t ∧ (Distinct u.daemon → (Distinct t.daemon ↔ Unused ttl e u)) := by
  obtain ⟨l, new, hdoes, -, htold, -⟩ := serve_does h
  rcases does_names hdoes with ⟨hnames, hissued, hnew, hothers⟩ | ⟨a, b, hothers, hrest, hnames, hissued, hnew⟩
  · have hordered : Ordered t := by
      rw [Ordered, hissued, htold]
      exact (hu.sublist hnames).tell hnew
    refine ⟨hordered, fun hd => ?_⟩
    rw [distinct_iff hu] at hd
    rw [distinct_iff hordered, Unused, hothers]
    exact iff_of_true ((hnames.map _).nodup hd) nofun
  · have hordered : Ordered t := by
      rw [Ordered, hissued, htold, hnames, hnew]
      rw [List.map_append] at hrest
      exact hu.issue hrest (newId_ne_zero u.daemon.currentId)
    refine ⟨hordered, fun hd => ?_⟩
    rw [distinct_iff hu] at hd
    have hfirst : ((a ++ b).map Entry.id).Nodup := by
      have hsub := (hrest.map Prod.fst).nodup hd
      rwa [List.map_map] at hsub
    rw [distinct_iff hordered, Unused, hothers, hnames, List.map_append, List.map_cons, List.map_map, List.map_map,
      List.nodup_middle, List.nodup_cons]
    show newId u.daemon.currentId ∉ a.map Entry.id ++ b.map Entry.id ∧ (a.map Entry.id ++ b.map Entry.id).Nodup ↔ _
    rw [← List.map_append, and_iff_left hfirst, List.mem_map]
    exact ⟨fun hnot x hx heq => hnot ⟨x, hx, heq⟩, fun hall ⟨x, hx, heq⟩ => hall x hx heq⟩

/-! ## A DELETE -/

theorem processRequest_delete (ha : accepted w msg = true) (ht : msg.type = DELETE) (rp : CtlResponse) :
    (processRequest ttl w s msg rp).daemon = (s.deleteInvite msg.idNum).2 := by
  rw [processRequest_accepted ha, dispatch, if_neg (by rw [ht]; decide), if_neg (by rw [ht]; decide),
    if_neg (by rw [ht]; decide), if_pos ht]

theorem eraseP_eq_filter {i : Nat} (h : (table.map Entry.id).Nodup) :
    (table.eraseP fun x => x.request.idNum = i) = table.filter fun x => x.id ≠ i := by
  induction table with
  | nil => rfl
  | cons x xs ih =>
    rw [List.map_cons, List.nodup_cons] at h
    by_cases hx : x.id = i
    · have hnone : ∀ y ∈ xs, y.id ≠ i := fun y hy heq => h.1 (List.mem_map.mpr ⟨y, hy, heq.trans hx.symm⟩)
      rw [List.eraseP_cons_of_pos (by simpa [Entry.id] using hx), List.filter_cons_of_neg (by simpa using hx)]
      exact (List.filter_eq_self.mpr fun y hy => by simpa using hnone y hy).symm
    · rw [List.eraseP_cons_of_neg (by simpa [Entry.id] using hx), List.filter_cons_of_pos (by simpa using hx), ih h.2]

/-- The invitation with the id, where there is only one. -/
theorem deleteInvite_table {i : Nat} (h : Distinct s) : (s.deleteInvite i).2.table = s.table.filter fun x => x.id ≠ i := by
  unfold Daemon.deleteInvite
  split
  · exact eraseP_eq_filter h.1
  · rename_i hnone
    refine (List.filter_eq_self.mpr fun x hx => ?_).symm
    simp only [List.any_eq_true, not_exists, not_and] at hnone
    exact decide_eq_true (by simpa [Entry.id] using hnone x hx)

theorem deletesTold_iff {u : Served} (hu : Ordered u) (hd : Distinct u.daemon) : DeletesTold ttl e u ↔ Current e u := by
  refine forall_congr' fun ha => forall_congr' fun ht => forall_congr' fun issue => forall_congr' fun htold => ?_
  rw [processRequest_delete ha ht, deleteInvite_table hd]
  constructor
  · intro heq x hx hid
    by_contra hissue
    have hmem : x ∈ u.daemon.table.filter fun y => y.issue ≠ issue := by simpa using ⟨hx, hissue⟩
    rw [← heq] at hmem
    simp [hid] at hmem
  · intro hcur
    refine List.filter_congr fun x hx => ?_
    have hname : x.issue = issue → x.id = e.msg.idNum := fun h =>
      congrArg Prod.fst (hu.told_eq _ htold x.name (List.mem_map_of_mem hx) h)
    have hiff : x.id = e.msg.idNum ↔ x.issue = issue := ⟨hcur x hx, hname⟩
    simp [hiff]

/-! ## All requests -/

theorem identifies_of_ordered {es : List Event} {u : Served} (hu : Ordered u) (hd : Distinct u.daemon)
    (h : run (serve ttl) es u = some t) :
    Identifies ttl u es ↔ Meets (serve ttl) (fun e u => Unused ttl e u ∧ Current e u) es u := by
  induction es generalizing u with
  | nil => exact iff_of_true hd trivial
  | cons e es ih =>
    obtain ⟨v, hv, hrun⟩ := run_cons.mp h
    obtain ⟨hordered, hdistinct⟩ := serve_ordered hu hv
    have hnext : ∀ {P : Served → Prop}, (∀ v', serve ttl e u = some v' → P v') ↔ P v := by
      intro P
      rw [hv]
      exact ⟨fun hp => hp v rfl, fun hp v' hv' => Option.some.inj hv' ▸ hp⟩
    rw [Identifies, Meets, hnext, hnext, deletesTold_iff hu hd]
    by_cases hunused : Unused ttl e u
    · rw [ih hordered ((hdistinct hd).mpr hunused) hrun]
      tauto
    · have hnot : ¬ Identifies ttl v es := by
        intro hv
        have hdv : Distinct v.daemon := by cases es with
          | nil => exact hv
          | cons => exact hv.1
        exact hunused ((hdistinct hd).mp hdv)
      tauto

/-- In a run of talkd ids identify invitations exactly where no request is given an id that another
    invitation has, and no DELETE comes with one that has gone to another since it was told. -/
theorem identifies_iff (ttl clock : Int) (es : List Event) (t : Served)
    (h : run (serve ttl) es (Served.init clock) = some t) :
    Identifies ttl (Served.init clock) es ↔
      Meets (serve ttl) (fun e s => Unused ttl e s ∧ Current e s) es (Served.init clock) :=
  identifies_of_ordered ⟨List.nodup_nil, nofun, nofun, nofun, nofun⟩ ⟨List.nodup_nil, nofun⟩ h

theorem identifies_one : Identifies MAX_LIFE (Served.init 0) [sent 0 leave] := by
  refine (identifies_iff MAX_LIFE 0 [sent 0 leave] _ rfl).mpr ⟨⟨?_, ?_⟩, fun _ _ => trivial⟩
  · exact fun _ hx => nomatch hx
  · exact fun _ ht => absurd ht (by decide)

/-! ## The counter comes round -/

/-- Another user, who announces and announces again. -/
def again : CtlMsg := { leave with type := ANNOUNCE, idNum := 0xffffffff, pid := 2, lName := [0x63] }

/-- The two invitations, the second of them with the id that was given out last. -/
def two (id issued : Nat) : Daemon :=
  ⟨[⟨{ again with idNum := id }, 0, issued⟩, ⟨{ leave with idNum := 1 }, 0, 1⟩], id, issued⟩

theorem newId_lt (currentId : Nat) : newId currentId < MAX_ID := by
  unfold newId
  split
  · decide
  · exact Nat.mod_lt _ (by decide)

theorem newId_iterate {n : Nat} (hn : n + 2 < MAX_ID) : newId^[n] 2 = n + 2 := by
  induction n with
  | zero => rfl
  | succ n ih =>
    have hmod : (n + 2 + 1) % MAX_ID = n + 2 + 1 := Nat.mod_eq_of_lt (by omega)
    rw [Function.iterate_succ_apply', ih (by omega), newId, hmod, if_neg (by omega)]

theorem serve_again {id issued : Nat} (hid : id < MAX_ID) {u : Served} (hu : u.daemon = two id issued) (hclock : u.clock = 0) :
    ∃ t, serve MAX_LIFE (sent 0 again) u = some t ∧ t.daemon = two (newId id) (issued + 1) ∧ t.clock = 0 := by
  have hlt : id < 0xffffffff := Nat.lt_trans hid (by decide)
  obtain ⟨d, c, l, told⟩ := u
  obtain rfl : d = two id issued := hu
  obtain rfl : c = 0 := hclock
  refine ⟨_, rfl, ?_, rfl⟩
  show (processRequest MAX_LIFE (sent 0 again).world (two id issued) again _).daemon = _
  simp [processRequest, dispatch, doAnnounce, sent, again, leave, two, lookupRequest, exactComp, Daemon.reissue, hlt,
    MAX_LIFE]

theorem run_again (n : Nat) {id issued : Nat} (hid : id < MAX_ID) {u : Served} (hu : u.daemon = two id issued)
    (hclock : u.clock = 0) :
    ∃ t, run (serve MAX_LIFE) (List.replicate n (sent 0 again)) u = some t ∧ t.daemon = two (newId^[n] id) (issued + n) := by
  induction n generalizing id issued u with
  | zero => exact ⟨u, rfl, hu⟩
  | succ n ih =>
    obtain ⟨v, hv, hdaemon, hclock'⟩ := serve_again hid hu hclock
    obtain ⟨t, ht, hdaemon'⟩ := ih (newId_lt id) hdaemon hclock'
    refine ⟨t, run_cons.mpr ⟨v, hv, ht⟩, ?_⟩
    rw [hdaemon', Function.iterate_succ_apply, Nat.add_right_comm, Nat.add_assoc]

theorem Identifies.run_distinct {es : List Event} {u : Served} (h : Identifies ttl u es) (hrun : run (serve ttl) es u = some t) :
    Distinct t.daemon := by
  induction es generalizing u with
  | nil =>
    obtain rfl := Option.some.inj hrun
    exact h
  | cons e es ih =>
    obtain ⟨v, hv, hrun⟩ := run_cons.mp hrun
    exact ih (h.2.2 v hv) hrun

/-- Behind 15998 announcements the first user's id is given out a second time. -/
theorem same_id_twice :
    ¬ Identifies MAX_LIFE (Served.init 0) (sent 0 leave :: sent 0 again :: List.replicate 15998 (sent 0 again)) := by
  intro h
  obtain ⟨t, ht, hdaemon⟩ := run_again 15998 (show 2 < MAX_ID by decide)
    (u := ⟨two 2 2, 0, _, _⟩) rfl rfl
  have hrun : run (serve MAX_LIFE) (sent 0 leave :: sent 0 again :: List.replicate 15998 (sent 0 again)) (Served.init 0) =
      some t := run_cons.mpr ⟨_, rfl, run_cons.mpr ⟨_, rfl, ht⟩⟩
  have hdistinct := h.run_distinct hrun
  rw [hdaemon, Function.iterate_succ_apply', newId_iterate (by decide)] at hdistinct
  exact absurd hdistinct.1 (by decide)

end Netutils.Talkd
