/-
  Netutils.Inetd.Selects — the descriptors that inetd selects on are those of the services that
  do not wait for a child (inetd/inetd.c).

  A reload breaks this for a service whose child is running: close_sep counts its descriptor off
  once more, although the fork has done so, and an entry that says "nowait" wipes the pid out, so
  that reapchild does not put the descriptor back. Nothing else does (`selects_of_meets`).
-/

import Mathlib.Data.Finset.Lattice.Fold
import Mathlib.Data.List.Nodup
import Mathlib.Order.Lattice.Nat
import Netutils.Inetd.Servtab

namespace Netutils.Inetd

open Netutils.Lib.Transition

/-- The daemon is to wait for its descriptor. -/
def Servtab.listening (sep : Servtab) : Bool := sep.fd.isSome && sep.wait ≤ 1

structure Selects (s : Daemon) : Prop where
  allsock : ∀ fd, fd ∈ s.globals.allsock ↔ ∃ sep ∈ s.servtab, sep.fd = some fd ∧ sep.wait ≤ 1
  nsock : s.globals.nsock = s.servtab.countP Servtab.listening

def Lookup.moves (port : Nat) : Lookup → Bool
  | .port p => p ≠ port
  | _ => false

/-- A reload does not close, drop or stop the waiting of a service whose child is running. -/
def Spares : Event → Daemon → Prop
  | .purge, s => ∀ sep ∈ s.servtab, sep.checked = false → sep.wait ≤ 1
  | .nextconfig h _ e, s =>
    h.user e.user = true → ∀ sep ∈ s.servtab.find? e.names, 1 < sep.wait →
      (e.bi = none → e.wait = true) ∧ (h.lookup sep.service sep.proto).moves sep.port = false
  | _, _ => True

instance Spares.decide : ∀ a s, Decidable (Spares a s)
  | .purge, s => inferInstanceAs (Decidable (∀ sep ∈ s.servtab, sep.checked = false → sep.wait ≤ 1))
  | .nextconfig h _ e, s =>
    inferInstanceAs (Decidable (h.user e.user = true → ∀ sep ∈ s.servtab.find? e.names, 1 < sep.wait →
      (e.bi = none → e.wait = true) ∧ (h.lookup sep.service sep.proto).moves sep.port = false))
  | .select _, _ | .visit _, _ | .reapchild _, _ | .retry _, _ | .config, _ => .isTrue trivial

/-! ## The invariant -/

/-- What holds of the services, in whatever order they are. -/
structure Good (g : Globals) (l : List Servtab) : Prop where
  allsock : ∀ fd, fd ∈ g.allsock ↔ ∃ sep ∈ l, sep.fd = some fd ∧ sep.wait ≤ 1
  nsock : g.nsock = l.countP Servtab.listening
  opened : ∀ sep ∈ l, ∀ fd, sep.fd = some fd → fd ∈ g.opened
  fds : (l.filterMap Servtab.fd).Nodup
  closed : ∀ sep ∈ l, sep.fd = none → sep.wait ≤ 1
  mux : ∀ sep ∈ l, sep.isMux = true → sep.fd = none
  ids : (l.map Servtab.id).Nodup
  bound : ∀ sep ∈ l, sep.id < g.nextId
  pass : ∀ sep ∈ l, sep.id ∈ g.rest → ∀ fd, sep.fd = some fd → fd ∈ g.readable → sep.wait ≤ 1
  rest : g.rest.Nodup

/-- One service and the globals change together, the other services do not. -/
structure Moves (g : Globals) (sep : Servtab) (g' : Globals) (sep' : Servtab) : Prop where
  id : sep'.id = sep.id
  next : g'.nextId = g.nextId
  mux : sep'.isMux = true → sep'.fd = none
  closed : sep'.fd = none → sep'.wait ≤ 1
  allsock : ∀ fd, fd ∈ g'.allsock ↔
    (sep'.fd = some fd ∧ sep'.wait ≤ 1) ∨ (fd ∈ g.allsock ∧ sep.fd ≠ some fd ∧ sep'.fd ≠ some fd)
  nsock : g'.nsock = g.nsock - sep.listening.toNat + sep'.listening.toNat
  others : ∀ fd, fd ∈ g.opened → sep.fd ≠ some fd → fd ∈ g'.opened
  own : ∀ fd, sep'.fd = some fd → fd ∈ g'.opened ∧ (sep.fd = some fd ∨ fd ∉ g.opened)
  pass : sep'.id ∈ g'.rest → ∀ fd, sep'.fd = some fd → fd ∈ g'.readable → sep'.wait ≤ 1
  readable : g'.readable = g.readable
  rest : g'.rest.Sublist g.rest

variable {g g' : Globals} {sep sep' : Servtab} {l l' : List Servtab}

theorem Servtab.listening_of_closed (hfd : sep.fd = none) : sep.listening = false := by
  rw [Servtab.listening, hfd]
  rfl

theorem Servtab.listening_of_open {fd : Nat} (hfd : sep.fd = some fd) : sep.listening = decide (sep.wait ≤ 1) := by
  rw [Servtab.listening, hfd]
  exact Bool.true_and _

theorem Entry.waits_le_one (e : Entry) : e.waits ≤ 1 := by
  rw [Entry.waits]
  split <;> omega

theorem Good.perm (h : Good g l) (hperm : l.Perm l') : Good g l' where
  allsock fd := by simp only [h.allsock fd, hperm.mem_iff]
  nsock := by rw [h.nsock, hperm.countP_eq]
  opened x hx := h.opened x (hperm.mem_iff.mpr hx)
  fds := (hperm.filterMap _).nodup_iff.mp h.fds
  closed x hx := h.closed x (hperm.mem_iff.mpr hx)
  mux x hx := h.mux x (hperm.mem_iff.mpr hx)
  ids := (hperm.map _).nodup_iff.mp h.ids
  bound x hx := h.bound x (hperm.mem_iff.mpr hx)
  pass x hx := h.pass x (hperm.mem_iff.mpr hx)
  rest := h.rest

/-- No other service has its descriptor. -/
theorem Good.apart (h : Good g (sep :: l)) {x : Servtab} (hx : x ∈ l) {fd : Nat} (hfd : x.fd = some fd) : sep.fd ≠ some fd := by
  intro heq
  have hnodup := h.fds
  rw [List.filterMap_cons_some heq, List.nodup_cons] at hnodup
  exact hnodup.1 (List.mem_filterMap.mpr ⟨x, hx, hfd⟩)

theorem Good.moves (h : Good g (sep :: l)) (hm : Moves g sep g' sep') : Good g' (sep' :: l) := by
  have hmem : ∀ {x}, x ∈ l → x ∈ sep :: l := fun hx => List.mem_cons_of_mem sep hx
  have hapart : ∀ x ∈ l, ∀ fd, x.fd = some fd → sep.fd ≠ some fd ∧ sep'.fd ≠ some fd := by
    intro x hx fd hfd
    refine ⟨h.apart hx hfd, fun heq => ?_⟩
    rcases (hm.own fd heq).2 with hsame | hnew
    · exact h.apart hx hfd hsame
    · exact hnew (h.opened x (hmem hx) fd hfd)
  refine ⟨?_, ?_, ?_, ?_, ?_, ?_, ?_, ?_, ?_, h.rest.sublist hm.rest⟩
  · intro fd
    rw [hm.allsock, h.allsock]
    constructor
    · rintro (⟨hfd, hwait⟩ | ⟨⟨x, hx, hfd, hwait⟩, hold, -⟩)
      · exact ⟨sep', List.mem_cons_self, hfd, hwait⟩
      · rcases List.mem_cons.mp hx with rfl | hx
        · exact absurd hfd hold
        · exact ⟨x, List.mem_cons_of_mem _ hx, hfd, hwait⟩
    · intro h
      obtain ⟨x, hx, hfd, hwait⟩ := h
      rcases List.mem_cons.mp hx with rfl | hx
      · exact Or.inl ⟨hfd, hwait⟩
      · exact Or.inr ⟨⟨x, hmem hx, hfd, hwait⟩, hapart x hx fd hfd⟩
  · have hn := h.nsock
    rw [List.countP_cons] at hn ⊢
    rw [hm.nsock, hn]
    cases sep.listening <;> cases sep'.listening <;> simp
  · intro x hx fd hfd
    rcases List.mem_cons.mp hx with rfl | hx
    · exact (hm.own fd hfd).1
    · exact hm.others fd (h.opened x (hmem hx) fd hfd) (hapart x hx fd hfd).1
  · have hrest : (l.filterMap Servtab.fd).Nodup := by
      have hnodup := h.fds
      rw [List.filterMap_cons] at hnodup
      split at hnodup
      · exact hnodup
      · exact (List.nodup_cons.mp hnodup).2
    cases hfd : sep'.fd with
    | none => rwa [List.filterMap_cons_none hfd]
    | some fd =>
      rw [List.filterMap_cons_some hfd, List.nodup_cons]
      refine ⟨fun hin => ?_, hrest⟩
      obtain ⟨x, hx, hxfd⟩ := List.mem_filterMap.mp hin
      exact (hapart x hx fd hxfd).2 hfd
  · intro x hx hnone
    rcases List.mem_cons.mp hx with rfl | hx
    · exact hm.closed hnone
    · exact h.closed x (hmem hx) hnone
  · intro x hx hmux
    rcases List.mem_cons.mp hx with rfl | hx
    · exact hm.mux hmux
    · exact h.mux x (hmem hx) hmux
  · have hids := h.ids
    rw [List.map_cons] at hids ⊢
    rwa [hm.id]
  · intro x hx
    rw [hm.next]
    rcases List.mem_cons.mp hx with rfl | hx
    · rw [hm.id]
      exact h.bound sep List.mem_cons_self
    · exact h.bound x (hmem hx)
  · intro x hx hrest fd hfd hin
    rcases List.mem_cons.mp hx with rfl | hx
    · exact hm.pass hrest fd hfd hin
    · rw [hm.readable] at hin
      exact h.pass x (hmem hx) (hm.rest.subset hrest) fd hfd hin

/-! ## One service -/

/-- Its descriptor is selected on unless it waits. -/
theorem Good.mem_own (h : Good g (sep :: l)) {fd : Nat} (hfd : sep.fd = some fd) : fd ∈ g.allsock ↔ sep.wait ≤ 1 := by
  rw [h.allsock]
  constructor
  · intro h
    obtain ⟨x, hx, hxfd, hwait⟩ := h
    rcases List.mem_cons.mp hx with rfl | hx
    · exact hwait
    · exact absurd hfd (h.apart hx hxfd)
  · exact fun hwait => ⟨sep, List.mem_cons_self, hfd, hwait⟩

/-- Other fields of a service change, or it stops or starts to wait without a child. -/
theorem Good.keep (h : Good g (sep :: l)) (hid : sep'.id = sep.id) (hfd : sep'.fd = sep.fd) (hmux : sep'.isMux = sep.isMux)
    (hwait : sep'.wait ≤ 1 ↔ sep.wait ≤ 1) : Good g (sep' :: l) := by
  have hlistening : sep'.listening = sep.listening := by
    rw [Servtab.listening, Servtab.listening, hfd, decide_eq_decide.mpr hwait]
  refine h.moves ⟨hid, rfl, ?_, ?_, ?_, ?_, fun _ ho _ => ho, ?_, ?_, rfl, List.Sublist.refl _⟩
  · rw [hmux, hfd]
    exact h.mux sep List.mem_cons_self
  · rw [hfd, hwait]
    exact h.closed sep List.mem_cons_self
  · intro fd
    rw [hfd, hwait]
    by_cases hown : sep.fd = some fd
    · rw [h.mem_own hown]
      simp [hown]
    · simp [hown]
  · rw [hlistening]
    omega
  · intro fd hown
    rw [hfd] at hown
    exact ⟨h.opened sep List.mem_cons_self fd hown, Or.inl hown⟩
  · rw [hid, hfd, hwait]
    exact h.pass sep List.mem_cons_self

theorem Good.closeSep (h : Good g (sep :: l)) (hwait : sep.wait ≤ 1) :
    Good (closeSep g sep).1 ((closeSep g sep).2 :: l) := by
  have hone : (Inetd.closeSep g sep).2.wait ≤ 1 := by
    rw [Inetd.closeSep]
    simp only
    split <;> omega
  refine h.moves ?_
  cases hfd : sep.fd with
  | none =>
    have hg : (Inetd.closeSep g sep).1 = g := by rw [Inetd.closeSep, hfd]
    have hlistening := Servtab.listening_of_closed hfd
    rw [hg]
    refine ⟨rfl, rfl, fun _ => rfl, fun _ => hone, fun fd => ?_, ?_, fun _ ho _ => ho, ?_, ?_, rfl, List.Sublist.refl _⟩
    · simp [Inetd.closeSep, hfd]
    · rw [hlistening]
      simp [Inetd.closeSep, Servtab.listening]
    · intro d hd
      cases hd
    · intro _ _ hd
      cases hd
  | some fd =>
    have hg : (Inetd.closeSep g sep).1 =
        { g with nsock := g.nsock - 1, allsock := g.allsock.erase fd, opened := g.opened.erase fd } := by
      rw [Inetd.closeSep, hfd]
    have hlistening : sep.listening = true := (Servtab.listening_of_open hfd).trans (decide_eq_true hwait)
    rw [hg]
    refine ⟨rfl, rfl, fun _ => rfl, fun _ => hone, fun d => ?_, ?_, ?_, ?_, ?_, rfl, List.Sublist.refl _⟩
    · simp [Inetd.closeSep, hfd, Finset.mem_erase, and_comm, eq_comm]
    · rw [hlistening]
      simp [Inetd.closeSep, Servtab.listening]
    · intro d ho hne
      refine Finset.mem_erase.mpr ⟨?_, ho⟩
      rintro rfl
      exact hne hfd
    · intro d hd
      cases hd
    · intro _ _ hd
      cases hd

theorem Good.setup (h : Good g (sep :: l)) (k : Kernel) (hfd : sep.fd = none) (hmux : sep.isMux = false) :
    Good (setup k g sep).1 ((setup k g sep).2 :: l) := by
  have hwait : sep.wait ≤ 1 := h.closed sep List.mem_cons_self hfd
  have hlistening := Servtab.listening_of_closed hfd
  refine h.moves ?_
  rw [Inetd.setup]
  cases hk : k.socket sep g.opened with
  | failed bind =>
    refine ⟨rfl, rfl, fun _ => rfl, fun _ => hwait, fun fd => ?_, ?_, fun _ ho _ => ho, ?_, ?_, rfl, List.Sublist.refl _⟩
    · simp [hfd]
    · rw [hlistening]
      simp [Servtab.listening]
    · intro d hd
      cases hd
    · intro _ _ hd
      cases hd
  | listening fd =>
    have hfresh := k.fresh sep g.opened fd hk
    refine ⟨rfl, rfl, fun hm => ?_, ?_, fun d => ?_, ?_, fun d ho _ => Finset.mem_insert_of_mem ho, ?_, ?_, rfl,
      List.Sublist.refl _⟩
    · exact Bool.noConfusion (hmux.symm.trans hm)
    · intro hd
      cases hd
    · by_cases hd : d = fd
      · subst hd
        simp [hwait]
      · have hd' : fd ≠ d := fun he => hd he.symm
        simp [hfd, hd, hd']
    · rw [hlistening]
      simp [Servtab.listening, hwait]
    · intro d hd
      obtain rfl := Option.some.inj hd
      exact ⟨Finset.mem_insert_self _ _, Or.inr hfresh⟩
    · exact fun _ _ _ _ => hwait

theorem Good.forked (h : Good g (sep :: l)) (pid : Pid) {fd : Nat} (hfd : sep.fd = some fd) (hwait : sep.wait ≤ 1)
    (hrest : sep.id ∉ g.rest) : Good (forked pid g sep).1 ((forked pid g sep).2 :: l) := by
  rw [Inetd.forked]
  split
  · exact h
  · have hlistening : sep.listening = true := (Servtab.listening_of_open hfd).trans (decide_eq_true hwait)
    have hpid : ¬ pid.val ≤ 1 := Nat.not_le.mpr pid.property
    have hmux : sep.isMux = true → some fd = none := fun hm => hfd ▸ h.mux sep List.mem_cons_self hm
    refine h.moves ?_
    rw [hfd]
    refine ⟨rfl, rfl, hmux, ?_, fun d => ?_, ?_, fun _ ho _ => ho, ?_, fun hin => absurd hin hrest, rfl,
      List.Sublist.refl _⟩
    · intro hd
      cases hd
    · simp [hpid, hfd, Finset.mem_erase, and_comm, eq_comm]
    · rw [hlistening]
      simp [Servtab.listening, hpid]
    · intro d hd
      obtain rfl := Option.some.inj hd
      exact ⟨h.opened sep List.mem_cons_self fd hfd, Or.inl hfd⟩

theorem Good.reap (h : Good g (sep :: l)) (pid : Pid) :
    Good (reap pid g sep).1 ((reap pid g sep).2.toList ++ l) := by
  rw [Inetd.reap]
  split
  · rename_i heq
    have hpid : ¬ sep.wait ≤ 1 := by
      rw [heq]
      exact Nat.not_le.mpr pid.property
    cases hfd : sep.fd with
    | none => exact absurd (h.closed sep List.mem_cons_self hfd) hpid
    | some fd =>
      have hlistening : sep.listening = false := (Servtab.listening_of_open hfd).trans (decide_eq_false hpid)
      have hmux : sep.isMux = true → some fd = none := fun hm => hfd ▸ h.mux sep List.mem_cons_self hm
      refine h.moves ⟨rfl, rfl, hmux, fun _ => Nat.le_refl 1, fun d => ?_, ?_, fun _ ho _ => ho, ?_,
        fun _ _ _ _ => Nat.le_refl 1, rfl, List.Sublist.refl _⟩
      · by_cases hd : d = fd
        · subst hd
          simp [hfd]
        · have hd' : fd ≠ d := fun he => hd he.symm
          simp [hfd, hd, hd']
      · rw [hlistening]
        simp [Servtab.listening]
      · intro d hd
        obtain rfl := Option.some.inj hd
        exact ⟨h.opened sep List.mem_cons_self fd hfd, Or.inl hfd⟩
  · exact h

/-- A service without a descriptor is not missed. -/
theorem Good.tail (h : Good g (sep :: l)) (hfd : sep.fd = none) : Good g l := by
  have hmem : ∀ {x}, x ∈ l → x ∈ sep :: l := fun hx => List.mem_cons_of_mem sep hx
  have hlistening := Servtab.listening_of_closed hfd
  have hfds := h.fds
  have hids := h.ids
  rw [List.filterMap_cons_none hfd] at hfds
  rw [List.map_cons, List.nodup_cons] at hids
  refine ⟨fun fd => ?_, ?_, fun x hx => h.opened x (hmem hx), hfds, fun x hx => h.closed x (hmem hx),
    fun x hx => h.mux x (hmem hx), hids.2, fun x hx => h.bound x (hmem hx), fun x hx => h.pass x (hmem hx), h.rest⟩
  · rw [h.allsock]
    constructor
    · intro h
      obtain ⟨x, hx, hxfd, hwait⟩ := h
      rcases List.mem_cons.mp hx with rfl | hx
      · exact nomatch hfd.symm.trans hxfd
      · exact ⟨x, hx, hxfd, hwait⟩
    · intro h
      obtain ⟨x, hx, hxfd, hwait⟩ := h
      exact ⟨x, hmem hx, hxfd, hwait⟩
  · rw [h.nsock, List.countP_cons_of_neg (by rw [hlistening]; exact Bool.false_ne_true)]

theorem Good.enter (h : Good g l) (e : Entry) : Good { g with nextId := g.nextId + 1 } (e.enter g.nextId :: l) := by
  have hwait : (e.enter g.nextId).wait ≤ 1 := e.waits_le_one
  refine ⟨fun fd => ?_, ?_, ?_, ?_, ?_, ?_, ?_, ?_, ?_, h.rest⟩
  · rw [h.allsock]
    constructor
    · intro h
      obtain ⟨x, hx, hxfd, hx1⟩ := h
      exact ⟨x, List.mem_cons_of_mem _ hx, hxfd, hx1⟩
    · intro h
      obtain ⟨x, hx, hxfd, hx1⟩ := h
      rcases List.mem_cons.mp hx with rfl | hx
      · exact nomatch hxfd
      · exact ⟨x, hx, hxfd, hx1⟩
  · rw [List.countP_cons_of_neg Bool.false_ne_true]
    exact h.nsock
  · intro x hx fd hxfd
    rcases List.mem_cons.mp hx with rfl | hx
    · exact nomatch hxfd
    · exact h.opened x hx fd hxfd
  · exact h.fds
  · intro x hx hnone
    rcases List.mem_cons.mp hx with rfl | hx
    · exact hwait
    · exact h.closed x hx hnone
  · intro x hx hmux
    rcases List.mem_cons.mp hx with rfl | hx
    · rfl
    · exact h.mux x hx hmux
  · rw [List.map_cons, List.nodup_cons]
    refine ⟨fun hin => ?_, h.ids⟩
    obtain ⟨x, hx, hid⟩ := List.mem_map.mp hin
    exact absurd (h.bound x hx) (by rw [hid]; exact Nat.lt_irrefl _)
  · intro x hx
    rcases List.mem_cons.mp hx with rfl | hx
    · exact Nat.lt_succ_self _
    · exact Nat.lt_succ_of_lt (h.bound x hx)
  · intro x hx hrest fd hxfd hin
    rcases List.mem_cons.mp hx with rfl | hx
    · exact hwait
    · exact h.pass x hx hrest fd hxfd hin

theorem Good.purge (h : Good g (sep :: l)) (hwait : sep.checked = false → sep.wait ≤ 1) :
    Good (purge g sep).1 ((purge g sep).2.toList ++ l) := by
  rw [Inetd.purge]
  split
  · exact h
  · rename_i hchecked
    have hclosed := h.closeSep (hwait (Bool.not_eq_true _ |>.mp hchecked))
    cases hfd : sep.fd with
    | none => exact h.tail hfd
    | some fd => exact hclosed.tail rfl

theorem Good.uncheck (h : Good g (sep :: l)) : Good (uncheck g sep).1 ((uncheck g sep).2.toList ++ l) := by
  have hkept : Good g ({ sep with checked := false } :: l) := h.keep rfl rfl rfl Iff.rfl
  exact hkept

theorem Good.retry (h : Good g (sep :: l)) (k : Kernel) : Good (retry k g sep).1 ((retry k g sep).2.toList ++ l) := by
  rw [Inetd.retry]
  split
  · rename_i hdown
    exact h.setup k hdown.1 hdown.2
  · exact h

/-! ## A reload -/

theorem Good.ensureOpen (h : Good g (sep :: l)) (k : Kernel) (hmux : sep.isMux = false) :
    Good (ensureOpen k (g, sep)).1 ((ensureOpen k (g, sep)).2 :: l) := by
  rw [Inetd.ensureOpen]
  split
  · rename_i hfd
    exact h.setup k hfd hmux
  · exact h

theorem Good.setPort (h : Good g (sep :: l)) (p : Nat) (hwait : 1 < sep.wait → p = sep.port) :
    Good (setPort p g sep).1 ((setPort p g sep).2 :: l) := by
  rw [Inetd.setPort]
  split
  · exact h
  · rename_i hp
    have hone : sep.wait ≤ 1 := Nat.le_of_not_lt fun hlt => hp (hwait hlt)
    have hport : Good g ({ sep with port := p } :: l) := h.keep rfl rfl rfl Iff.rfl
    split
    · exact hport.closeSep hone
    · exact hport

theorem setPort_isMux (p : Nat) (g : Globals) (sep : Servtab) : (setPort p g sep).2.isMux = sep.isMux := by
  rw [setPort]
  split
  · rfl
  · split <;> rfl

theorem Good.update (h : Good g (sep :: l)) (host : Host) (k : Kernel)
    (hport : 1 < sep.wait → ∀ p, host.lookup sep.service sep.proto = .port p → p = sep.port) :
    Good (update host k g sep).1 ((update host k g sep).2 :: l) := by
  have hchecked : ∀ b, Good g ({ sep with checked := b } :: l) := fun b => h.keep rfl rfl rfl Iff.rfl
  rw [Inetd.update]
  split
  · rename_i hmux
    exact h.keep rfl (h.mux sep List.mem_cons_self hmux).symm rfl Iff.rfl
  · rename_i hmux
    rw [Bool.not_eq_true] at hmux
    cases hlookup : host.lookup sep.service sep.proto with
    | notAsked => exact (hchecked true).ensureOpen k hmux
    | unknown => exact hchecked false
    | port p => exact ((hchecked true).setPort p fun hw => hport hw p hlookup).ensureOpen k ((setPort_isMux _ _ _).trans hmux)

theorem Entry.merge_wait (e : Entry) (sep : Servtab) (hwait : 1 < sep.wait → e.bi = none → e.wait = true) :
    (e.merge sep).wait ≤ 1 ↔ sep.wait ≤ 1 := by
  have hone : e.waits ≤ 1 := e.waits_le_one
  rw [Entry.merge]
  simp only
  split
  · rename_i hset
    simp only [Bool.and_eq_true, Option.isNone_iff_eq_none, Bool.or_eq_true, decide_eq_true_eq, Bool.not_eq_true'] at hset
    refine iff_of_true hone (Nat.le_of_not_lt fun hlt => ?_)
    rcases hset.2 with heq | hno
    · omega
    · exact Bool.false_ne_true (hno.symm.trans (hwait hlt hset.1))
  · exact Iff.rfl

theorem Good.merge (h : Good g (sep :: l)) (e : Entry) (hwait : 1 < sep.wait → e.bi = none → e.wait = true) :
    Good g (e.merge sep :: l) := h.keep rfl rfl rfl (e.merge_wait sep hwait)

/-! ## The table -/

theorem sweep_good {f : Globals → Servtab → Globals × Option Servtab} {P : Servtab → Prop}
    (hf : ∀ g sep l, P sep → Good g (sep :: l) → Good (f g sep).1 ((f g sep).2.toList ++ l)) (done : List Servtab)
    (hP : ∀ sep ∈ l, P sep) (h : Good g (done ++ l)) : Good (sweep f g l).1 (done ++ (sweep f g l).2) := by
  induction l generalizing g done with
  | nil => exact h
  | cons sep l ih =>
    have hone := hf g sep (done ++ l) (hP sep List.mem_cons_self) (h.perm List.perm_middle)
    have hmoved : Good (f g sep).1 ((done ++ (f g sep).2.toList) ++ l) := by
      refine hone.perm ?_
      rw [List.append_assoc]
      exact List.perm_append_comm_assoc _ _ _
    have hrest := ih (done ++ (f g sep).2.toList) (fun x hx => hP x (List.mem_cons_of_mem sep hx)) hmoved
    rw [List.append_assoc] at hrest
    exact hrest

theorem replace_perm (hids : (l.map Servtab.id).Nodup) (hmem : sep ∈ l) :
    ∃ others, l.Perm (sep :: others) ∧ ∀ t, t.id = sep.id → (replace t l).Perm (t :: others) := by
  obtain ⟨a, b, rfl⟩ := List.append_of_mem hmem
  refine ⟨a ++ b, List.perm_middle, fun t ht => ?_⟩
  rw [List.map_append, List.map_cons, List.nodup_middle, List.nodup_cons, List.mem_append, not_or] at hids
  have hkeep : ∀ m : List Servtab, sep.id ∉ m.map Servtab.id → replace t m = m := by
    intro m hm
    refine (List.map_congr_left fun x hx => if_neg fun heq => hm ?_).trans (List.map_id m)
    exact List.mem_map.mpr ⟨x, hx, heq.trans ht⟩
  have hsplit : replace t (a ++ sep :: b) = a ++ t :: b := by
    rw [replace, List.map_append, List.map_cons, if_pos ht.symm]
    exact congrArg₂ (· ++ t :: ·) (hkeep a hids.1.1) (hkeep b hids.1.2)
  rw [hsplit]
  exact List.perm_middle

/-! ## A pass of the loop -/

theorem Good.narrow (h : Good g l) {rest : List Nat} (hrest : rest.Sublist g.rest) (n : Nat) (timingout : Bool) :
    Good { g with rest, n, timingout } l :=
  ⟨h.allsock, h.nsock, h.opened, h.fds, h.closed, h.mux, h.ids, h.bound, fun x hx hin => h.pass x hx (hrest.subset hin),
    h.rest.sublist hrest⟩

theorem Good.select (h : Good g l) (ready : Finset Nat) (n : Nat) :
    Good { g with readable := ready ∩ g.allsock, n, rest := l.map Servtab.id } l := by
  refine ⟨h.allsock, h.nsock, h.opened, h.fds, h.closed, h.mux, h.ids, h.bound, ?_, h.ids⟩
  intro x hx _ fd hfd hin
  obtain ⟨others, hperm, -⟩ := replace_perm h.ids hx
  exact ((h.perm hperm).mem_own hfd).mp (Finset.mem_inter.mp hin).2

theorem Good.connection (h : Good g (sep :: l)) (toomany : Nat) (c : Connection) {fd : Nat} (hfd : sep.fd = some fd)
    (hwait : sep.wait ≤ 1) (hrest : sep.id ∉ g.rest) :
    Good (connection toomany c g sep).1 ((connection toomany c g sep).2 :: l) := by
  rw [Inetd.connection]
  split
  · exact h
  · split
    · cases hstart : sep.start toomany c.now with
      | none =>
        have hcount : Good g ({ sep with count := sep.count + 1 } :: l) := h.keep rfl rfl rfl Iff.rfl
        have hclosed := hcount.closeSep hwait
        exact hclosed.narrow (List.Sublist.refl _) _ true
      | some next =>
        obtain ⟨count, time, rfl⟩ := Servtab.start_some hstart
        have hnext : Good g ({ sep with count, time } :: l) := h.keep rfl rfl rfl Iff.rfl
        cases c.fork with
        | none => exact hnext
        | some pid => exact hnext.forked pid hfd hwait hrest
    · exact h

variable {s t : Daemon}

theorem Good.visit (h : Good s.globals s.servtab) (toomany : Nat) (c : Connection) {i : Nat} {rest : List Nat}
    (hrest : s.globals.rest = i :: rest) :
    Good (s.visit toomany c i rest).globals (s.visit toomany c i rest).servtab := by
  have hsub : rest.Sublist s.globals.rest := hrest ▸ List.sublist_cons_self i rest
  have hnodup := h.rest
  rw [hrest, List.nodup_cons] at hnodup
  rw [Daemon.visit]
  simp only
  cases hfind : s.servtab.find? fun sep => sep.id = i with
  | none => exact h.narrow hsub _ _
  | some sep =>
    have hid : sep.id = i := by simpa using List.find?_some hfind
    have hmem : sep ∈ s.servtab := List.mem_of_find?_eq_some hfind
    simp only
    split
    · rename_i hready
      obtain ⟨fd, hfd⟩ := Option.isSome_iff_exists.mp (Option.isSome_of_any hready)
      have hin : fd ∈ s.globals.readable := by simpa [hfd] using hready
      have hwait : sep.wait ≤ 1 := h.pass sep hmem (by rw [hrest, hid]; exact List.mem_cons_self) fd hfd hin
      obtain ⟨others, hperm, hreplace⟩ := replace_perm h.ids hmem
      have hfront := ((h.perm hperm).narrow hsub (s.globals.n - 1) s.globals.timingout).connection toomany c hfd hwait
        (by rw [hid]; exact hnodup.1)
      refine hfront.perm (hreplace _ ?_).symm
      exact (steady_connection toomany c _ sep).id
    · exact h.narrow hsub _ _

/-! ## Runs -/

theorem update_id (host : Host) (k : Kernel) (g : Globals) (sep : Servtab) : (update host k g sep).2.id = sep.id := by
  have hopen : ∀ r : Globals × Servtab, (ensureOpen k r).2.id = r.2.id := by
    intro r
    rw [ensureOpen]
    split
    · rw [setup]
      split <;> rfl
    · rfl
  rw [update]
  split
  · rfl
  · split
    · rfl
    · exact hopen _
    · rw [hopen, setPort]
      split
      · rfl
      · split <;> rfl

theorem Good.nextconfig (h : Good s.globals s.servtab) (host : Host) (k : Kernel) (e : Entry)
    (hspares : Spares (.nextconfig host k e) s) :
    Good (nextconfig host k e s).globals (nextconfig host k e s).servtab := by
  rw [Inetd.nextconfig]
  split
  · exact h
  · rename_i huser
    rw [Bool.not_eq_true, Bool.not_eq_false'] at huser
    cases hfind : s.servtab.find? e.names with
    | none =>
      have hnew : (e.enter s.globals.nextId).wait ≤ 1 := e.waits_le_one
      exact (h.enter e).update host k fun hlt => absurd hnew (Nat.not_le_of_lt hlt)
    | some sep =>
      have hmem : sep ∈ s.servtab := List.mem_of_find?_eq_some hfind
      obtain ⟨others, hperm, hreplace⟩ := replace_perm h.ids hmem
      have hmerged := (h.perm hperm).merge e fun hlt => (hspares huser sep hfind hlt).1
      have hport : 1 < (e.merge sep).wait → ∀ p, host.lookup sep.service sep.proto = .port p → p = sep.port := by
        intro hlt p hlookup
        have hstays := (hspares huser sep hfind ?_).2
        · simpa [hlookup, Lookup.moves] using hstays
        exact Nat.lt_of_not_le fun hle => Nat.not_le_of_lt hlt ((e.merge_wait sep fun hlt => absurd hle (Nat.not_le_of_lt hlt)).mpr hle)
      exact (hmerged.update host k hport).perm (hreplace _ (update_id host k _ (e.merge sep))).symm

/-- What one step keeps. -/
theorem step_good {toomany : Nat} {a : Event} (h : Good s.globals s.servtab) (hok : Spares a s)
    (hstep : Daemon.step toomany a s = some t) : Good t.globals t.servtab := by
  cases a with
  | select ready =>
    rw [Daemon.step] at hstep
    split at hstep
    · obtain rfl := Option.some.inj hstep
      exact h.select ready _
    · exact nomatch hstep
  | visit c =>
    rw [Daemon.step] at hstep
    split at hstep
    · exact nomatch hstep
    · rename_i i rest hrest
      split at hstep
      · exact nomatch hstep
      · obtain rfl := Option.some.inj hstep
        exact h.visit toomany c hrest
  | reapchild pid =>
    obtain rfl := Option.some.inj hstep
    exact sweep_good (P := fun _ => True) (fun _ _ _ _ h => h.reap pid) [] (fun _ _ => trivial) h
  | retry k =>
    obtain rfl := Option.some.inj hstep
    exact sweep_good (P := fun _ => True) (fun _ _ _ _ h => h.retry k) [] (fun _ _ => trivial)
      (h.narrow (List.Sublist.refl _) _ false)
  | config =>
    obtain rfl := Option.some.inj hstep
    exact sweep_good (P := fun _ => True) (fun _ _ _ _ h => h.uncheck) [] (fun _ _ => trivial) h
  | nextconfig host k e =>
    obtain rfl := Option.some.inj hstep
    exact h.nextconfig host k e hok
  | purge =>
    obtain rfl := Option.some.inj hstep
    exact sweep_good (fun _ _ _ hone h => h.purge hone) [] hok h

theorem init_good : Good ({} : Daemon).globals ({} : Daemon).servtab :=
  ⟨by simp, rfl, List.forall_mem_nil _, List.nodup_nil, List.forall_mem_nil _, List.forall_mem_nil _, List.nodup_nil,
    List.forall_mem_nil _, List.forall_mem_nil _, List.nodup_nil⟩

/-- As long as the reloads spare the services whose children run, inetd selects on the services
    that wait for nobody. -/
theorem selects_of_meets (toomany : Nat) (es : List Event) (s : Daemon) (hrun : run (Daemon.step toomany) es {} = some s)
    (hspares : Meets (Daemon.step toomany) Spares es {}) : Selects s := by
  have hgood : Good s.globals s.servtab :=
    run_inv_meets (P := fun s => Good s.globals s.servtab) (fun a s t h hok hstep => step_good h hok hstep) init_good hspares hrun
  exact ⟨hgood.allsock, hgood.nsock⟩

def tftp : Entry :=
  { service := [116, 102, 116, 112], socktype := .DGRAM, proto := [117, 100, 112], wait := true, max := 0, user := [],
    bi := none, server := [], argv := [], type := .NORM }

def loopback : Host := { user := fun _ => true, lookup := fun service _ => .port (if service = tftp.service then 69 else 518) }

/-- It gives the descriptors in order. -/
def inOrder : Kernel where
  socket _ opened := .listening (opened.sup id + 3)
  fresh _ opened fd h hin := by
    have hle : fd ≤ opened.sup id := Finset.le_sup (f := id) hin
    obtain rfl := Answer.listening.inj h
    omega

/-- inetd starts, runs the service and is told to reload while the child runs. -/
def reloaded (e : Entry) : List Event :=
  [.config, .nextconfig loopback inOrder tftp, .purge, .select {3}, .visit ⟨true, 0, some ⟨7, by decide⟩⟩, .config,
    .nextconfig loopback inOrder e, .purge, .reapchild ⟨7, by decide⟩]

theorem selects_reloaded : ∃ s, run (Daemon.step 1000) (reloaded tftp) {} = some s ∧ Selects s := by
  refine ⟨_, rfl, ?_⟩
  exact selects_of_meets 1000 (reloaded tftp) _ rfl (by decide +kernel)

/-- The entry says nowait now. When the child is done, nobody selects on the descriptor again. -/
theorem nowait_deaf : ∃ s, run (Daemon.step 1000) (reloaded { tftp with wait := false }) {} = some s ∧ ¬ Selects s := by
  refine ⟨_, rfl, fun h => ?_⟩
  have hin := (h.allsock 3).mpr ⟨_, List.mem_singleton.mpr rfl, rfl, by decide⟩
  exact absurd hin (by decide)

end Netutils.Inetd
