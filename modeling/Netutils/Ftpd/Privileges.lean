/-
  Netutils.Ftpd.Privileges — whether a logged-in session of ftpd runs with the ids and in the
  root of its user.

  Two places go on without: complete_login returns where setegid fails, with
  `cred.logged_in` set and the effective uid of root, and getdatasock and passive, which
  become root for their sockets, do not look at whether seteuid takes them back. In a run
  where neither comes to pass the ids and the root are the user's at every command, and no
  other run has this property (`privileges_dropped_iff`).
-/

import Netutils.Ftpd.Server

namespace Netutils.Ftpd

open Netutils.Lib.Transition Netutils.Arpa

/-! ## The property -/

/-- The process has the ids of the credentials, and their root if they ask for one. -/
def Process.Dropped (p : Process) : Prop :=
  p.euid = p.cred.uid ∧ p.egid = p.cred.gid ∧
    (p.cred.guest = true ∨ p.cred.dochroot = true → p.roots.getLast? = some (p.cred.rootdir.getD []))

def Process.Confined (p : Process) : Prop := p.cred.loggedIn = true → p.Dropped

instance (p : Process) : Decidable p.Dropped := by unfold Process.Dropped; infer_instance

instance (p : Process) : Decidable p.Confined := by unfold Process.Confined; infer_instance

/-! ## Who becomes root -/

/-- The command becomes root, and is to become the user again. -/
def Server.becomesRoot (c : Command) (w : World) (s : Server) : Bool :=
  s.process.cred.loggedIn && match c with
  | .pasv => w.socket
  | .retr path => (pathname w path s).isSome && (s.transfers w w.regular && s.opensSocket)
  | .stor path => (pathname w path s).isSome && (s.transfers w true && s.opensSocket)
  | .appe path => (pathname w path s).isSome && (s.transfers w true && s.opensSocket)
  | .stou path => (pathname w path s).isSome && (s.transfers w w.gunique && s.opensSocket)
  | .list none => s.transfers w true && s.opensSocket
  | .list (some path) => (pathname w path s).isSome && (s.transfers w true && s.opensSocket)
  | .nlst _ =>
    match w.listing with
    | .missing => false
    | .empty => false
    | .options => s.transfers w true && s.opensSocket
    | .files => s.opensSocket
    | .aborted => s.opensSocket
  | _ => false

/-- There and back. -/
def rootAndBack (k : Calls) (p : Process) : Process := asUser k (asRoot k p)

section Process

variable (his : Sockaddr) {w : World} {s : Server}

theorem process_dataconn :
    (dataconn his w s).1.process = if s.opensSocket then rootAndBack w.toCalls s.process else s.process := by
  unfold dataconn getdatasock Server.opensSocket
  cases s.pdata <;> cases s.data <;> cases s.usedefault <;> simp <;> repeat' split
  all_goals rfl

theorem process_retrieve (cmd : Bool) : (retrieve his cmd w s).process =
    if s.transfers w (cmd || w.regular) && s.opensSocket then rootAndBack w.toCalls s.process else s.process := by
  have h := @process_dataconn his w s
  rw [retrieve_eq]
  cases s.transfers w (cmd || w.regular) with
  | false => rfl
  | true => simp only [if_true, Bool.true_and, ← h]; split <;> rfl

theorem process_store (unique : Bool) : (store his unique w s).process =
    if s.transfers w (!unique || w.gunique) && s.opensSocket then rootAndBack w.toCalls s.process else s.process := by
  have h := @process_dataconn his w s
  rw [store_eq]
  cases s.transfers w (!unique || w.gunique) with
  | false => rfl
  | true => simp only [if_true, Bool.true_and, ← h]; split <;> rfl

theorem process_sendFileList : (sendFileList his w s).process =
    if (match w.listing with
      | .missing => false
      | .empty => false
      | .options => s.transfers w true && s.opensSocket
      | .files => s.opensSocket
      | .aborted => s.opensSocket : Bool)
    then rootAndBack w.toCalls s.process else s.process := by
  unfold sendFileList
  cases w.listing with
  | missing => rfl
  | empty => rfl
  | options => exact process_retrieve his true
  | files =>
    simp only
    rw [← process_dataconn his]
    split <;> rfl
  | aborted => exact process_dataconn his

theorem process_passive :
    (passive w s).process = if w.socket then rootAndBack w.toCalls s.process else s.process := by
  unfold passive
  cases w.socket <;> rfl

theorem process_withPathname (path : Str) (act : Str → Server) : (s.withPathname w path act).process =
    if s.process.cred.loggedIn then ((pathname w path s).map fun n => (act n).process).getD s.process else s.process := by
  unfold Server.withPathname
  split
  · cases pathname w path s <;> rfl
  · rfl

/-- The commands other than USER, PASS and QUIT. -/
def Command.stays : Command → Bool
  | .user _ => false
  | .pass _ => false
  | .quit => false
  | _ => true

variable (anonOnly : Bool) (crypt : Str → Str → Option Str)

/-- All that they do to the process. -/
theorem process_action {c : Command} (hc : c.stays = true) : (action anonOnly crypt his c w s).process =
    if s.becomesRoot c w then rootAndBack w.toCalls s.process else s.process := by
  have hpath : ∀ (path : Str) (t : Server) (b : Bool),
      t.process = (if b then rootAndBack w.toCalls s.process else s.process) →
      (s.withPathname w path fun _ => t).process =
        if s.process.cred.loggedIn && ((pathname w path s).isSome && b) then rootAndBack w.toCalls s.process else s.process := by
    intro path t b ht
    rw [process_withPathname]
    by_cases hl : s.process.cred.loggedIn = true <;> cases pathname w path s <;> simp [hl, ht]
  have hlogin : ∀ (t : Server) (b : Bool),
      t.process = (if b then rootAndBack w.toCalls s.process else s.process) →
      (s.withLogin t).process = if s.process.cred.loggedIn && b then rootAndBack w.toCalls s.process else s.process := by
    intro t b ht
    by_cases hl : s.process.cred.loggedIn = true <;> simp [Server.withLogin, hl, ht]
  cases c with
  | user name => cases hc
  | pass passwd => cases hc
  | quit => cases hc
  | port h => simp only [action, port, Server.becomesRoot, Bool.and_false]; split <;> rfl
  | pasv => exact hlogin _ _ process_passive
  | retr path => exact hpath path _ _ (process_retrieve his false)
  | stor path => exact hpath path _ _ (process_store his false)
  | appe path => exact hpath path _ _ (process_store his false)
  | stou path => exact hpath path _ _ (process_store his true)
  | list path =>
    cases path with
    | none => exact hlogin _ _ (process_retrieve his true)
    | some path => exact hpath path _ _ (process_retrieve his true)
  | nlst path => exact hlogin _ _ (process_sendFileList his)
  | rnfr path =>
    simp only [action, rnfr, process_withPathname, Server.becomesRoot, Bool.and_false]
    cases pathname w path { s with restartPoint := 0 } <;> cases w.stat <;> simp
  | rnto path =>
    simp only [action, rnto, Server.becomesRoot, Bool.and_false]
    split
    · cases s.fromname <;> rfl
    · rfl
  | rest n => simp [action, Server.becomesRoot]
  | other k => simp [action, Server.becomesRoot]

end Process

/-! ## The login -/

section Login

variable {k : Calls} {p : Process}

theorem confined_endLogin : (endLogin k p).Confined := nofun

theorem changeRoot_ok (h : (changeRoot k p).2 = true) :
    changeRoot k p = ({ p with roots := p.roots ++ [p.cred.rootdir.getD []] }, true) := by
  unfold changeRoot at h ⊢
  split at h
  · rw [if_pos ‹_›]
    exact Prod.ext rfl h
  · cases h

theorem changeDirectory_ok (h : (changeDirectory k p).2 = true) :
    (changeDirectory k p).1.cred = p.cred ∧ (changeDirectory k p).1.egid = p.egid ∧
      (p.cred.guest = true ∨ p.cred.dochroot = true →
        (changeDirectory k p).1.roots.getLast? = some (p.cred.rootdir.getD [])) := by
  unfold changeDirectory at h ⊢
  by_cases hg : p.cred.guest = true
  · simp only [if_pos hg] at h ⊢
    simp [changeRoot_ok h]
  · by_cases hd : p.cred.dochroot = true
    · simp only [if_neg hg, if_pos hd] at h ⊢
      simp [changeRoot_ok h]
    · simp [hg, hd]

/-- With its gid, a login ends with the ids and the root of the user, or not at all. -/
theorem confined_completeLogin (hgid : k.setegid = true) : (completeLogin k p).Confined := by
  unfold completeLogin
  rw [if_neg (by simp [hgid])]
  simp only
  split
  · exact confined_endLogin
  · rename_i hdir
    split
    · exact confined_endLogin
    · obtain ⟨hcred, hegid, hroot⟩ := changeDirectory_ok (Bool.eq_true_of_not_eq_false hdir)
      intro _
      exact ⟨rfl, by rw [hcred]; exact hegid, by rw [hcred]; exact hroot⟩

/-- USER leaves the process alone, or nobody logged in. -/
theorem user_cases (anonOnly : Bool) (site : Site) (name : Str) :
    (user anonOnly site name k p).1 = p ∨ (user anonOnly site name k p).1.cred.loggedIn = false := by
  unfold user
  split
  · exact Or.inl rfl
  · right
    generalize hp' : (if p.cred.loggedIn then endLogin k p else p) = p'
    have hout : p'.cred.loggedIn = false := by
      rw [← hp']
      split
      · rfl
      · simp_all
    have hauth := authUser_loggedIn site name p'.cred
    rw [hout] at hauth
    simp only
    repeat' split
    all_goals exact hauth

end Login

/-! ## A line -/

section Line

variable (anonOnly : Bool) (crypt : Str → Str → Option Str) (his : Sockaddr)

/-- The command is a PASS that sets `cred.logged_in`. -/
def Server.letsIn (c : Command) (s : Server) : Bool :=
  match c with
  | .pass passwd => s.process.admits crypt passwd
  | _ => false

/-- The command does not let a user in whose gid can not be set, unless the process has that
    user's ids and root already, and does not stay root. -/
def Server.Drops (c : Command) (w : World) (s : Server) : Prop :=
  (s.letsIn crypt c = true → w.setegid = true ∨ s.process.Dropped) ∧
    (s.becomesRoot c w = true → w.seteuidRoot = true → w.seteuid = true ∨ s.process.cred.uid = 0)

instance (c : Command) (w : World) (s : Server) : Decidable (s.Drops crypt c w) := by
  unfold Server.Drops; infer_instance

/-- Nor does the line. -/
def Session.Drops (a : Str × World) (s : Session) : Prop :=
  let q := (s.lexer.line syntaxError a.1).1
  q.exit = .crlf false → s.server.Drops crypt (command q.tokens) a.2

instance (a : Str × World) (s : Session) : Decidable (s.Drops crypt a) := by
  unfold Session.Drops; infer_instance

/-- The destination of the data connection is nothing to the process. -/
theorem drops_reduced (q : Sequence) (c : Command) (w : World) (s : Server) :
    (s.reduced q).Drops crypt c w ↔ s.Drops crypt c w := by
  cases c <;> exact Iff.rfl

variable {anonOnly crypt his} {w : World} {s t : Server}

theorem confined_pass {passwd : Str} (h : s.process.Confined) :
    (pass crypt passwd w.toCalls s.process).Confined ↔
      (s.process.admits crypt passwd = true → w.setegid = true ∨ s.process.Dropped) := by
  have hwait : ∀ p : Process, p.cred = s.process.cred → p.euid = s.process.euid → p.egid = s.process.egid →
      p.roots = s.process.roots → p.Confined := by
    intro p hcred heuid hegid hroots
    unfold Process.Confined Process.Dropped
    rw [hcred, heuid, hegid, hroots]
    exact h
  unfold pass
  by_cases hw : (s.process.cred.loggedIn || !s.process.askpasswd) = true
  · have hno : s.process.admits crypt passwd = false := by
      unfold Process.admits
      cases hl : s.process.cred.loggedIn <;> cases ha : s.process.askpasswd <;> simp_all
    rw [if_pos hw]
    exact iff_of_true h fun ha => absurd (ha.symm.trans hno) nofun
  · rw [if_neg hw]
    simp only
    split
    · rename_i hok
      have hadm : s.process.admits crypt passwd = true := by
        unfold Process.admits
        simp_all
      generalize hp : ({ s.process with askpasswd := false, cred := { s.process.cred with loggedIn := true } } : Process) = p
      have hdrop : p.Dropped ↔ s.process.Dropped := by rw [← hp]; exact Iff.rfl
      have hin : p.cred.loggedIn = true := by rw [← hp]
      change (completeLogin w.toCalls p).Confined ↔ _
      cases hgid : w.setegid with
      | true => exact iff_of_true (confined_completeLogin hgid) fun _ => Or.inl rfl
      | false =>
        have hstay : completeLogin w.toCalls p = p := by unfold completeLogin; rw [if_pos hgid]
        rw [hstay, Process.Confined, hdrop]
        exact ⟨fun hd _ => Or.inr (hd hin), fun hd _ => (hd hadm).resolve_left nofun⟩
    · rename_i hok
      have hno : s.process.admits crypt passwd = false := by
        unfold Process.admits
        simp_all
      exact iff_of_true (hwait _ rfl rfl rfl rfl) fun ha => absurd (ha.symm.trans hno) nofun

/-- Becoming the user again is what keeps the process so. -/
theorem confined_rootAndBack {p : Process} {k : Calls} (h : p.Confined) (hin : p.cred.loggedIn = true) :
    (rootAndBack k p).Confined ↔ (k.seteuidRoot = true → k.seteuid = true ∨ p.cred.uid = 0) := by
  obtain ⟨heuid, hegid, hroot⟩ := h hin
  have hsame : rootAndBack k p =
      { p with euid := if k.seteuid then p.cred.uid else if k.seteuidRoot then 0 else p.euid } := by
    unfold rootAndBack asUser asRoot
    cases k.seteuidRoot <;> cases k.seteuid <;> rfl
  rw [hsame]
  constructor
  · intro hc hr
    have := (hc hin).1
    by_cases hu : k.seteuid = true
    · exact Or.inl hu
    · simp only [hu, hr, if_true] at this
      exact Or.inr this.symm
  · intro hok _
    refine ⟨?_, hegid, hroot⟩
    simp only
    split
    · rfl
    · rename_i hu
      split
      · rename_i hr
        exact ((hok hr).resolve_left hu).symm
      · exact heuid

theorem confined_stays {c : Command} (hc : c.stays = true) (h : s.process.Confined) :
    (action anonOnly crypt his c w s).process.Confined ↔
      (s.becomesRoot c w = true → w.seteuidRoot = true → w.seteuid = true ∨ s.process.cred.uid = 0) := by
  rw [process_action his anonOnly crypt hc]
  by_cases hb : s.becomesRoot c w = true
  · have hin : s.process.cred.loggedIn = true := (Bool.and_eq_true_iff.mp hb).1
    rw [if_pos hb, confined_rootAndBack h hin]
    exact ⟨fun hr _ => hr, fun hr => hr hb⟩
  · rw [if_neg hb]
    exact iff_of_true h fun hb' => absurd hb' hb

theorem confined_action (c : Command) (h : s.process.Confined) :
    (action anonOnly crypt his c w s).process.Confined ↔ s.Drops crypt c w := by
  have hno : ∀ b : Bool, b = false → ∀ {P : Prop}, b = true → P := fun _ hb _ hb' => absurd (hb.symm.trans hb') nofun
  have hroot : ∀ c, c.stays = false → s.becomesRoot c w = false := by
    intro c hc
    cases c <;> first | exact Bool.and_false _ | cases hc
  cases c with
  | user name =>
    refine iff_of_true ?_ ⟨hno _ rfl, hno _ (hroot _ rfl)⟩
    rcases @user_cases w.toCalls s.process anonOnly w.site name with hp | hl
    · show (user anonOnly w.site name w.toCalls s.process).1.Confined
      rw [hp]
      exact h
    · exact fun hin => absurd (hin.symm.trans hl) nofun
  | pass passwd => exact (confined_pass h).trans (and_iff_left (hno _ (hroot _ rfl))).symm
  | quit => exact iff_of_true h ⟨hno _ rfl, hno _ (hroot _ rfl)⟩
  | _ => exact (confined_stays rfl h).trans (and_iff_right (hno _ rfl)).symm

/-- A line keeps the process confined exactly where it drops what it takes. -/
theorem confined_step {a : Str × World} {s t : Session} (hp : s.server.process.Confined)
    (h : Session.step anonOnly crypt his a s = some t) : t.server.process.Confined ↔ s.Drops crypt a := by
  obtain ⟨line, w⟩ := a
  simp only [Session.step] at h
  split at h
  · cases h
  obtain rfl := Option.some.inj h
  unfold Session.Drops
  simp only
  generalize (s.lexer.line syntaxError line).1 = q
  unfold Server.obey
  cases hexit : q.exit with
  | jump => exact iff_of_true hp nofun
  | crlf recovered =>
    cases recovered with
    | true => exact iff_of_true hp nofun
    | false =>
      simp only [true_imp_iff]
      rw [← drops_reduced crypt q, ← @confined_action anonOnly crypt his w (s.server.reduced q) (command q.tokens) hp]
      split <;> exact Iff.rfl

/-- A session runs with its user's ids and root at every line, exactly when each of its lines
    drops what it takes. -/
theorem privileges_dropped_iff {lines : List (Str × World)} {t : Session}
    (h : run (Session.step anonOnly crypt his) lines .init = some t) :
    (∀ before s, before <+: lines → run (Session.step anonOnly crypt his) before .init = some s →
      s.server.process.Confined) ↔ Meets (Session.step anonOnly crypt his) (fun a s => s.Drops crypt a) lines .init :=
  run_always_iff (fun _ _ _ hp hs => confined_step hp hs) (show (Process.init).Confined from nofun) h

end Line

/-! ## Runs -/

/-- The two accounts, a file for every name, and no failure. -/
def quietWorld : World where
  toCalls := allSucceed
  site := twoAccounts
  socket := true
  setsockopt := true
  bind := true
  fdopen := true
  connect := true
  accept := true
  getsockname := true
  listen := true
  fopen := true
  regular := true
  seek := true
  gunique := true
  listing := .files
  stat := true
  glob := none

/-- A line of a command with its argument. -/
def lineOfText (s : List Char) : Str := ascii s ++ [CR, LF]

def userBob : Str := lineOfText ['U', 'S', 'E', 'R', ' ', 'b', 'o', 'b']
def passB : Str := lineOfText ['P', 'A', 'S', 'S', ' ', 'b']
def pasvLine : Str := lineOfText ['P', 'A', 'S', 'V']

/-- The peer that the runs are about. -/
def peer : Sockaddr := ⟨true, ⟨10, 0, 0, 1⟩, 40000⟩

theorem privileges_dropped_bob :
    (run (Session.step false salted peer) [(userBob, quietWorld), (passB, quietWorld), (pasvLine, quietWorld)] .init).isSome ∧
    ∀ t, run (Session.step false salted peer) [(userBob, quietWorld), (passB, quietWorld), (pasvLine, quietWorld)] .init =
        some t →
      ∀ before s, before <+: [(userBob, quietWorld), (passB, quietWorld), (pasvLine, quietWorld)] →
        run (Session.step false salted peer) before .init = some s → s.server.process.Confined :=
  ⟨by decide +kernel, fun _ h => (privileges_dropped_iff h).mpr (by decide +kernel)⟩

/-- Root's powers stay with bob where setegid fails at his login, and where seteuid fails
    behind the socket of his PASV. -/
theorem logged_in_as_root :
    (∃ t, run (Session.step false salted peer) [(userBob, quietWorld), (passB, { quietWorld with setegid := false })] .init =
        some t ∧ t.server.process.cred.name = some BOB ∧ t.server.process.euid = 0 ∧ ¬ t.server.process.Confined) ∧
    ∃ t, run (Session.step false salted peer)
        [(userBob, quietWorld), (passB, quietWorld), (pasvLine, { quietWorld with seteuid := false })] .init = some t ∧
      t.server.process.cred.name = some BOB ∧ t.server.process.euid = 0 ∧ ¬ t.server.process.Confined := by
  have hroot : ∀ r : Option Session,
      r.map (fun t => (t.server.process.cred.name, t.server.process.euid, decide t.server.process.Confined)) =
        some (some BOB, 0, false) →
      ∃ t, r = some t ∧ t.server.process.cred.name = some BOB ∧ t.server.process.euid = 0 ∧ ¬ t.server.process.Confined := by
    intro r h
    obtain ⟨t, ht, he⟩ := Option.map_eq_some_iff.mp h
    simp only [Prod.mk.injEq, decide_eq_false_iff_not] at he
    exact ⟨t, ht, he⟩
  exact ⟨hroot _ (by decide +kernel), hroot _ (by decide +kernel)⟩

end Netutils.Ftpd
