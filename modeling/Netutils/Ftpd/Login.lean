/-
  Netutils.Ftpd.Login — USER and PASS of ftpd (ftpd/auth.c, ftpd/ftpd.c), with password
  authentication.

  A USER command that is refused may have overwritten the credentials, and leaves askpasswd
  as it was: after an accepted USER, PASS then lets in the user that was refused
  (`refused_user_logs_in`). In a run where no PASS does so, everyone let in is the user of
  the latest USER command, which was accepted, and no other run has this property
  (`logins_proper_iff`).
-/

import Mathlib.Data.List.Basic
import Netutils.Lib.Transition

namespace Netutils.Ftpd

open Netutils.Lib.Transition

/-- A string, without its NUL. -/
abbrev Str := List UInt8

/-! ## What auth.c reads -/

structure Passwd where
  pwName : Str
  pwPasswd : Option Str
  pwUid : Nat
  pwGid : Nat
  pwDir : Str
  pwShell : Str
  deriving DecidableEq

structure Spwd where
  spPwdp : Str
  spExpire : Int
  spMax : Int
  spLstchg : Int

/-- The system's data bases and files at one command; `today` is in days. -/
structure Site where
  getpwnam : Str → Option Passwd
  getspnam : Str → Option Spwd
  today : Int
  usershells : List Str
  /-- `checkuser (PATH_FTPUSERS, _)` -/
  ftpusers : Str → Bool
  /-- `checkuser (PATH_FTPCHROOT, _)` -/
  ftpchroot : Str → Bool
  /-- There is memory for a message. -/
  malloc : Bool

/-- Credential for the request. -/
structure Credentials where
  name : Option Str
  homedir : Option Str
  rootdir : Option Str
  shell : Option Str
  passwd : Option Str
  uid : Nat
  gid : Nat
  guest : Bool
  dochroot : Bool
  loggedIn : Bool
  deriving DecidableEq

/-- What `memset (pcred, 0, sizeof (*pcred))` leaves. -/
def Credentials.zero : Credentials := ⟨none, none, none, none, none, 0, 0, false, false, false⟩

def FTP : Str := [0x66, 0x74, 0x70]
def ANONYMOUS : Str := [0x61, 0x6e, 0x6f, 0x6e, 0x79, 0x6d, 0x6f, 0x75, 0x73]
/-- `"/"` -/
def SLASH : Str := [0x2f]
/-- `"/bin/sh"` -/
def PATH_BSHELL : Str := [0x2f, 0x62, 0x69, 0x6e, 0x2f, 0x73, 0x68]

/-! ## auth.c -/

def Spwd.expired (sp : Spwd) (today : Int) : Bool :=
  (sp.spExpire > 0 && sp.spExpire < today) ||
    (sp.spMax > 0 && sp.spLstchg > 0 && sp.spLstchg + sp.spMax < today)

/-- `p->pw_passwd` once the shadow entry has been looked at. -/
def Site.pwPasswd (site : Site) (p : Passwd) : Option Str :=
  if p.pwPasswd = none ∨ p.pwPasswd.any (·.length = 1) then
    match site.getspnam p.pwName with
    | some sp => if sp.expired site.today then none else some sp.spPwdp
    | none => p.pwPasswd
  else p.pwPasswd

/-- `none` where the source returns 1. -/
def sgetcred (site : Site) (name : Str) (c : Credentials) : Option Credentials :=
  (site.getpwnam name).map fun p => { c with
    uid := p.pwUid
    gid := p.pwGid
    name := some p.pwName
    -- sgetsave makes "" of NULL
    passwd := some ((site.pwPasswd p).getD [])
    rootdir := some p.pwDir
    homedir := some SLASH
    shell := some p.pwShell }

/-- The name of the guest account. -/
def isAnonymous (name : Str) : Bool := name = FTP || name = ANONYMOUS

/-- Whether the shell is one that getusershell gives. -/
def Site.shellAllowed (site : Site) (c : Credentials) : Bool :=
  let shell := match c.shell with
    | none | some [] => PATH_BSHELL
    | some s => s
  site.usershells.contains shell

/-- The credentials it leaves, and whether it returns 0. -/
def authUser (site : Site) (name : Str) (c : Credentials) : Credentials × Bool :=
  let c := { c with guest := false }
  if site.malloc = false then (c, false)
  else if isAnonymous name then
    if site.ftpusers FTP || site.ftpusers ANONYMOUS then (c, false)
    else match sgetcred site FTP c with
      | some c => ({ c with guest := true }, true)
      | none => (c, false)
  else match sgetcred site name c with
    | some c =>
      if site.shellAllowed c = false || site.ftpusers name then (c, false)
      else ({ c with dochroot := site.ftpchroot (c.name.getD []) }, true)
    | none => (c, false)

/-- Whether it returns 0; `crypt` may return NULL. -/
def authPass (crypt : Str → Str → Option Str) (passwd : Str) (c : Credentials) : Bool :=
  match c.passwd with
  | none | some [] => false
  | some salt => crypt passwd salt = some salt

/-! ## ftpd.c -/

/-- What the system calls of one command come to, `true` where they succeed. -/
structure Calls where
  setegid : Bool
  chroot : Bool
  chdir : Bool
  /-- `chdir ("/")` -/
  chdirSlash : Bool
  /-- `seteuid ((uid_t) 0)` -/
  seteuidRoot : Bool
  /-- `seteuid ((uid_t) cred.uid)` -/
  seteuid : Bool
  deriving DecidableEq

/-- ftpd's own process. -/
structure Process where
  cred : Credentials
  askpasswd : Bool
  loginAttempts : Nat
  euid : Nat
  egid : Nat
  /-- The directories that chroot has been called with, as far as it succeeded. -/
  roots : List Str
  exited : Bool
  deriving DecidableEq

def Process.init : Process := ⟨.zero, false, 0, 0, 0, [], false⟩

def endLogin (k : Calls) (p : Process) : Process :=
  { p with euid := if k.seteuidRoot then 0 else p.euid, cred := .zero }

/-- `chroot (pcred->rootdir) < 0 || chdir (pcred->homedir) < 0`, and whether that is false. -/
def changeRoot (k : Calls) (p : Process) : Process × Bool :=
  if k.chroot then ({ p with roots := p.roots ++ [p.cred.rootdir.getD []] }, k.chdir) else (p, false)

/-- The directory a login ends up in. -/
def changeDirectory (k : Calls) (p : Process) : Process × Bool :=
  if p.cred.guest then changeRoot k p
  else if p.cred.dochroot then changeRoot k p
  else (p, k.chdir || k.chdirSlash)

def completeLogin (k : Calls) (p : Process) : Process :=
  -- "Can't set gid.": without a goto bad
  if k.setegid = false then p
  else
    let r := changeDirectory k { p with egid := p.cred.gid }
    if r.2 = false then endLogin k r.1
    else if k.seteuid = false then endLogin k r.1
    else { r.1 with euid := r.1.cred.uid }

/-- USER, and whether it was accepted. -/
def user (anonOnly : Bool) (site : Site) (name : Str) (k : Calls) (p : Process) : Process × Bool :=
  if p.cred.loggedIn && (p.cred.guest || p.cred.dochroot) then (p, false)
  else
    let p := if p.cred.loggedIn then endLogin k p else p
    let r := authUser site name p.cred
    let p := { p with cred := r.1 }
    if r.2 = false then (p, false)
    else if anonOnly && !r.1.guest && !r.1.dochroot then (p, false)
    else ({ p with askpasswd := true }, true)

/-- pass sets `cred.logged_in`. -/
def Process.admits (crypt : Str → Str → Option Str) (passwd : Str) (p : Process) : Bool :=
  !p.cred.loggedIn && p.askpasswd && (p.cred.guest || authPass crypt passwd p.cred)

def pass (crypt : Str → Str → Option Str) (passwd : Str) (k : Calls) (p : Process) : Process :=
  if p.cred.loggedIn || !p.askpasswd then p
  else
    let p := { p with askpasswd := false }
    if p.cred.guest || authPass crypt passwd p.cred then
      { completeLogin k { p with cred := { p.cred with loggedIn := true } } with loginAttempts := 0 }
    else { p with loginAttempts := p.loginAttempts + 1, exited := p.loginAttempts ≥ 5 }

/-! ## What USER leaves -/

/-- The credentials are those of the user named, as the data bases have it. -/
structure Describes (site : Site) (name : Str) (p : Passwd) (c : Credentials) : Prop where
  entry : site.getpwnam (if isAnonymous name then FTP else name) = some p
  named : c.name = some p.pwName
  uid : c.uid = p.pwUid
  gid : c.gid = p.pwGid
  rootdir : c.rootdir = some p.pwDir
  homedir : c.homedir = some SLASH
  shell : c.shell = some p.pwShell
  passwd : c.passwd = some ((site.pwPasswd p).getD [])
  guest : c.guest = isAnonymous name
  dochroot : c.guest = false → c.dochroot = site.ftpchroot p.pwName

variable {site : Site} {name : Str} {c c' : Credentials} {k : Calls} {p : Process}

theorem sgetcred_eq_some (h : sgetcred site name c = some c') :
    ∃ p, site.getpwnam name = some p ∧ c' = { c with
      uid := p.pwUid
      gid := p.pwGid
      name := some p.pwName
      passwd := some ((site.pwPasswd p).getD [])
      rootdir := some p.pwDir
      homedir := some SLASH
      shell := some p.pwShell } := by
  obtain ⟨p, hp, rfl⟩ := Option.map_eq_some_iff.mp h
  exact ⟨p, hp, rfl⟩

section AuthUser

variable (site) (c)

/-- auth_user on the guest account. -/
theorem authUser_anonymous (h : isAnonymous name = true) :
    (authUser site name c).2 = true ∧ (∃ p, Describes site name p (authUser site name c).1) ∨
      (authUser site name c).2 = false ∧ (authUser site name c).1.guest = false := by
  unfold authUser
  simp only [h, if_true]
  split
  · exact Or.inr ⟨rfl, rfl⟩
  split
  · exact Or.inr ⟨rfl, rfl⟩
  split
  · rename_i c' hg
    obtain ⟨p, hp, rfl⟩ := sgetcred_eq_some hg
    refine Or.inl ⟨rfl, p, ?_⟩
    exact ⟨by rw [if_pos h]; exact hp, rfl, rfl, rfl, rfl, rfl, rfl, rfl, h.symm, fun hn => by simp at hn⟩
  · exact Or.inr ⟨rfl, rfl⟩

/-- auth_user on any other. -/
theorem authUser_named (h : isAnonymous name = false) :
    (authUser site name c).1.guest = false ∧
      ((authUser site name c).2 = true → ∃ p, Describes site name p (authUser site name c).1) := by
  unfold authUser
  simp only [h, Bool.false_eq_true, if_false]
  split
  · exact ⟨rfl, nofun⟩
  split
  · rename_i c' hg
    obtain ⟨p, hp, rfl⟩ := sgetcred_eq_some hg
    split
    · exact ⟨rfl, nofun⟩
    · refine ⟨rfl, fun _ => ⟨p, ?_⟩⟩
      exact ⟨by rw [h]; exact hp, rfl, rfl, rfl, rfl, rfl, rfl, rfl, h.symm, fun _ => rfl⟩
  · exact ⟨rfl, nofun⟩

variable (name)

theorem authUser_loggedIn : (authUser site name c).1.loggedIn = c.loggedIn := by
  unfold authUser sgetcred
  cases site.getpwnam FTP <;> cases site.getpwnam name <;> simp only [Option.map] <;> repeat' split
  all_goals rfl

theorem authUser_spec :
    (authUser site name c).2 = true ∧ (∃ p, Describes site name p (authUser site name c).1) ∨
      (authUser site name c).2 = false ∧ (authUser site name c).1.guest = false := by
  cases h : isAnonymous name with
  | true => exact authUser_anonymous site c h
  | false =>
    obtain ⟨hg, hd⟩ := authUser_named site c h
    cases h2 : (authUser site name c).2 with
    | true => exact Or.inl ⟨rfl, hd h2⟩
    | false => exact Or.inr ⟨rfl, hg⟩

end AuthUser

/-- What USER does to a process that does not wait for a password while someone is logged
    in: accepted, it leaves the user's credentials; refused, those of no guest. -/
theorem user_spec (anonOnly : Bool) (site : Site) (name : Str) (k : Calls) (hp : p.cred.loggedIn = true → p.askpasswd = false) :
    ((user anonOnly site name k p).2 = true ∧ (user anonOnly site name k p).1.askpasswd = true ∧
        ∃ q, Describes site name q (user anonOnly site name k p).1.cred) ∧
      (user anonOnly site name k p).1.cred.loggedIn = false ∨
    (user anonOnly site name k p).2 = false ∧
      ((user anonOnly site name k p).1.askpasswd = true →
        (user anonOnly site name k p).1.cred.guest = false ∧ (user anonOnly site name k p).1.cred.loggedIn = false) := by
  unfold user
  by_cases hin : (p.cred.loggedIn && (p.cred.guest || p.cred.dochroot)) = true
  · rw [if_pos hin]
    rw [Bool.and_eq_true] at hin
    exact Or.inr ⟨rfl, fun ha => absurd (ha.symm.trans (hp hin.1)) nofun⟩
  rw [if_neg hin]
  generalize hp' : (if p.cred.loggedIn then endLogin k p else p) = p'
  have hout : p'.cred.loggedIn = false := by
    rw [← hp']
    split
    · rfl
    · simp_all
  have hl := authUser_loggedIn site name p'.cred
  rw [hout] at hl
  dsimp only
  rcases authUser_spec site name p'.cred with ⟨h2, hd⟩ | ⟨h2, hg⟩
  · rw [if_neg (by simp [h2])]
    split
    · rename_i ha
      simp only [Bool.and_eq_true, Bool.not_eq_true'] at ha
      exact Or.inr ⟨rfl, fun _ => ⟨ha.1.2, hl⟩⟩
    · exact Or.inl ⟨⟨rfl, rfl, hd⟩, hl⟩
  · rw [if_pos h2]
    exact Or.inr ⟨rfl, fun _ => ⟨hg, hl⟩⟩

/-! ## USER and PASS in turn -/

inductive Cmd where
  | user (name : Str) (site : Site)
  | pass (passwd : Str)

/-- A USER command: who was named, and whether auth_user returned 0 and anon_only let it
    through. -/
structure Asked where
  name : Str
  site : Site
  accepted : Bool

/-- A PASS command that set `cred.logged_in`: the credentials then, and the latest USER. -/
structure Admission where
  cred : Credentials
  passwd : Str
  asked : Option Asked

structure History where
  process : Process
  asked : Option Asked
  admitted : List Admission

def History.init : History := ⟨.init, none, []⟩

variable (anonOnly : Bool) (crypt : Str → Str → Option Str)

def History.step : Cmd × Calls → History → Option History
  | (.user name site, k), h =>
    if h.process.exited then none
    else
      let r := user anonOnly site name k h.process
      some { h with process := r.1, asked := some ⟨name, site, r.2⟩ }
  | (.pass passwd, k), h =>
    if h.process.exited then none
    else some { h with
      process := pass crypt passwd k h.process
      admitted := h.admitted ++
        if h.process.admits crypt passwd then [⟨h.process.cred, passwd, h.asked⟩] else [] }

/-- Let in as the user of the latest USER command, which was accepted, and with that user's
    password unless it is the guest account. -/
def Proper (a : Admission) : Prop :=
  ∃ q, a.asked = some q ∧ q.accepted = true ∧ (∃ p, Describes q.site q.name p a.cred) ∧
    (a.cred.guest = true ∨ ∃ stored, stored ≠ [] ∧ a.cred.passwd = some stored ∧ crypt a.passwd stored = some stored)

/-- A PASS that comes after a USER that was refused, with askpasswd still set from one
    before it, does not give the password of the credentials as the refused USER left them. -/
def NoLeftover : Cmd × Calls → History → Prop
  | (.pass passwd, _), h => ∀ q ∈ h.asked, q.accepted = false → h.process.askpasswd = true →
    authPass crypt passwd h.process.cred = false
  | (.user _ _, _), _ => True

instance (a : Cmd × Calls) (h : History) : Decidable (NoLeftover crypt a h) :=
  match a with
  | (.pass _, _) => inferInstanceAs (Decidable (∀ q ∈ h.asked, _))
  | (.user _ _, _) => .isTrue trivial

/-- While a password is waited for, nobody is logged in, and the credentials are those of the
    latest USER command if it was accepted, else of no guest. -/
structure History.Inv (h : History) : Prop where
  out : h.process.askpasswd = true → h.process.cred.loggedIn = false
  asked : h.process.askpasswd = true → ∃ q, h.asked = some q ∧
    (q.accepted = true → ∃ p, Describes q.site q.name p h.process.cred) ∧
    (q.accepted = false → h.process.cred.guest = false)

variable {anonOnly} {crypt} {passwd : Str} {h t : History}

theorem History.Inv.loggedIn (hi : h.Inv) (hl : h.process.cred.loggedIn = true) : h.process.askpasswd = false := by
  cases ha : h.process.askpasswd with
  | false => rfl
  | true => exact absurd (hl.symm.trans (hi.out ha)) nofun

theorem History.inv_user (hi : h.Inv) (hs : History.step anonOnly crypt (.user name site, k) h = some t) :
    t.Inv ∧ t.admitted = h.admitted := by
  simp only [History.step] at hs
  split at hs
  · cases hs
  obtain rfl := Option.some.inj hs
  refine ⟨?_, rfl⟩
  rcases user_spec anonOnly site name k hi.loggedIn with
    ⟨⟨h2, -, hd⟩, hl⟩ | ⟨h2, hr⟩
  · exact ⟨fun _ => hl, fun _ => ⟨_, rfl, fun _ => hd, fun ha => absurd (h2.symm.trans ha) nofun⟩⟩
  · exact ⟨fun ha => (hr ha).2, fun ha => ⟨_, rfl, fun hb => absurd (h2.symm.trans hb) nofun, fun _ => (hr ha).1⟩⟩

theorem askpasswd_changeDirectory : (changeDirectory k p).1.askpasswd = p.askpasswd := by
  unfold changeDirectory changeRoot
  repeat' split
  all_goals rfl

theorem askpasswd_completeLogin : (completeLogin k p).askpasswd = p.askpasswd := by
  unfold completeLogin
  dsimp only
  repeat' split
  all_goals first | rfl | exact askpasswd_changeDirectory

/-- Either PASS does nothing, or no password is waited for after it. -/
theorem pass_cases (crypt : Str → Str → Option Str) (passwd : Str) (k : Calls) (p : Process) :
    pass crypt passwd k p = p ∨ (pass crypt passwd k p).askpasswd = false := by
  unfold pass
  split
  · exact Or.inl rfl
  · dsimp only
    split
    · exact Or.inr askpasswd_completeLogin
    · exact Or.inr rfl

theorem admits_iff : p.admits crypt passwd = true ↔
    p.cred.loggedIn = false ∧ p.askpasswd = true ∧ (p.cred.guest = true ∨ authPass crypt passwd p.cred = true) := by
  simp [Process.admits, and_assoc]

theorem authPass_eq_true (ha : authPass crypt passwd c = true) :
    ∃ stored, stored ≠ [] ∧ c.passwd = some stored ∧ crypt passwd stored = some stored := by
  unfold authPass at ha
  split at ha
  · cases ha
  · cases ha
  · rename_i salt hne hs
    exact ⟨salt, hne, hs, of_decide_eq_true ha⟩

/-- The one admission of a PASS is proper exactly where no leftover let it in. -/
theorem proper_admission_iff (hi : h.Inv) (ha : h.process.admits crypt passwd = true) :
    Proper crypt ⟨h.process.cred, passwd, h.asked⟩ ↔ NoLeftover crypt (.pass passwd, k) h := by
  obtain ⟨-, hask, hok⟩ := admits_iff.mp ha
  obtain ⟨q, hq, hd, hg⟩ := hi.asked hask
  constructor
  · intro h r hr hrej
    obtain ⟨q', hq', hacc, -⟩ := h
    obtain rfl : q' = r := Option.some.inj (hq'.symm.trans hr)
    exact absurd (hacc.symm.trans hrej) nofun
  · intro hno
    cases hacc : q.accepted with
    | true =>
      refine ⟨q, hq, hacc, hd hacc, ?_⟩
      rcases hok with hguest | hpass
      · exact Or.inl hguest
      · exact Or.inr (authPass_eq_true hpass)
    | false =>
      have hrej := hno q hq hacc hask
      rcases hok with hguest | hpass
      · exact absurd (hguest.symm.trans (hg hacc)) nofun
      · exact absurd (hpass.symm.trans hrej) nofun

theorem noLeftover_of_not_admits (hi : h.Inv) (ha : h.process.admits crypt passwd = false) :
    NoLeftover crypt (.pass passwd, k) h := by
  intro q _ _ hask
  cases hp : authPass crypt passwd h.process.cred with
  | false => rfl
  | true => exact absurd (ha.symm.trans (admits_iff.mpr ⟨hi.out hask, hask, Or.inr hp⟩)) nofun

theorem History.step_spec {a : Cmd × Calls} (hi : h.Inv) (hs : History.step anonOnly crypt a h = some t) :
    t.Inv ∧ ((∀ x ∈ t.admitted, Proper crypt x) ↔ (∀ x ∈ h.admitted, Proper crypt x) ∧ NoLeftover crypt a h) := by
  obtain ⟨cmd, k⟩ := a
  cases cmd with
  | user name site =>
    obtain ⟨ht, heq⟩ := History.inv_user hi hs
    rw [heq]
    exact ⟨ht, (and_iff_left trivial).symm⟩
  | pass passwd =>
    simp only [History.step] at hs
    split at hs
    · cases hs
    obtain rfl := Option.some.inj hs
    constructor
    · rcases pass_cases crypt passwd k h.process with he | hf
      · simp only [he]
        exact ⟨hi.out, hi.asked⟩
      · exact ⟨fun ha => absurd (hf.symm.trans ha) nofun, fun ha => absurd (hf.symm.trans ha) nofun⟩
    · cases ha : h.process.admits crypt passwd with
      | true =>
        rw [if_pos rfl, List.forall_mem_append]
        refine and_congr_right fun _ => ?_
        rw [List.forall_mem_singleton]
        exact proper_admission_iff hi ha
      | false =>
        rw [if_neg (by simp), List.append_nil]
        exact (and_iff_left (noLeftover_of_not_admits hi ha)).symm

/-- Everyone let in is the user of the latest USER command, accepted, exactly in the runs where
    no PASS makes use of what a refused USER left. -/
theorem logins_proper_iff {cmds : List (Cmd × Calls)}
    (h : run (History.step anonOnly crypt) cmds .init = some t) :
    (∀ a ∈ t.admitted, Proper crypt a) ↔ Meets (History.step anonOnly crypt) (NoLeftover crypt) cmds .init := by
  have hinit : History.Inv .init := ⟨nofun, nofun⟩
  have hstep : ∀ (a : Cmd × Calls) (s u : History), s.Inv → History.step anonOnly crypt a s = some u →
      u.Inv ∧ ((∀ x ∈ u.admitted, Proper crypt x) ↔ (∀ x ∈ s.admitted, Proper crypt x) ∧ NoLeftover crypt a s) :=
    fun _ _ _ hi hs => History.step_spec hi hs
  rw [run_inv_iff hstep hinit h]
  exact and_iff_right (List.forall_mem_nil _)

/-! ## Runs -/

def ROOT : Str := [0x72, 0x6f, 0x6f, 0x74]
def BOB : Str := [0x62, 0x6f, 0x62]

/-- Two accounts, of which root is listed in PATH_FTPUSERS; the passwords are `r` and `b`. -/
def twoAccounts : Site where
  getpwnam name :=
    if name = ROOT then some ⟨ROOT, some [0x2e, 0x2e, 0x72], 0, 0, SLASH, PATH_BSHELL⟩
    else if name = BOB then some ⟨BOB, some [0x2e, 0x2e, 0x62], 1000, 100, SLASH ++ BOB, PATH_BSHELL⟩
    else none
  getspnam _ := none
  today := 0
  usershells := [PATH_BSHELL]
  ftpusers name := name = ROOT
  ftpchroot _ := false
  malloc := true

/-- A crypt that puts the password behind the two characters of its salt. -/
def salted (passwd salt : Str) : Option Str := some (salt.take 2 ++ passwd)

def allSucceed : Calls := ⟨true, true, true, true, true, true⟩

theorem logins_proper_bob :
    (run (History.step false salted) [(.user ROOT twoAccounts, allSucceed), (.user BOB twoAccounts, allSucceed),
      (.pass [0x62], allSucceed)] .init).isSome ∧
    ∀ t, run (History.step false salted) [(.user ROOT twoAccounts, allSucceed), (.user BOB twoAccounts, allSucceed),
      (.pass [0x62], allSucceed)] .init = some t → ∀ a ∈ t.admitted, Proper salted a :=
  ⟨by decide +kernel, fun _ h => (logins_proper_iff h).mpr (by decide +kernel)⟩

/-- USER bob, USER root (which is refused), PASS with root's password: root is logged in. -/
theorem refused_user_logs_in : ∃ t,
    run (History.step false salted) [(.user BOB twoAccounts, allSucceed), (.user ROOT twoAccounts, allSucceed),
      (.pass [0x72], allSucceed)] .init = some t ∧
      t.process.cred.loggedIn = true ∧ t.process.cred.name = some ROOT ∧ t.process.euid = 0 ∧
      ¬ ∀ a ∈ t.admitted, Proper salted a := by
  have h : (run (History.step false salted) [(.user BOB twoAccounts, allSucceed), (.user ROOT twoAccounts, allSucceed),
      (.pass [0x72], allSucceed)] .init).map
        (fun t => (t.process.cred.loggedIn, t.process.cred.name, t.process.euid,
          t.admitted.map fun a => a.asked.map Asked.accepted)) =
      some (true, some ROOT, 0, [some false]) := by decide +kernel
  obtain ⟨t, ht, he⟩ := Option.map_eq_some_iff.mp h
  simp only [Prod.mk.injEq] at he
  obtain ⟨hl, hn, hu, ha⟩ := he
  refine ⟨t, ht, hl, hn, hu, ?_⟩
  intro hall
  obtain ⟨a, hmem, hacc⟩ : ∃ a ∈ t.admitted, a.asked.map Asked.accepted = some false :=
    List.mem_map.mp (ha ▸ List.mem_singleton.mpr rfl)
  obtain ⟨q, hq, hok, -⟩ := hall a hmem
  rw [hq] at hacc
  exact absurd ((Option.some.inj hacc).symm.trans hok) nofun

end Netutils.Ftpd
