/-
  Netutils.Tftpd.Access — which files tftpd serves (tftpd/tftpd.c, validate_access and the
  directories that main stores).

  The tests are of the name's text: a prefix, "/../" anywhere, "../" in front of a relative
  name. A name that passes can have ".." only for its last component, and then it names a
  directory. So what is opened lies below an approved directory (`access_contained`).
-/

import Mathlib.Data.List.Infix
import Netutils.Arpa

namespace Netutils.Tftpd

open Netutils.Arpa

/-- A string, or one component of a path. -/
abbrev Str : Type := List UInt8

/-! ## The file system -/

inductive Node where
  | directory
  /-- S_IFREG, with S_IROTH and S_IWOTH. -/
  | regular (roth woth : Bool)
  | other
  deriving DecidableEq

/-- Without symbolic links; a path is the list of its components from the root. -/
structure FileSystem where
  node : List Str → Option Node
  root : node [] = some .directory
  /-- Only directories have children. -/
  parent : ∀ p n, node (p ++ [n]) ≠ none → node p = some .directory

inductive Errno where
  | ENOENT
  | ENOTDIR
  deriving DecidableEq

def slash : UInt8 := 0x2f
def dot : UInt8 := 0x2e

def components (name : Str) : List Str := name.splitOn slash

namespace FileSystem

variable (fs : FileSystem)

/-- From `cur` on. -/
def walk : List Str → List Str → Except Errno (List Str)
  | cur, [] => .ok cur
  | cur, c :: cs =>
    if fs.node cur ≠ some .directory then .error .ENOTDIR
    else if c = [] ∨ c = [dot] then walk cur cs
    else if c = [dot, dot] then walk cur.dropLast cs
    else if fs.node (cur ++ [c]) = none then .error .ENOENT
    else walk (cur ++ [c]) cs

/-- What an absolute name is the name of. -/
def resolve (name : Str) : Except Errno (List Str) := fs.walk [] (components name)

def stat (name : Str) : Except Errno (Option Node) := (fs.resolve name).map fs.node

end FileSystem

/-! ## validate_access -/

/-- An element of dirs; main skips relative pathnames. -/
structure Dir where
  name : Str
  absolute : name.head? = some slash

def MAXDIRS : Nat := 20

/-- What main stores of its arguments. -/
def directories (argv : List Str) : List Dir :=
  (argv.filterMap fun name => if h : name.head? = some slash then some ⟨name, h⟩ else none).take MAXDIRS

structure Sys where
  fs : FileSystem
  malloc : Nat → Bool
  /-- errno, where they fail. -/
  openFile : Str → Option Nat
  fdopen : Str → Option Nat

def ENOMEM : Nat := 12

/-- "/../" -/
def updir : Str := [slash, dot, dot, slash]

/-- The test for an absolute name. -/
def approves (filename : Str) (d : Dir) : Bool :=
  d.name.length = 1 ∨ (d.name <+: filename ∧ (filename.drop d.name.length).head? = some slash)

/-- sprintf (pathname, "%s/%s", dirp->name, filename) -/
def pathname (d : Dir) (filename : Str) : Str := d.name ++ slash :: filename

/-- The search for a relative name: the code, or the name to be opened. -/
def search (sys : Sys) (filename : Str) : List Dir → Nat → Nat ⊕ Str
  | [], err => .inl err
  | d :: dirs, err =>
    if sys.malloc (d.name.length + 1 + filename.length + 1) = false then .inl ENOMEM
    else
      match sys.fs.stat (pathname d filename) with
      | .ok (some (.regular true _)) => .inr (pathname d filename)
      | .ok (some (.regular false _)) => search sys filename dirs EACCESS
      | _ => search sys filename dirs err

/-- The code and *filep. -/
def openIt (sys : Sys) (filename : Str) : Nat × Str :=
  match sys.openFile filename with
  | some errno => (errno + 100, filename)
  | none =>
    match sys.fdopen filename with
    | some errno => (errno + 100, filename)
    | none => (0, filename)

def validateAccess (sys : Sys) (dirs : List Dir) (filename : Str) (mode : UInt16) : Nat × Str :=
  if updir <:+: filename then (EACCESS, filename)
  else if filename.head? = some slash then
    -- if the directory list is empty, access to any file is allowed
    if dirs.any (approves filename) = false ∧ dirs ≠ [] then (EACCESS, filename)
    else
      match sys.fs.stat filename with
      | .error .ENOENT => (ENOTFOUND, filename)
      | .error _ => (EACCESS, filename)
      | .ok (some (.regular roth woth)) =>
        if (if mode = RRQ then roth else woth) = false then (EACCESS, filename) else openIt sys filename
      | .ok _ => (ENOTFOUND, filename)
  else if mode ≠ RRQ ∨ [dot, dot, slash] <+: filename then (EACCESS, filename)
  else
    match search sys filename dirs ENOTFOUND with
    | .inl err => (err, filename)
    | .inr name => openIt sys name

/-! ## Walks -/

variable {fs : FileSystem} {base p : List Str}

theorem walk_append (fs : FileSystem) (base : List Str) (cs ds : List Str) :
    fs.walk base (cs ++ ds) = (fs.walk base cs).bind fun q => fs.walk q ds := by
  induction cs generalizing base with
  | nil => rfl
  | cons c cs ih =>
    rw [List.cons_append, FileSystem.walk, FileSystem.walk]
    split
    · rfl
    split
    · exact ih base
    split
    · exact ih base.dropLast
    split
    · rfl
    · exact ih (base ++ [c])

/-- The directory above is a directory. -/
theorem dropLast_directory (h : fs.node p ≠ none) : fs.node p.dropLast = some .directory := by
  rcases List.eq_nil_or_concat p with rfl | ⟨q, n, rfl⟩
  · exact fs.root
  · rw [List.concat_eq_append] at h ⊢
    rw [List.dropLast_concat]
    exact fs.parent q n h

/-- Without ".." a walk goes down. -/
theorem walk_prefix {cs : List Str} (hcs : ∀ c ∈ cs, c ≠ [dot, dot]) (h : fs.walk base cs = .ok p) : base <+: p := by
  induction cs generalizing base with
  | nil =>
    cases h
    exact List.prefix_refl _
  | cons c cs ih =>
    have hcs' : ∀ d ∈ cs, d ≠ [dot, dot] := fun d hd => hcs d (List.mem_cons_of_mem _ hd)
    unfold FileSystem.walk at h
    split at h
    · cases h
    split at h
    · exact ih hcs' h
    rw [if_neg (hcs c List.mem_cons_self)] at h
    split at h
    · cases h
    · exact (List.prefix_append base [c]).trans (ih hcs' h)

/-- What is walked on from is a directory. -/
theorem walk_from_directory {c : Str} {cs : List Str} (h : fs.walk base (c :: cs) = .ok p) :
    fs.node base = some .directory := by
  unfold FileSystem.walk at h
  split at h
  · cases h
  · rename_i hdir
    exact not_not.mp hdir

/-- With ".." for the last component at most, a walk to a regular file ends strictly below. -/
theorem walk_below {cs : List Str} (hne : cs ≠ []) (hcs : ∀ c ∈ cs.dropLast, c ≠ [dot, dot])
    (h : fs.walk base cs = .ok p) {roth woth : Bool} (hp : fs.node p = some (.regular roth woth)) :
    base <+: p ∧ base ≠ p := by
  have hbase : fs.node base = some .directory := by
    obtain ⟨c, cs, rfl⟩ := List.exists_cons_of_ne_nil hne
    exact walk_from_directory h
  refine ⟨?_, ?_⟩
  · obtain ⟨last, hlast⟩ : ∃ last, cs = cs.dropLast ++ [last] := ⟨_, (List.dropLast_append_getLast hne).symm⟩
    rw [hlast, walk_append] at h
    obtain ⟨q, hq, h⟩ : ∃ q, fs.walk base cs.dropLast = .ok q ∧ fs.walk q [last] = .ok p := by
      rcases hq : fs.walk base cs.dropLast with e | q
      · rw [hq] at h
        cases h
      · rw [hq] at h
        exact ⟨q, rfl, h⟩
    have hdir := walk_from_directory h
    have hdown := walk_prefix hcs hq
    unfold FileSystem.walk at h
    rw [if_neg (not_not.mpr hdir)] at h
    split at h
    · -- "" and "." are the directory itself
      cases h
      rw [hdir] at hp
      cases hp
    split at h
    · cases h
      rw [dropLast_directory (by rw [hdir]; exact Option.some_ne_none _)] at hp
      cases hp
    split at h
    · cases h
    · cases h
      exact hdown.trans (List.prefix_append q [last])
  · rintro rfl
    rw [hbase] at hp
    cases hp

/-! ## Names -/

/-- Each component but the last has a slash on both sides. -/
theorem infix_of_mem_dropLast {c : Str} {cs : List Str} (h : c ∈ cs.dropLast) :
    slash :: c ++ [slash] <:+: slash :: [slash].intercalate cs := by
  induction cs with
  | nil => cases h
  | cons d cs ih =>
    rcases cs with _ | ⟨e, cs⟩
    · cases h
    have hcut : [slash].intercalate (d :: e :: cs) = d ++ slash :: [slash].intercalate (e :: cs) := by
      simp [List.intercalate, List.intersperse]
    rw [hcut]
    rw [List.dropLast_cons_of_ne_nil (List.cons_ne_nil _ _)] at h
    rcases List.mem_cons.mp h with rfl | h
    · exact ⟨[], [slash].intercalate (e :: cs), by simp⟩
    · exact (ih h).trans ⟨slash :: d, [], by simp⟩

theorem components_ne_updir {rest : Str} (h : ¬ updir <:+: slash :: rest) :
    ∀ c ∈ (components rest).dropLast, c ≠ [dot, dot] := by
  rintro c hc rfl
  apply h
  have hin := infix_of_mem_dropLast hc
  rw [components, List.intercalate_splitOn] at hin
  exact hin

theorem components_append (a b : Str) : components (a ++ slash :: b) = components a ++ components b :=
  List.splitOn_append_cons_self a b

theorem components_ne_nil (name : Str) : components name ≠ [] := List.splitOn_ne_nil _ _

/-- The file lies below the directory. -/
def Below (fs : FileSystem) (d : Dir) (name : Str) : Prop :=
  ∃ base p, fs.resolve d.name = .ok base ∧ fs.resolve name = .ok p ∧ base <+: p ∧ base ≠ p ∧
    ∃ roth woth, fs.node p = some (.regular roth woth)

theorem stat_regular {name : Str} {roth woth : Bool} (h : fs.stat name = .ok (some (.regular roth woth))) :
    ∃ p, fs.resolve name = .ok p ∧ fs.node p = some (.regular roth woth) := by
  unfold FileSystem.stat at h
  rcases hp : fs.resolve name with e | p
  · rw [hp] at h
    cases h
  · rw [hp] at h
    exact ⟨p, rfl, Except.ok.inj h⟩

/-- Behind a directory's name, without "/../" after it. -/
theorem below_of_append {d : Dir} {rest : Str} (hrest : ¬ updir <:+: slash :: rest) {roth woth : Bool}
    (h : fs.stat (pathname d rest) = .ok (some (.regular roth woth))) : Below fs d (pathname d rest) := by
  obtain ⟨p, hp, hregular⟩ := stat_regular h
  have hwalk := hp
  unfold FileSystem.resolve pathname at hwalk
  rw [components_append, walk_append] at hwalk
  rcases hbase : fs.walk [] (components d.name) with e | base
  · rw [hbase] at hwalk
    cases hwalk
  · rw [hbase] at hwalk
    obtain ⟨hpre, hne⟩ := walk_below (components_ne_nil rest) (components_ne_updir hrest) hwalk hregular
    exact ⟨base, p, hbase, hp, hpre, hne, roth, woth, hregular⟩

/-- The root, whose name ends in the slash that other names are followed by. -/
theorem below_of_root {d : Dir} (hd : d.name.length = 1) {filename : Str} (habs : filename.head? = some slash)
    (hname : ¬ updir <:+: filename) {roth woth : Bool}
    (h : fs.stat filename = .ok (some (.regular roth woth))) : Below fs d filename := by
  obtain ⟨c, hc⟩ := List.length_eq_one_iff.mp hd
  have hroot : d.name = [slash] := by
    have habs' := d.absolute
    rw [hc] at habs' ⊢
    exact congrArg (fun x => [x]) (Option.some.inj habs')
  obtain ⟨rest, rfl⟩ := List.head?_eq_some_iff.mp habs
  obtain ⟨p, hp, hregular⟩ := stat_regular h
  have hwalk : fs.walk [] (components rest) = .ok p := by
    have hcut : components (slash :: rest) = [] :: components rest := components_append [] rest
    rw [FileSystem.resolve, hcut, FileSystem.walk, if_neg (not_not.mpr fs.root), if_pos (Or.inl rfl)] at hp
    exact hp
  have hbase : fs.resolve d.name = .ok [] := by
    have hcut : components [slash] = [[], []] := components_append [] []
    rw [hroot, FileSystem.resolve, hcut, FileSystem.walk, if_neg (not_not.mpr fs.root), if_pos (Or.inl rfl),
      FileSystem.walk, if_neg (not_not.mpr fs.root), if_pos (Or.inl rfl)]
    rfl
  obtain ⟨hpre, hne⟩ := walk_below (components_ne_nil rest) (components_ne_updir hname) hwalk hregular
  exact ⟨[], p, hbase, hp, hpre, hne, roth, woth, hregular⟩

/-- The tests for an absolute name. -/
theorem below_of_approves {d : Dir} {filename : Str} (h : approves filename d = true)
    (habs : filename.head? = some slash) (hname : ¬ updir <:+: filename) {roth woth : Bool}
    (hstat : fs.stat filename = .ok (some (.regular roth woth))) : Below fs d filename := by
  rw [approves, decide_eq_true_eq] at h
  rcases h with hlen | ⟨⟨t, rfl⟩, hslash⟩
  · exact below_of_root hlen habs hname hstat
  · rw [List.drop_left] at hslash
    obtain ⟨rest, rfl⟩ := List.head?_eq_some_iff.mp hslash
    refine below_of_append (fun hin => hname ?_) hstat
    exact hin.trans (List.suffix_append d.name _).isInfix

/-! ## What is served -/

variable {sys : Sys} {dirs : List Dir} {filename : Str} {mode : UInt16}

theorem openIt_name (sys : Sys) (filename : Str) : (openIt sys filename).2 = filename := by
  unfold openIt
  repeat' split
  all_goals rfl

/-- A name that is found behind one of the directories. -/
theorem search_found {err : Nat} {name : Str} (h : search sys filename dirs err = .inr name) :
    ∃ d ∈ dirs, name = pathname d filename ∧ ∃ woth, sys.fs.stat name = .ok (some (.regular true woth)) := by
  induction dirs generalizing err with
  | nil => cases h
  | cons d dirs ih =>
    have hlater : ∀ {err}, search sys filename dirs err = .inr name →
        ∃ d' ∈ d :: dirs, name = pathname d' filename ∧ ∃ woth, sys.fs.stat name = .ok (some (.regular true woth)) := by
      intro err h
      obtain ⟨d', hd', hname⟩ := ih h
      exact ⟨d', List.mem_cons_of_mem _ hd', hname⟩
    unfold search at h
    split at h
    · cases h
    split at h
    · rename_i woth hstat
      cases h
      exact ⟨d, List.mem_cons_self, rfl, woth, hstat⟩
    · exact hlater h
    · exact hlater h

/-- The codes of a search are errors. -/
theorem search_error {err e : Nat} (h : search sys filename dirs err = .inl e) (herr : err ≠ 0) : e ≠ 0 := by
  induction dirs generalizing err with
  | nil =>
    cases h
    exact herr
  | cons d dirs ih =>
    unfold search at h
    split at h
    · cases h
      decide
    split at h
    · cases h
    · exact ih h (by decide)
    · exact ih h herr

/-- A name that passes: an absolute one that is approved of, or one to be read that is found
    behind a directory's. -/
theorem validateAccess_cases (hdirs : dirs ≠ []) (h : (validateAccess sys dirs filename mode).1 = 0) :
    ¬ updir <:+: filename ∧
      (filename.head? = some slash ∧ (validateAccess sys dirs filename mode).2 = filename ∧
          (∃ d ∈ dirs, approves filename d = true) ∧
          (∃ roth woth, sys.fs.stat filename = .ok (some (.regular roth woth))) ∨
        mode = RRQ ∧ ¬ [dot, dot, slash] <+: filename ∧
          ∃ d ∈ dirs, (validateAccess sys dirs filename mode).2 = pathname d filename ∧
            ∃ woth, sys.fs.stat (pathname d filename) = .ok (some (.regular true woth))) := by
  unfold validateAccess at h ⊢
  split at h
  · cases h
  rename_i hup
  rw [if_neg hup]
  refine ⟨hup, ?_⟩
  split at h
  · rename_i habs
    rw [if_pos habs]
    split at h
    · cases h
    rename_i hany
    rw [if_neg hany]
    refine Or.inl ⟨habs, ?_⟩
    have happroved : ∃ d ∈ dirs, approves filename d = true := by
      by_contra hnone
      refine hany ⟨?_, hdirs⟩
      rw [List.any_eq_false]
      exact fun d hd happroved => hnone ⟨d, hd, happroved⟩
    split at h
    · cases h
    · cases h
    · rename_i roth woth hstat
      rw [hstat]
      generalize (if mode = RRQ then roth else woth) = readable at h ⊢
      cases readable with
      | false => cases h
      | true => exact ⟨openIt_name sys filename, happroved, roth, woth, rfl⟩
    · cases h
  · rename_i habs
    rw [if_neg habs]
    split at h
    · cases h
    rename_i hrel
    rw [if_neg hrel]
    rw [not_or, not_not] at hrel
    refine Or.inr ⟨hrel.1, hrel.2, ?_⟩
    rcases hsearch : search sys filename dirs ENOTFOUND with err | name
    · rw [hsearch] at h
      exact absurd h (search_error hsearch (by decide))
    · obtain ⟨d, hd, rfl, woth, hstat⟩ := search_found hsearch
      exact ⟨d, hd, openIt_name sys _, woth, hstat⟩

/-- What an accepted request opens is a regular file below an approved directory, and a request
    to write has an absolute name. -/
theorem access_contained (sys : Sys) {dirs : List Dir} (hdirs : dirs ≠ []) (filename : Str) (mode : UInt16)
    (h : (validateAccess sys dirs filename mode).1 = 0) :
    (∃ d ∈ dirs, Below sys.fs d (validateAccess sys dirs filename mode).2) ∧
      (mode ≠ RRQ → filename.head? = some slash) := by
  obtain ⟨hup, ⟨habs, hname, ⟨d, hd, happroved⟩, roth, woth, hstat⟩ | ⟨hmode, hrel, d, hd, hname, woth, hstat⟩⟩ :=
    validateAccess_cases hdirs h
  · refine ⟨⟨d, hd, ?_⟩, fun _ => habs⟩
    rw [hname]
    exact below_of_approves happroved habs hup hstat
  · refine ⟨⟨d, hd, ?_⟩, fun hwrite => absurd hmode hwrite⟩
    rw [hname]
    refine below_of_append (fun hin => ?_) hstat
    rcases List.infix_cons_iff.mp hin with hpre | hin
    · exact hrel (List.cons_prefix_cons.mp hpre).2
    · exact hup hin

/-- "/t" and the file "/t/f" in it, which all may read. -/
def tftpboot : FileSystem where
  node p :=
    if p = [] ∨ p = [[0x74]] then some .directory
    else if p = [[0x74], [0x66]] then some (.regular true false)
    else none
  root := rfl
  parent p n h := by
    rcases p with _ | ⟨a, _ | ⟨b, p⟩⟩
    · rfl
    · by_cases ha : a = [0x74]
      · simp [ha]
      · simp [ha] at h
    · simp at h

/-- Asked for "f", tftpd opens "/t/f". -/
theorem access_contained_relative :
    (∃ d ∈ directories [[0x74], [slash, 0x74]], Below tftpboot d [slash, 0x74, slash, 0x66]) ∧
      (RRQ ≠ RRQ → [0x66].head? = some slash) :=
  access_contained ⟨tftpboot, fun _ => true, fun _ => none, fun _ => none⟩ (by decide) [0x66] RRQ
    (by decide +kernel)

end Netutils.Tftpd
