/-
  Netutils.Inetd.Reload — SIGHUP where the configuration has not changed (inetd/inetd.c: config
  and nextconfig).

  config takes the marks off the services once, before it reads anything, but nextconfig purges
  what has no mark at the end of each file. So the entries of the first file keep their services,
  and those of every other file lose theirs and get new ones (`reload_iff`).
-/

import Netutils.Inetd.Selects

namespace Netutils.Inetd

open Netutils.Lib.Transition

/-! ## config -/

/-- What there is where no directory is. -/
inductive File where
  | regular (entries : List Entry)
  /-- setconfig cannot open it. -/
  | unreadable
  /-- Nothing, or no regular file. -/
  | other

inductive ConfigFile where
  | file (f : File)
  | directory (ls : List File)

/-- What nextconfig reads of it. -/
def File.read : File → List (List Entry)
  | .regular entries => [entries]
  | _ => []

def ConfigFile.read : ConfigFile → List (List Entry)
  | .file f => f.read
  | .directory ls => ls.flatMap File.read

/-- The files that are read, in turn. -/
def files (config_files : List ConfigFile) : List (List Entry) := config_files.flatMap ConfigFile.read

def reading (h : Host) (k : Kernel) (fs : List (List Entry)) : List Event :=
  fs.flatMap fun es => es.map (Event.nextconfig h k) ++ [.purge]

def config (h : Host) (k : Kernel) (config_files : List ConfigFile) : List Event :=
  .config :: reading h k (files config_files)

def Entry.key (e : Entry) : Str × Str := (e.service, e.proto)

def Servtab.key (sep : Servtab) : Str × Str := (sep.service, sep.proto)

/-- Connections, the ends of children and retries. -/
def Event.serves : Event → Bool
  | .select _ | .visit _ | .reapchild _ | .retry _ => true
  | .config | .nextconfig .. | .purge => false

/-! ## What a reload is to keep -/

/-- The same service on the same socket, waiting for the same child. -/
structure Servtab.Keeps (sep sep' : Servtab) : Prop where
  id : sep'.id = sep.id
  key : sep'.key = sep.key
  port : sep'.port = sep.port
  wait : sep'.wait = sep.wait
  fd : ∀ fd, sep.fd = some fd → sep'.fd = some fd

/-- Every service of `s` is there, and its descriptor is open. -/
def Kept (s t : Daemon) : Prop :=
  ∀ sep ∈ s.servtab, ∃ sep' ∈ t.servtab, sep.Keeps sep' ∧ ∀ fd, sep'.fd = some fd → fd ∈ t.globals.opened

/-! ## One service -/

variable {g g' : Globals} {sep sep' : Servtab} {l l' : List Servtab} {s t u : Daemon} {e : Entry} {host : Host}

/-- The port that nextconfig comes to. -/
def Host.portOf (h : Host) (sep : Servtab) : Nat :=
  if sep.isMux then sep.port
  else
    match h.lookup sep.service sep.proto with
    | .port p => p
    | _ => sep.port

theorem Host.portOf_set (host : Host) (sep : Servtab) (checked : Bool) (fd : Option Nat) :
    host.portOf { sep with checked, port := host.portOf sep, fd } = host.portOf sep := by
  by_cases hm : sep.isMux = true
  · rw [Host.portOf, if_pos (by exact hm)]
  · rw [Host.portOf, Host.portOf, if_neg (by exact hm), if_neg hm]
    cases host.lookup sep.service sep.proto <;> rfl

theorem Servtab.Steady.key (h : sep.Steady sep') : sep'.key = sep.key := by
  rw [Servtab.key, Servtab.key, h.service, h.proto]

theorem Servtab.Steady.names (h : sep.Steady sep') (e : Entry) : e.names sep' = e.names sep := by
  rw [Entry.names, Entry.names, Servtab.isMux, Servtab.isMux, h.service, h.proto, h.type]

theorem Servtab.Steady.portOf (h : sep.Steady sep') (host : Host) : host.portOf sep' = host.portOf sep := by
  rw [Host.portOf, Host.portOf, Servtab.isMux, Servtab.isMux, h.service, h.proto, h.type, h.port]

theorem Entry.key_of_names (h : e.names sep = true) : sep.key = e.key := by
  simp only [Entry.names, Bool.and_eq_true, decide_eq_true_eq] at h
  rw [Servtab.key, Entry.key, h.1.1, h.1.2]

theorem ensureOpen_eq (k : Kernel) (g : Globals) (sep : Servtab) :
    ∃ fd, (ensureOpen k (g, sep)).2 = { sep with fd } ∧ ∀ d, sep.fd = some d → fd = some d := by
  rw [ensureOpen]
  split
  · rename_i hnone
    obtain ⟨fd, heq⟩ := setup_eq k g sep
    refine ⟨fd, heq, ?_⟩
    intro d hd
    rw [hnone] at hd
    cases hd
  · exact ⟨sep.fd, rfl, fun _ hd => hd⟩

theorem setPort_eq (p : Nat) (g : Globals) (sep : Servtab) (h : p = sep.port ∨ sep.fd = none) :
    setPort p g sep = (g, { sep with port := p }) := by
  rw [setPort]
  by_cases hsame : p = sep.port
  · rw [if_pos hsame, hsame]
  · rw [if_neg hsame, if_neg (by rw [h.resolve_left hsame]; exact Bool.false_ne_true)]

/-- A turn on a service that is new or has its port. -/
theorem update_eq (host : Host) (k : Kernel) (g : Globals) (sep : Servtab)
    (hknown : host.lookup sep.service sep.proto ≠ .unknown)
    (hmux : sep.isMux = true → sep.fd = none) (hport : host.portOf sep = sep.port ∨ sep.fd = none) :
    ∃ fd, (update host k g sep).2 = { sep with checked := true, port := host.portOf sep, fd } ∧
      ∀ d, sep.fd = some d → fd = some d := by
  rw [update]
  split
  · rename_i hm
    have hp : host.portOf sep = sep.port := by rw [Host.portOf, if_pos hm]
    rw [hp]
    refine ⟨none, rfl, ?_⟩
    intro d hd
    rw [hmux hm] at hd
    cases hd
  · rename_i hm
    cases hlookup : host.lookup sep.service sep.proto with
    | unknown => exact absurd hlookup hknown
    | notAsked =>
      have hp : host.portOf sep = sep.port := by rw [Host.portOf, if_neg hm, hlookup]
      rw [hp]
      exact ensureOpen_eq k g { sep with checked := true }
    | port p =>
      have hp : host.portOf sep = p := by rw [Host.portOf, if_neg hm, hlookup]
      rw [hp] at hport ⊢
      show ∃ fd, (ensureOpen k (setPort p g { sep with checked := true })).2 = _ ∧ _
      rw [setPort_eq p g { sep with checked := true } hport]
      exact ensureOpen_eq k g { sep with checked := true, port := p }

/-- The entry says of the service whether it waits. -/
def Entry.Agrees (e : Entry) (sep : Servtab) : Prop := e.bi = none → (sep.wait = 0 ↔ e.wait = false)

theorem Entry.merge_eq (h : e.Agrees sep) : e.merge sep = { sep with user := e.user, server := e.server, argv := e.argv } := by
  have hwait : (e.merge sep).wait = sep.wait := by
    rw [Entry.merge]
    simp only
    split
    · rename_i hset
      simp only [Bool.and_eq_true, Option.isNone_iff_eq_none, Bool.or_eq_true, decide_eq_true_eq,
        Bool.not_eq_true'] at hset
      have hiff := h hset.1
      rw [Entry.waits]
      rcases hset.2 with hone | hno
      · have hyes : e.wait = true := by
          by_contra hno
          exact absurd (hiff.mpr (Bool.eq_false_of_not_eq_true hno)) (by omega)
        rw [if_pos hyes, hone]
      · rw [if_neg (by rw [hno]; exact Bool.false_ne_true), hiff.mpr hno]
    · rfl
  rw [← hwait]
  rfl

/-! ## The table -/

theorem mem_replace {x : Servtab} : x ∈ replace sep l ↔ (x = sep ∧ ∃ y ∈ l, y.id = sep.id) ∨ (x ∈ l ∧ x.id ≠ sep.id) := by
  rw [replace, List.mem_map]
  constructor
  · intro h
    obtain ⟨y, hy, rfl⟩ := h
    by_cases hid : y.id = sep.id
    · rw [if_pos hid]
      exact Or.inl ⟨rfl, y, hy, hid⟩
    · rw [if_neg hid]
      exact Or.inr ⟨hy, hid⟩
  · rintro (⟨rfl, y, hy, hid⟩ | ⟨hx, hid⟩)
    · exact ⟨y, hy, if_pos hid⟩
    · exact ⟨x, hx, if_neg hid⟩

theorem replace_forall₂ {R : Servtab → Servtab → Prop} (hrefl : ∀ x, R x x) (hnew : ∀ x ∈ l, x.id = sep.id → R x sep) :
    List.Forall₂ R l (replace sep l) := by
  rw [replace, List.forall₂_map_right_iff, List.forall₂_same]
  intro x hx
  by_cases hid : x.id = sep.id
  · rw [if_pos hid]
    exact hnew x hx hid
  · rw [if_neg hid]
    exact hrefl x

theorem sweep_forall₂ {f : Globals → Servtab → Globals × Option Servtab} {R : Servtab → Servtab → Prop}
    (hf : ∀ g sep, ∃ sep', (f g sep).2 = some sep' ∧ R sep sep') (g : Globals) (l : List Servtab) :
    List.Forall₂ R l (sweep f g l).2 := by
  induction l generalizing g with
  | nil => exact .nil
  | cons sep l ih =>
    obtain ⟨sep', heq, hR⟩ := hf g sep
    rw [sweep]
    simp only [heq]
    exact .cons hR (ih _)

theorem Forall₂.mem_right {R : Servtab → Servtab → Prop} (h : List.Forall₂ R l l') : ∀ y ∈ l', ∃ x ∈ l, R x y := by
  induction h with
  | nil => exact List.forall_mem_nil _
  | cons hR _ ih =>
    intro y hy
    rcases List.mem_cons.mp hy with rfl | hy
    · exact ⟨_, List.mem_cons_self, hR⟩
    · obtain ⟨x, hx, hxy⟩ := ih y hy
      exact ⟨x, List.mem_cons_of_mem _ hx, hxy⟩

theorem Forall₂.mem_left {R : Servtab → Servtab → Prop} (h : List.Forall₂ R l l') : ∀ x ∈ l, ∃ y ∈ l', R x y :=
  Forall₂.mem_right (R := fun y x => R x y) h.flip

theorem steady_keys (h : List.Forall₂ Servtab.Steady l l') : l'.map Servtab.key = l.map Servtab.key := by
  induction h with
  | nil => rfl
  | cons hsteady _ ih => rw [List.map_cons, List.map_cons, hsteady.key, ih]

/-! ## What a load leaves -/

/-- The entries and the services are one to one. -/
structure Loaded (host : Host) (entries : List Entry) (s : Daemon) : Prop where
  good : Good s.globals s.servtab
  keys : (s.servtab.map Servtab.key).Nodup
  entry : ∀ sep ∈ s.servtab, ∃ e ∈ entries, e.names sep = true ∧ e.Agrees sep
  port : ∀ sep ∈ s.servtab, host.portOf sep = sep.port
  present : ∀ e ∈ entries, ∃ sep ∈ s.servtab, e.names sep = true

variable {entries done todo : List Entry} {k k' : Kernel}

/-- What the services are does not change, and Good is kept. -/
theorem Loaded.steady (h : Loaded host entries s) (hgood : Good t.globals t.servtab)
    (hsteady : List.Forall₂ Servtab.Steady s.servtab t.servtab) : Loaded host entries t := by
  refine ⟨hgood, ?_, ?_, ?_, ?_⟩
  · rw [steady_keys hsteady]
    exact h.keys
  · intro sep' hsep'
    obtain ⟨sep, hsep, hsame⟩ := Forall₂.mem_right hsteady sep' hsep'
    obtain ⟨e, he, hnames, hagrees⟩ := h.entry sep hsep
    exact ⟨e, he, (hsame.names e).trans hnames, fun hbi => hsame.wait.trans (hagrees hbi)⟩
  · intro sep' hsep'
    obtain ⟨sep, hsep, hsame⟩ := Forall₂.mem_right hsteady sep' hsep'
    rw [hsame.portOf, hsame.port]
    exact h.port sep hsep
  · intro e he
    obtain ⟨sep, hsep, hnames⟩ := h.present e he
    obtain ⟨sep', hsep', hsame⟩ := Forall₂.mem_left hsteady sep hsep
    exact ⟨sep', hsep', (hsame.names e).trans hnames⟩

/-- Only one service has the key. -/
theorem Loaded.unique (h : Loaded host entries s) {x y : Servtab} (hx : x ∈ s.servtab) (hy : y ∈ s.servtab)
    (hkey : x.key = y.key) : x = y := List.inj_on_of_nodup_map h.keys hx hy hkey

/-- The user is known and so is the service. -/
def Host.Knows (host : Host) (e : Entry) : Prop := host.user e.user = true ∧ host.lookup e.service e.proto ≠ .unknown

/-- The first time that an entry is read. -/
theorem Loaded.add (h : Loaded host done s) (hnew : e.key ∉ done.map Entry.key) (hknows : host.Knows e) :
    Loaded host (done ++ [e]) (nextconfig host k e s) ∧
      ((∀ sep ∈ s.servtab, sep.checked = true) → ∀ sep ∈ (nextconfig host k e s).servtab, sep.checked = true) := by
  have hfind : s.servtab.find? e.names = none := by
    refine List.find?_eq_none.mpr fun sep hsep hnames => hnew ?_
    obtain ⟨e', he', hnames', -⟩ := h.entry sep hsep
    rw [← Entry.key_of_names hnames, Entry.key_of_names hnames']
    exact List.mem_map_of_mem he'
  have hgood := h.good.nextconfig host k e fun _ sep hsep => nomatch hfind.symm.trans hsep
  obtain ⟨fd, heq, -⟩ := update_eq host k { s.globals with nextId := s.globals.nextId + 1 } (e.enter s.globals.nextId)
    hknows.2 (fun _ => rfl) (Or.inr rfl)
  have hnext : (nextconfig host k e s).servtab = { e.enter s.globals.nextId with
      checked := true, port := host.portOf (e.enter s.globals.nextId), fd } :: s.servtab := by
    rw [nextconfig, if_neg (by rw [hknows.1]; exact Bool.false_ne_true), hfind, ← heq]
  have hnames : ∀ checked port fd, e.names { e.enter s.globals.nextId with checked, port, fd } = true := by
    intro checked port fd
    show (decide (e.service = e.service) && decide (e.proto = e.proto) && decide (e.isMux = e.isMux)) = true
    simp only [decide_true, Bool.and_self]
  refine ⟨⟨hgood, ?_, ?_, ?_, ?_⟩, ?_⟩
  · rw [hnext, List.map_cons, List.nodup_cons]
    refine ⟨fun hin => ?_, h.keys⟩
    obtain ⟨sep, hsep, hkey⟩ := List.mem_map.mp hin
    obtain ⟨e', he', hnames', -⟩ := h.entry sep hsep
    refine hnew (List.mem_map.mpr ⟨e', he', ?_⟩)
    rw [← Entry.key_of_names hnames', hkey]
    rfl
  · rw [hnext]
    intro sep hsep
    rcases List.mem_cons.mp hsep with rfl | hsep
    · refine ⟨e, List.mem_append_right _ List.mem_cons_self, hnames _ _ _, fun _ => ?_⟩
      show e.waits = 0 ↔ _
      rw [Entry.waits]
      cases e.wait <;> simp
    · obtain ⟨e', he', h'⟩ := h.entry sep hsep
      exact ⟨e', List.mem_append_left _ he', h'⟩
  · rw [hnext]
    intro sep hsep
    rcases List.mem_cons.mp hsep with rfl | hsep
    · exact host.portOf_set (e.enter s.globals.nextId) true fd
    · exact h.port sep hsep
  · rw [hnext]
    intro e' he'
    rcases List.mem_append.mp he' with he' | he'
    · obtain ⟨sep, hsep, h'⟩ := h.present e' he'
      exact ⟨sep, List.mem_cons_of_mem _ hsep, h'⟩
    · obtain rfl := List.mem_singleton.mp he'
      exact ⟨_, List.mem_cons_self, hnames _ _ _⟩
  · intro hchecked
    rw [hnext]
    intro sep hsep
    rcases List.mem_cons.mp hsep with rfl | hsep
    · rfl
    · exact hchecked sep hsep

theorem sweep_purge (g : Globals) (l : List Servtab) : (sweep purge g l).2 = l.filter Servtab.checked := by
  induction l generalizing g with
  | nil => rfl
  | cons sep l ih =>
    rw [sweep]
    simp only [ih]
    cases hchecked : sep.checked with
    | true => rw [List.filter_cons_of_pos hchecked, purge, if_pos hchecked]; rfl
    | false =>
      have hno : ¬ sep.checked = true := by rw [hchecked]; exact Bool.false_ne_true
      rw [List.filter_cons_of_neg hno, purge, if_neg hno]
      rfl

/-- Where every service has its mark, a purge does nothing. -/
theorem purge_eq (h : ∀ sep ∈ s.servtab, sep.checked = true) : s.sweep purge = s := by
  have hsweep : ∀ g (l : List Servtab), (∀ sep ∈ l, sep.checked = true) → sweep purge g l = (g, l) := by
    intro g l
    induction l generalizing g with
    | nil => exact fun _ => rfl
    | cons sep l ih =>
      intro hl
      have hone : purge g sep = (g, some sep) := if_pos (hl sep List.mem_cons_self)
      rw [sweep]
      simp only [hone, ih g fun x hx => hl x (List.mem_cons_of_mem sep hx)]
      rfl
  rw [Daemon.sweep, hsweep s.globals s.servtab h]

variable {toomany : Nat} {fs : List (List Entry)} {a : Event}

theorem reading_cons (host : Host) (k : Kernel) (es : List Entry) (fs : List (List Entry)) :
    reading host k (es :: fs) = (es.map (Event.nextconfig host k) ++ [.purge]) ++ reading host k fs :=
  List.flatMap_cons

theorem Loaded.load (h : Loaded host done s) (hchecked : ∀ sep ∈ s.servtab, sep.checked = true)
    (hkeys : ((done ++ todo).map Entry.key).Nodup) (hknows : ∀ e ∈ todo, host.Knows e)
    (hrun : run (Daemon.step toomany) (todo.map (Event.nextconfig host k)) s = some t) :
    Loaded host (done ++ todo) t ∧ ∀ sep ∈ t.servtab, sep.checked = true := by
  induction todo generalizing done s with
  | nil =>
    obtain rfl := Option.some.inj hrun
    rw [List.append_nil]
    exact ⟨h, hchecked⟩
  | cons e todo ih =>
    obtain ⟨v, hv, hrun⟩ := run_cons.mp hrun
    obtain rfl := Option.some.inj hv
    have hnew : e.key ∉ done.map Entry.key := by
      rw [List.map_append, List.map_cons, List.nodup_middle, List.nodup_cons] at hkeys
      exact fun hin => hkeys.1 (List.mem_append_left _ hin)
    obtain ⟨hadd, hmarks⟩ := h.add (k := k) hnew (hknows e List.mem_cons_self)
    rw [List.append_cons] at hkeys ⊢
    exact ih hadd (hmarks hchecked) hkeys (fun x hx => hknows x (List.mem_cons_of_mem e hx)) hrun

theorem Loaded.reading (h : Loaded host done s) (hchecked : ∀ sep ∈ s.servtab, sep.checked = true)
    (hkeys : ((done ++ fs.flatten).map Entry.key).Nodup) (hknows : ∀ e ∈ fs.flatten, host.Knows e)
    (hrun : run (Daemon.step toomany) (reading host k fs) s = some t) : Loaded host (done ++ fs.flatten) t := by
  induction fs generalizing done s with
  | nil =>
    obtain rfl := Option.some.inj hrun
    rw [List.flatten_nil, List.append_nil]
    exact h
  | cons es fs ih =>
    rw [reading_cons] at hrun
    obtain ⟨u, hu, hrun⟩ := run_append.mp hrun
    obtain ⟨v, hv, hpurge⟩ := run_append.mp hu
    rw [List.flatten_cons] at hknows hkeys ⊢
    rw [← List.append_assoc] at hkeys ⊢
    have hes : ((done ++ es).map Entry.key).Nodup := by
      rw [List.map_append] at hkeys
      exact hkeys.of_append_left
    obtain ⟨hloaded, hmarks⟩ := h.load hchecked hes (fun x hx => hknows x (List.mem_append_left _ hx)) hv
    obtain ⟨w, hw, hnil⟩ := run_cons.mp hpurge
    obtain rfl := Option.some.inj hw
    obtain rfl := Option.some.inj hnil
    rw [purge_eq hmarks] at hrun
    exact ih hloaded hmarks hkeys (fun x hx => hknows x (List.mem_append_right _ hx)) hrun

/-! ## Serving -/

theorem steady_serves (hgood : Good s.globals s.servtab) (ha : a.serves = true)
    (hstep : Daemon.step toomany a s = some t) : List.Forall₂ Servtab.Steady s.servtab t.servtab := by
  have hsame : List.Forall₂ Servtab.Steady s.servtab s.servtab := List.forall₂_same.mpr fun sep _ => .refl sep
  cases a with
  | select ready =>
    rw [Daemon.step] at hstep
    split at hstep
    · obtain rfl := Option.some.inj hstep
      exact hsame
    · cases hstep
  | visit c =>
    rw [Daemon.step] at hstep
    split at hstep
    · cases hstep
    · rename_i i rest hrest
      split at hstep
      · cases hstep
      · obtain rfl := Option.some.inj hstep
        rw [Daemon.visit]
        simp only
        cases hfind : s.servtab.find? fun sep => sep.id = i with
        | none => exact hsame
        | some sep =>
          simp only
          split
          · have hmem : sep ∈ s.servtab := List.mem_of_find?_eq_some hfind
            refine replace_forall₂ Servtab.Steady.refl fun x hx hid => ?_
            rw [(steady_connection toomany c _ sep).id] at hid
            obtain rfl := List.inj_on_of_nodup_map hgood.ids hx hmem hid
            exact steady_connection toomany c _ x
          · exact hsame
  | reapchild pid =>
    obtain rfl := Option.some.inj hstep
    exact sweep_forall₂ (steady_reap pid) _ _
  | retry k =>
    obtain rfl := Option.some.inj hstep
    exact sweep_forall₂ (steady_retry k) _ _
  | config => cases ha
  | nextconfig => cases ha
  | purge => cases ha

theorem Loaded.serves (h : Loaded host entries s) {es : List Event} (hes : ∀ a ∈ es, a.serves = true)
    (hrun : run (Daemon.step toomany) es s = some t) : Loaded host entries t := by
  induction es generalizing s with
  | nil =>
    obtain rfl := Option.some.inj hrun
    exact h
  | cons a es ih =>
    obtain ⟨u, hu, hrun⟩ := run_cons.mp hrun
    have ha := hes a List.mem_cons_self
    have hspares : Spares a s := by
      cases a with
      | select | visit | reapchild | retry => trivial
      | config | nextconfig | purge => exact nomatch ha
    exact ih (h.steady (step_good h.good hspares hu) (steady_serves h.good ha hu))
      (fun x hx => hes x (List.mem_cons_of_mem a hx)) hrun

/-! ## A reload -/

theorem Servtab.Keeps.refl (sep : Servtab) : sep.Keeps sep := ⟨rfl, rfl, rfl, rfl, fun _ h => h⟩

theorem Servtab.Keeps.trans {x y z : Servtab} (hxy : x.Keeps y) (hyz : y.Keeps z) : x.Keeps z :=
  ⟨hyz.id.trans hxy.id, hyz.key.trans hxy.key, hyz.port.trans hxy.port, hyz.wait.trans hxy.wait,
    fun fd hfd => hyz.fd fd (hxy.fd fd hfd)⟩

theorem Kept.refl (hgood : Good s.globals s.servtab) : Kept s s :=
  fun sep hsep => ⟨sep, hsep, .refl sep, hgood.opened sep hsep⟩

theorem Kept.trans (h : Kept s t) (hgood : Good u.globals u.servtab)
    (hkeeps : List.Forall₂ Servtab.Keeps t.servtab u.servtab) : Kept s u := by
  intro x hx
  obtain ⟨y, hy, hxy, -⟩ := h x hx
  obtain ⟨z, hz, hyz⟩ := Forall₂.mem_left hkeeps y hy
  exact ⟨z, hz, hxy.trans hyz, hgood.opened z hz⟩

/-- A reload that began in `s` has read `done` of the entries since the last purge. -/
structure Reloading (host : Host) (entries : List Entry) (s : Daemon) (done : List Entry) (t : Daemon) : Prop where
  loaded : Loaded host entries t
  kept : Kept s t
  marked : ∀ sep ∈ t.servtab, sep.checked = true ↔ ∃ e ∈ done, e.names sep = true

theorem Reloading.config (h : Loaded host entries s) : Reloading host entries s [] (s.sweep uncheck) := by
  have hstep : Daemon.step 0 .config s = some (s.sweep uncheck) := rfl
  have hspares : Spares .config s := trivial
  have hgood : Good (s.sweep uncheck).globals (s.sweep uncheck).servtab := step_good h.good hspares hstep
  refine ⟨h.steady hgood ?_, (Kept.refl h.good).trans hgood ?_, ?_⟩
  · exact sweep_forall₂ (fun g sep => ⟨_, rfl, rfl, rfl, rfl, rfl, rfl, Iff.rfl⟩) _ _
  · exact sweep_forall₂ (fun g sep => ⟨_, rfl, rfl, rfl, rfl, rfl, fun _ hfd => hfd⟩) _ _
  · have hunmarked : List.Forall₂ (fun _ sep' => sep'.checked = false) s.servtab (s.sweep uncheck).servtab :=
      sweep_forall₂ (f := uncheck) (R := fun _ sep' => sep'.checked = false) (fun g sep => ⟨_, rfl, rfl⟩) _ _
    intro sep hsep
    obtain ⟨-, -, hfalse⟩ := Forall₂.mem_right hunmarked sep hsep
    rw [hfalse]
    exact ⟨nofun, nofun⟩

/-- The entry that names a service is its entry. -/
theorem Loaded.agrees (h : Loaded host entries t) (hkeys : (entries.map Entry.key).Nodup) (he : e ∈ entries)
    (hsep : sep ∈ t.servtab) (hnames : e.names sep = true) : e.Agrees sep := by
  obtain ⟨e', he', hnames', hagrees⟩ := h.entry sep hsep
  obtain rfl := List.inj_on_of_nodup_map hkeys he' he ((Entry.key_of_names hnames').symm.trans (Entry.key_of_names hnames))
  exact hagrees

/-- The reload spares every service. -/
theorem Loaded.spares (h : Loaded host entries t) (hkeys : (entries.map Entry.key).Nodup) (he : e ∈ entries) :
    Spares (.nextconfig host k e) t := by
  intro _ sep hfind hlt
  have hmem : sep ∈ t.servtab := List.mem_of_find?_eq_some hfind
  refine ⟨fun hbi => ?_, ?_⟩
  · have hiff := h.agrees hkeys he hmem (List.find?_some hfind) hbi
    by_contra hno
    exact absurd (hiff.mpr (Bool.eq_false_of_not_eq_true hno)) (by omega)
  · have hmux : ¬ sep.isMux = true := fun hm =>
      absurd (h.good.closed sep hmem (h.good.mux sep hmem hm)) (Nat.not_le_of_lt hlt)
    have hport := h.port sep hmem
    rw [Host.portOf, if_neg hmux] at hport
    cases hlookup : host.lookup sep.service sep.proto with
    | notAsked => rfl
    | unknown => rfl
    | port p =>
      rw [hlookup] at hport
      simpa [Lookup.moves] using hport

theorem Reloading.nextconfig (h : Reloading host entries s done t) (hkeys : (entries.map Entry.key).Nodup)
    (he : e ∈ entries) (hknows : host.Knows e) : Reloading host entries s (done ++ [e]) (Inetd.nextconfig host k e t) := by
  have hgood := h.loaded.good.nextconfig host k e (h.loaded.spares hkeys he)
  cases hfind : t.servtab.find? e.names with
  | none =>
    obtain ⟨sep, hsep, hnames⟩ := h.loaded.present e he
    exact absurd hnames (List.find?_eq_none.mp hfind sep hsep)
  | some sep =>
    have hmem : sep ∈ t.servtab := List.mem_of_find?_eq_some hfind
    have hnames : e.names sep = true := List.find?_some hfind
    have hkey : (sep.service, sep.proto) = (e.service, e.proto) := Entry.key_of_names hnames
    have hmerge := Entry.merge_eq (h.loaded.agrees hkeys he hmem hnames)
    have hlookup : host.lookup sep.service sep.proto ≠ .unknown := by
      rw [(Prod.mk.inj hkey).1, (Prod.mk.inj hkey).2]
      exact hknows.2
    have hport := h.loaded.port sep hmem
    obtain ⟨fd, heq, hfd⟩ := update_eq host k t.globals { sep with user := e.user, server := e.server, argv := e.argv }
      hlookup (h.loaded.good.mux sep hmem) (Or.inl hport)
    obtain ⟨new, hnew⟩ : ∃ new, new = (update host k t.globals (e.merge sep)).2 := ⟨_, rfl⟩
    have hnext : (Inetd.nextconfig host k e t).servtab = replace new t.servtab := by
      rw [Inetd.nextconfig, if_neg (by rw [hknows.1]; exact Bool.false_ne_true), hfind, hnew]
    rw [hmerge, heq] at hnew
    have hsteady : sep.Steady new := hnew ▸ ⟨rfl, rfl, rfl, rfl, hport, Iff.rfl⟩
    have hkeeps : sep.Keeps new := hnew ▸ ⟨rfl, rfl, hport, rfl, hfd⟩
    have hown : ∀ x ∈ t.servtab, x.id = new.id → x = sep := fun x hx hid =>
      List.inj_on_of_nodup_map h.loaded.good.ids hx hmem (hid.trans hsteady.id)
    refine ⟨h.loaded.steady hgood ?_, h.kept.trans hgood ?_, ?_⟩
    · rw [hnext]
      exact replace_forall₂ Servtab.Steady.refl fun x hx hid => hown x hx hid ▸ hsteady
    · rw [hnext]
      exact replace_forall₂ Servtab.Keeps.refl fun x hx hid => hown x hx hid ▸ hkeeps
    · rw [hnext]
      intro x hx
      rcases mem_replace.mp hx with ⟨rfl, -⟩ | ⟨hx, hid⟩
      · refine iff_of_true (by rw [hnew]) ⟨e, List.mem_append_right _ List.mem_cons_self, ?_⟩
        rw [hsteady.names, hnames]
      · rw [h.marked x hx]
        constructor
        · intro h
          obtain ⟨e', he', hnames'⟩ := h
          exact ⟨e', List.mem_append_left _ he', hnames'⟩
        · intro h
          obtain ⟨e', he', hnames'⟩ := h
          rcases List.mem_append.mp he' with he' | he'
          · exact ⟨e', he', hnames'⟩
          · obtain rfl := List.mem_singleton.mp he'
            have hsame : x = sep :=
              h.loaded.unique hx hmem ((Entry.key_of_names hnames').trans (Entry.key_of_names hnames).symm)
            exact absurd (hsame ▸ hsteady.id.symm) hid

theorem Reloading.read (h : Reloading host entries s done t) (toomany : Nat) (k : Kernel) (todo : List Entry)
    (hkeys : (entries.map Entry.key).Nodup)
    (htodo : ∀ e ∈ todo, e ∈ entries ∧ host.Knows e) :
    Always (Daemon.step toomany) (Kept s) (todo.map (Event.nextconfig host k)) t ∧
      ∃ u, run (Daemon.step toomany) (todo.map (Event.nextconfig host k)) t = some u ∧
        Reloading host entries s (done ++ todo) u := by
  induction todo generalizing done t with
  | nil => exact ⟨h.kept, t, rfl, by rwa [List.append_nil]⟩
  | cons e todo ih =>
    have hone := htodo e List.mem_cons_self
    obtain ⟨hall, u, hu, hread⟩ := ih (h.nextconfig (k := k) hkeys hone.1 hone.2)
      fun x hx => htodo x (List.mem_cons_of_mem e hx)
    refine ⟨⟨h.kept, fun v hv => ?_⟩, u, run_cons.mpr ⟨_, rfl, hu⟩, ?_⟩
    · obtain rfl := Option.some.inj hv
      exact hall
    · rwa [List.append_cons]

/-- Files without entries do nothing where every service has its mark. -/
theorem always_empty {P : Daemon → Prop} (hempty : ∀ es ∈ fs, es = []) (hmarks : ∀ sep ∈ t.servtab, sep.checked = true)
    (hP : P t) : Always (Daemon.step toomany) P (reading host k fs) t := by
  induction fs with
  | nil => exact hP
  | cons es fs ih =>
    obtain rfl := hempty es List.mem_cons_self
    refine ⟨hP, fun v hv => ?_⟩
    obtain rfl := Option.some.inj hv
    rw [purge_eq hmarks]
    exact ih fun x hx => hempty x (List.mem_cons_of_mem _ hx)

/-- A reload that finds what the first load has found keeps every service, at every moment, just if
    no file has entries but the first that is read. -/
theorem reload_iff (toomany : Nat) (host : Host) (k k' : Kernel) (config_files : List ConfigFile)
    (hkeys : ((files config_files).flatten.map Entry.key).Nodup) (hknows : ∀ e ∈ (files config_files).flatten, host.Knows e)
    (es : List Event) (hes : ∀ a ∈ es, a.serves = true) (s : Daemon)
    (hrun : run (Daemon.step toomany) (config host k config_files ++ es) {} = some s) :
    Always (Daemon.step toomany) (Kept s) (config host k' config_files) s ↔ ∀ f ∈ (files config_files).tail, f = [] := by
  have hloaded : Loaded host (files config_files).flatten s := by
    obtain ⟨t, ht, hserve⟩ := run_append.mp hrun
    obtain ⟨v, hv, ht⟩ := run_cons.mp ht
    obtain rfl := Option.some.inj hv
    have hempty : Loaded host [] (Daemon.sweep uncheck {}) := ⟨init_good, List.nodup_nil, List.forall_mem_nil _, List.forall_mem_nil _, List.forall_mem_nil _⟩
    exact (hempty.reading (List.forall_mem_nil _) hkeys hknows ht).serves hes hserve
  have hstart := Reloading.config hloaded
  rw [config]
  cases hfiles : files config_files with
  | nil =>
    refine iff_of_true ⟨Kept.refl hloaded.good, fun v hv => ?_⟩ nofun
    obtain rfl := Option.some.inj hv
    exact hstart.kept
  | cons first fs =>
    rw [hfiles, List.flatten_cons] at hkeys hknows hloaded hstart
    obtain ⟨hall, u, hu, hread⟩ := hstart.read toomany k' first hkeys
      fun e he => ⟨List.mem_append_left _ he, hknows e (List.mem_append_left _ he)⟩
    have hpurged : run (Daemon.step toomany) (first.map (Event.nextconfig host k') ++ [.purge]) (s.sweep uncheck) =
        some (u.sweep purge) := run_append.mpr ⟨u, hu, rfl⟩
    rw [List.tail_cons, reading_cons]
    constructor
    · intro h f hf
      by_contra hne
      obtain ⟨e, he⟩ := List.exists_mem_of_ne_nil f hne
      have hlate : e ∈ fs.flatten := List.mem_flatten.mpr ⟨f, hf, he⟩
      -- its service has no mark when the first file ends
      have hkept : Kept s (u.sweep purge) := ((always_append.mp (h.2 _ rfl)).2 _ hpurged).here
      obtain ⟨sep, hsep, hnames⟩ := hloaded.present e (List.mem_append_right _ hlate)
      obtain ⟨sep', hsep', hkeeps, -⟩ := hkept sep hsep
      have hleft : sep' ∈ u.servtab.filter Servtab.checked := by rwa [← sweep_purge u.globals]
      obtain ⟨hmem, hchecked⟩ := List.mem_filter.mp hleft
      obtain ⟨e₀, he₀, hnames₀⟩ := (hread.marked sep' hmem).mp hchecked
      have hsame : e₀.key = e.key := by
        rw [← Entry.key_of_names hnames₀, hkeeps.key, Entry.key_of_names hnames]
      rw [List.map_append] at hkeys
      exact List.disjoint_of_nodup_append hkeys (List.mem_map_of_mem he₀) (hsame ▸ List.mem_map_of_mem hlate)
    · intro hempty
      have hmarks : ∀ sep ∈ u.servtab, sep.checked = true := by
        intro sep hsep
        obtain ⟨e, he, hnames, -⟩ := hread.loaded.entry sep hsep
        refine (hread.marked sep hsep).mpr ⟨e, ?_, hnames⟩
        rwa [List.flatten_eq_nil_iff.mpr hempty, List.append_nil] at he
      refine ⟨Kept.refl hloaded.good, fun v hv => ?_⟩
      obtain rfl := Option.some.inj hv
      rw [List.append_assoc]
      refine always_append.mpr ⟨hall, fun v hv => ?_⟩
      obtain rfl := Option.some.inj (hu.symm.trans hv)
      have hall : ∀ es ∈ [] :: fs, es = [] := by simpa using hempty
      exact always_empty hall hmarks hread.kept

def ntalk : Entry := { tftp with service := [110, 116, 97, 108, 107] }

def child (n : Nat) : Pid := ⟨n + 2, Nat.le_add_left 2 n⟩

/-- Both services are wanted and their children run. -/
def busy : List Event := [.select {3, 4}, .visit ⟨true, 0, some (child 5)⟩, .visit ⟨true, 0, some (child 6)⟩]

theorem reload_one_file :
    ∃ s, run (Daemon.step 1000) (config loopback inOrder [.file (.regular [tftp, ntalk])] ++ busy) {} = some s ∧
      Always (Daemon.step 1000) (Kept s) (config loopback inOrder [.file (.regular [tftp, ntalk])]) s := by
  refine ⟨_, rfl, (reload_iff 1000 loopback inOrder inOrder [.file (.regular [tftp, ntalk])] (by decide) ?_ busy (by decide)
    _ rfl).mpr nofun⟩
  exact fun e _ => ⟨rfl, nofun⟩

/-- With the same entries in two files, ntalk loses its socket and its child when the first ends. -/
theorem reload_two_files :
    let two := [ConfigFile.directory [.regular [tftp], .regular [ntalk]]]
    ((files two).flatten.map Entry.key).Nodup ∧ (∀ e ∈ (files two).flatten, loopback.Knows e) ∧
      ∃ s, run (Daemon.step 1000) (config loopback inOrder two ++ busy) {} = some s ∧
        ¬ Always (Daemon.step 1000) (Kept s) (config loopback inOrder two) s := by
  refine ⟨by decide, fun e _ => ⟨rfl, nofun⟩, _, rfl, fun h => ?_⟩
  have hkept := (((h.2 _ rfl).2 _ rfl).2 _ rfl).here
  obtain ⟨sep, hsep, hkeeps, -⟩ := hkept _ List.mem_cons_self
  obtain rfl := List.mem_singleton.mp hsep
  exact absurd hkeeps.id (by decide)

end Netutils.Inetd
