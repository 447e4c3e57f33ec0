/-
  Netutils.Ftp.Mget — what mget opens for the names of a server's list (ftp/cmds.c, mget and
  confirm; ftp/ftp.c, recvrequest and gunique), with case, ntrans and nmap off.

  The names go from the list to fopen and popen as they are. A name without a slash other than
  ".." stays in the directory, one with a bar in front is a command; which of them the list has
  is up to the server, and to the user if there is a prompt (`mget_names`). With runique there
  are no names: gunique takes the list to another file than the one that remglob reads.
-/

import Netutils.Ftp.Remglob
import Netutils.Ftp.Transfer

namespace Netutils.Ftp.Mget

open Netutils.Arpa Netutils.Ftp.Remglob

/-! ## Names -/

def DOT : UInt8 := 0x2E
def SLASH : UInt8 := 0x2F
def ZERO : UInt8 := 0x30
def ONE : UInt8 := 0x31
def NINE : UInt8 := 0x39
def BAR : UInt8 := 0x7C

/-- "-" -/
def dash : Name := [0x2D]

/-- ".." -/
def dotdot : Name := [DOT, DOT]

/-- A single component of a path, and not "..". -/
def Inside (name : Name) : Prop := name ≠ [] ∧ SLASH ∉ name ∧ name ≠ dotdot

/-! ## recvrequest -/

/-- stat: the file is there, or it fails with ENOENT, or with something else. -/
inductive Stat where
  | found | enoent | error

/-- `for (;;)`, up to `++count == 100`; `new` is what is in front of `cp`. -/
def guniqueLoop (stat : Name → Stat) : Nat → Name → UInt8 → Option Name
  | n + 1, new, ext =>
    let tried := new ++ [ext]
    let ext := if ext = NINE then ZERO else ext + 1
    match stat tried with
    | .enoent => some tried
    | .error => none
    | .found =>
      if ext ≠ ZERO then guniqueLoop stat n new ext
      else
        match new.getLast? with
        | none => none
        | some c =>
          if c = DOT then guniqueLoop stat n (new ++ [ONE]) ext
          else guniqueLoop stat n (new.dropLast ++ [c + 1]) ext
  | 0, _, _ => none

def gunique (stat : Name → Stat) (name : Name) : Option Name := guniqueLoop stat 99 (name ++ [DOT]) ONE

/-- What a transfer writes to. -/
inductive Opened where
  | stdout
  /-- `popen (local + 1, "w")` -/
  | popen (command : Name)
  /-- `fopen (local, "w")` -/
  | fopen (name : Name)

/-- What one transfer meets. -/
structure Fate where
  /-- There is a connection, and the server begins to send the file. -/
  begins : Bool
  stat : Name → Stat

/-- The local name, once gunique has seen it. -/
def localName (runique : Bool) (stat : Name → Stat) (name : Name) : Option Name :=
  if name ≠ dash ∧ name.head? ≠ some BAR ∧ runique = true then gunique stat name else some name

def openLocal (name : Name) : Opened :=
  if name = dash then .stdout
  else if name.head? = some BAR then .popen name.tail
  else .fopen name

/-- RETR, up to where the local file is opened. -/
def recvrequest (runique : Bool) (fate : Fate) (name : Name) : Option Opened :=
  match localName runique fate.stat name with
  | none => none
  | some name => if fate.begins then some (openLocal name) else none

/-! ## mget -/

structure Client where
  interactive : Bool
  runique : Bool
  crflag : Bool

/-- `*line` of an answer. -/
def refuses (c : UInt8) : Bool := c = 0x6E || c = 0x4E

/-- The next answer, by the first byte of its line; there may be no more. -/
def confirm (interactive : Bool) (stdin : List UInt8) : Bool × List UInt8 :=
  if interactive then
    match stdin with
    | [] => (false, [])
    | c :: stdin => (!refuses c, stdin)
  else (true, stdin)

/-- A call of recvrequest, with both names and what came of it. -/
structure Got where
  tp : Name
  cp : Name
  opened : Option Opened

/-- `while ((cp = remglob (argv, proxy)) != NULL)`, with turns enough, from the `i`-th transfer. -/
def mgetLoop (c : Client) (heap : Heap) (fate : Nat → Fate) : Nat → Nat → Bool → List UInt8 → List UInt8 → List Got
  | n + 1, i, mflag, ftemp, stdin =>
    match (if mflag then remglob heap ftemp else none) with
    | none => []
    | some (cp, ftemp) =>
      if cp = [] then mgetLoop c heap fate n i false ftemp stdin
      else
        let r := confirm c.interactive stdin
        if mflag && r.1 then
          ⟨cp, cp, recvrequest c.runique (fate i) cp⟩ :: mgetLoop c heap fate n (i + 1) mflag ftemp r.2
        else mgetLoop c heap fate n i mflag ftemp r.2
  | 0, _, _, _, _ => []

/-- An NLST command: the files there are when recvrequest looks, and what comes over the connection. -/
structure Nlst where
  stat : Name → Stat
  din : List UInt8

def PATH_TMP : Name := [SLASH, 0x74, 0x6D, 0x70, SLASH]

/-- `temp`, with the six characters of mkstemp. -/
def temp (six : Name) : Name := PATH_TMP ++ six

/-- What the server lists. -/
def listed (c : Client) (replies : List Nlst) : List UInt8 :=
  replies.flatMap fun r => (Transfer.recvrequest c.crflag false .A r.din).fout

/-- The file `temp` behind the NLST commands. recvrequest writes to the name that gunique gives,
    as for any other command. -/
def nlst (c : Client) (six : Name) (replies : List Nlst) : List UInt8 :=
  replies.flatMap fun r =>
    if localName c.runique r.stat (temp six) = some (temp six) then (Transfer.recvrequest c.crflag false .A r.din).fout
    else []

def mget (c : Client) (heap : Heap) (fate : Nat → Fate) (six : Name) (replies : List Nlst) (stdin : List UInt8) : List Got :=
  mgetLoop c heap fate ((nlst c six replies).length + 2) 0 true (nlst c six replies) stdin

/-- The names that are not refused. -/
def kept (interactive : Bool) (l : List Name) (stdin : List UInt8) : List Name :=
  if interactive then ((l.zip stdin).filter fun x => !refuses x.2).map (·.1) else l

/-! ## The loop -/

variable {c : Client} {heap : Heap} {fate : Nat → Fate} {ftemp stdin : List UInt8} {n : Nat}

theorem mgetLoop_off (i : Nat) : mgetLoop c heap fate n i false ftemp stdin = [] := by
  cases n <;> rfl

theorem kept_cons (interactive : Bool) (cp : Name) (l : List Name) (stdin : List UInt8) :
    kept interactive (cp :: l) stdin =
      if (confirm interactive stdin).1 then cp :: kept interactive l (confirm interactive stdin).2
      else kept interactive l (confirm interactive stdin).2 := by
  cases interactive with
  | false => rfl
  | true =>
    rcases stdin with _ | ⟨d, stdin⟩
    · simp [kept, confirm]
    · by_cases hd : refuses d = true <;> simp [kept, confirm, hd]

/-- The names up to an empty one, but for those refused. -/
theorem mgetLoop_names (i : Nat) (hn : ftemp.length + 1 < n) :
    (mgetLoop c heap fate n i true ftemp stdin).map (·.tp) =
      kept c.interactive ((names heap (ftemp.length + 1) ftemp).takeWhile (· ≠ [])) stdin := by
  induction n generalizing i ftemp stdin with
  | zero => omega
  | succ n ih =>
    rw [mgetLoop, names, if_pos rfl]
    rcases h : remglob heap ftemp with _ | ⟨cp, rest⟩
    · simp [kept]
    · have hlen := (remglob_name h).2.2
      have hnames : names heap ftemp.length rest = names heap (rest.length + 1) rest :=
        names_enough hlen (Nat.lt_succ_self _)
      simp only [hnames]
      by_cases hcp : cp = []
      · rw [if_pos hcp, mgetLoop_off, List.takeWhile_cons_of_neg (by simpa using hcp)]
        simp [kept]
      · rw [if_neg hcp, List.takeWhile_cons_of_pos (by simpa using hcp), kept_cons]
        by_cases hyes : (confirm c.interactive stdin).1 = true
        · simp only [hyes, Bool.and_self, if_true, List.map_cons, ih (i + 1) (show rest.length + 1 < n by omega)]
        · simp only [hyes, Bool.and_false, Bool.false_eq_true, if_false, ih i (show rest.length + 1 < n by omega)]

/-- Both names of a call are the list's. -/
theorem mgetLoop_got {i : Nat} {mflag : Bool} {g : Got} (h : g ∈ mgetLoop c heap fate n i mflag ftemp stdin) :
    g.tp = g.cp ∧ g.tp ≠ [] ∧ LF ∉ g.tp ∧ NUL ∉ g.tp ∧ ∃ j, g.opened = recvrequest c.runique (fate j) g.tp := by
  induction n generalizing i mflag ftemp stdin with
  | zero => cases h
  | succ n ih =>
    cases mflag with
    | false =>
      rw [mgetLoop_off] at h
      cases h
    | true =>
      rw [mgetLoop, if_pos rfl] at h
      rcases hr : remglob heap ftemp with _ | ⟨cp, rest⟩
      · rw [hr] at h
        cases h
      · rw [hr] at h
        obtain ⟨hlf, hnul, -⟩ := remglob_name hr
        by_cases hcp : cp = []
        · simp only [if_pos hcp] at h
          exact ih h
        · simp only [if_neg hcp] at h
          split at h
          · rcases List.mem_cons.mp h with rfl | h
            · exact ⟨rfl, hcp, hlf, hnul, i, rfl⟩
            · exact ih h
          · exact ih h

/-! ## What is opened -/

/-- A byte gunique puts behind the dot: a digit, or the one behind nine. -/
def Digit (bound : Nat) (c : UInt8) : Prop := 0x30 ≤ c.toNat ∧ c.toNat ≤ bound

theorem Digit.ne_slash {bound : Nat} {c : UInt8} (h : Digit bound c) : c ≠ SLASH := by
  rintro rfl
  exact absurd h.1 (by decide)

theorem next_digit {ext : UInt8} (h : Digit 0x39 ext) : Digit 0x39 (if ext = NINE then ZERO else ext + 1) := by
  obtain ⟨hlow, hhigh⟩ := h
  split
  · exact ⟨by decide, by decide⟩
  · rename_i hne
    have hlt : ext.toNat ≠ 0x39 := fun h => hne (UInt8.toNat_inj.mp h)
    have hsucc : (ext + 1).toNat = ext.toNat + 1 := by
      rw [UInt8.toNat_add]
      exact Nat.mod_eq_of_lt (show ext.toNat + 1 < 256 by omega)
    exact ⟨by omega, by omega⟩

/-- The name that is found is the name with a dot and something behind it that is no slash. -/
theorem guniqueLoop_name {stat : Name → Stat} {name t w : Name} {ext : UInt8} (hn : n ≤ 99) (hext : Digit 0x39 ext)
    (ht : t = [] ∨ ∃ x, t = [x] ∧ Digit (148 - n) x)
    (h : guniqueLoop stat n (name ++ DOT :: t) ext = some w) :
    ∃ d, w = name ++ DOT :: d ∧ d ≠ [] ∧ SLASH ∉ d := by
  induction n generalizing t ext with
  | zero => cases h
  | succ n ih =>
    have hslash : SLASH ∉ t := by
      rcases ht with rfl | ⟨x, rfl, hx⟩
      · exact List.not_mem_nil
      · exact fun h => hx.ne_slash (List.mem_singleton.mp h).symm
    rw [guniqueLoop] at h
    split at h
    · obtain rfl := Option.some.inj h
      refine ⟨t ++ [ext], by simp, by simp, fun hmem => ?_⟩
      rcases List.mem_append.mp hmem with hmem | hmem
      · exact hslash hmem
      · exact hext.ne_slash (List.mem_singleton.mp hmem).symm
    · cases h
    · by_cases hnext : (if ext = NINE then ZERO else ext + 1) ≠ ZERO
      · rw [if_pos hnext] at h
        refine ih (by omega) (next_digit hext) (ht.imp_right ?_) h
        intro h
        obtain ⟨x, rfl, hlow, hhigh⟩ := h
        exact ⟨x, rfl, hlow, by omega⟩
      · rw [if_neg hnext] at h
        rcases ht with rfl | ⟨x, rfl, hx⟩
        · -- from one digit to two
          rw [List.getLast?_concat] at h
          simp only [if_true, List.append_assoc] at h
          exact ih (by omega) (next_digit hext) (Or.inr ⟨ONE, rfl, by decide, show 0x31 ≤ 148 - n by omega⟩) h
        · have hlast : (name ++ [DOT, x]).getLast? = some x := by simp
          have hinit : (name ++ [DOT, x]).dropLast ++ [x + 1] = name ++ DOT :: [x + 1] := by simp
          have hdot : x ≠ DOT := by
            rintro rfl
            exact absurd hx.1 (by decide)
          obtain ⟨hlow, hhigh⟩ := hx
          have hsucc : (x + 1).toNat = x.toNat + 1 := by
            rw [UInt8.toNat_add]
            exact Nat.mod_eq_of_lt (show x.toNat + 1 < 256 by omega)
          rw [hlast] at h
          simp only [if_neg hdot, hinit] at h
          exact ih (by omega) (next_digit hext) (Or.inr ⟨x + 1, rfl, by omega, by omega⟩) h

theorem gunique_name {stat : Name → Stat} {name w : Name} (h : gunique stat name = some w) :
    ∃ d, w = name ++ DOT :: d ∧ d ≠ [] ∧ SLASH ∉ d :=
  guniqueLoop_name (Nat.le_refl _) ⟨by decide, by decide⟩ (Or.inl rfl) h

/-- Either the name itself is opened, or what gunique makes of a name that is a file's. -/
theorem recvrequest_cases {runique : Bool} {f : Fate} {name : Name} {o : Opened}
    (h : recvrequest runique f name = some o) :
    (o = openLocal name ∧ ¬(name ≠ dash ∧ name.head? ≠ some BAR ∧ runique = true)) ∨
      (runique = true ∧ name.head? ≠ some BAR ∧ ∃ d, o = openLocal (name ++ DOT :: d) ∧ d ≠ [] ∧ SLASH ∉ d) := by
  rw [recvrequest] at h
  by_cases hfile : name ≠ dash ∧ name.head? ≠ some BAR ∧ runique = true
  · rw [localName, if_pos hfile] at h
    rcases hg : gunique f.stat name with _ | w
    · rw [hg] at h
      cases h
    · rw [hg] at h
      obtain ⟨d, rfl, hd, hslash⟩ := gunique_name hg
      cases hbegins : f.begins with
      | false => simp [hbegins] at h
      | true => exact Or.inr ⟨hfile.2.2, hfile.2.1, d, by simpa [hbegins] using h.symm, hd, hslash⟩
  · rw [localName, if_neg hfile] at h
    cases hbegins : f.begins with
    | false => simp [hbegins] at h
    | true => exact Or.inl ⟨by simpa [hbegins] using h.symm, hfile⟩

theorem openLocal_popen_iff (name : Name) : (∃ w, openLocal name = .popen w) ↔ name.head? = some BAR := by
  unfold openLocal
  by_cases hdash : name = dash
  · rw [if_pos hdash, hdash]
    exact ⟨fun ⟨_, h⟩ => (nomatch h), fun h => absurd h (by decide)⟩
  · by_cases hbar : name.head? = some BAR
    · rw [if_neg hdash, if_pos hbar]
      exact ⟨fun _ => hbar, fun _ => ⟨_, rfl⟩⟩
    · rw [if_neg hdash, if_neg hbar]
      exact ⟨fun ⟨_, h⟩ => (nomatch h), fun h => absurd h hbar⟩

theorem openLocal_fopen {name w : Name} (h : openLocal name = .fopen w) :
    w = name ∧ name ≠ dash ∧ name.head? ≠ some BAR := by
  unfold openLocal at h
  split at h
  · cases h
  · rename_i hdash
    split at h
    · cases h
    · rename_i hbar
      cases h
      exact ⟨rfl, hdash, hbar⟩

theorem head?_append_of_ne_nil {a b : Name} (ha : a ≠ []) : (a ++ b).head? = a.head? := by
  rcases a with _ | ⟨d, a⟩
  · exact absurd rfl ha
  · rfl

/-- A command is a name with a bar in front. -/
theorem recvrequest_popen {runique : Bool} {f : Fate} {name : Name} {o : Opened} (hname : name ≠ [])
    (h : recvrequest runique f name = some o) : (∃ w, o = .popen w) ↔ name.head? = some BAR := by
  rcases recvrequest_cases h with ⟨rfl, -⟩ | ⟨-, hbar, d, rfl, -, -⟩
  · exact openLocal_popen_iff name
  · rw [openLocal_popen_iff, head?_append_of_ne_nil hname]

/-- A file is in the directory if the name is no way out. -/
theorem recvrequest_fopen {f : Fate} {name w : Name} (hname : name ≠ []) (h : recvrequest false f name = some (.fopen w)) :
    Inside w ↔ SLASH ∉ name ∧ name ≠ dotdot := by
  rcases recvrequest_cases h with ⟨ho, -⟩ | ⟨hrun, -⟩
  · obtain ⟨rfl, -, -⟩ := openLocal_fopen ho.symm
    exact and_iff_right hname
  · cases hrun

/-! ## The list -/

/-- Without runique the list comes to the temporary file, with it to another one. -/
theorem nlst_eq (six : Name) (replies : List Nlst) : nlst c six replies = if c.runique = true then [] else listed c replies := by
  have hfile : temp six ≠ dash ∧ (temp six).head? ≠ some BAR := by
    constructor
    · intro h
      have hhead : some SLASH = dash.head? := congrArg List.head? h
      exact absurd hhead (by decide)
    · exact (by decide : some SLASH ≠ some BAR)
  split
  · rename_i hrun
    refine List.flatMap_eq_nil_iff.mpr fun r _ => if_neg fun h => ?_
    rw [localName, if_pos ⟨hfile.1, hfile.2, hrun⟩] at h
    obtain ⟨d, hd, -⟩ := gunique_name h
    exact absurd (List.self_eq_append_right.mp hd) (by simp)
  · rename_i hrun
    refine List.flatMap_congr fun r _ => if_pos ?_
    rw [localName, if_neg fun h => hrun h.2.2]

/-! ## What a server can do -/

/-- Without runique the names are the list's, up to an empty one, without those refused; for a
    list without NULs they are its lines, as far as there is memory. And each is opened for what
    it is: a bar in front makes it a command, a slash or ".." leads outside. -/
theorem mget_names (c : Client) (heap : Heap) (fate : Nat → Fate) (six : Name) (replies : List Nlst) (stdin : List UInt8) :
    (mget c heap fate six replies stdin).map (·.tp) =
        (if c.runique = true then []
        else kept c.interactive ((names heap ((listed c replies).length + 1) (listed c replies)).takeWhile (· ≠ [])) stdin) ∧
      (NUL ∉ listed c replies →
        names heap ((listed c replies).length + 1) (listed c replies) <+: lines (listed c replies) ∧
          ((∀ k, heap.room k = true) →
            names heap ((listed c replies).length + 1) (listed c replies) = lines (listed c replies))) ∧
      ∀ g ∈ mget c heap fate six replies stdin, g.tp = g.cp ∧ g.tp ≠ [] ∧ LF ∉ g.tp ∧ NUL ∉ g.tp ∧
        ∀ o, g.opened = some o →
          ((∃ w, o = .popen w) ↔ g.tp.head? = some BAR) ∧
            ∀ w, o = .fopen w → (Inside w ↔ SLASH ∉ g.tp ∧ g.tp ≠ dotdot) := by
  have hnames : (mget c heap fate six replies stdin).map (·.tp) = _ := mgetLoop_names 0 (Nat.lt_succ_self _)
  rw [nlst_eq] at hnames
  by_cases hrun : c.runique = true
  · have hnil : mget c heap fate six replies stdin = [] := by
      rw [mget, nlst_eq, if_pos hrun, mgetLoop, if_pos rfl, remglob_nil]
    rw [hnil, if_pos hrun]
    exact ⟨rfl, names_eq_lines (Nat.lt_succ_self _), List.forall_mem_nil _⟩
  · rw [if_neg hrun] at hnames ⊢
    refine ⟨hnames, names_eq_lines (Nat.lt_succ_self _), fun g hg => ?_⟩
    obtain ⟨heq, hne, hlf, hnul, j, hopened⟩ := mgetLoop_got hg
    refine ⟨heq, hne, hlf, hnul, fun o ho => ?_⟩
    rw [hopened, Bool.eq_false_iff.mpr hrun] at ho
    refine ⟨recvrequest_popen hne ho, ?_⟩
    rintro w rfl
    exact recvrequest_fopen hne ho

/-- The user is not asked, and memory never runs out. -/
def batch : Client := ⟨false, false, true⟩

def plenty : Heap := ⟨fun _ => true, fun _ => NUL⟩

def begins : Nat → Fate := fun _ => ⟨true, fun _ => .enoent⟩

/-- A server that lists one line. -/
def one (line : List UInt8) : List Nlst := [⟨fun _ => .enoent, line ++ [CR, LF]⟩]

/-- A list of the one name "x". -/
theorem mget_one_name : (mget batch plenty begins [] (one [0x78]) []).map (·.tp) = [[0x78]] :=
  (mget_names batch plenty begins [] (one [0x78]) []).1.trans (by decide)

/-- "../x" is opened outside, and of "|x" the "x" is executed. -/
theorem mget_goes_outside :
    ¬(∀ (c : Client) (heap : Heap) (fate : Nat → Fate) (six : Name) (replies : List Nlst) (stdin : List UInt8),
      ∀ g ∈ mget c heap fate six replies stdin, ∀ w, g.opened = some (.fopen w) → Inside w) ∧
    ¬(∀ (c : Client) (heap : Heap) (fate : Nat → Fate) (six : Name) (replies : List Nlst) (stdin : List UInt8),
      ∀ g ∈ mget c heap fate six replies stdin, ∀ w, g.opened ≠ some (.popen w)) := by
  refine ⟨fun h => ?_, fun h => ?_⟩
  · have hrun : mget batch plenty begins [] (one [DOT, DOT, SLASH, 0x78]) [] =
        [⟨[DOT, DOT, SLASH, 0x78], [DOT, DOT, SLASH, 0x78], some (.fopen [DOT, DOT, SLASH, 0x78])⟩] := by rfl
    have hinside := h batch plenty begins [] (one [DOT, DOT, SLASH, 0x78]) [] _
      (by rw [hrun]; exact List.mem_singleton.mpr rfl) _ rfl
    exact absurd hinside.2.1 (by decide)
  · have hrun : mget batch plenty begins [] (one [BAR, 0x78]) [] = [⟨[BAR, 0x78], [BAR, 0x78], some (.popen [0x78])⟩] := by rfl
    exact h batch plenty begins [] (one [BAR, 0x78]) [] _ (by rw [hrun]; exact List.mem_singleton.mpr rfl) _ rfl

end Netutils.Ftp.Mget
