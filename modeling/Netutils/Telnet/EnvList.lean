/-
  Netutils.Telnet.EnvList — the variables of the client and its ENVIRON command (telnet/commands.c),
  in a doubly linked list with the newest variable in front.

  The list keeps a value and a mark for each name (`Vars`), as the commands say, whatever is
  defined, undefined and defined again (`run_represents`), and no command looks at a variable that has
  been freed or leaves one behind that is in the list no more (`run_safe`).
-/

import Netutils.Lib.Doubly
import Netutils.Libtelnet.Genget
import Netutils.Telnet.Environ

namespace Netutils.Telnet

open Netutils.Lib.Abbrev (Found)
open Netutils.Lib.Cells
open Netutils.Lib.Doubly
open Netutils.Libtelnet

/-! ## The list -/

/-- struct env_lst, without its links. -/
structure EnvCell extends EnvLst where
  welldefined : Bool

namespace EnvList

def named (var : CString) (ep : EnvCell) : Bool := ep.var = var

def newCell (var value : CString) : EnvCell := ⟨⟨var, value, true⟩, optWelldefined var⟩

/-- env_define, and the cell that it returns. -/
def envDefine (var value : CString) (h : Heap EnvCell) : Nat × Heap EnvCell :=
  match h.find (named var) with
  | (some ep, h) => (ep, h.update ep fun _ => newCell var value)
  | (none, h) => (h.cells.length, h.push (newCell var value))

def envUndefine (var : CString) (h : Heap EnvCell) : Heap EnvCell :=
  match h.find (named var) with
  | (some ep, h) => h.unlink ep
  | (none, h) => h

/-- `ep->export = b` -/
def marked (b : Bool) (ep : EnvCell) : EnvCell := { ep with export_ := b }

/-- env_export and env_unexport. -/
def setExport (b : Bool) (var : CString) (h : Heap EnvCell) : Heap EnvCell :=
  match h.find (named var) with
  | (some ep, h) => h.update ep (marked b)
  | (none, h) => h

def envExport : CString → Heap EnvCell → Heap EnvCell := setExport true

def envUnexport : CString → Heap EnvCell → Heap EnvCell := setExport false

/-- What a walk along the list meets. -/
def envVariables (h : Heap EnvCell) : List EnvLst := h.values.map EnvCell.toEnvLst

/-- The variables that env_default (0, welldefined) returns one by one behind env_default (1, 0). -/
def envDefaults (h : Heap EnvCell) (welldefined : Bool) : List CString :=
  (h.values.filter fun ep => ep.export_ && ep.welldefined == welldefined).map fun ep => ep.var

/-! ## The command -/

inductive Handler where
  | define
  | undefine
  | export_
  | unexport
  /-- These leave the list alone. -/
  | send
  | list
  | help

/-- struct envlist -/
structure Envlist where
  name : List UInt8
  handler : Handler
  narg : Nat

/-- EnvList -/
def commands : List Envlist :=
  [⟨Libc.text "define", .define, 2⟩, ⟨Libc.text "undefine", .undefine, 1⟩, ⟨Libc.text "export", .export_, 1⟩,
    ⟨Libc.text "unexport", .unexport, 1⟩, ⟨Libc.text "send", .send, 1⟩, ⟨Libc.text "list", .list, 0⟩, ⟨Libc.text "help", .help, 0⟩,
    ⟨Libc.text "?", .help, 0⟩]

def getenvcmd (name : CString) : Found Envlist := Genget.genget Envlist.name name.1 commands

/-- `(*c->handler) (argv[2], argv[3])` -/
def handle (c : Envlist) (args : List CString) (h : Heap EnvCell) : Heap EnvCell :=
  match c.handler, args with
  | .define, [var, value] => (envDefine var value h).2
  | .undefine, [var] => envUndefine var h
  | .export_, [var] => envExport var h
  | .unexport, [var] => envUnexport var h
  | _, _ => h

def envCmd (h : Heap EnvCell) : List CString → Heap EnvCell
  | _ :: name :: args =>
    match getenvcmd name with
    | .entry c => if c.narg + 2 = args.length + 2 then handle c args h else h
    | _ => h
  | _ => h

/-! ## The start -/

def EQUALS : UInt8 := 0x3d
def COLON : UInt8 := 0x3a

def DISPLAY : CString := cstr (Libc.text "DISPLAY")
def LOGNAME : CString := cstr (Libc.text "LOGNAME")
def PRINTER : CString := cstr (Libc.text "PRINTER")
def USER : CString := cstr (Libc.text "USER")

/-- A string of the environment. -/
def enterOne (h : Heap EnvCell) (epp : CString) : Heap EnvCell :=
  if EQUALS ∈ epp.1 then
    let r := envDefine (cstr (epp.1.takeWhile (· ≠ EQUALS))) (cstr (epp.1.dropWhile (· ≠ EQUALS)).tail) h
    r.2.update r.1 (marked false)
  else h

/-- Whether a display is this host's, without its name. -/
def isLocal (value : CString) : Bool := value.1.head? = some COLON || value.1.take 5 = Libc.text "unix:"

/-- `%s%s` of hostname and what stands from the colon on. -/
def withHost (hostname value : CString) : CString := cstr (hostname.1 ++ value.1.dropWhile (· ≠ COLON))

/-- A display of this host gets its name. -/
def nameDisplay (hostname : CString) (h : Heap EnvCell) : Heap EnvCell :=
  match h.find (named DISPLAY) with
  | (some ep, h) => h.update ep fun c => if isLocal c.value then { c with value := withHost hostname c.value } else c
  | (none, h) => h

/-- `ep->value` of the variable at `ep`. -/
def valueAt (h : Heap EnvCell) (ep : Nat) : CString := ((h.cells[ep]?).map fun c => c.val.value).getD (cstr [])

/-- USER is what LOGNAME is, if it is not there. -/
def nameUser (h : Heap EnvCell) : Heap EnvCell :=
  match h.find (named USER) with
  | (some _, h) => h
  | (none, h) =>
    match h.find (named LOGNAME) with
    | (some ep, h) => envUnexport USER (envDefine USER (valueAt h ep) h).2
    | (none, h) => h

def envInit (environ : List CString) (hostname : CString) : Heap EnvCell :=
  let h := environ.foldl enterOne Heap.empty
  envExport PRINTER (envExport DISPLAY (nameUser (nameDisplay hostname h)))

/-- The client's start and the ENVIRON commands of a session. -/
def run (environ : List CString) (hostname : CString) (cmds : List (List CString)) : Heap EnvCell :=
  cmds.foldl envCmd (envInit environ hostname)

end EnvList

/-! ## What it is for -/

/-- The value of each variable there is, and whether it is marked. -/
abbrev Vars := CString → Option (CString × Bool)

namespace Vars

def define (var value : CString) (m : Vars) : Vars := Function.update m var (some (value, true))

def undefine (var : CString) (m : Vars) : Vars := Function.update m var none

def setExport (b : Bool) (var : CString) (m : Vars) : Vars := Function.update m var ((m var).map fun x => (x.1, b))

open EnvList in
/-- What is asked for by a name or an abbreviation; by the empty name, the first. -/
def asked (name : CString) : Found Envlist :=
  if name.1 = [] then .entry ⟨Libc.text "define", .define, 2⟩
  else
    Netutils.Lib.Abbrev.lookup (fun c => Genget.same name.1 c.name) (fun c => Genget.begins name.1 c.name)
      EnvList.commands

def handle (c : EnvList.Envlist) (args : List CString) (m : Vars) : Vars :=
  match c.handler, args with
  | .define, [var, value] => m.define var value
  | .undefine, [var] => m.undefine var
  | .export_, [var] => m.setExport true var
  | .unexport, [var] => m.setExport false var
  | _, _ => m

def cmd (m : Vars) : List CString → Vars
  | _ :: name :: args =>
    match asked name with
    | .entry c => if c.narg = args.length then m.handle c args else m
    | _ => m
  | _ => m

open EnvList

def enterOne (m : Vars) (epp : CString) : Vars :=
  if EQUALS ∈ epp.1 then
    let var := cstr (epp.1.takeWhile (· ≠ EQUALS))
    (m.define var (cstr (epp.1.dropWhile (· ≠ EQUALS)).tail)).setExport false var
  else m

def nameDisplay (hostname : CString) (m : Vars) : Vars :=
  Function.update m DISPLAY ((m DISPLAY).map fun x => (if isLocal x.1 then withHost hostname x.1 else x.1, x.2))

def nameUser (m : Vars) : Vars :=
  match m USER, m LOGNAME with
  | none, some x => (m.define USER x.1).setExport false USER
  | _, _ => m

def init (environ : List CString) (hostname : CString) : Vars :=
  (((environ.foldl enterOne fun _ => none).nameDisplay hostname).nameUser.setExport true DISPLAY).setExport true PRINTER

def run (environ : List CString) (hostname : CString) (cmds : List (List CString)) : Vars :=
  cmds.foldl cmd (init environ hostname)

end Vars

/-! ## The list keeps to it -/

namespace EnvList

def view (ep : EnvCell) : CString × Bool := (ep.value, ep.export_)

/-- These variables in the list. -/
structure Holds (l : List EnvCell) (m : Vars) : Prop where
  nodup : (l.map fun ep => ep.var).Nodup
  welldefined : ∀ ep ∈ l, ep.welldefined = optWelldefined ep.var
  vars : ∀ var, m var = (l.find? (named var)).map view

/-- With the cell at `a`. -/
def RepresentsAt (h : Heap EnvCell) (m : Vars) (a : Nat) (c : EnvCell) : Prop :=
  ∃ l r, Lists h (l ++ (a, c) :: r) ∧ Holds ((l ++ (a, c) :: r).map Prod.snd) m

def Represents (h : Heap EnvCell) (m : Vars) : Prop := ∃ l, Lists h l ∧ Holds (l.map Prod.snd) m

variable {h : Heap EnvCell} {m : Vars} {a : Nat} {c c' : EnvCell} {l r : List EnvCell} {var value : CString}

theorem RepresentsAt.represents (hr : RepresentsAt h m a c) : Represents h m := by
  obtain ⟨l, r, hl, hm⟩ := hr
  exact ⟨_, hl, hm⟩

theorem named_iff : named var c = true ↔ c.var = var := decide_eq_true_iff

/-- No other variable of the list has the name. -/
theorem Holds.apart (hm : Holds (l ++ c :: r) m) {x : EnvCell} (hx : x ∈ l ++ r) : named c.var x = false := by
  have hnodup := hm.nodup
  rw [List.map_append, List.map_cons, List.nodup_middle, ← List.map_append] at hnodup
  rw [named, decide_eq_false_iff_not]
  intro heq
  exact (List.nodup_cons.mp hnodup).1 (List.mem_map.mpr ⟨x, hx, heq⟩)

theorem find?_middle (hl : ∀ x ∈ l, named var x = false) :
    (l ++ c :: r).find? (named var) = if c.var = var then some c else r.find? (named var) := by
  have hnone : l.find? (named var) = none := List.find?_eq_none.mpr fun x hx => by rw [hl x hx]; exact Bool.false_ne_true
  rw [List.find?_append, hnone, Option.none_or, List.find?_cons]
  by_cases hc : c.var = var
  · rw [if_pos hc, named_iff.mpr hc]
  · rw [if_neg hc, Bool.eq_false_iff.mpr fun h => hc (named_iff.mp h)]

theorem find?_other (hc : c.var ≠ var) : (l ++ c :: r).find? (named var) = (l ++ r).find? (named var) := by
  rw [List.find?_append, List.find?_append, List.find?_cons_of_neg fun h => hc (named_iff.mp h)]

theorem Holds.mem (hm : Holds l m) (hc : c ∈ l) : m c.var = some (view c) := by
  obtain ⟨l₁, l₂, rfl⟩ := List.append_of_mem hc
  rw [hm.vars, find?_middle fun x hx => hm.apart (List.mem_append_left l₂ hx), if_pos rfl]
  rfl

/-- A cell gets another value or another mark. -/
theorem Holds.replace (hm : Holds (l ++ c :: r) m) (hvar : c'.var = c.var) (hwell : c'.welldefined = c.welldefined) :
    Holds (l ++ c' :: r) (Function.update m c.var (some (view c'))) := by
  have hmem : c ∈ l ++ c :: r := List.mem_append_right l List.mem_cons_self
  refine ⟨?_, ?_, ?_⟩
  · have hnodup := hm.nodup
    rw [List.map_append, List.map_cons] at hnodup ⊢
    rwa [hvar]
  · intro x hx
    rcases List.mem_append.mp hx with hx | hx
    · exact hm.welldefined x (List.mem_append_left _ hx)
    · rcases List.mem_cons.mp hx with rfl | hx
      · rw [hwell, hvar]
        exact hm.welldefined c hmem
      · exact hm.welldefined x (List.mem_append_right l (List.mem_cons_of_mem c hx))
  · intro var
    by_cases hv : var = c.var
    · rw [hv, Function.update_self, find?_middle fun x hx => hm.apart (List.mem_append_left r hx), if_pos hvar]
      rfl
    · rw [Function.update_of_ne hv, hm.vars var, find?_other (Ne.symm hv), find?_other (hvar ▸ Ne.symm hv)]

theorem Holds.remove (hm : Holds (l ++ c :: r) m) : Holds (l ++ r) (Function.update m c.var none) := by
  refine ⟨?_, ?_, ?_⟩
  · have hnodup := hm.nodup
    rw [List.map_append, List.map_cons, List.nodup_middle, ← List.map_append] at hnodup
    exact (List.nodup_cons.mp hnodup).2
  · intro x hx
    apply hm.welldefined x
    rcases List.mem_append.mp hx with hx | hx
    · exact List.mem_append_left _ hx
    · exact List.mem_append_right l (List.mem_cons_of_mem c hx)
  · intro var
    by_cases hv : var = c.var
    · have hnone : (l ++ r).find? (named c.var) = none :=
        List.find?_eq_none.mpr fun x hx => by rw [hm.apart hx]; exact Bool.false_ne_true
      rw [hv, Function.update_self, hnone]
      rfl
    · rw [Function.update_of_ne hv, hm.vars var, find?_other (Ne.symm hv)]

/-- A variable that there has not been. -/
theorem Holds.cons (hm : Holds l m) (hnone : m c.var = none) (hwell : c.welldefined = optWelldefined c.var) :
    Holds (c :: l) (Function.update m c.var (some (view c))) := by
  have hapart : l.find? (named c.var) = none := Option.map_eq_none_iff.mp ((hm.vars c.var).symm.trans hnone)
  refine ⟨?_, ?_, ?_⟩
  · rw [List.map_cons, List.nodup_cons]
    refine ⟨?_, hm.nodup⟩
    intro hmem
    obtain ⟨x, hx, heq⟩ := List.mem_map.mp hmem
    exact List.find?_eq_none.mp hapart x hx (named_iff.mpr heq)
  · intro x hx
    rcases List.mem_cons.mp hx with rfl | hx
    · exact hwell
    · exact hm.welldefined x hx
  · intro var
    by_cases hv : var = c.var
    · rw [hv, Function.update_self, List.find?_cons_of_pos (named_iff.mpr rfl)]
      rfl
    · rw [Function.update_of_ne hv, hm.vars var, List.find?_cons_of_neg fun h => hv (named_iff.mp h).symm]

/-! ## Each function -/

theorem RepresentsAt.update (hr : RepresentsAt h m a c) {f : EnvCell → EnvCell} (hvar : (f c).var = c.var)
    (hwell : (f c).welldefined = c.welldefined) :
    RepresentsAt (h.update a f) (Function.update m c.var (some (view (f c)))) a (f c) := by
  obtain ⟨l, r, hl, hm⟩ := hr
  refine ⟨l, r, lists_update hl f, ?_⟩
  rw [List.map_append, List.map_cons] at hm ⊢
  exact hm.replace hvar hwell

/-- What env_find finds. -/
theorem Represents.find (hr : Represents h m) (var : CString) :
    h.find (named var) = (none, h) ∧ m var = none ∨
      ∃ a c, h.find (named var) = (some a, h) ∧ c.var = var ∧ m var = some (view c) ∧ RepresentsAt h m a c := by
  obtain ⟨l, hl, hm⟩ := hr
  have hfind := find_lists hl (named var)
  have hvars := hm.vars var
  rw [List.find?_map] at hvars
  cases hx : l.find? fun x => named var x.2 with
  | none =>
    have hx' : l.find? (named var ∘ Prod.snd) = none := hx
    rw [hx] at hfind
    rw [hx'] at hvars
    exact Or.inl ⟨hfind, hvars⟩
  | some x =>
    have hx' : l.find? (named var ∘ Prod.snd) = some x := hx
    rw [hx] at hfind
    rw [hx'] at hvars
    obtain ⟨l₁, l₂, rfl⟩ := List.append_of_mem (List.mem_of_find?_eq_some hx)
    have hnamed := List.find?_some hx
    exact Or.inr ⟨x.1, x.2, hfind, named_iff.mp hnamed, hvars, l₁, l₂, hl, hm⟩

theorem represents_empty : Represents Heap.empty fun _ => none :=
  ⟨[], lists_empty, List.nodup_nil, fun _ hx => absurd hx List.not_mem_nil, fun _ => rfl⟩

theorem represents_define (hr : Represents h m) (var value : CString) :
    RepresentsAt (envDefine var value h).2 (m.define var value) (envDefine var value h).1 (newCell var value) := by
  rw [envDefine]
  rcases hr.find var with ⟨hfind, hnone⟩ | ⟨a, c, hfind, rfl, -, hat⟩
  · rw [hfind]
    obtain ⟨l, hl, hm⟩ := hr
    refine ⟨[], l, lists_push hl _, ?_⟩
    exact hm.cons (c := newCell var value) hnone rfl
  · rw [hfind]
    have hwell : c.welldefined = optWelldefined c.var := by
      obtain ⟨l, r, -, hm⟩ := hat
      exact hm.welldefined c (by simp)
    exact hat.update (f := fun _ => newCell c.var value) rfl hwell.symm

theorem represents_undefine (hr : Represents h m) (var : CString) : Represents (envUndefine var h) (m.undefine var) := by
  rw [envUndefine]
  rcases hr.find var with ⟨hfind, hnone⟩ | ⟨a, c, hfind, rfl, -, l, r, hl, hm⟩
  · rw [hfind, Vars.undefine, ← hnone, Function.update_eq_self]
    exact hr
  · rw [hfind]
    refine ⟨l ++ r, lists_unlink hl, ?_⟩
    rw [List.map_append, List.map_cons] at hm
    rw [List.map_append]
    exact hm.remove

/-- A function that changes the variable of a name, if there is one. -/
theorem represents_change (hr : Represents h m) (var : CString) {f : EnvCell → EnvCell} {g : CString × Bool → CString × Bool}
    (hf : ∀ c, (f c).var = c.var ∧ (f c).welldefined = c.welldefined ∧ view (f c) = g (view c)) :
    Represents (match h.find (named var) with | (some ep, h) => h.update ep f | (none, h) => h)
      (Function.update m var ((m var).map g)) := by
  rcases hr.find var with ⟨hfind, hnone⟩ | ⟨a, c, hfind, rfl, hsome, hat⟩
  · rw [hfind, hnone, Option.map_none, ← hnone, Function.update_eq_self]
    exact hr
  · obtain ⟨hvar, hwell, hview⟩ := hf c
    rw [hfind, hsome, Option.map_some, ← hview]
    exact (hat.update hvar hwell).represents

theorem represents_setExport (hr : Represents h m) (b : Bool) (var : CString) :
    Represents (setExport b var h) (m.setExport b var) :=
  represents_change hr var fun _ => ⟨rfl, rfl, rfl⟩

theorem ordered_commands : Genget.Ordered Envlist.name commands := by decide

theorem getenvcmd_eq (name : CString) : getenvcmd name = Vars.asked name := by
  rw [getenvcmd, Vars.asked]
  split
  · rename_i hname
    rw [hname, Genget.genget_empty]
    rfl
  · rename_i hname
    exact Genget.genget_eq_lookup ordered_commands hname

theorem represents_handle (hr : Represents h m) (c : Envlist) (args : List CString) :
    Represents (handle c args h) (m.handle c args) := by
  unfold handle Vars.handle
  split
  · exact (represents_define hr _ _).represents
  · exact represents_undefine hr _
  · exact represents_setExport hr true _
  · exact represents_setExport hr false _
  · exact hr

theorem represents_cmd (hr : Represents h m) (argv : List CString) : Represents (envCmd h argv) (m.cmd argv) := by
  unfold envCmd Vars.cmd
  split
  · rename_i name args
    rw [getenvcmd_eq]
    cases Vars.asked name with
    | none => exact hr
    | ambiguous => exact hr
    | entry c =>
      simp only [Nat.add_right_cancel_iff]
      split
      · exact represents_handle hr c args
      · exact hr
  · exact hr

/-! ## The start, and a session -/

theorem represents_enterOne (hr : Represents h m) (epp : CString) : Represents (enterOne h epp) (m.enterOne epp) := by
  unfold enterOne Vars.enterOne
  split
  · obtain ⟨var, hvar⟩ : ∃ var, var = cstr (epp.1.takeWhile (· ≠ EQUALS)) := ⟨_, rfl⟩
    obtain ⟨value, hvalue⟩ : ∃ value, value = cstr (epp.1.dropWhile (· ≠ EQUALS)).tail := ⟨_, rfl⟩
    simp only [← hvar, ← hvalue]
    have hat := (represents_define hr var value).update (f := marked false) rfl rfl
    have hmark : (m.define var value) var = some (value, true) := Function.update_self var _ m
    rw [Vars.setExport, hmark]
    exact hat.represents
  · exact hr

theorem represents_nameDisplay (hr : Represents h m) (hostname : CString) :
    Represents (nameDisplay hostname h) (m.nameDisplay hostname) := by
  refine represents_change hr DISPLAY fun c => ?_
  by_cases hc : isLocal c.value = true
  · simp [view, hc]
  · simp [view, hc]

theorem valueAt_eq (hr : RepresentsAt h m a c) : valueAt h a = c.value := by
  obtain ⟨l, r, hl, -⟩ := hr
  obtain ⟨q, hs⟩ := hl.segment
  obtain ⟨n, b, hcell⟩ := hs.mem_cell (x := (a, c)) (by simp)
  rw [valueAt, hcell]
  rfl

theorem represents_nameUser (hr : Represents h m) : Represents (nameUser h) m.nameUser := by
  unfold nameUser Vars.nameUser
  rcases hr.find USER with ⟨huser, hnone⟩ | ⟨a, c, huser, -, hsome, -⟩
  · simp only [huser, hnone]
    rcases hr.find LOGNAME with ⟨hlog, hnone'⟩ | ⟨a, c, hlog, -, hsome, hat⟩
    · rw [hlog, hnone']
      exact hr
    · rw [hlog, hsome]
      simp only [valueAt_eq hat]
      exact represents_setExport (represents_define hr USER c.value).represents false USER
  · rw [huser, hsome]
    exact hr

theorem represents_init (environ : List CString) (hostname : CString) :
    Represents (envInit environ hostname) (Vars.init environ hostname) := by
  have hstrings : ∀ {h m}, Represents h m → Represents (environ.foldl enterOne h) (environ.foldl Vars.enterOne m) := by
    induction environ with
    | nil => exact fun hr => hr
    | cons epp environ ih => exact fun hr => ih (represents_enterOne hr epp)
  have huser := represents_nameUser (represents_nameDisplay (hstrings represents_empty) hostname)
  exact represents_setExport (represents_setExport huser true DISPLAY) true PRINTER

/-- After any commands the list has the values and the marks that they say. -/
theorem run_represents (environ : List CString) (hostname : CString) (cmds : List (List CString)) :
    Represents (run environ hostname cmds) (Vars.run environ hostname cmds) := by
  rw [run, Vars.run]
  have hcmds : ∀ {h m}, Represents h m → Represents (cmds.foldl envCmd h) (cmds.foldl Vars.cmd m) := by
    induction cmds with
    | nil => exact fun hr => hr
    | cons argv cmds ih => exact fun hr => ih (represents_cmd hr argv)
  exact hcmds (represents_init environ hostname)

/-- No command looks at a variable that has been freed, and what is not freed is a variable with its
    value and its mark. -/
theorem run_safe (environ : List CString) (hostname : CString) (cmds : List (List CString)) :
    (run environ hostname cmds).dangled = false ∧
      ∀ (a : Nat) (c : Lib.Doubly.Cell EnvCell), (run environ hostname cmds).cells[a]? = some c → c.live = true →
        Vars.run environ hostname cmds c.val.var = some (view c.val) := by
  obtain ⟨l, hl, hm⟩ := run_represents environ hostname cmds
  refine ⟨hl.safe, fun a c hcell hlive => ?_⟩
  have hmem : a ∈ l.map Prod.fst := by
    refine hl.owned a ?_
    rw [Heap.liveAt, hcell]
    exact hlive
  obtain ⟨x, hx, rfl⟩ := List.mem_map.mp hmem
  obtain ⟨q, hs⟩ := hl.segment
  obtain ⟨n, b, hx'⟩ := hs.mem_cell hx
  obtain rfl := Option.some.inj (hcell.symm.trans hx')
  exact hm.mem (List.mem_map_of_mem hx)

/-! ## What the answers to the server find in it -/

theorem Represents.envVariables (hr : Represents h m) :
    ∃ l, envVariables h = l.map EnvCell.toEnvLst ∧ h.values = l ∧ Holds l m := by
  obtain ⟨l, hl, hm⟩ := hr
  exact ⟨l.map Prod.snd, by rw [EnvList.envVariables, values_lists hl], values_lists hl, hm⟩

theorem Represents.getvalue (hr : Represents h m) (var : CString) :
    envGetvalue (EnvList.envVariables h) var = (m var).map Prod.fst := by
  obtain ⟨l, hl, -, hm⟩ := hr.envVariables
  rw [hl, envGetvalue, envFind, List.find?_map, hm.vars var, Option.map_map, Option.map_map]
  rfl

/-- env_default returns each marked variable once. -/
theorem Represents.defaults (hr : Represents h m) (welldefined : Bool) :
    envDefaults h welldefined = envDefault (EnvList.envVariables h) welldefined ∧ (envDefaults h welldefined).Nodup ∧
      ∀ var, var ∈ envDefaults h welldefined ↔ optWelldefined var = welldefined ∧ ∃ value, m var = some (value, true) := by
  obtain ⟨l, hl, hvalues, hm⟩ := hr.envVariables
  rw [envDefaults, hvalues, hl, envDefault, List.filter_map, List.map_map]
  have hfilter : (l.filter fun ep => ep.export_ && ep.welldefined == welldefined) =
      l.filter fun ep => ep.export_ && optWelldefined ep.var == welldefined :=
    List.filter_congr fun ep hep => by rw [hm.welldefined ep hep]
  refine ⟨?_, ?_, ?_⟩
  · rw [hfilter]
    rfl
  · exact (List.filter_sublist.map _).nodup hm.nodup
  · intro var
    rw [hfilter, List.mem_map]
    constructor
    · rintro ⟨ep, hep, rfl⟩
      obtain ⟨hmem, hboth⟩ := List.mem_filter.mp hep
      obtain ⟨hexport, hwell⟩ := (Bool.and_eq_true _ _).mp hboth
      refine ⟨by simpa using hwell, ep.value, ?_⟩
      rw [hm.mem hmem]
      exact congrArg some (Prod.ext rfl hexport)
    · rintro ⟨hwell, value, hsome⟩
      rw [hm.vars, Option.map_eq_some_iff] at hsome
      obtain ⟨ep, hfind, hview⟩ := hsome
      have hvar : ep.var = var := named_iff.mp (List.find?_some hfind)
      have hexport : ep.export_ = true := congrArg Prod.snd hview
      refine ⟨ep, List.mem_filter.mpr ⟨List.mem_of_find?_eq_some hfind, ?_⟩, hvar⟩
      rw [hvar, hexport, hwell]
      simp

end EnvList

end Netutils.Telnet
