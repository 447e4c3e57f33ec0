/-
  Netutils.Session.EnvCommands — the variables that the user of telnet has defined and exported, set at
  the server (the ENVIRON command of telnet/commands.c, env_opt of telnet/telnet.c, suboption of
  telnetd/state.c).

  When the server asks for everything, it sets each variable that is marked for export at that
  time, once, to its last value, and nothing else (`environ_told`).
-/

import Netutils.Session.Environ
import Netutils.Telnet.EnvList

namespace Netutils.Session

open Netutils.Arpa
open Netutils.Lib.Cells
open Netutils.Lib.Lookahead
open Netutils.Libc (text)
open Netutils.Telnet
open Netutils.Telnetd (EnvCall environCalls withEnviron Cut)
open Netutils.Telnet.EnvList (envVariables envDefaults)
open Netutils.Wire

/-! ## The answer -/

variable {alloc : Nat → Bool} {env : List EnvLst}

/-- What env_opt_end sends where netoring has the room, if no byte of it has been stored outside of
    the buffer. -/
def answered (r : Reply) : Option (List UInt8) := if r.inside = true ∧ r.block.isSome = true then some r.bytes else none

theorem expandAll_named {ds : List CString} (hds : ∀ d ∈ ds, d.1 ≠ []) (depth : Nat) :
    expandAll (expand env depth) ds = (ds, true) := by
  induction ds with
  | nil => rfl
  | cons d ds ih =>
    have hd : expand env depth d = ([d], true) := by
      cases depth with
      | zero => rw [expand, if_neg (hds d List.mem_cons_self)]
      | succ depth => rw [expand, if_neg (hds d List.mem_cons_self)]
    rw [expandAll, hd, ih fun e he => hds e (List.mem_cons_of_mem d he)]
    rfl

/-- No name stands for the variables that are marked. -/
theorem envOpt_all {depth : Nat} {past : UInt8} (hnames : ∀ d ∈ envDefault env false ++ envDefault env true, d.1 ≠ []) :
    envOpt alloc env (depth + 1) [] past =
      envOptEnd true (addVars alloc env (envOptStart alloc) (envDefault env false ++ envDefault env true)) := by
  have hexpand : expandAll (expand env (depth + 1)) [cstr []] = (envDefault env false ++ envDefault env true, true) := by
    have hempty : (cstr []).1 = ([] : List UInt8) := rfl
    have hall : expand env (depth + 1) (cstr []) = (envDefault env false ++ envDefault env true, true) := by
      rw [expand, if_pos hempty]
      exact expandAll_named hnames depth
    rw [expandAll, hall]
    simp [expandAll]
  obtain ⟨hadd, hreturns⟩ := addAll_adds alloc env (envOptAdd_adds alloc env (depth + 1)) (envOptStart alloc) [cstr []]
  rw [hexpand] at hadd hreturns
  unfold envOpt
  simp only [if_true]
  rw [if_pos (hreturns.mpr (Or.inl rfl)), hadd]

theorem addVar_written {r : Reply} {size : Nat} (hsize : r.block = some size) {d : CString} {vp : Option CString}
    (hblock : (addVar alloc r d vp).block ≠ none) : (addVar alloc r d vp).bytes = r.bytes ++ field d vp := by
  unfold addVar at hblock ⊢
  simp only [hsize] at hblock ⊢
  split at hblock
  · rename_i hgrow
    rw [if_pos hgrow]
    split at hblock
    · rename_i halloc
      rw [if_pos halloc]
      exact (puts_spec _ _).2.1
    · exact absurd rfl hblock
  · rename_i hgrow
    rw [if_neg hgrow]
    exact (puts_spec _ _).2.1

theorem addVars_written {r : Reply} {ds : List CString} (hblock : (addVars alloc env r ds).block ≠ none) :
    (addVars alloc env r ds).bytes = r.bytes ++ doubled ((ds.map fun d => (d, envGetvalue env d)).flatMap plainField) := by
  induction ds generalizing r with
  | nil => exact (List.append_nil _).symm
  | cons d ds ih =>
    have hstep : addVars alloc env r (d :: ds) = addVars alloc env (addVar alloc r d (envGetvalue env d)) ds := rfl
    obtain ⟨size, hsize⟩ : ∃ size, r.block = some size := by
      cases hb : r.block with
      | none => exact absurd ((addVars_none alloc env hb _).symm ▸ hb) hblock
      | some size => exact ⟨size, rfl⟩
    rw [hstep] at hblock ⊢
    have hnext : (addVar alloc r d (envGetvalue env d)).block ≠ none := fun hn =>
      hblock ((addVars_none alloc env hn ds).symm ▸ hn)
    have hfield : field d (envGetvalue env d) = doubled (plainField (d, envGetvalue env d)) :=
      field_eq (d, envGetvalue env d)
    rw [ih hblock, addVar_written hsize hnext, hfield, List.map_cons, List.flatMap_cons, doubled_append, List.append_assoc]

theorem envOptStart_written {ds : List CString} (hblock : (addVars alloc env (envOptStart alloc) ds).block ≠ none) :
    (envOptStart alloc).bytes = [IAC, SB, TELOPT_NEW_ENVIRON, TELQUAL_IS] := by
  cases halloc : alloc OPT_REPLY_SIZE with
  | true =>
    rw [envOptStart, halloc]
    rfl
  | false =>
    have hnone : (envOptStart alloc).block = none := by
      rw [envOptStart, halloc]
      rfl
    exact absurd ((addVars_none alloc env hnone ds).symm ▸ hnone) hblock

/-- What env_opt answers where no name is given, and no variable of the list has an empty one. -/
theorem answered_all {depth : Nat} {past : UInt8} {stream : List UInt8}
    (hnames : ∀ d ∈ envDefault env false ++ envDefault env true, d.1 ≠ [])
    (hsent : answered (envOpt alloc env (depth + 1) [] past) = some stream) :
    stream = reply ((envDefault env false ++ envDefault env true).map fun d => (d, envGetvalue env d)) := by
  rw [envOpt_all hnames, answered] at hsent
  obtain ⟨ds, hds⟩ : ∃ ds, ds = envDefault env false ++ envDefault env true := ⟨_, rfl⟩
  rw [← hds] at hsent ⊢
  have hend : envOptEnd true (addVars alloc env (envOptStart alloc) ds) =
      (addVars alloc env (envOptStart alloc) ds).puts [IAC, SE] := if_pos (Or.inl rfl)
  rw [hend] at hsent
  split at hsent
  · rename_i hok
    have hblock : (addVars alloc env (envOptStart alloc) ds).block ≠ none := by
      rw [← (puts_spec (addVars alloc env (envOptStart alloc) ds) [IAC, SE]).1]
      exact Option.isSome_iff_ne_none.mp hok.2
    rw [← Option.some.inj hsent, (puts_spec _ _).2.1, addVars_written hblock, envOptStart_written hblock, reply_eq, content,
      doubled_cons (by decide), doubled_cons (by decide)]
    rfl
  · cases hsent

/-! ## What is set -/

variable {Env : Type} {H : Telnetd.Handlers Env}

/-- The variables that env_default goes through, with what env_getvalue says of them. -/
def exported (h : Lib.Doubly.Heap EnvCell) : List (CString × Option CString) :=
  (envDefaults h false ++ envDefaults h true).map fun d => (d, envGetvalue (envVariables h) d)

theorem exported_calls {h : Lib.Doubly.Heap EnvCell} {m : Vars} (hr : EnvList.Represents h m) :
    ((exported h).map callOf).Nodup ∧
      ∀ c, c ∈ (exported h).map callOf ↔ ∃ var value, m var = some (value, true) ∧ c = .setenv var value := by
  obtain ⟨-, hnodup, hmem⟩ := hr.defaults false
  obtain ⟨-, hnodup', hmem'⟩ := hr.defaults true
  have hcall : ∀ {d value}, m d = some (value, true) → callOf (d, envGetvalue (envVariables h) d) = .setenv d value := by
    intro d value hd
    rw [hr.getvalue, hd]
    rfl
  have hall : ∀ d, d ∈ envDefaults h false ++ envDefaults h true ↔ ∃ value, m d = some (value, true) := by
    intro d
    rw [List.mem_append, hmem, hmem']
    cases optWelldefined d with
    | false => simp
    | true => simp
  rw [exported, List.map_map]
  constructor
  · refine List.Nodup.map_on ?_ (List.nodup_append'.mpr ⟨hnodup, hnodup', ?_⟩)
    · intro d hd e he heq
      obtain ⟨value, hvalue⟩ := (hall d).mp hd
      obtain ⟨value', hvalue'⟩ := (hall e).mp he
      rw [Function.comp_apply, Function.comp_apply, hcall hvalue, hcall hvalue'] at heq
      exact (EnvCall.setenv.inj heq).1
    · intro d hd he
      exact Bool.false_ne_true (((hmem d).mp hd).1.symm.trans ((hmem' d).mp he).1)
  · intro c
    rw [List.mem_map]
    constructor
    · rintro ⟨d, hd, rfl⟩
      obtain ⟨value, hvalue⟩ := (hall d).mp hd
      exact ⟨d, value, hvalue, hcall hvalue⟩
    · rintro ⟨var, value, hvalue, rfl⟩
      exact ⟨var, (hall var).mpr ⟨value, hvalue⟩, hcall hvalue⟩

/-- Whatever the user has defined, exported and undefined: the server sets what is marked at that
    time, each variable once, and nothing else, in whatever reads the answer comes in. -/
theorem environ_told {environ : List CString} {hostname : CString} {cmds : List (List CString)} {depth : Nat} {past : UInt8}
    {stream : List UInt8} (hname : ∀ value, Vars.run environ hostname cmds (cstr []) ≠ some (value, true))
    (hsent : answered (envOpt alloc (envVariables (EnvList.run environ hostname cmds)) (depth + 1) [] past) = some stream)
    (hfit : (content (exported (EnvList.run environ hostname cmds))).length ≤ 510) {s : Rcv (Env × List EnvCall)}
    (hs : s.state = .data ∨ s.state = .cr) (hsub : s.sub.mem.length = 512) {fs : List (List UInt8 × (List Event → Bool))}
    (hcut : Cut (withEnviron H) s stream fs) :
    ∃ calls, (feed (Telnetd.telrcv (withEnviron H)) s [] fs).1.env.2 = s.env.2 ++ calls ∧
      (feed (Telnetd.telrcv (withEnviron H)) s [] fs).1.state = .data ∧ calls.Nodup ∧
      ∀ c, c ∈ calls ↔ ∃ var value, Vars.run environ hostname cmds var = some (value, true) ∧ c = .setenv var value := by
  have hr := EnvList.run_represents environ hostname cmds
  obtain ⟨h, hh⟩ : ∃ h, h = EnvList.run environ hostname cmds := ⟨_, rfl⟩
  rw [← hh] at hsent hfit hr
  obtain ⟨heq, -, hmem⟩ := hr.defaults false
  obtain ⟨heq', -, hmem'⟩ := hr.defaults true
  have hne : ∀ d ∈ envDefaults h false ++ envDefaults h true, d.1 ≠ [] := by
    intro d hd hnil
    obtain rfl : d = cstr [] := Subtype.ext hnil
    rcases List.mem_append.mp hd with hd | hd
    · obtain ⟨-, value, hvalue⟩ := (hmem _).mp hd
      exact hname value hvalue
    · obtain ⟨-, value, hvalue⟩ := (hmem' _).mp hd
      exact hname value hvalue
  have hstream : stream = reply (exported h) := by
    have hne' := hne
    rw [heq, heq'] at hne'
    rw [answered_all hne' hsent, exported, heq, heq']
  rw [hstream, reply_eq] at hcut
  have hnames : ∀ p ∈ exported h, p.1.1 ≠ [] := by
    intro p hp
    obtain ⟨d, hd, rfl⟩ := List.mem_map.mp hp
    exact hne d hd
  obtain ⟨hcalls, hstate⟩ := feed_environ _ hfit hs hsub hcut
  have hcontent : environCalls (content (exported h)) = (exported h).map callOf := environCalls_content hnames
  exact ⟨_, hcalls.trans (congrArg _ hcontent), hstate, exported_calls hr⟩

/-- A is defined, C is defined and undefined again. -/
def session : List (List CString) :=
  [[text "environ", text "def", text "A", text "b"], [text "environ", text "def", text "C", text "d"],
    [text "environ", text "undef", text "C"]].map fun argv => argv.map cstr

/-- What is told of it by a client on the host h, whose own display it is. -/
def told : List UInt8 :=
  reply [(cstr (text "A"), some (cstr (text "b"))), (EnvList.DISPLAY, some (cstr (text "h:0")))]

theorem environ_told_session :
    let s : Rcv (Unit × List EnvCall) := Telnetd.fresh ((), [])
    ∃ calls, (feed (Telnetd.telrcv (withEnviron Telnetd.editing)) s [] (told.map single)).1.env.2 = [] ++ calls ∧
      (feed (Telnetd.telrcv (withEnviron Telnetd.editing)) s [] (told.map single)).1.state = .data ∧ calls.Nodup ∧
      ∀ c, c ∈ calls ↔ ∃ var value,
        Vars.run [cstr (text "DISPLAY=:0")] (cstr (text "h")) session var = some (value, true) ∧ c = .setenv var value := by
  have hname : Vars.run [cstr (text "DISPLAY=:0")] (cstr (text "h")) session (cstr []) = none := by decide +kernel
  have hsent : answered (envOpt (fun _ => true) (envVariables (EnvList.run [cstr (text "DISPLAY=:0")] (cstr (text "h")) session))
      (0 + 1) [] 0) = some told := by decide +kernel
  exact environ_told (fun value h => by rw [hname] at h; cases h) hsent (by decide +kernel) (Or.inl rfl) List.length_replicate
    (Telnetd.cut_singles _ _ _)

end Netutils.Session
