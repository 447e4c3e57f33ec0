/-
  Netutils.Ftpd.NextCommand — RNFR and REST, and the command that comes next.

  What they leave is cleared after every `cmd`. It is not where yylex jumps out of the
  parser, so a line that is no command leaves it for the line after, and an RNFR whose
  pathname comes to nothing keeps the name of the one before. In a run without such lines
  behind an RNFR or a REST, RNTO renames only what the line before it has named, and a
  transfer starts only where the line before it has said (`next_command_only`).
-/

import Netutils.Ftpd.DataDest

namespace Netutils.Ftpd

open Netutils.Lib.Transition Netutils.Arpa

variable (anonOnly : Bool) (crypt : Str → Str → Option Str) (his : Sockaddr)

/-! ## The property -/

/-- It was the line before that said so. -/
def Event.InTurn : Event → Prop
  | .connect _ _ => True
  | .start offset before => offset ≠ 0 → before = .rest offset
  | .rename source _ before => before = .rnfr source

def Server.InTurn (s : Server) : Prop := ∀ e ∈ s.log, e.InTurn

/-- The pathname of RNFR. -/
def Command.rnfrPath : Command → Option Str
  | .rnfr path => some path
  | _ => none

/-- What RNFR and REST have left does not outlive the line: it does not jump out of the parser
    while there is such, and is no RNFR that leaves a name alone because its own is NULL. -/
def Server.Clears (q : Sequence) (w : World) (s : Server) : Prop :=
  (q.exit = .jump → s.fromname = none ∧ s.restartPoint = 0) ∧
    (q.exit = .crlf false → ∀ path ∈ (command q.tokens).rnfrPath, pathname w path s = none → s.fromname = none)

instance (q : Sequence) (w : World) (s : Server) : Decidable (s.Clears q w) := by
  unfold Server.Clears; infer_instance

def Session.Clears (a : Str × World) (s : Session) : Prop := s.server.Clears (s.lexer.line syntaxError a.1).1 a.2

instance (a : Str × World) (s : Session) : Decidable (s.Clears a) := by
  unfold Session.Clears; infer_instance

/-! ## What keeps it -/

/-- What is left is what the line before has said. -/
structure Server.Fresh (s : Server) : Prop where
  log : s.InTurn
  fromname : ∀ x ∈ s.fromname, s.before = .rnfr x ∧ s.process.cred.loggedIn = true
  restart : s.restartPoint ≠ 0 → s.before = .rest s.restartPoint

variable {anonOnly crypt his} {w : World} {s t : Server}

theorem inTurn_dataconn (h : s.InTurn) : (dataconn his w s).1.InTurn := by
  rcases log_dataconn his w s with hlog | hlog
  · intro e he
    rw [hlog] at he
    exact h e he
  · intro e he
    rw [hlog] at he
    rcases List.mem_append.mp he with he | he
    · exact h e he
    · rw [List.mem_singleton.mp he]
      trivial

/-- A transfer starts where the line before has said. -/
theorem Server.Fresh.transfer (h : s.Fresh) {l : List Event} (hl : ∀ e ∈ l, e = .start s.restartPoint s.before) :
    ({ (dataconn his w s).1 with log := (dataconn his w s).1.log ++ l } : Server).closed.InTurn := by
  intro e he
  rcases List.mem_append.mp he with he | he
  · exact inTurn_dataconn h.log e he
  · rw [hl e he]
    exact h.restart

theorem inTurn_retrieve (cmd : Bool) (h : s.Fresh) : (retrieve his cmd w s).InTurn := by
  rw [retrieve_eq]
  split
  · split
    · exact h.transfer (by cases cmd <;> simp)
    · exact inTurn_dataconn h.log
  · exact h.log

theorem inTurn_store (unique : Bool) (h : s.Fresh) : (store his unique w s).InTurn := by
  rw [store_eq]
  split
  · split
    · exact h.transfer (by simp)
    · exact inTurn_dataconn h.log
  · exact h.log

theorem inTurn_sendFileList (h : s.Fresh) : (sendFileList his w s).InTurn := by
  unfold sendFileList
  cases w.listing with
  | missing => exact h.log
  | options => exact inTurn_retrieve true h
  | empty => exact h.log
  | files =>
    simp only
    split
    · exact inTurn_dataconn h.log
    · exact inTurn_dataconn (s := s) h.log
  | aborted => exact inTurn_dataconn h.log

theorem inTurn_withPathname {path : Str} {act : Str → Server} (h : s.InTurn) (hact : ∀ name, (act name).InTurn) :
    (s.withPathname w path act).InTurn := by
  unfold Server.withPathname
  split
  · cases pathname w path s with
    | none => exact h
    | some name => exact hact name
  · exact h

theorem inTurn_withLogin (h : s.InTurn) (ht : t.InTurn) : (s.withLogin t).InTurn := by
  unfold Server.withLogin
  split
  · exact ht
  · exact h

/-- What a command does is in turn. -/
theorem inTurn_action (c : Command) (h : s.Fresh) : (action anonOnly crypt his c w s).InTurn := by
  cases c with
  | user name => exact h.log
  | pass passwd => exact h.log
  | quit => exact h.log
  | other k => exact h.log
  | rest n => exact h.log
  | port p => simp only [action, port]; split <;> exact h.log
  | pasv => refine inTurn_withLogin h.log ?_; unfold passive; split <;> exact h.log
  | retr path => exact inTurn_withPathname h.log fun _ => inTurn_retrieve false h
  | stor path => exact inTurn_withPathname h.log fun _ => inTurn_store false h
  | appe path => exact inTurn_withPathname h.log fun _ => inTurn_store false h
  | stou path => exact inTurn_withPathname h.log fun _ => inTurn_store true h
  | nlst path => exact inTurn_withLogin h.log (inTurn_sendFileList h)
  | list path =>
    cases path with
    | none => exact inTurn_withLogin h.log (inTurn_retrieve true h)
    | some path => exact inTurn_withPathname h.log fun _ => inTurn_retrieve true h
  | rnfr path =>
    refine inTurn_withPathname (s := { s with restartPoint := 0 }) h.log fun name => ?_
    split <;> exact h.log
  | rnto path =>
    simp only [action, rnto]
    split
    · cases hf : s.fromname with
      | none => exact h.log
      | some source =>
        intro e he
        rcases List.mem_append.mp he with he | he
        · exact h.log e he
        · rw [List.mem_singleton.mp he]
          exact (h.fromname source hf).1
    · exact h.log

/-! ## Lines -/

/-- RNFR leaves its name for the next line, or nothing. -/
theorem fresh_rnfr {path : Str} (h : s.Fresh) (hnull : pathname w path s = none → s.fromname = none) :
    ({ rnfr w path s with before := lineOf (.rnfr path) w s } : Server).Fresh := by
  have hkeep : ∀ b : Line, s.fromname = none → ({ s with restartPoint := 0, before := b } : Server).Fresh :=
    fun b hnone => ⟨h.log, fun x hx => absurd (hnone.symm.trans hx) nofun, fun hr => absurd rfl hr⟩
  have hname : pathname w path { s with restartPoint := 0 } = pathname w path s := rfl
  unfold rnfr Server.withPathname
  rw [hname]
  by_cases hin : s.process.cred.loggedIn = true
  · simp only [hin, if_true]
    cases hp : pathname w path s with
    | none => exact hkeep _ (hnull hp)
    | some name =>
      cases hst : w.stat with
      | true =>
        refine ⟨h.log, ?_, fun hr => absurd rfl hr⟩
        intro x hx
        obtain rfl : name = x := Option.some.inj hx
        exact ⟨by simp [lineOf, hp, hin, hst], hin⟩
      | false => exact ⟨h.log, nofun, fun hr => absurd rfl hr⟩
  · simp only [hin]
    apply hkeep
    cases hf : s.fromname with
    | none => rfl
    | some x => exact absurd (h.fromname x hf).2 hin

theorem fresh_obey {q : Sequence} (h : s.Fresh) (hok : s.Clears q w) : (s.obey anonOnly crypt his q w).Fresh := by
  obtain ⟨hjump, hrnfr⟩ := hok
  have hforget : ∀ {u : Server} {b : Line}, u.InTurn → ({ u.forget with before := b } : Server).Fresh :=
    fun hu => ⟨hu, nofun, fun h => absurd rfl h⟩
  have hred : (s.reduced q).Fresh := ⟨h.log, h.fromname, h.restart⟩
  unfold Server.obey
  cases hexit : q.exit with
  | jump =>
    obtain ⟨hfrom, hrest⟩ := hjump hexit
    exact ⟨h.log, fun x hx => absurd (hfrom.symm.trans hx) nofun, fun hr => absurd hrest hr⟩
  | crlf recovered =>
    cases recovered with
    | true => exact hforget h.log
    | false =>
      have hact := @inTurn_action anonOnly crypt his w (s.reduced q) (command q.tokens) hred
      have hnull := hrnfr hexit
      simp only
      generalize command q.tokens = c at hact hnull
      cases c with
      | rnfr path => exact fresh_rnfr hred (hnull path rfl)
      | rest n => exact ⟨h.log, nofun, fun _ => rfl⟩
      | _ => exact hforget hact

theorem fresh_step {a : Str × World} {s t : Session} (hs : s.server.Fresh) (hok : s.Clears a)
    (h : Session.step anonOnly crypt his a s = some t) : t.server.Fresh := by
  obtain ⟨line, w⟩ := a
  simp only [Session.step] at h
  split at h
  · cases h
  obtain rfl := Option.some.inj h
  exact fresh_obey hs hok

/-- In a session where nothing that RNFR and REST have left outlives the next line, RNTO and the
    transfers use it only behind that RNFR or REST. -/
theorem next_command_only {lines : List (Str × World)} {t : Session}
    (hok : Meets (Session.step anonOnly crypt his) (fun a s => s.Clears a) lines .init)
    (h : run (Session.step anonOnly crypt his) lines .init = some t) : t.server.InTurn :=
  (run_inv_meets (fun _ _ _ hs hok h => fresh_step hs hok h)
    (show Server.init.Fresh from ⟨nofun, nofun, fun h => absurd rfl h⟩) hok h).log

/-! ## Runs -/

def rnfrA : Str := lineOfText ['R', 'N', 'F', 'R', ' ', 'a']
def rntoB : Str := lineOfText ['R', 'N', 'T', 'O', ' ', 'b']
def restTen : Str := lineOfText ['R', 'E', 'S', 'T', ' ', '1', '0']
def retrA : Str := lineOfText ['R', 'E', 'T', 'R', ' ', 'a']
/-- No command of the table. -/
def unknownLine : Str := lineOfText ['X', 'Y', 'Z']
/-- With a pathname that glob finds nothing for. -/
def rnfrNobody : Str := lineOfText ['R', 'N', 'F', 'R', ' ', '~', 'x']

theorem next_command_only_bob :
    (run (Session.step false salted peer)
      [(userBob, quietWorld), (passB, quietWorld), (rnfrA, quietWorld), (rntoB, quietWorld), (unknownLine, quietWorld),
        (restTen, quietWorld), (retrA, quietWorld)] .init).isSome ∧
    ∀ t, run (Session.step false salted peer)
        [(userBob, quietWorld), (passB, quietWorld), (rnfrA, quietWorld), (rntoB, quietWorld), (unknownLine, quietWorld),
          (restTen, quietWorld), (retrA, quietWorld)] .init = some t → t.server.InTurn :=
  ⟨by decide +kernel, fun _ h => next_command_only (by decide +kernel) h⟩

/-- What RNFR and REST have left is used behind an unknown command, and the name also behind an
    RNFR that was answered 550. -/
theorem left_for_a_later_command :
    (∃ t, run (Session.step false salted peer)
        [(userBob, quietWorld), (passB, quietWorld), (rnfrA, quietWorld), (unknownLine, quietWorld), (rntoB, quietWorld),
          (restTen, quietWorld), (unknownLine, quietWorld), (retrA, quietWorld)] .init = some t ∧
      t.server.log = [.rename (ascii ['a']) (some (ascii ['b'])) .any, .connect peer true, .start 10 .any] ∧
      ¬ t.server.InTurn) ∧
    ∃ t, run (Session.step false salted peer)
        [(userBob, quietWorld), (passB, quietWorld), (rnfrA, quietWorld), (rnfrNobody, quietWorld), (rntoB, quietWorld)]
        .init = some t ∧
      t.server.log = [.rename (ascii ['a']) (some (ascii ['b'])) .any] ∧ ¬ t.server.InTurn := by
  have hlog : ∀ (r : Option Session) (l : List Event),
      r.map (fun t => t.server.log) = some (.rename (ascii ['a']) (some (ascii ['b'])) .any :: l) →
      ∃ t, r = some t ∧ t.server.log = .rename (ascii ['a']) (some (ascii ['b'])) .any :: l ∧ ¬ t.server.InTurn := by
    intro r l h
    obtain ⟨t, ht, hl⟩ := Option.map_eq_some_iff.mp h
    refine ⟨t, ht, hl, ?_⟩
    intro hturn
    have hrename := hturn _ (by rw [hl]; exact List.mem_cons_self)
    exact absurd hrename nofun
  exact ⟨hlog _ _ (by decide +kernel), hlog _ _ (by decide +kernel)⟩

end Netutils.Ftpd
