/-
  Netutils.Ftpd.DataDest — whom ftpd connects to for its data connections.

  PORT checks the destination it has been given, but not before a login, and `host_port` has
  overwritten data_dest by then even where the line is no PORT command in the end. While
  every destination that fails the check either comes to it or is not used (no PORT is in
  force), each active connection goes to the peer, to a port that is not reserved unless it
  is the peer's own (`connects_to_the_peer`).
-/

import Netutils.Ftpd.Privileges

namespace Netutils.Ftpd

open Netutils.Lib.Transition Netutils.Arpa

variable (anonOnly : Bool) (crypt : Str → Str → Option Str) (his : Sockaddr)

/-! ## The property -/

/-- A destination that dataconn may connect to: by default, or while a PORT is in force. -/
def Sockaddr.Allowed (d his : Sockaddr) (byDefault : Bool) : Prop :=
  d.inet = true → d.addr = his.addr ∧ if byDefault then d.port = his.port else IPPORT_RESERVED < d.port

/-- No connection has been made to anyone else. -/
def Server.ToPeer (s : Server) : Prop := ∀ d b, Event.connect d b ∈ s.log → d.Allowed his b

/-- A destination that the check of PORT would refuse comes to this check, in the line it is
    in, or that line is no command and no PORT is in force. -/
def Session.Directs (a : Str × World) (s : Session) : Prop :=
  let q := (s.lexer.line syntaxError a.1).1
  ∀ h ∈ hostPortOf q.tokens, h.sockaddr.legal his = true ∨
    (if q.exit = .crlf false then s.server.process.cred.loggedIn = true else s.server.usedefault = true)

instance (a : Str × World) (s : Session) : Decidable (s.Directs his a) := by
  unfold Session.Directs; infer_instance

/-! ## What keeps it -/

/-- The destination is not used, or one that may be. -/
structure Server.Directed (s : Server) : Prop where
  log : s.ToPeer his
  dest : s.usedefault = true ∨ s.dataDest.Allowed his false

variable {anonOnly crypt his} {w : World} {s t : Server}

theorem allowed_of_legal {d : Sockaddr} (h : d.legal his = true) : d.Allowed his false := by
  simp only [Sockaddr.legal, Bool.and_eq_true, decide_eq_true_eq] at h
  exact fun _ => ⟨h.1.symm, h.2⟩

/-- Only connections and the destination count. -/
theorem Server.Directed.same (h : s.Directed his) (hlog : ∀ d b, Event.connect d b ∈ t.log → Event.connect d b ∈ s.log)
    (hdef : t.usedefault = s.usedefault) (hdest : t.dataDest = s.dataDest) : t.Directed his :=
  ⟨fun d b hm => h.log d b (hlog d b hm), by rw [hdef, hdest]; exact h.dest⟩

/-- The one place that connects: to the peer by default, else to where PORT has it. -/
theorem directed_dataconn (h : s.Directed his) : (dataconn his w s).1.Directed his := by
  constructor
  · rcases log_dataconn his w s with hlog | hlog
    · intro d b hm
      rw [hlog] at hm
      exact h.log d b hm
    · intro d b hm
      rw [hlog] at hm
      rcases List.mem_append.mp hm with hm | hm
      · exact h.log d b hm
      · obtain ⟨rfl, rfl⟩ := Event.connect.inj (List.mem_singleton.mp hm)
        cases hu : s.usedefault with
        | true => exact fun _ => ⟨rfl, rfl⟩
        | false => exact h.dest.resolve_left (by rw [hu]; exact nofun)
  · rcases dest_dataconn his w s with hdef | ⟨hdef, hdest⟩
    · exact Or.inl hdef
    · rw [hdef, hdest]
      exact h.dest

/-- What a transfer puts into the log is no connection. -/
theorem directed_transfer {e : List Event} (h : s.Directed his) (he : ∀ d b, Event.connect d b ∉ e) :
    ({ s with log := s.log ++ e } : Server).closed.Directed his := by
  refine h.same ?_ rfl rfl
  intro d b hm
  exact (List.mem_append.mp hm).resolve_right (he d b)

theorem directed_retrieve (cmd : Bool) (h : s.Directed his) : (retrieve his cmd w s).Directed his := by
  rw [retrieve_eq]
  split
  · split
    · exact directed_transfer (directed_dataconn h) (by cases cmd <;> simp)
    · exact directed_dataconn h
  · exact h

theorem directed_store (unique : Bool) (h : s.Directed his) : (store his unique w s).Directed his := by
  rw [store_eq]
  split
  · split
    · exact directed_transfer (directed_dataconn h) (by simp)
    · exact directed_dataconn h
  · exact h

theorem Server.Directed.closed (h : s.Directed his) : s.closed.Directed his := h.same (fun _ _ hm => hm) rfl rfl

theorem directed_sendFileList (h : s.Directed his) : (sendFileList his w s).Directed his := by
  unfold sendFileList
  cases w.listing with
  | missing => exact h
  | options => exact directed_retrieve true h
  | empty => exact h.closed
  | files =>
    simp only
    split
    · exact directed_dataconn h
    · exact (directed_dataconn h).closed
  | aborted => exact directed_dataconn h

theorem directed_withPathname {path : Str} {act : Str → Server} (h : s.Directed his)
    (hact : ∀ name, (act name).Directed his) : (s.withPathname w path act).Directed his := by
  unfold Server.withPathname
  split
  · cases pathname w path s with
    | none => exact h
    | some name => exact hact name
  · exact h

theorem directed_withLogin (h : s.Directed his) (ht : t.Directed his) : (s.withLogin t).Directed his := by
  unfold Server.withLogin
  split
  · exact ht
  · exact h

/-- Commands other than PORT. -/
theorem directed_action {c : Command} (hc : ∀ p, c ≠ .port p) (h : s.Directed his) :
    (action anonOnly crypt his c w s).Directed his := by
  cases c with
  | port p => exact absurd rfl (hc p)
  | user name => exact h.same (fun _ _ hm => hm) rfl rfl
  | pass passwd => exact h.same (fun _ _ hm => hm) rfl rfl
  | quit => exact h.same (fun _ _ hm => hm) rfl rfl
  | other k => exact h
  | rest n => exact h.same (fun _ _ hm => hm) rfl rfl
  | pasv =>
    refine directed_withLogin h ?_
    unfold passive
    split <;> exact h.same (fun _ _ hm => hm) rfl rfl
  | retr path => exact directed_withPathname h fun _ => directed_retrieve false h
  | stor path => exact directed_withPathname h fun _ => directed_store false h
  | appe path => exact directed_withPathname h fun _ => directed_store false h
  | stou path => exact directed_withPathname h fun _ => directed_store true h
  | nlst path => exact directed_withLogin h (directed_sendFileList h)
  | list path =>
    cases path with
    | none => exact directed_withLogin h (directed_retrieve true h)
    | some path => exact directed_withPathname h fun _ => directed_retrieve true h
  | rnfr path =>
    refine directed_withPathname (h.same (fun _ _ hm => hm) rfl rfl) fun name => ?_
    split <;> exact h.same (fun _ _ hm => hm) rfl rfl
  | rnto path =>
    simp only [action, rnto]
    split
    · cases s.fromname with
      | none => exact h
      | some source =>
        refine h.same ?_ rfl rfl
        intro d b hm
        simpa using hm
    · exact h

/-- PORT, with a destination that is legal or comes to the check. -/
theorem directed_port (hlog : s.ToPeer his) (hok : s.dataDest.legal his = true ∨ s.process.cred.loggedIn = true) :
    (port his s).Directed his := by
  unfold port
  by_cases hl : s.dataDest.legal his = true
  · rw [if_neg (by simp [hl])]
    exact ⟨hlog, Or.inr (allowed_of_legal hl)⟩
  · rw [if_pos (by simp [hl, hok.resolve_left hl])]
    exact ⟨hlog, Or.inr nofun⟩

/-! ## Lines -/

/-- `host_port` is in front of the tokens of PORT, and of no other command. -/
theorem command_of_hostPort {tokens : List Token} {h : HostPort} (hh : hostPortOf tokens = some h) :
    command tokens = .port h := by
  unfold hostPortOf at hh
  split at hh
  · obtain rfl := Option.some.inj hh
    rfl
  · cases hh

theorem withString_ne_port (k : Kind) (s : Str) (p : HostPort) : withString k s ≠ .port p := by
  cases k <;> nofun

theorem hostPort_of_command {tokens : List Token} {p : HostPort} (hc : command tokens = .port p) :
    hostPortOf tokens = some p := by
  unfold command at hc
  split at hc
  case h_7 => exact absurd hc (withString_ne_port _ _ _)
  case h_8 =>
    split at hc
    · rename_i h hh
      rw [hh, Command.port.inj hc]
    · cases hc
  all_goals cases hc

/-- The destination is as before, or a new one that is legal, or comes to the check, or is not
    used. -/
theorem directed_obey {q : Sequence} (hs : s.Directed his)
    (hok : ∀ h ∈ hostPortOf q.tokens, h.sockaddr.legal his = true ∨
      (if q.exit = .crlf false then s.process.cred.loggedIn = true else s.usedefault = true)) :
    (s.obey anonOnly crypt his q w).Directed his := by
  have hforget : ∀ {u : Server} {b : Line}, u.Directed his → ({ u.forget with before := b } : Server).Directed his :=
    fun hu => hu.same (fun _ _ hm => hm) rfl rfl
  have hbefore : ∀ {u : Server} {b : Line}, u.Directed his → ({ u with before := b } : Server).Directed his :=
    fun hu => hu.same (fun _ _ hm => hm) rfl rfl
  unfold Server.obey
  cases hh : hostPortOf q.tokens with
  | none =>
    have hred : (s.reduced q).Directed his := hs.same (fun _ _ hm => hm) rfl (by simp [Server.reduced, hh])
    cases hexit : q.exit with
    | jump => exact hbefore hred
    | crlf recovered =>
      cases recovered with
      | true => exact hforget hred
      | false =>
        have hc : ∀ p, command q.tokens ≠ .port p := by
          intro p hp
          have := hostPort_of_command hp
          rw [hh] at this
          cases this
        have hact := @directed_action anonOnly crypt his w (s.reduced q) _ hc hred
        simp only
        split
        · exact hbefore hact
        · exact hforget hact
  | some h =>
    have hdest : (s.reduced q).dataDest = h.sockaddr := by simp [Server.reduced, hh]
    have hport := command_of_hostPort hh
    have hok := hok h hh
    cases hexit : q.exit with
    | jump =>
      rw [hexit, if_neg nofun] at hok
      exact hbefore ⟨hs.log, hok.symm.imp_right fun hl => by rw [hdest]; exact allowed_of_legal hl⟩
    | crlf recovered =>
      cases recovered with
      | true =>
        rw [hexit, if_neg nofun] at hok
        exact hforget ⟨hs.log, hok.symm.imp_right fun hl => by rw [hdest]; exact allowed_of_legal hl⟩
      | false =>
        rw [hexit, if_pos rfl] at hok
        have hact : (port his (s.reduced q)).Directed his := directed_port hs.log (by rw [hdest]; exact hok)
        simp only [hport]
        exact hforget hact

theorem directed_step {a : Str × World} {s t : Session} (hs : s.server.Directed his) (hok : s.Directs his a)
    (h : Session.step anonOnly crypt his a s = some t) : t.server.Directed his := by
  obtain ⟨line, w⟩ := a
  simp only [Session.step] at h
  split at h
  · cases h
  obtain rfl := Option.some.inj h
  exact directed_obey hs hok

/-- In a session whose lines direct the data connection properly, or leave it alone, every active
    connection has gone to the peer. -/
theorem connects_to_the_peer {lines : List (Str × World)} {t : Session}
    (hok : Meets (Session.step anonOnly crypt his) (fun a s => s.Directs his a) lines .init)
    (h : run (Session.step anonOnly crypt his) lines .init = some t) : t.server.ToPeer his :=
  (run_inv_meets (fun _ _ _ hs hok h => directed_step hs hok h)
    (show Server.init.Directed his from ⟨nofun, Or.inl rfl⟩) hok h).log

/-! ## Runs -/

def portPeer : Str := lineOfText ['P', 'O', 'R', 'T', ' ', '1', '0', ',', '0', ',', '0', ',', '1', ',', '8', ',', '0']
def portOther : Str := lineOfText ['P', 'O', 'R', 'T', ' ', '1', '0', ',', '0', ',', '0', ',', '9', ',', '0', ',', '2', '5']
/-- The same with a letter behind it. -/
def portOtherBroken : Str :=
  lineOfText ['P', 'O', 'R', 'T', ' ', '1', '0', ',', '0', ',', '0', ',', '9', ',', '0', ',', '2', '5', 'x']
def listLine : Str := lineOfText ['L', 'I', 'S', 'T']

theorem connects_to_the_peer_port :
    (run (Session.step false salted peer)
      [(userBob, quietWorld), (passB, quietWorld), (portOther, quietWorld), (listLine, quietWorld), (portPeer, quietWorld),
        (listLine, quietWorld)] .init).isSome ∧
    ∀ t, run (Session.step false salted peer)
        [(userBob, quietWorld), (passB, quietWorld), (portOther, quietWorld), (listLine, quietWorld), (portPeer, quietWorld),
          (listLine, quietWorld)] .init = some t → t.server.ToPeer peer :=
  ⟨by decide +kernel, fun _ h => connects_to_the_peer (by decide +kernel) h⟩

/-- A PORT from before the login is used after it, and a PORT that is refused as a syntax error
    takes the place of the one in force: ftpd connects to port 25 of 10.0.0.9. -/
theorem connects_to_a_third_party :
    (∃ t, run (Session.step false salted peer)
        [(portOther, quietWorld), (userBob, quietWorld), (passB, quietWorld), (listLine, quietWorld)] .init = some t ∧
      t.server.log = [.connect ⟨true, ⟨10, 0, 0, 9⟩, 25⟩ false] ∧ ¬ t.server.ToPeer peer) ∧
    ∃ t, run (Session.step false salted peer)
        [(userBob, quietWorld), (passB, quietWorld), (portPeer, quietWorld), (portOtherBroken, quietWorld),
          (listLine, quietWorld)] .init = some t ∧
      t.server.log = [.connect ⟨true, ⟨10, 0, 0, 9⟩, 25⟩ false] ∧ ¬ t.server.ToPeer peer := by
  have hlog : ∀ r : Option Session, r.map (fun t => t.server.log) = some [.connect ⟨true, ⟨10, 0, 0, 9⟩, 25⟩ false] →
      ∃ t, r = some t ∧ t.server.log = [.connect ⟨true, ⟨10, 0, 0, 9⟩, 25⟩ false] ∧ ¬ t.server.ToPeer peer := by
    intro r h
    obtain ⟨t, ht, hl⟩ := Option.map_eq_some_iff.mp h
    refine ⟨t, ht, hl, ?_⟩
    intro hto
    have := hto _ _ (by rw [hl]; exact List.mem_singleton.mpr rfl) rfl
    exact absurd this.1 (by decide)
  exact ⟨hlog _ (by decide +kernel), hlog _ (by decide +kernel)⟩

end Netutils.Ftpd
