/-
  Netutils.Session.DataAddress — the addresses of the data connection that ftp and ftpd tell each
  other: PORT (initconn, ftp/ftp.c; host_port, ftpd/ftpcmd.y) and the reply to PASV (passive,
  ftpd/ftpd.c; getreply and initconn, ftp/ftp.c). Both ends have the same address then
  (`port_understood`, `pasv_understood`), and pasv can be handed on with PORT as it is.
-/

import Netutils.Ftp.PasvAddress
import Netutils.Ftpd.Privileges
import Netutils.Ftpd.SiteModes
import Netutils.Gwhois.Query

namespace Netutils.Session.DataAddress

open Netutils.Arpa
open Netutils.Ftpd hiding text atoi
open Netutils.Ftpd.SiteModes (atoi_digits low low_of_small scan_number spell_crlf spell_token text_crlf)
open Netutils.Libc

abbrev Bytes := List UInt8

def COMMA : UInt8 := 0x2c

/-! ## The text of an address -/

/-- `%d,%d` and so on -/
def commas : Bytes → Bytes
  | [] => []
  | [c] => decimal c.toNat
  | c :: l => decimal c.toNat ++ COMMA :: commas l

/-- sin_addr and sin_port. -/
def octets (s : Sockaddr) : Bytes :=
  [s.addr.a, s.addr.b, s.addr.c, s.addr.d, UInt8.ofNat (s.port / 256), UInt8.ofNat (s.port % 256)]

/-- An address of the family AF_INET. -/
def Inet (s : Sockaddr) : Prop := s.inet = true ∧ s.port < 65536

/-- command ("PORT %d,%d,%d,%d,%d,%d", ...) -/
def portLine (address : Bytes) : Str := ascii ['P', 'O', 'R', 'T', ' '] ++ address ++ [CR, LF]

/-- reply (227, ...) -/
def passiveReply (s : Sockaddr) : Bytes :=
  Libc.text "227 Entering Passive Mode (" ++ commas (octets s) ++ Libc.text ")" ++ [CR, LF]

/-- `sscanf (pasv, "%d,%d,%d,%d,%d,%d", ...)`: as many numbers as there are. -/
def scanCommas : Nat → Bytes → List (BitVec 32)
  | 0, _ => []
  | n + 1, s =>
    match Gwhois.Query.scanInt s with
    | none => []
    | some (v, s) => v :: if s.head? = some COMMA then scanCommas n s.tail else []

/-- `& 0xff` -/
def lowByte (v : BitVec 32) : UInt8 := ⟨v.setWidth 8⟩

/-- data_addr of initconn, in passive mode. -/
def passiveAddr (pasv : Bytes) : Option Sockaddr :=
  match scanCommas 6 pasv with
  | [a0, a1, a2, a3, p0, p1] =>
    some ⟨true, ⟨lowByte a0, lowByte a1, lowByte a2, lowByte a3⟩, 256 * (lowByte p0).toNat + (lowByte p1).toNat⟩
  | _ => none

/-! ## PORT -/

theorem atoi_decimal (c : UInt8) : Ftpd.atoi (decimal c.toNat) = (c.toNat : Int) := by
  have hc := c.toNat_lt
  have hlow : low (decimal c.toNat) = c.toNat := by
    rw [low_of_small (by rw [number_decimal]; omega), number_decimal]
  rw [atoi_digits, hlow, if_pos (by omega)]

theorem byteOf_toNat (c : UInt8) : byteOf (c.toNat : Int) = c := by
  have hc := c.toNat_lt
  have hmod : ((c.toNat : Int) % 256).toNat = c.toNat := by omega
  rw [byteOf, hmod]
  exact UInt8.ofNat_toNat

variable {bad : List Token → Bool} {n : Nat} {tokens : List Token} {rest : Str}

theorem spell_number (c : UInt8) {d : UInt8} (hd : isDigit d = false)
    (hbad : bad (tokens ++ [.number c.toNat]) = false) :
    spell bad (n + 1) (scan .args (decimal c.toNat ++ d :: rest)) tokens false =
      spell bad n (scan .args (d :: rest)) (tokens ++ [.number c.toNat]) false := by
  have hds : ∀ b ∈ decimal c.toNat, isdigit b = true := fun b hb => isdigit_decimal hb
  have hscan : scan .args (decimal c.toNat ++ d :: rest) = some (.number c.toNat, .args, d :: rest) := by
    rw [← atoi_decimal c, ← scan_number .args hds hd]
    obtain ⟨b, l, hl⟩ := List.exists_cons_of_ne_nil (decimal_ne_nil c.toNat)
    have hb : isDigit b = true := hds b (by rw [hl]; exact List.mem_cons_self)
    rw [hl]
    exact if_pos hb
  rw [hscan, spell_token (by simp) hbad]

theorem spell_comma (hbad : bad (tokens ++ [.key .COMMA]) = false) :
    spell bad (n + 1) (scan .args (COMMA :: rest)) tokens false =
      spell bad n (scan .args rest) (tokens ++ [.key .COMMA]) false := by
  rw [show scan .args (COMMA :: rest) = some (.key .COMMA, .args, rest) from rfl, spell_token (by decide) hbad]

/-- The tokens of PORT. -/
def portTokens (a b c d p q : UInt8) : List Token :=
  [.key .PORT, .key .SP, .number a.toNat, .key .COMMA, .number b.toNat, .key .COMMA, .number c.toNat, .key .COMMA,
    .number d.toNat, .key .COMMA, .number p.toNat, .key .COMMA, .number q.toNat, .key .CRLF]

theorem tokenize_port (a b c d p q : UInt8) :
    tokenize syntaxError (ascii ['P', 'O', 'R', 'T', ' '] ++ commas [a, b, c, d, p, q] ++ [LF]) =
      ⟨portTokens a b c d p q, .crlf false⟩ := by
  have hword : word cmdtab (ascii ['P', 'O', 'R', 'T', ' '] ++ commas [a, b, c, d, p, q] ++ [LF]) =
      some (.key .PORT, .args, BLANK :: (commas [a, b, c, d, p, q] ++ [LF])) := rfl
  have hcomma : isDigit COMMA = false := by decide
  rw [tokenize, hword, show CBUFSIZE + 2 = 500 + 1 + 1 + 1 + 1 + 1 + 1 + 1 + 1 + 1 + 1 + 1 + 1 + 1 + 1 from rfl]
  rw [spell_token (by decide) rfl, show scan .args (BLANK :: _) = some (.key .SP, .args, _) from rfl]
  rw [spell_token (by decide) rfl]
  simp only [commas, List.append_assoc, List.cons_append]
  rw [spell_number a hcomma rfl, spell_comma rfl, spell_number b hcomma rfl, spell_comma rfl,
    spell_number c hcomma rfl, spell_comma rfl, spell_number d hcomma rfl, spell_comma rfl,
    spell_number p hcomma rfl, spell_comma rfl, spell_number q (by decide) rfl]
  rw [show scan .args [LF] = some (.key .CRLF, .args, []) from rfl, spell_crlf rfl]
  rfl

theorem mem_commas {l : Bytes} {b : UInt8} (hb : b ∈ commas l) : isdigit b = true ∨ b = COMMA := by
  induction l with
  | nil => exact absurd hb List.not_mem_nil
  | cons c l ih =>
    cases l with
    | nil => exact .inl (isdigit_decimal hb)
    | cons d l =>
      rw [commas] at hb
      · rcases List.mem_append.mp hb with hb | hb
        · exact .inl (isdigit_decimal hb)
        · rcases List.mem_cons.mp hb with hb | hb
          · exact .inr hb
          · exact ih hb
      · exact List.cons_ne_nil d l

theorem not_mem_commas {l : Bytes} {b : UInt8} (hdigit : isdigit b = false) (hcomma : b ≠ COMMA) : b ∉ commas l := by
  intro hb
  rcases mem_commas hb with h | h
  · rw [hdigit] at h
    cases h
  · exact hcomma h

theorem line_port (L : Lexer) (a b c d p q : UInt8) :
    (L.line syntaxError (portLine (commas [a, b, c, d, p, q]))).1 = ⟨portTokens a b c d p q, .crlf false⟩ := by
  obtain ⟨t, ht⟩ : ∃ t, t = ascii ['P', 'O', 'R', 'T', ' '] ++ commas [a, b, c, d, p, q] := ⟨_, rfl⟩
  have hclean : ∀ x, isdigit x = false → x ≠ COMMA → x ∉ ascii ['P', 'O', 'R', 'T', ' '] → x ∉ t := by
    intro x hdigit hcomma hword
    rw [ht, List.mem_append, not_or]
    exact ⟨hword, not_mem_commas hdigit hcomma⟩
  have hcr : CR ∉ t := hclean CR (by decide) (by decide) (by decide)
  have hlf : LF ∉ t := hclean LF (by decide) (by decide) (by decide)
  have hnul : 0 ∉ t := hclean 0 (by decide) (by decide) (by decide)
  have htext := text_crlf hcr hnul
  have hend : LF ∉ (t ++ [CR, LF]).dropLast := by
    rw [List.dropLast_append_of_ne_nil (List.cons_ne_nil _ _), List.mem_append, not_or]
    exact ⟨hlf, by decide⟩
  have hsettled : Settled (Ftpd.text (t ++ [CR, LF])) := by
    rw [htext]
    exact ⟨LF, List.mem_append_right _ (List.mem_singleton.mpr rfl), rfl⟩
  rw [portLine, ← ht, line_of_settled syntaxError hend hsettled, htext, ht]
  exact tokenize_port a b c d p q

/-- `host_port` makes the address of these numbers. -/
theorem hostPort_octets {s : Sockaddr} (hs : Inet s) :
    let o := octets s
    HostPort.sockaddr ⟨(o.getD 0 0).toNat, (o.getD 1 0).toNat, (o.getD 2 0).toNat, (o.getD 3 0).toNat,
      (o.getD 4 0).toNat, (o.getD 5 0).toNat⟩ = s := by
  obtain ⟨inet, ⟨a, b, c, d⟩, port⟩ := s
  obtain ⟨rfl, hport⟩ := hs
  have hport : port < 65536 := hport
  have hhigh : (UInt8.ofNat (port / 256)).toNat = port / 256 := by
    rw [UInt8.toNat_ofNat']
    omega
  have hlow : (UInt8.ofNat (port % 256)).toNat = port % 256 := by
    rw [UInt8.toNat_ofNat']
    omega
  have hsum : 256 * (port / 256) + port % 256 = port := Nat.div_add_mod port 256
  intro o
  simp only [o, octets, HostPort.sockaddr, byteOf_toNat, List.getD_cons_zero, List.getD_cons_succ]
  rw [hhigh, hlow, hsum]

/-- ftpd takes the address that ftp listens on, unless it is not to connect there. -/
theorem port_understood (anonOnly : Bool) (crypt : Str → Str → Option Str) (his : Sockaddr) (w : World)
    {address : Sockaddr} (ha : Inet address) {s : Session} (hs : s.server.process.exited = false) :
    ∃ t, s.step anonOnly crypt his (portLine (commas (octets address)), w) = some t ∧
      t.server.process = s.server.process ∧ t.server.usedefault = false ∧ t.server.pdata = false ∧
      t.server.dataDest =
        if s.server.process.cred.loggedIn = true ∧ address.legal his = false then .zero else address := by
  obtain ⟨a, b, c, d, p, q, ho⟩ : ∃ a b c d p q, octets address = [a, b, c, d, p, q] := ⟨_, _, _, _, _, _, rfl⟩
  have hline := line_port s.lexer a b c d p q
  have hsockaddr := hostPort_octets ha
  rw [ho] at hsockaddr ⊢
  have hexited : ¬ s.server.process.exited = true := by simp [hs]
  rw [Session.step, if_neg hexited]
  refine ⟨_, rfl, ?_⟩
  simp only [hline]
  -- the destination is written before the action of PORT looks at it
  have hreduced : s.server.reduced ⟨portTokens a b c d p q, .crlf false⟩ = { s.server with dataDest := address } := by
    simp only [Server.reduced, portTokens, hostPortOf, Option.map_some, Option.getD_some]
    exact congrArg (fun x => { s.server with dataDest := x }) hsockaddr
  have hcommand : command (portTokens a b c d p q) = .port ⟨a.toNat, b.toNat, c.toNat, d.toNat, p.toNat, q.toNat⟩ := rfl
  simp only [Server.obey, hreduced, hcommand, action, Command.isRcmd, Bool.false_eq_true, if_false, Server.forget, port]
  by_cases hlegal : s.server.process.cred.loggedIn = true ∧ address.legal his = false
  · have hrefused : (s.server.process.cred.loggedIn && !address.legal his) = true := by simp [hlegal.1, hlegal.2]
    rw [if_pos hlegal]
    simp only [hrefused, if_true]
    exact ⟨trivial, trivial, trivial, trivial⟩
  · have hallowed : ¬ (s.server.process.cred.loggedIn && !address.legal his) = true := by
      simpa using hlegal
    rw [if_neg hlegal]
    simp only [if_neg hallowed]
    exact ⟨trivial, trivial, trivial, trivial⟩

theorem port_understood_local :
    ∃ t, Session.init.step false (fun _ _ => none) ⟨true, ⟨127, 0, 0, 1⟩, 40000⟩
        (portLine (commas [127, 0, 0, 1, 195, 101]), quietWorld) = some t ∧
      t.server.dataDest = ⟨true, ⟨127, 0, 0, 1⟩, 50021⟩ := by
  have haddress : Inet ⟨true, ⟨127, 0, 0, 1⟩, 50021⟩ := ⟨rfl, by decide⟩
  obtain ⟨t, ht, -, -, -, hdest⟩ := port_understood false (fun _ _ => none) ⟨true, ⟨127, 0, 0, 1⟩, 40000⟩ quietWorld
    haddress (s := Session.init) rfl
  exact ⟨t, ht, hdest⟩

/-! ## PASV -/

section passive

open Netutils.Ftp.Getreply (Code DASH PAREN Pasv addressLine codeOf crlf fromDigit getreply getreply_one
  getreply_reading goes goes_of_isdigit offsets_storesOf plain reading_cons replyLines splitOn_ne_nil stored
  stored_storesOf storesOf zeroPasv)

theorem scanCommas_commas {l : Bytes} (hl : l ≠ []) :
    scanCommas l.length (commas l) = l.map fun c => BitVec.ofNat 32 c.toNat := by
  have hbyte : ∀ c : UInt8, c.toNat < 2 ^ 63 := fun c => by have := c.toNat_lt; omega
  induction l with
  | nil => exact absurd rfl hl
  | cons c l ih =>
    cases l with
    | nil =>
      have hscan := Gwhois.Query.scanInt_decimal (hbyte c) [] rfl
      rw [List.append_nil] at hscan
      show scanCommas 1 (decimal c.toNat) = [BitVec.ofNat 32 c.toNat]
      rw [scanCommas, hscan]
      rfl
    | cons d l =>
      have hscan := Gwhois.Query.scanInt_decimal (hbyte c) (COMMA :: commas (d :: l)) rfl
      rw [commas, List.length_cons, scanCommas, hscan, List.map_cons, ← ih (List.cons_ne_nil d l)]
      · rfl
      · exact List.cons_ne_nil d l

theorem lowByte_ofNat (c : UInt8) : lowByte (BitVec.ofNat 32 c.toNat) = c := by
  apply UInt8.toNat_inj.mp
  have hc := c.toNat_lt
  show ((BitVec.ofNat 32 c.toNat).setWidth 8).toNat = c.toNat
  rw [BitVec.toNat_setWidth, BitVec.toNat_ofNat]
  omega

theorem length_commas (l : Bytes) : (commas l).length ≤ 4 * l.length := by
  have hdecimal : ∀ c : UInt8, (decimal c.toNat).length ≤ 3 := by
    intro c
    have hc := c.toNat_lt
    exact length_decimal (by decide) (by omega)
  induction l with
  | nil => exact Nat.le_refl 0
  | cons c l ih =>
    have hc := hdecimal c
    cases l with
    | nil =>
      simp only [commas, List.length_singleton]
      omega
    | cons d l =>
      rw [commas]
      · simp only [List.length_append, List.length_cons] at ih ⊢
        omega
      · exact List.cons_ne_nil d l

/-- ftp connects where ftpd listens. -/
theorem passiveAddr_commas {s : Sockaddr} (hs : Inet s) : passiveAddr (commas (octets s)) = some s := by
  have hscan : scanCommas 6 (commas (octets s)) = (octets s).map fun c => BitVec.ofNat 32 c.toNat :=
    scanCommas_commas (l := octets s) (List.cons_ne_nil _ _)
  have hsockaddr := hostPort_octets hs
  simp only [HostPort.sockaddr, byteOf_toNat] at hsockaddr
  rw [passiveAddr, hscan]
  simp only [octets, List.map_cons, List.map_nil, lowByte_ofNat]
  exact congrArg some hsockaddr

theorem plain_append {t : Bytes} (ht : IAC ∉ t) (l : Bytes) : plain (t ++ l) = t ++ plain l := by
  induction t with
  | nil => rfl
  | cons c t ih =>
    obtain ⟨hc, ht⟩ := not_or.mp (mt List.mem_cons.mpr ht)
    have hplain : plain (c :: (t ++ l)) = c :: plain (t ++ l) := by
      conv_lhs => unfold Ftp.Getreply.plain
      exact if_neg fun h => hc h.symm
    rw [List.cons_append, hplain, ih ht, List.cons_append]

/-- The line of the reply. -/
def passiveText (o : Bytes) : Bytes := Libc.text "227 Entering Passive Mode (" ++ commas o ++ Libc.text ")"

theorem commas_cons {o : Bytes} (ho : o ≠ []) : ∃ b l, commas o = b :: l ∧ isdigit b = true := by
  obtain ⟨c, o, rfl⟩ := List.exists_cons_of_ne_nil ho
  obtain ⟨b, l, hl⟩ := List.exists_cons_of_ne_nil (decimal_ne_nil c.toNat)
  have hb : isdigit b = true := isdigit_decimal (n := c.toNat) (by rw [hl]; exact List.mem_cons_self)
  cases o with
  | nil => exact ⟨b, l, hl, hb⟩
  | cons d o =>
    refine ⟨b, l ++ COMMA :: commas (d :: o), ?_, hb⟩
    rw [commas, hl, List.cons_append]
    exact List.cons_ne_nil d o

/-- The address starts at the first digit behind the code. -/
theorem fromDigit_passive {o : Bytes} (ho : o ≠ []) : fromDigit [passiveText o ++ [CR]] = commas o ++ [PAREN, CR] := by
  have htext : passiveText o ++ [CR] = Libc.text "227 Entering Passive Mode (" ++ (commas o ++ [PAREN, CR]) := by
    rw [passiveText, List.append_assoc, List.append_assoc]
    rfl
  obtain ⟨b, l, hl, hb⟩ := commas_cons ho
  have hcode : codeOf (Libc.text "227 Entering Passive Mode (" ++ (commas o ++ [PAREN, CR])) = 227 := rfl
  have hdrop : (Libc.text "227 Entering Passive Mode (" ++ (commas o ++ [PAREN, CR])).drop 4 =
      Libc.text "Entering Passive Mode (" ++ (commas o ++ [PAREN, CR]) := rfl
  have hfront : ∀ c ∈ Libc.text "Entering Passive Mode (", (!isdigit c) = true := List.all_eq_true.mp (by decide)
  have hfrom : fromDigit [passiveText o ++ [CR]] = (addressLine (false, []) (passiveText o ++ [CR])).2 := rfl
  rw [hfrom, htext, addressLine]
  simp only [ne_eq, not_true_eq_false, if_false, hcode, decide_true, Bool.or_true, if_true, hdrop]
  rw [List.dropWhile_append_of_pos hfront, hl, List.cons_append, List.dropWhile_cons_of_neg (by simp [hb])]

theorem not_mem_passiveText {o : Bytes} {c : UInt8} (hdigit : isdigit c = false) (hcomma : c ≠ COMMA)
    (hfront : c ∉ Libc.text "227 Entering Passive Mode (" ++ Libc.text ")") : c ∉ passiveText o := by
  simp only [List.mem_append, not_or] at hfront
  simp only [passiveText, List.mem_append, not_or]
  exact ⟨⟨hfront.1, not_mem_commas hdigit hcomma⟩, hfront.2⟩

/-- The code of the reply. -/
def enteringPassive : Code := ⟨0x32, 0x32, 0x37, by decide⟩

/-- ftp finds in ftpd's reply to PASV where ftpd listens, whatever pasv has had in it; the rest of
    what ftpd sends is left. pasv is what PORT tells ftpd of the same address. -/
theorem pasv_understood (expecteof : Bool) {s : Sockaddr} (hs : Inet s) (pasv : Pasv) (rest : Bytes) :
    ∃ o, getreply expecteof (passiveReply s ++ rest) = some o ∧ o.code = 227 ∧ o.left = rest ∧
      (∀ st ∈ o.locals.stores, st.1 < 64) ∧
      cstring (stored pasv o.locals.stores) = commas (octets s) ∧
      passiveAddr (cstring (stored pasv o.locals.stores)) = some s := by
  have hne : octets s ≠ [] := List.cons_ne_nil _ _
  obtain ⟨t, ht⟩ : ∃ t, t = passiveText (octets s) := ⟨_, rfl⟩
  have hlf : LF ∉ t := ht ▸ not_mem_passiveText (by decide) (by decide) (by decide)
  have hiac : IAC ∉ t := ht ▸ not_mem_passiveText (by decide) (by decide) (by decide)
  have hnul : NUL ∉ t := ht ▸ not_mem_passiveText (by decide) (by decide) (by decide)
  have hspelled : t = enteringPassive.digits ++ Ftp.Getreply.BLANK :: t.drop 4 := by rw [ht]; rfl
  obtain ⟨o, ho, hcode, hleft⟩ : ∃ o, getreply expecteof (crlf t ++ rest) = some o ∧ o.code = 227 ∧ o.left = rest := by
    obtain ⟨o, ho, -, hcode, hleft⟩ := getreply_one enteringPassive (t := t.drop 4) (by rw [← hspelled]; exact ⟨hlf, hiac, hnul⟩)
    rw [← hspelled] at ho
    exact ⟨o, ho, hcode, hleft⟩
  have hcin : passiveReply s ++ rest = crlf t ++ rest := by rw [ht]; rfl
  refine ⟨o, by rw [hcin]; exact ho, hcode, hleft, ?_⟩
  -- the line as it is read
  have hplain : plain (crlf t ++ rest) = (t ++ [CR]) ++ LF :: plain rest := by
    have hiac' : IAC ∉ crlf t := by
      rw [crlf, List.mem_append, not_or]
      exact ⟨hiac, by decide⟩
    rw [plain_append hiac', crlf]
    simp
  have hlf' : LF ∉ t ++ [CR] := by
    rw [List.mem_append, not_or]
    exact ⟨hlf, by decide⟩
  have hnodash : ¬ ((t ++ [CR])[3]? = some DASH ∧ codeOf (t ++ [CR]) ≠ 0) := by
    rintro ⟨hfourth, -⟩
    have hblank : (t ++ [CR])[3]? = some BLANK := by rw [ht]; rfl
    rw [hblank] at hfourth
    exact absurd (Option.some.inj hfourth) (by decide)
  have hlines : replyLines (crlf t ++ rest) = [t ++ [CR]] := by
    rw [replyLines, hplain, List.splitOn_append_cons_self_of_not_mem hlf', reading_cons (splitOn_ne_nil rest),
      if_neg hnodash]
  obtain ⟨o', ho', hwatch, -⟩ := getreply_reading (e := expecteof) (crlf t ++ rest)
  obtain rfl := Option.some.inj (ho.symm.trans ho')
  have hstores : o.locals.stores = storesOf (commas (octets s) ++ [PAREN, CR]) := by
    have hfrom := fromDigit_passive hne
    rw [← ht] at hfrom
    rw [← hfrom, ← hlines]
    exact hwatch.stores
  -- the address goes, and the parenthesis ends it
  have hgoes : ∀ c ∈ commas (octets s), goes c = true := by
    intro c hc
    rcases mem_commas hc with hc | rfl
    · exact goes_of_isdigit hc
    · decide
  have htake : (commas (octets s) ++ [PAREN, CR]).takeWhile goes = commas (octets s) := by
    rw [List.takeWhile_append_of_pos hgoes]
    exact List.append_nil _
  have hall : ¬ (commas (octets s) ++ [PAREN, CR]).all goes = true := by
    rw [List.all_append, Bool.and_eq_true]
    exact fun h => absurd h.2 (by decide)
  have hroom : ((commas (octets s) ++ [PAREN, CR]).takeWhile goes).length +
      (if (commas (octets s) ++ [PAREN, CR]).all goes = true then 0 else 1) ≤ 64 := by
    have hlen := length_commas (octets s)
    have hsix : (octets s).length = 6 := rfl
    rw [htake, if_neg hall]
    omega
  have hstring : cstring (stored pasv o.locals.stores) = commas (octets s) := by
    rw [hstores, stored_storesOf pasv _ hroom, htake, if_neg hall]
    exact cstring_append_nul (not_mem_commas (by decide) (by decide)) _
  refine ⟨?_, hstring, ?_⟩
  · rw [hstores]
    exact (offsets_storesOf _).mpr hroom
  · rw [hstring]
    exact passiveAddr_commas hs

theorem pasv_understood_local :
    ∃ o, getreply false (passiveReply ⟨true, ⟨127, 0, 0, 1⟩, 50021⟩) = some o ∧
      passiveAddr (cstring (stored zeroPasv o.locals.stores)) = some ⟨true, ⟨127, 0, 0, 1⟩, 50021⟩ := by
  obtain ⟨o, ho, -, -, -, -, haddr⟩ :=
    pasv_understood false (s := ⟨true, ⟨127, 0, 0, 1⟩, 50021⟩) ⟨rfl, by decide⟩ zeroPasv []
  rw [List.append_nil] at ho
  exact ⟨o, ho, haddr⟩

end passive

end Netutils.Session.DataAddress
