/-
  Netutils.Gwhois.Query — the query of the whois client: the options and words of the command
  line, the choice of the server, and queryformat (gwhois/whois.c, main).

  Every flag for RIPE is appended to an array of 64 bytes. The words of a query are put in a
  string that is allocated for them and one byte each; the blank behind a word takes that byte,
  and its NUL goes behind the end. whichwhois looks at the last two characters of a handle,
  which may have one. What main allocates for the server's own prefixes is enough.

  For which command lines all of it stays inside is `main_iff`.
-/

import Mathlib.Data.List.Infix
import Netutils.Gwhois.Whois

namespace Netutils.Gwhois.Query

open Netutils.Libc Netutils.Lib.Faults

inductive Fault where
  | fstring
  | qstring
  /-- What realloc has no room for. -/
  | null
  | buf
  /-- A character in front of a string, or behind its NUL. -/
  | char
  deriving DecidableEq

def DOT : UInt8 := 0x2e
def DASH : UInt8 := 0x2d
def AT : UInt8 := 0x40
def BANG : UInt8 := 0x21
def ZERO : UInt8 := 0x30

/-- A string that is put, with its NUL, in so many bytes. -/
def inside (e : Fault) (size : Nat) (s : Str) : Except Fault Str := if s.length < size then .ok s else .error e

/-- `s[i]` -/
def charAt (s : Str) (i : Int) : Except Fault UInt8 :=
  if 0 ≤ i ∧ i ≤ s.length then .ok (s.getD i.toNat 0) else .error .char

/-- `strncasecmp (s + i, t, strlen (t)) == 0` -/
def beginsAt (s : Str) : Int → Str → Except Fault Bool
  | _, [] => .ok true
  | i, d :: t => do
    let c ← charAt s i
    if tolower c = tolower d then beginsAt s (i + 1) t else .ok false

/-- `strncasecmp (s, "as", 2) == 0`, and what s[2] is. -/
def isAs (next : UInt8 → Bool) (s : Str) : Except Fault Bool := do
  if ← beginsAt s 0 (text "as") then next <$> charAt s 2 else .ok false

/-! ## Tables -/

def RIPE_SERVERS : List Str := ["whois.ripe.net", "whois.apnic.net", "whois.oleane.net", "rr.arin.net", "whois.6bone.net",
  "whois.aunic.net", "whois.connect.com.au", "whois.nic.fr", "whois.telstra.net", "whois.nic.net.sg", "whois.metu.edu.tr",
  "whois.restena.lu", "rr.level3.net", "whois.arnes.si"].map text

def RIPE_SERVERS_OLD : List Str := ["whois.ra.net", "whois.nic.it", "whois.ans.net", "whois.cw.net", "whois.ripn.net",
  "whois.nic.ck", "whois.domain.kg"].map text

def GTLDS : List Str := [".com", ".net", ".org", ".edu"].map text

def NIC_HANDLES : List (Str × Str) := [("net-", "whois.arin.net"), ("netblk-", "whois.arin.net"), ("asn-", "whois.arin.net"),
  ("as-", "whois.ripe.net"), ("lim-", "whois.ripe.net"), ("coco-", "whois.corenic.net"), ("coho-", "whois.corenic.net"),
  ("core-", "whois.corenic.net")].map fun p => (text p.1, text p.2)

structure IpDel where
  net : BitVec 64
  mask : BitVec 64
  serv : Str

structure AsDel where
  first : Nat
  last : Nat
  serv : Str

/-- The tables that are made from the lists when the program is built. -/
structure Tables where
  ip_assign : List IpDel
  as_assign : List AsDel
  tld_serv : List (Str × Str)

/-! ## domcmp -/

/-- "compare backwards", for so many turns -/
def domcmpLoop (dom tld : Str) : Nat → Int → Int → Except Fault Bool
  | 0, _, _ => .ok false
  | n + 1, p, q =>
    if 0 ≤ p ∧ 0 ≤ q then do
      let c ← charAt dom p
      let d ← charAt tld q
      if tolower c = d then
        if q = 0 then .ok true else domcmpLoop dom tld n (p - 1) (q - 1)
      else .ok false
    else .ok false

/-- "check if dom ends with tld" -/
def domcmp (dom tld : Str) : Except Fault Bool := domcmpLoop dom tld tld.length (dom.length - 1) (tld.length - 1)

/-- The first row whose key dom ends with. -/
def firstTld {α : Type} (dom : Str) (key : α → Str) : List α → Except Fault (Option α)
  | [] => .ok none
  | row :: rows => do if ← domcmp dom (key row) then .ok (some row) else firstTld dom key rows

/-- "check if dom ends with an element of tldlist[]" -/
def domfind (dom : Str) (tldlist : List Str) : Except Fault Bool := Option.isSome <$> firstTld dom id tldlist

/-! ## whichwhois -/

/-- `%d`: the number, and what is behind it. -/
def scanInt (s : Str) : Option (BitVec 32 × Str) :=
  let s := s.dropWhile isspace
  let ds := if s.head? = some DASH ∨ s.head? = some 0x2b then s.tail else s
  if ds.head?.any isdigit then
    let n := number 10 (ds.takeWhile isdigit)
    some (BitVec.ofInt 32 (if s.head? = some DASH then max (-(n : Int)) (-2 ^ 63) else min n (2 ^ 63 - 1)), ds.dropWhile isdigit)
  else none

/-- A digit is neither white space nor a sign. -/
theorem plain_digit {b : UInt8} (hb : isdigit b = true) : isspace b = false ∧ b ≠ DASH ∧ b ≠ 0x2b := by
  simp only [isdigit, Bool.and_eq_true, decide_eq_true_eq, UInt8.le_iff_toNat_le] at hb
  have hlow : 0x30 ≤ b.toNat := hb.1
  refine ⟨?_, ?_, ?_⟩
  · rw [isspace, Bool.or_eq_false_iff, Bool.and_eq_false_iff]
    refine ⟨beq_eq_false_iff_ne.mpr ?_, Or.inr (decide_eq_false fun h => ?_)⟩
    · rintro rfl
      exact absurd hlow (by decide)
    · have hhigh : b.toNat ≤ 0x0d := UInt8.le_iff_toNat_le.mp h
      omega
  · rintro rfl
    exact absurd hlow (by decide)
  · rintro rfl
    exact absurd hlow (by decide)

/-- What is printed is scanned. -/
theorem scanInt_decimal {n : Nat} (hn : n < 2 ^ 63) (rest : Str) (hrest : rest.head?.all (!isdigit ·) = true) :
    scanInt (decimal n ++ rest) = some (BitVec.ofNat 32 n, rest) := by
  have hds : ∀ b ∈ decimal n, isdigit b = true := fun b hb => isdigit_decimal hb
  obtain ⟨htake, hdrop⟩ := span_append hds hrest
  obtain ⟨b, l, hl⟩ := List.exists_cons_of_ne_nil (decimal_ne_nil n)
  have hb : isdigit b = true := hds b (by rw [hl]; exact List.mem_cons_self)
  have hplain := plain_digit hb
  have hspace : (decimal n ++ rest).dropWhile isspace = decimal n ++ rest := by
    rw [hl, List.cons_append, List.dropWhile_cons_of_neg (by simp [hplain.1])]
  have hhead : (decimal n ++ rest).head? = some b := by rw [hl]; rfl
  have hminus : ¬ some b = some DASH := fun h => hplain.2.1 (Option.some.inj h)
  have hplus : ¬ some b = some (0x2b : UInt8) := fun h => hplain.2.2 (Option.some.inj h)
  have hany : (some b).any isdigit = true := hb
  have hmin : min (n : Int) (2 ^ 63 - 1) = n := by omega
  unfold scanInt
  simp only [hspace, hhead, hminus, hplus, or_self, if_false, hany, if_true, htake, hdrop, number_decimal, hmin]
  rfl

/-- `.%d` -/
def scanDotInt (s : Str) : Option (BitVec 32 × Str) := if s.head? = some DOT then scanInt s.tail else none

def myinetAton (s : Str) : BitVec 64 :=
  let quad := do
    let (a, s) ← scanInt s
    let (b, s) ← scanDotInt s
    let (c, s) ← scanDotInt s
    let (d, _) ← scanDotInt s
    return ((a <<< 24) + (b <<< 16) + (c <<< 8) + d).signExtend 64
  quad.getD 0

def whereas (asn : Int) (aslist : List AsDel) : Str :=
  ((aslist.find? fun a => (a.first : Int) ≤ asn && asn ≤ a.last).map AsDel.serv).getD (text "whois.arin.net")

/-- "search for strings at the start of the word" -/
def nicHandle (s : Str) : List (Str × Str) → Except Fault Str
  | [] => .ok (text "whois.arin.net")
  | (name, serv) :: l => do if ← beginsAt s 0 name then .ok serv else nicHandle s l

/-- "no dot and no hyphen means it's a NSI NIC handle or ASN (?)" -/
def whichHandle (tables : Tables) (s : Str) : Except Fault Str := do
  let p := s.length
  if ← isAs (fun c => isdigit c || c == BLANK) s then
    let asn := ((scanInt (s.drop 2)).map Prod.fst).getD 0
    .ok (whereas asn.toInt tables.as_assign)
  else if ← beginsAt s ((p : Int) - 2) (text "jp") then .ok (text "whois.nic.ad.jp")
  else if (← charAt s p) = BANG then .ok (text "whois.networksolutions.com")
  else .ok []

def whichwhois (tables : Tables) (s : Str) : Except Fault Str := do
  if s = [] then .ok (text "whois.ripe.net")
  else if COLON ∈ s then
    if ← beginsAt s 0 (text "2001:2") then .ok (text "whois.apnic.net")
    else if ← beginsAt s 0 (text "2001:4") then .ok (text "whois.arin.net")
    else if ← beginsAt s 0 (text "2001:6") then .ok (text "whois.ripe.net")
    else .ok (text "whois.6bone.net")
  else if AT ∈ s then .ok []
  else if DOT ∉ s ∧ DASH ∉ s then whichHandle tables s
  else if myinetAton s ≠ 0 then
    let ip := myinetAton s
    .ok (((tables.ip_assign.find? fun a => ip &&& a.mask == a.net).map IpDel.serv).getD (text "whois.arin.net"))
  else
    match ← firstTld s Prod.fst tables.tld_serv with
    | some (_, serv) => .ok serv
    | none => if DOT ∉ s then nicHandle s NIC_HANDLES else .ok []

/-! ## queryformat -/

/-- What queryformat and main read from the environment. -/
structure Env where
  LANG : Option Str
  WHOIS_SERVER : Option Str
  WHOIS_HIDE : Bool

/-- "+10 for CORE; +2 for \r\n; +1 for NULL" -/
def bufSize (flags query : Str) : Nat := flags.length + query.length + 10 + 2 + 1

def IDSTRING : Str := text "Md4.5"

def isripe (server : Str) : Bool := RIPE_SERVERS.contains server || RIPE_SERVERS_OLD.contains server

/-- What a server like RIPE's gets first. -/
def putVersion (size : Nat) (server : Str) : Except Fault Str :=
  if RIPE_SERVERS.contains server then inside .buf size (text "-V " ++ IDSTRING ++ [BLANK])
  else if RIPE_SERVERS_OLD.contains server then inside .buf size (text "-V" ++ IDSTRING ++ [BLANK])
  else .ok []

def putFlags (size : Nat) (server flags buf : Str) : Except Fault Str :=
  if flags = [] then .ok buf
  else if !isripe server && server != text "whois.corenic.net" then .ok buf  -- "RIPE flags ignored"
  else inside .buf size (buf ++ flags)

/-- A number that ARIN wants behind a blank. -/
def arinAs (server query : Str) : Except Fault Bool :=
  if !isripe server && (server == text "whois.arin.net" || server == text "whois.nic.mil") then isAs isdigit query else .ok false

/-- The query, printed over buf or appended. -/
def putQuery (env : Env) (size : Nat) (server query buf : Str) : Except Fault Str := do
  if ← arinAs server query then inside .buf size (text "AS " ++ query.drop 2)
  else if !isripe server && server == text "whois.corenic.net" then inside .buf size (text "--machine " ++ query)
  else if !isripe server && server == text "whois.ncst.ernet.in" && !query.contains BLANK then
    inside .buf size (text "domain " ++ query)
  else if !isripe server && server == text "whois.nic.ad.jp" && !env.LANG.any (text "ja").isPrefixOf then
    inside .buf size (query ++ text "/e")
  else inside .buf size (buf ++ query)

def queryformat (env : Env) (server flags query : Str) : Except Fault Str := do
  let size := bufSize flags query
  let buf ← putVersion size server
  let buf ← putFlags size server flags buf
  putQuery env size server query buf

/-! ## main -/

/-- An option, as getopt_long returns it: 0 for --help, 1 for --version, `?` for what it does not
    know, else the letter; and optarg, of those that take an argument. -/
structure Opt where
  ch : UInt8
  optarg : Str

/-- The options, and the words that remain. -/
structure CommandLine where
  options : List Opt
  words : List Str

/-- The variables of main. -/
structure Settings where
  fstring : Str
  nopar : Bool
  server : Option Str
  port : Option Str
  hide_discl : Nat
  verb : Bool

def Settings.start : Settings := ⟨[], false, none, none, 2, false⟩

/-- `sizeof (fstring)` -/
def FSTRING : Nat := 64

def ripeflags : Str := text "acFlLmMrRSx"
def ripeflagsp : Str := text "gisTtvq"

/-- What an option appends to fstring. -/
def flag (o : Opt) : Str :=
  if o.ch ∈ ripeflags then [DASH, o.ch, BLANK]
  else if o.ch ∈ ripeflagsp then [DASH, o.ch, BLANK] ++ o.optarg ++ [BLANK]
  else []

/-- "program flags"; `none` where it exits. -/
def programFlag (m : Settings) (o : Opt) : Option Settings :=
  if o.ch = 0x68 then  -- h
    let port := o.optarg.dropWhile (· ≠ COLON)
    some { m with
      server := some ((o.optarg.takeWhile (· ≠ COLON)).map tolower)
      port := if port = [] then m.port else some port.tail }
  else if o.ch = 0x48 then some { m with hide_discl := 0 }  -- H
  else if o.ch = 0x70 then some { m with port := some o.optarg }  -- p
  else if o.ch = 0x56 then some { m with verb := true }  -- V
  else none

/-- `while ((ch = getopt_long (...)) > 0)`; `none` where the program exits. -/
def optionLoop (m : Settings) : List Opt → Except Fault (Option Settings)
  | [] => .ok (some m)
  | o :: os =>
    if o.ch = 0 then .ok (some m)
    else if o.ch ∈ ripeflags then do
      let fstring ← inside .fstring FSTRING (m.fstring ++ flag o)
      optionLoop { m with fstring := fstring } os
    else if o.ch ∈ ripeflagsp then do
      let fstring ← inside .fstring FSTRING (m.fstring ++ flag o)
      optionLoop { m with fstring := fstring, nopar := m.nopar || (text "tvq").contains o.ch } os
    else
      match programFlag m o with
      | some m => optionLoop m os
      | none => .ok none

/-- `realloc (qstring, qslen)`: an int that is negative asks for more than there is. -/
def realloc (qslen : BitVec 32) : Except Fault Nat :=
  let size := (qslen.signExtend 64).toNat
  if 0 < size ∧ size < 2 ^ 63 then .ok size else .error .null

/-- "parse other parameters, if any": `argv` has words left. -/
def qstringLoop (qstring : Str) (qslen : BitVec 32) : List Str → Except Fault Str
  | [] => .ok qstring
  | word :: words => do
    let qslen := qslen + BitVec.ofNat 32 (word.length + 1)
    let size ← realloc qslen
    let qstring ← inside .qstring size (qstring ++ word)
    if words = [] then .ok qstring
    else do
      let qstring ← inside .qstring size (qstring ++ [BLANK])
      qstringLoop qstring qslen words

def DEFAULTSERVER : Str := text "whois.internic.net"

/-- `switch (server[0])`: the server to ask, if there is one. -/
def chosen (env : Env) (server : Str) : Option Str :=
  match server with
  | [] => some (env.WHOIS_SERVER.getD DEFAULTSERVER)
  | c :: _ => if c = 1 ∨ c = 2 ∨ c = 3 then none else some server

/-- The server; `crsnic` is what query_crsnic returns. -/
def findServer (tables : Tables) (env : Env) (crsnic : Option Str) (server : Option Str) (qstring : Str) :
    Except Fault (Option Str) :=
  match server with
  | some server => .ok (some server)
  | none => do
    if ← domfind qstring GTLDS then .ok crsnic else (whichwhois tables qstring).map (chosen env)

/-- What is sent, and to whom. -/
structure Asked where
  server : Str
  port : Option Str
  p : Str
  hide_discl : Nat
  verb : Bool

/-- qstring -/
def queryOf (m : Settings) (words : List Str) : Except Fault Str := if m.nopar then .ok [] else qstringLoop [] 0 words

/-- From queryformat to the CR LF behind it. -/
def asked (env : Env) (m : Settings) (server qstring : Str) : Except Fault Asked := do
  let p ← queryformat env server m.fstring qstring
  let p ← inside .buf (bufSize m.fstring qstring) (p ++ text "\r\n")
  .ok ⟨server, m.port, p, if env.WHOIS_HIDE then 0 else m.hide_discl, m.verb⟩

/-- main behind the options; `none` where it exits before it connects. -/
def ask (tables : Tables) (env : Env) (crsnic : Option Str) (m : Settings) (words : List Str) : Except Fault (Option Asked) := do
  let qstring ← queryOf m words
  match ← findServer tables env crsnic m.server qstring with
  | none => .ok none
  | some server => some <$> asked env m server qstring

/-- main, up to the connection. -/
def main (tables : Tables) (env : Env) (crsnic : Option Str) (cl : CommandLine) : Except Fault (Option Asked) := do
  match ← optionLoop .start cl.options with
  | none => .ok none
  | some m => if cl.words = [] ∧ m.nopar = false then .ok none else ask tables env crsnic m cl.words

/-! ## What a command line asks for -/

/-- The option ends the loop, or the program. -/
def Opt.ends (o : Opt) : Bool :=
  o.ch = 0 || !(ripeflags.contains o.ch || ripeflagsp.contains o.ch || (text "hHpV").contains o.ch)

/-- The options that are looked at, but for the one that ends the loop. -/
def seen (options : List Opt) : List Opt := options.takeWhile (!·.ends)

/-- The program ends with the options: one is neither known nor --help. -/
def Exits (options : List Opt) : Prop := ∃ o, (options.find? Opt.ends) = some o ∧ o.ch ≠ 0

/-- What the options make of fstring. -/
def flagText (options : List Opt) : Str := (seen options).flatMap flag

/-- A `-t`, `-v` or `-q` asks without words. -/
def NoPar (options : List Opt) : Prop := ∃ o ∈ seen options, o.ch ∈ text "tvq"

def HasServer (options : List Opt) : Prop := ∃ o ∈ seen options, o.ch = 0x68

/-- The words become a query. -/
def AsksWords (cl : CommandLine) : Prop := ¬ Exits cl.options ∧ ¬ NoPar cl.options ∧ cl.words ≠ []

/-- The flags fit in fstring; and of a query of words there is one, which an int measures, and
    more than a character if whichwhois takes it for a handle. -/
structure Fits (cl : CommandLine) : Prop where
  flags : (flagText cl.options).length < FSTRING
  words : AsksWords cl → ∃ word, cl.words = [word] ∧ word.length + 1 < 2 ^ 31 ∧
    (HasServer cl.options ∨ ∀ c, word = [c] → c ∈ [COLON, AT, DOT, DASH])

/-! ## Reading -/

variable {s t dom tld flags query : Str} {i : Int} {n : Nat} {e : Fault}

theorem returns_inside {P : Str → Prop} : Returns P (inside e n s) ↔ s.length < n ∧ P s := by
  unfold inside
  split
  · rename_i h
    simp [h]
  · rename_i h
    simp [h]

theorem inside_of_lt (h : s.length < n) : inside e n s = .ok s := if_pos h

theorem charAt_nat {i : Nat} (h : i ≤ s.length) : charAt s i = .ok (s.getD i 0) := by
  rw [charAt, if_pos (by omega)]
  rfl

/-- A string is read up to its NUL, if no NUL is looked for. -/
theorem beginsAt_nat {i : Nat} (hi : i ≤ s.length) (ht : 0 ∉ t) :
    ∃ b, beginsAt s i t = .ok b ∧ (b = true → i + t.length ≤ s.length) := by
  induction t generalizing i with
  | nil => exact ⟨true, rfl, fun _ => hi⟩
  | cons d t ih =>
    rw [List.mem_cons, not_or] at ht
    rw [beginsAt, charAt_nat hi]
    simp only [bind, Except.bind]
    split
    · rename_i heq
      have hlt : i + 1 ≤ s.length := by
        by_contra hend
        have hnul : s.getD i 0 = 0 := by simp [List.getD, List.getElem?_eq_none (show s.length ≤ i by omega)]
        rw [hnul] at heq
        exact ht.1 (tolower_eq_zero_iff.mp heq.symm).symm
      obtain ⟨b, hb, hlen⟩ := ih hlt ht.2
      refine ⟨b, hb, fun h => ?_⟩
      have := hlen h
      rw [List.length_cons]
      omega
    · exact ⟨false, rfl, nofun⟩

theorem beginsAt_ok {i : Nat} (hi : i ≤ s.length) (ht : 0 ∉ t) : ∃ b, beginsAt s i t = .ok b := by
  obtain ⟨b, hb, -⟩ := beginsAt_nat hi ht
  exact ⟨b, hb⟩

theorem beginsAt_start (s : Str) (ht : 0 ∉ t) : ∃ b, beginsAt s 0 t = .ok b := beginsAt_ok (Nat.zero_le s.length) ht

theorem isAs_ok (next : UInt8 → Bool) (s : Str) : ∃ b, isAs next s = .ok b := by
  obtain ⟨b, hb, hlen⟩ := beginsAt_nat (Nat.zero_le s.length) (t := text "as") (by decide)
  rw [isAs, show beginsAt s 0 (text "as") = .ok b from hb]
  refine ok_ite (fun h => ?_) fun _ => ⟨false, rfl⟩
  have htwo : 2 ≤ s.length := (Nat.zero_add 2).symm ▸ hlen h
  exact ⟨next (s.getD 2 0), by rw [show charAt s 2 = .ok (s.getD 2 0) from charAt_nat htwo]; rfl⟩

theorem beginsAt_before (hi : i < 0) {d : UInt8} : beginsAt s i (d :: t) = .error .char := by
  rw [beginsAt, charAt, if_neg (by omega)]
  rfl

theorem concat_suffix_concat {l l' : Str} {c d : UInt8} : l ++ [c] <:+ l' ++ [d] ↔ d = c ∧ l <:+ l' := by
  rw [List.suffix_concat_iff]
  constructor
  · rintro (hnil | ⟨t, heq, ht⟩)
    · simp at hnil
    · obtain ⟨rfl, hc⟩ := List.append_inj' heq rfl
      exact ⟨(List.singleton_inj.mp hc).symm, ht⟩
  · rintro ⟨rfl, hl⟩
    exact .inr ⟨l, rfl, hl⟩

theorem take_concat {i : Nat} (h : i < s.length) : s.take (i + 1) = s.take i ++ [s.getD i 0] := by
  rw [List.take_add_one, List.getElem?_eq_getElem h, List.getD, List.getElem?_eq_getElem h]
  rfl

/-- The comparison, when i characters of the one and j of the other are left. -/
theorem domcmpLoop_eq (dom tld : Str) {i j : Nat} (hi : i ≤ dom.length) (hj : j ≤ tld.length) (hn : j ≤ n) :
    domcmpLoop dom tld n ((i : Int) - 1) ((j : Int) - 1) =
      .ok (decide (j ≠ 0 ∧ tld.take j <:+ (dom.take i).map tolower)) := by
  induction n generalizing i j with
  | zero =>
    obtain rfl := Nat.le_zero.mp hn
    rfl
  | succ n ih =>
    rw [domcmpLoop]
    cases j with
    | zero =>
      rw [if_neg (by omega)]
      simp
    | succ j =>
      rw [take_concat hj]
      cases i with
      | zero =>
        rw [if_neg (by omega)]
        simp
      | succ i =>
        have hp : ((i + 1 : Nat) : Int) - 1 = (i : Int) := by omega
        have hq : ((j + 1 : Nat) : Int) - 1 = (j : Int) := by omega
        rw [if_pos (by omega), hp, hq, charAt_nat (by omega), charAt_nat (by omega), take_concat hi, List.map_append]
        simp only [bind, Except.bind, List.map_cons, List.map_nil, concat_suffix_concat]
        generalize tolower (dom.getD i 0) = c, tld.getD j 0 = d
        by_cases heq : c = d
        · rw [if_pos heq]
          cases j with
          | zero => simp [heq]
          | succ j =>
            rw [if_neg (by omega), ih (by omega) (by omega) (by omega)]
            simp [heq]
        · rw [if_neg heq]
          simp [heq]

/-- "check if dom ends with tld" -/
theorem domcmp_eq (dom tld : Str) : domcmp dom tld = .ok (decide (tld ≠ [] ∧ tld <:+ dom.map tolower)) := by
  rw [domcmp, domcmpLoop_eq dom tld (Nat.le_refl _) (Nat.le_refl _) (Nat.le_refl _), List.take_length, List.take_length]
  simp [List.length_eq_zero_iff]

theorem firstTld_ok {α : Type} (dom : Str) (key : α → Str) (rows : List α) : ∃ r, firstTld dom key rows = .ok r := by
  induction rows with
  | nil => exact ⟨none, rfl⟩
  | cons row rows ih =>
    rw [firstTld, domcmp_eq]
    simp only [bind, Except.bind]
    split
    · exact ⟨some row, rfl⟩
    · exact ih

theorem firstTld_none {α : Type} {dom : Str} {key : α → Str} {rows : List α}
    (h : ∀ row ∈ rows, domcmp dom (key row) = .ok false) : firstTld dom key rows = .ok none := by
  induction rows with
  | nil => rfl
  | cons row rows ih =>
    rw [firstTld, h row List.mem_cons_self]
    exact ih fun row hrow => h row (List.mem_cons_of_mem _ hrow)

/-- No character alone is a domain. -/
theorem domfind_char (c : UInt8) : domfind [c] GTLDS = .ok false := by
  have hfour : ∀ tld ∈ GTLDS, tld.length = 4 := by decide
  have hnone : firstTld [c] id GTLDS = .ok none := by
    apply firstTld_none
    intro tld htld
    rw [domcmp_eq]
    refine congrArg Except.ok (decide_eq_false fun h => ?_)
    have hle := h.2.length_le
    simp only [id_eq, hfour tld htld, List.length_map, List.length_cons, List.length_nil] at hle
    omega
  rw [domfind, hnone]
  rfl

theorem domfind_ok (dom : Str) (tldlist : List Str) : ∃ b, domfind dom tldlist = .ok b := by
  obtain ⟨r, hr⟩ := firstTld_ok dom id tldlist
  exact ⟨r.isSome, by rw [domfind, hr]; rfl⟩

/-! ## The server -/

theorem nicHandle_ok {l : List (Str × Str)} (hl : ∀ p ∈ l, 0 ∉ p.1) (s : Str) : ∃ r, nicHandle s l = .ok r := by
  induction l with
  | nil => exact ⟨_, rfl⟩
  | cons p l ih =>
    obtain ⟨name, serv⟩ := p
    obtain ⟨b, hb⟩ := beginsAt_start s (hl _ List.mem_cons_self)
    rw [nicHandle, hb]
    simp only [bind, Except.bind]
    split
    · exact ⟨serv, rfl⟩
    · exact ih fun p hp => hl p (List.mem_cons_of_mem _ hp)

/-- A handle of two characters or more. -/
theorem whichHandle_long (tables : Tables) (hs : 2 ≤ s.length) : ∃ r, whichHandle tables s = .ok r := by
  have hjp : ∃ b, beginsAt s ((s.length : Int) - 2) (text "jp") = .ok b := by
    rw [show (s.length : Int) - 2 = ((s.length - 2 : Nat) : Int) by omega]
    exact beginsAt_ok (Nat.sub_le _ _) (by decide)
  refine ok_bind (isAs_ok _ s) fun digit => ok_ite (fun _ => ⟨_, rfl⟩) fun _ => ?_
  refine ok_bind hjp fun isJp => ok_ite (fun _ => ⟨_, rfl⟩) fun _ => ?_
  exact ok_bind ⟨_, charAt_nat (Nat.le_refl _)⟩ fun c => ok_ite (fun _ => ⟨_, rfl⟩) fun _ => ⟨[], rfl⟩

/-- Of one character: the one before it is looked at. -/
theorem whichHandle_char (tables : Tables) (c : UInt8) : whichHandle tables [c] = .error .char := by
  have has : ∀ next, isAs next [c] = .ok false := by
    intro next
    obtain ⟨b, hb, hlen⟩ := beginsAt_nat (s := [c]) (Nat.zero_le _) (t := text "as") (by decide)
    cases b with
    | false => rw [isAs, show beginsAt [c] 0 (text "as") = .ok false from hb]; rfl
    | true => exact absurd (hlen rfl) (by show ¬ 2 ≤ 1; decide)
  have hjp : beginsAt [c] (([c].length : Int) - 2) (text "jp") = .error .char := beginsAt_before (by simp)
  rw [whichHandle, has]
  simp only [bind, Except.bind, Bool.false_eq_true, if_false]
  rw [hjp]

/-- whichwhois keeps to the query, but for a handle of one character. -/
theorem whichwhois_iff (tables : Tables) (s : Str) :
    (∃ r, whichwhois tables s = .ok r) ↔ ∀ c, s = [c] → c ∈ [COLON, AT, DOT, DASH] := by
  constructor
  · rintro ⟨r, hr⟩ c rfl
    by_contra hc
    simp only [List.mem_cons, List.not_mem_nil, or_false, not_or] at hc
    obtain ⟨hcolon, hat, hdot, hdash⟩ := hc
    rw [whichwhois, if_neg (by simp), if_neg (by simpa using Ne.symm hcolon), if_neg (by simpa using Ne.symm hat),
      if_pos ⟨by simpa using Ne.symm hdot, by simpa using Ne.symm hdash⟩, whichHandle_char] at hr
    cases hr
  · intro hs
    have htext : ∀ {t : Str}, 0 ∉ t → ∃ b, beginsAt s 0 t = .ok b := beginsAt_start s
    refine ok_ite (fun _ => ⟨_, rfl⟩) fun hne => ok_ite (fun _ => ?_) fun hcolon => ok_ite (fun _ => ⟨_, rfl⟩) fun hat =>
      ok_ite (fun hplain => ?_) fun _ => ok_ite (fun _ => ⟨_, rfl⟩) fun _ => ?_
    · refine ok_bind (htext (by decide)) fun b => ok_ite (fun _ => ⟨_, rfl⟩) fun _ => ?_
      refine ok_bind (htext (by decide)) fun b => ok_ite (fun _ => ⟨_, rfl⟩) fun _ => ?_
      exact ok_bind (htext (by decide)) fun b => ok_ite (fun _ => ⟨_, rfl⟩) fun _ => ⟨_, rfl⟩
    · -- neither empty nor one character
      apply whichHandle_long
      by_contra hshort
      obtain ⟨c, rfl⟩ : ∃ c, s = [c] := by
        obtain ⟨c, t, rfl⟩ := List.exists_cons_of_ne_nil hne
        obtain rfl : t = [] := List.length_eq_zero_iff.mp (by rw [List.length_cons] at hshort; omega)
        exact ⟨c, rfl⟩
      have hmem := hs c rfl
      simp only [List.mem_singleton] at hcolon hat hplain
      simp only [List.mem_cons, List.not_mem_nil, or_false] at hmem
      rcases hmem with rfl | rfl | rfl | rfl
      · exact hcolon rfl
      · exact hat rfl
      · exact hplain.1 rfl
      · exact hplain.2 rfl
    · refine ok_bind (firstTld_ok s Prod.fst tables.tld_serv) fun row => ?_
      cases row with
      | some row => exact ⟨_, rfl⟩
      | none => exact ok_ite (fun _ => nicHandle_ok (by decide) s) fun _ => ⟨[], rfl⟩

/-! ## queryformat -/

theorem returns_putVersion (hn : 10 ≤ n) (server : Str) : Returns (fun buf => buf.length ≤ 9) (putVersion n server) := by
  have hnew : (text "-V " ++ IDSTRING ++ [BLANK]).length = 9 := by decide
  have hold : (text "-V" ++ IDSTRING ++ [BLANK]).length = 8 := by decide
  unfold putVersion
  simp only [returns_ite, returns_inside, returns_ok, hnew, hold, List.length_nil]
  omega

theorem returns_putFlags {buf : Str} (hn : 10 + flags.length ≤ n) (hbuf : buf.length ≤ 9) (server : Str) :
    Returns (fun buf => buf.length ≤ 9 + flags.length) (putFlags n server flags buf) := by
  unfold putFlags
  simp only [returns_ite, returns_inside, returns_ok, List.length_append]
  omega

theorem returns_putQuery {buf : Str} (hn : flags.length + query.length + 13 ≤ n) (hbuf : buf.length ≤ 9 + flags.length)
    (env : Env) (server : Str) : Returns (fun p => p.length + 2 < n) (putQuery env n server query buf) := by
  have has : (text "AS ").length = 3 := by decide
  have hmachine : (text "--machine ").length = 10 := by decide
  have hdomain : (text "domain ").length = 7 := by decide
  have he : (text "/e").length = 2 := by decide
  obtain ⟨digit, hdigit⟩ : ∃ digit, arinAs server query = .ok digit :=
    ok_ite (fun _ => isAs_ok isdigit query) fun _ => ⟨false, rfl⟩
  rw [putQuery, hdigit, returns_bind, returns_ok]
  simp only [returns_ite, returns_inside, List.length_append, List.length_drop, has, hmachine, hdomain, he]
  omega

/-- The string has room for the CR LF. -/
theorem queryformat_spec (env : Env) (server flags query : Str) :
    Returns (fun p => p.length + 2 < bufSize flags query) (queryformat env server flags query) := by
  have hsize : bufSize flags query = flags.length + query.length + 13 := rfl
  rw [queryformat, returns_bind]
  refine (returns_putVersion (by omega) server).mono fun buf hbuf => ?_
  rw [returns_bind]
  refine (returns_putFlags (by omega) hbuf server).mono fun buf hbuf => ?_
  exact returns_putQuery (Nat.le_of_eq hsize.symm) hbuf env server

/-! ## The options -/

variable {m : Settings} {o : Opt} {os : List Opt}

theorem ends_iff (o : Opt) : o.ends = true ↔ o.ch = 0 ∨ o.ch ∉ ripeflags ∧ o.ch ∉ ripeflagsp ∧ o.ch ∉ text "hHpV" := by
  simp [Opt.ends, and_assoc]

/-- The program's own flags. -/
theorem programFlag_spec (m : Settings) (o : Opt) :
    (o.ch ∉ text "hHpV" ∧ programFlag m o = none) ∨
    (o.ch ∈ text "hHpV" ∧ ∃ m', programFlag m o = some m' ∧ m'.fstring = m.fstring ∧ m'.nopar = m.nopar ∧
      m'.server.isSome = (m.server.isSome || o.ch == 0x68)) := by
  have htext : text "hHpV" = [0x68, 0x48, 0x70, 0x56] := by decide
  rw [htext, programFlag]
  by_cases hh : o.ch = 0x68
  · exact .inr ⟨by simp [hh], _, if_pos hh, rfl, rfl, by simp [hh]⟩
  rw [if_neg hh]
  by_cases hH : o.ch = 0x48
  · exact .inr ⟨by simp [hH], _, if_pos hH, rfl, rfl, by simp [hH]⟩
  rw [if_neg hH]
  by_cases hp : o.ch = 0x70
  · exact .inr ⟨by simp [hp], _, if_pos hp, rfl, rfl, by simp [hp]⟩
  rw [if_neg hp]
  by_cases hV : o.ch = 0x56
  · exact .inr ⟨by simp [hV], _, if_pos hV, rfl, rfl, by simp [hV]⟩
  · exact .inl ⟨by simp [hh, hH, hp, hV], if_neg hV⟩

/-- One option: the end of the loop or the program, or a flag for fstring (an empty one at times). -/
theorem optionLoop_cons (hm : m.fstring.length < FSTRING) (o : Opt) (os : List Opt) :
    (o.ends = true ∧ optionLoop m (o :: os) = .ok (if o.ch = 0 then some m else none)) ∨
    (o.ends = false ∧ ∃ m' : Settings, m'.nopar = (m.nopar || (text "tvq").contains o.ch) ∧
      m'.server.isSome = (m.server.isSome || o.ch == 0x68) ∧
      optionLoop m (o :: os) =
        inside .fstring FSTRING (m.fstring ++ flag o) >>= fun f => optionLoop { m' with fstring := f } os) := by
  have hplain : ∀ c ∈ ripeflags ++ text "hHpV", c ∉ text "tvq" := by decide +kernel
  have hserver : ∀ c ∈ ripeflags ++ ripeflagsp, c ≠ 0x68 := by decide +kernel
  rw [optionLoop]
  by_cases hzero : o.ch = 0
  · exact .inl ⟨(ends_iff o).mpr (.inl hzero), by rw [if_pos hzero, if_pos hzero]⟩
  rw [if_neg hzero, if_neg hzero]
  by_cases hflag : o.ch ∈ ripeflags
  · have hends : ¬ o.ends = true := by simp [ends_iff, hzero, hflag]
    have htvq := hplain o.ch (List.mem_append_left _ hflag)
    have hh := hserver o.ch (List.mem_append_left _ hflag)
    exact .inr ⟨Bool.eq_false_iff.mpr hends, m, by simp [htvq], by simp [hh], by rw [if_pos hflag]⟩
  rw [if_neg hflag]
  by_cases hflagp : o.ch ∈ ripeflagsp
  · have hends : ¬ o.ends = true := by simp [ends_iff, hzero, hflagp]
    have hh := hserver o.ch (List.mem_append_right _ hflagp)
    refine .inr ⟨Bool.eq_false_iff.mpr hends, { m with nopar := m.nopar || (text "tvq").contains o.ch }, rfl, ?_, ?_⟩
    · simp [hh]
    · rw [if_pos hflagp]
  · rw [if_neg hflagp]
    rcases programFlag_spec m o with ⟨hnot, hnone⟩ | ⟨hmem, m', hsome, hf, hn, hs⟩
    · exact .inl ⟨(ends_iff o).mpr (.inr ⟨hflag, hflagp, hnot⟩), by rw [hnone]⟩
    · have hends : ¬ o.ends = true := by simp [ends_iff, hzero, hmem]
      have htvq := hplain o.ch (List.mem_append_right _ hmem)
      refine .inr ⟨Bool.eq_false_iff.mpr hends, m', by simp [hn, htvq], hs, ?_⟩
      have hnil : m.fstring ++ flag o = m.fstring := by rw [flag, if_neg hflag, if_neg hflagp, List.append_nil]
      rw [hsome, hnil, inside_of_lt hm, ← hf]
      rfl

@[simp] theorem seen_nil : seen [] = [] := rfl

theorem seen_ends (h : o.ends = true) : seen (o :: os) = [] := by simp [seen, h]

theorem seen_cons (h : o.ends = false) : seen (o :: os) = o :: seen os := by simp [seen, h]

theorem exits_ends (h : o.ends = true) : Exits (o :: os) ↔ o.ch ≠ 0 := by simp [Exits, h]

theorem exits_cons (h : o.ends = false) : Exits (o :: os) ↔ Exits os := by simp [Exits, h]

/-- Flags for which there is no room. -/
theorem optionLoop_overflow (hm : m.fstring.length < FSTRING) (h : FSTRING ≤ (m.fstring ++ flagText os).length) :
    optionLoop m os = .error .fstring := by
  induction os generalizing m with
  | nil => simp [flagText] at h; omega
  | cons o os ih =>
    rcases optionLoop_cons hm o os with ⟨hends, -⟩ | ⟨hends, m', -, -, hloop⟩
    · simp [flagText, seen_ends hends] at h
      omega
    · have htext : m.fstring ++ flagText (o :: os) = (m.fstring ++ flag o) ++ flagText os := by
        simp [flagText, seen_cons hends]
      rw [htext] at h
      rw [hloop]
      by_cases hfits : (m.fstring ++ flag o).length < FSTRING
      · rw [inside_of_lt hfits]
        exact ih hfits h
      · rw [inside, if_neg hfits]
        rfl

/-- What the options come to. -/
theorem optionLoop_fits (h : (m.fstring ++ flagText os).length < FSTRING) :
    (Exits os ∧ optionLoop m os = .ok none) ∨
    (¬ Exits os ∧ ∃ m', optionLoop m os = .ok (some m') ∧ m'.fstring = m.fstring ++ flagText os ∧
      (m'.nopar = true ↔ m.nopar = true ∨ NoPar os) ∧
      (m'.server.isSome = true ↔ m.server.isSome = true ∨ HasServer os)) := by
  have hm : m.fstring.length < FSTRING := by rw [List.length_append] at h; omega
  induction os generalizing m with
  | nil => exact .inr ⟨by simp [Exits], m, rfl, by simp [flagText], by simp [NoPar], by simp [HasServer]⟩
  | cons o os ih =>
    rcases optionLoop_cons hm o os with ⟨hends, hloop⟩ | ⟨hends, m', hn, hs, hloop⟩
    · rw [hloop, exits_ends hends]
      by_cases hzero : o.ch = 0
      · refine .inr ⟨not_not_intro hzero, m, by rw [if_pos hzero], ?_, ?_, ?_⟩
        · simp [flagText, seen_ends hends]
        · simp [NoPar, seen_ends hends]
        · simp [HasServer, seen_ends hends]
      · exact .inl ⟨hzero, by rw [if_neg hzero]⟩
    · have htext : m.fstring ++ flagText (o :: os) = (m.fstring ++ flag o) ++ flagText os := by
        simp [flagText, seen_cons hends]
      rw [htext] at h ⊢
      have hfits : (m.fstring ++ flag o).length < FSTRING := by
        rw [List.length_append] at h
        omega
      rw [hloop, inside_of_lt hfits, exits_cons hends]
      rcases ih (m := { m' with fstring := m.fstring ++ flag o }) h hfits with hexit | ⟨hnot, t, ht, hf, hn', hs'⟩
      · exact .inl hexit
      · refine .inr ⟨hnot, t, ht, hf, ?_, ?_⟩
        · rw [hn']
          simp [NoPar, seen_cons hends, hn, or_assoc]
        · rw [hs']
          simp [HasServer, seen_cons hends, hs, or_assoc]

/-! ## The words -/

theorem realloc_eq (k : Nat) :
    realloc (BitVec.ofNat 32 k) = if 0 < k % 2 ^ 32 ∧ k % 2 ^ 32 < 2 ^ 31 then .ok (k % 2 ^ 32) else .error .null := by
  have hsize : ((BitVec.ofNat 32 k).signExtend 64).toNat = k % 2 ^ 32 + if 2 ^ 31 ≤ k % 2 ^ 32 then 2 ^ 64 - 2 ^ 32 else 0 := by
    rw [BitVec.toNat_signExtend, BitVec.toNat_setWidth, BitVec.toNat_ofNat, BitVec.msb_eq_decide, BitVec.toNat_ofNat]
    simp only [decide_eq_true_eq, show 2 ^ (32 - 1) = 2 ^ 31 from rfl]
    omega
  simp only [realloc, hsize]
  by_cases hneg : 2 ^ 31 ≤ k % 2 ^ 32
  · rw [if_pos hneg, if_neg (by omega), if_neg (by omega)]
  · rw [if_neg hneg, Nat.add_zero]
    split
    · rw [if_pos (by omega)]
    · rw [if_neg (by omega)]

/-- A word fits, if an int measures it; the blank behind it takes the place of its NUL. -/
theorem qstringLoop_iff (word : Str) (words : List Str) :
    (∃ r, qstringLoop [] 0 (word :: words) = .ok r) ↔ words = [] ∧ word.length + 1 < 2 ^ 31 := by
  rw [qstringLoop, BitVec.ofNat_eq_ofNat, BitVec.zero_add, realloc_eq]
  constructor
  · rintro ⟨r, hr⟩
    split at hr
    · rename_i hint
      simp only [bind, Except.bind, List.nil_append] at hr
      by_cases hfits : word.length < (word.length + 1) % 2 ^ 32
      · rw [inside_of_lt hfits] at hr
        simp only at hr
        by_cases hlast : words = []
        · exact ⟨hlast, by omega⟩
        · -- the NUL goes behind the end
          rw [if_neg hlast, inside, if_neg (by rw [List.length_append, List.length_singleton]; omega)] at hr
          cases hr
      · rw [inside, if_neg hfits] at hr
        cases hr
    · cases hr
  · rintro ⟨rfl, hlen⟩
    refine ⟨word, ?_⟩
    rw [if_pos (by omega), Nat.mod_eq_of_lt (by omega)]
    simp only [bind, Except.bind, List.nil_append]
    rw [inside_of_lt (Nat.lt_succ_self _)]
    rfl

theorem qstringLoop_word {word r : Str} (h : qstringLoop [] 0 [word] = .ok r) : r = word := by
  rw [qstringLoop] at h
  cases hsize : realloc (0 + BitVec.ofNat 32 (word.length + 1)) with
  | error e => rw [hsize] at h; cases h
  | ok size =>
    rw [hsize] at h
    simp only [bind, Except.bind, List.nil_append, inside] at h
    split at h
    · cases h
    · rename_i hfits
      split at hfits
      · cases hfits
        exact (Except.ok.inj h).symm
      · cases hfits

/-! ## main -/

/-- Where the server is not given, whichwhois chooses it, or the registry. -/
theorem findServer_iff (tables : Tables) (env : Env) (crsnic server : Option Str) (qstring : Str) :
    (∃ r, findServer tables env crsnic server qstring = .ok r) ↔
      server.isSome = true ∨ ∀ c, qstring = [c] → c ∈ [COLON, AT, DOT, DASH] := by
  cases server with
  | some server => exact iff_of_true ⟨some server, rfl⟩ (.inl rfl)
  | none =>
    obtain ⟨found, hfound⟩ := domfind_ok qstring GTLDS
    rw [findServer, hfound]
    cases found with
    | true =>
      refine iff_of_true ⟨crsnic, rfl⟩ (.inr ?_)
      rintro c rfl
      rw [domfind_char] at hfound
      cases hfound
    | false =>
      rw [← whichwhois_iff tables qstring, or_iff_right (show ¬ (none : Option Str).isSome = true from Bool.false_ne_true)]
      show (∃ r, (whichwhois tables qstring).map (chosen env) = .ok r) ↔ _
      cases whichwhois tables qstring with
      | error e => simp [Except.map]
      | ok server => simp [Except.map]

theorem asked_ok (env : Env) (m : Settings) (server qstring : Str) : ∃ r, asked env m server qstring = .ok r := by
  obtain ⟨p, hp, hlen⟩ := returns_iff_exists.mp (queryformat_spec env server m.fstring qstring)
  have hcrlf : (text "\r\n").length = 2 := by decide
  have hroom : (p ++ text "\r\n").length < bufSize m.fstring qstring := by
    rw [List.length_append, hcrlf]
    exact hlen
  refine ⟨⟨server, m.port, p ++ text "\r\n", if env.WHOIS_HIDE then 0 else m.hide_discl, m.verb⟩, ?_⟩
  rw [asked, hp]
  simp only [bind, Except.bind]
  rw [inside_of_lt hroom]

/-- Behind the options it is the query and the choice of the server that count. -/
theorem ask_iff (tables : Tables) (env : Env) (crsnic : Option Str) (m : Settings) (words : List Str) :
    (∃ r, ask tables env crsnic m words = .ok r) ↔
      ∃ qstring, queryOf m words = .ok qstring ∧
        (m.server.isSome = true ∨ ∀ c, qstring = [c] → c ∈ [COLON, AT, DOT, DASH]) := by
  rw [ask]
  cases hquery : queryOf m words with
  | error e => exact iff_of_false (by rintro ⟨r, hr⟩; cases hr) (by rintro ⟨q, hq, -⟩; cases hq)
  | ok qstring =>
    constructor
    · rintro ⟨r, hr⟩
      refine ⟨qstring, rfl, (findServer_iff tables env crsnic m.server qstring).mp ?_⟩
      cases hserver : findServer tables env crsnic m.server qstring with
      | error e =>
        simp only [bind, Except.bind] at hr
        rw [hserver] at hr
        cases hr
      | ok server => exact ⟨server, rfl⟩
    · rintro ⟨q, hq, h⟩
      obtain rfl := Except.ok.inj hq
      obtain ⟨server, hserver⟩ := (findServer_iff tables env crsnic m.server qstring).mpr h
      simp only [bind, Except.bind]
      rw [hserver]
      cases server with
      | none => exact ⟨none, rfl⟩
      | some server =>
        obtain ⟨r, hr⟩ := asked_ok env m server qstring
        exact ⟨some r, congrArg (some <$> ·) hr⟩

/-- For every command line, whatever the tables and the registry's answer: everything that is
    written and read is inside, if and only if the line fits. -/
theorem main_iff (tables : Tables) (env : Env) (crsnic : Option Str) (cl : CommandLine) :
    (∃ r, main tables env crsnic cl = .ok r) ↔ Fits cl := by
  have hstart : Settings.start.fstring.length < FSTRING := by decide
  have htext : Settings.start.fstring ++ flagText cl.options = flagText cl.options := rfl
  rw [main]
  by_cases hflags : (flagText cl.options).length < FSTRING
  · rcases @optionLoop_fits .start cl.options hflags with ⟨hexits, hloop⟩ | ⟨hgoes, m, hloop, hf, hn, hs⟩
    · rw [hloop]
      exact iff_of_true ⟨none, rfl⟩ ⟨hflags, fun h => absurd hexits h.1⟩
    · rw [hloop]
      show (∃ r, (if cl.words = [] ∧ m.nopar = false then .ok none else ask tables env crsnic m cl.words) = .ok r) ↔ _
      have hnopar : m.nopar = true ↔ NoPar cl.options := by simp [hn, Settings.start]
      have hserver : m.server.isSome = true ↔ HasServer cl.options := by simp [hs, Settings.start]
      by_cases hasks : AsksWords cl
      · obtain ⟨-, hno, hwords⟩ := hasks
        have hfalse : m.nopar = false := Bool.eq_false_iff.mpr (mt hnopar.mp hno)
        rw [if_neg fun h => hwords h.1, ask_iff, queryOf, hfalse]
        simp only [Bool.false_eq_true, if_false]
        obtain ⟨word, words, hcl⟩ := List.exists_cons_of_ne_nil hwords
        rw [hcl]
        constructor
        · rintro ⟨qstring, hq, hwhich⟩
          obtain ⟨rfl, hlen⟩ := (qstringLoop_iff word words).mp ⟨qstring, hq⟩
          obtain rfl := qstringLoop_word hq
          exact ⟨hflags, fun _ => ⟨_, hcl, hlen, hwhich.imp_left hserver.mp⟩⟩
        · rintro ⟨-, hfits⟩
          obtain ⟨w, hw, hlen, hwhich⟩ := hfits ⟨hgoes, hno, hwords⟩
          obtain ⟨rfl, rfl⟩ := List.cons.inj (hcl.symm.trans hw)
          obtain ⟨qstring, hq⟩ := (qstringLoop_iff word []).mpr ⟨rfl, hlen⟩
          obtain rfl := qstringLoop_word hq
          exact ⟨_, hq, hwhich.imp_left hserver.mpr⟩
      · refine iff_of_true ?_ ⟨hflags, fun h => absurd h hasks⟩
        refine ok_ite (fun _ => ⟨none, rfl⟩) fun hnot => (ask_iff ..).mpr ?_
        have htrue : m.nopar = true := by
          by_contra hfalse
          have hno := mt hnopar.mpr hfalse
          exact hasks ⟨hgoes, hno, fun hnil => hnot ⟨hnil, Bool.eq_false_iff.mpr hfalse⟩⟩
        exact ⟨[], by rw [queryOf, if_pos htrue], .inr fun c hc => nomatch hc⟩
  · rw [optionLoop_overflow hstart (Nat.le_of_not_lt hflags)]
    exact iff_of_false (by rintro ⟨r, hr⟩; cases hr) fun h => hflags h.flags

/-- Two words, where the NUL behind the blank goes behind the end of qstring, and a word of one
    character, where the one in front of it is looked at. -/
theorem main_leaves_the_strings :
    main ⟨[], [], []⟩ ⟨none, none, false⟩ none ⟨[], [text "a", text "b"]⟩ = .error .qstring ∧
    main ⟨[], [], []⟩ ⟨none, none, false⟩ none ⟨[], [text "a"]⟩ = .error .char :=
  ⟨rfl, rfl⟩

end Netutils.Gwhois.Query
