/-
  Netutils.Gwhois.Whois — how the whois client finds the server that a registry refers to
  (gwhois/whois.c, query_crsnic).

  fgets cuts the answer into pieces of at most 99 bytes. Of the first piece that begins like a
  referral the rest is copied up to the end of the line, which need not be in the piece, and no
  NUL ends the copy. Nor need such a piece be the beginning of a line. Where the name is that of
  the first such line is `query_crsnic_iff`.
-/

import Netutils.Lib.Faults
import Netutils.Libc.Ctype
import Netutils.Libc.Stdio

namespace Netutils.Gwhois

open Netutils.Arpa Netutils.Libc Netutils.Lib.Faults

/-! ## query_crsnic -/

abbrev Str := List UInt8

inductive Fault where
  /-- A read behind the NUL in buf. -/
  | buf
  /-- A write behind the end of ret. -/
  | ret
  deriving DecidableEq

def COLON : UInt8 := 0x3a
def BLANK : UInt8 := 0x20

/-- What a referral begins with. -/
def WHOIS_SERVER : Str := text "   Whois Server:"

/-- "skip until colon" -/
def skipColon : Str → Except Fault Str
  | [] => .error .buf
  | c :: p => if c ≠ COLON then skipColon p else .ok (c :: p)

def isBlank (c : UInt8) : Bool := c == BLANK

def isEol (c : UInt8) : Bool := c == LF || c == CR

/-- "copy data", to a place of `n` bytes. The NUL at the end of the text is copied like the rest,
    and p leads behind it. -/
def copyData : Nat → Str → Except Fault Str
  | 0, _ => .error .ret
  | _ + 1, [] => .error .buf
  | n + 1, c :: p => if isEol c then .ok [] else (c :: ·) <$> copyData n p

/-- What one string in buf makes of ret. -/
def record (buf : Str) (ret : Option Str) : Except Fault (Option Str) :=
  if WHOIS_SERVER.isPrefixOf buf && ret.isNone then do
    let p ← skipColon buf
    -- "skip colon and spaces"
    let p := p.tail.dropWhile isBlank
    some <$> copyData (p.length + 1) p
  else return ret

/-- `sizeof (buf)` -/
def BUF : Nat := 100

/-- `while (fgets (buf, 100, fi))`: ret, and what is printed. -/
def crsnicLoop : Nat → Str → Option Str → Except Fault (Option Str × Str)
  | 0, _, ret => return (ret, [])
  | k + 1, fi, ret =>
    match fgets BUF fi with
    | none => return (ret, [])
    | some (buf, fi) => do
      let ret ← record (cstring buf) ret
      let (ret, out) ← crsnicLoop k fi ret
      return (ret, cstring buf ++ out)

/-- query_crsnic, for what the server sends. -/
def queryCrsnic (fi : Str) : Except Fault (Option Str × Str) := crsnicLoop fi.length fi none

/-- The query, in temp. -/
def request (query : Str) : Str := text "=" ++ query ++ [CR, LF]

/-- The size that is allocated for temp. -/
def requestSize (query : Str) : Nat := query.length + 1 + 2 + 1

/-- It is enough for the query and the NUL. -/
theorem length_request (query : Str) : (request query).length + 1 ≤ requestSize query := by
  have hequals : (text "=").length = 1 := by decide
  simp only [request, requestSize, List.length_append, List.length_cons, List.length_nil]
  omega

/-! ## What it is to find -/

/-- The name in a line: behind the colon and blanks, up to the end. -/
def serverName (line : Str) : Str := ((line.drop WHOIS_SERVER.length).dropWhile isBlank).takeWhile (!isEol ·)

/-- From the first line on that is a referral; `start` if a line begins here. -/
def firstLine : Bool → Str → Option Str
  | _, [] => none
  | start, c :: f => if start && WHOIS_SERVER.isPrefixOf (c :: f) then some (c :: f) else firstLine (c == LF) f

/-- The server of the first referral. -/
def referral (fi : Str) : Option Str := (firstLine true fi).map serverName

/-- The first piece that begins like a referral, and whether it begins a line. -/
def found : Bool → List Str → Option (Bool × Str)
  | _, [] => none
  | start, s :: l => if WHOIS_SERVER.isPrefixOf s then some (start, s) else found (s.getLast? == some LF) l

/-! ## One string -/

variable {p s f : Str} {n k : Nat}

theorem returns_copyData {P : Str → Prop} (hn : p.length < n) :
    Returns P (copyData n p) ↔ p.any isEol = true ∧ P (p.takeWhile (!isEol ·)) := by
  induction p generalizing n P with
  | nil =>
    obtain ⟨n, rfl⟩ : ∃ k, n = k + 1 := ⟨n - 1, by omega⟩
    exact iff_of_false id fun h => Bool.false_ne_true h.1
  | cons c p ih =>
    obtain ⟨n, rfl⟩ : ∃ k, n = k + 1 := ⟨n - 1, by omega⟩
    rw [copyData, List.any_cons]
    by_cases hc : isEol c = true
    · rw [if_pos hc, hc, Bool.true_or, List.takeWhile_cons_of_neg (by rw [hc]; exact Bool.false_ne_true)]
      exact (and_iff_right rfl).symm
    · rw [Bool.not_eq_true] at hc
      rw [if_neg (by rw [hc]; exact Bool.false_ne_true), returns_map, ih (Nat.lt_of_succ_lt_succ hn), hc, Bool.false_or,
        List.takeWhile_cons_of_pos (by rw [hc]; rfl)]

theorem skipColon_append (h : COLON ∉ s) : skipColon (s ++ COLON :: p) = .ok (COLON :: p) := by
  induction s with
  | nil => rfl
  | cons c s ih =>
    rw [List.mem_cons, not_or] at h
    rw [List.cons_append, skipColon, if_pos fun hc => h.1 hc.symm]
    exact ih h.2

theorem whois_server_eq : WHOIS_SERVER = text "   Whois Server" ++ [COLON] := by decide

theorem any_append_referral (p : Str) : (WHOIS_SERVER ++ p).any isEol = p.any isEol := by
  rw [List.any_append, show WHOIS_SERVER.any isEol = false by decide, Bool.false_or]

/-- Blanks end no line. -/
theorem any_dropWhile (p : Str) : (p.dropWhile isBlank).any isEol = p.any isEol := by
  induction p with
  | nil => rfl
  | cons c p ih =>
    by_cases hc : isBlank c = true
    · obtain rfl := eq_of_beq hc
      rw [List.dropWhile_cons_of_pos hc, ih, List.any_cons]
      rfl
    · rw [List.dropWhile_cons_of_neg hc]

theorem serverName_append (p : Str) : serverName (WHOIS_SERVER ++ p) = (p.dropWhile isBlank).takeWhile (!isEol ·) := by
  rw [serverName, List.drop_left]

/-- What is recorded, where there is room for it in any case. -/
theorem returns_record {P : Option Str → Prop} (h : WHOIS_SERVER.isPrefixOf s = true) :
    Returns P (record s none) ↔ s.any isEol = true ∧ P (some (serverName s)) := by
  obtain ⟨p, rfl⟩ := List.isPrefixOf_iff_prefix.mp h
  have hcolon : skipColon (WHOIS_SERVER ++ p) = .ok (COLON :: p) := by
    rw [whois_server_eq, List.append_assoc]
    exact skipColon_append (by decide)
  rw [record, if_pos (by rw [h]; rfl), hcolon, returns_bind, returns_ok, List.tail_cons, returns_map,
    returns_copyData (Nat.lt_succ_self _), any_dropWhile, any_append_referral, serverName_append]

theorem record_of_not (h : WHOIS_SERVER.isPrefixOf s = false) (ret : Option Str) : record s ret = .ok ret := by
  rw [record, h, Bool.false_and]
  rfl

theorem record_some (s r : Str) : record s (some r) = .ok (some r) := by
  rw [record, Option.isNone_some, Bool.and_false]
  rfl

/-- The string in a piece begins so where the piece does. -/
theorem isPrefixOf_cstring (s : Str) : WHOIS_SERVER.isPrefixOf (cstring s) = WHOIS_SERVER.isPrefixOf s := by
  rw [Bool.eq_iff_iff, List.isPrefixOf_iff_prefix, List.isPrefixOf_iff_prefix]
  constructor
  · exact fun h => h.trans (cstring_prefix_self s)
  · intro h
    obtain ⟨t, rfl⟩ := h
    rw [cstring_append_of_not_mem (by decide)]
    exact List.prefix_append _ _

/-- The name ends at the first end of line, whatever is behind it. -/
theorem serverName_of_begins {a b : Str} (ha : WHOIS_SERVER.isPrefixOf a = true) (heol : a.any isEol = true) (hb : a <+: b) :
    serverName b = serverName a := by
  obtain ⟨p, rfl⟩ := List.isPrefixOf_iff_prefix.mp ha
  obtain ⟨t, rfl⟩ := hb
  rw [any_append_referral, ← any_dropWhile] at heol
  rw [List.append_assoc, serverName_append, serverName_append, List.dropWhile_append]
  generalize p.dropWhile isBlank = q at heol
  have hq : q.isEmpty = false := by
    cases q with
    | nil => cases heol
    | cons => rfl
  have hlen : (q.takeWhile (!isEol ·)).length ≠ q.length := by
    intro hlen
    have hall := List.takeWhile_eq_self_iff.mp ((List.takeWhile_prefix _).eq_of_length hlen)
    obtain ⟨c, hc, hend⟩ := List.any_eq_true.mp heol
    have hnone := hall c hc
    rw [hend] at hnone
    cases hnone
  rw [hq, if_neg Bool.false_ne_true, List.takeWhile_append, if_neg hlen]

/-! ## The pieces -/

/-- What is printed. -/
def printed (l : List Str) : Str := l.flatMap cstring

theorem crsnicLoop_some (k : Nat) (f r : Str) : crsnicLoop k f (some r) = .ok (some r, printed (fgetsLoop BUF k f)) := by
  induction k generalizing f with
  | zero => rfl
  | succ k ih =>
    rw [crsnicLoop, fgetsLoop]
    cases fgets BUF f with
    | none => rfl
    | some x =>
      obtain ⟨s, f⟩ := x
      simp only [record_some]
      show (crsnicLoop k f (some r) >>= fun x => pure (x.1, cstring s ++ x.2)) = _
      rw [ih]
      rfl

/-- The loop comes through if the first piece that is taken has an end of line. -/
theorem returns_crsnicLoop {P : Option Str × Str → Prop} (start : Bool) :
    Returns P (crsnicLoop k f none) ↔ match found start (fgetsLoop BUF k f) with
      | none => P (none, printed (fgetsLoop BUF k f))
      | some (_, s) => (cstring s).any isEol = true ∧ P (some (serverName (cstring s)), printed (fgetsLoop BUF k f)) := by
  induction k generalizing f P start with
  | zero => exact Iff.rfl
  | succ k ih =>
    rw [crsnicLoop, fgetsLoop]
    cases fgets BUF f with
    | none => exact Iff.rfl
    | some x =>
      obtain ⟨s, f⟩ := x
      simp only [returns_bind, found]
      cases hs : WHOIS_SERVER.isPrefixOf s with
      | true =>
        rw [returns_record ((isPrefixOf_cstring s).trans hs), crsnicLoop_some]
        exact Iff.rfl
      | false =>
        rw [record_of_not ((isPrefixOf_cstring s).trans hs), returns_ok, ih (s.getLast? == some LF)]
        exact Iff.rfl

/-- fgets stops early at a newline or at the end only. -/
theorem piece_short (h : (piece n f).1.length < n) : (piece n f).2 = [] ∨ (piece n f).1.getLast? = some LF := by
  induction f generalizing n with
  | nil => 
    cases n <;> exact .inl rfl
  | cons c f ih =>
    cases n with
    | zero => cases h
    | succ n =>
      rw [piece] at h ⊢
      split at h
      · rename_i hc
        rw [if_pos hc]
        exact .inr (congrArg some hc)
      · rename_i hc
        rw [if_neg hc]
        rcases ih (Nat.lt_of_succ_lt_succ h) with hrest | hlast
        · exact .inl hrest
        · refine .inr ?_
          rw [List.getLast?_cons, hlast]
          rfl

/-- So a piece shows whether a referral begins where it does. -/
theorem isPrefixOf_piece (f : Str) : WHOIS_SERVER.isPrefixOf (piece (BUF - 1) f).1 = WHOIS_SERVER.isPrefixOf f := by
  have hpiece := piece_append (BUF - 1) f
  rw [Bool.eq_iff_iff, List.isPrefixOf_iff_prefix, List.isPrefixOf_iff_prefix]
  constructor
  · exact fun h => h.trans ⟨_, hpiece⟩
  · intro h
    by_cases hlen : WHOIS_SERVER.length ≤ (piece (BUF - 1) f).1.length
    · exact List.prefix_of_prefix_length_le h ⟨_, hpiece⟩ hlen
    · have hshort : (piece (BUF - 1) f).1.length < BUF - 1 := by
        have hsize : WHOIS_SERVER.length = 16 := by decide
        have hbuf : BUF - 1 = 99 := rfl
        omega
      rcases piece_short hshort with hrest | hlast
      · rw [hrest, List.append_nil] at hpiece
        rwa [hpiece]
      · -- the newline would be in the text that is looked for
        have hprefix := List.prefix_of_prefix_length_le ⟨_, hpiece⟩ h (by omega)
        have hmem := hprefix.subset (List.mem_of_getLast? hlast)
        exact absurd hmem (by decide)

/-- Within a piece no line begins. -/
theorem firstLine_append {start : Bool} (hs : s ≠ []) (hlf : LF ∉ s.dropLast)
    (hnot : (start && WHOIS_SERVER.isPrefixOf (s ++ f)) = false) :
    firstLine start (s ++ f) = firstLine (s.getLast? == some LF) f := by
  induction s generalizing start with
  | nil => exact absurd rfl hs
  | cons c s ih =>
    rw [List.cons_append] at hnot ⊢
    rw [firstLine, hnot, if_neg Bool.false_ne_true]
    cases s with
    | nil => rfl
    | cons d s =>
      rw [List.dropLast_cons_cons, List.mem_cons, not_or] at hlf
      have hc : (c == LF) = false := beq_false_of_ne fun hc => hlf.1 hc.symm
      rw [hc, ih (List.cons_ne_nil d s) hlf.2 (Bool.false_and _), List.getLast?_cons_cons]

/-- The first line and the first piece. -/
theorem firstLine_found (hk : f.length ≤ k) (start : Bool) : match found start (fgetsLoop BUF k f) with
    | none => firstLine start f = none
    | some (true, s) => ∃ line, firstLine start f = some line ∧ s <+: line
    | some (false, _) => True := by
  induction k generalizing f start with
  | zero =>
    rw [List.length_eq_zero_iff.mp (Nat.le_zero.mp hk)]
    rfl
  | succ k ih =>
    rw [fgetsLoop, fgets]
    by_cases hf : f = []
    · rw [if_pos hf, hf]
      rfl
    · have hpiece := piece_append (BUF - 1) f
      have hless := length_piece (n := BUF - 1) (by decide) hf
      have hprefix := isPrefixOf_piece f
      rw [if_neg hf]
      simp only [found]
      cases hs : WHOIS_SERVER.isPrefixOf (piece (BUF - 1) f).1 with
      | true =>
        cases start with
        | false => trivial
        | true =>
          rw [hs] at hprefix
          obtain ⟨c, f, rfl⟩ := List.exists_cons_of_ne_nil hf
          refine ⟨c :: f, ?_, ⟨_, hpiece⟩⟩
          rw [firstLine, ← hprefix]
          rfl
      | false =>
        have hne : (piece (BUF - 1) f).1 ≠ [] := by
          intro hnil
          rw [hnil, List.nil_append] at hpiece
          rw [hpiece] at hless
          exact absurd hless (Nat.lt_irrefl _)
        have hnot : (start && WHOIS_SERVER.isPrefixOf ((piece (BUF - 1) f).1 ++ (piece (BUF - 1) f).2)) = false := by
          rw [hpiece, ← hprefix, hs, Bool.and_false]
        have hline := firstLine_append hne (lf_not_mem_dropLast_piece (BUF - 1) f) hnot
        rw [hpiece] at hline
        rw [hline]
        exact ih (by omega) _

/-! ## The referral -/

theorem prefix_of_found {l : List Str} {start start' : Bool} (h : found start l = some (start', s)) : WHOIS_SERVER.isPrefixOf s = true := by
  induction l generalizing start with
  | nil => cases h
  | cons t l ih =>
    rw [found] at h
    split at h
    · cases h
      assumption
    · exact ih h

/-- For every stream: nothing outside of the buffers is touched and the name is that of the
    first line that is a referral, if and only if the first piece that begins like one has an
    end of line before its NUL, and is the beginning of a line or has the name of the first
    such line by chance. -/
theorem query_crsnic_iff (fi : Str) :
    (∃ out, queryCrsnic fi = .ok (referral fi, out)) ↔ ∀ start s, found true (fgetsAll BUF fi) = some (start, s) →
      (cstring s).any isEol = true ∧ (start = true ∨ referral fi = some (serverName (cstring s))) := by
  have hreturns : (∃ out, queryCrsnic fi = .ok (referral fi, out)) ↔
      Returns (fun x => x.1 = referral fi) (crsnicLoop fi.length fi none) := by
    rw [returns_iff_exists]
    constructor
    · intro h
      obtain ⟨out, h⟩ := h
      exact ⟨_, h, rfl⟩
    · intro h
      obtain ⟨x, h, hx⟩ := h
      exact ⟨x.2, by rw [queryCrsnic, h, ← hx]⟩
  have hfirst := firstLine_found (Nat.le_refl fi.length) true
  rw [hreturns, returns_crsnicLoop true, fgetsAll]
  cases hfound : found true (fgetsLoop BUF fi.length fi) with
  | none =>
    rw [hfound] at hfirst
    refine iff_of_true ?_ (by nofun)
    rw [referral, hfirst]
    rfl
  | some x =>
    obtain ⟨start, s⟩ := x
    rw [hfound] at hfirst
    have hprefix := prefix_of_found hfound
    constructor
    · intro h start' s' hfirst
      obtain ⟨heol, hname⟩ := h
      cases hfirst
      exact ⟨heol, .inr hname.symm⟩
    · intro h
      obtain ⟨heol, hname⟩ := h start s rfl
      refine ⟨heol, ?_⟩
      rcases hname with rfl | hname
      · obtain ⟨line, hline, hs⟩ := hfirst
        rw [referral, hline, Option.map_some]
        rw [serverName_of_begins ((isPrefixOf_cstring s).trans hprefix) heol ((cstring_prefix_self s).trans hs)]
      · exact hname.symm

/-- A referral whose line is cut off, and one within a line that is too long. -/
theorem query_crsnic_leaves_buf :
    queryCrsnic (text "   Whois Server: whois.example") = .error .buf ∧
    (queryCrsnic (List.replicate 99 0x78 ++ text "   Whois Server: a" ++ [LF])).map Prod.fst = .ok (some (text "a")) ∧
    referral (List.replicate 99 0x78 ++ text "   Whois Server: a" ++ [LF]) = none := by
  decide +kernel

end Netutils.Gwhois
