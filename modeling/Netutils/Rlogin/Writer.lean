/-
  Netutils.Rlogin.Writer — what rlogin sends of what is typed (writer and getescape of
  rlogin/rlogin.c).

  What is typed is a char, which is signed, and is compared with escapechar and with the
  characters of deftt, which are not: a byte from 0x80 on is none of them, whatever they are.
  Where no such byte counts the law holds but for an escape at which the input ends, which is
  held back for ever (`writer_law`); and it holds for everything else that may be typed if and
  only if those characters are ASCII (`writer_lawful`).
-/

import Netutils.Arpa
import Netutils.Libc.Ctype

namespace Netutils.Rlogin

open Netutils.Arpa Netutils.Libc

/-! ## Options -/

/-- The characters of deftt.c_cc; VDSUSP where it is defined. -/
structure Tty where
  vintr : UInt8
  vkill : UInt8
  veof : UInt8
  vsusp : UInt8
  vdsusp : Option UInt8

structure Options where
  noescape : Bool := false
  escapechar : UInt8 := 0x7e
  deriving DecidableEq

/-- `strtol (s, NULL, 8)`, without the overflow. -/
def strtol8 (s : List UInt8) : Int :=
  let s := s.dropWhile isspace
  let n : Int := number 8 ((if s.head? = some 0x2d ∨ s.head? = some 0x2b then s.tail else s).takeWhile (isdigitOf 8))
  if s.head? = some 0x2d then -n else n

/-- getescape, as it is assigned to a u_char. It lets an 8 pass. -/
def getescape (p : List UInt8) : UInt8 :=
  match p with
  | [] => 0
  | [c] => c
  | c :: p =>
    if c = 0x5c ∧ p.length ≤ 3 ∧ p.tail.all fun c => 0x30 ≤ c && c ≤ 0x38 then UInt8.ofInt (strtol8 p) else 0

/-- The options -e and -E; `none` where the program ends. -/
def parseE (arg : List UInt8) (_ : Options) : Option Options :=
  if getescape arg = 0 then none else some { noescape := false, escapechar := getescape arg }

def parseNoE (o : Options) : Options := { o with noescape := true }

/-! ## writer -/

/-- `c == u`, of a char and a u_char. -/
def charEq (c u : UInt8) : Bool := c.toInt8.toInt == (u.toNat : Int)

def DOT : UInt8 := 0x2e

/-- What writer does: the bytes that it sends, and what it has not read when it returns at a command. -/
structure Run where
  sent : List UInt8
  command : Option (List UInt8)
  deriving DecidableEq

def Run.put (l : List UInt8) (r : Run) : Run := { r with sent := l ++ r.sent }

variable (o : Options) (tty : Tty)

/-- What bol is set to. -/
def bolAfter (c : UInt8) : Bool :=
  charEq c tty.vkill || charEq c tty.veof || charEq c tty.vintr || charEq c tty.vsusp || c == CR || c == LF

/-- The loop of writer, with bol and local: a read that is interrupted is tried again, and the end of
    what is typed ends it. -/
def writerLoop : Bool → Bool → List UInt8 → Run
  | _, _, [] => ⟨[], none⟩
  | bol, local_, c :: typed =>
    if bol then
      if !o.noescape && charEq c o.escapechar then writerLoop false true typed
      else (writerLoop (bolAfter tty c) local_ typed).put [c]
    else if local_ then
      if c = DOT ∨ charEq c tty.veof then ⟨[], some typed⟩
      else if charEq c tty.vsusp ∨ tty.vdsusp.any (charEq c) then writerLoop true false typed
      else (writerLoop (bolAfter tty c) false typed).put (if charEq c o.escapechar then [c] else [o.escapechar, c])
    else (writerLoop (bolAfter tty c) false typed).put [c]

def writer (typed : List UInt8) : Run := writerLoop o tty true false typed

/-! ## The law -/

/-- A line begins behind it. -/
def begins (c : UInt8) : Bool :=
  c == tty.vkill || c == tty.veof || c == tty.vintr || c == tty.vsusp || c == CR || c == LF

def suspends (c : UInt8) : Bool := c == tty.vsusp || tty.vdsusp == some c

/-- What is to be sent: all but an escape that waits for the character behind it, and that escape. -/
structure Law where
  sent : List UInt8
  pending : List UInt8
  command : Option (List UInt8)
  /-- The characters that have been told from the others. -/
  recognised : List UInt8

def Law.run (w : Law) : Run := ⟨w.sent ++ w.pending, w.command⟩

def Law.put (l recognised : List UInt8) (w : Law) : Law := { w with sent := l ++ w.sent, recognised := recognised ++ w.recognised }

/-- Of what is typed, at the beginning of a line or not. -/
def law : Bool → List UInt8 → Law
  | _, [] => ⟨[], [], none, []⟩
  | start, c :: typed =>
    if start = true ∧ o.noescape = false ∧ c = o.escapechar then
      match typed with
      | [] => ⟨[], [c], none, [c]⟩
      | d :: typed =>
        if d = DOT then ⟨[], [], some typed, [c]⟩
        else if d = tty.veof then ⟨[], [], some typed, [c, d]⟩
        else if suspends tty d then (law true typed).put [] [c, d]
        else (law (begins tty d) typed).put (if d = c then [d] else [c, d]) (if d = c ∨ begins tty d then [c, d] else [c])
    else (law (begins tty c) typed).put [c] (if begins tty c then [c] else [])

/-- Nothing from 0x80 on counts in what is typed. -/
def Clean (typed : List UInt8) : Prop := o.noescape = true ∨ ∀ c ∈ (law o tty true typed).recognised, c < 0x80

/-- The characters that count are ASCII. -/
def Ascii : Prop :=
  o.noescape = true ∨ ∀ u ∈ [o.escapechar, tty.veof, tty.vsusp, tty.vkill, tty.vintr] ++ tty.vdsusp.toList, u < 0x80

/-! ## Characters -/

variable {o tty} {c u : UInt8} {start : Bool} {typed l : List UInt8}

/-- A char that is not ASCII is negative. -/
theorem charEq_iff : charEq c u = true ↔ c = u ∧ c < 0x80 := by
  have hc : c.toInt8.toInt = if 2 * c.toNat < 2 ^ 8 then (c.toNat : Int) else (c.toNat : Int) - ((2 ^ 8 : Nat) : Int) :=
    BitVec.toInt_eq_toNat_cond c.toBitVec
  rw [charEq, beq_iff_eq, hc, ← UInt8.toNat_inj, UInt8.lt_iff_toNat_lt]
  have hlt := c.toNat_lt
  have h80 : (0x80 : UInt8).toNat = 128 := rfl
  split
  · omega
  · omega

theorem charEq_ascii (hc : c < 0x80) : charEq c u = (c == u) := by
  rw [Bool.eq_iff_iff, charEq_iff, beq_iff_eq, and_iff_left hc]

theorem charEq_not_ascii (hc : ¬ c < 0x80) : charEq c u = false := by
  rw [Bool.eq_false_iff]
  exact fun h => hc (charEq_iff.mp h).2

theorem charEq_of_ne (hc : c ≠ u) : charEq c u = false := by
  rw [Bool.eq_false_iff]
  exact fun h => hc (charEq_iff.mp h).1

theorem bolAfter_eq (h : begins tty c = true → c < 0x80) : bolAfter tty c = begins tty c := by
  by_cases hc : c < 0x80
  · simp only [bolAfter, begins, charEq_ascii hc]
  · have hnot : begins tty c = false := Bool.eq_false_iff.mpr fun hb => hc (h hb)
    rw [hnot]
    simp only [begins, Bool.or_eq_false_iff] at hnot
    simp only [bolAfter, charEq_not_ascii hc, hnot, Bool.or_false]

/-! ## One character -/

theorem writerLoop_cons (bol local_ : Bool) (c : UInt8) (l : List UInt8) :
    writerLoop o tty bol local_ (c :: l) =
      if bol then
        if !o.noescape && charEq c o.escapechar then writerLoop o tty false true l
        else (writerLoop o tty (bolAfter tty c) local_ l).put [c]
      else if local_ then
        if c = DOT ∨ charEq c tty.veof then ⟨[], some l⟩
        else if charEq c tty.vsusp ∨ tty.vdsusp.any (charEq c) then writerLoop o tty true false l
        else (writerLoop o tty (bolAfter tty c) false l).put (if charEq c o.escapechar then [c] else [o.escapechar, c])
      else (writerLoop o tty (bolAfter tty c) false l).put [c] :=
  rfl

theorem writerLoop_byte (hstart : start = true → ¬ (o.noescape = false ∧ charEq c o.escapechar = true)) :
    writerLoop o tty start false (c :: l) = (writerLoop o tty (bolAfter tty c) false l).put [c] := by
  rw [writerLoop_cons]
  cases start with
  | false => rfl
  | true =>
    have hesc : (!o.noescape && charEq c o.escapechar) = false := by
      have h := hstart rfl
      cases hn : o.noescape <;> simp_all
    rw [hesc]
    rfl

theorem writerLoop_escape (hn : o.noescape = false) (hc : charEq c o.escapechar = true) :
    writerLoop o tty true false (c :: l) = writerLoop o tty false true l := by
  rw [writerLoop_cons, hn, hc]
  rfl

/-- Behind an escape. -/
theorem writerLoop_dot : writerLoop o tty false true (DOT :: l) = ⟨[], some l⟩ := by
  rw [writerLoop_cons]
  simp

theorem writerLoop_eof (hc : charEq c tty.veof = true) : writerLoop o tty false true (c :: l) = ⟨[], some l⟩ := by
  rw [writerLoop_cons]
  simp [hc]

theorem writerLoop_suspend (hdot : c ≠ DOT) (heof : charEq c tty.veof = false)
    (hc : charEq c tty.vsusp = true ∨ tty.vdsusp.any (charEq c) = true) :
    writerLoop o tty false true (c :: l) = writerLoop o tty true false l := by
  rw [writerLoop_cons]
  simp [hdot, heof, hc]

theorem writerLoop_other (hdot : c ≠ DOT) (heof : charEq c tty.veof = false)
    (hc : ¬ (charEq c tty.vsusp = true ∨ tty.vdsusp.any (charEq c) = true)) :
    writerLoop o tty false true (c :: l) =
      (writerLoop o tty (bolAfter tty c) false l).put (if charEq c o.escapechar then [c] else [o.escapechar, c]) := by
  rw [writerLoop_cons]
  simp [hdot, heof, hc]

theorem suspends_iff : suspends tty c = true ↔ c = tty.vsusp ∨ tty.vdsusp = some c := by
  simp [suspends]

/-- A character that suspends is told from the others where it is ASCII. -/
theorem suspend_ascii (hc : c < 0x80) :
    (charEq c tty.vsusp = true ∨ tty.vdsusp.any (charEq c) = true) ↔ suspends tty c = true := by
  rw [suspends_iff, charEq_ascii hc, beq_iff_eq]
  cases tty.vdsusp with
  | none => simp
  | some u => rw [Option.any_some, charEq_ascii hc, beq_iff_eq, Option.some_inj, eq_comm (a := u)]

theorem not_suspend (h : ¬ suspends tty c = true) : ¬ (charEq c tty.vsusp = true ∨ tty.vdsusp.any (charEq c) = true) := by
  by_cases hc : c < 0x80
  · rwa [suspend_ascii hc]
  · cases tty.vdsusp <;> simp [charEq_not_ascii hc]

/-! ## The loop and the law -/

theorem law_byte (h : ¬ (start = true ∧ o.noescape = false ∧ c = o.escapechar)) (l : List UInt8) :
    law o tty start (c :: l) = (law o tty (begins tty c) l).put [c] (if begins tty c then [c] else []) := by
  cases l with
  | nil => exact if_neg h
  | cons d l => exact if_neg h

theorem law_escape_nil (hn : o.noescape = false) :
    law o tty true [o.escapechar] = ⟨[], [o.escapechar], none, [o.escapechar]⟩ :=
  if_pos ⟨rfl, hn, rfl⟩

theorem law_escape (hn : o.noescape = false) (d : UInt8) (l : List UInt8) :
    law o tty true (o.escapechar :: d :: l) =
      if d = DOT then ⟨[], [], some l, [o.escapechar]⟩
      else if d = tty.veof then ⟨[], [], some l, [o.escapechar, d]⟩
      else if suspends tty d then (law o tty true l).put [] [o.escapechar, d]
      else (law o tty (begins tty d) l).put (if d = o.escapechar then [d] else [o.escapechar, d])
        (if d = o.escapechar ∨ begins tty d then [o.escapechar, d] else [o.escapechar]) :=
  if_pos ⟨rfl, hn, rfl⟩

def Recognises (w : Law) : Prop := ∀ c ∈ w.recognised, c < 0x80

theorem recognises_put {l r : List UInt8} {w : Law} : Recognises (w.put l r) ↔ (∀ c ∈ r, c < 0x80) ∧ Recognises w :=
  List.forall_mem_append

/-- What is sent by the law, without the escape that is held back. -/
theorem writerLoop_law (hn : o.noescape = false) (start : Bool) (typed : List UInt8)
    (h : Recognises (law o tty start typed)) :
    writerLoop o tty start false typed = ⟨(law o tty start typed).sent, (law o tty start typed).command⟩ := by
  induction start, typed using law.induct o tty with
  | case1 start => rfl
  | case2 start c hesc =>
    obtain ⟨rfl, -, rfl⟩ := hesc
    rw [law_escape_nil hn] at h ⊢
    rw [writerLoop_escape hn (charEq_iff.mpr ⟨rfl, h _ List.mem_cons_self⟩)]
    rfl
  | case3 start c hesc l =>
    obtain ⟨rfl, -, rfl⟩ := hesc
    rw [law_escape hn] at h ⊢
    simp only [if_pos] at h ⊢
    rw [writerLoop_escape hn (charEq_iff.mpr ⟨rfl, h _ List.mem_cons_self⟩), writerLoop_dot]
  | case4 start c hesc l hdot =>
    obtain ⟨rfl, -, rfl⟩ := hesc
    rw [law_escape hn] at h ⊢
    simp only [if_pos, if_neg hdot] at h ⊢
    rw [writerLoop_escape hn (charEq_iff.mpr ⟨rfl, h _ List.mem_cons_self⟩),
      writerLoop_eof (charEq_iff.mpr ⟨rfl, h _ (List.mem_cons_of_mem _ List.mem_cons_self)⟩)]
  | case5 start c hesc d l hdot heof hsusp ih =>
    obtain ⟨rfl, -, rfl⟩ := hesc
    rw [law_escape hn] at h ⊢
    simp only [if_neg hdot, if_neg heof, if_pos hsusp] at h ⊢
    obtain ⟨hchars, hrest⟩ := recognises_put.mp h
    have hd := hchars d (List.mem_cons_of_mem _ List.mem_cons_self)
    rw [writerLoop_escape hn (charEq_iff.mpr ⟨rfl, hchars _ List.mem_cons_self⟩),
      writerLoop_suspend hdot (charEq_of_ne heof) ((suspend_ascii hd).mpr hsusp), ih hrest]
    rfl
  | case6 start c hesc d l hdot heof hsusp ih =>
    obtain ⟨rfl, -, rfl⟩ := hesc
    rw [law_escape hn] at h ⊢
    simp only [if_neg hdot, if_neg heof, if_neg hsusp] at h ⊢
    obtain ⟨hchars, hrest⟩ := recognises_put.mp h
    have hc : o.escapechar < 0x80 := hchars _ (by split <;> exact List.mem_cons_self)
    have hd : d = o.escapechar ∨ begins tty d = true → d < 0x80 := by
      intro hd
      rw [if_pos hd] at hchars
      exact hchars d (List.mem_cons_of_mem _ List.mem_cons_self)
    have hsame : charEq d o.escapechar = true ↔ d = o.escapechar :=
      charEq_iff.trans (and_iff_left_of_imp fun h => hd (.inl h))
    rw [writerLoop_escape hn (charEq_iff.mpr ⟨rfl, hc⟩), writerLoop_other hdot (charEq_of_ne heof) (not_suspend hsusp),
      bolAfter_eq fun hb => hd (.inr hb), ih hrest]
    simp only [hsame]
    rfl
  | case7 start c l hother ih =>
    rw [law_byte hother] at h ⊢
    obtain ⟨hchars, hrest⟩ := recognises_put.mp h
    have hbegins : begins tty c = true → c < 0x80 := by
      intro hb
      rw [if_pos hb] at hchars
      exact hchars c List.mem_cons_self
    rw [writerLoop_byte fun hs he => hother ⟨hs, hn, (charEq_iff.mp he.2).1⟩, bolAfter_eq hbegins, ih hrest]
    rfl

/-- Without an escape character, everything is sent. -/
theorem writerLoop_noescape (hn : o.noescape = true) (start : Bool) (typed : List UInt8) :
    writerLoop o tty start false typed = ⟨typed, none⟩ := by
  induction typed generalizing start with
  | nil => rfl
  | cons c l ih =>
    rw [writerLoop_byte fun _ he => by rw [hn] at he; exact absurd he.1 nofun, ih]
    rfl

theorem law_noescape (hn : o.noescape = true) (start : Bool) (typed : List UInt8) :
    (law o tty start typed).sent = typed ∧ (law o tty start typed).pending = [] ∧ (law o tty start typed).command = none := by
  induction typed generalizing start with
  | nil => exact ⟨rfl, rfl, rfl⟩
  | cons c l ih =>
    obtain ⟨hsent, hpending, hcommand⟩ := ih (begins tty c)
    rw [law_byte fun h => by rw [hn] at h; exact absurd h.2.1 nofun]
    exact ⟨congrArg (c :: ·) hsent, hpending, hcommand⟩

/-! ## writer -/

theorem begins_ascii (h : ∀ u ∈ [tty.veof, tty.vsusp, tty.vkill, tty.vintr], u < 0x80) (hc : begins tty c = true) : c < 0x80 := by
  simp only [begins, Bool.or_eq_true, beq_iff_eq] at hc
  rcases hc with ((((rfl | rfl) | rfl) | rfl) | rfl) | rfl
  · exact h _ (by simp)
  · exact h _ (by simp)
  · exact h _ (by simp)
  · exact h _ (by simp)
  · decide
  · decide

theorem recognises_ascii (h : ∀ u ∈ [o.escapechar, tty.veof, tty.vsusp, tty.vkill, tty.vintr] ++ tty.vdsusp.toList, u < 0x80)
    (start : Bool) (typed : List UInt8) : Recognises (law o tty start typed) := by
  have hesc : o.escapechar < 0x80 := h _ (by simp)
  have hbegins : ∀ c, begins tty c = true → c < 0x80 := fun c => begins_ascii fun u hu => h u (by simp at hu ⊢; tauto)
  induction start, typed using law.induct o tty with
  | case1 start => exact nofun
  | case2 start c hc =>
    obtain ⟨rfl, hn, rfl⟩ := hc
    rw [law_escape_nil hn]
    exact List.forall_mem_singleton.mpr hesc
  | case3 start c hc l =>
    obtain ⟨rfl, hn, rfl⟩ := hc
    rw [law_escape hn]
    exact List.forall_mem_singleton.mpr hesc
  | case4 start c hc l hdot =>
    obtain ⟨rfl, hn, rfl⟩ := hc
    rw [law_escape hn]
    simp only [if_pos, if_neg hdot]
    exact List.forall_mem_cons.mpr ⟨hesc, List.forall_mem_singleton.mpr (h _ (by simp))⟩
  | case5 start c hc d l hdot heof hsusp ih =>
    obtain ⟨rfl, hn, rfl⟩ := hc
    rw [law_escape hn]
    simp only [if_neg hdot, if_neg heof, if_pos hsusp]
    have hd : d < 0x80 := by
      rcases suspends_iff.mp hsusp with rfl | hd
      · exact h _ (by simp)
      · exact h d (by simp [hd])
    exact recognises_put.mpr ⟨List.forall_mem_cons.mpr ⟨hesc, List.forall_mem_singleton.mpr hd⟩, ih⟩
  | case6 start c hc d l hdot heof hsusp ih =>
    obtain ⟨rfl, hn, rfl⟩ := hc
    rw [law_escape hn]
    simp only [if_neg hdot, if_neg heof, if_neg hsusp]
    refine recognises_put.mpr ⟨?_, ih⟩
    split
    · rename_i hd
      have hd' : d < 0x80 := hd.elim (fun h => h ▸ hesc) (hbegins d)
      exact List.forall_mem_cons.mpr ⟨hesc, List.forall_mem_singleton.mpr hd'⟩
    · exact List.forall_mem_singleton.mpr hesc
  | case7 start c l hother ih =>
    rw [law_byte hother]
    refine recognises_put.mpr ⟨?_, ih⟩
    split
    · rename_i hc
      exact List.forall_mem_singleton.mpr (hbegins c hc)
    · exact nofun

/-- Where nothing from 0x80 on counts: the law holds, unless the input ends at an escape. -/
theorem writer_eq (h : Clean o tty typed) :
    writer o tty typed = ⟨(law o tty true typed).sent, (law o tty true typed).command⟩ := by
  cases hn : o.noescape with
  | true =>
    obtain ⟨hsent, -, hcommand⟩ := @law_noescape o tty hn true typed
    rw [writer, writerLoop_noescape hn, hsent, hcommand]
  | false => exact writerLoop_law hn true typed (h.resolve_left fun ht => by rw [hn] at ht; cases ht)

@[simp] theorem command_put (l : List UInt8) (r : Run) : (r.put l).command = r.command := rfl

/-- A command takes two characters. -/
theorem command_last (start : Bool) (c : UInt8) : (writerLoop o tty start false [c]).command = none := by
  cases start with
  | false => rfl
  | true =>
    rw [writerLoop_cons]
    simp only [if_pos]
    split <;> rfl

theorem law_command (hn : o.noescape = false) : (law o tty true [o.escapechar, DOT]).command = some [] ∧
    (law o tty true [o.escapechar, DOT]).pending = [] := by
  rw [law_escape hn]
  exact ⟨rfl, rfl⟩

/-- Behind a character that is not told from the others, a line does not begin. -/
theorem command_behind (hc : ¬ c < 0x80) (d : UInt8) : (writer o tty [c, o.escapechar, d]).command = none := by
  have hbol : bolAfter tty c = false := by
    have hcr : c ≠ CR := fun h => hc (h ▸ by decide)
    have hlf : c ≠ LF := fun h => hc (h ▸ by decide)
    simp [bolAfter, charEq_not_ascii hc, hcr, hlf]
  rw [writer, writerLoop_byte fun _ h => hc (charEq_iff.mp h.2).2, command_put, hbol]
  have hstart : false = true → ¬ (o.noescape = false ∧ charEq o.escapechar o.escapechar = true) := fun h => nomatch h
  rw [writerLoop_byte hstart, command_put]
  exact command_last _ d

/-- Nor is it a command behind an escape. -/
theorem writer_escaped (hn : o.noescape = false) (hesc : o.escapechar < 0x80) (hc : ¬ c < 0x80) :
    writer o tty [o.escapechar, c] = ⟨[o.escapechar, c], none⟩ := by
  have hdot : c ≠ DOT := fun h => hc (h ▸ by decide)
  have hsusp : ¬ (charEq c tty.vsusp = true ∨ tty.vdsusp.any (charEq c) = true) := by
    cases tty.vdsusp <;> simp [charEq_not_ascii hc]
  rw [writer, writerLoop_escape hn (charEq_iff.mpr ⟨rfl, hesc⟩), writerLoop_other hdot (charEq_not_ascii hc) hsusp,
    charEq_not_ascii hc]
  rfl

theorem exists_unlawful (hn : o.noescape = false)
    (h : ∃ u ∈ [o.escapechar, tty.veof, tty.vsusp, tty.vkill, tty.vintr] ++ tty.vdsusp.toList, ¬ u < 0x80) :
    ∃ typed, (law o tty true typed).pending = [] ∧ writer o tty typed ≠ (law o tty true typed).run := by
  obtain ⟨hcommand, hpending⟩ := @law_command o tty hn
  -- the law returns and writer does not
  have hreturns : ∀ {typed}, (writer o tty typed).command = none → (law o tty true typed).command = some [] →
      writer o tty typed ≠ (law o tty true typed).run := by
    intro typed hnone hsome heq
    rw [heq] at hnone
    exact absurd (hsome.symm.trans hnone) nofun
  by_cases hesc : o.escapechar < 0x80
  · by_cases heof : tty.veof < 0x80
    · obtain ⟨u, hu, hnot⟩ := h
      have hne : u ≠ o.escapechar := fun h => hnot (h ▸ hesc)
      by_cases hsusp : suspends tty u = true
      · have hdot : u ≠ DOT := fun h => hnot (h ▸ by decide)
        have hlaw : law o tty true [o.escapechar, u] = ⟨[], [], none, [o.escapechar, u]⟩ := by
          rw [law_escape hn]
          simp only [if_neg hdot, if_neg fun h : u = tty.veof => hnot (h ▸ heof), if_pos hsusp]
          rfl
        refine ⟨[o.escapechar, u], by rw [hlaw], ?_⟩
        rw [writer_escaped hn hesc hnot, hlaw]
        exact fun h => nomatch congrArg Run.sent h
      · have hbegins : begins tty u = true := by
          simp only [List.cons_append, List.nil_append, List.mem_cons, Option.mem_toList] at hu
          rcases hu with rfl | rfl | rfl | rfl | rfl | hu
          · exact absurd rfl hne
          · exact absurd heof hnot
          · exact absurd (suspends_iff.mpr (.inl rfl)) hsusp
          · simp [begins]
          · simp [begins]
          · exact absurd (suspends_iff.mpr (.inr hu)) hsusp
        have hlaw : law o tty true [u, o.escapechar, DOT] = (law o tty true [o.escapechar, DOT]).put [u] [u] := by
          rw [law_byte fun h => hne h.2.2, hbegins]
          rfl
        refine ⟨[u, o.escapechar, DOT], by rw [hlaw]; exact hpending, hreturns (command_behind hnot DOT) ?_⟩
        rw [hlaw]
        exact hcommand
    · have hdot : tty.veof ≠ DOT := fun h => heof (h ▸ by decide)
      have hlaw : law o tty true [o.escapechar, tty.veof] = ⟨[], [], some [], [o.escapechar, tty.veof]⟩ := by
        rw [law_escape hn]
        simp only [if_neg hdot, if_pos]
      exact ⟨[o.escapechar, tty.veof], by rw [hlaw], hreturns (by rw [writer_escaped hn hesc heof]) (by rw [hlaw])⟩
  · refine ⟨[o.escapechar, DOT], hpending, hreturns ?_ hcommand⟩
    rw [writer, writerLoop_byte fun _ h => hesc (charEq_iff.mp h.2).2, command_put]
    exact command_last _ DOT

/-- Where nothing from 0x80 on counts in what is typed, it is sent by the law, and writer returns where
    it should, if and only if the input does not end at an escape that is held back. This is so
    for all that may be typed if and only if the characters that count are ASCII, or there is no
    escape character. -/
theorem writer_lawful (o : Options) (tty : Tty) :
    (∀ typed, Clean o tty typed → (writer o tty typed = (law o tty true typed).run ↔ (law o tty true typed).pending = [])) ∧
    ((∀ typed, (law o tty true typed).pending = [] → writer o tty typed = (law o tty true typed).run) ↔ Ascii o tty) := by
  have hclean : ∀ typed, Clean o tty typed →
      (writer o tty typed = (law o tty true typed).run ↔ (law o tty true typed).pending = []) := by
    intro typed h
    rw [writer_eq h, Law.run, Run.mk.injEq, and_iff_left rfl, List.self_eq_append_right]
  refine ⟨hclean, fun hall => ?_, fun hascii typed hpending => ?_⟩
  · by_contra hnot
    rw [Ascii, not_or, Bool.not_eq_true] at hnot
    obtain ⟨hn, hnot⟩ := hnot
    push Not at hnot
    obtain ⟨u, hu, hle⟩ := hnot
    obtain ⟨typed, hpending, hne⟩ := exists_unlawful hn ⟨u, hu, hle⟩
    exact hne (hall typed hpending)
  · have hchars : Clean o tty typed := hascii.imp id fun h => recognises_ascii h true typed
    exact (hclean typed hchars).mpr hpending

/-- The usual characters. -/
def usual : Tty := ⟨0x03, 0x15, 0x04, 0x1a, none⟩

/-- An escape character that is not ASCII: it is sent twice where it should be once, and no command
    either; and the usual one as the last character. -/
theorem writer_unlawful :
    (parseE [0x5c, 0x33, 0x35, 0x31] {}).map Options.escapechar = some 0xe9 ∧
    writer ⟨false, 0xe9⟩ usual [0xe9, 0xe9] = ⟨[0xe9, 0xe9], none⟩ ∧
    (law ⟨false, 0xe9⟩ usual true [0xe9, 0xe9]).run = ⟨[0xe9], none⟩ ∧
    writer ⟨false, 0xe9⟩ usual [0xe9, DOT, 0x61] = ⟨[0xe9, DOT, 0x61], none⟩ ∧
    (law ⟨false, 0xe9⟩ usual true [0xe9, DOT, 0x61]).run = ⟨[], some [0x61]⟩ ∧
    writer {} usual [0x7e] = ⟨[], none⟩ ∧ (law {} usual true [0x7e]).run = ⟨[0x7e], none⟩ := by
  decide +kernel

end Netutils.Rlogin
