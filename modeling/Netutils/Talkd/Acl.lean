/-
  Netutils.Talkd.Acl — talkd's access lists (talkd/acl.c): the site's, read when talkd starts,
  and the one of the user a message is for, which acl_match puts behind it for the time of
  the message.

  The two are one linked list; discard_acl cuts it behind the mark, the last rule of the site.
  But NULL is no mark: it stands for an empty list of the site as well as for a user that
  getpwnam does not find, and then all is dropped. And the action of a user's rule is read
  behind its `free`. So what the site has said holds for good as long as every message is
  for a user there is, and is not decided by that user's own rules (`permanent_iff`), or
  where the site has said nothing.
-/

import Netutils.Lib.Linked
import Netutils.Libc.Inet
import Netutils.Libc.Stdio
import Netutils.Libinetutils.Argcv
import Netutils.Protocols.Talkd

namespace Netutils.Talkd

open Netutils.Arpa Netutils.Libc Netutils.Lib.Linked
open Netutils.Libinetutils (argcvGet)
open Netutils.Protocols (Str)

/-! ## Networks -/

structure Netdef where
  ipaddr : UInt32
  netmask : UInt32
  deriving DecidableEq

def DOTTED_QUAD_LEN : Nat := 16

/-- What goes to ptr, what is left, and the dots. -/
def readAddress (line : Str) : Str × Str × Nat :=
  let quad := (line.take DOTTED_QUAD_LEN).takeWhile fun c => isdigit c || c = dot
  (quad, line.drop quad.length, quad.count dot)

/-- `"any"` -/
def any : Str := [0x61, 0x6e, 0x79]

def slash : UInt8 := 0x2f

def netdefParse (str : Str) : Option Netdef :=
  if str = any then some ⟨0, 0⟩
  else
    let r := readAddress str
    let ipaddr := inetAddr r.1
    if ipaddr = INADDR_NONE then none
    else
      match r.2.1 with
      | [] => some ⟨ipaddr, 0xffffffff⟩
      | c :: str =>
        if c ≠ slash then none
        else
          let r := readAddress str
          if r.2.2 = 0 then
            let len := (strtoul r.1).1 % 2 ^ 32
            if 32 < len then none
            else some ⟨ipaddr, UInt32.ofNat (0xffffffff >>> (32 - len)) <<< UInt32.ofNat (32 - len)⟩
          else some ⟨ipaddr, inetNetwork r.1⟩

/-- `net->ipaddr == (ip & net->netmask)` -/
def Netdef.contains (net : Netdef) (ip : UInt32) : Bool := net.ipaddr = ip &&& net.netmask

/-! ## Rules -/

inductive Action where
  | allow
  | deny
  deriving DecidableEq

/-- <regex.h>: what regcomp makes of an expression, and whether regexec finds it. -/
structure Regex (ρ : Type) where
  regcomp : Str → Option ρ
  regexec : ρ → Str → Bool

/-- A rule without its link. -/
structure Rule (ρ : Type) where
  re : ρ
  netlist : List Netdef
  action : Action

variable {ρ : Type} (rx : Regex ρ)

/-- `"allow"` and `"deny"` -/
def keyword (arg : Str) : Option Action :=
  if arg = [0x61, 0x6c, 0x6c, 0x6f, 0x77] then some .allow
  else if arg = [0x64, 0x65, 0x6e, 0x79] then some .deny
  else none

/-- The rule on a line, if there is one. -/
def parseLine (buf : Str) : Option (Rule ρ) :=
  let ptr := cstring buf
  let ptr := if ptr.getLast? = some LF then ptr.dropLast else ptr
  let ptr := ptr.dropWhile isspace
  if ptr.head?.all (· = 0x23) then none
  else
    match argcvGet some 0 ptr with
    | arg :: re :: nets => do
      let action ← keyword arg
      let re ← rx.regcomp re
      return ⟨re, nets.filterMap netdefParse, action⟩
    | _ => none

/-- The rules of a file. -/
def rulesIn (config : Str) : List (Rule ρ) := (fgetsAll 128 config).filterMap (parseLine rx)

/-- A network contains the address, and the expression is in the name. -/
def Rule.matches (r : Rule ρ) (ip : UInt32) (name : Str) : Bool :=
  r.netlist.any fun net => net.contains ip && rx.regexec r.re name

/-! ## The list -/

structure Acls (ρ : Type) where
  heap : Heap (Rule ρ)
  aclHead : Option Nat
  aclTail : Option Nat

/-- Before anything has been read. -/
def Acls.init : Acls ρ := ⟨⟨[], false⟩, none, none⟩

namespace Acls

/-- A rule is put behind the others. -/
def append (s : Acls ρ) (r : Rule ρ) : Acls ρ :=
  let acl := s.heap.cells.length
  match s.aclTail with
  | none => { heap := s.heap.alloc r, aclHead := some acl, aclTail := some acl }
  | some tail => { s with heap := (s.heap.alloc r).setNext tail (some acl), aclTail := some acl }

/-- read_acl; `none` is a file that cannot be opened. -/
def readAcl (s : Acls ρ) (file : Option Str) : Acls ρ :=
  match file with
  | none => s
  | some config => (rulesIn rx config).foldl append s

/-- As many as have ever been allocated. -/
def bound (s : Acls ρ) : Nat := s.heap.cells.length

def discardAcl (s : Acls ρ) (mark : Option Nat) : Acls ρ :=
  match mark with
  | some mark =>
    { s with heap := ((s.heap.freeFrom s.bound (s.heap.next mark)).setNext mark none), aclTail := some mark }
  | none => { s with aclHead := none, aclTail := none }

/-- The rules from acl_head on. -/
def rules (s : Acls ρ) : List (Rule ρ) := s.heap.values s.bound s.aclHead

end Acls

/-! ## acl_match -/

/-- What getpwnam and fopen find. -/
structure Host where
  pwDir : Str → Option Str
  file : Str → Option Str

/-- `"/.talkrc"` -/
def userAclName : Str := [slash, 0x2e, 0x74, 0x61, 0x6c, 0x6b, 0x72, 0x63]

/-- A message, with where it has come from and the host as it is then. -/
structure Request where
  rName : Str
  lName : Str
  ip : UInt32
  host : Host

namespace Acls

/-- The mark, and the list with the user's rules. -/
def openUsersAcl (s : Acls ρ) (host : Host) (name : Str) : Option Nat × Acls ρ :=
  match host.pwDir name with
  | none => (none, s)
  | some dir => (s.aclTail, s.readAcl rx (host.file (dir ++ userAclName)))

/-- The action, or `none` if that is read in a rule that has been freed. -/
def aclMatch (s : Acls ρ) (r : Request) : Option Action × Acls ρ :=
  let (mark, s) := s.openUsersAcl rx r.host r.rName
  match s.heap.walk (fun rule => rule.matches rx r.ip r.lName) s.bound s.aclHead with
  | (some acl, heap) =>
    let s := { s with heap := heap }.discardAcl mark
    let action := if s.heap.live acl then (s.heap.cells[acl]?).map (·.val.action) else none
    (action, { s with heap := s.heap.touch acl })
  | (none, heap) => (some .allow, { s with heap := heap }.discardAcl mark)

end Acls

/-! ## What it is for -/

/-- The rules of the user, none if there is no such user. -/
def userRules (r : Request) : List (Rule ρ) :=
  match (r.host.pwDir r.rName).bind fun dir => r.host.file (dir ++ userAclName) with
  | none => []
  | some config => rulesIn rx config

/-- The first rule decides. -/
def verdict (rules : List (Rule ρ)) (r : Request) : Action :=
  ((rules.find? fun rule => rule.matches rx r.ip r.lName).map (·.action)).getD .allow

/-- The site's list stays what it is, no rule is touched that has been freed, and every verdict
    is that of the site's rules and then the user's. -/
def Permanent (site : List (Rule ρ)) : Acls ρ → List Request → Prop
  | s, [] => s.rules = site ∧ s.heap.dangled = false
  | s, r :: rs =>
    s.rules = site ∧ s.heap.dangled = false ∧ (s.aclMatch rx r).1 = some (verdict rx (site ++ userRules rx r) r) ∧
      Permanent site (s.aclMatch rx r).2 rs

/-! ## The list that is there -/

variable {rx} {s : Acls ρ} {l l' : List (Nat × Rule ρ)} {r : Request}

namespace Acls

/-- The list is this one, by address, and no freed rule has been touched. -/
structure Holds (s : Acls ρ) (l : List (Nat × Rule ρ)) : Prop where
  chain : Chain s.heap.cells s.aclHead l
  tail : IsLast l s.aclTail
  sound : s.heap.dangled = false

theorem init_holds : (init : Acls ρ).Holds [] := ⟨.nil, rfl, rfl⟩

theorem Holds.length_le (h : s.Holds l) : l.length ≤ s.bound := h.chain.length_le

theorem Holds.rules (h : s.Holds l) : s.rules = l.map Prod.snd := values_chain h.chain h.length_le

theorem append_holds (h : s.Holds l) (r : Rule ρ) : (s.append r).Holds (l ++ [(s.heap.cells.length, r)]) := by
  have htail : s.aclTail = l.getLast?.map Prod.fst := h.tail
  rcases List.eq_nil_or_concat' l with rfl | ⟨l, ⟨a, v⟩, rfl⟩
  · rw [append, show s.aclTail = none from htail]
    exact ⟨chain_alloc s.heap r, rfl, h.sound⟩
  · rw [append, show s.aclTail = some a by simpa using htail]
    obtain ⟨hchain, hsound⟩ := chain_append r h.chain
    exact ⟨hchain, by simp [IsLast], hsound.trans h.sound⟩

theorem foldl_append_holds (h : s.Holds l) (rs : List (Rule ρ)) :
    ∃ l', l'.map Prod.snd = rs ∧ (rs.foldl append s).Holds (l ++ l') := by
  induction rs generalizing s l with
  | nil => exact ⟨[], rfl, by simpa using h⟩
  | cons r rs ih =>
    obtain ⟨l', hl', hholds⟩ := ih (append_holds h r)
    refine ⟨(s.heap.cells.length, r) :: l', by rw [List.map_cons, hl'], ?_⟩
    rwa [List.append_assoc, List.singleton_append] at hholds

/-- Cut behind the last rule of the site; a rule is left if it is one of these. -/
theorem discardAcl_holds (hne : l ≠ []) (h : s.Holds (l ++ l')) :
    (s.discardAcl (l.getLast?.map Prod.fst)).Holds l ∧
      (∀ x ∈ l, (s.discardAcl (l.getLast?.map Prod.fst)).heap.live x.1 = true) ∧
      ∀ x ∈ l', (s.discardAcl (l.getLast?.map Prod.fst)).heap.live x.1 = false := by
  obtain ⟨l₀, ⟨a, v⟩, rfl⟩ := (List.eq_nil_or_concat' l).resolve_left hne
  have hchain := h.chain
  have hlength := h.length_le
  rw [List.append_assoc, List.singleton_append] at hchain
  rw [List.length_append] at hlength
  obtain ⟨hcut, hsound, -, hlive, hfreed⟩ := chain_cut (n := s.bound) hchain (by omega)
  rw [List.getLast?_concat, Option.map_some, discardAcl]
  exact ⟨⟨hcut, by simp [IsLast], hsound.trans h.sound⟩, hlive, hfreed⟩

theorem discardAcl_none (h : s.heap.dangled = false) : (s.discardAcl none).Holds [] := ⟨.nil, rfl, h⟩

variable (rx) in
/-- The list with the user's rules, if there is such a user. -/
theorem openUsersAcl_holds (h : s.Holds l) (r : Request) :
    ((s.openUsersAcl rx r.host r.rName) = (none, s) ∧ r.host.pwDir r.rName = none ∧ userRules rx r = []) ∨
      ((r.host.pwDir r.rName).isSome = true ∧ (s.openUsersAcl rx r.host r.rName).1 = l.getLast?.map Prod.fst ∧
        ∃ l', l'.map Prod.snd = userRules rx r ∧ (s.openUsersAcl rx r.host r.rName).2.Holds (l ++ l')) := by
  rw [openUsersAcl, userRules]
  cases r.host.pwDir r.rName with
  | none => exact Or.inl ⟨rfl, rfl, rfl⟩
  | some dir =>
    refine Or.inr ⟨rfl, h.tail, ?_⟩
    simp only [Option.bind_some, readAcl]
    cases r.host.file (dir ++ userAclName) with
    | none => exact ⟨[], rfl, by simpa using h⟩
    | some config => exact foldl_append_holds h (rulesIn rx config)

/-- The first of the rules by address that matches. -/
def first (rx : Regex ρ) (l : List (Nat × Rule ρ)) (r : Request) : Option (Nat × Rule ρ) :=
  l.find? fun x => x.2.matches rx r.ip r.lName

theorem verdict_first (l : List (Nat × Rule ρ)) (r : Request) :
    verdict rx (l.map Prod.snd) r = ((first rx l r).map (·.2.action)).getD .allow := by
  rw [verdict, first, List.find?_map, Option.map_map]
  rfl

theorem walk_first (h : s.Holds l) (r : Request) :
    s.heap.walk (fun rule => rule.matches rx r.ip r.lName) s.bound s.aclHead = ((first rx l r).map Prod.fst, s.heap) :=
  walk_chain _ h.chain h.length_le

/-- What is read of a rule that is live. -/
theorem read_live {x : Nat × Rule ρ} (h : s.Holds l) (hx : x ∈ l) :
    s.heap.live x.1 = true ∧ (s.heap.cells[x.1]?).map (·.val.action) = some x.2.action ∧ s.heap.touch x.1 = s.heap := by
  obtain ⟨n, hcell⟩ := h.chain.mem_cell hx
  exact ⟨by simp [Heap.live, hcell], by simp [hcell], Chain.touch hcell⟩

end Acls

/-! ## One message -/

/-- The message does no harm: the site has no list, or it is for a user there is and either a rule
    of the site decides or none of the user's applies. -/
def Harmless (rx : Regex ρ) (site : List (Rule ρ)) (r : Request) : Prop :=
  site = [] ∨ (r.host.pwDir r.rName).isSome = true ∧
    ((∃ rule ∈ site, rule.matches rx r.ip r.lName = true) ∨ ∀ rule ∈ userRules rx r, rule.matches rx r.ip r.lName = false)

namespace Acls

/-- Without a mark the list is dropped, but none of its rules is freed. -/
theorem aclMatch_unmarked {u : Acls ρ} (hu : s.openUsersAcl rx r.host r.rName = (none, u)) (h : u.Holds l) :
    (s.aclMatch rx r).1 = some (verdict rx (l.map Prod.snd) r) ∧ (s.aclMatch rx r).2.Holds [] := by
  rw [aclMatch, hu, verdict_first]
  simp only [walk_first h]
  cases hfirst : first rx l r with
  | none => exact ⟨rfl, discardAcl_none h.sound⟩
  | some x =>
    obtain ⟨hlive, haction, htouch⟩ := read_live h (List.mem_of_find?_eq_some hfirst)
    simp only [Option.map_some, discardAcl, hlive, haction, htouch, if_true]
    exact ⟨rfl, .nil, rfl, h.sound⟩

/-- With one the list of the site is left; the action of a user's rule is gone with the rule. -/
theorem aclMatch_marked {u : Acls ρ} (hne : l ≠ []) (hu : s.openUsersAcl rx r.host r.rName = (l.getLast?.map Prod.fst, u))
    (h : u.Holds (l ++ l')) :
    if (first rx l r).isSome ∨ first rx l' r = none then
      (s.aclMatch rx r).1 = some (verdict rx ((l ++ l').map Prod.snd) r) ∧ (s.aclMatch rx r).2.Holds l
    else (s.aclMatch rx r).1 = none := by
  obtain ⟨hholds, hlive, hfreed⟩ := discardAcl_holds hne h
  have happend : first rx (l ++ l') r = (first rx l r).or (first rx l' r) := List.find?_append
  rw [aclMatch, hu, verdict_first]
  simp only [walk_first h, happend]
  cases hl : first rx l r with
  | some x =>
    obtain ⟨hx, haction, htouch⟩ := read_live hholds (List.mem_of_find?_eq_some hl)
    simp only [Option.isSome_some, true_or, if_true, Option.some_or, Option.map_some, hx, haction, htouch]
    exact ⟨rfl, hholds⟩
  | none =>
    cases hl' : first rx l' r with
    | none =>
      simp only [or_true, if_true, Option.or_none, Option.map_none]
      exact ⟨rfl, hholds⟩
    | some x =>
      have hx := hfreed x (List.mem_of_find?_eq_some hl')
      simp [hx]

theorem first_isSome : (first rx l r).isSome = true ↔ ∃ rule ∈ l.map Prod.snd, rule.matches rx r.ip r.lName = true := by
  rw [first, List.find?_isSome]
  simp only [List.mem_map, exists_exists_and_eq_and]

theorem first_eq_none : first rx l r = none ↔ ∀ rule ∈ l.map Prod.snd, rule.matches rx r.ip r.lName = false := by
  rw [first, List.find?_eq_none]
  simp only [List.forall_mem_map, Bool.not_eq_true]

/-- A message that does no harm is judged by both lists, and the site's is there for the next. -/
theorem aclMatch_harmless (h : s.Holds l) (hr : Harmless rx (l.map Prod.snd) r) :
    (s.aclMatch rx r).1 = some (verdict rx (l.map Prod.snd ++ userRules rx r) r) ∧ (s.aclMatch rx r).2.Holds l := by
  rcases openUsersAcl_holds rx h r with ⟨hopen, hnone, huser⟩ | ⟨hsome, hmark, l', hl', hu⟩
  · -- nobody: only a site without a list gets away with it
    rcases hr with hsite | ⟨hsome, -⟩
    · obtain rfl := List.map_eq_nil_iff.mp hsite
      rw [huser, List.append_nil]
      exact aclMatch_unmarked hopen h
    · rw [hnone] at hsome
      exact absurd hsome (by decide)
  · have hopen : s.openUsersAcl rx r.host r.rName = (l.getLast?.map Prod.fst, (s.openUsersAcl rx r.host r.rName).2) :=
      Prod.ext hmark rfl
    rw [← hl', ← List.map_append]
    by_cases hne : l = []
    · subst hne
      exact aclMatch_unmarked hopen hu
    · have hdecides : (first rx l r).isSome = true ∨ first rx l' r = none := by
        rw [first_isSome, first_eq_none, hl']
        rcases hr with hsite | ⟨-, hr⟩
        · exact absurd (List.map_eq_nil_iff.mp hsite) hne
        · exact hr
      have hmarked := aclMatch_marked hne hopen hu
      rwa [if_pos hdecides] at hmarked

/-- Any other is not judged at all, or leaves no list. -/
theorem aclMatch_harmful (h : s.Holds l) (hr : ¬ Harmless rx (l.map Prod.snd) r) :
    (s.aclMatch rx r).1 = none ∨ (s.aclMatch rx r).2.rules ≠ l.map Prod.snd := by
  rw [Harmless, not_or, List.map_eq_nil_iff] at hr
  obtain ⟨hne, hr⟩ := hr
  rcases openUsersAcl_holds rx h r with ⟨hopen, -, -⟩ | ⟨hsome, hmark, l', hl', hu⟩
  · right
    rw [(aclMatch_unmarked hopen h).2.rules]
    exact fun heq => hne (List.map_eq_nil_iff.mp heq.symm)
  · left
    have hopen : s.openUsersAcl rx r.host r.rName = (l.getLast?.map Prod.fst, (s.openUsersAcl rx r.host r.rName).2) :=
      Prod.ext hmark rfl
    have hdecides : ¬((first rx l r).isSome = true ∨ first rx l' r = none) := by
      rw [first_isSome, first_eq_none, hl']
      exact fun hor => hr ⟨hsome, hor⟩
    have hmarked := aclMatch_marked hne hopen hu
    rwa [if_neg hdecides] at hmarked

end Acls

/-! ## All messages -/

theorem Permanent.head {site : List (Rule ρ)} {rs : List Request} (h : Permanent rx site s rs) : s.rules = site := by
  cases rs with
  | nil => exact h.1
  | cons r rs => exact h.1

theorem permanent_iff_of_holds (h : s.Holds l) (rs : List Request) :
    Permanent rx (l.map Prod.snd) s rs ↔ ∀ r ∈ rs, Harmless rx (l.map Prod.snd) r := by
  induction rs generalizing s with
  | nil => exact ⟨fun _ => nofun, fun _ => ⟨h.rules, h.sound⟩⟩
  | cons r rs ih =>
    rw [Permanent, List.forall_mem_cons]
    by_cases hr : Harmless rx (l.map Prod.snd) r
    · obtain ⟨hverdict, hnext⟩ := Acls.aclMatch_harmless h hr
      rw [ih hnext]
      exact ⟨fun hp => ⟨hr, hp.2.2.2⟩, fun hp => ⟨h.rules, h.sound, hverdict, hp.2⟩⟩
    · refine ⟨fun hp => ?_, fun hp => absurd hp.1 hr⟩
      rcases Acls.aclMatch_harmful h hr with hnone | hlost
      · exact absurd (hnone.symm.trans hp.2.2.1) (by simp)
      · exact absurd hp.2.2.2.head hlost

/-- The site's list is permanent as long as no message does harm. -/
theorem permanent_iff (rx : Regex ρ) (site : Option Str) (rs : List Request) :
    Permanent rx (Acls.init.readAcl rx site).rules (Acls.init.readAcl rx site) rs ↔
      ∀ r ∈ rs, Harmless rx (Acls.init.readAcl rx site).rules r := by
  obtain ⟨l, h⟩ : ∃ l, (Acls.init.readAcl rx site).Holds l := by
    cases site with
    | none => exact ⟨[], Acls.init_holds⟩
    | some config =>
      obtain ⟨l, -, h⟩ := Acls.foldl_append_holds Acls.init_holds (rulesIn rx config)
      exact ⟨l, h⟩
  rw [h.rules]
  exact permanent_iff_of_holds h rs

/-- Expressions that are found in every name. -/
def everyName : Regex Unit := ⟨fun _ => some (), fun _ _ => true⟩

/-- `deny x any` -/
def denyAll : Str := [0x64, 0x65, 0x6e, 0x79, 0x20, 0x78, 0x20] ++ any

/-- For somebody there is not. -/
def nobody : Request := ⟨[0x78], [0x78], 0x7f000001, ⟨fun _ => none, fun _ => none⟩⟩

/-- The first such message is denied, the next is let in. -/
theorem nobody_opens : ¬ Permanent everyName (Acls.init.readAcl everyName (some denyAll)).rules
    (Acls.init.readAcl everyName (some denyAll)) [nobody, nobody] := by
  intro h
  obtain ⟨-, -, -, -, -, hverdict, -⟩ := h
  revert hverdict
  decide

end Netutils.Talkd
