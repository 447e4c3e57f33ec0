/-
  Netutils.Session.Slc — telnetd and telnet answer each other's triplets.

  An acknowledgement is not answered. What a party answers otherwise is at a level that the
  other can take, or one step from it: with a weight for each triplet that knows how far
  telnet can go, every delivery lowers the weight of all that is under way, so it ends
  (`slc_ends`). This needs telnet's table not to be above its own limits, and no function
  that telnetd calls variable without keeping its character while telnet can not change it;
  without these the parties can answer each other forever (`slc_may_not_end`).
-/

import Netutils.Lib.Transition
import Netutils.Telnet.Slc
import Netutils.Telnetd.SlcReply

namespace Netutils.Session

open Netutils.Arpa
open Netutils.Lib.Exchange
open Netutils.Lib.Transition
open Netutils.Telnetd (level)
open Netutils.Wire

/-! ## The parties -/

/-- telnetd and telnet, and the SLC sub-options under way between them, without header and
    in their order. A reply finds room in netobuf and netoring, and a request that is put off
    the memory to keep it. -/
structure Pair where
  telnetd : Telnetd.Slc
  telnet : Telnet.Slc
  /-- terminit () -/
  terminit : Bool
  toTelnetd : List (List UInt8)
  toTelnet : List (List UInt8)

namespace Pair

/-- telnetd with nothing that has yet to be put under way. -/
def server (p : Pair) : Telnetd.Slc := { p.telnetd with sent := [] }

def client (p : Pair) : Telnet.Slc := { p.telnet with sent := [] }

/-- What telnetd has sent is under way. -/
def telnetdSent (p : Pair) (s : Telnetd.Slc) : Pair :=
  { p with telnetd := s, toTelnet := p.toTelnet ++ s.sent.map slcContent }

def telnetSent (p : Pair) (s : Telnet.Slc) : Pair :=
  { p with telnet := s, toTelnetd := p.toTelnetd ++ s.sent.map slcContent }

end Pair

/-- `chars` is what init_termbuf reads. -/
inductive Delivery where
  | telnetd (chars : Nat → UInt8)
  | telnet
  /-- defer_terminit -/
  | deferTerminit (chars : Nat → UInt8)

def deliver : Delivery → Pair → Option Pair
  | .telnetd chars, p =>
    match p.toTelnetd with
    | [] => none
    | m :: rest => some ({ p with toTelnetd := rest }.telnetdSent (p.server.exchange chars p.terminit true m))
  | .telnet, p =>
    match p.toTelnet with
    | [] => none
    | m :: rest => some ({ p with toTelnet := rest }.telnetSent (p.client.slc (fun _ => true) m))
  | .deferTerminit chars, p =>
    if p.terminit then none
    else some ({ p with terminit := true }.telnetdSent (p.server.deferslc chars true true))

def Delivers (p q : Pair) : Prop := ∃ d, deliver d p = some q

/-- telnet's functions are not above what it can do, and where telnet can not change a
    function, telnetd keeps its character if it calls it variable. -/
structure Compatible (p : Pair) : Prop where
  telnet : ∀ i ∈ Telnet.Slc.functions, level (p.telnet.spcData i).flags ≤ level (p.telnet.spcData i).mylevel
  both : ∀ i ∈ Telnet.Slc.functions, level (p.telnet.spcData i).mylevel = SLC_CANTCHANGE →
    level (p.telnetd.slctab i).defset.flag = SLC_VARIABLE → (p.telnetd.slctab i).sptr.isSome

/-- Functions that telnetd has at level `d` and does not keep, and telnet at `f` and can take up to
    `m`; telnetd proposes the first. -/
def quarrel (m f d : UInt8) : Pair :=
  ⟨{ Telnetd.Slc.bare with slctab := fun _ => ⟨⟨d, 9⟩, ⟨d, 9⟩, none⟩ }, ⟨fun _ => ⟨5, none, f, m⟩, fun _ => 0, [], []⟩,
    true, [], [[1, d, 9]]⟩

/-! ## What a delivery does -/

/-- telnetd has answered the triplets `ts`. -/
structure Answered (ts : List Triplet) (p q : Pair) : Prop where
  telnet : q.telnet = p.telnet
  terminit : q.terminit = true
  slctab : q.telnetd.slctab = (converse Telnetd.Slc.respond p.telnetd.slctab ts).1
  toTelnet : q.toTelnet =
    p.toTelnet ++ (slcMessage (converse Telnetd.Slc.respond p.telnetd.slctab ts).2).map slcContent

/-- telnet has answered the triplets `ts`, and slc_update has been through its table. -/
structure Taken (ts : List Triplet) (p q : Pair) : Prop where
  telnetd : q.telnetd = p.telnetd
  terminit : q.terminit = p.terminit
  spcData : q.telnet.spcData = fun k =>
    if k ∈ Telnet.Slc.functions then Telnet.Slc.cleared ((converse Telnet.Slc.respond p.telnet.spcData ts).1 k)
    else (converse Telnet.Slc.respond p.telnet.spcData ts).1 k
  toTelnetd : q.toTelnetd =
    p.toTelnetd ++ (slcMessage (converse Telnet.Slc.respond p.telnet.spcData ts).2).map slcContent

inductive Delivered (p q : Pair) : Prop
  | answered (m : List UInt8) (hm : p.toTelnetd = m :: q.toTelnetd) (hs : q.telnetd.defSlcbuf = p.telnetd.defSlcbuf)
      (ht : p.terminit = true) (h : Answered (triplets m) p q)
  | putOff (m : List UInt8) (hm : p.toTelnetd = m :: q.toTelnetd)
      (hs : q.telnetd.defSlcbuf = some (p.telnetd.defSlcbuf.getD m)) (ht : p.terminit = false ∧ q.terminit = false)
      (h : q.telnet = p.telnet ∧ q.telnetd.slctab = p.telnetd.slctab ∧ q.toTelnet = p.toTelnet)
  | taken (m : List UInt8) (hm : p.toTelnet = m :: q.toTelnet) (h : Taken (triplets m) p q)
  | initialised (ht : p.terminit = false ∧ q.terminit = true)
      (hs : p.telnetd.defSlcbuf = none ∧ q.telnetd.defSlcbuf = none)
      (h : q.telnet = p.telnet ∧ q.telnetd.slctab = p.telnetd.slctab ∧ q.toTelnet = p.toTelnet ∧
        q.toTelnetd = p.toTelnetd)
  | caughtUp (m : List UInt8) (hs : p.telnetd.defSlcbuf = some m ∧ q.telnetd.defSlcbuf = none)
      (hno : q.toTelnetd = p.toTelnetd) (ht : p.terminit = false) (h : Answered (triplets m) p q)

variable {p q : Pair}

/-- An answer is all that telnetd puts under way. -/
theorem answered_of_exchange (chars : Nat → UInt8) (m : List UInt8) (htelnet : q.telnet = p.telnet)
    (hterm : q.terminit = true) (htab : q.telnetd.slctab = (p.server.exchange chars true true m).slctab)
    (hto : q.toTelnet = p.toTelnet ++ (p.server.exchange chars true true m).sent.map slcContent) :
    Answered (triplets m) p q := by
  obtain ⟨h1, h2, -⟩ := p.server.exchange_eq chars true m
  exact ⟨htelnet, hterm, htab.trans h2, by rw [hto, h1]; rfl⟩

theorem delivered {d : Delivery} (h : deliver d p = some q) : Delivered p q := by
  cases d with
  | telnetd chars =>
    simp only [deliver] at h
    split at h
    · cases h
    rename_i m rest hm
    obtain rfl := Option.some.inj h
    cases ht : p.terminit with
    | true =>
      have hs : (p.server.exchange chars true true m).defSlcbuf = p.telnetd.defSlcbuf :=
        (p.server.exchange_eq chars true m).2.2
      exact .answered m hm hs ht (answered_of_exchange chars m rfl rfl rfl rfl)
    | false =>
      obtain ⟨h1, h2, h3⟩ := p.server.exchange_early chars m
      refine .putOff m hm h3 ⟨ht, rfl⟩ ⟨rfl, h2, ?_⟩
      show p.toTelnet ++ (p.server.exchange chars false true m).sent.map slcContent = p.toTelnet
      rw [h1]
      exact List.append_nil _
  | telnet =>
    simp only [deliver] at h
    split at h
    · cases h
    rename_i m rest hm
    obtain rfl := Option.some.inj h
    obtain ⟨h1, h2⟩ := p.client.slc_eq m
    refine .taken m hm ⟨rfl, rfl, h2, ?_⟩
    show p.toTelnetd ++ (p.client.slc _ m).sent.map slcContent = _
    rw [h1]
    rfl
  | deferTerminit chars =>
    simp only [deliver] at h
    split at h
    · cases h
    rename_i ht
    obtain rfl := Option.some.inj h
    have ht : p.terminit = false := Bool.eq_false_iff.mpr ht
    rcases hs : p.telnetd.defSlcbuf with _ | m
    · have hd : p.server.deferslc chars true true = p.server := by
        simp only [Telnetd.Slc.deferslc, show p.server.defSlcbuf = none from hs]
      rw [hd]
      exact .initialised ⟨ht, rfl⟩ ⟨hs, hs⟩ ⟨rfl, rfl, List.append_nil _, rfl⟩
    · have hd : p.server.deferslc chars true true = { p.server.exchange chars true true m with defSlcbuf := none } := by
        simp only [Telnetd.Slc.deferslc, show p.server.defSlcbuf = some m from hs]
      rw [hd]
      exact .caughtUp m ⟨hs, rfl⟩ rfl ht (answered_of_exchange chars m rfl rfl rfl rfl)

/-! ## Weights -/

/-- The weight of a triplet on its way to telnetd, where telnet's functions have the limits
    `my`: an acknowledgement is not answered, and a level that telnet can take comes back
    acknowledged. -/
def telnetdWeight (my : Nat → UInt8) (t : Triplet) : Nat :=
  if t.1.toNat > NSLC then 2
  else if t.1 = 0 then 4 * NSLC + 1
  else if t.2.1 &&& SLC_ACK ≠ 0 then 1
  else if level t.2.1 ≤ level (my t.1.toNat) then 3
  else 5

def telnetWeight (my : Nat → UInt8) (t : Triplet) : Nat :=
  if t.1 = 0 then 1
  else if t.1.toNat > NSLC then if level t.2.1 = SLC_NOSUPPORT then 1 else 3
  else if level t.2.1 ≤ level (my t.1.toNat) ∧ level t.2.1 ≠ SLC_DEFAULT then 2
  else 4

/-- telnet's functions have the limits `my`, and are not above them. -/
def Able (my : Nat → UInt8) (tab : Nat → Telnet.Spc) : Prop :=
  ∀ i ∈ Telnet.Slc.functions, (tab i).mylevel = my i ∧ level (tab i).flags ≤ level (my i)

/-- What telnetd calls variable, and telnet can not change, telnetd keeps. -/
def Kept (my : Nat → UInt8) (tab : Nat → Telnetd.Slcfun) : Prop :=
  ∀ i ∈ Telnet.Slc.functions, level (my i) = SLC_CANTCHANGE → level (tab i).defset.flag = SLC_VARIABLE →
    (tab i).sptr.isSome

theorem telnetWeight_le (my : Nat → UInt8) (t : Triplet) : telnetWeight my t ≤ 4 := by
  unfold telnetWeight
  repeat' split
  all_goals omega

theorem mem_functions {func : UInt8} (h0 : func ≠ 0) (h : ¬ func.toNat > NSLC) : func.toNat ∈ Telnet.Slc.functions := by
  have : func.toNat ≠ 0 := fun hz => h0 (UInt8.toNat_inj.mp hz)
  simp only [Telnet.Slc.functions, List.mem_range'_1]
  omega

/-- telnet answers what it has taken with an acknowledgement, and anything else at a level
    that it can take. -/
theorem answerOne_spec {e : Telnet.Spc} (he : level e.flags ≤ level e.mylevel) (c : UInt8 × UInt8) :
    (Telnet.answerOne e c).1.mylevel = e.mylevel ∧
      level (Telnet.answerOne e c).1.flags ≤ level e.mylevel ∧
      ∀ a ∈ (Telnet.answerOne e c).2, a.1 &&& SLC_ACK ≠ 0 ∨
        level a.1 ≤ level e.mylevel ∧ ¬ (level c.1 ≤ level e.mylevel ∧ level c.1 ≠ SLC_DEFAULT) := by
  have hack : ∀ x : UInt8, (x ||| SLC_ACK) &&& SLC_ACK ≠ 0 := fun x => by rw [ack_ack]; decide
  have hlow : ∀ y, level SLC_NOSUPPORT ≤ y := by
    intro y
    rw [show level SLC_NOSUPPORT = 0 by decide]
    exact UInt8.zero_le
  unfold Telnet.answerOne
  simp only [both_level, both_clear]
  by_cases h1 : c.2 = e.val ∧ c.1 &&& SLC_LEVELBITS = e.flags &&& SLC_LEVELBITS
  · rw [if_pos h1]
    exact ⟨rfl, he, by simp⟩
  rw [if_neg h1]
  obtain ⟨flags, hf⟩ : ∃ flags, flags =
      if c.1 &&& (SLC_LEVELBITS ||| SLC_ACK) = SLC_DEFAULT ||| SLC_ACK then c.1 &&& ~~~SLC_ACK else c.1 := ⟨_, rfl⟩
  have hlevel : level flags = level c.1 := by
    rw [hf]
    split
    · exact level_clear c.1
    · rfl
  rw [← hf]
  by_cases h2 : c.1 &&& (SLC_LEVELBITS ||| SLC_ACK) = e.flags &&& SLC_LEVELBITS ||| SLC_ACK
  · -- an acknowledgement of the level that telnet has
    have hsame : level c.1 = level e.flags := by
      have := congrArg (· &&& SLC_LEVELBITS) h2
      simpa [level] using this
    rw [if_pos h2]
    exact ⟨rfl, by show level flags ≤ _; rw [hlevel, hsame]; exact he, by simp⟩
  rw [if_neg h2]
  by_cases h3 : c.1 &&& SLC_LEVELBITS ≤ e.mylevel &&& SLC_LEVELBITS
  · simp only [if_pos h3]
    by_cases h4 : c.1 &&& SLC_LEVELBITS = SLC_DEFAULT
    · have hno : ¬ (level c.1 ≤ level e.mylevel ∧ level c.1 ≠ SLC_DEFAULT) := fun h => h.2 h4
      simp only [if_pos h4]
      split
      · exact ⟨rfl, UInt8.le_refl _, by simp [hno]⟩
      · exact ⟨rfl, hlow _, by simp only [Option.mem_some_iff, forall_eq']; exact Or.inr ⟨hlow _, hno⟩⟩
    · simp only [if_neg h4]
      refine ⟨trivial, ?_, ?_⟩
      · show level (flags ||| SLC_ACK) ≤ level e.mylevel
        rw [show level (flags ||| SLC_ACK) = level flags from level_ack flags, hlevel]
        exact h3
      · simp only [Option.mem_some_iff, forall_eq']
        exact Or.inl (hack flags)
  · have hno : ¬ (level c.1 ≤ level e.mylevel ∧ level c.1 ≠ SLC_DEFAULT) := fun h => h3 h.1
    simp only [if_neg h3]
    split
    · split
      · exact ⟨rfl, UInt8.le_refl _, by simp [hno]⟩
      · exact ⟨rfl, hlow _, by simp only [Option.mem_some_iff, forall_eq']; exact Or.inr ⟨hlow _, hno⟩⟩
    · exact ⟨rfl, he, by simp only [Option.mem_some_iff, forall_eq']; exact Or.inr ⟨he, hno⟩⟩

/-- telnetd acknowledges the level it is asked for, or answers with one of its own. -/
theorem change_level {f : Telnetd.Slcfun} {my : UInt8}
    (hf : level my = SLC_CANTCHANGE → level f.defset.flag = SLC_VARIABLE → f.sptr.isSome) (flag val : UInt8)
    (hle : level flag ≤ level my) :
    level (Telnetd.Slc.change f flag val).2.flag ≤ level my ∧
      level (Telnetd.Slc.change f flag val).2.flag ≠ SLC_DEFAULT := by
  have hput : ∀ y, level (flag &&& ~~~SLC_LEVELBITS ||| level y) = level y := fun y => (level_put flag y).1
  have hnone : level (flag &&& ~~~SLC_LEVELBITS ||| SLC_NOSUPPORT) = SLC_NOSUPPORT := (level_put flag 0).1
  have hack : level (flag ||| SLC_ACK) = level flag := level_ack flag
  have hns : level SLC_NOSUPPORT = SLC_NOSUPPORT := by decide
  have hzero : ∀ y, level SLC_NOSUPPORT ≤ level y ∧ level SLC_NOSUPPORT ≠ SLC_DEFAULT := by
    intro y
    rw [hns]
    exact ⟨UInt8.zero_le, by decide⟩
  unfold Telnetd.Slc.change
  simp only
  by_cases h1 : level flag = SLC_NOSUPPORT
  · rw [if_pos h1, hack, h1]
    exact hns ▸ hzero my
  rw [if_neg h1]
  by_cases h2 : level flag = SLC_DEFAULT
  · rw [if_pos h2]
    by_cases hd : level f.defset.flag = SLC_DEFAULT
    · simp only [if_pos hd]
      exact hzero my
    · -- telnet can take any level
      have h3 : level my = SLC_DEFAULT := by
        rcases level_cases my with h | h | h | h
        all_goals first | exact h | exact absurd hle (by rw [h2, show level my = _ from h]; decide)
      simp only [if_neg hd]
      refine ⟨?_, hd⟩
      rw [h3]
      rcases level_cases f.defset.flag with h | h | h | h <;> rw [show level f.defset.flag = _ from h] <;> decide
  rw [if_neg h2]
  by_cases h4 : f.sptr.isSome = true ∨ level f.defset.flag = SLC_DEFAULT
  · rw [if_pos h4, hack]
    exact ⟨hle, h2⟩
  rw [if_neg h4]
  obtain ⟨hp, hd⟩ := not_or.mp h4
  by_cases h5 : level flag = SLC_CANTCHANGE ∧ level f.defset.flag = SLC_CANTCHANGE
  · rw [if_pos h5, hnone]
    exact hns ▸ hzero my
  rw [if_neg h5]
  -- telnetd's own level, which telnet can take unless it is variable and telnet can not change
  have hown : level f.defset.flag ≤ level my ∧ level f.defset.flag ≠ SLC_DEFAULT := by
    refine ⟨?_, hd⟩
    have hmy : level my ≠ SLC_NOSUPPORT := by
      intro h
      rcases level_cases flag with h' | h' | h' | h'
      · exact h1 h'
      all_goals exact absurd hle (by rw [h, show level flag = _ from h']; decide)
    rcases level_cases my with h | h | h | h
    · exact absurd h hmy
    all_goals rcases level_cases f.defset.flag with h' | h' | h' | h'
    all_goals first
      | exact absurd h' hd
      | exact absurd (hf h h') hp
      | rw [show level my = _ from h, show level f.defset.flag = _ from h']; decide
  split
  · rw [hput]
    exact hown
  · rw [hput]
    exact hown

/-- A triplet outweighs what telnet answers it with. -/
theorem telnet_respond {my : Nat → UInt8} {tab : Nat → Telnet.Spc} (h : Able my tab) (t : Triplet) :
    Able my (Telnet.Slc.respond tab t).1 ∧
      ((Telnet.Slc.respond tab t).2.map (telnetdWeight my)).sum < telnetWeight my t := by
  unfold Telnet.Slc.respond telnetWeight
  by_cases h0 : t.1 = 0
  · simp only [if_pos h0]
    exact ⟨h, Nat.one_pos⟩
  simp only [if_neg h0]
  by_cases h1 : t.1.toNat > NSLC
  · simp only [if_pos h1]
    refine ⟨h, ?_⟩
    unfold level
    by_cases h2 : t.2.1 &&& SLC_LEVELBITS = SLC_NOSUPPORT
    · simp [h2]
    · simp [h2, telnetdWeight, h1]
  simp only [if_neg h1]
  have hin := mem_functions h0 h1
  obtain ⟨hmy, hle⟩ := h _ hin
  obtain ⟨h2, h3, h4⟩ := answerOne_spec (hmy ▸ hle) t.2
  constructor
  · intro i hi
    by_cases hk : i = t.1.toNat
    · rw [hk, Function.update_self]
      exact ⟨h2.trans hmy, hmy ▸ h3⟩
    · rw [Function.update_of_ne hk]
      exact h i hi
  · rw [← hmy]
    rcases ha : (Telnet.answerOne (tab t.1.toNat) t.2).2 with _ | a
    · show 0 < _
      split <;> omega
    · show telnetdWeight my (t.1, a) + 0 < _
      unfold telnetdWeight
      rw [if_neg h1, if_neg h0]
      rcases h4 a ha with h5 | ⟨h5, h6⟩
      · rw [if_pos h5]
        split <;> omega
      · rw [if_neg h6, ← hmy, if_pos h5]
        split <;> omega

theorem retab_kept (tab : Nat → Telnetd.Slcfun) (func flag val : UInt8) (i : Nat) :
    (Telnetd.Slc.retab tab func flag val i).defset = (tab i).defset ∧
      (Telnetd.Slc.retab tab func flag val i).sptr = (tab i).sptr := by
  unfold Telnetd.Slc.retab Telnetd.Slc.setEntry Telnetd.Slc.restored
  split
  · exact ⟨rfl, rfl⟩
  split
  · split
    · by_cases hk : i ∈ Telnetd.Slc.functions <;> simp [hk]
    · exact ⟨rfl, rfl⟩
  split
  · exact ⟨rfl, rfl⟩
  · by_cases hk : i = func.toNat <;> simp [hk]

/-- The whole table, as telnetd tells it. -/
theorem told_weight (my : Nat → UInt8) (tab : Nat → Telnetd.Slcfun) (l : List Nat) :
    ((l.filterMap (Telnetd.Slc.told tab)).map (telnetWeight my)).sum ≤ 4 * l.length := by
  induction l with
  | nil => exact Nat.le_refl _
  | cons i l ih =>
    rcases hi : Telnetd.Slc.told tab i with _ | u
    · rw [List.filterMap_cons_none hi, List.length_cons]
      omega
    · have := telnetWeight_le my u
      rw [List.filterMap_cons_some hi, List.map_cons, List.sum_cons, List.length_cons]
      omega

/-- A triplet outweighs what telnetd answers it with. -/
theorem telnetd_respond {my : Nat → UInt8} {tab : Nat → Telnetd.Slcfun} (h : Kept my tab) (t : Triplet) :
    Kept my (Telnetd.Slc.respond tab t).1 ∧
      ((Telnetd.Slc.respond tab t).2.map (telnetWeight my)).sum < telnetdWeight my t := by
  constructor
  · intro i hi
    obtain ⟨h1, h2⟩ := retab_kept tab t.1 t.2.1 t.2.2 i
    show _ → level (Telnetd.Slc.retab tab t.1 t.2.1 t.2.2 i).defset.flag = _ → _
    rw [h1, Telnetd.Slc.respond]
    simp only [h2]
    exact h i hi
  unfold Telnetd.Slc.respond telnetdWeight
  by_cases h1 : t.1.toNat > NSLC
  · have h0 : t.1 ≠ 0 := by
      intro h0
      rw [h0] at h1
      exact absurd h1 (by decide)
    have hns : level SLC_NOSUPPORT = SLC_NOSUPPORT := by decide
    simp only [if_pos h1]
    show telnetWeight my (t.1, SLC_NOSUPPORT, 0) + 0 < 2
    unfold telnetWeight
    rw [if_neg h0, if_pos h1, if_pos hns]
    omega
  simp only [if_neg h1]
  by_cases h0 : t.1 = 0
  · simp only [if_pos h0]
    have := told_weight my (Telnetd.Slc.retab tab t.1 t.2.1 t.2.2) Telnetd.Slc.functions
    have hlen : Telnetd.Slc.functions.length = NSLC := by simp [Telnetd.Slc.functions]
    split
    · omega
    · show 0 < _
      omega
  simp only [if_neg h0]
  by_cases h2 : Telnetd.Slc.Ignored (tab t.1.toNat) t.2.1 t.2.2
  · simp only [if_pos h2]
    show 0 < _
    repeat' split
    all_goals omega
  · simp only [if_neg h2, if_neg (fun ha => h2 (Or.inl ha))]
    show telnetWeight my (t.1, _, _) + 0 < _
    by_cases h3 : level t.2.1 ≤ level (my t.1.toNat)
    · have := change_level (h _ (mem_functions h0 h1)) t.2.1 t.2.2 h3
      unfold telnetWeight
      rw [if_pos h3, if_neg h0, if_neg h1, if_pos this]
      omega
    · have := telnetWeight_le my (t.1, (Telnetd.Slc.change (tab t.1.toNat) t.2.1 t.2.2).2.flag,
        (Telnetd.Slc.change (tab t.1.toNat) t.2.1 t.2.2).2.val)
      rw [if_neg h3]
      omega

/-! ## Deliveries end -/

def messageWeight (w : Triplet → Nat) (m : List UInt8) : Nat := 1 + ((triplets m).map w).sum

/-- The weight of all that is under way, with what telnetd has put off. -/
def Pair.weight (my : Nat → UInt8) (p : Pair) : Nat :=
  (p.toTelnetd.map (messageWeight (telnetdWeight my))).sum + (p.toTelnet.map (messageWeight (telnetWeight my))).sum +
    (p.telnetd.defSlcbuf.map fun m => ((triplets m).map (telnetdWeight my)).sum).getD 0 + if p.terminit then 0 else 1

/-- The message that answers a message does not weigh more than what was in that. -/
theorem answers_weight {σ : Type} {respond : σ → Triplet → σ × List Triplet} {P : σ → Prop} {w w' : Triplet → Nat}
    (h : ∀ s t, P s → P (respond s t).1 ∧ ((respond s t).2.map w').sum < w t) {s : σ} (hs : P s) (l : List Triplet) :
    (((slcMessage (converse respond s l).2).map slcContent).map (messageWeight w')).sum ≤ (l.map w).sum := by
  have hw := converse_weight h hs l
  unfold slcMessage
  by_cases hz : (converse respond s l).2 = []
  · rw [if_pos hz]
    exact Nat.zero_le _
  · have hl : l ≠ [] := by
      rintro rfl
      exact hz rfl
    have := List.length_pos_of_ne_nil hl
    rw [if_neg hz]
    simp only [List.map_cons, List.map_nil, List.sum_cons, List.sum_nil, messageWeight, triplets_content]
    omega

variable {my : Nat → UInt8}

/-- `my` are telnet's limits, which stay. -/
structure Bounded (my : Nat → UInt8) (p : Pair) : Prop where
  telnet : Able my p.telnet.spcData
  telnetd : Kept my p.telnetd.slctab

/-- telnetd's table stays, and the answer weighs no more than the triplets. -/
theorem Answered.weight {ts : List Triplet} (hb : Bounded my p) (h : Answered ts p q) :
    Bounded my q ∧ (q.toTelnet.map (messageWeight (telnetWeight my))).sum ≤
      (p.toTelnet.map (messageWeight (telnetWeight my))).sum + (ts.map (telnetdWeight my)).sum := by
  have hkept := converse_inv (P := Kept my) (fun _ t hP => (telnetd_respond hP t).1) hb.telnetd ts
  have hw := answers_weight (P := Kept my) (fun _ t hP => telnetd_respond hP t) hb.telnetd ts
  refine ⟨⟨h.telnet ▸ hb.telnet, h.slctab ▸ hkept⟩, ?_⟩
  rw [h.toTelnet, List.map_append, List.sum_append]
  exact Nat.add_le_add_left hw _

/-- slc_update clears no more than the acknowledgements. -/
theorem Taken.weight {ts : List Triplet} (hb : Bounded my p) (h : Taken ts p q) :
    Bounded my q ∧ (q.toTelnetd.map (messageWeight (telnetdWeight my))).sum ≤
      (p.toTelnetd.map (messageWeight (telnetdWeight my))).sum + (ts.map (telnetWeight my)).sum := by
  have hable := converse_inv (P := Able my) (fun _ t hP => (telnet_respond hP t).1) hb.telnet ts
  have hw := answers_weight (P := Able my) (fun _ t hP => telnet_respond hP t) hb.telnet ts
  refine ⟨⟨?_, h.telnetd ▸ hb.telnetd⟩, ?_⟩
  · intro i hi
    obtain ⟨hmy, hle⟩ := hable i hi
    rw [h.spcData]
    simp only [if_pos hi]
    refine ⟨hmy, ?_⟩
    show (_ &&& ~~~SLC_ACK) &&& SLC_LEVELBITS ≤ _
    rw [level_clear]
    exact hle
  · rw [h.toTelnetd, List.map_append, List.sum_append]
    exact Nat.add_le_add_left hw _

theorem weight_lt {d : Delivery} (hb : Bounded my p) (h : deliver d p = some q) :
    Bounded my q ∧ q.weight my < p.weight my := by
  cases delivered h with
  | answered m hm hs ht h =>
    obtain ⟨hb', hw⟩ := h.weight hb
    refine ⟨hb', ?_⟩
    simp only [Pair.weight, hm, hs, ht, h.terminit, List.map_cons, List.sum_cons, messageWeight] at hw ⊢
    omega
  | putOff m hm hs ht h =>
    obtain ⟨htelnet, htab, hto⟩ := h
    refine ⟨⟨htelnet ▸ hb.telnet, htab ▸ hb.telnetd⟩, ?_⟩
    simp only [Pair.weight, hm, hs, ht, hto, List.map_cons, List.sum_cons, messageWeight, Option.map_some, Option.getD_some]
    rcases p.telnetd.defSlcbuf with _ | l
    · simp only [Option.getD_none, Option.map_none]
      omega
    · simp only [Option.getD_some, Option.map_some]
      omega
  | taken m hm h =>
    obtain ⟨hb', hw⟩ := h.weight hb
    refine ⟨hb', ?_⟩
    simp only [Pair.weight, hm, h.telnetd, h.terminit, List.map_cons, List.sum_cons, messageWeight] at hw ⊢
    omega
  | initialised ht hs h =>
    obtain ⟨htelnet, htab, hto, hno⟩ := h
    refine ⟨⟨htelnet ▸ hb.telnet, htab ▸ hb.telnetd⟩, ?_⟩
    simp only [Pair.weight, hto, hno, hs, ht, Bool.false_eq_true, if_true, if_false]
    omega
  | caughtUp m hs hno ht h =>
    obtain ⟨hb', hw⟩ := h.weight hb
    refine ⟨hb', ?_⟩
    simp only [Pair.weight, hno, hs, ht, h.terminit, Option.map_some, Option.getD_some, Option.map_none, Option.getD_none,
      Bool.false_eq_true, if_true, if_false]
    omega

/-- However many triplets are under way, the parties stop answering each other. -/
theorem slc_ends (hc : Compatible p) : Ends Delivers p := by
  obtain ⟨my, hmy⟩ : ∃ my : Nat → UInt8, my = fun i => (p.telnet.spcData i).mylevel := ⟨_, rfl⟩
  have hinv : ∀ p q, Bounded my p → Delivers p q → Bounded my q := fun p q hb ⟨d, hd⟩ => (weight_lt hb hd).1
  have hlt : ∀ p q, Bounded my p → Delivers p q → q.weight my < p.weight my := fun p q hb ⟨d, hd⟩ => (weight_lt hb hd).2
  have hp : Bounded my p := by
    subst hmy
    exact ⟨fun i hi => ⟨rfl, hc.telnet i hi⟩, hc.both⟩
  exact ends_of_measure (Pair.weight my) hinv hlt hp

theorem slc_ends_variable : Ends Delivers (quarrel SLC_VARIABLE SLC_CANTCHANGE SLC_CANTCHANGE) :=
  slc_ends ⟨fun _ _ => (by decide : level SLC_CANTCHANGE ≤ level SLC_VARIABLE),
    fun _ _ h => absurd h (by decide : level SLC_VARIABLE ≠ SLC_CANTCHANGE)⟩

/-! ## Tables with which they do not -/

/-- One triplet is under way: telnet insists on `f` and telnetd on `d`. -/
structure Quarrels (m f d : UInt8) (p : Pair) : Prop where
  terminit : p.terminit = true
  telnet : p.telnet.spcData 1 = ⟨5, none, f, m⟩
  defset : (p.telnetd.slctab 1).defset = ⟨d, 9⟩
  sptr : (p.telnetd.slctab 1).sptr = none
  current : level (p.telnetd.slctab 1).current.flag = level d
  turn : p.toTelnetd = [[1, f, 5]] ∧ p.toTelnet = [] ∨ p.toTelnetd = [] ∧ ∃ x, p.toTelnet = [[1, d, x]]

/-- telnetd is asked for `f` and names `d`. -/
theorem quarrels_telnetd {m f d : UInt8} (hf : f &&& SLC_ACK = 0) (hfd : level f ≠ level d)
    (htelnetd : ∀ g : Telnetd.Slcfun, g.defset = ⟨d, 9⟩ → g.sptr = none →
      level (Telnetd.Slc.change g f 5).1.flag = level d ∧ (Telnetd.Slc.change g f 5).2.flag = d)
    (h : Quarrels m f d p) (h1 : p.toTelnetd = [[1, f, 5]]) (h2 : p.toTelnet = []) :
    ∃ q, Delivers p q ∧ Quarrels m f d q := by
  have hd : deliver (.telnetd fun _ => 0) p =
      some ({ p with toTelnetd := [] }.telnetdSent (p.server.exchange (fun _ => 0) true true [1, f, 5])) := by
    simp only [deliver, h1, h.terminit]
  obtain ⟨hsent, htab, -⟩ := p.server.exchange_eq (fun _ => 0) true [1, f, 5]
  obtain ⟨hc, ha⟩ := htelnetd _ h.defset h.sptr
  have hign : ¬ Telnetd.Slc.Ignored (p.telnetd.slctab 1) f 5 := by
    rintro (hi | ⟨hi, -⟩)
    · exact hi hf
    · exact hfd (hi.trans h.current)
  have hone : converse Telnetd.Slc.respond p.server.slctab (triplets [1, f, 5]) =
      (Telnetd.Slc.setEntry p.telnetd.slctab 1 (Telnetd.Slc.change (p.telnetd.slctab 1) f 5).1,
        [(1, d, (Telnetd.Slc.change (p.telnetd.slctab 1) f 5).2.val)]) := by
    show converse Telnetd.Slc.respond p.telnetd.slctab [(1, f, 5)] = _
    have h18 : ¬ 1 > NSLC := by decide
    have h10 : (1 : UInt8) ≠ 0 := by decide
    have h11 : (1 : UInt8).toNat = 1 := rfl
    simp only [converse, Telnetd.Slc.respond, Telnetd.Slc.retab, h11, if_neg h18, if_neg h10, if_neg hign, ha,
      List.append_nil]
  rw [hone] at hsent htab
  refine ⟨_, ⟨_, hd⟩, h.terminit, h.telnet, ?_, ?_, ?_,
    Or.inr ⟨rfl, (Telnetd.Slc.change (p.telnetd.slctab 1) f 5).2.val, ?_⟩⟩
  · show ((p.server.exchange _ true true _).slctab 1).defset = _
    rw [htab]
    exact h.defset
  · show ((p.server.exchange _ true true _).slctab 1).sptr = _
    rw [htab]
    exact h.sptr
  · show level ((p.server.exchange _ true true _).slctab 1).current.flag = _
    rw [htab]
    exact hc
  · show p.toTelnet ++ (p.server.exchange _ true true _).sent.map slcContent = _
    have hnone : p.server.sent = [] := rfl
    rw [hsent, h2, hnone]
    exact congrArg (fun l => [l]) (content_frame _)

/-- telnet is told of `d` and says that it has `f`. -/
theorem quarrels_telnet {m f d x : UInt8} (hf : f &&& SLC_ACK = 0)
    (htelnet : ∀ x, Telnet.answerOne ⟨5, none, f, m⟩ (d, x) = (⟨5, none, f, m⟩, some (f, 5)))
    (h : Quarrels m f d p) (h1 : p.toTelnetd = []) (h2 : p.toTelnet = [[1, d, x]]) :
    ∃ q, Delivers p q ∧ Quarrels m f d q := by
  have hd : deliver .telnet p =
      some ({ p with toTelnet := [] }.telnetSent (p.client.slc (fun _ => true) [1, d, x])) := by
    simp only [deliver, h2]
  obtain ⟨hsent, htab⟩ := p.client.slc_eq [1, d, x]
  have hone : converse Telnet.Slc.respond p.client.spcData (triplets [1, d, x]) =
      (Function.update p.telnet.spcData 1 ⟨5, none, f, m⟩, [(1, f, 5)]) := by
    show converse Telnet.Slc.respond p.telnet.spcData [(1, d, x)] = _
    have h18 : ¬ 1 > NSLC := by decide
    have h10 : (1 : UInt8) ≠ 0 := by decide
    have h11 : (1 : UInt8).toNat = 1 := rfl
    simp only [converse, Telnet.Slc.respond, h11, if_neg h18, if_neg h10, h.telnet, htelnet]
    rfl
  rw [hone] at hsent htab
  refine ⟨_, ⟨_, hd⟩, ⟨h.terminit, ?_, h.defset, h.sptr, h.current, Or.inl ⟨?_, rfl⟩⟩⟩
  · show (p.client.slc (fun _ => true) [1, d, x]).spcData 1 = _
    rw [htab]
    show Telnet.Slc.cleared (Function.update p.telnet.spcData 1 ⟨5, none, f, m⟩ 1) = _
    rw [Function.update_self, Telnet.Slc.cleared, clear_of_ack hf]
  · show p.toTelnetd ++ (p.client.slc _ _).sent.map slcContent = _
    have hnone : p.client.sent = [] := rfl
    rw [hsent, h1, hnone]
    exact congrArg (fun l => [l]) (content_frame _)

theorem quarrel_never_ends {m f d : UInt8} (hf : f &&& SLC_ACK = 0) (hfd : level f ≠ level d)
    (htelnet : ∀ x, Telnet.answerOne ⟨5, none, f, m⟩ (d, x) = (⟨5, none, f, m⟩, some (f, 5)))
    (htelnetd : ∀ g : Telnetd.Slcfun, g.defset = ⟨d, 9⟩ → g.sptr = none →
      level (Telnetd.Slc.change g f 5).1.flag = level d ∧ (Telnetd.Slc.change g f 5).2.flag = d) :
    ¬ Ends Delivers (quarrel m f d) := by
  have hon : ∀ p, Quarrels m f d p → ∃ q, Delivers p q ∧ Quarrels m f d q := by
    intro p h
    rcases h.turn with ⟨h1, h2⟩ | ⟨h1, x, h2⟩
    · exact quarrels_telnetd hf hfd htelnetd h h1 h2
    · exact quarrels_telnet hf htelnet h h1 h2
  exact not_ends_of_progress hon ⟨rfl, rfl, rfl, rfl, rfl, Or.inr ⟨rfl, 9, rfl⟩⟩

/-- A function that telnetd calls variable and does not keep, and telnet can not change; and
    one that telnet has above its own limit. -/
theorem slc_may_not_end :
    ¬ Ends Delivers (quarrel SLC_CANTCHANGE SLC_CANTCHANGE SLC_VARIABLE) ∧
      ¬ Ends Delivers (quarrel SLC_NOSUPPORT SLC_VARIABLE SLC_CANTCHANGE) := by
  constructor
  · refine quarrel_never_ends (by decide) (by decide) ?_ ?_
    · intro x
      induction x using byte_ind; decide +kernel +revert
    · rintro ⟨defset, current, sptr⟩ rfl rfl
      unfold Telnetd.Slc.change
      simp only
      rw [if_neg (by decide), if_neg (by decide), if_neg (by decide), if_neg (by decide), if_neg (by decide)]
      exact ⟨rfl, rfl⟩
  · refine quarrel_never_ends (by decide) (by decide) ?_ ?_
    · intro x
      induction x using byte_ind; decide +kernel +revert
    · rintro ⟨defset, current, sptr⟩ rfl rfl
      unfold Telnetd.Slc.change
      simp only
      rw [if_neg (by decide), if_neg (by decide), if_neg (by decide), if_neg (by decide), if_pos (by decide)]
      exact ⟨by decide, by decide⟩

end Netutils.Session
