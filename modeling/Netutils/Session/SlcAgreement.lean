/-
  Netutils.Session.SlcAgreement — what telnetd and telnet know of the special characters
  when nothing is under way.

  While one message is under way, each of its triplets says what its sender has (`Up`,
  `Down`), unless it is an acknowledgement; of a function that it does not name the parties
  have the same. What one party makes of a triplet and answers it with keeps this
  (`stepOne_down`, `answerOne_up`), so once nothing is under way they agree on every
  function that telnetd supports (`slc_agreement`).
-/

import Netutils.Session.Slc

namespace Netutils.Session

open Netutils.Arpa
open Netutils.Lib.Exchange
open Netutils.Lib.Transition
open Netutils.Telnet (Spc answerOne)
open Netutils.Telnet.Slc (functions cleared)
open Netutils.Telnetd (Slcfun Provided level)
open Netutils.Telnetd.Slc (stepOne change Ignored)
open Netutils.Wire

/-! ## Changes -/

/-- No SLC message is in flight, nor has telnetd put one off. -/
def Pair.Quiet (p : Pair) : Prop := p.toTelnetd = [] ∧ p.toTelnet = [] ∧ p.telnetd.defSlcbuf = none

instance (p : Pair) : Decidable p.Quiet := inferInstanceAs (Decidable (_ ∧ _))

/-- `chars` are the characters of the terminal at that time. -/
inductive Change where
  | slcCheck (chars : Nat → UInt8)
  | slcExport (chars : Nat → UInt8)
  | checkSlc (chars : Nat → UInt8) (eof : Bool)
  | sendSlc (chars : Nat → UInt8)

def Pair.change (p : Pair) : Change → Pair
  | .slcCheck chars => p.telnetSent (p.client.slcCheck (fun _ => true) chars)
  | .slcExport chars => p.telnetSent (p.client.slcExport (fun _ => true) chars)
  | .checkSlc chars eof => p.telnetdSent (((p.server.startSlc chars).checkSlc eof).endSlc p.terminit)
  | .sendSlc chars => p.telnetdSent ((p.server.startSlc chars).sendSlc.endSlc p.terminit)

inductive Op where
  | deliver (d : Delivery)
  | change (c : Change)

def step : Op → Pair → Option Pair
  | .deliver d, p => deliver d p
  | .change c, p => if p.Quiet then some (p.change c) else none

/-- telnet exports its table `s` to telnetd, which has its first one. -/
def start (d : Telnetd.Termdesc) (tty chars : Nat → UInt8) (terminit : Bool) (s : Telnet.Slc) : Pair :=
  Pair.change ⟨Telnetd.Slc.bare.getSlcDefaults d tty, s, terminit, [], []⟩ (.slcExport chars)

/-- telnet's table as slc_init leaves it. -/
structure Opening (s : Telnet.Slc) : Prop where
  flags : ∀ i ∈ functions, (s.spcData i).flags = SLC_NOSUPPORT
  mylevel : ∀ i ∈ functions, (s.spcData i).mylevel &&& SLC_ACK = 0

/-- The same level, and the same character if that is not NOSUPPORT. -/
structure Agree (f : Slcfun) (e : Spc) : Prop where
  flag : level f.current.flag = level e.flags
  val : level e.flags ≠ SLC_NOSUPPORT → f.current.val = e.val

/-! ## One function -/

structure Sound (f : Slcfun) (e : Spc) : Prop where
  provided : Provided (f.defset, f.sptr)
  current : level f.current.flag ≠ SLC_DEFAULT ∧ f.current.flag &&& SLC_ACK = 0
  mylevel : e.mylevel &&& SLC_ACK = 0
  flags : level e.flags ≤ level e.mylevel ∧ e.flags &&& SLC_ACK = 0

/-- A triplet on its way to telnetd, if there is one: an acknowledgement, or what telnet has. -/
def Up (f : Slcfun) (e : Spc) : Option (UInt8 × UInt8) → Prop
  | none => Agree f e
  | some c => c.1 &&& SLC_ACK ≠ 0 ∧ Agree f e ∨ c.1 &&& SLC_ACK = 0 ∧ level c.1 = level e.flags ∧ c.2 = e.val

/-- A triplet on its way to telnet: what both have, acknowledged, or what telnetd has. -/
def Down (f : Slcfun) (e : Spc) : Option (UInt8 × UInt8) → Prop
  | none => Agree f e
  | some c =>
    Agree f e ∧ level c.1 = level e.flags ∧ c.2 = e.val ∨
      c.1 &&& SLC_ACK = 0 ∧ level c.1 = level f.current.flag ∧ c.2 = f.current.val

variable {f : Slcfun} {e : Spc}

/-- A change never leaves a function at DEFAULT. -/
theorem change_current (f : Slcfun) {flag val : UInt8} (hp : Provided (f.defset, f.sptr)) (ha : flag &&& SLC_ACK = 0) :
    level (change f flag val).1.flag ≠ SLC_DEFAULT ∧ (change f flag val).1.flag &&& SLC_ACK = 0 := by
  have hput : ∀ y, level (flag &&& ~~~SLC_LEVELBITS ||| level y) = level y ∧
      (flag &&& ~~~SLC_LEVELBITS ||| level y) &&& SLC_ACK = 0 :=
    fun y => ⟨(level_put flag y).1, (level_put flag y).2.trans ha⟩
  have hdef : f.defset.flag &&& SLC_ACK = 0 := by
    rcases hp with ⟨-, -, h⟩ | ⟨-, h | h⟩
    · exact h
    · rw [show f.defset.flag = _ from h]; decide
    · rw [show f.defset.flag = _ from h]; decide
  unfold change
  simp only
  by_cases h1 : level flag = SLC_NOSUPPORT
  · rw [if_pos h1]
    exact ⟨by rw [h1]; decide, ha⟩
  rw [if_neg h1]
  by_cases h2 : level flag = SLC_DEFAULT
  · rw [if_pos h2]
    by_cases hd : level f.defset.flag = SLC_DEFAULT
    · simp only [if_pos hd]
      decide
    · simp only [if_neg hd]
      exact ⟨hd, hdef⟩
  rw [if_neg h2]
  split
  · exact ⟨h2, ha⟩
  rename_i h4
  obtain ⟨-, hd⟩ := not_or.mp h4
  split
  · have h5 : level (flag &&& ~~~SLC_LEVELBITS ||| SLC_NOSUPPORT) = SLC_NOSUPPORT := (hput SLC_NOSUPPORT).1
    exact ⟨by simp only [h5]; decide, (hput SLC_NOSUPPORT).2⟩
  · split
    · exact ⟨by rw [(hput f.defset.flag).1]; exact hd, (hput f.defset.flag).2⟩
    · exact ⟨by rw [(hput f.defset.flag).1]; exact hd, (hput f.defset.flag).2⟩

theorem stepOne_sound (hs : Sound f e) (c : UInt8 × UInt8) : Sound (stepOne f c).1 e := by
  unfold stepOne
  split
  · exact hs
  · rename_i hi
    have ha : c.1 &&& SLC_ACK = 0 := by
      by_contra h
      exact hi (Or.inl h)
    exact ⟨hs.provided, change_current f hs.provided ha, hs.mylevel, hs.flags⟩

/-- telnetd takes any value that it is asked to, or names its own. -/
theorem stepOne_down (hs : Sound f e) (hsup : level f.defset.flag ≠ SLC_NOSUPPORT) {c : UInt8 × UInt8}
    (h : Up f e (some c)) : Down (stepOne f c).1 e (stepOne f c).2 := by
  unfold stepOne
  by_cases hi : Ignored f c.1 c.2
  · rw [if_pos hi]
    rcases h with ⟨-, h⟩ | ⟨ha, hl, hv⟩
    · exact h
    · rcases hi with hi | ⟨h1, h2⟩
      · exact absurd ha hi
      · exact ⟨h1.symm.trans hl, fun _ => h2.symm.trans hv⟩
  rw [if_neg hi]
  obtain ⟨ha, hl, hv⟩ : c.1 &&& SLC_ACK = 0 ∧ level c.1 = level e.flags ∧ c.2 = e.val := by
    rcases h with ⟨ha, -⟩ | h
    · exact absurd (Or.inl ha) hi
    · exact h
  have hack : level (c.1 ||| SLC_ACK) = level c.1 := level_ack c.1
  have htakes : f.sptr.isSome ∨ level f.defset.flag = SLC_DEFAULT := by
    rcases hs.provided with ⟨h1, -⟩ | ⟨-, h1 | h1⟩
    · exact Or.inl h1
    · exact Or.inr (by rw [show f.defset.flag = _ from h1]; decide)
    · exact absurd (by rw [show f.defset.flag = _ from h1]; decide) hsup
  unfold change
  simp only
  by_cases h1 : level c.1 = SLC_NOSUPPORT
  · rw [if_pos h1]
    exact Or.inl ⟨⟨hl, fun hn => absurd (hl.symm.trans h1) hn⟩, hack.trans hl, hv⟩
  rw [if_neg h1]
  by_cases h2 : level c.1 = SLC_DEFAULT
  · rw [if_pos h2]
    have hclean : (change f c.1 c.2).1.flag &&& SLC_ACK = 0 := (change_current f hs.provided ha).2
    simp only [change, if_neg h1, if_pos h2] at hclean
    exact Or.inr ⟨hclean, rfl, rfl⟩
  · rw [if_neg h2, if_pos htakes]
    exact Or.inl ⟨⟨hl, fun _ => hv⟩, hack.trans hl, hv⟩

theorem cleared_of_ack (h : e.flags &&& SLC_ACK = 0) : cleared e = e := by
  rw [cleared, clear_of_ack h]

theorem answerOne_sound (hs : Sound f e) (c : UInt8 × UInt8) : Sound f (cleared (answerOne e c).1) := by
  obtain ⟨h1, h2, -⟩ := answerOne_spec hs.flags.1 c
  refine ⟨hs.provided, hs.current, h1 ▸ hs.mylevel, ?_, ack_clear _⟩
  show (_ &&& ~~~SLC_ACK) &&& SLC_LEVELBITS ≤ level (answerOne e c).1.mylevel
  rw [level_clear, h1]
  exact h2

/-- telnet takes a level that it can, or says what it has. -/
theorem answerOne_up (hs : Sound f e) {c : UInt8 × UInt8} (h : Down f e (some c)) :
    Up f (cleared (answerOne e c).1) (answerOne e c).2 := by
  have hkeep := cleared_of_ack hs.flags.2
  unfold answerOne
  simp only [both_level, both_clear]
  by_cases h1 : c.2 = e.val ∧ c.1 &&& SLC_LEVELBITS = e.flags &&& SLC_LEVELBITS
  · rw [if_pos h1, hkeep]
    rcases h with ⟨ha, -⟩ | ⟨-, hl, hv⟩
    · exact ha
    · exact ⟨hl.symm.trans h1.2, fun _ => hv.symm.trans h1.1⟩
  rw [if_neg h1]
  obtain ⟨ha, hl, hv⟩ : c.1 &&& SLC_ACK = 0 ∧ level c.1 = level f.current.flag ∧ c.2 = f.current.val := by
    rcases h with ⟨-, hl, hv⟩ | h
    · exact absurd ⟨hv, hl⟩ h1
    · exact h
  -- without an acknowledgement in it, the triplet is not taken for one
  have hno : ∀ x, c.1 &&& (SLC_LEVELBITS ||| SLC_ACK) ≠ x ||| SLC_ACK := by
    intro x hx
    have h2 : c.1 &&& (SLC_LEVELBITS ||| SLC_ACK) &&& SLC_ACK = SLC_ACK := by rw [hx, ack_ack]
    have h3 : c.1 &&& (SLC_LEVELBITS ||| SLC_ACK) &&& SLC_ACK = c.1 &&& SLC_ACK := by
      rw [UInt8.and_assoc]
      rfl
    rw [h3, ha] at h2
    exact absurd h2 (by decide)
  have hdefault : ¬ c.1 &&& SLC_LEVELBITS = SLC_DEFAULT := fun hd => hs.current.1 (hl.symm.trans hd)
  rw [if_neg (hno _), if_neg (hno _)]
  simp only [if_neg hdefault]
  by_cases h3 : c.1 &&& SLC_LEVELBITS ≤ e.mylevel &&& SLC_LEVELBITS
  · rw [if_pos h3]
    refine Or.inl ⟨by rw [ack_ack]; decide, ?_, fun _ => hv.symm⟩
    show level f.current.flag = (c.1 ||| SLC_ACK) &&& ~~~SLC_ACK &&& SLC_LEVELBITS
    rw [level_clear, level_ack]
    exact hl.symm
  · rw [if_neg h3, hkeep]
    exact Or.inr ⟨hs.flags.2, rfl, rfl⟩

/-! ## One message -/

/-- telnet's and telnetd's functions are sound. -/
def SoundAll (tab : Nat → Slcfun) (spc : Nat → Spc) : Prop := ∀ i ∈ functions, Sound (tab i) (spc i)

/-- `R` holds of each function that telnetd supports, with its triplet in `ts`. -/
def Each (R : Slcfun → Spc → Option (UInt8 × UInt8) → Prop) (tab : Nat → Slcfun) (spc : Nat → Spc)
    (ts : List Triplet) : Prop :=
  ∀ i ∈ functions, level (tab i).defset.flag ≠ SLC_NOSUPPORT → R (tab i) (spc i) (ts.lookup i.toUInt8)

/-- Triplets for functions, each at most once. -/
structure Distinct (ts : List Triplet) : Prop where
  mem : ∀ t ∈ ts, t.1.toNat ∈ functions
  nodup : (ts.map Prod.fst).Nodup

theorem Distinct.of_sublist {ts us : List Triplet} (h : Distinct ts)
    (hs : List.Sublist (us.map Prod.fst) (ts.map Prod.fst)) : Distinct us := by
  refine ⟨?_, h.nodup.sublist hs⟩
  intro t ht
  obtain ⟨u, hu, he⟩ := List.mem_map.mp (hs.subset (List.mem_map_of_mem ht))
  rw [← he]
  exact h.mem u hu

theorem toNat_toUInt8 {i : Nat} (hi : i ∈ functions) : i.toUInt8.toNat = i := by
  simp only [functions, List.mem_range'_1, NSLC] at hi
  exact UInt8.toNat_ofNat_of_lt' (by show i < 256; omega)

theorem toNat_injective : Function.Injective UInt8.toNat := fun _ _ h => UInt8.toNat_inj.mp h

variable {tab : Nat → Slcfun} {spc : Nat → Spc} {ts : List Triplet}

/-- telnetd answers a message. -/
theorem telnetd_answers (hs : SoundAll tab spc) (hd : Distinct ts) (h : Each Up tab spc ts) :
    let r := converse Telnetd.Slc.respond tab ts
    SoundAll r.1 spc ∧ Distinct r.2 ∧ Each Down r.1 spc r.2 := by
  have hkeyed := Telnetd.Slc.isKeyed_respond
  have hone : ∀ i ∈ functions,
      (converse Telnetd.Slc.respond tab ts).1 i = ((ts.lookup i.toUInt8).map fun c => (stepOne (tab i) c).1).getD (tab i) ∧
        (converse Telnetd.Slc.respond tab ts).2.lookup i.toUInt8 =
          (ts.lookup i.toUInt8).bind fun c => (stepOne (tab i) c).2 := by
    intro i hi
    have := lookup_converse toNat_injective hkeyed hd.mem hd.nodup tab i.toUInt8
    rwa [toNat_toUInt8 hi] at this
  refine ⟨?_, hd.of_sublist (keys_converse hkeyed hd.mem), ?_⟩
  · intro i hi
    rw [(hone i hi).1]
    rcases ts.lookup i.toUInt8 with _ | c
    · exact hs i hi
    · exact stepOne_sound (hs i hi) c
  · intro i hi
    obtain ⟨h1, h2⟩ := hone i hi
    have hi' := h i hi
    rw [h1, h2]
    rcases hl : ts.lookup i.toUInt8 with _ | c
    · rw [hl] at hi'
      exact hi'
    · rw [hl] at hi'
      intro hsup
      have hkept : (stepOne (tab i) c).1.defset = (tab i).defset := by
        unfold stepOne
        split <;> rfl
      have hsup' : level (tab i).defset.flag ≠ SLC_NOSUPPORT := by
        rw [← hkept]
        exact hsup
      exact stepOne_down (hs i hi) hsup' (hi' hsup')

/-- telnet answers a message, and slc_update clears its table. -/
theorem telnet_answers (hs : SoundAll tab spc) (hd : Distinct ts) (h : Each Down tab spc ts) :
    let r := converse Telnet.Slc.respond spc ts
    let spc' := fun k => if k ∈ functions then cleared (r.1 k) else r.1 k
    SoundAll tab spc' ∧ Distinct r.2 ∧ Each Up tab spc' r.2 := by
  have hkeyed := Telnet.Slc.isKeyed_respond
  have hone : ∀ i ∈ functions,
      (converse Telnet.Slc.respond spc ts).1 i = ((ts.lookup i.toUInt8).map fun c => (answerOne (spc i) c).1).getD (spc i) ∧
        (converse Telnet.Slc.respond spc ts).2.lookup i.toUInt8 =
          (ts.lookup i.toUInt8).bind fun c => (answerOne (spc i) c).2 := by
    intro i hi
    have := lookup_converse toNat_injective hkeyed hd.mem hd.nodup spc i.toUInt8
    rwa [toNat_toUInt8 hi] at this
  refine ⟨?_, hd.of_sublist (keys_converse hkeyed hd.mem), ?_⟩
  · intro i hi
    simp only [if_pos hi, (hone i hi).1]
    rcases ts.lookup i.toUInt8 with _ | c
    · simp only [Option.map_none, Option.getD_none, cleared_of_ack (hs i hi).flags.2]
      exact hs i hi
    · exact answerOne_sound (hs i hi) c
  · intro i hi hsup
    have hi' := h i hi hsup
    simp only [if_pos hi, (hone i hi).1, (hone i hi).2]
    rcases hl : ts.lookup i.toUInt8 with _ | c
    · rw [hl] at hi'
      simp only [Option.map_none, Option.getD_none, Option.bind_none, cleared_of_ack (hs i hi).flags.2]
      exact hi'
    · rw [hl] at hi'
      exact answerOne_up (hs i hi) hi'

/-! ## Changes that are told -/

theorem nodup_functions : (functions.map Nat.toUInt8).Nodup := by decide

theorem mem_keys {i : Nat} (hi : i ∈ functions) : i.toUInt8 ∈ functions.map Nat.toUInt8 := List.mem_map_of_mem hi

/-- What a party says of its functions in turn names each at most once. -/
theorem distinct_of_keys (h : List.Sublist (ts.map Prod.fst) (functions.map Nat.toUInt8)) : Distinct ts := by
  refine ⟨?_, nodup_functions.sublist h⟩
  intro t ht
  obtain ⟨i, hi, he⟩ := List.mem_map.mp (h.subset (List.mem_map_of_mem ht))
  rw [← he, toNat_toUInt8 hi]
  exact hi

theorem lookup_functions {ε : Type} (g : UInt8 → ε → ε × Option (UInt8 × UInt8)) (tab : Nat → ε) {i : Nat}
    (hi : i ∈ functions) :
    (sweep UInt8.toNat g tab (functions.map Nat.toUInt8)).1 i = (g i.toUInt8 (tab i)).1 ∧
      (sweep UInt8.toNat g tab (functions.map Nat.toUInt8)).2.lookup i.toUInt8 = (g i.toUInt8 (tab i)).2 := by
  have h : (sweep UInt8.toNat g tab (functions.map Nat.toUInt8)).1 i.toUInt8.toNat =
        (g i.toUInt8 (tab i.toUInt8.toNat)).1 ∧
      (sweep UInt8.toNat g tab (functions.map Nat.toUInt8)).2.lookup i.toUInt8 =
        (g i.toUInt8 (tab i.toUInt8.toNat)).2 := lookup_sweep toNat_injective nodup_functions (mem_keys hi)
  rwa [toNat_toUInt8 hi] at h

/-- What slc_export and slc_check say of a function is what telnet has. -/
theorem told_up (hs : Sound f e) (chars : Nat → UInt8) :
    ∀ r ∈ [Telnet.Slc.exported chars e, Telnet.Slc.checked chars e],
      Sound f r.1 ∧ cleared r.1 = r.1 ∧ (Agree f e → Up f r.1 r.2) := by
  intro r hr
  rcases Telnet.Slc.told_cases chars e r hr with rfl | ⟨flags, val, hflags, rfl⟩
  · exact ⟨hs, cleared_of_ack hs.flags.2, id⟩
  have hnew : level flags ≤ level e.mylevel ∧ flags &&& SLC_ACK = 0 := by
    rcases hflags with rfl | rfl
    · exact ⟨by rw [show level SLC_NOSUPPORT = 0 by decide]; exact UInt8.zero_le, by decide⟩
    · exact ⟨UInt8.le_refl _, hs.mylevel⟩
  exact ⟨⟨hs.provided, hs.current, hs.mylevel, hnew⟩, cleared_of_ack hnew.2, fun _ => Or.inr ⟨hnew.2, rfl, rfl⟩⟩

/-- What check_slc says of a function is what telnetd has. -/
theorem checked_down (hs : Sound f e) (eof : Bool) (chars : Nat → UInt8) (i : Nat) :
    Sound (Telnetd.Slc.checked eof chars i f).1 e ∧
      (Telnetd.Slc.checked eof chars i f).1.defset = f.defset ∧
        (Agree f e → Down (Telnetd.Slc.checked eof chars i f).1 e (Telnetd.Slc.checked eof chars i f).2) := by
  unfold Telnetd.Slc.checked
  split
  · exact ⟨hs, rfl, id⟩
  rcases hp : f.sptr with _ | p
  · exact ⟨hs, rfl, id⟩
  simp only
  split
  · obtain ⟨hl, hack⟩ : level f.defset.flag = SLC_VARIABLE ∧ f.defset.flag &&& SLC_ACK = 0 := by
      rcases hs.provided with ⟨-, h⟩ | ⟨h, -⟩
      · exact h
      · exact absurd (hp.symm.trans h) (by simp)
    obtain ⟨flag, hflag⟩ : ∃ flag, flag = if chars p = Telnetd.vdisable then SLC_NOSUPPORT else f.defset.flag := ⟨_, rfl⟩
    have hnew : level flag ≠ SLC_DEFAULT ∧ flag &&& SLC_ACK = 0 := by
      rw [hflag]
      split
      · decide
      · exact ⟨by rw [hl]; decide, hack⟩
    have hprovided : Provided (f.defset, some p) := hp ▸ hs.provided
    rw [← hflag]
    exact ⟨⟨hprovided, hnew, hs.mylevel, hs.flags⟩, rfl, fun _ => Or.inr ⟨hnew.2, rfl, rfl⟩⟩
  · exact ⟨hs, rfl, id⟩

/-! ## What is under way -/

/-- Nothing; or one message to telnetd, which may have been put off; or one to telnet. -/
inductive Flight (p : Pair) : Prop
  | quiet (h : p.Quiet) (he : Each Up p.telnetd.slctab p.telnet.spcData [])
  | up (m : List UInt8) (hd : Distinct (triplets m)) (he : Each Up p.telnetd.slctab p.telnet.spcData (triplets m))
      (h : p.toTelnetd = [m] ∧ p.telnetd.defSlcbuf = none ∨
        p.toTelnetd = [] ∧ p.telnetd.defSlcbuf = some m ∧ p.terminit = false) (hno : p.toTelnet = [])
  | down (m : List UInt8) (hd : Distinct (triplets m)) (he : Each Down p.telnetd.slctab p.telnet.spcData (triplets m))
      (h : p.toTelnet = [m]) (hno : p.toTelnetd = [] ∧ p.telnetd.defSlcbuf = none)

structure Inv (p : Pair) : Prop where
  sound : SoundAll p.telnetd.slctab p.telnet.spcData
  flight : Flight p

variable {p q : Pair}

theorem flight_up (h1 : p.toTelnetd = (slcMessage ts).map slcContent) (h2 : p.toTelnet = [])
    (h3 : p.telnetd.defSlcbuf = none) (hd : Distinct ts) (he : Each Up p.telnetd.slctab p.telnet.spcData ts) :
    Flight p := by
  unfold slcMessage at h1
  by_cases hz : ts = []
  · rw [if_pos hz] at h1
    exact .quiet ⟨h1, h2, h3⟩ (hz ▸ he)
  · rw [if_neg hz] at h1
    exact .up _ ((triplets_content ts).symm ▸ hd) ((triplets_content ts).symm ▸ he) (Or.inl ⟨h1, h3⟩) h2

theorem flight_down (h1 : p.toTelnet = (slcMessage ts).map slcContent) (h2 : p.toTelnetd = [])
    (h3 : p.telnetd.defSlcbuf = none) (hd : Distinct ts) (he : Each Down p.telnetd.slctab p.telnet.spcData ts) :
    Flight p := by
  unfold slcMessage at h1
  by_cases hz : ts = []
  · rw [if_pos hz] at h1
    subst hz
    exact .quiet ⟨h2, h1, h3⟩ fun i hi hsup => he i hi hsup
  · rw [if_neg hz] at h1
    exact .down _ ((triplets_content ts).symm ▸ hd) ((triplets_content ts).symm ▸ he) h1 ⟨h2, h3⟩

theorem Flight.agree (h : Flight p) (hq : p.Quiet) : Each Up p.telnetd.slctab p.telnet.spcData [] := by
  obtain ⟨h1, h2, h3⟩ := hq
  cases h with
  | quiet _ he => exact he
  | up m _ _ h _ =>
    rcases h with ⟨h, -⟩ | ⟨-, h, -⟩
    · cases h1.symm.trans h
    · cases h3.symm.trans h
  | down m _ _ h _ => cases h2.symm.trans h

/-- What is under way to telnetd is the one message. -/
theorem Flight.first_up {m : List UInt8} {rest : List (List UInt8)} (h : Flight p) (hm : p.toTelnetd = m :: rest) :
    Distinct (triplets m) ∧ Each Up p.telnetd.slctab p.telnet.spcData (triplets m) ∧ rest = [] ∧
      p.telnetd.defSlcbuf = none ∧ p.toTelnet = [] := by
  cases h with
  | quiet hq _ => cases hq.1.symm.trans hm
  | up m' hd he hm' hno =>
    rcases hm' with ⟨hm', hsaved⟩ | ⟨hm', -⟩
    · obtain ⟨rfl, rfl⟩ := List.cons.inj (hm'.symm.trans hm)
      exact ⟨hd, he, rfl, hsaved, hno⟩
    · cases hm'.symm.trans hm
  | down m' _ _ _ hno => cases hno.1.symm.trans hm

theorem Flight.first_down {m : List UInt8} {rest : List (List UInt8)} (h : Flight p) (hm : p.toTelnet = m :: rest) :
    Distinct (triplets m) ∧ Each Down p.telnetd.slctab p.telnet.spcData (triplets m) ∧ rest = [] ∧
      p.toTelnetd = [] ∧ p.telnetd.defSlcbuf = none := by
  cases h with
  | quiet hq _ => cases hq.2.1.symm.trans hm
  | up m' _ _ _ hno => cases hno.symm.trans hm
  | down m' hd he hm' hno =>
    obtain ⟨rfl, rfl⟩ := List.cons.inj (hm'.symm.trans hm)
    exact ⟨hd, he, rfl, hno⟩

theorem Flight.saved_up {m : List UInt8} (h : Flight p) (hm : p.telnetd.defSlcbuf = some m) :
    Distinct (triplets m) ∧ Each Up p.telnetd.slctab p.telnet.spcData (triplets m) ∧ p.toTelnetd = [] ∧
      p.toTelnet = [] := by
  cases h with
  | quiet hq _ => cases hq.2.2.symm.trans hm
  | up m' hd he hm' hno =>
    rcases hm' with ⟨-, hsaved⟩ | ⟨hto, hm', -⟩
    · cases hsaved.symm.trans hm
    · obtain rfl := Option.some.inj (hm'.symm.trans hm)
      exact ⟨hd, he, hto, hno⟩
  | down m' _ _ _ hno => cases hno.2.symm.trans hm

/-- The terminal being initialised does not matter while nothing is put off. -/
theorem Flight.same (h : Flight p) (ht : q.telnet = p.telnet ∧ q.telnetd.slctab = p.telnetd.slctab)
    (hto : q.toTelnet = p.toTelnet) (hno : q.toTelnetd = p.toTelnetd)
    (hs : q.telnetd.defSlcbuf = none ∧ p.telnetd.defSlcbuf = none) : Flight q := by
  cases h with
  | quiet hq he =>
    refine .quiet ⟨hno.trans hq.1, hto.trans hq.2.1, hs.1⟩ ?_
    rw [ht.2, ht.1]
    exact he
  | up m hd he hm h =>
    rcases hm with ⟨hm, -⟩ | ⟨-, hm, -⟩
    · refine .up m hd ?_ (Or.inl ⟨hno.trans hm, hs.1⟩) (hto.trans h)
      rw [ht.2, ht.1]
      exact he
    · cases hs.2.symm.trans hm
  | down m hd he hm h =>
    refine .down m hd ?_ (hto.trans hm) ⟨hno.trans h.1, hs.1⟩
    rw [ht.2, ht.1]
    exact he

/-! ## Steps -/

/-- telnetd answers what has come up. -/
theorem inv_answered {ts : List Triplet} (hs : SoundAll p.telnetd.slctab p.telnet.spcData) (hd : Distinct ts)
    (he : Each Up p.telnetd.slctab p.telnet.spcData ts) (h : Answered ts p q) (hno : p.toTelnet = [])
    (hq : q.toTelnetd = [] ∧ q.telnetd.defSlcbuf = none) : Inv q := by
  obtain ⟨hs', hd', he'⟩ := telnetd_answers hs hd he
  have hto := h.toTelnet
  rw [hno, List.nil_append] at hto
  constructor
  · rw [h.slctab, h.telnet]
    exact hs'
  · refine flight_down hto hq.1 hq.2 hd' ?_
    rw [h.slctab, h.telnet]
    exact he'

/-- telnet answers what has come down. -/
theorem inv_taken {ts : List Triplet} (hs : SoundAll p.telnetd.slctab p.telnet.spcData) (hd : Distinct ts)
    (he : Each Down p.telnetd.slctab p.telnet.spcData ts) (h : Taken ts p q) (hq : q.toTelnet = [])
    (hno : p.toTelnetd = [] ∧ p.telnetd.defSlcbuf = none) : Inv q := by
  obtain ⟨hs', hd', he'⟩ := telnet_answers hs hd he
  have hto := h.toTelnetd
  rw [hno.1, List.nil_append] at hto
  constructor
  · rw [h.telnetd, h.spcData]
    exact hs'
  · refine flight_up hto hq (h.telnetd ▸ hno.2) hd' ?_
    rw [h.telnetd, h.spcData]
    exact he'

theorem inv_deliver (hi : Inv p) {d : Delivery} (h : deliver d p = some q) : Inv q := by
  cases delivered h with
  | answered m hm hs _ h =>
    obtain ⟨hd, he, hrest, hsaved, hno⟩ := hi.flight.first_up hm
    exact inv_answered hi.sound hd he h hno ⟨hrest, hs.trans hsaved⟩
  | putOff m hm hs ht h =>
    obtain ⟨hd, he, hrest, hsaved, hno⟩ := hi.flight.first_up hm
    obtain ⟨htelnet, htab, hto⟩ := h
    rw [hsaved] at hs
    constructor
    · rw [htab, htelnet]
      exact hi.sound
    · refine .up m hd ?_ (Or.inr ⟨hrest, hs, ht.2⟩) (hto.trans hno)
      rw [htab, htelnet]
      exact he
  | taken m hm h =>
    obtain ⟨hd, he, hrest, hno⟩ := hi.flight.first_down hm
    exact inv_taken hi.sound hd he h hrest hno
  | initialised ht hs h =>
    obtain ⟨htelnet, htab, hto, hno⟩ := h
    constructor
    · rw [htab, htelnet]
      exact hi.sound
    · exact hi.flight.same ⟨htelnet, htab⟩ hto hno ⟨hs.2, hs.1⟩
  | caughtUp m hs hno _ h =>
    obtain ⟨hd, he, hrest, hto⟩ := hi.flight.saved_up hs.1
    exact inv_answered hi.sound hd he h hto ⟨hno.trans hrest, hs.2⟩

/-- telnet goes through its functions and says what it has. -/
theorem inv_told (hi : Inv p) (hp : p.Quiet) {g : Spc → Spc × Option (UInt8 × UInt8)}
    (hg : ∀ f e, Sound f e → Sound f (g e).1 ∧ (Agree f e → Up f (g e).1 (g e).2))
    (hq : q.telnetd = p.telnetd ∧ q.toTelnet = p.toTelnet)
    (hspc : ∀ i ∈ functions, q.telnet.spcData i =
      (sweep UInt8.toNat (fun _ => g) p.telnet.spcData (functions.map Nat.toUInt8)).1 i)
    (hto : q.toTelnetd =
      (slcMessage (sweep UInt8.toNat (fun _ => g) p.telnet.spcData (functions.map Nat.toUInt8)).2).map slcContent) :
    Inv q := by
  have ha := hi.flight.agree hp
  have htab : q.telnetd.slctab = p.telnetd.slctab := by rw [hq.1]
  constructor
  · intro i hf
    rw [htab, hspc i hf, (lookup_functions _ _ hf).1]
    exact (hg _ _ (hi.sound i hf)).1
  · refine flight_up hto (hq.2.trans hp.2.1) (by rw [hq.1]; exact hp.2.2) (distinct_of_keys keys_sweep) ?_
    intro i hf hsup
    rw [htab] at hsup ⊢
    rw [hspc i hf, (lookup_functions _ _ hf).1, (lookup_functions _ _ hf).2]
    exact (hg _ _ (hi.sound i hf)).2 (ha i hf hsup)

/-- telnetd goes through its functions and says what it has. -/
theorem inv_said (hi : Inv p) (hp : p.Quiet) {g : UInt8 → Slcfun → Slcfun × Option (UInt8 × UInt8)}
    (hg : ∀ k f e, Sound f e → Sound (g k f).1 e ∧ (g k f).1.defset = f.defset ∧
      (Agree f e → level f.defset.flag ≠ SLC_NOSUPPORT → Down (g k f).1 e (g k f).2))
    (hq : q.telnet = p.telnet ∧ q.toTelnetd = p.toTelnetd ∧ q.telnetd.defSlcbuf = none)
    (htab : q.telnetd.slctab = (sweep UInt8.toNat g p.telnetd.slctab (functions.map Nat.toUInt8)).1)
    (hto : q.toTelnet =
      (slcMessage (sweep UInt8.toNat g p.telnetd.slctab (functions.map Nat.toUInt8)).2).map slcContent) : Inv q := by
  have ha := hi.flight.agree hp
  constructor
  · intro i hf
    rw [htab, hq.1, (lookup_functions _ _ hf).1]
    exact (hg _ _ _ (hi.sound i hf)).1
  · refine flight_down hto (hq.2.1.trans hp.1) hq.2.2 (distinct_of_keys keys_sweep) ?_
    intro i hf hsup
    rw [htab, (lookup_functions _ _ hf).1] at hsup
    rw [htab, hq.1, (lookup_functions _ _ hf).1, (lookup_functions _ _ hf).2]
    obtain ⟨-, h2, h3⟩ := hg i.toUInt8 _ _ (hi.sound i hf)
    rw [h2] at hsup
    exact h3 (ha i hf hsup) hsup

theorem inv_change (hi : Inv p) (hp : p.Quiet) (c : Change) : Inv (p.change c) := by
  have hsave : p.server.defSlcbuf = none := hp.2.2
  cases c with
  | slcCheck chars =>
    obtain ⟨hsent, htab⟩ := p.client.slcCheck_eq chars
    refine inv_told hi hp (g := Telnet.Slc.checked chars) ?_ ⟨rfl, rfl⟩ (fun i _ => congrFun htab i) ?_
    · intro f e hs
      obtain ⟨h1, -, h2⟩ := told_up hs chars _ (List.mem_cons_of_mem _ List.mem_cons_self)
      exact ⟨h1, h2⟩
    · show p.toTelnetd ++ (p.client.slcCheck _ chars).sent.map slcContent = _
      rw [hsent, hp.1]
      rfl
  | slcExport chars =>
    obtain ⟨hsent, htab⟩ := p.client.slcExport_eq chars
    refine inv_told hi hp (g := Telnet.Slc.exported chars) ?_ ⟨rfl, rfl⟩ ?_ ?_
    · intro f e hs
      obtain ⟨h1, -, h2⟩ := told_up hs chars _ List.mem_cons_self
      exact ⟨h1, h2⟩
    · intro i hf
      show (p.client.slcExport _ chars).spcData i = _
      have hone := (lookup_functions (fun _ => Telnet.Slc.exported chars) p.telnet.spcData hf).1
      obtain ⟨-, hclear, -⟩ := told_up (hi.sound i hf) chars _ List.mem_cons_self
      simp only [htab, if_pos hf]
      show cleared ((sweep _ _ p.telnet.spcData _).1 i) = _
      rw [hone, hclear]
    · show p.toTelnetd ++ (p.client.slcExport _ chars).sent.map slcContent = _
      rw [hsent, hp.1]
      rfl
  | checkSlc chars eof =>
    obtain ⟨hsent, htab, hdef⟩ := p.server.checkSlc_eq chars eof p.terminit hsave
    refine inv_said hi hp (fun k f e hs => ?_) ⟨rfl, rfl, hdef⟩ htab ?_
    · obtain ⟨h1, h2, h3⟩ := checked_down hs eof chars k.toNat
      exact ⟨h1, h2, fun ha _ => h3 ha⟩
    · show p.toTelnet ++ (((p.server.startSlc chars).checkSlc eof).endSlc p.terminit).sent.map slcContent = _
      rw [hsent, hp.2.1]
      rfl
  | sendSlc chars =>
    obtain ⟨hsent, htab, hdef⟩ := p.server.sendSlc_eq chars p.terminit hsave
    have htold := Telnetd.Slc.told_eq p.telnetd.slctab Telnetd.Slc.lt_of_mem_functions
    refine inv_said hi hp (fun k f e hs => ?_) ⟨rfl, rfl, hdef⟩ (htab.trans (congrArg Prod.fst htold).symm) ?_
    · refine ⟨hs, rfl, ?_⟩
      intro ha hsup
      simp only [if_neg hsup]
      exact Or.inr ⟨hs.current.2, rfl, rfl⟩
    · show p.toTelnet ++ ((p.server.startSlc chars).sendSlc.endSlc p.terminit).sent.map slcContent = _
      rw [hsent, hp.2.1]
      exact congrArg (fun r => (slcMessage r.2).map slcContent) htold.symm

theorem inv_start (d : Telnetd.Termdesc) (tty chars : Nat → UInt8) (terminit : Bool) {s : Telnet.Slc} (ho : Opening s) :
    Inv (start d tty chars terminit s) := by
  obtain ⟨first, hfirst⟩ : ∃ first : Pair,
      first = ⟨Telnetd.Slc.bare.getSlcDefaults d tty, s, terminit, [], []⟩ := ⟨_, rfl⟩
  have hq : first.Quiet := by rw [hfirst]; exact ⟨rfl, rfl, rfl⟩
  have htab : ∀ i ∈ functions, first.telnetd.slctab i =
      ⟨(Telnetd.spcset d tty i).1, ⟨SLC_NOSUPPORT, 0⟩, (Telnetd.spcset d tty i).2⟩ := by
    intro i hi
    rw [hfirst]
    exact if_pos hi
  have hspc : first.telnet = s := by rw [hfirst]
  have hsound : SoundAll first.telnetd.slctab first.telnet.spcData := by
    intro i hi
    rw [htab i hi, hspc]
    have hno : level SLC_NOSUPPORT ≠ SLC_DEFAULT ∧ SLC_NOSUPPORT &&& SLC_ACK = 0 := by decide
    refine ⟨Telnetd.provided_spcset d tty i, hno, ho.mylevel i hi, ?_, ?_⟩
    · rw [ho.flags i hi, show level SLC_NOSUPPORT = 0 by decide]
      exact UInt8.zero_le
    · rw [ho.flags i hi]
      decide
  have hagree : Each Up first.telnetd.slctab first.telnet.spcData [] := by
    intro i hi _
    show Agree _ _
    rw [htab i hi, hspc]
    exact ⟨by rw [ho.flags i hi], fun hn => absurd (by rw [ho.flags i hi]; decide) hn⟩
  have := inv_change ⟨hsound, .quiet hq hagree⟩ hq (.slcExport chars)
  rwa [hfirst] at this

theorem inv_step (o : Op) {p q : Pair} (hi : Inv p) (h : step o p = some q) : Inv q := by
  cases o with
  | deliver d => exact inv_deliver hi h
  | change c =>
    simp only [step] at h
    split at h
    · rename_i hq
      obtain rfl := Option.some.inj h
      exact inv_change hi hq c
    · cases h

/-- In such a state the parties do not answer each other forever. -/
theorem Inv.compatible (hi : Inv p) : Compatible p := by
  refine ⟨fun i hf => (hi.sound i hf).flags.1, ?_⟩
  intro i hf _ hvar
  rcases (hi.sound i hf).provided with ⟨h, -⟩ | ⟨-, h⟩
  · exact h
  · have hne : level (p.telnetd.slctab i).defset.flag ≠ SLC_VARIABLE := by
      rcases h with h | h
      · rw [show (p.telnetd.slctab i).defset.flag = _ from h]
        decide
      · rw [show (p.telnetd.slctab i).defset.flag = _ from h]
        decide
    exact absurd hvar hne

theorem opening_initfunc {tab : Nat → Spc} (h : ∀ k, (tab k).flags = SLC_NOSUPPORT ∧ (tab k).mylevel &&& SLC_ACK = 0)
    (tcval : Nat → Option Nat) (chars : Nat → UInt8) {l : List (Nat × UInt8)}
    (hl : ∀ f ∈ l, (SLC_VARIABLE ||| f.2) &&& SLC_ACK = 0) (k : Nat) :
    (l.foldl (Telnet.Slc.initfunc tcval chars) tab k).flags = SLC_NOSUPPORT ∧
      (l.foldl (Telnet.Slc.initfunc tcval chars) tab k).mylevel &&& SLC_ACK = 0 := by
  induction l generalizing tab with
  | nil => exact h k
  | cons f l ih =>
    rw [List.foldl_cons]
    refine ih (fun j => ?_) fun g hg => hl g (List.mem_cons_of_mem _ hg)
    unfold Telnet.Slc.initfunc
    split
    · cases tcval f.1 with
      | some p => exact ⟨(h j).1, hl f List.mem_cons_self⟩
      | none => exact ⟨(h j).1, (by decide : SLC_DEFAULT &&& SLC_ACK = 0)⟩
    · exact h j

theorem opening_slcInit (sysv termio : Bool) (tcval : Nat → Option Nat) (chars : Nat → UInt8) :
    Opening (Telnet.Slc.slcInit sysv termio tcval chars) := by
  have hall : ∀ k, ((Telnet.Slc.slcInit sysv termio tcval chars).spcData k).flags = SLC_NOSUPPORT ∧
      ((Telnet.Slc.slcInit sysv termio tcval chars).spcData k).mylevel &&& SLC_ACK = 0 := by
    intro k
    refine opening_initfunc (fun j => ?_) tcval chars (by cases termio <;> decide) k
    have hnone : SLC_NOSUPPORT &&& SLC_ACK = 0 := by decide
    have hcant : SLC_CANTCHANGE &&& SLC_ACK = 0 := by decide
    split
    · exact ⟨(opening_initfunc (fun _ => ⟨rfl, hnone⟩) tcval chars (by cases sysv <;> decide) j).1, hcant⟩
    · exact opening_initfunc (fun _ => ⟨rfl, hnone⟩) tcval chars (by cases sysv <;> decide) j
  exact ⟨fun i _ => (hall i).1, fun i _ => (hall i).2⟩

/-- Whatever the users of the two terminals have changed, and told when nothing was under
    way: once nothing is, telnetd and telnet have the same of every function that telnetd
    supports. -/
theorem slc_agreement {d : Telnetd.Termdesc} {tty chars : Nat → UInt8} {terminit : Bool} {s : Telnet.Slc} {ops : List Op}
    (ho : Opening s) (h : run step ops (start d tty chars terminit s) = some p) (hq : p.Quiet) :
    ∀ i ∈ functions, level (p.telnetd.slctab i).defset.flag ≠ SLC_NOSUPPORT →
      Agree (p.telnetd.slctab i) (p.telnet.spcData i) := by
  have hi : Inv p := run_inv (P := Inv) (fun o _ _ => inv_step o) (inv_start d tty chars terminit ho) h
  intro i hf hsup
  exact hi.flight.agree hq i hf hsup

/-- telnet changes a character after its export has been answered, and telnetd another one
    after that. -/
theorem slc_agreement_after_two_changes :
    let d : Telnetd.Termdesc := ⟨4, 2, 3, 0, 1, some 8, some 9, some 14, some 12, some 15, none, some 10, none, none, none⟩
    let chars : Nat → UInt8 := fun i => i.toUInt8 + 1
    let ops : List Op := [.deliver (.telnetd chars), .deliver .telnet, .deliver (.telnetd chars),
      .change (.slcCheck fun i => if i = 3 then 0 else chars i), .deliver (.telnetd chars), .deliver .telnet,
      .change (.checkSlc (fun i => i.toUInt8 + 2) false), .deliver .telnet, .deliver (.telnetd chars)]
    ∃ p, run step ops (start d chars chars true (Telnet.Slc.slcInit false true some chars)) = some p ∧ p.Quiet ∧
      ∀ i ∈ functions, level (p.telnetd.slctab i).defset.flag ≠ SLC_NOSUPPORT →
        Agree (p.telnetd.slctab i) (p.telnet.spcData i) := by
  intro d chars ops
  have h : (run step ops (start d chars chars true (Telnet.Slc.slcInit false true some chars))).map
      (fun p => decide p.Quiet) = some true := by decide +kernel
  obtain ⟨p, hp, hq⟩ := Option.map_eq_some_iff.mp h
  have hq := of_decide_eq_true hq
  exact ⟨p, hp, hq, slc_agreement (opening_slcInit false true some chars) hp hq⟩

end Netutils.Session
