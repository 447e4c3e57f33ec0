/-
  Netutils.Options.Counters — do_dont_resp and will_wont_resp of telnetd (telnetd/state.c,
  telnetd/telnetd.c) as the numbers that a char holds, beside the same rules over the integers.

  What is received never takes a counter out of a char's range, but a request does, made with
  as many unanswered as a char can count. The counters are exact all along a run exactly where
  no request is made then (`counters_exact_iff`). Modulo 256 the counters are those of the
  other results (`send_mod`, `recv_mod`).
-/

import Mathlib.Data.Int.Init
import Netutils.Options.Machine

namespace Netutils.Options.Counters

open Netutils.Lib.Transition (run Meets run_visible_iff)

/-! ## The rules, with a counter of any kind -/

/-- The macros' bits and the counter, for one of the two directions. -/
structure Half where
  state : Bool
  want : Bool
  resp : Int
  deriving DecidableEq

section Rules

-- `conv` is what becomes of a number that is stored in the counter.
variable (conv : Int → Int)

/-- `if (resp) { resp--; if (resp && state == new) resp--; }` -/
def Half.credit (new : Bool) (h : Half) : Int :=
  if h.resp = 0 then 0
  else
    let resp := conv (h.resp - 1)
    if resp ≠ 0 ∧ h.state = new then conv (resp - 1) else resp

/-- send_do, send_dont, send_will or send_wont with `init` set. -/
def Half.request (new : Bool) (h : Half) : Half × List Bool :=
  if (h.resp = 0 ∧ h.state = new) ∨ h.want = new then (h, [])
  else (⟨h.state, new, conv (h.resp + 1)⟩, [new])

/-- willoption, wontoption, dooption or dontoption; `changeok` is what the switch says of a
    positive state. -/
def Half.receive (changeok new : Bool) (h : Half) : Half × List Bool :=
  let resp := h.credit conv new
  if resp = 0 ∧ h.want ≠ new then
    if new then
      if changeok then (⟨new, new, resp⟩, [new]) else (⟨new, h.want, conv (resp + 1)⟩, [!new])
    else (⟨new, new, resp⟩, if h.state then [new] else [])
  else (⟨new, h.want, resp⟩, [])

end Rules

/-- `will` with will_wont_resp, `do_` with do_dont_resp. -/
structure Opt where
  will : Half
  do_ : Half
  deriving DecidableEq

def Opt.init : Opt := ⟨⟨false, false, 0⟩, ⟨false, false, 0⟩⟩

inductive Event where
  /-- On telnetd's own initiative. -/
  | send (v : Verb)
  | recv (v : Verb)
  deriving DecidableEq

def Opt.next (conv : Int → Int) (p : Policy) (o : Opt) : Event → Opt × List Verb
  | .send .will => ({ o with will := (o.will.request conv true).1 }, (o.will.request conv true).2.map willVerb)
  | .send .wont => ({ o with will := (o.will.request conv false).1 }, (o.will.request conv false).2.map willVerb)
  | .send .do_ => ({ o with do_ := (o.do_.request conv true).1 }, (o.do_.request conv true).2.map doVerb)
  | .send .dont => ({ o with do_ := (o.do_.request conv false).1 }, (o.do_.request conv false).2.map doVerb)
  | .recv .will =>
    ({ o with do_ := (o.do_.receive conv p.acceptWill true).1 }, (o.do_.receive conv p.acceptWill true).2.map doVerb)
  | .recv .wont => ({ o with do_ := (o.do_.receive conv true false).1 }, (o.do_.receive conv true false).2.map doVerb)
  | .recv .do_ =>
    ({ o with will := (o.will.receive conv p.acceptDo true).1 }, (o.will.receive conv p.acceptDo true).2.map willVerb)
  | .recv .dont => ({ o with will := (o.will.receive conv true false).1 }, (o.will.receive conv true false).2.map willVerb)

/-! ## The numbers of a char -/

/-- What a char holds, with a sign or without. -/
def toChar (signed : Bool) (n : Int) : Int := if signed then n.bmod 256 else n % 256

def CHAR_MAX (signed : Bool) : Int := if signed then 127 else 255

variable {signed : Bool} {n : Int} {h : Half} {new changeok : Bool}

theorem toChar_self (h0 : 0 ≤ n) (hn : n ≤ CHAR_MAX signed) : toChar signed n = n := by
  cases signed with
  | false =>
    simp only [CHAR_MAX, Bool.false_eq_true, if_false] at hn
    exact Int.emod_eq_of_lt h0 (by omega)
  | true =>
    simp only [CHAR_MAX, if_true] at hn
    exact Int.bmod_eq_of_le (by omega) (by omega)

/-- One more than it can hold. -/
theorem toChar_over : toChar signed (CHAR_MAX signed + 1) ≠ CHAR_MAX signed + 1 := by
  cases signed <;> decide

theorem toChar_emod (signed : Bool) (n : Int) : toChar signed n % 256 = n % 256 := by
  cases signed with
  | false => exact Int.emod_emod_of_dvd n (Int.dvd_refl 256)
  | true => exact Int.bmod_emod

/-! ## Exact counters -/

/-- The counter can hold its number. -/
def Fits (signed : Bool) (h : Half) : Prop := 0 ≤ h.resp ∧ h.resp ≤ CHAR_MAX signed

theorem one_le_charMax (signed : Bool) : 1 ≤ CHAR_MAX signed := by cases signed <;> decide

theorem credit_exact (new : Bool) (h' : Fits signed h) :
    h.credit (toChar signed) new = h.credit id new ∧ 0 ≤ h.credit id new ∧ h.credit id new ≤ CHAR_MAX signed := by
  obtain ⟨h0, hmax⟩ := h'
  unfold Half.credit
  by_cases hz : h.resp = 0
  · simp only [if_pos hz]
    exact ⟨trivial, Int.le_refl 0, Int.le_trans (by decide) (one_le_charMax signed)⟩
  · simp only [if_neg hz, id_eq]
    rw [toChar_self (by omega) (by omega)]
    split
    · rename_i hagain
      rw [toChar_self (by omega) (by omega)]
      exact ⟨rfl, by omega, by omega⟩
    · exact ⟨rfl, by omega, by omega⟩

/-- What is received keeps a counter in range. -/
theorem receive_exact (changeok new : Bool) (h' : Fits signed h) :
    h.receive (toChar signed) changeok new = h.receive id changeok new ∧ Fits signed (h.receive id changeok new).1 := by
  obtain ⟨hcredit, h0, hmax⟩ := credit_exact new h'
  unfold Half.receive
  simp only [hcredit]
  generalize h.credit id new = resp at h0 hmax
  split
  · rename_i hz
    have hone := one_le_charMax signed
    have hput : toChar signed (0 + 1) = 0 + 1 := toChar_self (by decide) hone
    have hzero : 0 ≤ CHAR_MAX signed := by omega
    rw [hz.1, hput]
    split
    · split
      · exact ⟨rfl, Int.le_refl 0, hzero⟩
      · exact ⟨rfl, Int.le_of_lt Int.zero_lt_one, hone⟩
    · exact ⟨rfl, Int.le_refl 0, hzero⟩
  · exact ⟨rfl, h0, hmax⟩

/-- A request goes out with as many unanswered as can be counted. -/
def Overflows (signed new : Bool) (h : Half) : Prop :=
  ¬((h.resp = 0 ∧ h.state = new) ∨ h.want = new) ∧ h.resp = CHAR_MAX signed

instance (signed new : Bool) (h : Half) : Decidable (Overflows signed new h) := inferInstanceAs (Decidable (_ ∧ _))

theorem request_exact (h' : Fits signed h) (hover : ¬ Overflows signed new h) :
    h.request (toChar signed) new = h.request id new ∧ Fits signed (h.request id new).1 := by
  obtain ⟨h0, hmax⟩ := h'
  unfold Half.request
  split
  · exact ⟨rfl, h0, hmax⟩
  · rename_i hasks
    have hlt : h.resp ≠ CHAR_MAX signed := fun he => hover ⟨hasks, he⟩
    rw [toChar_self (by omega) (by omega)]
    refine ⟨rfl, ?_, ?_⟩
    · simp only [id_eq]
      omega
    · simp only [id_eq]
      omega

theorem request_over (hover : Overflows signed new h) :
    (h.request (toChar signed) new).1.resp ≠ (h.request id new).1.resp := by
  unfold Half.request
  rw [if_neg hover.1, if_neg hover.1]
  simp only [hover.2, id_eq]
  exact toChar_over

/-! ## Runs -/

/-- telnetd, and the counters that the rules define. -/
structure Both where
  stored : Opt
  counted : Opt
  deriving DecidableEq

def Both.init : Both := ⟨.init, .init⟩

def step (signed : Bool) (p : Policy) (e : Event) (b : Both) : Option Both :=
  some ⟨(b.stored.next (toChar signed) p e).1, (b.counted.next id p e).1⟩

/-- Both counters are what they should be. -/
def Exact (b : Both) : Prop := b.stored.will.resp = b.counted.will.resp ∧ b.stored.do_.resp = b.counted.do_.resp

/-- The step takes no counter of telnetd's out of its range. -/
def InRange (signed : Bool) : Event → Both → Prop
  | .send .will, b => ¬ Overflows signed true b.stored.will
  | .send .wont, b => ¬ Overflows signed false b.stored.will
  | .send .do_, b => ¬ Overflows signed true b.stored.do_
  | .send .dont, b => ¬ Overflows signed false b.stored.do_
  | .recv _, _ => True

/-- Both machines are in one state, which a char can hold. -/
def Same (signed : Bool) (b : Both) : Prop := b.stored = b.counted ∧ Fits signed b.counted.will ∧ Fits signed b.counted.do_

theorem same_init (signed : Bool) : Same signed .init := by
  have hzero : 0 ≤ CHAR_MAX signed := Int.le_trans (by decide) (one_le_charMax signed)
  exact ⟨rfl, ⟨Int.le_refl 0, hzero⟩, ⟨Int.le_refl 0, hzero⟩⟩

theorem step_same {p : Policy} {e : Event} {b c : Both} (hb : Same signed b) (hs : step signed p e b = some c) :
    (InRange signed e b → Same signed c) ∧ (Exact c → InRange signed e b) := by
  obtain ⟨o, counted⟩ := b
  obtain ⟨heq, hwill, hdo⟩ := hb
  obtain rfl : o = counted := heq
  obtain rfl := Option.some.inj hs
  have hreq : ∀ {h : Half} {new : Bool}, Fits signed h →
      (¬ Overflows signed new h → h.request (toChar signed) new = h.request id new ∧ Fits signed (h.request id new).1) ∧
        ((h.request (toChar signed) new).1.resp = (h.request id new).1.resp → ¬ Overflows signed new h) :=
    fun hf => ⟨request_exact hf, fun he hover => request_over hover he⟩
  cases e with
  | send v =>
    cases v with
    | will =>
      refine ⟨fun hok => ?_, fun hex => (hreq hwill).2 hex.1⟩
      obtain ⟨heq, hfits⟩ := (hreq hwill).1 hok
      exact ⟨by simp only [Opt.next, heq], hfits, hdo⟩
    | wont =>
      refine ⟨fun hok => ?_, fun hex => (hreq hwill).2 hex.1⟩
      obtain ⟨heq, hfits⟩ := (hreq hwill).1 hok
      exact ⟨by simp only [Opt.next, heq], hfits, hdo⟩
    | do_ =>
      refine ⟨fun hok => ?_, fun hex => (hreq hdo).2 hex.2⟩
      obtain ⟨heq, hfits⟩ := (hreq hdo).1 hok
      exact ⟨by simp only [Opt.next, heq], hwill, hfits⟩
    | dont =>
      refine ⟨fun hok => ?_, fun hex => (hreq hdo).2 hex.2⟩
      obtain ⟨heq, hfits⟩ := (hreq hdo).1 hok
      exact ⟨by simp only [Opt.next, heq], hwill, hfits⟩
  | recv v =>
    refine ⟨fun _ => ?_, fun _ => trivial⟩
    cases v with
    | will =>
      obtain ⟨heq, hfits⟩ := receive_exact p.acceptWill true hdo
      exact ⟨by simp only [Opt.next, heq], hwill, hfits⟩
    | wont =>
      obtain ⟨heq, hfits⟩ := receive_exact true false hdo
      exact ⟨by simp only [Opt.next, heq], hwill, hfits⟩
    | do_ =>
      obtain ⟨heq, hfits⟩ := receive_exact p.acceptDo true hwill
      exact ⟨by simp only [Opt.next, heq], hfits, hdo⟩
    | dont =>
      obtain ⟨heq, hfits⟩ := receive_exact true false hwill
      exact ⟨by simp only [Opt.next, heq], hfits, hdo⟩

theorem run_isSome (signed : Bool) (p : Policy) (es : List Event) (b : Both) : ∃ c, run (step signed p) es b = some c := by
  induction es generalizing b with
  | nil => exact ⟨b, rfl⟩
  | cons e es ih => exact ih _

/-- In every state of a run the counters are those of the rules, exactly if no request overflows
    one. -/
theorem counters_exact_iff (signed : Bool) (p : Policy) (es : List Event) :
    (∀ bs b, bs <+: es → run (step signed p) bs .init = some b → Exact b) ↔
      Meets (step signed p) (InRange signed) es .init := by
  obtain ⟨c, hc⟩ := run_isSome signed p es .init
  refine run_visible_iff (P := Same signed) (fun b hb => ?_) (fun _ _ _ hb hs => step_same hb hs) (same_init signed) hc
  exact ⟨congrArg (·.will.resp) hb.1, congrArg (·.do_.resp) hb.1⟩

/-- send_will and send_wont in turn, as often as a char has values. -/
def toggles : List Event := (List.replicate 128 [Event.send .will, Event.send .wont]).flatten

theorem toggles_wrap :
    ¬ (∀ bs b, bs <+: toggles → run (step true ⟨true, true⟩) bs .init = some b → Exact b) ∧
      ¬ (∀ bs b, bs <+: toggles → run (step false ⟨true, true⟩) bs .init = some b → Exact b) := by
  constructor
  · intro h
    have hstored : (run (step true ⟨true, true⟩) (toggles.take 128) .init).map (·.stored.will.resp) = some (-128) := by
      decide +kernel
    have hcounted : (run (step true ⟨true, true⟩) (toggles.take 128) .init).map (·.counted.will.resp) = some 128 := by
      decide +kernel
    obtain ⟨b, hb⟩ := run_isSome true ⟨true, true⟩ (toggles.take 128) .init
    have hexact := (h _ b (List.take_prefix 128 toggles) hb).1
    rw [hb] at hstored hcounted
    have h1 : b.stored.will.resp = -128 := Option.some.inj hstored
    have h2 : b.counted.will.resp = 128 := Option.some.inj hcounted
    omega
  · intro h
    have hstored : (run (step false ⟨true, true⟩) toggles .init).map (·.stored.will.resp) = some 0 := by decide +kernel
    have hcounted : (run (step false ⟨true, true⟩) toggles .init).map (·.counted.will.resp) = some 256 := by
      decide +kernel
    obtain ⟨b, hb⟩ := run_isSome false ⟨true, true⟩ toggles .init
    have hexact := (h _ b (List.prefix_refl _) hb).1
    rw [hb] at hstored hcounted
    have h1 : b.stored.will.resp = 0 := Option.some.inj hstored
    have h2 : b.counted.will.resp = 256 := Option.some.inj hcounted
    omega

/-! ## Modulo 256 -/

/-- As Options.Machine has it. -/
def Half.mod (h : Half) : Lib.Negotiation.Half := ⟨h.state, h.want, (h.resp % 256).toNat⟩

def Opt.mod (o : Opt) : Options.Opt := ⟨o.will.mod, o.do_.mod⟩

/-- A number that a char can have. -/
def IsChar (signed : Bool) (n : Int) : Prop := toChar signed n = n

theorem isChar_eq_zero (hn : IsChar signed n) : (n % 256).toNat = 0 ↔ n = 0 := by
  refine ⟨fun h => ?_, fun h => by rw [h]; rfl⟩
  have hmod : n % 256 = 0 := by omega
  unfold IsChar toChar at hn
  cases signed with
  | false => exact hn.symm.trans hmod
  | true =>
    rw [if_pos rfl, Int.bmod_def] at hn
    omega

theorem isChar_toChar (signed : Bool) (n : Int) : IsChar signed (toChar signed n) := by
  unfold IsChar toChar
  cases signed with
  | false => exact Int.emod_emod_of_dvd n (Int.dvd_refl 256)
  | true => exact Int.bmod_bmod

theorem mod_pred (hn : n ≠ 0) (hc : IsChar signed n) : (toChar signed (n - 1) % 256).toNat = (n % 256).toNat - 1 := by
  have hne := mt (isChar_eq_zero hc).mp hn
  rw [toChar_emod]
  omega

theorem credit_mod (new : Bool) (hc : IsChar signed h.resp) :
    (h.credit (toChar signed) new % 256).toNat = h.mod.credit new ∧ IsChar signed (h.credit (toChar signed) new) := by
  unfold Half.credit Lib.Negotiation.Half.credit Half.mod
  simp only [isChar_eq_zero hc]
  by_cases hz : h.resp = 0
  · simp only [if_pos hz]
    exact ⟨rfl, toChar_self (Int.le_refl 0) (Int.le_trans (by decide) (one_le_charMax signed))⟩
  · simp only [if_neg hz]
    have hpred := mod_pred hz hc
    have hc' := isChar_toChar signed (h.resp - 1)
    have hiff := isChar_eq_zero hc'
    rw [← hpred]
    generalize toChar signed (h.resp - 1) = resp at hc' hiff
    simp only [ne_eq, hiff]
    split
    · rename_i hagain
      exact ⟨mod_pred hagain.1 hc', isChar_toChar signed _⟩
    · exact ⟨rfl, hc'⟩

theorem mod_succ (n : Int) : (toChar signed (n + 1) % 256).toNat = ((n % 256).toNat + 1) % respRange := by
  rw [toChar_emod, respRange]
  omega

theorem request_mod (new : Bool) (hc : IsChar signed h.resp) :
    h.mod.request respRange new = ((h.request (toChar signed) new).1.mod, (h.request (toChar signed) new).2) := by
  unfold Half.request Lib.Negotiation.Half.request
  simp only [show h.mod.resp = (h.resp % 256).toNat from rfl, isChar_eq_zero hc, show h.mod.state = h.state from rfl,
    show h.mod.want = h.want from rfl]
  split
  · rfl
  · simp only [Half.mod, mod_succ]

theorem receive_mod (changeok new : Bool) (hc : IsChar signed h.resp) :
    h.mod.receive respRange changeok new =
      ((h.receive (toChar signed) changeok new).1.mod, (h.receive (toChar signed) changeok new).2) := by
  obtain ⟨hcredit, hc'⟩ := credit_mod new hc
  unfold Half.receive Lib.Negotiation.Half.receive
  simp only [← hcredit, show h.mod.state = h.state from rfl, show h.mod.want = h.want from rfl]
  generalize h.credit (toChar signed) new = resp at hc'
  simp only [isChar_eq_zero hc']
  repeat' split
  all_goals simp only [Half.mod, mod_succ]

/-- What telnetd does of itself. -/
theorem send_mod (p : Policy) {o : Opt} (hwill : IsChar signed o.will.resp) (hdo : IsChar signed o.do_.resp) (v : Verb) :
    Telnetd.initiate v o.mod =
      ((o.next (toChar signed) p (.send v)).1.mod, (o.next (toChar signed) p (.send v)).2) := by
  cases v with
  | will =>
    have h := request_mod true hwill
    simp only [Telnetd.initiate, Telnetd.sendWill, Options.send, Options.Opt.setWill, if_true, Opt.mod, h]
    rfl
  | wont =>
    have h := request_mod false hwill
    simp only [Telnetd.initiate, Telnetd.sendWont, Options.send, Options.Opt.setWill, if_true, Opt.mod, h]
    rfl
  | do_ =>
    have h := request_mod true hdo
    simp only [Telnetd.initiate, Telnetd.sendDo, Options.send, Options.Opt.setDo, if_true, Opt.mod, h]
    rfl
  | dont =>
    have h := request_mod false hdo
    simp only [Telnetd.initiate, Telnetd.sendDont, Options.send, Options.Opt.setDo, if_true, Opt.mod, h]
    rfl

/-- What it answers. -/
theorem recv_mod (p : Policy) {o : Opt} (hwill : IsChar signed o.will.resp) (hdo : IsChar signed o.do_.resp) (v : Verb) :
    Telnetd.receive p v o.mod =
      ((o.next (toChar signed) p (.recv v)).1.mod, (o.next (toChar signed) p (.recv v)).2) := by
  cases v with
  | will =>
    have h := receive_mod p.acceptWill true hdo
    simp only [Telnetd.receive, Telnetd.willoption, Options.Opt.setDo, Opt.mod, h]
    rfl
  | wont =>
    have h := receive_mod true false hdo
    simp only [Telnetd.receive, Telnetd.wontoption, Options.Opt.setDo, Opt.mod, h]
    rfl
  | do_ =>
    have h := receive_mod p.acceptDo true hwill
    simp only [Telnetd.receive, Telnetd.dooption, Options.Opt.setWill, Opt.mod, h]
    rfl
  | dont =>
    have h := receive_mod true false hwill
    simp only [Telnetd.receive, Telnetd.dontoption, Options.Opt.setWill, Opt.mod, h]
    rfl

end Netutils.Options.Counters
