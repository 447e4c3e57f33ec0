/-
  Netutils.Ifconfig.Denote — what a template means, and that print_interfaceX puts it.
-/

import Netutils.Ifconfig.PrintifBounds
import Netutils.Ifconfig.Template
import Netutils.Lib.Lockstep

namespace Netutils.Ifconfig

open Netutils.Lib Netutils.Lib.Agenda Netutils.Lib.Faults Netutils.Libc

/-! ## What a template means -/

section Meaning

variable (form : FormatData)

/-- The first argument if so, else the second. -/
def choice (yes : Bool) : List Str → Nat := fun _ => if yes then 0 else 1

/-- Its address is there, and so is the flag that belongs to it. -/
def addressed (flag : String) (d : Ioctl Addr) : Bool :=
  d.holds (fun _ => true) &&
    match form.flags with
    | .undefined => true
    | flags => flags.holds fun flags => (ifNametoflag form.iff (text flag)).toOption.any fun f => f &&& flags.signExtend 32 ≠ 0

/-- There is a hardware address, of a type that can be printed. -/
def hasHwaddr (l : Linux) : Bool :=
  l.hwaddr.holds fun hwaddr =>
    ((arphrdSymbols l.arphrd).find? fun arp => decide (arp.value = hwaddr.sa_family)).any fun arp => arp.print_hwaddr.isSome

/-- Which argument each conditional selects. -/
def conditions : List (Str × (List Str → Nat)) :=
  (match form.system with
    | .linux l =>
      [(text "hwaddr?", choice (hasHwaddr l)), (text "hwtype?", choice (l.hwaddr.holds fun _ => true)),
       (text "txqlen?", choice (l.qlen.holds fun qlen => 0 ≤ qlen.toInt))]
    | _ => []) ++
  [(text "first?", choice form.first), (text "exists?", fun argv => if argv.headD [] ∈ handleNames form then 1 else 2),
   (text "index?", choice (form.index ≠ 0)), (text "addr?", choice (form.addr.holds fun _ => true)),
   (text "netmask?", choice (form.netmask.holds fun _ => true)), (text "brdaddr?", choice (addressed form "BROADCAST" form.brdaddr)),
   (text "dstaddr?", choice (addressed form "POINTOPOINT" form.dstaddr)), (text "flags?", choice (form.flags.holds fun _ => true)),
   (text "mtu?", choice (form.mtu.holds fun _ => true)), (text "metric?", choice (form.metric.holds fun metric => 0 < metric.toInt))]

/-- A conditional is the argument that it selects; any other name is what its handler makes of the
    arguments, with turns for fh_tab. -/
def meaning (id : Str) (print : Print) (argv : List Str) (o : Out) : Except Stop Out :=
  match (conditions form).lookup id with
  | some sel => selectArg print argv (sel argv) o
  | none => formatHandler form id print (2 ^ 32) argv o

/-- The texts of the arguments mean what the arguments do, and the others are formats. -/
def among (args : List (Str × (Out → Except Stop Out))) (fmt : Print) : Print := fun s o =>
  match args.lookup s with
  | some meant => meant o
  | none => fmt s o

mutual

def denote (fmt : Print) : Template → Out → Except Stop Out
  | .nil, o => .ok o
  | .char c t, o => denote fmt t (putChar c o)
  | .dollar t, o => denote fmt t (putChar DOLLAR o)
  | .close t, o => denote fmt t (putChar CLOSE o)
  | .subst id args t, o => meaning form id (among (denoteArgs fmt args) fmt) (args.map Template.spell) o >>= denote fmt t

def denoteArgs (fmt : Print) : List Template → List (Str × (Out → Except Stop Out))
  | [] => []
  | a :: as => (a.spell, denote fmt a) :: denoteArgs fmt as

end

/-- The templates of formats, which name others down to so many levels. -/
def formatMeaning : Nat → Print
  | 0, _, _ => .error (.fault .turns)
  | k + 1, s, o =>
    match Template.ofText s with
    | some t => denote form (formatMeaning k) t o
    | none => .error (.fault .template)

def denotation (t : Template) (o : Out) : Except Stop Out := denote form (formatMeaning form formats.length) t o

/-! ## The agenda of a template -/

/-- SIOCGIFHWADDR fails: the second selection of `hwaddr?` is to be empty. -/
def oncePlan (l : Linux) : Plan := fun argv =>
  match l.hwaddr with
  | .failed =>
    pick argv 1 ++ foundPlan l l.sa_family fun arp =>
      let nr := if arp.print_hwaddr.isSome then 0 else 1
      if argv[nr]?.all (· = []) then pick argv nr else [.leave]
  | _ => hwaddrQueryPlan l argv

/-- What a handler goes on with, where no conditional is to select anything more. -/
def strictPlan (id : Str) : Plan :=
  match form.system with
  | .linux l => if id = text "hwaddr?" then oncePlan l else plan form id
  | _ => plan form id

/-- `step`, with these plans. -/
def stepOf (plan : Str → Plan) (t : Text) : Todo :=
  match turn t.nested t.p with
  | .stop _ => []
  | .leave => [.leave]
  | .put _ p => [.task ⟨t.nested, p⟩]
  | .dump _ => []
  | .subst id p =>
    match args p with
    | none => [.leave]
    | some (argv, p') =>
      if POINTER_SIZE * argv.length ≤ (p.length + 1) / 2 then plan id argv ++ [.task ⟨t.nested, p'⟩] else [.leave]

def strictStep : Text → Todo := stepOf (strictPlan form)

def hwaddrFails : Bool :=
  match form.system with
  | .linux l =>
    match l.hwaddr with
    | .failed => true
    | _ => false
  | _ => false

end Meaning

variable {form : FormatData} {l : Linux} {call call' : Text → Out → Except Stop Out} {argv : List Str} {o : Out} {n : Nat}
  {id : Str} {t : Template}

theorem step_eq (form : FormatData) : step form = stepOf (plan form) := rfl

theorem oncePlan_earlier (l : Linux) (argv : List Str) : Earlier (oncePlan l argv) (hwaddrQueryPlan l argv) := by
  unfold oncePlan hwaddrQueryPlan foundPlan
  cases l.hwaddr with
  | undefined => exact .inl rfl
  | done hwaddr => exact .inl rfl
  | failed =>
    simp only
    cases arphrdFindvalue l l.sa_family with
    | error e => exact .inl rfl
    | ok arp =>
      simp only
      by_cases hnone : argv[if arp.print_hwaddr.isSome then 0 else 1]?.all (· = []) = true
      · rw [if_pos hnone]
        exact .inl rfl
      · rw [if_neg hnone]
        exact .inr ⟨pick argv 1, [], _, rfl, rfl⟩

theorem plan_hwaddrQuery (hform : form.system = .linux l) : plan form (text "hwaddr?") = hwaddrQueryPlan l := by
  unfold plan plans systemPlans
  rw [hform]
  rfl

theorem strictPlan_earlier (form : FormatData) (id : Str) (argv : List Str) : Earlier (strictPlan form id argv) (plan form id argv) := by
  unfold strictPlan
  cases hform : form.system with
  | linux l =>
    simp only
    split
    · rename_i hid
      rw [hid, plan_hwaddrQuery hform]
      exact oncePlan_earlier l argv
    · exact .inl rfl
  | _ => exact .inl rfl

theorem strictPlan_eq (h : hwaddrFails form = false) (id : Str) : strictPlan form id = plan form id := by
  unfold strictPlan
  cases hform : form.system with
  | linux l =>
    simp only
    split
    · rename_i hid
      rw [hid, plan_hwaddrQuery hform]
      funext argv
      unfold oncePlan
      cases hl : l.hwaddr with
      | failed => simp [hwaddrFails, hform, hl] at h
      | _ => rfl
    · rfl
  | _ => rfl

theorem strictStep_earlier (form : FormatData) (t : Text) : Earlier (strictStep form t) (step form t) := by
  rw [step_eq, strictStep, stepOf, stepOf]
  cases turn t.nested t.p with
  | subst id p =>
    simp only
    cases args p with
    | none => exact .inl rfl
    | some a =>
      obtain ⟨argv, p'⟩ := a
      simp only
      by_cases hroom : POINTER_SIZE * argv.length ≤ (p.length + 1) / 2
      · rw [if_pos hroom, if_pos hroom]
        exact (strictPlan_earlier form id argv).append _
      · rw [if_neg hroom, if_neg hroom]
        exact .inl rfl
  | _ => exact .inl rfl

theorem strictStep_eq (h : hwaddrFails form = false) : strictStep form = step form := by
  rw [step_eq, strictStep, funext (strictPlan_eq h)]

end Netutils.Ifconfig
