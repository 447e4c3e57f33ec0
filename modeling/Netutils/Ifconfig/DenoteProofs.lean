/-
  Netutils.Ifconfig.DenoteProofs — print_interfaceX puts what a template means.

  Whatever it interprets its arguments with, a handler takes the items of its plan, so that the
  same handler on what the arguments mean goes along with it (`parallel_formatHandler`). The
  conditionals go along with the argument that they select (`lockstep_condition`), but for
  `hwaddr?`, where SIOCGIFHWADDR fails.
-/

import Netutils.Ifconfig.Denote

namespace Netutils.Ifconfig

open Netutils.Lib Netutils.Lib.Agenda Netutils.Lib.Faults Netutils.Libc

variable {form : FormatData} {l : Linux} {call call' : Text → Out → Except Stop Out} {argv : List Str} {o : Out} {n : Nat}
  {id : Str} {t : Template} {plan : Plan} {handler : Handler}

/-! ## Handlers -/

/-- On two interpreters a handler goes along with itself. -/
def Parallel (handler : Handler) (plan : Plan) : Prop :=
  ∀ (call call' : Text → Out → Except Stop Out) n argv o, Lockstep call call' Stop.Exits (plan argv)
    (handler (fun s => call ⟨true, s⟩) n argv o) (handler (fun s => call' ⟨true, s⟩) (2 ^ 32) argv o)

/-- It interprets nothing. -/
def Taskless (plan : Plan) : Prop := ∀ argv t, .task t ∉ plan argv

theorem taskless_nil : Taskless fun _ => [] := fun _ _ => List.not_mem_nil

theorem taskless_quit : Taskless fun _ => [.quit] := fun _ _ h => nomatch List.mem_singleton.mp h

theorem taskless_int : Taskless intPlan := fun _ _ => not_mem_must

theorem taskless_value {α : Type} {d : Ioctl α} {put : α → Plan} (hput : ∀ a, Taskless (put a)) : Taskless (valuePlan d put) := by
  intro argv t h
  cases d with
  | undefined => cases h
  | failed => cases List.mem_singleton.mp h
  | done a => exact hput a argv t h

theorem taskless_addr : Taskless addrPlan := by
  intro argv t h
  cases argv with
  | nil => cases h
  | cons arg rest =>
    simp only [addrPlan] at h
    split at h
    · exact taskless_int rest t h
    · cases h

theorem taskless_index : Taskless (indexPlan form) := by
  intro argv t h
  unfold indexPlan at h
  split at h
  · exact taskless_quit argv t h
  · cases h

theorem taskless_flags (flags : BitVec 16) : Taskless (flagsPlan form flags) := by
  intro argv t h
  cases argv with
  | nil => exact not_mem_must h
  | cons arg rest =>
    simp only [flagsPlan] at h
    split at h
    · exact taskless_int rest t h
    · split at h
      · exact not_mem_must h
      · cases h

theorem taskless_hwaddr : Taskless (hwaddrPlan l) := by
  apply taskless_value
  intro hwaddr argv t h
  obtain ⟨arp, h⟩ := mem_found h
  cases h

/-- A handler that interprets nothing is the same in either run. -/
theorem parallel_plain (hsame : ∀ print print' n n', handler print n = handler print' n') (h : Acts handler plan)
    (hno : Taskless plan) : Parallel handler plan := by
  intro call call' n argv o
  rw [hsame _ (fun s => call ⟨true, s⟩) (2 ^ 32) n]
  have hgoes := h call False (2 ^ 32) (Nat.lt_irrefl _) argv o
  rw [hsame _ (fun s => call ⟨true, s⟩) (2 ^ 32) n] at hgoes
  exact .of_goes hgoes (hno argv)

theorem lockstep_selectArg (argv : List Str) (nr : Nat) (o : Out) : Lockstep call call' Stop.Exits (pick argv nr)
    (selectArg (fun s => call ⟨true, s⟩) argv nr o) (selectArg (fun s => call' ⟨true, s⟩) argv nr o) := by
  unfold pick selectArg
  cases argv[nr]? with
  | none => exact .done o
  | some s => exact .last _ o

theorem parallel_query (yes : Bool) : Parallel (query yes) (queryPlan yes) := fun _ _ _ argv o => lockstep_selectArg argv _ o

/-- Two runs of fh_tab that come to an end do so at the same column. -/
theorem tabLoop_unique {goal : Int} {m : Nat} {o' o'' : Out} (h : tabLoop goal n o = .ok o') (h' : tabLoop goal m o = .ok o'') :
    o' = o'' := by
  induction n generalizing m o with
  | zero => cases h
  | succ n ih =>
    cases m with
    | zero => cases h'
    | succ m =>
      rw [tabLoop] at h h'
      split at h
      · rename_i hlt
        rw [if_pos hlt] at h'
        exact ih h h'
      · rename_i hge
        rw [if_neg hge] at h'
        exact Except.ok.inj (h.symm.trans h')

/-- In enough turns the second comes to the end where the first does. -/
theorem lockstep_tab {m : Nat} (hm : ¬ m < 2 ^ 32) (print print' : Print) (n : Nat) (argv : List Str) (o : Out) :
    Lockstep call call' Stop.Exits (tabPlan argv) (fhTab print n argv o) (fhTab print' m argv o) := by
  have hgoes := acts_tab call False m hm argv o
  rw [fhTab] at hgoes ⊢
  rw [fhTab]
  generalize (if (argv.head?.map strtol).getD 0 ≤ 0 then o.nextTab.toInt else (argv.head?.map strtol).getD 0) = goal at hgoes ⊢
  rcases tabLoop_cases goal n o with ⟨o', h⟩ | h
  · unfold tabPlan must at hgoes ⊢
    split
    · rename_i hgoal
      rw [if_pos hgoal] at hgoes
      cases hloop : tabLoop goal m o with
      | error e =>
        rw [hloop] at hgoes
        cases hgoes with
        | tired h => exact h.elim
      | ok o'' =>
        rw [h, tabLoop_unique h hloop]
        exact .done o''
    · exact .leave
  · rw [h]
    exact .fails id

theorem parallel_tab : Parallel fhTab tabPlan := fun _ _ n argv o => lockstep_tab (Nat.lt_irrefl _) _ _ n argv o

theorem lockstep_joinLoop (delimiter : Str) (rest : List Str) (saved : Bool) (o : Out) :
    Lockstep call call' Stop.Exits (rest.map inner) (joinLoop (fun s => call ⟨true, s⟩) delimiter rest saved o)
      (joinLoop (fun s => call' ⟨true, s⟩) delimiter rest saved o) := by
  induction rest generalizing saved o with
  | nil => exact .done _
  | cons arg rest ih =>
    rw [joinLoop, joinLoop]
    split
    · exact .task _ (ih true)
    · exact .task _ (ih saved)

theorem parallel_join : Parallel fhJoin joinPlan := by
  intro call call' n argv o
  match argv with
  | [] => exact .done o
  | [_] => exact .done o
  | delimiter :: arg :: rest => exact lockstep_joinLoop delimiter (arg :: rest) _ _

theorem parallel_exists (names : List Str) : Parallel (fhExistsQuery names) (existsPlan names) := by
  intro call call' n argv o
  cases argv with
  | nil => exact .done o
  | cons arg rest => exact lockstep_selectArg _ _ o

theorem parallel_format : Parallel fhFormat formatPlan := by
  intro call call' n argv o
  apply Lockstep.foldlM
  intro o arg
  cases formats.find? fun frm => decide (arg = frm.name) with
  | none => exact .done o
  | some frm => exact .last _ o

theorem parallel_error : Parallel fhError fun argv => argv.map inner := by
  intro call call' n argv o
  have hall : Lockstep call call' Stop.Exits (argv.map inner)
      (argv.foldlM (fun o arg => call ⟨true, arg⟩ o) { o with ostream := .stderr })
      (argv.foldlM (fun o arg => call' ⟨true, arg⟩ o) { o with ostream := .stderr }) := by
    rw [List.map_eq_flatMap]
    exact Lockstep.foldlM (fun o arg => .last _ o) argv _
  have h : Lockstep call call' Stop.Exits (argv.map inner ++ []) (fhError (fun s => call ⟨true, s⟩) n argv o)
      (fhError (fun s => call' ⟨true, s⟩) (2 ^ 32) argv o) := hall.bind fun o' => .done _
  rwa [List.append_nil] at h

/-- The lookup leaves if_flags, or the address and its flag decide. -/
theorem flagged_cases (form : FormatData) (flag : String) (d : Ioctl Addr) :
    (∀ argv, flaggedPlan form flag d argv = [.leave]) ∨
    (∀ argv, flaggedPlan form flag d argv = pick argv (choice (addressed form flag d) argv)) ∧
    ∀ print n argv o, flaggedQuery form flag d print n argv o = selectArg print argv (choice (addressed form flag d) argv) o := by
  unfold flaggedPlan flaggedQuery addressed
  cases ifNametoflag form.iff (text flag) with
  | error e => cases d <;> cases form.flags <;> simp [queryPlan, query, choice, Ioctl.holds]
  | ok f =>
    refine .inr ?_
    cases d with
    | done addr =>
      cases form.flags with
      | done flags =>
        by_cases hset : f &&& flags.signExtend 32 = 0#32 <;> simp [queryPlan, query, choice, Ioctl.holds, Except.toOption, hset]
      | _ => simp [queryPlan, query, choice, Ioctl.holds]
    | _ => cases form.flags <;> simp [queryPlan, query, choice, Ioctl.holds]

theorem parallel_flagged (flag : String) (d : Ioctl Addr) : Parallel (flaggedQuery form flag d) (flaggedPlan form flag d) := by
  intro call call' n argv o
  rcases flagged_cases form flag d with hplan | ⟨hplan, hquery⟩
  · rw [hplan]
    exact .leave
  · rw [hplan, hquery, hquery]
    exact lockstep_selectArg argv _ o

theorem lockstep_found {family : BitVec 16} {found : ArphrdSymbol → Todo} {f g : ArphrdSymbol → Except Stop Out}
    (hfound : ∀ arp, Lockstep call call' Stop.Exits (found arp) (f arp) (g arp)) :
    Lockstep call call' Stop.Exits (foundPlan l family found) (arphrdFindvalue l family >>= f) (arphrdFindvalue l family >>= g) := by
  unfold foundPlan
  cases arphrdFindvalue l family with
  | error e => exact .leave
  | ok arp => exact hfound arp

theorem parallel_hwaddrQuery : Parallel (systemFhHwaddrQuery l) (hwaddrQueryPlan l) := by
  intro call call' n argv o
  unfold systemFhHwaddrQuery hwaddrQueryPlan
  cases l.hwaddr with
  | undefined => exact lockstep_selectArg argv 1 o
  | failed =>
    apply (lockstep_selectArg argv 1 o).bind
    intro o
    exact lockstep_found fun arp => lockstep_selectArg argv _ o
  | done hwaddr => exact lockstep_found fun arp => lockstep_selectArg argv _ o

/-! ## The tables -/

/-- A handler and the plan of that name. -/
def Along (x : Str × Handler) (y : Str × Plan) : Prop := x.1 = y.1 ∧ Parallel x.2 y.2

theorem along_plain {name : Str} (hsame : ∀ print print' n n', handler print n = handler print' n') (h : Acts handler plan)
    (hno : Taskless plan) : Along (name, handler) (name, plan) := ⟨rfl, parallel_plain hsame h hno⟩

theorem along_done {name : Str} {f : List Str → Out → Out} : Along (name, fun _ _ argv o => .ok (f argv o)) (name, fun _ => []) :=
  along_plain (fun _ _ _ _ => rfl) acts_done taskless_nil

theorem along_query {name : Str} {yes : Bool} : Along (name, query yes) (name, queryPlan yes) := ⟨rfl, parallel_query yes⟩

theorem along_addr {name : Str} {request : String} {d : Ioctl Addr} :
    Along (name, value form request d fun sa argv o => putAddr form argv sa o) (name, valuePlan d fun _ => addrPlan) :=
  along_plain (fun _ _ _ _ => rfl) (acts_value fun _ _ sa argv o => goes_putAddr argv sa o) (taskless_value fun _ => taskless_addr)

theorem along_int {name : Str} {request : String} {d : Ioctl (BitVec 32)} :
    Along (name, value form request d fun nr argv o => putInt form argv nr.toInt o) (name, valuePlan d fun _ => intPlan) :=
  along_plain (fun _ _ _ _ => rfl) (acts_value fun _ _ nr argv o => goes_putInt argv nr.toInt o) (taskless_value fun _ => taskless_int)

theorem along_flagged {name : Str} (flag : String) {d : Ioctl Addr} :
    Along (name, flaggedQuery form flag d) (name, flaggedPlan form flag d) := ⟨rfl, parallel_flagged flag d⟩

theorem along_system : List.Forall₂ Along (systemFormatHandler form) (systemPlans form) := by
  unfold systemFormatHandler systemPlans
  cases form.system with
  | linux l =>
    exact .cons along_done <| .cons ⟨rfl, parallel_hwaddrQuery⟩ <|
      .cons (along_plain (fun _ _ _ _ => rfl) acts_hwaddr taskless_hwaddr) <| .cons along_query <|
      .cons (along_plain (fun _ _ _ _ => rfl) acts_hwtype taskless_hwaddr) <| .cons along_query <| .cons along_int .nil
  | generic => exact .nil
  | solaris => exact .cons along_done .nil
  | hpux => exact .cons along_done .nil
  | qnx => exact .cons along_done .nil

theorem along_own (names : List Str) : List.Forall₂ Along (ownHandles form names) (ownPlans form names) :=
  .cons along_done <| .cons along_done <| .cons along_done <| .cons along_done <| .cons along_query <|
  .cons ⟨rfl, parallel_tab⟩ <| .cons ⟨rfl, parallel_join⟩ <|
  .cons ⟨rfl, parallel_exists names⟩ <| .cons ⟨rfl, parallel_format⟩ <|
  .cons ⟨rfl, parallel_error⟩ <| .cons along_done <| .cons (along_plain (fun _ _ _ _ => rfl) acts_exit taskless_quit) <|
  .cons along_done <| .cons along_query <| .cons (along_plain (fun _ _ _ _ => rfl) acts_index taskless_index) <|
  .cons along_query <| .cons along_addr <| .cons along_query <| .cons along_addr <|
  .cons (along_flagged "BROADCAST") <| .cons along_addr <| .cons (along_flagged "POINTOPOINT") <| .cons along_addr <|
  .cons along_query <| .cons (along_plain (fun _ _ _ _ => rfl) acts_flags (taskless_value taskless_flags)) <|
  .cons along_query <| .cons along_int <| .cons along_query <| .cons along_int .nil

theorem parallel_formatHandler (form : FormatData) (id : Str) : Parallel (formatHandler form id) (Ifconfig.plan form id) := by
  intro call call' n argv o
  unfold formatHandler Ifconfig.plan
  rcases lookup_rows (List.rel_append along_system (along_own (handleNames form))) id with
    ⟨hh, hp⟩ | ⟨handler, p, hh, hp, halong⟩
  · rw [show (formatHandles form).lookup id = none from hh, show (plans form).lookup id = none from hp]
    exact .done _
  · rw [show (formatHandles form).lookup id = some handler from hh, show (plans form).lookup id = some p from hp]
    exact halong call call' n argv o

/-! ## The conditionals -/

/-- What is empty means nothing. -/
def Blank (call : Text → Out → Except Stop Out) (argv : List Str) : Prop := [] ∈ argv → ∀ o, call ⟨true, []⟩ o = .ok o

/-- The handler of this name goes along with the argument that is selected. -/
def Selects (form : FormatData) (id : Str) (sel : List Str → Nat) : Prop :=
  ∀ (call call' : Text → Out → Except Stop Out) n argv o, Blank call' argv → Lockstep call call' Stop.Exits (strictPlan form id argv)
    (formatHandler form id (fun s => call ⟨true, s⟩) n argv o) (selectArg (fun s => call' ⟨true, s⟩) argv (sel argv) o)

/-- What is found for a name in both tables. -/
def Found (form : FormatData) (id : Str) (handler : Handler) (plan : Plan) : Prop :=
  formatHandler form id = handler ∧ strictPlan form id = plan

theorem selects_query {yes : Bool} (h : Found form id (query yes) (queryPlan yes)) : Selects form id (choice yes) := by
  intro call call' n argv o _
  rw [h.1, h.2]
  exact lockstep_selectArg argv _ o

theorem selects_flagged {flag : String} {d : Ioctl Addr} (h : Found form id (flaggedQuery form flag d) (flaggedPlan form flag d)) :
    Selects form id (choice (addressed form flag d)) := by
  intro call call' n argv o _
  rw [h.1, h.2]
  rcases flagged_cases form flag d with hplan | ⟨hplan, hquery⟩
  · rw [hplan]
    exact .leave
  · rw [hplan, hquery]
    exact lockstep_selectArg argv _ o

theorem selects_exists {names : List Str} (h : Found form id (fhExistsQuery names) (existsPlan names)) :
    Selects form id fun argv => if argv.headD [] ∈ names then 1 else 2 := by
  intro call call' n argv o _
  rw [h.1, h.2]
  cases argv with
  | nil =>
    rw [selectArg, List.getElem?_nil]
    exact .done o
  | cons arg rest => exact lockstep_selectArg _ _ o

theorem lockstep_blank {nr : Nat} (hblank : Blank call' argv) (hnr : argv[nr]?.all (· = []) = true) (o : Out) :
    Lockstep call call' Stop.Exits (pick argv nr) (selectArg (fun s => call ⟨true, s⟩) argv nr o) (.ok o) := by
  have h := @lockstep_selectArg call call' argv nr o
  have hnothing : selectArg (fun s => call' ⟨true, s⟩) argv nr o = .ok o := by
    unfold selectArg
    cases harg : argv[nr]? with
    | none => rfl
    | some s =>
      rw [harg, Option.all_some, decide_eq_true_eq] at hnr
      subst hnr
      exact hblank (List.mem_of_getElem? harg) o
  rwa [hnothing] at h

/-- Where the ioctl fails, the second argument comes first, and behind it one that is empty or not there. -/
theorem selects_hwaddrQuery (h : Found form id (systemFhHwaddrQuery l) (oncePlan l)) : Selects form id (choice (hasHwaddr l)) := by
  intro call call' n argv o hblank
  rw [h.1, h.2]
  unfold systemFhHwaddrQuery oncePlan hwaddrQueryPlan hasHwaddr foundPlan arphrdFindvalue
  cases l.hwaddr with
  | undefined => exact lockstep_selectArg argv 1 o
  | done hwaddr =>
    simp only [Ioctl.holds]
    cases (arphrdSymbols l.arphrd).find? fun arp => decide (arp.value = hwaddr.sa_family) with
    | none => exact .leave
    | some arp => exact lockstep_selectArg argv _ o
  | failed =>
    rw [← bind_pure (selectArg (fun s => call' ⟨true, s⟩) argv _ o)]
    apply (lockstep_selectArg argv 1 o).bind
    intro o
    simp only
    cases (arphrdSymbols l.arphrd).find? fun arp => decide (arp.value = l.sa_family) with
    | none => exact .leave
    | some arp =>
      simp only
      by_cases hnone : argv[if arp.print_hwaddr.isSome then 0 else 1]?.all (· = []) = true
      · rw [if_pos hnone]
        exact lockstep_blank hblank hnone o
      · rw [if_neg hnone]
        exact .leave

def systemNames : List Str :=
  ["linux", "hwaddr?", "hwaddr", "hwtype?", "hwtype", "txqlen?", "txqlen", "solaris", "hpux", "qnx"].map text

/-- A name that no system has. -/
theorem found_own (hid : id ∉ systemNames) (hhandler : (ownHandles form (handleNames form)).lookup id = some handler)
    (hplan : (ownPlans form (handleNames form)).lookup id = some plan) : Found form id handler plan := by
  have hnames : (∀ x ∈ systemFormatHandler form, x.1 ∈ systemNames) ∧ ∀ x ∈ systemPlans form, x.1 ∈ systemNames := by
    unfold systemFormatHandler systemPlans
    cases form.system <;> simp [systemNames]
  have hnone : (systemFormatHandler form).lookup id = none ∧ (systemPlans form).lookup id = none := by
    constructor
    · exact List.lookup_eq_none_iff.mpr fun x hx => bne_iff_ne.mpr fun h => hid (h ▸ hnames.1 x hx)
    · exact List.lookup_eq_none_iff.mpr fun x hx => bne_iff_ne.mpr fun h => hid (h ▸ hnames.2 x hx)
  have hne : id ≠ text "hwaddr?" := fun h => hid (h ▸ by simp [systemNames])
  constructor
  · funext print n argv o
    rw [formatHandler, formatHandles, List.lookup_append, hnone.1, Option.none_or, hhandler]
  · have hstrict : strictPlan form id = Ifconfig.plan form id := by
      unfold strictPlan
      cases form.system <;> simp [hne]
    rw [hstrict, Ifconfig.plan, plans, List.lookup_append, hnone.2, Option.none_or, hplan]
    rfl

theorem found_linux (hform : form.system = .linux l) :
    Found form (text "hwaddr?") (systemFhHwaddrQuery l) (oncePlan l) ∧
    Found form (text "hwtype?") (systemFhHwtypeQuery l) (queryPlan (l.hwaddr.holds fun _ => true)) ∧
    Found form (text "txqlen?") (systemFhTxqlenQuery l) (queryPlan (l.qlen.holds fun qlen => 0 ≤ qlen.toInt)) := by
  unfold Found formatHandler formatHandles systemFormatHandler strictPlan Ifconfig.plan plans systemPlans
  rw [hform]
  exact ⟨⟨rfl, rfl⟩, ⟨rfl, rfl⟩, rfl, rfl⟩

/-- Each conditional is the argument that it is to select. -/
theorem selects_conditions (form : FormatData) : ∀ x ∈ conditions form, Selects form x.1 x.2 := by
  unfold conditions
  rw [List.forall_mem_append]
  constructor
  · cases hform : form.system with
    | linux l =>
      obtain ⟨hhwaddr, hhwtype, htxqlen⟩ := found_linux hform
      simp only [List.forall_mem_cons]
      exact ⟨selects_hwaddrQuery hhwaddr, selects_query hhwtype, selects_query htxqlen, nofun⟩
    | _ => exact nofun
  · have hyes : ∀ {id : Str} {yes : Bool}, id ∉ systemNames → (ownHandles form (handleNames form)).lookup id = some (query yes) →
        (ownPlans form (handleNames form)).lookup id = some (queryPlan yes) → Selects form id (choice yes) :=
      fun hid hhandler hplan => selects_query (found_own hid hhandler hplan)
    simp only [List.forall_mem_cons]
    exact ⟨hyes (by decide +kernel) rfl rfl, selects_exists (found_own (by decide +kernel) rfl rfl),
      hyes (by decide +kernel) rfl rfl, hyes (by decide +kernel) rfl rfl, hyes (by decide +kernel) rfl rfl,
      selects_flagged (found_own (by decide +kernel) rfl rfl), selects_flagged (found_own (by decide +kernel) rfl rfl),
      hyes (by decide +kernel) rfl rfl, hyes (by decide +kernel) rfl rfl, hyes (by decide +kernel) rfl rfl, nofun⟩

/-- A handler goes along with what its name means. -/
theorem lockstep_meaning (form : FormatData) (id : Str) (n : Nat) {argv : List Str} (o : Out) (hblank : Blank call' argv) :
    Lockstep call call' Stop.Exits (strictPlan form id argv) (formatHandler form id (fun s => call ⟨true, s⟩) n argv o)
      (meaning form id (fun s => call' ⟨true, s⟩) argv o) := by
  unfold meaning
  cases hlookup : (conditions form).lookup id with
  | some sel =>
    obtain ⟨before, behind, hsplit, -⟩ := List.lookup_eq_some_iff.mp hlookup
    have hmem : (id, sel) ∈ conditions form := by simp [hsplit]
    exact selects_conditions form _ hmem call call' n argv o hblank
  | none =>
    have hstrict : strictPlan form id = Ifconfig.plan form id := by
      unfold strictPlan
      cases hform : form.system with
      | linux l =>
        have hne : id ≠ text "hwaddr?" := by
          rintro rfl
          rw [conditions, hform] at hlookup
          cases hlookup
        simp [hne]
      | _ => rfl
    rw [hstrict]
    exact parallel_formatHandler form id call call' n argv o

/-! ## Templates -/

theorem within_strictPlan (form : FormatData) (id : Str) : Within (strictPlan form id) := by
  unfold strictPlan
  cases form.system with
  | linux l =>
    simp only
    split
    · intro argv c h
      unfold oncePlan at h
      split at h
      · rcases List.mem_append.mp h with h | h
        · exact .inl (mem_pick h)
        · obtain ⟨arp, h⟩ := mem_found h
          simp only at h
          by_cases hnone : argv[if arp.print_hwaddr.isSome then 0 else 1]?.all (· = []) = true
          · rw [if_pos hnone] at h
            exact .inl (mem_pick h)
          · rw [if_neg hnone] at h
            cases List.mem_singleton.mp h
      · exact within_hwaddrQuery argv c h
    · exact within_plan form id
  | _ => exact within_plan form id

theorem lookup_denoteArgs (form : FormatData) (fmt : Print) (args : List Template) (s : Str) :
    (∃ a ∈ args, a.spell = s ∧ (denoteArgs form fmt args).lookup s = some (denote form fmt a)) ∨
    (s ∉ args.map Template.spell ∧ (denoteArgs form fmt args).lookup s = none) := by
  induction args with
  | nil => exact .inr ⟨List.not_mem_nil, rfl⟩
  | cons a as ih =>
    by_cases hs : s = a.spell
    · subst hs
      exact .inl ⟨a, List.mem_cons_self, rfl, by rw [denoteArgs, List.lookup_cons_self]⟩
    · rw [denoteArgs, List.lookup_cons, beq_eq_false_iff_ne.mpr hs]
      rcases ih with ⟨b, hb, hspell, hlookup⟩ | ⟨hnone, hlookup⟩
      · exact .inl ⟨b, List.mem_cons_of_mem a hb, hspell, hlookup⟩
      · refine .inr ⟨?_, hlookup⟩
        rw [List.map_cons, List.mem_cons, not_or]
        exact ⟨hs, hnone⟩

/-- As far as its agenda can be done, print_interfaceX puts what the template means, with formats
    down to so many levels. -/
def Meant (form : FormatData) (k : Nat) (nested : Bool) (t : Template) : Prop :=
  level t.spell ≤ k → ∀ n o js, Safe (strictStep form) (.task ⟨nested, t.spell⟩ :: js) →
    Agrees Stop.Exits (Safe (strictStep form) js) (interpret form n ⟨nested, t.spell⟩ o) (denote form (formatMeaning form k) t o)

variable {args : List Template} {k : Nat} {nested : Bool}

/-- The texts that a handler goes on with: its arguments, and formats of a lower level. -/
theorem agrees_among (hargs : ∀ a ∈ args, ∀ nested, Meant form k nested a) (hlevel : ∀ a ∈ args, level a.spell ≤ k)
    (hformats : ∀ frm ∈ formats, frm.name ∈ args.map Template.spell → level frm.templ < k)
    (hlower : ∀ j < k, ∀ t nested, t.wellFormed nested = true → Meant form j nested t) {c : Text}
    (hc : c.p ∈ args.map Template.spell ∨ ∃ frm ∈ formats, frm.name ∈ args.map Template.spell ∧ c.p = frm.templ)
    (n : Nat) (o : Out) (js : Todo) (hsafe : Safe (strictStep form) (.task c :: js)) :
    Agrees Stop.Exits (Safe (strictStep form) js) (interpret form n c o)
      (among (denoteArgs form (formatMeaning form k) args) (formatMeaning form k) c.p o) := by
  obtain ⟨nested, p⟩ := c
  rcases lookup_denoteArgs form (formatMeaning form k) args p with
    ⟨a, ha, rfl, hlookup⟩ | ⟨hnone, hlookup⟩
  · rw [among, hlookup]
    exact hargs a ha nested (hlevel a ha) n o js hsafe
  · obtain ⟨frm, hfrm, hname, rfl⟩ := hc.resolve_left hnone
    have hlt := hformats frm hfrm hname
    obtain ⟨j, rfl⟩ := Nat.exists_eq_add_one_of_ne_zero (Nat.ne_zero_of_lt hlt)
    obtain ⟨t, ht, hspell, hwell⟩ := formats_wellFormed frm hfrm
    rw [among, hlookup]
    simp only [formatMeaning, ht]
    rw [← hspell] at hsafe hlt ⊢
    exact hlower j (Nat.lt_succ_self j) t nested (wellFormed_of_nested hwell nested) (Nat.le_of_lt_succ hlt) n o js hsafe

theorem blank_among (form : FormatData) (fmt : Print) (args : List Template) :
    Blank (fun c => among (denoteArgs form fmt args) fmt c.p) (args.map Template.spell) := by
  intro hmem o
  rcases lookup_denoteArgs form fmt args [] with ⟨a, -, hspell, hlookup⟩ | ⟨hnone, -⟩
  · obtain rfl := spell_eq_nil hspell
    show among _ fmt [] o = _
    rw [among, hlookup]
    rfl
  · exact absurd hmem hnone

theorem meant_subst (hwell : (Template.subst id args t).wellFormed nested = true)
    (hargs : ∀ a ∈ args, ∀ nested, Meant form k nested a) (ht : Meant form k nested t)
    (hlower : ∀ j < k, ∀ t nested, t.wellFormed nested = true → Meant form j nested t) : Meant form k nested (.subst id args t) := by
  intro hle n o js hsafe
  obtain ⟨hid, hwellargs, hhead, -⟩ := wellFormed_subst.mp hwell
  cases n with
  | zero => exact False.elim
  | succ n =>
    have hspell : (Template.subst id args t).spell = DOLLAR :: OPEN :: (id ++ CLOSE :: (spellArgs args ++ t.spell)) := by
      rw [Template.spell]
    rw [hspell] at hle hsafe ⊢
    have hturn := turn_subst_spelled nested hid (spellArgs args ++ t.spell)
    have hbehind := (turn_subst hturn).suffix
    have hscan := upto_spellArgs (printX form n true true)
      (fun a ha => upto_spell form (hwellargs a ha) n) hhead (some (((spellArgs args ++ t.spell).length + 1) / 2)) n [] o
    have htaken := upto_args form (some (((spellArgs args ++ t.spell).length + 1) / 2)) n (spellArgs args ++ t.spell) o
    rw [interpret, printX, hturn]
    show Agrees _ _ (Prod.snd <$> (argsLoop (printX form n true true) (some (((spellArgs args ++ t.spell).length + 1) / 2)) n []
      (spellArgs args ++ t.spell) o >>= _)) _
    cases hrun : argsLoop (printX form n true true) (some (((spellArgs args ++ t.spell).length + 1) / 2)) n []
      (spellArgs args ++ t.spell) o with
    | error e =>
      rw [hrun] at hscan
      exact fun h => absurd h hscan
    | ok x =>
      rw [hrun] at hscan htaken
      obtain rfl : x = ([] ++ args.map Template.spell, t.spell, o) := hscan
      obtain ⟨htaken, hfits⟩ := htaken
      rw [List.nil_append] at htaken hfits ⊢
      have hstep : strictStep form ⟨nested, DOLLAR :: OPEN :: (id ++ CLOSE :: (spellArgs args ++ t.spell))⟩ =
          strictPlan form id (args.map Template.spell) ++ [.task ⟨nested, t.spell⟩] := by
        rw [strictStep, stepOf, hturn]
        simp only [htaken, if_pos (fits_some.mp hfits)]
      rw [safe_task, hstep, List.append_assoc, List.singleton_append] at hsafe
      have hlevel : ∀ a ∈ args, level a.spell ≤ k := by
        intro a ha
        have harg := mem_args htaken (List.mem_map_of_mem ha)
        exact Nat.le_trans (level_argument (harg.of_suffix hbehind)) hle
      have hformats : ∀ frm ∈ formats, frm.name ∈ args.map Template.spell → level frm.templ < k := by
        intro frm hfrm hname
        have harg := mem_args htaken hname
        exact Nat.lt_of_lt_of_le (level_templ hfrm (harg.of_suffix hbehind)) hle
      have hmap : ∀ x : Except Stop Out, Prod.snd <$> (x >>= fun o => printX form n nested false t.spell o) =
          x >>= interpret form n ⟨nested, t.spell⟩ := fun x => by cases x <;> rfl
      show Agrees _ _ (Prod.snd <$> (formatHandler form id (fun s => interpret form n ⟨true, s⟩) n (args.map Template.spell) o >>=
        fun o => printX form n nested false t.spell o)) _
      rw [hmap, denote]
      apply Agrees.bind (P := Safe (strictStep form) (.task ⟨nested, t.spell⟩ :: js))
      · refine (lockstep_meaning form id n o (blank_among form (formatMeaning form k) args)).agrees ?_ hsafe
        intro c hc o js
        exact agrees_among hargs hlevel hformats hlower (within_strictPlan form id _ c hc) n o js
      · exact fun hrest o => ht (Nat.le_trans (level_of_suffix ((args_suffix htaken).trans hbehind)) hle) n o js hrest

/-- By the levels of the formats that the text names, and in each along the template. -/
theorem meant (form : FormatData) (k : Nat) (t : Template) (nested : Bool) (hwell : t.wellFormed nested = true) :
    Meant form k nested t := by
  induction k using Nat.strong_induction_on generalizing t nested with
  | _ k hlower =>
    induction t generalizing nested with
    | nil =>
      intro _ n o js hsafe
      cases n with
      | zero => exact False.elim
      | succ n => exact ⟨rfl, safe_task.mp hsafe⟩
    | char c t ih =>
      intro hle n o js hsafe
      rw [Template.wellFormed, Bool.and_eq_true, Bool.not_eq_true'] at hwell
      rw [Template.spell] at hle hsafe ⊢
      have hstep : strictStep form ⟨nested, c :: t.spell⟩ = strictStep form ⟨nested, t.spell⟩ := by
        rw [strictStep, stepOf, turn_char hwell.1]
        rfl
      rw [safe_task, hstep, ← safe_task] at hsafe
      rw [interpret, printX_char hwell.1, denote]
      exact ih nested hwell.2 (Nat.le_trans (level_of_suffix (List.suffix_cons c _)) hle) n _ js hsafe
    | dollar t ih =>
      intro hle n o js hsafe
      rw [Template.spell] at hle hsafe ⊢
      cases n with
      | zero => exact False.elim
      | succ n =>
        have hbehind := (turn_put (turn_dollar nested t.spell)).suffix
        exact ih nested hwell (Nat.le_trans (level_of_suffix hbehind) hle) n _ js (safe_task.mp hsafe)
    | close t ih =>
      intro hle n o js hsafe
      rw [Template.spell] at hle hsafe ⊢
      cases n with
      | zero => exact False.elim
      | succ n =>
        have hbehind := (turn_put (turn_close nested t.spell)).suffix
        exact ih nested hwell (Nat.le_trans (level_of_suffix hbehind) hle) n _ js (safe_task.mp hsafe)
    | subst id args t iha ih =>
      obtain ⟨-, hwellargs, -, hwelltail⟩ := wellFormed_subst.mp hwell
      have hargs : ∀ a ∈ args, ∀ nested, Meant form k nested a :=
        fun a ha nested => iha a ha nested (wellFormed_of_nested (hwellargs a ha) nested)
      exact meant_subst hwell hargs (ih nested hwelltail) fun j hj t nested => hlower j hj t nested

theorem level_le_length (p : Str) : level p ≤ formats.length := by
  apply level_le
  intro frm _ _
  exact (List.dropWhile_sublist _).length_le

/-! ## The interpreter -/

/-- In enough turns, and without a fault, it puts what the template means. -/
def Puts (form : FormatData) (t : Template) (o : Out) : Prop :=
  ∃ n, Upto Stop.Exits (fun _ => True) (printInterface form n t.spell o) ∧ printInterface form n t.spell o = denotation form t o

theorem puts_iff (form : FormatData) (t : { t : Template // t.wellFormed false = true }) (o : Out) :
    (Safe (strictStep form) [.task ⟨false, t.1.spell⟩] → Puts form t.1 o) ∧
    (hwaddrFails form = false → Puts form t.1 o → Safe (strictStep form) [.task ⟨false, t.1.spell⟩]) := by
  obtain ⟨t, hwell⟩ := t
  have hruns := (follows form).upto_iff_ends ⟨false, t.spell⟩ o
  constructor
  · intro hsafe
    have hends : Ends (step form) [.task ⟨false, t.spell⟩] :=
      ends_of_safe shorter_wf step_shorter (hsafe.of_earlier (strictStep_earlier form) (.inl rfl))
    obtain ⟨n, hn⟩ := hruns.mpr hends
    have hmeant := meant form formats.length t false hwell (level_le_length _) n o [] hsafe
    refine ⟨n, hn, ?_⟩
    show interpret form n ⟨false, t.spell⟩ o = denotation form t o
    cases hrun : interpret form n ⟨false, t.spell⟩ o with
    | ok o' =>
      rw [hrun] at hmeant
      exact hmeant.1.symm
    | error e =>
      rw [hrun] at hn hmeant
      exact (hmeant hn).symm
  · rintro hsupported ⟨n, hn, -⟩
    rw [strictStep_eq hsupported]
    exact (hruns.mp ⟨n, hn⟩).safe

/-- `${name}` and `${newline}` are their values. -/
theorem denote_value (form : FormatData) (fmt : Print) (args : List Template) (t : Template) (o : Out) :
    denote form fmt (.subst (text "name") args t) o = denote form fmt t (putString form.name o) ∧
    denote form fmt (.subst (text "newline") args t) o = denote form fmt t (putChar 0x0a o) := by
  have hmeaning : ∀ {id handler}, (conditions form).lookup id = none → (formatHandles form).lookup id = some handler →
      ∀ print argv, meaning form id print argv o = handler print (2 ^ 32) argv o := by
    intro id handler hcondition hhandler print argv
    rw [meaning, hcondition, formatHandler, hhandler]
  have hname : (conditions form).lookup (text "name") = none ∧ (formatHandles form).lookup (text "name") = some (fhName form) := by
    unfold conditions formatHandles systemFormatHandler
    cases form.system <;> exact ⟨rfl, rfl⟩
  have hnewline : (conditions form).lookup (text "newline") = none ∧ (formatHandles form).lookup (text "newline") = some fhNewline := by
    unfold conditions formatHandles systemFormatHandler
    cases form.system <;> exact ⟨rfl, rfl⟩
  rw [denote, denote, hmeaning hname.1 hname.2, hmeaning hnewline.1 hnewline.2]
  exact ⟨rfl, rfl⟩

/-! ## Where it does not -/

def literal (s : Str) : Template := s.foldr .char .nil

/-- An argument for which argv has two bytes. -/
def firstOnly : Template := .subst (text "first?") [literal (text "a")] .nil

def twoWays : Template := .subst (text "hwaddr?") [literal (text "has a hardware address"), literal (text "has none")] .nil

/-- SIOCGIFHWADDR fails, and its ifreq says Ethernet. -/
def unreachable : FormatData :=
  { loopback with
    system := .linux
      { arphrd := fun name => if name = "ETHER" then some 1 else none
        hwaddr := .failed
        sa_family := 1
        qlen := .failed
        short := fun low high => high.toBitVec ++ low.toBitVec } }

/-- The pointer to the argument does not fit; and the first argument is put behind the second. -/
theorem puts_something_else :
    (firstOnly.wellFormed false = true ∧ denotation loopback firstOnly {} = .ok (putChar 0x61 {}) ∧ ¬ Puts loopback firstOnly {}) ∧
    twoWays.wellFormed false = true ∧ denotation unreachable twoWays {} = .ok (putString (text "has none") {}) ∧
    printInterface unreachable 40 twoWays.spell {} = .ok (putString (text "has nonehas a hardware address") {}) := by
  refine ⟨⟨by decide +kernel, by decide +kernel, ?_⟩, by decide +kernel, by decide +kernel, by decide +kernel⟩
  rintro ⟨n, hn, -⟩
  rcases n with _ | _ | n
  · exact hn
  · exact hn
  · exact hn

end Netutils.Ifconfig
