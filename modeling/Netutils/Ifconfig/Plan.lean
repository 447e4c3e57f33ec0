/-
  Netutils.Ifconfig.Plan — what each format handler goes on with: the texts that it has
  interpreted, in their order, and whether it ends the program or leaves its memory (`acts_table`).

  A plan looks at the arguments and at the data of the interface only, not at what has been put.
-/

import Mathlib.Data.List.Forall2
import Mathlib.Data.List.TakeWhile
import Netutils.Ifconfig.Scan
import Netutils.Lib.Agenda

namespace Netutils.Ifconfig

open Netutils.Lib Netutils.Lib.Agenda Netutils.Lib.Faults Netutils.Libc

/-! ## Plans -/

/-- A text for print_interfaceX, at a depth of more than one if nested. -/
structure Text where
  nested : Bool
  p : Str
  deriving DecidableEq

abbrev Todo := List (Item Text)

abbrev Plan := List Str → Todo

/-- For the arguments of a handler. -/
def inner (s : Str) : Item Text := .task ⟨true, s⟩

/-- select_arg -/
def pick (argv : List Str) (nr : Nat) : Todo := argv[nr]?.toList.map inner

/-- Nothing, where this holds. -/
def must (ok : Prop) [Decidable ok] : Todo := if ok then [] else [.leave]

def queryPlan (yes : Bool) : Plan := fun argv => pick argv (if yes then 0 else 1)

def valuePlan {α : Type} (d : Ioctl α) (put : α → Plan) : Plan := fun argv =>
  match d with
  | .undefined => []
  | .failed => [.quit]
  | .done a => put a argv

/-- The number format does not end behind its digits and `#`. -/
def intPlan : Plan := fun argv => must (∀ p ∈ argv.head?, intFormat p ≠ none)

def addrPlan : Plan := fun argv =>
  match argv with
  | [] => []
  | arg :: rest => if 0 ≤ strtol arg ∧ strtol arg ≤ 3 then intPlan rest else []

/-- Each flag has an entry in if_flags. -/
def Named (form : FormatData) (flags : BitVec 16) : Prop :=
  ∀ k < 16, flags.getLsbD k = true → ∃ e ∈ ifFlags form.iff, e.mask = (BitVec.twoPow 16 k).signExtend 32

instance (form : FormatData) (flags : BitVec 16) : Decidable (Named form flags) :=
  inferInstanceAs (Decidable (∀ k < 16, _ → _))

def INT_MAX : Int := 2 ^ 31 - 1

variable (form : FormatData)

/-- The goal is a column. -/
def tabPlan : Plan := fun argv => must (∀ arg ∈ argv.head?, strtol arg ≤ INT_MAX)

def joinPlan : Plan := fun argv => if argv.length < 2 then [] else argv.tail.map inner

def existsPlan (names : List Str) : Plan := fun argv =>
  match argv with
  | [] => []
  | arg :: _ => pick argv (if arg ∈ names then 1 else 2)

def formatPlan : Plan := fun argv =>
  argv.flatMap fun arg => (formats.find? fun frm => decide (arg = frm.name)).toList.map fun frm => inner frm.templ

def indexPlan : Plan := fun _ => if form.index = 0 then [.quit] else []

def flaggedPlan (flag : String) (d : Ioctl Addr) : Plan := fun argv =>
  match d with
  | .undefined => pick argv 1
  | _ =>
    match form.flags with
    | .undefined => queryPlan (d.holds fun _ => true) argv
    | flags =>
      match ifNametoflag form.iff (text flag) with
      | .error _ => [.leave]
      | .ok f =>
        if flags.holds fun flags => f &&& flags.signExtend 32 ≠ 0 then queryPlan (d.holds fun _ => true) argv
        else pick argv 1

def flagsPlan (flags : BitVec 16) : Plan := fun argv =>
  match argv with
  | [] => must (Named form flags)
  | arg :: rest =>
    if arg = text "number" then intPlan rest else if arg = text "string" then must (Named form flags) else []

def foundPlan (l : Linux) (family : BitVec 16) (found : ArphrdSymbol → Todo) : Todo :=
  match arphrdFindvalue l family with
  | .error _ => [.leave]
  | .ok arp => found arp

def hwaddrQueryPlan (l : Linux) : Plan := fun argv =>
  let found family := foundPlan l family fun arp => pick argv (if arp.print_hwaddr.isSome then 0 else 1)
  match l.hwaddr with
  | .undefined => pick argv 1
  | .failed => pick argv 1 ++ found l.sa_family
  | .done hwaddr => found hwaddr.sa_family

def hwaddrPlan (l : Linux) : Plan := valuePlan l.hwaddr fun hwaddr _ => foundPlan l hwaddr.sa_family fun _ => []

def systemPlans : List (Str × Plan) :=
  match form.system with
  | .linux l =>
    [(text "linux", fun _ => []), (text "hwaddr?", hwaddrQueryPlan l), (text "hwaddr", hwaddrPlan l),
     (text "hwtype?", queryPlan (l.hwaddr.holds fun _ => true)), (text "hwtype", hwaddrPlan l),
     (text "txqlen?", queryPlan (l.qlen.holds fun qlen => 0 ≤ qlen.toInt)), (text "txqlen", valuePlan l.qlen fun _ => intPlan)]
  | .solaris => [(text "solaris", fun _ => [])]
  | .hpux => [(text "hpux", fun _ => [])]
  | .qnx => [(text "qnx", fun _ => [])]
  | .generic => []

def ownPlans (names : List Str) : List (Str × Plan) :=
  [(text "", fun _ => []), (text "newline", fun _ => []), (text "\\n", fun _ => []), (text "\\t", fun _ => []),
   (text "first?", queryPlan form.first), (text "tab", tabPlan), (text "join", joinPlan), (text "exists?", existsPlan names),
   (text "format", formatPlan), (text "error", fun argv => argv.map inner), (text "progname", fun _ => []),
   (text "exit", fun _ => [.quit]),
   (text "name", fun _ => []), (text "index?", queryPlan (form.index ≠ 0)), (text "index", indexPlan form),
   (text "addr?", queryPlan (form.addr.holds fun _ => true)), (text "addr", valuePlan form.addr fun _ => addrPlan),
   (text "netmask?", queryPlan (form.netmask.holds fun _ => true)), (text "netmask", valuePlan form.netmask fun _ => addrPlan),
   (text "brdaddr?", flaggedPlan form "BROADCAST" form.brdaddr), (text "brdaddr", valuePlan form.brdaddr fun _ => addrPlan),
   (text "dstaddr?", flaggedPlan form "POINTOPOINT" form.dstaddr), (text "dstaddr", valuePlan form.dstaddr fun _ => addrPlan),
   (text "flags?", queryPlan (form.flags.holds fun _ => true)), (text "flags", valuePlan form.flags (flagsPlan form)),
   (text "mtu?", queryPlan (form.mtu.holds fun _ => true)), (text "mtu", valuePlan form.mtu fun _ => intPlan),
   (text "metric?", queryPlan (form.metric.holds fun metric => 0 < metric.toInt)), (text "metric", valuePlan form.metric fun _ => intPlan)]

def plans : List (Str × Plan) := systemPlans form ++ ownPlans form (handleNames form)

/-- What format_handler goes on with; it has nothing to do for a name it does not know. -/
def plan (id : Str) : Plan := ((plans form).lookup id).getD fun _ => []

/-! ## What the handlers do -/

variable {form} {call : Text → Out → Except Stop Out} {tired : Prop} {argv : List Str} {o : Out} {goal : Int} {n : Nat}

/-- The handler goes on with the items of its plan; in less than 2 ^ 32 turns fh_tab may not get
    through. -/
def Acts (handler : Handler) (plan : Plan) : Prop :=
  ∀ (call : Text → Out → Except Stop Out) (tired : Prop) (n : Nat), (n < 2 ^ 32 → tired) → ∀ argv o,
    Goes call Stop.Exits tired (plan argv) (handler (fun s => call ⟨true, s⟩) n argv o)

theorem goes_must {ok : Prop} [Decidable ok] {x : Except Stop Out} (hok : ok → ∃ o, x = .ok o)
    (hnot : ¬ ok → ∃ f, x = .error (.fault f)) : Goes call Stop.Exits tired (must ok) x := by
  unfold must
  split
  · rename_i h
    obtain ⟨o, rfl⟩ := hok h
    exact .done o
  · rename_i h
    obtain ⟨f, rfl⟩ := hnot h
    exact .leave id

theorem goes_selectArg (argv : List Str) (nr : Nat) (o : Out) :
    Goes call Stop.Exits tired (pick argv nr) (selectArg (fun s => call ⟨true, s⟩) argv nr o) := by
  unfold pick selectArg
  cases argv[nr]? with
  | none => exact .done o
  | some s => exact .last _ o

theorem goes_putInt (argv : List Str) (nr : Int) (o : Out) : Goes call Stop.Exits tired (intPlan argv) (putInt form argv nr o) := by
  cases argv with
  | nil => exact .done _
  | cons p rest =>
    apply goes_must
    · intro h
      obtain ⟨fmt, hfmt⟩ := Option.ne_none_iff_exists'.mp (h p rfl)
      exact ⟨_, by rw [putInt, hfmt]⟩
    · intro h
      have hfmt : intFormat p = none := by
        by_contra hne
        exact h fun q hq => Option.some.inj hq ▸ hne
      exact ⟨_, by rw [putInt, hfmt]⟩

theorem goes_putAddr (argv : List Str) (sa : Addr) (o : Out) : Goes call Stop.Exits tired (addrPlan argv) (putAddr form argv sa o) := by
  cases argv with
  | nil => exact .done _
  | cons arg rest =>
    simp only [addrPlan, putAddr]
    split
    · exact goes_putInt rest _ o
    · exact .done o

theorem acts_query (yes : Bool) : Acts (query yes) (queryPlan yes) := fun _ _ _ _ argv o => goes_selectArg argv _ o

theorem acts_value {α : Type} {request : String} {d : Ioctl α} {put : α → List Str → Out → Except Stop Out}
    {putPlan : α → Plan} (hput : ∀ (call : Text → Out → Except Stop Out) (tired : Prop) a argv o,
      Goes call Stop.Exits tired (putPlan a argv) (put a argv o)) :
    Acts (value form request d put) (valuePlan d putPlan) := by
  intro call tired n _ argv o
  cases d with
  | undefined => exact .done _
  | failed => exact .quit trivial
  | done a => exact hput call tired a argv o

theorem acts_done {f : List Str → Out → Out} : Acts (fun _ _ argv o => .ok (f argv o)) fun _ => [] :=
  fun _ _ _ _ _ _ => .done _

/-! ## fh_tab -/

theorem column_putChar (o : Out) : (putChar 0x20 o).column = o.column + 1 := by
  cases h : o.ostream <;> simp [putChar, Out.column, Out.setColumn, Out.putc, h]

theorem toInt_le_INT_MAX (x : BitVec 32) : x.toInt ≤ INT_MAX := by
  have h := BitVec.toInt_lt (x := x)
  unfold INT_MAX
  omega

theorem toInt_add_one {x : BitVec 32} (h : x.toInt < INT_MAX) : (x + 1).toInt = x.toInt + 1 := by
  have hle := BitVec.le_toInt (x := x)
  unfold INT_MAX at h
  rw [BitVec.toInt_add]
  apply Int.bmod_eq_of_le <;> simp <;> omega

/-- The column comes to the goal. -/
theorem tabLoop_ok (hgoal : goal ≤ INT_MAX) (hpos : 0 < n) (hn : goal - o.column.toInt < n) :
    ∃ o', tabLoop goal n o = .ok o' := by
  induction n generalizing o with
  | zero => omega
  | succ n ih =>
    rw [tabLoop]
    split
    · rename_i hlt
      have hcolumn := column_putChar o
      apply ih
      · omega
      · rw [hcolumn, toInt_add_one (by omega)]
        omega
    · exact ⟨o, rfl⟩

/-- No column is behind INT_MAX. -/
theorem tabLoop_turns (hgoal : INT_MAX < goal) (n : Nat) (o : Out) : tabLoop goal n o = .error (.fault .turns) := by
  induction n generalizing o with
  | zero => rfl
  | succ n ih =>
    have hle := toInt_le_INT_MAX o.column
    rw [tabLoop, if_pos (by omega)]
    exact ih _

theorem tabLoop_cases (goal : Int) (n : Nat) (o : Out) :
    (∃ o', tabLoop goal n o = .ok o') ∨ tabLoop goal n o = .error (.fault .turns) := by
  induction n generalizing o with
  | zero => exact .inr rfl
  | succ n ih =>
    rw [tabLoop]
    split
    · exact ih _
    · exact .inl ⟨o, rfl⟩

theorem goes_tabLoop (htired : n < 2 ^ 32 → tired) (goal : Int) (o : Out) :
    Goes call Stop.Exits tired (must (goal ≤ INT_MAX)) (tabLoop goal n o) := by
  unfold must
  split
  · rename_i hgoal
    by_cases hn : n < 2 ^ 32
    · rcases tabLoop_cases goal n o with ⟨o', h⟩ | h
      · rw [h]
        exact .done o'
      · rw [h]
        exact .tired (htired hn) id
    · have hle := BitVec.le_toInt (x := o.column)
      unfold INT_MAX at hgoal
      obtain ⟨o', h⟩ := tabLoop_ok (n := n) (o := o) hgoal (by omega) (by omega)
      rw [h]
      exact .done o'
  · rename_i hgoal
    rw [tabLoop_turns (by omega)]
    exact .leave id

theorem acts_tab : Acts fhTab tabPlan := by
  intro call tired n htired argv o
  have hgoal : (∀ arg ∈ argv.head?, strtol arg ≤ INT_MAX) ↔
      (if (argv.head?.map strtol).getD 0 ≤ 0 then o.nextTab.toInt else (argv.head?.map strtol).getD 0) ≤ INT_MAX := by
    have htab := toInt_le_INT_MAX o.nextTab
    cases argv with
    | nil => exact iff_of_true nofun htab
    | cons arg rest =>
      have hhead : (∀ a ∈ (arg :: rest).head?, strtol a ≤ INT_MAX) ↔ strtol arg ≤ INT_MAX :=
        ⟨fun h => h arg rfl, fun h a ha => Option.some.inj ha ▸ h⟩
      rw [hhead]
      show strtol arg ≤ INT_MAX ↔ (if strtol arg ≤ 0 then o.nextTab.toInt else strtol arg) ≤ INT_MAX
      by_cases hle : strtol arg ≤ 0
      · rw [if_pos hle]
        exact iff_of_true (by unfold INT_MAX; omega) htab
      · rw [if_neg hle]
  simp only [tabPlan, hgoal]
  exact goes_tabLoop htired _ o

/-! ## Handlers that go on with several texts -/

theorem goes_joinLoop (delimiter : Str) (rest : List Str) (saved : Bool) (o : Out) :
    Goes call Stop.Exits tired (rest.map inner) (joinLoop (fun s => call ⟨true, s⟩) delimiter rest saved o) := by
  induction rest generalizing saved o with
  | nil => exact .done _
  | cons arg rest ih =>
    rw [joinLoop]
    split
    · exact .task _ (ih true)
    · exact .task _ (ih saved)

theorem acts_join : Acts fhJoin joinPlan := by
  intro call tired n _ argv o
  match argv with
  | [] => exact .done o
  | [_] => exact .done o
  | delimiter :: arg :: rest => exact goes_joinLoop delimiter (arg :: rest) _ _

theorem acts_exists (names : List Str) : Acts (fhExistsQuery names) (existsPlan names) := by
  intro call tired n _ argv o
  cases argv with
  | nil => exact .done o
  | cons arg rest => exact goes_selectArg _ _ o

theorem acts_format : Acts fhFormat formatPlan := by
  intro call tired n _ argv o
  apply Goes.foldlM
  intro o arg
  cases formats.find? fun frm => decide (arg = frm.name) with
  | none => exact .done o
  | some frm => exact .last _ o

theorem acts_error : Acts fhError fun argv => argv.map inner := by
  intro call tired n _ argv o
  have hall : Goes call Stop.Exits tired (argv.map inner) (argv.foldlM (fun o arg => call ⟨true, arg⟩ o) { o with ostream := .stderr }) := by
    rw [List.map_eq_flatMap]
    exact Goes.foldlM (fun o arg => .last _ o) argv _
  have h : Goes call Stop.Exits tired (argv.map inner ++ []) (fhError (fun s => call ⟨true, s⟩) n argv o) :=
    hall.bind fun o' => .done _
  rwa [List.append_nil] at h

theorem acts_index : Acts (fhIndex form) (indexPlan form) := by
  intro call tired n _ argv o
  simp only [fhIndex, indexPlan]
  split
  · exact .quit trivial
  · exact .done _

theorem acts_exit : Acts fhExit fun _ => [.quit] := fun _ _ _ _ _ _ => .quit trivial

theorem acts_flagged (flag : String) (d : Ioctl Addr) : Acts (flaggedQuery form flag d) (flaggedPlan form flag d) := by
  intro call tired n _ argv o
  have htested : ∀ flags : Ioctl (BitVec 16), Goes call Stop.Exits tired
      (match ifNametoflag form.iff (text flag) with
        | .error _ => [.leave]
        | .ok f =>
          if flags.holds fun flags => f &&& flags.signExtend 32 ≠ 0 then queryPlan (d.holds fun _ => true) argv
          else pick argv 1)
      (match ifNametoflag form.iff (text flag) with
        | .error e => .error (.fault (.flags e))
        | .ok f =>
          if flags.holds fun flags => f &&& flags.signExtend 32 ≠ 0 then
            query (d.holds fun _ => true) (fun s => call ⟨true, s⟩) n argv o
          else selectArg (fun s => call ⟨true, s⟩) argv 1 o) := by
    intro flags
    cases ifNametoflag form.iff (text flag) with
    | error e => exact .leave id
    | ok f =>
      simp only
      split
      · exact goes_selectArg argv _ o
      · exact goes_selectArg argv 1 o
  unfold flaggedQuery flaggedPlan
  cases d with
  | undefined => exact goes_selectArg argv 1 o
  | failed =>
    cases hflags : form.flags with
    | undefined => exact goes_selectArg argv _ o
    | failed => exact htested .failed
    | done flags => exact htested (.done flags)
  | done a =>
    cases hflags : form.flags with
    | undefined => exact goes_selectArg argv _ o
    | failed => exact htested .failed
    | done flags => exact htested (.done flags)

/-! ## fh_flags -/

theorem strstr_nil {name : Str} (h : name ≠ []) : strstr [] name = none := by
  rw [strstr, List.find?_eq_none]
  intro i _
  rw [List.drop_nil, List.isPrefixOf_iff_prefix, List.prefix_nil]
  exact h

/-- With nothing to avoid, the first entry with the mask is taken. -/
theorem ifFlagtoname_nil (iff : Macros) (flag : BitVec 32) :
    ((∃ e ∈ ifFlags iff, e.mask = flag) → ∃ name, ifFlagtoname iff flag (some []) = .ok (some name)) ∧
    ((¬ ∃ e ∈ ifFlags iff, e.mask = flag) → ifFlagtoname iff flag (some []) = .error .if_flags) := by
  rw [ifFlagtoname, firstMatch_eq]
  constructor
  · intro h
    obtain ⟨e, he, hmask⟩ := h
    cases hrest : (ifFlags iff).dropWhile fun e => !decide (e.mask = flag) with
    | nil =>
      have hpass := List.dropWhile_eq_nil_iff.mp hrest e he
      rw [hmask, decide_eq_true rfl] at hpass
      cases hpass
    | cons fp rest =>
      have hmem : fp ∈ ifFlags iff := (List.dropWhile_sublist _).subset (hrest ▸ List.mem_cons_self)
      refine ⟨fp.name, ?_⟩
      show some <$> better [] (fp :: rest) = _
      rw [better, strstr_nil (plain_name hmem).1]
      rfl
  · intro h
    have hrest : (ifFlags iff).dropWhile (fun e => !decide (e.mask = flag)) = [] := by
      apply List.dropWhile_eq_nil_iff.mpr
      intro e he
      rw [decide_eq_false fun hmask => h ⟨e, he, hmask⟩]
      rfl
    rw [hrest]
    rfl

theorem getLsbD_clear (flags : BitVec 16) (i k : Nat) (hk : k < 16) :
    (flags &&& ~~~ BitVec.twoPow 16 i).getLsbD k = (flags.getLsbD k && !decide (i = k)) := by
  rw [BitVec.getLsbD_and, BitVec.getLsbD_not, BitVec.getLsbD_twoPow]
  by_cases hik : i = k
  · subst hik
    simp [hk]
  · simp [hk, hik]

theorem named_zero : Named form 0 := by
  intro k _ hset
  rw [BitVec.ofNat_eq_ofNat, BitVec.getLsbD_zero] at hset
  cases hset

/-- The flags that are left when one with an entry is taken away. -/
theorem named_clear {flags : BitVec 16} {i : Nat} (h : ∃ e ∈ ifFlags form.iff, e.mask = (BitVec.twoPow 16 i).signExtend 32) :
    Named form (flags &&& ~~~ BitVec.twoPow 16 i) ↔ Named form flags := by
  constructor
  · intro hnamed k hk hset
    by_cases hik : i = k
    · exact hik ▸ h
    · exact hnamed k hk (by rw [getLsbD_clear flags i k hk, hset, decide_eq_false hik]; rfl)
  · intro hnamed k hk hset
    rw [getLsbD_clear flags i k hk] at hset
    exact hnamed k hk (Bool.and_eq_true_iff.mp hset).1

/-- The loop takes away each flag that has an entry, and ends with the table at one that has none. -/
theorem putFlagsLoop_spec (argv : List Str) {n : Nat} (hn : n ≤ 16) {flags : BitVec 16}
    (hlow : ∀ k < 16 - n, flags.getLsbD k = false) (first : Bool) (o : Out) :
    (Named form flags → ∃ first' o', putFlagsLoop form argv n (BitVec.twoPow 16 (16 - n)) flags first o = .ok (0, first', o')) ∧
    (¬ Named form flags → ∃ f, putFlagsLoop form argv n (BitVec.twoPow 16 (16 - n)) flags first o = .error (.fault f)) := by
  induction n generalizing flags first o with
  | zero =>
    have hflags : flags = 0 := by
      apply BitVec.eq_of_getLsbD_eq
      intro k hk
      rw [hlow k hk, BitVec.ofNat_eq_ofNat, BitVec.getLsbD_zero]
    exact ⟨fun _ => ⟨first, o, by rw [putFlagsLoop, hflags]⟩, fun h => absurd (hflags ▸ named_zero) h⟩
  | succ n ih =>
    have hshift : BitVec.twoPow 16 (16 - (n + 1)) <<< 1 = BitVec.twoPow 16 (16 - n) := by
      rw [twoPow_succ, show 16 - (n + 1) + 1 = 16 - n by omega]
    rw [putFlagsLoop]
    by_cases hflags : flags = 0
    · rw [if_neg fun h => h.1 hflags]
      exact ⟨fun _ => ⟨first, o, by rw [hflags]⟩, fun h => absurd (hflags ▸ named_zero) h⟩
    · have hone : BitVec.twoPow 16 (16 - (n + 1)) ≠ 0 := twoPow_ne_zero (by omega)
      rw [if_pos ⟨hflags, hone⟩, BitVec.twoPow_and, hshift]
      -- the bits below the next one are gone
      have hnext : ∀ flags' : BitVec 16, flags'.getLsbD (16 - (n + 1)) = false →
          (∀ k < 16 - (n + 1), flags'.getLsbD k = false) → ∀ k < 16 - n, flags'.getLsbD k = false := by
        intro flags' hbit hlow k hk
        by_cases heq : k = 16 - (n + 1)
        · exact heq ▸ hbit
        · exact hlow k (by omega)
      by_cases hbit : flags.getLsbD (16 - (n + 1)) = true
      · rw [if_pos hbit, if_pos hone]
        by_cases hentry : ∃ e ∈ ifFlags form.iff, e.mask = (BitVec.twoPow 16 (16 - (n + 1))).signExtend 32
        · obtain ⟨name, hname⟩ := (ifFlagtoname_nil form.iff _).1 hentry
          rw [hname, ← named_clear hentry]
          apply ih (by omega)
          apply hnext
          · rw [getLsbD_clear _ _ _ (by omega), decide_eq_true rfl, Bool.not_true, Bool.and_false]
          · intro k hk
            rw [getLsbD_clear _ _ _ (by omega), hlow k hk, Bool.false_and]
        · rw [(ifFlagtoname_nil form.iff _).2 hentry]
          exact ⟨fun h => absurd (h _ (by omega) hbit) hentry, fun _ => ⟨_, rfl⟩⟩
      · rw [if_neg hbit, if_neg fun h => h rfl]
        exact ih (by omega) (hnext flags (Bool.eq_false_iff.mpr hbit) hlow) first o

theorem goes_putFlags (argv : List Str) (flags : BitVec 16) (o : Out) :
    Goes call Stop.Exits tired (must (Named form flags)) (putFlags form argv flags o) := by
  have hlow : ∀ k < 16 - 16, flags.getLsbD k = false := nofun
  have h := @putFlagsLoop_spec form argv 16 (Nat.le_refl 16) flags hlow true o
  apply goes_must
  · intro hnamed
    obtain ⟨first, o', h⟩ := h.1 hnamed
    refine ⟨o', ?_⟩
    show putFlagsLoop form argv 16 (BitVec.twoPow 16 (16 - 16)) flags true o >>= _ = _
    rw [h]
    rfl
  · intro hnot
    obtain ⟨f, h⟩ := h.2 hnot
    refine ⟨f, ?_⟩
    show putFlagsLoop form argv 16 (BitVec.twoPow 16 (16 - 16)) flags true o >>= _ = _
    rw [h]
    rfl

theorem acts_flags : Acts (fhFlags form) (valuePlan form.flags (flagsPlan form)) := by
  apply acts_value
  intro call tired flags argv o
  cases argv with
  | nil => exact goes_putFlags [] flags o
  | cons arg rest =>
    simp only [flagsPlan]
    by_cases hnumber : arg = text "number"
    · simp only [if_pos hnumber]
      exact goes_putInt rest _ o
    · by_cases hstring : arg = text "string"
      · simp only [if_neg hnumber, if_pos hstring]
        exact goes_putFlags rest flags o
      · simp only [if_neg hnumber, if_neg hstring]
        exact .done o

/-! ## The handlers of Linux -/

variable {l : Linux}

theorem goes_found {family : BitVec 16} {found : ArphrdSymbol → Todo} {f : ArphrdSymbol → Except Stop Out}
    (hfound : ∀ arp, Goes call Stop.Exits tired (found arp) (f arp)) :
    Goes call Stop.Exits tired (foundPlan l family found) (arphrdFindvalue l family >>= f) := by
  unfold foundPlan arphrdFindvalue
  cases (arphrdSymbols l.arphrd).find? fun arp => decide (arp.value = family) with
  | none => exact .leave id
  | some arp => exact hfound arp

theorem acts_hwaddrQuery : Acts (systemFhHwaddrQuery l) (hwaddrQueryPlan l) := by
  intro call tired n _ argv o
  unfold systemFhHwaddrQuery hwaddrQueryPlan
  cases l.hwaddr with
  | undefined => exact goes_selectArg argv 1 o
  | failed =>
    apply (goes_selectArg argv 1 o).bind
    intro o
    exact goes_found fun arp => goes_selectArg argv _ o
  | done hwaddr => exact goes_found fun arp => goes_selectArg argv _ o

theorem acts_hwaddr : Acts (systemFhHwaddr form l) (hwaddrPlan l) := by
  apply acts_value
  intro call tired hwaddr argv o
  apply goes_found
  intro arp
  cases arp.print_hwaddr with
  | none => exact .done _
  | some p => exact .done _

theorem acts_hwtype : Acts (systemFhHwtype form l) (hwaddrPlan l) := by
  apply acts_value
  intro call tired hwaddr argv o
  exact goes_found fun arp => .done _

/-! ## The texts of a plan -/

/-- They are arguments, or the templates of formats that arguments name. -/
def Within (plan : Plan) : Prop :=
  ∀ argv c, .task c ∈ plan argv → c.p ∈ argv ∨ ∃ frm ∈ formats, frm.name ∈ argv ∧ c.p = frm.templ

theorem not_mem_must {ok : Prop} [Decidable ok] {c : Text} : .task c ∉ must ok := by
  unfold must
  split <;> simp

theorem mem_pick {nr : Nat} {c : Text} (h : .task c ∈ pick argv nr) : c.p ∈ argv := by
  obtain ⟨s, hs, hc⟩ := List.mem_map.mp h
  obtain rfl := Item.task.inj hc
  exact List.mem_of_getElem? (Option.mem_toList.mp hs)

theorem within_nil : Within fun _ => [] := nofun

theorem within_quit : Within fun _ => [.quit] := fun _ _ h => nomatch List.mem_singleton.mp h

theorem within_must {ok : List Str → Prop} [∀ argv, Decidable (ok argv)] : Within fun argv => must (ok argv) :=
  fun _ _ h => absurd h not_mem_must

theorem within_query (yes : Bool) : Within (queryPlan yes) := fun _ _ h => .inl (mem_pick h)

theorem within_value {α : Type} {d : Ioctl α} {put : α → Plan} (hput : ∀ a, Within (put a)) : Within (valuePlan d put) := by
  intro argv c h
  cases d with
  | undefined => cases h
  | failed => cases List.mem_singleton.mp h
  | done a => exact hput a argv c h

theorem within_addr : Within addrPlan := by
  intro argv c h
  cases argv with
  | nil => cases h
  | cons arg rest =>
    simp only [addrPlan] at h
    split at h
    · exact absurd h not_mem_must
    · cases h

theorem within_map : Within fun argv => argv.map inner := by
  intro argv c h
  obtain ⟨s, hs, hc⟩ := List.mem_map.mp h
  obtain rfl := Item.task.inj hc
  exact .inl hs

theorem within_join : Within joinPlan := by
  intro argv c h
  unfold joinPlan at h
  split at h
  · cases h
  · obtain ⟨s, hs, hc⟩ := List.mem_map.mp h
    obtain rfl := Item.task.inj hc
    exact .inl (List.mem_of_mem_tail hs)

theorem within_exists (names : List Str) : Within (existsPlan names) := by
  intro argv c h
  cases argv with
  | nil => cases h
  | cons arg rest => exact .inl (mem_pick h)

theorem within_format : Within formatPlan := by
  intro argv c h
  obtain ⟨arg, harg, h⟩ := List.mem_flatMap.mp h
  obtain ⟨frm, hfrm, hc⟩ := List.mem_map.mp h
  rw [Option.mem_toList] at hfrm
  obtain rfl := Item.task.inj hc
  have hname := List.find?_some hfrm
  rw [decide_eq_true_eq] at hname
  exact .inr ⟨frm, List.mem_of_find?_eq_some hfrm, hname ▸ harg, rfl⟩

theorem within_index : Within (indexPlan form) := by
  intro argv c h
  unfold indexPlan at h
  split at h
  · cases List.mem_singleton.mp h
  · cases h

theorem within_flagged (flag : String) (d : Ioctl Addr) : Within (flaggedPlan form flag d) := by
  intro argv c h
  unfold flaggedPlan at h
  split at h
  · exact .inl (mem_pick h)
  · split at h
    · exact .inl (mem_pick h)
    · split at h
      · cases List.mem_singleton.mp h
      · split at h
        · exact .inl (mem_pick h)
        · exact .inl (mem_pick h)

theorem within_flags (flags : BitVec 16) : Within (flagsPlan form flags) := by
  intro argv c h
  cases argv with
  | nil => exact absurd h not_mem_must
  | cons arg rest =>
    simp only [flagsPlan] at h
    split at h
    · exact absurd h not_mem_must
    · split at h
      · exact absurd h not_mem_must
      · cases h

theorem mem_found {family : BitVec 16} {found : ArphrdSymbol → Todo} {c : Text} (h : .task c ∈ foundPlan l family found) :
    ∃ arp, .task c ∈ found arp := by
  unfold foundPlan at h
  split at h
  · cases List.mem_singleton.mp h
  · exact ⟨_, h⟩

theorem within_hwaddrQuery : Within (hwaddrQueryPlan l) := by
  intro argv c h
  have hfound : ∀ {family}, .task c ∈ foundPlan l family (fun arp => pick argv (if arp.print_hwaddr.isSome then 0 else 1)) →
      c.p ∈ argv := by
    intro family h
    obtain ⟨arp, h⟩ := mem_found h
    exact mem_pick h
  unfold hwaddrQueryPlan at h
  cases hl : l.hwaddr with
  | undefined =>
    rw [hl] at h
    exact .inl (mem_pick h)
  | failed =>
    rw [hl] at h
    rcases List.mem_append.mp h with h | h
    · exact .inl (mem_pick h)
    · exact .inl (hfound h)
  | done hwaddr =>
    rw [hl] at h
    exact .inl (hfound h)

theorem within_hwaddr : Within (hwaddrPlan l) := by
  apply within_value
  intro hwaddr argv c h
  obtain ⟨arp, h⟩ := mem_found h
  cases h

/-! ## The tables -/

/-- A handler and the plan of that name. -/
structure Row (x : Str × Handler) (y : Str × Plan) : Prop where
  name : x.1 = y.1
  acts : Acts x.2 y.2
  within : Within y.2

theorem row_done {name : Str} {f : List Str → Out → Out} :
    Row (name, fun _ _ argv o => .ok (f argv o)) (name, fun _ => []) := ⟨rfl, acts_done, within_nil⟩

theorem row_query {name : Str} {yes : Bool} : Row (name, query yes) (name, queryPlan yes) :=
  ⟨rfl, acts_query yes, within_query yes⟩

theorem row_addr {name : Str} {request : String} {d : Ioctl Addr} :
    Row (name, value form request d fun sa argv o => putAddr form argv sa o) (name, valuePlan d fun _ => addrPlan) :=
  ⟨rfl, acts_value fun _ _ sa argv o => goes_putAddr argv sa o, within_value fun _ => within_addr⟩

theorem row_int {name : Str} {request : String} {d : Ioctl (BitVec 32)} :
    Row (name, value form request d fun nr argv o => putInt form argv nr.toInt o) (name, valuePlan d fun _ => intPlan) :=
  ⟨rfl, acts_value fun _ _ nr argv o => goes_putInt argv nr.toInt o, within_value fun _ => within_must⟩

theorem row_flagged {name : Str} (flag : String) {d : Ioctl Addr} :
    Row (name, flaggedQuery form flag d) (name, flaggedPlan form flag d) :=
  ⟨rfl, acts_flagged flag d, within_flagged flag d⟩

theorem rows_system : List.Forall₂ Row (systemFormatHandler form) (systemPlans form) := by
  unfold systemFormatHandler systemPlans
  cases form.system with
  | linux l =>
    exact .cons row_done <| .cons ⟨rfl, acts_hwaddrQuery, within_hwaddrQuery⟩ <|
      .cons ⟨rfl, acts_hwaddr, within_hwaddr⟩ <| .cons row_query <| .cons ⟨rfl, acts_hwtype, within_hwaddr⟩ <|
      .cons row_query <| .cons row_int .nil
  | generic => exact .nil
  | solaris => exact .cons row_done .nil
  | hpux => exact .cons row_done .nil
  | qnx => exact .cons row_done .nil

theorem rows_own (names : List Str) : List.Forall₂ Row (ownHandles form names) (ownPlans form names) :=
  .cons row_done <| .cons row_done <| .cons row_done <| .cons row_done <| .cons row_query <|
  .cons ⟨rfl, acts_tab, within_must⟩ <| .cons ⟨rfl, acts_join, within_join⟩ <|
  .cons ⟨rfl, acts_exists names, within_exists names⟩ <| .cons ⟨rfl, acts_format, within_format⟩ <|
  .cons ⟨rfl, acts_error, within_map⟩ <| .cons row_done <| .cons ⟨rfl, acts_exit, within_quit⟩ <|
  .cons row_done <| .cons row_query <| .cons ⟨rfl, acts_index, within_index⟩ <|
  .cons row_query <| .cons row_addr <| .cons row_query <| .cons row_addr <|
  .cons (row_flagged "BROADCAST") <| .cons row_addr <| .cons (row_flagged "POINTOPOINT") <| .cons row_addr <|
  .cons row_query <| .cons ⟨rfl, acts_flags, within_value within_flags⟩ <| .cons row_query <| .cons row_int <|
  .cons row_query <| .cons row_int .nil

theorem rows (form : FormatData) : List.Forall₂ Row (formatHandles form) (plans form) :=
  List.rel_append rows_system (rows_own _)

/-- In two tables with the same names, what is found for a name stands in the same row. -/
theorem lookup_rows {R : Handler → Plan → Prop} {hs : List (Str × Handler)} {ps : List (Str × Plan)}
    (h : List.Forall₂ (fun x y => x.1 = y.1 ∧ R x.2 y.2) hs ps) (id : Str) :
    (hs.lookup id = none ∧ ps.lookup id = none) ∨
      ∃ handler plan, hs.lookup id = some handler ∧ ps.lookup id = some plan ∧ R handler plan := by
  induction h with
  | nil => exact .inl ⟨rfl, rfl⟩
  | @cons x y hs ps hrow _ ih =>
    obtain ⟨name, handler⟩ := x
    obtain ⟨name', plan⟩ := y
    obtain ⟨rfl, hR⟩ : name = name' ∧ R handler plan := hrow
    by_cases hid : id = name
    · subst hid
      rw [List.lookup_cons_self, List.lookup_cons_self]
      exact .inr ⟨handler, plan, rfl, rfl, hR⟩
    · rw [List.lookup_cons, List.lookup_cons, beq_eq_false_iff_ne.mpr hid]
      exact ih

theorem rows_acts (form : FormatData) : List.Forall₂ (fun x y => x.1 = y.1 ∧ Acts x.2 y.2) (formatHandles form) (plans form) :=
  (rows form).imp fun _ _ h => ⟨h.name, h.acts⟩

theorem rows_within (form : FormatData) : List.Forall₂ (fun x y => x.1 = y.1 ∧ Within y.2) (formatHandles form) (plans form) :=
  (rows form).imp fun _ _ h => ⟨h.name, h.within⟩

theorem acts_formatHandler (form : FormatData) (id : Str) : Acts (formatHandler form id) (plan form id) := by
  intro call tired n htired argv o
  unfold formatHandler plan
  rcases lookup_rows (rows_acts form) id with ⟨hh, hp⟩ | ⟨handler, p, hh, hp, hacts⟩
  · rw [hh, hp]
    exact .done _
  · rw [hh, hp]
    exact hacts call tired n htired argv o

theorem within_plan (form : FormatData) (id : Str) : Within (plan form id) := by
  unfold plan
  rcases lookup_rows (R := fun _ => Within) (rows_within form) id with ⟨-, hp⟩ | ⟨handler, p, -, hp, hwithin⟩
  · rw [hp]
    exact within_nil
  · rw [hp]
    exact hwithin

end Netutils.Ifconfig
