/-
  Netutils.Ifconfig.Growth — what has been put stays: every handler, and with it the
  interpreter, only adds to the two streams (`grows_printX`).
-/

import Netutils.Ifconfig.Scan

namespace Netutils.Ifconfig

open Netutils.Lib.Faults Netutils.Libc

/-- A later state of the output. -/
structure Grows (o o' : Out) : Prop where
  ostream : o'.ostream = o.ostream
  stdout : o.stdout <+: o'.stdout
  stderr : o.stderr <+: o'.stderr

/-- A computation that comes back, comes back later. -/
def Grown (o : Out) (x : Except Stop Out) : Prop := Upto (fun _ => True) (Grows o) x

def Grower (handler : Handler) : Prop :=
  ∀ print : Print, (∀ s o, Grown o (print s o)) → ∀ n argv o, Grown o (handler print n argv o)

/-! ## States -/

variable {form : FormatData} {print : Print} {o o' o'' : Out} {argv : List Str} {n : Nat} {x : Except Stop Out}

theorem Grows.refl (o : Out) : Grows o o := ⟨rfl, List.prefix_refl _, List.prefix_refl _⟩

theorem Grows.trans (h : Grows o o') (h' : Grows o' o'') : Grows o o'' :=
  ⟨h'.ostream.trans h.ostream, h.stdout.trans h'.stdout, h.stderr.trans h'.stderr⟩

/-- had_output may be cleared, or set. -/
theorem Grows.had {b : Bool} (h : Grows o o') : Grows o { o' with had_output := b } := ⟨h.ostream, h.stdout, h.stderr⟩

theorem grows_putChar (c : UInt8) (o : Out) : Grows o (putChar c o) := by
  cases h : o.ostream <;> constructor <;> simp [putChar, Out.setColumn, Out.putc, h]

theorem grows_putString (s : Str) (o : Out) : Grows o (putString s o) := by
  induction s generalizing o with
  | nil => exact .refl o
  | cons c s ih => exact (grows_putChar c o).trans (ih _)

theorem grows_printf (fmt : Str) (args : List Int) (o : Out) : Grows o (printf form fmt args o) := by
  cases h : o.ostream <;> constructor <;> simp [printf, Out.setColumn, h]

theorem Grown.ok (h : Grows o o') : Grown o (.ok o') := h

theorem Grown.error (e : Stop) : Grown o (.error e) := trivial

theorem Grown.bind {f : Out → Except Stop Out} (h : Grown o x) (hf : ∀ o, Grown o (f o)) : Grown o (x >>= f) := by
  rw [Grown, upto_bind]
  exact Upto.mono h fun o' hgrows => (hf o').mono fun _ => hgrows.trans

theorem Grown.foldlM {α : Type} {body : Out → α → Except Stop Out} (h : ∀ o a, Grown o (body o a)) (l : List α) (o : Out) :
    Grown o (l.foldlM body o) := by
  induction l generalizing o with
  | nil => exact Grown.ok (.refl o)
  | cons a l ih =>
    rw [List.foldlM_cons]
    exact (h o a).bind ih

/-! ## Helpers of the handlers -/

theorem grown_putInt (argv : List Str) (nr : Int) (o : Out) : Grown o (putInt form argv nr o) := by
  cases argv with
  | nil => exact Grown.ok (grows_printf _ _ o).had
  | cons p rest =>
    rw [putInt]
    cases intFormat p with
    | none => exact Grown.error _
    | some fmt => exact Grown.ok (grows_printf _ _ o).had

theorem grown_selectArg (hprint : ∀ s o, Grown o (print s o)) (argv : List Str) (nr : Nat) (o : Out) :
    Grown o (selectArg print argv nr o) := by
  unfold selectArg
  cases argv[nr]? with
  | none => exact Grown.ok (.refl o)
  | some s => exact hprint s o

theorem grown_putAddr (argv : List Str) (sa : Addr) (o : Out) : Grown o (putAddr form argv sa o) := by
  cases argv with
  | nil => exact Grown.ok (grows_putString _ o)
  | cons arg rest =>
    simp only [putAddr]
    split
    · exact grown_putInt rest _ o
    · exact Grown.ok (.refl o)

theorem grows_putSeperator (argv : List Str) (o : Out) : Grows o (putSeperator argv o) := by
  cases argv with
  | nil => exact grows_putChar _ o
  | cons arg rest => exact grows_putString arg o

/-- The separator that comes before all but the first. -/
theorem grows_separated (argv : List Str) (first : Bool) (o : Out) : Grows o (if first then o else putSeperator argv o) := by
  cases first with
  | true => exact .refl o
  | false => exact grows_putSeperator argv o

theorem grows_putFlagsLoop (argv : List Str) (n : Nat) (f flags : BitVec 16) (first : Bool) (o : Out) :
    Upto (fun _ => True) (fun r => Grows o r.2.2) (putFlagsLoop form argv n f flags first o) := by
  induction n generalizing f flags first o with
  | zero => exact Grows.refl o
  | succ n ih =>
    rw [putFlagsLoop]
    split
    · split
      · cases ifFlagtoname form.iff (f.signExtend 32) (some []) with
        | error e => trivial
        | ok name =>
          cases name with
          | none => exact ih ..
          | some name =>
            apply (ih ..).mono
            exact fun r => ((grows_separated argv first o).trans (grows_putString name _)).trans
      · exact ih ..
    · exact Grows.refl o

theorem grown_putFlags (argv : List Str) (flags : BitVec 16) (o : Out) :
    Grown o (putFlags form argv flags o) := by
  rw [putFlags, Grown, upto_bind]
  apply (grows_putFlagsLoop argv 16 1 flags true o).mono
  intro r hr
  obtain ⟨left, first, o'⟩ := r
  simp only
  split
  · exact (grown_putInt argv.tail _ _).mono fun _ => (hr.trans (grows_separated argv first o')).trans
  · exact hr

/-! ## Handlers -/

theorem grower_done {f : List Str → Out → Out} (hf : ∀ argv o, Grows o (f argv o)) : Grower fun _ _ argv o => .ok (f argv o) :=
  fun _ _ _ argv o => Grown.ok (hf argv o)

theorem grower_query (yes : Bool) : Grower (query yes) := fun _ hprint _ argv o => grown_selectArg hprint argv _ o

theorem grower_value {α : Type} {request : String} {d : Ioctl α} {put : α → List Str → Out → Except Stop Out}
    (hput : ∀ a argv o, Grown o (put a argv o)) : Grower (value form request d put) := by
  intro print _ n argv o
  cases d with
  | undefined => exact Grown.ok (grows_printf _ _ o).had
  | failed => exact Grown.error _
  | done a => exact hput a argv o

theorem grower_tab : Grower fhTab := by
  intro print _ n argv o
  have hloop : ∀ goal n o, Grown o (tabLoop goal n o) := by
    intro goal n
    induction n with
    | zero => exact fun o => Grown.error _
    | succ n ih =>
      intro o
      rw [tabLoop]
      split
      · exact (ih _).mono fun _ => (grows_putChar _ o).trans
      · exact Grown.ok (.refl o)
  exact hloop _ n o

theorem grower_format : Grower fhFormat := by
  intro print hprint n argv o
  apply Grown.foldlM
  intro o arg
  cases formats.find? fun frm => decide (arg = frm.name) with
  | none => exact Grown.ok (.refl o)
  | some frm => exact hprint frm.templ o

theorem grower_exists (names : List Str) : Grower (fhExistsQuery names) := by
  intro print hprint n argv o
  cases argv with
  | nil => exact Grown.ok (.refl o)
  | cons arg rest => exact grown_selectArg hprint _ _ o

/-- The stream is changed, and changed back. -/
theorem grower_error : Grower fhError := by
  intro print hprint n argv o
  have hall := Grown.foldlM (fun o arg => hprint arg o) argv { o with ostream := .stderr }
  rw [fhError, Grown, upto_bind]
  exact Upto.mono hall fun o' h => { h with ostream := rfl }

theorem grown_joinLoop (hprint : ∀ s o, Grown o (print s o)) (delimiter : Str) (rest : List Str) {saved : Bool}
    (h : Grows o o') : Grown o (joinLoop print delimiter rest saved o') := by
  induction rest generalizing saved o' with
  | nil => exact h.had
  | cons arg rest ih =>
    rw [joinLoop]
    split
    · rw [Grown, upto_bind]
      apply Upto.mono (hprint arg _)
      intro o'' hlater
      exact ih ((h.trans (grows_putString delimiter o').had).trans hlater)
    · rw [Grown, upto_bind]
      exact Upto.mono (hprint arg o') fun o'' hlater => ih (h.trans hlater)

theorem grower_join : Grower fhJoin := by
  intro print hprint n argv o
  match argv with
  | [] => exact Grown.ok (.refl o)
  | [_] => exact Grown.ok (.refl o)
  | delimiter :: arg :: rest => exact grown_joinLoop hprint _ _ (Grows.refl o).had

theorem grower_flagged (flag : String) (d : Ioctl Addr) : Grower (flaggedQuery form flag d) := by
  intro print hprint n argv o
  have hselect := fun nr => grown_selectArg hprint argv nr o
  unfold flaggedQuery
  split
  · exact hselect 1
  · split
    · exact hselect _
    · split
      · exact Grown.error _
      · split
        · exact hselect _
        · exact hselect 1

theorem grower_flags : Grower (fhFlags form) := by
  apply grower_value
  intro flags argv o
  cases argv with
  | nil => exact grown_putFlags [] flags o
  | cons arg rest =>
    simp only
    split
    · exact grown_putInt rest _ o
    · split
      · exact grown_putFlags rest flags o
      · exact Grown.ok (.refl o)

theorem grower_index : Grower (fhIndex form) := by
  intro print _ n argv o
  rw [fhIndex]
  split
  · exact Grown.error _
  · exact Grown.ok (grows_printf _ _ o).had

variable {l : Linux}

theorem grows_print (p : PrintHwaddr) (data : Fin 14 → UInt8) (o : Out) : Grows o (p.print form l data o) := by
  cases p with
  | ax25 =>
    simp only [PrintHwaddr.print]
    split
    · exact (grows_putString _ o).trans (grows_printf ..)
    · exact grows_putString _ o
  | _ => exact grows_printf ..

theorem grown_found {family : BitVec 16} {f : ArphrdSymbol → Except Stop Out} (hf : ∀ arp, Grown o (f arp)) :
    Grown o (arphrdFindvalue l family >>= f) := by
  unfold arphrdFindvalue
  cases (arphrdSymbols l.arphrd).find? fun arp => decide (arp.value = family) with
  | none => exact Grown.error _
  | some arp => exact hf arp

theorem grower_hwaddrQuery : Grower (systemFhHwaddrQuery l) := by
  intro print hprint n argv o
  unfold systemFhHwaddrQuery
  cases l.hwaddr with
  | undefined => exact grown_selectArg hprint argv 1 o
  | failed =>
    apply (grown_selectArg hprint argv 1 o).bind
    exact fun o => grown_found fun arp => grown_selectArg hprint argv _ o
  | done hwaddr => exact grown_found fun arp => grown_selectArg hprint argv _ o

theorem grower_hwaddr : Grower (systemFhHwaddr form l) := by
  apply grower_value
  intro hwaddr argv o
  apply grown_found
  intro arp
  cases arp.print_hwaddr with
  | none => exact Grown.ok (grows_putString _ o)
  | some p => exact Grown.ok (grows_print p _ o)

theorem grower_hwtype : Grower (systemFhHwtype form l) := by
  apply grower_value
  intro hwaddr argv o
  exact grown_found fun arp => Grown.ok (grows_putString _ o)

/-! ## format_handles -/

theorem growers_system : ∀ h ∈ systemFormatHandler form, Grower h.2 := by
  have hdone : Grower fhNothing := grower_done fun _ => .refl
  have hint : ∀ {request : String} {d : Ioctl (BitVec 32)},
      Grower (value form request d fun nr argv o => putInt form argv nr.toInt o) :=
    grower_value fun nr argv o => grown_putInt argv nr.toInt o
  unfold systemFormatHandler
  cases form.system with
  | linux l =>
    simp only [List.forall_mem_cons]
    exact ⟨hdone, grower_hwaddrQuery, grower_hwaddr, grower_query _, grower_hwtype, grower_query _, hint, nofun⟩
  | generic => exact nofun
  | _ => exact List.forall_mem_singleton.mpr hdone

theorem growers_own (names : List Str) : ∀ h ∈ ownHandles form names, Grower h.2 := by
  have hdone : Grower fhNothing := grower_done fun _ => .refl
  have hput : ∀ s, Grower fun _ _ _ o => .ok (putString s o) := fun s => grower_done fun _ => grows_putString s
  have hchar : ∀ c, Grower fun _ _ _ o => .ok (putChar c o) := fun c => grower_done fun _ => grows_putChar c
  have haddr : ∀ {request : String} {d : Ioctl Addr}, Grower (value form request d fun sa argv o => putAddr form argv sa o) :=
    grower_value fun sa argv o => grown_putAddr argv sa o
  have hint : ∀ {request : String} {d : Ioctl (BitVec 32)},
      Grower (value form request d fun nr argv o => putInt form argv nr.toInt o) :=
    grower_value fun nr argv o => grown_putInt argv nr.toInt o
  have hexit : Grower fhExit := fun _ _ _ _ _ => Grown.error _
  simp only [ownHandles, List.forall_mem_cons]
  exact ⟨hdone, hchar _, hchar _, hchar _, grower_query _, grower_tab, grower_join, grower_exists names, grower_format,
    grower_error, hput _, hexit, hput _, grower_query _, grower_index, grower_query _, haddr, grower_query _, haddr,
    grower_flagged _ _, haddr, grower_flagged _ _, haddr, grower_query _, grower_flags, grower_query _, hint,
    grower_query _, hint, nofun⟩

theorem grower_formatHandler (id : Str) : Grower (formatHandler form id) := by
  intro print hprint n argv o
  rw [formatHandler]
  cases hlookup : (formatHandles form).lookup id with
  | none =>
    exact Grown.ok (((grows_printf ..).trans (grows_putString id _)).trans (grows_printf ..)).had
  | some handler =>
    obtain ⟨l, l', hsplit, -⟩ := List.lookup_eq_some_iff.mp hlookup
    have hmem : (id, handler) ∈ formatHandles form := by simp [hsplit]
    rcases List.mem_append.mp hmem with hmem | hmem
    · exact growers_system _ hmem print hprint n argv o
    · exact growers_own _ _ hmem print hprint n argv o

/-! ## The interpreter -/

theorem grows_echo (quiet : Bool) (s : Str) (o : Out) : Grows o (echo quiet s o) := by
  cases quiet with
  | true => exact .refl o
  | false => exact grows_putString s o

theorem grows_argsLoop {scan : Str → Out → Except Stop (Str × Out)}
    (hscan : ∀ p o, Upto (fun _ => True) (fun x => Grows o x.2) (scan p o)) (room : Option Nat) (n : Nat) (argv : List Str)
    (p : Str) (o : Out) : Upto (fun _ => True) (fun x => Grows o x.2.2) (argsLoop scan room n argv p o) := by
  induction n generalizing argv p o with
  | zero => trivial
  | succ n ih =>
    rw [argsLoop]
    split
    · rw [upto_bind]
      apply (hscan _ o).mono
      intro x hx
      obtain ⟨q, o'⟩ := x
      simp only
      split
      · trivial
      · exact (ih ..).mono fun _ => hx.trans
    · exact Grows.refl o

theorem grows_printX (n : Nat) (nested quiet : Bool) (p : Str) (o : Out) :
    Upto (fun _ => True) (fun x => Grows o x.2) (printX form n nested quiet p o) := by
  induction n generalizing nested quiet p o with
  | zero => trivial
  | succ n ih =>
    have hecho := grows_echo quiet (p.takeWhile fun c => !stops nested c) o
    rw [printX]
    simp only
    generalize echo quiet (p.takeWhile fun c => !stops nested c) o = o' at hecho
    cases turn nested p with
    | stop p => exact hecho
    | leave => trivial
    | put s p => exact (ih nested quiet p _).mono fun _ => (hecho.trans (grows_echo quiet s o')).trans
    | dump s => exact hecho.trans (grows_putString s o')
    | subst id p =>
      simp only
      have hargs := fun room => grows_argsLoop (ih true true) room n [] p o'
      split
      · rw [upto_bind]
        apply (hargs none).mono
        intro x hx
        exact (ih nested quiet _ _).mono fun _ => (hecho.trans hx).trans
      · rw [upto_bind]
        apply (hargs _).mono
        intro x hx
        have hprint : ∀ s o, Grown o (Prod.snd <$> printX form n true false s o) := by
          intro s o
          rw [Grown, upto_map]
          exact ih true false s o
        rw [upto_bind]
        apply Upto.mono (grower_formatHandler id _ hprint n x.1 x.2.2)
        intro o'' hlater
        exact (ih nested quiet _ _).mono fun _ => ((hecho.trans hx).trans hlater).trans

end Netutils.Ifconfig
