/-
  Netutils.Ifconfig.PrintifBounds — where print_interfaceX stays inside its strings and comes to
  an end.

  A `$` in front of the NUL takes the scanner behind it, argv has half a byte for each character
  that follows where a pointer takes eight, and put_int writes behind a number format that ends
  too soon. The texts that are still to be gone through are an agenda, and the interpreter
  stays inside and ends if and only if none of them has such a place (`interpreter_stays_iff`). There is no
  other way not to end, since a format only names formats behind it.
-/

import Mathlib.Data.Finset.Lattice.Fold
import Mathlib.Order.Lattice.Nat
import Netutils.Ifconfig.Plan

namespace Netutils.Ifconfig

open Netutils.Lib Netutils.Lib.Agenda Netutils.Lib.Faults Netutils.Libc

/-! ## The agenda of a text -/

/-- What the first turn on a text makes of it. -/
def step (form : FormatData) (t : Text) : Todo :=
  match turn t.nested t.p with
  | .stop _ => []
  | .leave => [.leave]
  | .put _ p => [.task ⟨t.nested, p⟩]
  | .dump _ => []
  | .subst id p =>
    match args p with
    | none => [.leave]
    | some (argv, p') =>
      if POINTER_SIZE * argv.length ≤ (p.length + 1) / 2 then plan form id argv ++ [.task ⟨t.nested, p'⟩] else [.leave]

/-- print_interfaceX with quiet 0. -/
def interpret (form : FormatData) (n : Nat) (t : Text) (o : Out) : Except Stop Out :=
  Prod.snd <$> printX form n t.nested false t.p o

/-- In so few turns it may not get through the text, or through fh_tab. -/
def Tired (n : Nat) (t : Text) : Prop := n < t.p.length + 2 ^ 32

variable {form : FormatData} {p p' id : Str} {n : Nat}

theorem fits_some {bytes argc : Nat} : Fits (some bytes) argc ↔ POINTER_SIZE * argc ≤ bytes :=
  ⟨fun h => h bytes rfl, fun h _ hb => Option.some.inj hb ▸ h⟩

/-- The arguments, then what the handler goes on with, then the text behind. -/
theorem goes_subst {t : Text} (hturn : turn t.nested t.p = .subst id p) (n : Nat) (o : Out) :
    Goes (interpret form n) Stop.Exits (Tired n t) (step form t) (interpret form (n + 1) t o) := by
  have hlt := (turn_subst hturn).lt
  rw [step, hturn, interpret, printX, hturn]
  simp only
  generalize echo false (t.p.takeWhile fun c => !stops t.nested c) o = o
  have hupto := upto_args form (some ((p.length + 1) / 2)) n p o
  cases hrun : argsLoop (printX form n true true) (some ((p.length + 1) / 2)) n [] p o with
  | error e =>
    rw [hrun] at hupto
    by_cases htired : Tired n t
    · exact .tired htired hupto
    · cases hargs : args p with
      | none => exact .leave hupto
      | some a =>
        obtain ⟨argv, p'⟩ := a
        by_cases hfits : POINTER_SIZE * argv.length ≤ (p.length + 1) / 2
        · -- all of them would have been taken
          have hn : p.length < n := by
            unfold Tired at htired
            omega
          have hreturns := returns_args form hargs (fits_some.mpr hfits) hn o
          rw [hrun] at hreturns
          exact hreturns.elim
        · simp only [if_neg hfits]
          exact .leave hupto
  | ok x =>
    obtain ⟨argv, p', o'⟩ := x
    rw [hrun] at hupto
    obtain ⟨hargs, hfits⟩ := hupto
    have hfew : n < 2 ^ 32 → Tired n t := fun hn => by
      unfold Tired
      omega
    have hmap : ∀ x : Except Stop Out, Prod.snd <$> (x >>= fun o => printX form n t.nested false p' o) =
        x >>= interpret form n ⟨t.nested, p'⟩ := fun x => by cases x <;> rfl
    simp only [hargs, if_pos (fits_some.mp hfits)]
    show Goes _ _ _ _ (Prod.snd <$> (formatHandler form id (fun s => interpret form n ⟨true, s⟩) n argv o' >>=
      fun o => printX form n t.nested false p' o))
    rw [hmap]
    apply (acts_formatHandler form id _ _ n hfew argv o').bind
    exact fun o => .last _ o

theorem follows (form : FormatData) : Follows (step form) (interpret form) Stop.Exits Tired where
  zero _ _ := id
  succ n t o := by
    cases hturn : turn t.nested t.p with
    | subst id p => exact goes_subst hturn n o
    | stop p =>
      rw [step, interpret, printX, hturn]
      exact .done _
    | leave =>
      rw [step, interpret, printX, hturn]
      exact .leave id
    | put s p =>
      rw [step, interpret, printX, hturn]
      have h : ∀ o, Goes (interpret form n) Stop.Exits (Tired n t) [.task ⟨t.nested, p⟩] (interpret form n ⟨t.nested, p⟩ o) :=
        .last _
      exact h _
    | dump s =>
      rw [step, interpret, printX, hturn]
      exact .done _
  rested t := ⟨t.p.length + 2 ^ 32, fun m hm => Nat.not_lt.mpr hm⟩

/-! ## Every text is gone through in the end -/

/-- The place in formats, from its end. -/
def rank (name : Str) : Nat := (formats.dropWhile fun frm => !decide (frm.name = name)).length

/-- The texts from each brace to the next closing one. -/
def braced : Str → List Str
  | [] => []
  | c :: p => if c = OPEN then p.takeWhile (· != CLOSE) :: braced p else braced p

theorem mem_braced {a pre post : Str} (ha : CLOSE ∉ a) : a ∈ braced (pre ++ OPEN :: (a ++ CLOSE :: post)) := by
  induction pre with
  | nil =>
    have hspan : (a ++ CLOSE :: post).takeWhile (· != CLOSE) = a :=
      (span_append (p := (· != CLOSE)) (fun c hc => bne_iff_ne.mpr fun h : c = CLOSE => ha (h ▸ hc)) rfl).1
    rw [List.nil_append, braced, if_pos rfl, hspan]
    exact List.mem_cons_self
  | cons c pre ih =>
    rw [List.cons_append, braced]
    split
    · exact List.mem_cons_of_mem _ ih
    · exact ih

theorem Argument.mem_braced {a : Str} (h : Argument a p) (ha : CLOSE ∉ a) : a ∈ braced (p ++ [CLOSE]) := by
  obtain ⟨pre, post, heq⟩ := h
  rw [← heq, List.append_assoc, List.cons_append, List.append_assoc]
  exact Ifconfig.mem_braced ha

open Classical in
/-- The first of the formats that the text names between braces. -/
noncomputable def level (p : Str) : Nat := (formats.toFinset.filter fun frm => Argument frm.name p).sup fun frm => rank frm.name

theorem rank_braced : ∀ frm ∈ formats, CLOSE ∉ frm.name ∧ 0 < rank frm.name ∧
    ∀ a ∈ braced (frm.templ ++ [CLOSE]), rank a < rank frm.name := by
  decide +kernel

open Classical in
theorem rank_le_level {frm : Format} (hfrm : frm ∈ formats) (h : Argument frm.name p) : rank frm.name ≤ level p := by
  unfold level
  exact Finset.le_sup (f := fun frm : Format => rank frm.name) (Finset.mem_filter.mpr ⟨List.mem_toFinset.mpr hfrm, h⟩)

open Classical in
theorem level_le {k : Nat} (h : ∀ frm ∈ formats, Argument frm.name p → rank frm.name ≤ k) : level p ≤ k := by
  unfold level
  apply Finset.sup_le
  intro frm hfrm
  obtain ⟨hmem, harg⟩ := Finset.mem_filter.mp hfrm
  exact h frm (List.mem_toFinset.mp hmem) harg

theorem level_of_suffix (h : p' <:+ p) : level p' ≤ level p :=
  level_le fun _ hfrm harg => rank_le_level hfrm (harg.of_suffix h)

theorem level_argument {a : Str} (h : Argument a p) : level a ≤ level p :=
  level_le fun _ hfrm harg => rank_le_level hfrm (harg.trans h)

/-- A format names formats behind it only. -/
theorem level_templ {frm : Format} (hfrm : frm ∈ formats) (h : Argument frm.name p) : level frm.templ < level p := by
  obtain ⟨-, hpos, hless⟩ := rank_braced frm hfrm
  have hle := rank_le_level hfrm h
  have htempl : level frm.templ ≤ rank frm.name - 1 := by
    apply level_le
    intro frm' hfrm' harg
    exact Nat.le_sub_one_of_lt (hless _ (harg.mem_braced (rank_braced frm' hfrm').1))
  omega

/-- A text with no format before its first one, and shorter if there is one. -/
def Shorter (t' t : Text) : Prop := Prod.Lex (· < ·) (· < ·) (level t'.p, t'.p.length) (level t.p, t.p.length)

theorem shorter_wf : WellFounded Shorter :=
  InvImage.wf (fun t : Text => (level t.p, t.p.length)) (WellFounded.prod_lex Nat.lt_wfRel.wf Nat.lt_wfRel.wf)

theorem shorter_of_le {t t' : Text} (hlevel : level t'.p ≤ level t.p) (hlen : t'.p.length < t.p.length) : Shorter t' t := by
  rcases Nat.lt_or_eq_of_le hlevel with hlt | heq
  · exact .left _ _ hlt
  · unfold Shorter
    rw [heq]
    exact .right _ hlen

theorem shorter_of_behind {t : Text} {nested : Bool} (h : Behind p t.p) : Shorter ⟨nested, p⟩ t :=
  shorter_of_le (level_of_suffix h.suffix) h.lt

theorem step_shorter (t c : Text) (h : .task c ∈ step form t) : Shorter c t := by
  cases hturn : turn t.nested t.p with
  | stop p =>
    rw [step, hturn] at h
    cases h
  | leave =>
    rw [step, hturn] at h
    cases List.mem_singleton.mp h
  | put s p =>
    rw [step, hturn] at h
    obtain rfl := Item.task.inj (List.mem_singleton.mp h)
    exact shorter_of_behind (turn_put hturn)
  | dump s =>
    rw [step, hturn] at h
    cases h
  | subst id p =>
    have hbehind := turn_subst hturn
    rw [step, hturn] at h
    cases hargs : args p with
    | none =>
      simp only [hargs] at h
      cases List.mem_singleton.mp h
    | some a =>
      obtain ⟨argv, p'⟩ := a
      simp only [hargs] at h
      split at h
      · rcases List.mem_append.mp h with hplan | hrest
        · rcases within_plan form id argv c hplan with hmem | ⟨frm, hfrm, hname, htempl⟩
          · have harg := (mem_args hargs hmem).of_suffix hbehind.suffix
            exact shorter_of_le (level_argument harg) harg.lt
          · have harg := (mem_args hargs hname).of_suffix hbehind.suffix
            exact .left _ _ (htempl ▸ level_templ hfrm harg)
        · obtain rfl := Item.task.inj (List.mem_singleton.mp hrest)
          have hsuffix := args_suffix hargs
          exact shorter_of_le (level_of_suffix (hsuffix.trans hbehind.suffix)) (Nat.lt_of_le_of_lt hsuffix.length_le hbehind.lt)
      · cases List.mem_singleton.mp h

/-! ## The interpreter -/

/-- print_interfaceX ends, without a fault, if and only if none of the texts that it comes to is
    left. -/
theorem interpreter_stays_iff (form : FormatData) (format : Str) (o : Out) :
    (∃ n, Upto Stop.Exits (fun _ => True) (printInterface form n format o)) ↔ Safe (step form) [.task ⟨false, format⟩] :=
  ((follows form).upto_iff_ends ⟨false, format⟩ o).trans (ends_iff_safe shorter_wf step_shorter)

def loopback : FormatData where
  name := text "lo0"
  ifr_name := text "lo0"
  first := true
  program_name := text "ifconfig"
  strerror := text "Invalid argument"
  index := 1
  addr := .done #v[127, 0, 0, 1]
  netmask := .done #v[255, 0, 0, 0]
  brdaddr := .failed
  dstaddr := .failed
  flags := .done 0x49
  mtu := .done 16384
  metric := .done 0
  iff := freeBSD
  system := .generic
  printf _ nr := let s := nr.flatMap fun n => decimal n.toNat; (s, BitVec.ofNat 32 s.length)

/-- For fh_tab, with room in argv. -/
def farTab : Str := template "$[tab][2147483648]          "

theorem args_farTab : args (template "[2147483648]          ") = some ([text "2147483648"], text "          ") := by
  have hopen : template "[2147483648]          " = OPEN :: template "2147483648]          " := by decide +kernel
  have hturn : turn true (template "2147483648]          ") = .stop (CLOSE :: text "          ") := by decide +kernel
  have hrest : args (text "          ") = some ([], text "          ") := args_other (by decide +kernel)
  rw [hopen, args_open, scan_zero, hturn]
  show (args (text "          ")).map _ = _
  rw [hrest]
  decide +kernel

/-- A `$` at the end; the default format, with three bytes for a pointer; `%` alone as a number
    format; a column that there is not. -/
theorem leaves_its_strings :
    printInterface loopback 2 (text "$") {} = .error (.fault .template) ∧
    printInterface loopback 3 (template "$[format][gnu]") {} = .error (.fault .argv) ∧
    printInterface loopback 3 (template "$[mtu][%]            ") {} = .error (.fault .put_int) ∧
    ¬ ∃ n, Upto Stop.Exits (fun _ => True) (printInterface loopback n farTab {}) := by
  refine ⟨by decide +kernel, by decide +kernel, by decide +kernel, fun h => ?_⟩
  have hends := ((follows loopback).upto_iff_ends ⟨false, farTab⟩ {}).mp h
  have hturn : turn false farTab = .subst (text "tab") (template "[2147483648]          ") := by decide +kernel
  have hplan : plan loopback (text "tab") [text "2147483648"] = [.leave] := by decide +kernel
  have hstep : step loopback ⟨false, farTab⟩ = [.leave, .task ⟨false, text "          "⟩] := by
    rw [step, hturn]
    simp only [args_farTab]
    rw [if_pos (by decide +kernel), hplan]
    rfl
  apply hends.safe 1
  show step loopback ⟨false, farTab⟩ ++ [] = _
  rw [hstep]
  rfl

end Netutils.Ifconfig
