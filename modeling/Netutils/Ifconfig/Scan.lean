/-
  Netutils.Ifconfig.Scan — where the quiet runs of print_interfaceX find the ends of arguments.

  The recursion is a count of the arguments that are open (`scan`), and what it leaves is the
  text behind them (`upto_scan`, `returns_scan`).
-/

import Netutils.Ifconfig.Printif

namespace Netutils.Ifconfig

open Netutils.Lib.Faults Netutils.Libc

variable {form : FormatData} {nested : Bool} {a p q r s id : Str} {d e n : Nat} {o : Out}

/-! ## Turns -/

/-- What a text that begins with a character that is not echoed is, for the turn on it. -/
def Turn.Of (p : Str) : Turn → Prop
  | .stop q => q = p ∧ p.head? ≠ some DOLLAR
  | .leave => p = [DOLLAR]
  | .put _ r => ∃ d, p = DOLLAR :: d :: r
  | .dump s => s = p
  | .subst id r => p = DOLLAR :: OPEN :: (id ++ CLOSE :: r)

theorem takeWhile_drop_dropWhile {c : UInt8} (h : c ∈ p) :
    p.takeWhile (· != c) ++ c :: (p.dropWhile (· != c)).drop 1 = p := by
  induction p with
  | nil => cases h
  | cons b p ih =>
    by_cases hb : b = c
    · subst hb
      simp
    · have hbc : (b != c) = true := bne_iff_ne.mpr hb
      rw [List.takeWhile_cons_of_pos (p := (· != c)) hbc, List.dropWhile_cons_of_pos (p := (· != c)) hbc, List.cons_append,
        ih ((List.mem_cons.mp h).resolve_left fun h => hb h.symm)]

theorem dollarTurn_of (p : Str) : (dollarTurn p).Of p := by
  match p with
  | [] => exact ⟨rfl, nofun⟩
  | c :: p =>
    by_cases hc : c = DOLLAR
    · subst hc
      match p with
      | [] => exact rfl
      | d :: p =>
        rw [dollarTurn, if_neg (not_not_intro rfl)]
        by_cases hd : d = OPEN
        · subst hd
          by_cases hclose : CLOSE ∈ p
          · simp only [if_true, if_pos hclose]
            rw [Turn.Of, takeWhile_drop_dropWhile hclose]
          · simp only [if_true, if_neg hclose]
            exact rfl
        · simp only [if_neg hd]
          split
          · exact ⟨d, rfl⟩
          · exact ⟨d, rfl⟩
    · rw [dollarTurn.eq_def]
      simp only [if_pos hc]
      exact ⟨rfl, fun h => hc (Option.some.inj h)⟩

/-- The rest of the text behind one of its characters. -/
def Behind (r p : Str) : Prop := ∃ pre c, p = pre ++ c :: r

theorem Behind.lt (h : Behind r p) : r.length < p.length := by
  obtain ⟨pre, c, rfl⟩ := h
  rw [List.length_append, List.length_cons]
  omega

theorem Behind.suffix (h : Behind r p) : r <:+ p := by
  obtain ⟨pre, c, rfl⟩ := h
  exact ⟨pre ++ [c], List.append_assoc ..⟩

theorem turn_of (nested : Bool) (p : Str) :
    ∃ t, p.takeWhile (fun c => !stops nested c) ++ t = p ∧ (turn nested p).Of t :=
  ⟨_, List.takeWhile_append_dropWhile, dollarTurn_of _⟩

theorem turn_stop (h : turn nested p = .stop q) : q <:+ p ∧ (q = [] ∨ q.head? = some CLOSE) := by
  have hof := dollarTurn_of (p.dropWhile fun c => !stops nested c)
  rw [← turn, h] at hof
  obtain ⟨rfl, hdollar⟩ := hof
  refine ⟨List.dropWhile_suffix _, ?_⟩
  cases hq : p.dropWhile fun c => !stops nested c with
  | nil => exact .inl rfl
  | cons c q =>
    have hstops := List.head?_dropWhile_not (fun c => !stops nested c) p
    rw [hq] at hstops
    simp only [Bool.not_eq_false', stops, Bool.or_eq_true, Bool.and_eq_true, beq_iff_eq] at hstops
    rcases hstops with rfl | ⟨-, rfl⟩
    · exact absurd (by rw [hq]; rfl) hdollar
    · exact .inr rfl

theorem turn_put (h : turn nested p = .put s r) : Behind r p := by
  obtain ⟨t, ht, hof⟩ := turn_of nested p
  rw [h] at hof
  obtain ⟨d, rfl⟩ := hof
  exact ⟨_ ++ [DOLLAR], d, by rw [← ht, List.append_assoc]; rfl⟩

theorem turn_subst (h : turn nested p = .subst id r) : Behind r p := by
  obtain ⟨t, ht, hof⟩ := turn_of nested p
  rw [h] at hof
  obtain rfl := hof
  exact ⟨_ ++ DOLLAR :: OPEN :: id, CLOSE, by rw [← ht, List.append_assoc]; rfl⟩

/-! ## The scanner -/

/-- One more argument is open where one begins. -/
def enter (depth : Nat) (p : Str) : Nat × Str := if p.head? = some OPEN then (depth + 1, p.tail) else (depth, p)

theorem enter_suffix (d : Nat) (p : Str) : (enter d p).2 <:+ p := by
  unfold enter
  split
  · exact List.tail_suffix p
  · exact List.suffix_refl p

theorem enter_add (d e : Nat) (p : Str) : enter (d + e) p = ((enter d p).1 + e, (enter d p).2) := by
  unfold enter
  split
  · rw [Nat.add_right_comm]
  · rfl

/-- The text that is left at the end of the argument, with so many open inside. -/
def scan (depth : Nat) (p : Str) : Option Str :=
  match _h : turn true p with
  | .stop [] => some []
  | .stop (c :: q) =>
    match depth with
    | 0 => some (c :: q)
    | d + 1 => scan (enter d q).1 (enter d q).2
  | .leave => none
  | .put _ r => scan depth r
  | .dump _ => some []
  | .subst _ r => scan (enter depth r).1 (enter depth r).2
termination_by p.length
decreasing_by
  · have hle := (enter_suffix d q).length_le
    have hlen := (turn_stop _h).1.length_le
    rw [List.length_cons] at hlen
    omega
  · exact (turn_put _h).lt
  · exact Nat.lt_of_le_of_lt (enter_suffix depth r).length_le (turn_subst _h).lt

/-- Behind the end of an argument inside. -/
def resume (depth : Nat) (q : Str) : Option Str := if q = [] then some [] else scan (enter depth q.tail).1 (enter depth q.tail).2

theorem scan_eq (d : Nat) (p : Str) : scan d p =
    match turn true p with
    | .stop q => if d = 0 then some q else resume (d - 1) q
    | .leave => none
    | .put _ r => scan d r
    | .dump _ => some []
    | .subst _ r => scan (enter d r).1 (enter d r).2 := by
  rw [scan]
  split
  · rename_i h
    rw [h]
    exact (ite_self _).symm
  · rename_i h
    rw [h]
    cases d <;> rfl
  all_goals
    rename_i h
    rw [h]

theorem scan_suffix (h : scan d p = some q) : q <:+ p ∧ (q = [] ∨ q.head? = some CLOSE) := by
  induction d, p using scan.induct with
  | case1 d p hturn =>
    rw [scan_eq, hturn] at h
    obtain rfl := Option.some.inj ((ite_self _).symm.trans h)
    exact ⟨List.nil_suffix, .inl rfl⟩
  | case2 p c r hturn =>
    rw [scan_eq, hturn] at h
    obtain rfl := Option.some.inj h
    exact turn_stop hturn
  | case3 p c r hturn d ih =>
    rw [scan_eq, hturn] at h
    obtain ⟨hsuffix, hend⟩ := ih h
    exact ⟨(hsuffix.trans (enter_suffix d r)).trans ((List.suffix_cons c r).trans (turn_stop hturn).1), hend⟩
  | case4 d p hturn =>
    rw [scan_eq, hturn] at h
    cases h
  | case5 d p s r hturn ih =>
    rw [scan_eq, hturn] at h
    obtain ⟨hsuffix, hend⟩ := ih h
    exact ⟨hsuffix.trans (turn_put hturn).suffix, hend⟩
  | case6 d p s hturn =>
    rw [scan_eq, hturn] at h
    obtain rfl := Option.some.inj h
    exact ⟨List.nil_suffix, .inl rfl⟩
  | case7 d p id r hturn ih =>
    rw [scan_eq, hturn] at h
    obtain ⟨hsuffix, hend⟩ := ih h
    exact ⟨(hsuffix.trans (enter_suffix d r)).trans (turn_subst hturn).suffix, hend⟩

theorem scan_nil (d : Nat) : scan d [] = some [] := by
  rw [scan_eq]
  exact ite_self _

theorem resume_add (e d : Nat) (h : ∀ d, scan ((enter e q.tail).1 + d + 1) (enter e q.tail).2 =
    (scan (enter e q.tail).1 (enter e q.tail).2).bind (resume d)) : resume (e + d + 1) q = (resume e q).bind (resume d) := by
  unfold resume
  split
  · rfl
  · rw [Nat.add_assoc, enter_add]
    exact h d

/-- The arguments that are open outside wait for those inside. -/
theorem scan_add (e d : Nat) (p : Str) : scan (e + d + 1) p = (scan e p).bind (resume d) := by
  induction e, p using scan.induct generalizing d with
  | case1 e p hturn =>
    rw [scan_eq, scan_eq e, hturn]
    simp only [resume, if_true, ite_self, Option.bind_some]
  | case2 p c r hturn =>
    rw [scan_eq, scan_eq 0, hturn, Nat.zero_add]
    rfl
  | case3 p c r hturn e ih =>
    rw [scan_eq, scan_eq e.succ, hturn]
    simp only [Nat.succ_add, Nat.succ_ne_zero, if_false]
    exact resume_add (q := c :: r) e d ih
  | case4 e p hturn =>
    rw [scan_eq, scan_eq e, hturn]
    rfl
  | case5 e p s r hturn ih =>
    rw [scan_eq, scan_eq e, hturn]
    exact ih d
  | case6 e p s hturn =>
    rw [scan_eq, scan_eq e, hturn]
    rfl
  | case7 e p id r hturn ih =>
    rw [scan_eq, scan_eq e, hturn]
    simp only [Nat.add_assoc, enter_add]
    exact ih d

/-! ## Arguments -/

theorem skipClose_suffix (q : Str) : skipClose q <:+ q := by
  unfold skipClose
  split
  · exact List.tail_suffix q
  · exact List.suffix_refl q

/-- The arguments that begin here, and the text behind them. -/
def args (p : Str) : Option (List Str × Str) :=
  if _hp : p.head? = some OPEN then
    match _h : scan 0 p.tail with
    | none => none
    | some q => (args (skipClose q)).map fun a => (p.tail.take (p.tail.length - q.length) :: a.1, a.2)
  else some ([], p)
termination_by p.length
decreasing_by
  have hq := ((skipClose_suffix q).trans (scan_suffix _h).1).length_le
  obtain ⟨p, rfl⟩ := List.head?_eq_some_iff.mp _hp
  exact Nat.lt_of_le_of_lt hq (Nat.lt_succ_self _)

theorem args_open (p : Str) : args (OPEN :: p) =
    (scan 0 p).bind fun q => (args (skipClose q)).map fun a => (p.take (p.length - q.length) :: a.1, a.2) := by
  rw [args, dif_pos (by rfl)]
  split
  · rename_i h
    rw [List.tail_cons] at h
    rw [h]
    rfl
  · rename_i h
    rw [List.tail_cons] at h
    rw [h]
    rfl

theorem args_other (h : p.head? ≠ some OPEN) : args p = some ([], p) := by
  rw [args, dif_neg h]

theorem args_suffix {as : List Str} (h : args p = some (as, r)) : r <:+ p := by
  induction p using args.induct generalizing as with
  | case1 p hopen hscan =>
    obtain ⟨p, rfl⟩ := List.head?_eq_some_iff.mp hopen
    rw [List.tail_cons] at hscan
    rw [args_open, hscan] at h
    cases h
  | case2 p hopen q hscan ih =>
    obtain ⟨p, rfl⟩ := List.head?_eq_some_iff.mp hopen
    rw [List.tail_cons] at hscan
    rw [args_open, hscan, Option.bind_some] at h
    obtain ⟨a, ha, hpair⟩ := Option.map_eq_some_iff.mp h
    obtain ⟨-, rfl⟩ := Prod.mk.inj hpair
    exact ((ih ha).trans (skipClose_suffix q)).trans ((scan_suffix hscan).1.trans (List.suffix_cons OPEN p))
  | case3 p hother =>
    rw [args_other hother] at h
    obtain ⟨-, rfl⟩ := Prod.mk.inj (Option.some.inj h)
    exact List.suffix_refl p

theorem resume_zero (q : Str) (h : q = [] ∨ q.head? = some CLOSE) :
    resume 0 q = scan (enter 0 (skipClose q)).1 (enter 0 (skipClose q)).2 := by
  rcases h with rfl | hclose
  · exact (scan_nil _).symm
  · obtain ⟨q, rfl⟩ := List.head?_eq_some_iff.mp hclose
    rw [resume, if_neg (List.cons_ne_nil CLOSE q), skipClose, if_pos hclose]

/-- Behind the name of a substitution, the scanner goes through its arguments first. -/
theorem scan_enter (p : Str) : scan (enter 0 p).1 (enter 0 p).2 = (args p).bind fun a => scan 0 a.2 := by
  induction p using args.induct with
  | case1 p hopen hscan =>
    obtain ⟨p, rfl⟩ := List.head?_eq_some_iff.mp hopen
    rw [List.tail_cons] at hscan
    rw [args_open, hscan, enter, if_pos hopen]
    exact (scan_add 0 0 p).trans (by rw [hscan]; rfl)
  | case2 p hopen q hscan ih =>
    obtain ⟨p, rfl⟩ := List.head?_eq_some_iff.mp hopen
    rw [List.tail_cons] at hscan
    rw [args_open, hscan, enter, if_pos hopen]
    calc scan (0 + 0 + 1) p = (scan 0 p).bind (resume 0) := scan_add 0 0 p
      _ = resume 0 q := by rw [hscan]; rfl
      _ = scan (enter 0 (skipClose q)).1 (enter 0 (skipClose q)).2 := resume_zero q (scan_suffix hscan).2
      _ = (args (skipClose q)).bind fun a => scan 0 a.2 := ih
      _ = _ := by rw [Option.bind_some, Option.bind_map]; rfl
  | case3 p hother =>
    rw [args_other hother, enter, if_neg hother]
    rfl

theorem scan_zero (p : Str) : scan 0 p =
    match turn true p with
    | .stop q => some q
    | .leave => none
    | .put _ r => scan 0 r
    | .dump _ => some []
    | .subst _ r => (args r).bind fun a => scan 0 a.2 := by
  rw [scan_eq]
  cases turn true p with
  | subst id r => exact scan_enter r
  | _ => rfl

/-- It stands in the text between the braces of an argument, the last of which may be missing. -/
def Argument (a p : Str) : Prop := OPEN :: (a ++ [CLOSE]) <:+: p ++ [CLOSE]

theorem Argument.trans (h : Argument s a) (h' : Argument a p) : Argument s p :=
  List.IsInfix.trans h ((List.suffix_cons OPEN (a ++ [CLOSE])).isInfix.trans h')

theorem Argument.of_suffix (h : Argument a r) (hr : r <:+ p) : Argument a p := by
  obtain ⟨t, rfl⟩ := hr
  apply List.IsInfix.trans h
  rw [List.append_assoc]
  exact (List.suffix_append t (r ++ [CLOSE])).isInfix

theorem Argument.lt (h : Argument a p) : a.length < p.length := by
  have hlen := List.IsInfix.length_le h
  simp only [List.length_append, List.length_cons, List.length_nil] at hlen
  omega

theorem mem_args {as : List Str} (h : args p = some (as, r)) (ha : a ∈ as) : Argument a p := by
  induction p using args.induct generalizing as with
  | case1 p hopen hscan =>
    obtain ⟨p, rfl⟩ := List.head?_eq_some_iff.mp hopen
    rw [List.tail_cons] at hscan
    rw [args_open, hscan] at h
    cases h
  | case2 p hopen q hscan ih =>
    obtain ⟨p, rfl⟩ := List.head?_eq_some_iff.mp hopen
    rw [List.tail_cons] at hscan
    rw [args_open, hscan, Option.bind_some] at h
    obtain ⟨⟨as', r'⟩, has, hpair⟩ := Option.map_eq_some_iff.mp h
    obtain ⟨rfl, rfl⟩ := Prod.mk.inj hpair
    obtain ⟨hsuffix, hend⟩ := scan_suffix hscan
    rcases List.mem_cons.mp ha with rfl | ha
    · have hcut := List.suffix_iff_eq_append.mp hsuffix
      rcases hend with rfl | hclose
      · exact ⟨[], [], by rw [← hcut]; simp⟩
      · obtain ⟨q, rfl⟩ := List.head?_eq_some_iff.mp hclose
        exact ⟨[], q ++ [CLOSE], by rw [← hcut]; simp⟩
    · exact (ih has ha).of_suffix ((skipClose_suffix q).trans (hsuffix.trans (List.suffix_cons OPEN p)))
  | case3 p hother =>
    rw [args_other hother] at h
    obtain ⟨rfl, -⟩ := Prod.mk.inj (Option.some.inj h)
    cases ha

/-! ## The quiet runs -/

/-- The program ends by exit. -/
def Stop.Exits : Stop → Prop
  | .fault _ => False
  | .exit _ _ => True

/-- argv has room for so many arguments. -/
def Fits (room : Option Nat) (argc : Nat) : Prop := ∀ bytes ∈ room, POINTER_SIZE * argc ≤ bytes

theorem any_lt_eq_false {room : Option Nat} {argc : Nat} : room.any (· < POINTER_SIZE * argc) = false ↔ Fits room argc := by
  cases room with
  | none => exact iff_of_true rfl nofun
  | some bytes =>
    rw [Option.any_some, decide_eq_false_iff_not, Nat.not_lt]
    exact ⟨fun h b hb => Option.some.inj hb ▸ h, fun h => h bytes rfl⟩

theorem fits_none (argc : Nat) : Fits none argc := nofun

theorem Fits.mono {room : Option Nat} {argc argc' : Nat} (h : Fits room argc) (hle : argc' ≤ argc) : Fits room argc' :=
  fun bytes hb => Nat.le_trans (Nat.mul_le_mul_left POINTER_SIZE hle) (h bytes hb)

section Loop

variable {scanner : Str → Out → Except Stop (Str × Out)} {room : Option Nat} {argv as : List Str}

/-- The arguments that are taken are those of the text, and each was stored where argv had room. -/
theorem upto_argsLoop (hscan : ∀ p o, Upto (¬ Stop.Exits ·) (fun x => scan 0 p = some x.1) (scanner p o)) :
    Upto (¬ Stop.Exits ·) (fun x => ∃ as, args p = some (as, x.2.1) ∧ x.1 = argv ++ as ∧
      (as = [] ∨ Fits room (argv ++ as).length)) (argsLoop scanner room n argv p o) := by
  induction n generalizing argv p o with
  | zero => exact id
  | succ n ih =>
    rw [argsLoop]
    split
    · rename_i hopen
      obtain ⟨p, rfl⟩ := List.head?_eq_some_iff.mp hopen
      rw [upto_bind]
      apply (hscan p o).mono
      intro x hx
      obtain ⟨q, o'⟩ := x
      by_cases hroom : room.any (· < POINTER_SIZE * (argv.length + 1)) = true
      · simp only [hroom, if_true]
        exact id
      · simp only [hroom]
        apply ih.mono
        intro y hy
        obtain ⟨as, has, hargv, hfits⟩ := hy
        rw [List.append_assoc, List.singleton_append] at hargv
        refine ⟨_, by rw [args_open, hx, Option.bind_some, has]; rfl, hargv, .inr ?_⟩
        rcases hfits with rfl | hfits
        · rw [List.length_append]
          exact any_lt_eq_false.mp (Bool.eq_false_iff.mpr hroom)
        · rw [List.append_assoc, List.singleton_append] at hfits
          exact hfits
    · rename_i hother
      exact ⟨[], args_other hother, (List.append_nil argv).symm, .inl rfl⟩

theorem returns_argsLoop (hargs : args p = some (as, r)) (hfits : as = [] ∨ Fits room (argv ++ as).length)
    (hn : p.length < n)
    (hscan : ∀ p' q o, p'.length < p.length → scan 0 p' = some q → Returns (fun x => x.1 = q) (scanner p' o)) :
    Returns (fun x => x.1 = argv ++ as ∧ x.2.1 = r) (argsLoop scanner room n argv p o) := by
  induction n generalizing argv p o as with
  | zero => omega
  | succ n ih =>
    rw [argsLoop]
    split
    · rename_i hopen
      obtain ⟨p, rfl⟩ := List.head?_eq_some_iff.mp hopen
      rw [args_open] at hargs
      obtain ⟨q, hq, hargs⟩ := Option.bind_eq_some_iff.mp hargs
      obtain ⟨⟨as', r'⟩, has, hpair⟩ := Option.map_eq_some_iff.mp hargs
      obtain ⟨rfl, rfl⟩ := Prod.mk.inj hpair
      have hq' := ((skipClose_suffix q).trans (scan_suffix hq).1).length_le
      rw [List.length_cons] at hn
      replace hfits := hfits.resolve_left (List.cons_ne_nil _ _)
      rw [returns_bind]
      apply (hscan p q o (Nat.lt_succ_self _) hq).mono
      intro x hx
      obtain ⟨q, o'⟩ := x
      obtain rfl := hx
      have hroom : room.any (· < POINTER_SIZE * (argv.length + 1)) = false := by
        apply any_lt_eq_false.mpr (hfits.mono _)
        rw [List.length_append, List.length_cons]
        omega
      simp only [hroom]
      rw [← List.singleton_append, ← List.append_assoc] at hfits ⊢
      apply ih has (.inr hfits) (by omega)
      intro p' q o hp'
      exact hscan p' q o (by rw [List.length_cons]; omega)
    · rename_i hother
      rw [args_other hother] at hargs
      obtain ⟨rfl, rfl⟩ := Prod.mk.inj (Option.some.inj hargs)
      exact ⟨(List.append_nil argv).symm, rfl⟩

end Loop

theorem upto_scan (n : Nat) (p : Str) (o : Out) :
    Upto (¬ Stop.Exits ·) (fun x => scan 0 p = some x.1) (printX form n true true p o) := by
  induction n generalizing p o with
  | zero => exact id
  | succ n ih =>
    rw [printX, scan_zero]
    cases turn true p with
    | stop q => exact rfl
    | leave => exact id
    | put s r => exact ih r _
    | dump s => exact rfl
    | subst id r =>
      simp only [if_true, upto_bind]
      refine (upto_argsLoop ih).mono fun x hx => ?_
      obtain ⟨as, has, -⟩ := hx
      rw [has]
      exact ih _ _

theorem returns_scan (h : scan 0 p = some q) (hn : p.length < n) (o : Out) :
    Returns (fun x => x.1 = q) (printX form n true true p o) := by
  induction n generalizing p q o with
  | zero => omega
  | succ n ih =>
    rw [scan_zero] at h
    rw [printX]
    cases hturn : turn true p with
    | stop q => rw [hturn] at h; exact Option.some.inj h
    | leave => rw [hturn] at h; cases h
    | put s r => rw [hturn] at h; exact ih h (by have := (turn_put hturn).lt; omega) _
    | dump s => rw [hturn] at h; exact Option.some.inj h
    | subst id r =>
      rw [hturn] at h
      obtain ⟨⟨as, r'⟩, has, h⟩ := Option.bind_eq_some_iff.mp h
      have hr := (turn_subst hturn).lt
      simp only [if_true, returns_bind]
      have hloop : Returns (fun x => x.1 = [] ++ as ∧ x.2.1 = r')
          (argsLoop (printX form n true true) none n [] r (echo true (p.takeWhile fun c => !stops true c) o)) := by
        apply returns_argsLoop has (.inr (fits_none _)) (by omega)
        intro p' q o hp' hq
        exact ih hq (by omega) o
      refine hloop.mono fun x hx => ?_
      have hr' := (args_suffix has).length_le
      obtain ⟨-, hx⟩ := hx
      rw [hx]
      exact ih h (show r'.length < n by omega) _

/-- The arguments of a substitution, as far as they can be taken. -/
theorem upto_args (form : FormatData) (room : Option Nat) (n : Nat) (p : Str) (o : Out) :
    Upto (¬ Stop.Exits ·) (fun x => args p = some (x.1, x.2.1) ∧ Fits room x.1.length)
      (argsLoop (printX form n true true) room n [] p o) := by
  apply (upto_argsLoop (upto_scan n)).mono
  intro x hx
  obtain ⟨as, has, hargv, hfits⟩ := hx
  rw [List.nil_append] at hargv hfits
  rw [hargv]
  refine ⟨has, ?_⟩
  rcases hfits with rfl | hfits
  · exact fun bytes _ => Nat.zero_le bytes
  · exact hfits

/-- They are taken where they can be, in enough turns. -/
theorem returns_args (form : FormatData) {room : Option Nat} {as : List Str} (h : args p = some (as, r)) (hfits : Fits room as.length)
    (hn : p.length < n) (o : Out) :
    Returns (fun x => x.1 = as ∧ x.2.1 = r) (argsLoop (printX form n true true) room n [] p o) := by
  have hscan : ∀ p' q o, p'.length < p.length → scan 0 p' = some q →
      Returns (fun x => x.1 = q) (printX form n true true p' o) :=
    fun p' q o hp' hq => returns_scan hq (by omega) o
  exact returns_argsLoop h (.inr hfits) hn hscan

end Netutils.Ifconfig
