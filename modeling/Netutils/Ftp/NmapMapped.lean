/-
  Netutils.Ftp.NmapMapped — where domap does what the manual says (`domap_mapped`).

  As built, `both_parts_are_copied`: in brackets the loop goes on behind a variable whether it had
  a text or not, since what cp_subst returns is not looked at there.
-/

import Netutils.Ftp.NmapDomap

namespace Netutils.Ftp.Nmap

open Netutils.Arpa Netutils.Lib.Machine Netutils.Libc Netutils.Ftp.Domap

variable {value : Ref → Option (List UInt8)} {name : List UInt8}

/-- Of a pair of two variables one has no text. -/
def OutPiece.oneText (value : Ref → Option (List UInt8)) : OutPiece → Bool
  | .pair (.var v) (.var w) => v.means value = [] || w.means value = []
  | _ => true

/-- Behind an empty literal in brackets is nothing that the pair would stand for. -/
def OutPiece.nothingElse (value : Ref → Option (List UInt8)) : OutPiece → Bool
  | .pair (.lit []) s => s.means value = []
  | _ => true

theorem texts_copied (v : Ref) : texts (v.copied value) = v.means value := by
  rw [Ref.copied, Ref.means]
  cases value v with
  | none => rfl
  | some t => exact List.append_nil t

theorem texts_append (es es' : List Copy) : texts (es ++ es') = texts es ++ texts es' := List.flatMap_append

theorem means_pair_left (s₁ s₂ : Part) (h : s₂.means value = []) :
    (OutPiece.pair s₁ s₂).means value = s₁.means value := by
  rw [OutPiece.means]
  by_cases hne : s₁.means value ≠ []
  · rw [if_pos hne]
  · rw [if_neg hne, h, of_not_not hne]

theorem means_pair_right (s₁ s₂ : Part) (h : s₁.means value = []) :
    (OutPiece.pair s₁ s₂).means value = s₂.means value := by
  rw [OutPiece.means, if_neg fun hne => hne h]

/-- Of a piece that is passed domap copies what the manual says. -/
theorem copied_means {p : OutPiece} (hpassed : p.passed = true) (helse : p.nothingElse value = true)
    (hone : p.oneText value = true) : texts (p.copied value) = p.means value := by
  cases p with
  | char c => rfl
  | esc c => rfl
  | var v => exact texts_copied v
  | pair s₁ s₂ =>
    cases s₁ with
    | var v =>
      cases s₂ with
      | var w =>
        rw [OutPiece.copied, texts_append, texts_copied, texts_copied]
        rcases Bool.or_eq_true_iff.mp hone with hv | hw
        · rw [means_pair_right (.var v) (.var w) (of_decide_eq_true hv), of_decide_eq_true hv]
          rfl
        · rw [means_pair_left (.var v) (.var w) (of_decide_eq_true hw), of_decide_eq_true hw]
          exact List.append_nil _
      | lit t =>
        have ht : t = [] := List.isEmpty_iff.mp hpassed
        rw [OutPiece.copied, texts_copied, means_pair_left (.var v) (.lit t) (by rw [ht]; rfl)]
        rfl
    | lit t =>
      have ht : t = [] := by
        cases s₂ <;> exact List.isEmpty_iff.mp hpassed
      subst ht
      rw [means_pair_right (.lit []) s₂ rfl]
      exact (of_decide_eq_true helse).symm

/-- Of two texts it copies both. -/
theorem copied_both {p : OutPiece} (hone : p.oneText value = false) :
    p.means value ≠ [] ∧ (p.means value).length < (texts (p.copied value)).length := by
  cases p with
  | char c => cases hone
  | esc c => cases hone
  | var v => cases hone
  | pair s₁ s₂ =>
    cases s₁ with
    | lit t => cases s₂ <;> cases hone
    | var v =>
      cases s₂ with
      | lit t => cases hone
      | var w =>
        obtain ⟨hv, hw⟩ := Bool.or_eq_false_iff.mp hone
        have hmeans : (OutPiece.pair (.var v) (.var w)).means value = v.means value := if_pos (of_decide_eq_false hv)
        rw [hmeans, OutPiece.copied, texts_append, texts_copied, texts_copied, List.length_append]
        exact ⟨of_decide_eq_false hv, Nat.lt_add_of_pos_right (List.length_pos_iff.mpr (of_decide_eq_false hw))⟩

theorem means_le {p : OutPiece} (hpassed : p.passed = true) (helse : p.nothingElse value = true) :
    (p.means value).length ≤ (texts (p.copied value)).length := by
  cases hone : p.oneText value with
  | true => exact Nat.le_of_eq (congrArg List.length (copied_means hpassed helse hone).symm)
  | false => exact Nat.le_of_lt (copied_both hone).2

/-- What domap copies for all of them. -/
def copiedAll (value : Ref → Option (List UInt8)) (out : List OutPiece) : List Copy :=
  out.flatMap (OutPiece.copied value)

theorem length_meansAll (p : OutPiece) (out : List OutPiece) :
    (meansAll value (p :: out)).length = (p.means value).length + (meansAll value out).length := List.length_append

theorem length_copiedAll (p : OutPiece) (out : List OutPiece) :
    (texts (copiedAll value (p :: out))).length =
      (texts (p.copied value)).length + (texts (copiedAll value out)).length := by
  rw [copiedAll, List.flatMap_cons, texts_append, List.length_append]
  rfl

theorem copiedAll_means {out : List OutPiece} (hpassed : out.all OutPiece.passed = true)
    (helse : out.all (OutPiece.nothingElse value) = true) (hone : out.all (OutPiece.oneText value) = true) :
    texts (copiedAll value out) = meansAll value out := by
  induction out with
  | nil => rfl
  | cons p out ih =>
    rw [List.all_cons, Bool.and_eq_true_iff] at hpassed helse hone
    rw [copiedAll, meansAll, List.flatMap_cons, List.flatMap_cons, texts_append, copied_means hpassed.1 helse.1 hone.1]
    exact congrArg _ (ih hpassed.2 helse.2 hone.2)

theorem meansAll_le {out : List OutPiece} (hpassed : out.all OutPiece.passed = true)
    (helse : out.all (OutPiece.nothingElse value) = true) :
    (meansAll value out).length ≤ (texts (copiedAll value out)).length := by
  induction out with
  | nil => exact Nat.le_refl 0
  | cons p out ih =>
    rw [List.all_cons, Bool.and_eq_true_iff] at hpassed helse
    rw [length_meansAll, length_copiedAll]
    exact Nat.add_le_add (means_le hpassed.1 helse.1) (ih hpassed.2 helse.2)

/-- With a pair of two texts what is copied is longer than what the manual says. -/
theorem copiedAll_both {out : List OutPiece} (hpassed : out.all OutPiece.passed = true)
    (helse : out.all (OutPiece.nothingElse value) = true) (hone : out.all (OutPiece.oneText value) = false) :
    meansAll value out ≠ [] ∧ (meansAll value out).length < (texts (copiedAll value out)).length := by
  induction out with
  | nil => cases hone
  | cons p out ih =>
    rw [List.all_cons, Bool.and_eq_true_iff] at hpassed helse
    rw [length_meansAll, length_copiedAll]
    have happend : meansAll value (p :: out) = p.means value ++ meansAll value out := rfl
    rw [happend]
    cases hp : p.oneText value with
    | false =>
      obtain ⟨hne, hlt⟩ := copied_both hp
      exact ⟨List.append_ne_nil_of_left_ne_nil hne _, Nat.add_lt_add_of_lt_of_le hlt (meansAll_le hpassed.2 helse.2)⟩
    | true =>
      rw [List.all_cons, hp, Bool.true_and] at hone
      obtain ⟨hne, hlt⟩ := ih hpassed.2 helse.2 hone
      exact ⟨List.append_ne_nil_of_right_ne_nil _ hne, Nat.add_lt_add_of_le_of_lt (means_le hpassed.1 helse.1) hlt⟩

theorem resultOf_iff {out : List OutPiece} {inp : Inpattern} (hpassed : out.all OutPiece.passed = true)
    (helse : out.all (OutPiece.nothingElse (inp.value name)) = true) :
    ⟨mapped name inp out, []⟩ = resultOf name (copiedAll (inp.value name) out) true ↔
      out.all (OutPiece.oneText (inp.value name)) = true := by
  rw [resultOf, if_pos rfl, mapped]
  constructor
  · intro heq
    cases hone : out.all (OutPiece.oneText (inp.value name)) with
    | true => rfl
    | false =>
      obtain ⟨hne, hlt⟩ := copiedAll_both hpassed helse hone
      have hcopied : texts (copiedAll (inp.value name) out) ≠ [] := List.length_pos_iff.mp (Nat.zero_lt_of_lt hlt)
      rw [if_neg hne, if_neg hcopied] at heq
      rw [(Result.mk.inj heq).1] at hlt
      exact absurd hlt (Nat.lt_irrefl _)
  · intro hone
    rw [copiedAll_means hpassed helse hone]

theorem digit_ne_zero (i : Fin 9) : digit i ≠ ZERO ∧ digit i ≠ NUL := by
  have hone := fromOne_digit i
  constructor <;> intro h <;> rw [h] at hone <;> cases hone

theorem cstring_renderIn (ps : List InPiece) : cstring (renderIn ps) = renderIn ps := by
  apply cstring_of_not_mem
  intro h
  obtain ⟨p, -, hp⟩ := List.mem_flatMap.mp h
  cases p with
  | char c =>
    have hc := (Bool.and_eq_true_iff.mp (Bool.and_eq_true_iff.mp c.property).1).1
    exact of_decide_eq_true hc (List.mem_singleton.mp hp).symm
  | esc c =>
    rcases List.mem_cons.mp hp with hb | hc
    · cases hb
    · exact c.property (List.mem_singleton.mp hc).symm
  | var i =>
    rcases List.mem_cons.mp hp with hd | hi
    · cases hd
    · exact (digit_ne_zero i).2 (List.mem_singleton.mp hi).symm

theorem nul_not_mem_ref (v : Ref) : NUL ∉ [DOLLAR, v.digit] := by
  intro h
  rcases List.mem_cons.mp h with hd | hv
  · cases hd
  · have hdigit := isdigit_digit v
    rw [← List.mem_singleton.mp hv] at hdigit
    cases hdigit

theorem isOut_ne_nul {c : UInt8} (h : isOut c = true) : c ≠ NUL :=
  of_decide_eq_true (Bool.and_eq_true_iff.mp (Bool.and_eq_true_iff.mp (Bool.and_eq_true_iff.mp h).1).1).1

theorem nul_not_mem_part (s : Part) : NUL ∉ s.render := by
  cases s with
  | var v => exact nul_not_mem_ref v
  | lit t =>
    intro h
    obtain ⟨d, -, hd⟩ := List.mem_map.mp h
    exact isOut_ne_nul (Bool.and_eq_true_iff.mp (Bool.and_eq_true_iff.mp d.property).1).1 hd

theorem cstring_renderOut (out : List OutPiece) : cstring (renderOut out) = renderOut out := by
  apply cstring_of_not_mem
  intro h
  obtain ⟨p, -, hp⟩ := List.mem_flatMap.mp h
  cases p with
  | char c => exact isOut_ne_nul c.property (List.mem_singleton.mp hp).symm
  | esc c =>
    rcases List.mem_cons.mp hp with hb | hc
    · cases hb
    · exact c.property (List.mem_singleton.mp hc).symm
  | var v => exact nul_not_mem_ref v hp
  | pair s₁ s₂ =>
    rcases List.mem_cons.mp hp with ho | hp
    · cases ho
    · rcases List.mem_append.mp hp with h₁ | hp
      · exact nul_not_mem_part s₁ h₁
      · rcases List.mem_cons.mp hp with hcomma | hp
        · cases hcomma
        · rcases List.mem_append.mp hp with h₂ | hclose
          · exact nul_not_mem_part s₂ h₂
          · cases List.mem_singleton.mp hclose

theorem source_digit (name : List UInt8) (matched : List (Fin 9 × List UInt8)) (v : Ref) :
    (toksOf matched).source name v.digit = v.value name matched := by
  cases v with
  | name => rfl
  | tok i =>
    rw [Toks.source, Ref.digit, if_neg (digit_ne_zero i).1, toNat_digit, toksOf, dif_pos i.isLt, Ref.value]

theorem toksOf_nil : toksOf [] = fun _ => none := by
  funext j
  rw [toksOf]
  split <;> rfl

/-- What domap is given by the manual's patterns. -/
structure Met (name : List UInt8) (inp : Inpattern) (out : List OutPiece) (moves : Nat → Bool) : Prop where
  /-- No literal is come to in brackets. -/
  passed : out.all OutPiece.passed = true
  /-- Of two variables in brackets one has no text. -/
  oneText : out.all (OutPiece.oneText (inp.value name)) = true
  /-- The literals and two characters of each text are no more than the name has. -/
  room : weights (copiedAll (inp.value name) out) ≤ name.length
  /-- realloc leaves the buffer where it is. -/
  stays : ∀ i < (copiedAll (inp.value name) out).countP Copy.grows, moves i = false

/-- The name domap returns is the manual's just under these conditions, where no variable meets an
    escape and no empty literal stands in front of something else. -/
theorem domap_mapped (name : List UInt8) (inp : Inpattern) (out : List OutPiece) (moves : Nat → Bool)
    (hescape : meetsEscape inp.pieces (cstring name) = false)
    (helse : out.all (OutPiece.nothingElse (inp.value (cstring name))) = true) :
    (∃ n, domap n name (renderIn inp.pieces) (renderOut out) moves = some (.ok ⟨mapped (cstring name) inp out, []⟩)) ↔
      Met (cstring name) inp out moves := by
  have htokens : tokens (renderIn inp.pieces) (cstring name) 0 (fun _ => none) =
      some (toksOf (inp.matched (cstring name))) := by
    have hin : tokens (renderIn inp.pieces) (cstring name) (last []) (toksOf []) =
        some (toksOf (inp.matched (cstring name))) :=
      tokens_renderIn inp.apart hescape inp.distinct
    rwa [toksOf_nil] at hin
  have houtline := outline_renderOut (source_digit (cstring name) (inp.matched (cstring name))) out
  rw [returns_domap, cstring_renderIn, cstring_renderOut, htokens]
  constructor
  · intro h
    obtain ⟨toks, es, balanced, htoks, ho, hroom, hr⟩ := h
    obtain rfl := Option.some.inj htoks
    rw [houtline] at ho
    cases hpassed : out.all OutPiece.passed with
    | false =>
      rw [hpassed, if_neg Bool.false_ne_true] at ho
      cases ho
    | true =>
      rw [hpassed, if_pos rfl] at ho
      obtain ⟨rfl, rfl⟩ := Prod.mk.inj (Option.some.inj ho)
      exact ⟨hpassed, (resultOf_iff hpassed helse).mp hr, Nat.le_of_succ_le_succ hroom.1, hroom.2⟩
  · intro hmet
    rw [if_pos hmet.passed] at houtline
    exact ⟨_, _, _, rfl, houtline, ⟨Nat.succ_le_succ hmet.room, hmet.stays⟩,
      (resultOf_iff hmet.passed helse).mpr hmet.oneText⟩

/-- `$1`, `$2` and `$3` -/
def one : Fin 9 := ⟨0, by decide⟩
def two : Fin 9 := ⟨1, by decide⟩
def three : Fin 9 := ⟨2, by decide⟩

/-- `$1.$2` -/
def twoParts : Inpattern where
  pieces := [.var one, .char ⟨0x2e, rfl⟩, .var two]
  distinct := List.nodup_cons.mpr ⟨fun h => absurd (List.mem_singleton.mp h) (by decide),
    List.nodup_cons.mpr ⟨List.not_mem_nil, List.Pairwise.nil⟩⟩
  apart := rfl

/-- `a.b` -/
def aDotB : List UInt8 := [0x61, 0x2e, 0x62]

/-- `[$1,$2]` -/
def firstOrSecond : List OutPiece := [.pair (.var (.tok one)) (.var (.tok two))]

/-- `[$3,$1]` -/
def thirdOrFirst : List OutPiece := [.pair (.var (.tok three)) (.var (.tok one))]

theorem domap_mapped_stem :
    (∃ n, domap n aDotB (renderIn twoParts.pieces) (renderOut thirdOrFirst) (fun _ => false) =
      some (.ok ⟨mapped (cstring aDotB) twoParts thirdOrFirst, []⟩)) ↔
    Met (cstring aDotB) twoParts thirdOrFirst fun _ => false :=
  domap_mapped aDotB twoParts _ _ rfl rfl

/-- `[$1,$2]` of `a.b` is `ab`, where `$1` is `a`. -/
theorem both_parts_are_copied : ¬ ∃ n, domap n aDotB (renderIn twoParts.pieces) (renderOut firstOrSecond) (fun _ => false) =
    some (.ok ⟨mapped (cstring aDotB) twoParts firstOrSecond, []⟩) := by
  intro hreturns
  have hboth : domap 20 aDotB (renderIn twoParts.pieces) (renderOut firstOrSecond) (fun _ => false) =
      some (.ok ⟨[0x61, 0x62], []⟩) := rfl
  have heq := congrArg Result.new (returns_unique hreturns ⟨20, hboth⟩)
  have hfirst : mapped (cstring aDotB) twoParts firstOrSecond = [0x61] := rfl
  rw [hfirst] at heq
  exact absurd heq (by decide)

/-- `[$1,$2][,$2]` -/
def makesUp : List OutPiece := firstOrSecond ++ [.pair (.lit []) (.var (.tok two))]

/-- Two faults may make up for each other. -/
example : domap 40 aDotB (renderIn twoParts.pieces) (renderOut makesUp) (fun _ => false) =
    some (.ok ⟨mapped (cstring aDotB) twoParts makesUp, []⟩) := rfl

end Netutils.Ftp.Nmap
