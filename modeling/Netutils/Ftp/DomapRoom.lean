/-
  Netutils.Ftp.DomapRoom — the buffer of domap's result. It is made for the name; a variable may
  take two of its characters and brings the rest along, a literal of the outpattern brings none
  (`putAll_ok`). domap returns, with no access out of place, just if the patterns are passed and
  there is room (`returns_iff`).

  As built, `a_literal_in_brackets_hangs`: a literal in brackets is not passed, since the `else`
  that was to store its characters belongs to the test of a variable.
-/

import Mathlib.Algebra.GroupWithZero.Nat
import Netutils.Ftp.DomapRun

namespace Netutils.Ftp.Domap

open Netutils.Arpa Netutils.Lib.Machine Netutils.Libc

variable {env : Env} {b b' : Buf} {o : Option (List Copy × Bool)} {r : Result} {e : Copy} {es : List Copy}

/-! ## Room for all of it -/

/-- The room all of them take. -/
def weights (es : List Copy) : Nat := (es.map Copy.weight).sum

/-- What they come to. -/
def texts (es : List Copy) : List UInt8 := es.flatMap Copy.text'

/-- cp1 points into the buffer, at the end of the text. -/
structure Buf.Sound (b : Buf) : Prop where
  here : b.moved = false
  within : b.text.length ≤ b.len

theorem put_ok {c : UInt8} (hb : b.moved = false) :
    b.put c = .ok b' ↔ b.text.length < b.len ∧ b' = { b with text := b.text ++ [c] } := by
  rw [Buf.put]
  by_cases hlt : b.text.length < b.len
  · rw [if_pos ⟨hb, hlt⟩]
    exact ⟨fun h => ⟨hlt, (Except.ok.inj h).symm⟩, fun h => congrArg Except.ok h.2.symm⟩
  · rw [if_neg fun h => hlt h.2]
    refine ⟨fun h => ?_, fun h => absurd h.1 hlt⟩
    cases h

theorem copy_ok {src : List UInt8} (hb : b.Sound) :
    b.copy src = .ok b' ↔ b.text.length + src.length ≤ b.len ∧ b' = { b with text := b.text ++ src } := by
  induction src generalizing b with
  | nil =>
    rw [Buf.copy, List.append_nil]
    exact ⟨fun h => ⟨hb.within, (Except.ok.inj h).symm⟩, fun h => congrArg Except.ok h.2.symm⟩
  | cons c src ih =>
    have hlen : (c :: src).length = src.length + 1 := rfl
    have hlen' : (b.text ++ [c]).length = b.text.length + 1 := List.length_append
    have hsound : b.text.length < b.len → Buf.Sound { b with text := b.text ++ [c] } :=
      fun hlt => ⟨hb.here, by rw [hlen']; exact hlt⟩
    rw [Buf.copy, bind_eq_ok]
    constructor
    · intro h
      obtain ⟨b₁, hput, hcopy⟩ := h
      obtain ⟨hlt, rfl⟩ := (put_ok hb.here).mp hput
      obtain ⟨hle, rfl⟩ := (ih (hsound hlt)).mp hcopy
      refine ⟨?_, by rw [List.append_assoc, List.singleton_append]⟩
      dsimp only at hle
      omega
    · intro h
      obtain ⟨hle, rfl⟩ := h
      have hlt : b.text.length < b.len := by omega
      refine ⟨_, (put_ok hb.here).mpr ⟨hlt, rfl⟩, (ih (hsound hlt)).mpr ⟨?_, ?_⟩⟩
      · dsimp only
        omega
      · rw [List.append_assoc, List.singleton_append]

/-- A text of more than two characters needs two of the room there was, and the buffer where it
    was. -/
theorem subst_ok {src : List UInt8} (hb : b.Sound) :
    b.subst env src = .ok b' ↔
      b.text.length + min 2 src.length ≤ b.len ∧ (2 < src.length → env.moves b.calls = false) ∧
        b' = ⟨b.text ++ src, b.len + (src.length - 2), false, b.calls + if 2 < src.length then 1 else 0⟩ := by
  rw [Buf.subst]
  by_cases hlong : 2 < src.length
  · rw [if_pos hlong, if_pos hlong, hb.here, Bool.false_or]
    cases hmoves : env.moves b.calls with
    | true =>
      obtain ⟨c, t, rfl⟩ := List.exists_cons_of_length_pos (Nat.zero_lt_of_lt hlong)
      refine ⟨fun h => ?_, fun h => absurd (h.2.1 hlong) (by decide)⟩
      obtain ⟨b₁, hput, -⟩ := bind_eq_ok.mp h
      rw [Buf.put, if_neg fun h => Bool.false_ne_true h.1.symm] at hput
      cases hput
    | false =>
      have hsound : Buf.Sound ⟨b.text, b.len + (src.length - 2), false, b.calls + 1⟩ :=
        ⟨rfl, Nat.le_add_right_of_le hb.within⟩
      rw [copy_ok hsound]
      refine ⟨fun h => ⟨?_, fun _ => rfl, h.2⟩, fun h => ⟨?_, h.2.2⟩⟩
      · have hle := h.1
        dsimp only at hle
        omega
      · have hle := h.1
        dsimp only
        omega
  · rw [if_neg hlong, if_neg hlong, copy_ok hb, Nat.min_eq_right (Nat.le_of_not_lt hlong),
      Nat.sub_eq_zero_of_le (Nat.le_of_not_lt hlong), ← hb.here]
    exact ⟨fun h => ⟨h.1, fun hlt => absurd hlt hlong, h.2⟩, fun h => ⟨h.1, h.2.2⟩⟩

/-- The buffer behind what is copied. -/
def Buf.after (b : Buf) (es : List Copy) : Buf :=
  ⟨b.text ++ texts es, b.len + (texts es).length - weights es, false, b.calls + es.countP Copy.grows⟩

theorem weight_le (e : Copy) : e.weight ≤ e.text'.length := by
  cases e with
  | char c => exact Nat.le_refl 1
  | text t => exact Nat.min_le_right ..

theorem weights_le (es : List Copy) : weights es ≤ (texts es).length := by
  induction es with
  | nil => exact Nat.le_refl 0
  | cons e es ih =>
    rw [weights, texts, List.map_cons, List.sum_cons, List.flatMap_cons, List.length_append]
    exact Nat.add_le_add (weight_le e) ih

theorem into_ok (hb : b.Sound) :
    e.into env b = .ok b' ↔
      b.text.length + e.weight ≤ b.len ∧ (e.grows = true → env.moves b.calls = false) ∧ b' = b.after [e] := by
  have hafter : b.after [e] =
      ⟨b.text ++ e.text', b.len + e.text'.length - e.weight, false, b.calls + [e].countP Copy.grows⟩ := by
    rw [Buf.after, texts, weights, List.flatMap_singleton, List.map_singleton, List.sum_singleton]
  rw [hafter]
  cases e with
  | char c =>
    rw [Copy.into, put_ok hb.here, ← hb.here]
    exact ⟨fun h => ⟨h.1, fun hgrows => absurd hgrows Bool.false_ne_true, h.2⟩, fun h => ⟨h.1, h.2.2⟩⟩
  | text t =>
    have hlen : b.len + t.length - min 2 t.length = b.len + (t.length - 2) := by omega
    have hcount : [Copy.text t].countP Copy.grows = if 2 < t.length then 1 else 0 := by
      rw [List.countP_singleton, Copy.grows]
      simp only [decide_eq_true_eq]
    rw [Copy.into, subst_ok hb, Copy.weight, Copy.text', Copy.grows, decide_eq_true_eq, hlen, hcount]

/-- What is copied takes its weights of the room. -/
theorem room_after (b : Buf) (es : List Copy) (k : Nat) :
    (b.after es).text.length + k ≤ (b.after es).len ↔ b.text.length + weights es + k ≤ b.len := by
  have hweights := weights_le es
  rw [Buf.after, List.length_append]
  dsimp only
  omega

theorem sound_after (es : List Copy) (hle : b.text.length + weights es ≤ b.len) : (b.after es).Sound :=
  ⟨rfl, (room_after b es 0).mpr hle⟩

theorem texts_cons (e : Copy) (es : List Copy) : texts (e :: es) = texts [e] ++ texts es := by
  rw [texts, texts, texts, List.flatMap_cons, List.flatMap_singleton]

theorem after_after : (b.after [e]).after es = b.after (e :: es) := by
  have hone := weights_le [e]
  have hrest := weights_le es
  have hweights : weights (e :: es) = weights [e] + weights es := rfl
  have hlen : (texts (e :: es)).length = (texts [e]).length + (texts es).length := by
    rw [texts_cons, List.length_append]
  rw [Buf.after, Buf.mk.injEq]
  refine ⟨?_, ?_, rfl, ?_⟩
  · exact (List.append_assoc ..).trans (congrArg (b.text ++ ·) (texts_cons e es).symm)
  · dsimp only [Buf.after]
    rw [hweights, hlen]
    omega
  · dsimp only [Buf.after]
    rw [Nat.add_assoc, ← List.countP_append, List.singleton_append]

/-- The calls of realloc in what is copied are those of the first and then those of the rest. -/
theorem moves_cons {k : Nat} :
    (∀ i < (e :: es).countP Copy.grows, env.moves (k + i) = false) ↔
      (e.grows = true → env.moves k = false) ∧
        ∀ i < es.countP Copy.grows, env.moves (k + [e].countP Copy.grows + i) = false := by
  rw [List.countP_singleton]
  cases hgrows : e.grows with
  | false =>
    rw [List.countP_cons_of_neg (by rw [hgrows]; exact Bool.false_ne_true)]
    exact ⟨fun h => ⟨fun hf => absurd hf Bool.false_ne_true, h⟩, fun h => h.2⟩
  | true =>
    rw [List.countP_cons_of_pos hgrows, if_pos rfl]
    constructor
    · intro h
      refine ⟨fun _ => h 0 (Nat.succ_pos _), fun i hi => ?_⟩
      rw [Nat.add_right_comm, Nat.add_assoc]
      exact h (i + 1) (Nat.succ_lt_succ hi)
    · intro h i hi
      obtain ⟨hfirst, hrest⟩ := h
      cases i with
      | zero => exact hfirst rfl
      | succ i =>
        rw [← Nat.add_assoc, Nat.add_right_comm]
        exact hrest i (Nat.lt_of_succ_lt_succ hi)

/-- All of it is copied: there is room for the weights, and the buffer stays where it is. -/
theorem putAll_ok (hb : b.Sound) :
    putAll env es b = .ok b' ↔
      b.text.length + weights es ≤ b.len ∧ (∀ i < es.countP Copy.grows, env.moves (b.calls + i) = false) ∧
        b' = b.after es := by
  induction es generalizing b with
  | nil =>
    have hafter : b.after [] = b := by
      rw [Buf.after, texts, weights, List.flatMap_nil, List.append_nil, ← hb.here]
      rfl
    rw [putAll, hafter]
    exact ⟨fun h => ⟨hb.within, fun i hi => absurd hi (Nat.not_lt_zero i), (Except.ok.inj h).symm⟩,
      fun h => congrArg Except.ok h.2.2.symm⟩
  | cons e es ih =>
    have hweights : weights (e :: es) = weights [e] + weights es := rfl
    have hone : e.weight = weights [e] := rfl
    rw [putAll, bind_eq_ok, moves_cons]
    constructor
    · intro h
      obtain ⟨b₁, hinto, hput⟩ := h
      obtain ⟨hroom, hmoves, rfl⟩ := (into_ok hb).mp hinto
      obtain ⟨hrest, hmoves', rfl⟩ := (ih (sound_after [e] hroom)).mp hput
      refine ⟨?_, ⟨hmoves, hmoves'⟩, after_after⟩
      have hle := (room_after b [e] _).mp hrest
      rwa [Nat.add_assoc, ← hweights] at hle
    · intro h
      obtain ⟨hroom, hmoves, rfl⟩ := h
      have hroom' : b.text.length + e.weight ≤ b.len := by omega
      refine ⟨b.after [e], (into_ok hb).mpr ⟨hroom', hmoves.1, rfl⟩,
        (ih (sound_after [e] hroom')).mpr ⟨(room_after b [e] _).mpr ?_, hmoves.2, after_after.symm⟩⟩
      rwa [Nat.add_assoc, ← hweights]

/-! ## domap as a whole -/

/-- The buffer as domap gets it. -/
def Buf.first (env : Env) : Buf := ⟨[], env.name.length + 1, false, 0⟩

/-- What domap returns and prints, for what is copied. -/
def resultOf (name : List UInt8) (es : List Copy) (balanced : Bool) : Result :=
  if balanced = true then ⟨if texts es = [] then name else texts es, []⟩ else ⟨name, unbalanced⟩

/-- There is room for all of it in the buffer for this name, and each realloc leaves it where it is. -/
def HasRoom (env : Env) (es : List Copy) (balanced : Bool) : Prop :=
  weights es + (if balanced = true then 1 else 0) ≤ env.name.length + 1 ∧
    ∀ i < es.countP Copy.grows, env.moves i = false

theorem length_le_room (hroom : weights es ≤ env.name.length + 1) :
    (Buf.first env).text.length + weights es ≤ (Buf.first env).len := by
  rwa [Buf.first, List.length_nil, Nat.zero_add]

theorem finish_after (hroom : weights es ≤ env.name.length) :
    ((Buf.first env).after es).finish env = .ok ⟨if texts es = [] then env.name else texts es, []⟩ := by
  have hlen : (Buf.first env).text.length + weights es ≤ (Buf.first env).len := length_le_room (by omega)
  have hput : ((Buf.first env).after es).put NUL =
      .ok { (Buf.first env).after es with text := ((Buf.first env).after es).text ++ [NUL] } := by
    refine (put_ok rfl).mpr ⟨(room_after _ _ 1).mpr ?_, rfl⟩
    rw [Buf.first, List.length_nil]
    dsimp only
    omega
  have htext : ((Buf.first env).after es).text = texts es := rfl
  rw [Buf.finish, hput, ok_bind, htext]
  by_cases hempty : texts es = []
  · have hcopy : ((Buf.first env).after es).copy (env.name ++ [NUL]) = .ok { (Buf.first env).after es with
        text := ((Buf.first env).after es).text ++ (env.name ++ [NUL]) } := by
      refine (copy_ok (sound_after es hlen)).mpr ⟨?_, rfl⟩
      rw [htext, hempty, List.length_nil, Nat.zero_add, List.length_append]
      have hweights := weights_le es
      rw [hempty] at hweights
      rw [Buf.after, hempty, Nat.le_zero.mp hweights]
      exact Nat.le_refl _
    rw [if_pos hempty, if_pos hempty, hcopy, ok_bind]
  · rw [if_neg hempty, if_neg hempty]

theorem final_after {balanced : Bool} (hroom : weights es ≤ env.name.length + 1) :
    final env balanced ((Buf.first env).after es) = .ok r ↔
      weights es + (if balanced = true then 1 else 0) ≤ env.name.length + 1 ∧ r = resultOf env.name es balanced := by
  cases balanced with
  | false =>
    exact ⟨fun h => ⟨hroom, (Except.ok.inj h).symm⟩, fun h => congrArg Except.ok h.2.symm⟩
  | true =>
    rw [final, if_pos rfl, if_pos rfl, resultOf, if_pos rfl, Nat.add_le_add_iff_right]
    constructor
    · intro h
      have hlt : weights es ≤ env.name.length := by
        obtain ⟨b₁, hput, -⟩ := bind_eq_ok.mp h
        have hlt := (room_after _ _ 1).mp ((put_ok rfl).mp hput).1
        rw [Buf.first, List.length_nil] at hlt
        dsimp only at hlt
        omega
      rw [finish_after hlt] at h
      exact ⟨hlt, (Except.ok.inj h).symm⟩
    · intro h
      obtain ⟨hlt, rfl⟩ := h
      exact finish_after hlt

/-- domap returns just if there is room, and then with what was copied. -/
theorem done_first :
    Done env o (Buf.first env) r ↔
      ∃ es balanced, o = some (es, balanced) ∧ HasRoom env es balanced ∧ r = resultOf env.name es balanced := by
  have hsound : (Buf.first env).Sound := ⟨rfl, Nat.zero_le _⟩
  have hcalls : ∀ i, (Buf.first env).calls + i = i := Nat.zero_add
  constructor
  · intro h
    obtain ⟨es, balanced, b', rfl, hput, hfinal⟩ := h
    obtain ⟨hroom, hmoves, rfl⟩ := (putAll_ok hsound).mp hput
    simp only [hcalls] at hmoves
    rw [Buf.first, List.length_nil, Nat.zero_add] at hroom
    obtain ⟨hroom', rfl⟩ := (final_after hroom).mp hfinal
    exact ⟨es, balanced, rfl, ⟨hroom', hmoves⟩, rfl⟩
  · intro h
    obtain ⟨es, balanced, rfl, ⟨hroom, hmoves⟩, rfl⟩ := h
    have hweights : weights es ≤ env.name.length + 1 := Nat.le_trans (Nat.le_add_right ..) hroom
    refine ⟨es, balanced, _, rfl, (putAll_ok hsound).mpr ⟨length_le_room hweights, ?_, rfl⟩,
      (final_after hweights).mpr ⟨hroom, rfl⟩⟩
    simpa only [hcalls] using hmoves

/-- What domap returns for these strings, just if this: the inpattern sets no variable behind the
    arrays, the outpattern is gone through, and the buffer has room for what it copies. -/
theorem returns_domap (name mapin mapout : List UInt8) (moves : Nat → Bool) (r : Result) :
    (∃ n, domap n name mapin mapout moves = some (.ok r)) ↔
      ∃ toks es balanced, tokens (cstring mapin) (cstring name) 0 (fun _ => none) = some toks ∧
        outline (toks.source (cstring name)) .mapout (cstring mapout) = some (es, balanced) ∧
        HasRoom ⟨cstring name, cstring mapin, cstring mapout, moves⟩ es balanced ∧
        r = resultOf (cstring name) es balanced := by
  let env : Env := ⟨cstring name, cstring mapin, cstring mapout, moves⟩
  have hreturns : Returns (step env) (start env) r ↔
      Through env (tokens (cstring mapin) (cstring name) 0 fun _ => none) (Buf.first env) r :=
    returns_tokens (cstring_nul mapout) (cstring_nul name) (cstring_nul mapin)
      ⟨rfl, rfl, rfl, rfl, rfl, rfl, rfl, Nat.succ_pos _⟩
  refine hreturns.trans ?_
  constructor
  · intro h
    obtain ⟨toks, htoks, hdone⟩ := h
    obtain ⟨es, balanced, ho, hroom, hr⟩ := done_first.mp hdone
    exact ⟨toks, es, balanced, htoks, ho, hroom, hr⟩
  · intro h
    obtain ⟨toks, es, balanced, htoks, ho, hroom, hr⟩ := h
    exact ⟨toks, htoks, done_first.mpr ⟨es, balanced, ho, hroom, hr⟩⟩

/-- The inpattern sets no variable behind the arrays, the outpattern has in its brackets no literal
    or variable that is not passed, and the name's buffer has room for what it copies. -/
def Fits (name mapin mapout : List UInt8) (moves : Nat → Bool) : Prop :=
  ∃ toks es balanced, tokens (cstring mapin) (cstring name) 0 (fun _ => none) = some toks ∧
    outline (toks.source (cstring name)) .mapout (cstring mapout) = some (es, balanced) ∧
    HasRoom ⟨cstring name, cstring mapin, cstring mapout, moves⟩ es balanced

/-- domap returns, with no access out of place, just if all of it fits. -/
theorem returns_iff (name mapin mapout : List UInt8) (moves : Nat → Bool) :
    (∃ n r, domap n name mapin mapout moves = some (.ok r)) ↔ Fits name mapin mapout moves := by
  constructor
  · intro h
    obtain ⟨n, r, h⟩ := h
    obtain ⟨toks, es, balanced, htoks, ho, hroom, -⟩ := (returns_domap name mapin mapout moves r).mp ⟨n, h⟩
    exact ⟨toks, es, balanced, htoks, ho, hroom⟩
  · intro h
    obtain ⟨toks, es, balanced, htoks, ho, hroom⟩ := h
    obtain ⟨n, h⟩ := (returns_domap name mapin mapout moves _).mpr ⟨toks, es, balanced, htoks, ho, hroom, rfl⟩
    exact ⟨n, _, h⟩

/-- The outpattern `[a]` is not passed. -/
theorem a_literal_in_brackets_hangs :
    ¬ ∃ n r, domap n [0x61] [] [OPEN, 0x61, CLOSE] (fun _ => false) = some (.ok r) := by
  intro h
  obtain ⟨n, r, h⟩ := h
  let env : Env := ⟨[0x61], [], [OPEN, 0x61, CLOSE], fun _ => false⟩
  let s : State := { start env with pc := .literal, cp2 := [0x61, CLOSE, NUL], matched := false }
  have hmapin : step env (start env) =
      .ok (.inl { start env with pc := .mapout, cp2 := [OPEN, 0x61, CLOSE, NUL] }) := rfl
  have hopen : step env { start env with pc := .mapout, cp2 := [OPEN, 0x61, CLOSE, NUL] } =
      .ok (.inl { start env with pc := .bracket, cp2 := [OPEN, 0x61, CLOSE, NUL], matched := false }) := rfl
  have hloop : step env { start env with pc := .bracket, cp2 := [OPEN, 0x61, CLOSE, NUL], matched := false } =
      .ok (.inl s) := rfl
  have hs : step env s = .ok (.inl s) := rfl
  have hreturns : Returns (step env) (start env) r := ⟨n, h⟩
  rw [returns_inl hmapin, returns_inl hopen, returns_inl hloop] at hreturns
  exact not_returns_loop hs hreturns

example : domap 9 [0x61] [] [0x62, 0x63] (fun _ => false) = some (.error .buffer) := rfl

example : domap 9 [0x61] [DOLLAR, 0x3a] [] (fun _ => false) = some (.error .toks) := rfl

end Netutils.Ftp.Domap
