/-
  Netutils.Lib.Feedback — the feedback modes of a block function `E` (CFB, OFB), and the
  register machine that computes them item by item: an output block, a feed block and an
  index into them, at whose end the feed is made anew.

  Whatever position of the text the register is ready for (`Ready`), it masks the next
  item with the key stream of the mode and is ready for the next; stepping its index back
  after an item makes it ready for that item again. So a text may come in any pieces, and
  a decoder may look one item ahead.
-/

import Mathlib.Algebra.GroupWithZero.Nat
import Mathlib.Data.List.Basic
import Mathlib.Data.Nat.Basic
import Netutils.Lib.Transition

namespace Netutils.Lib.Feedback

open Netutils.Lib.Transition

/-! ## The modes -/

inductive Mode where
  | cfb
  | ofb
  deriving DecidableEq

variable {β : Type} [XorOp β] [Inhabited β] {w : Nat} [NeZero w]

/-- The `n`th block of the text. -/
def block (d : List β) (n : Nat) : Vector β w := Vector.ofFn fun j => d.getD (w * n + j) default

/-- The key stream: `V 0 = E iv`, and `V (n + 1)` is `E` of the `n`th block that was put out
    (CFB) or of `V n` (OFB). -/
def keystream (mode : Mode) (E : Vector β w → Vector β w) (iv : Vector β w) (d : List β) : Nat → Vector β w
  | 0 => E iv
  | n + 1 =>
    match mode with
    | .cfb => E ((block d n).zipWith (· ^^^ ·) (keystream mode E iv d n))
    | .ofb => E (keystream mode E iv d n)

/-- The item of the key stream at a position of the text. -/
def maskAt (V : Nat → Vector β w) (i : Nat) : β := (V (i / w))[Fin.ofNat w i]

/-- The text in the mode: `O n = D n ^^^ V n`, the last block as long as the text. -/
def encode (mode : Mode) (E : Vector β w → Vector β w) (iv : Vector β w) (d : List β) : List β :=
  d.mapIdx fun i x => x ^^^ maskAt (keystream mode E iv d) i

/-! ## The register -/

structure Register (β : Type) (w : Nat) where
  out : Vector β w
  feed : Vector β w
  index : Fin (w + 1)

namespace Register

/-- The block that the mode feeds back. -/
def source (mode : Mode) (r : Register β w) : Vector β w :=
  match mode with
  | .cfb => r.out
  | .ofb => r.feed

/-- The feed and the index for the next item. -/
def turn (mode : Mode) (E : Vector β w → Vector β w) (r : Register β w) : Vector β w × Fin w :=
  if h : r.index.val < w then (r.feed, ⟨r.index, h⟩) else (E (r.source mode), 0)

def mask (mode : Mode) (E : Vector β w → Vector β w) (r : Register β w) : β :=
  (r.turn mode E).1[(r.turn mode E).2]

/-- The register behind the item whose coded form is `c`. -/
def absorb (mode : Mode) (E : Vector β w → Vector β w) (r : Register β w) (c : β) : Register β w where
  out := match mode with
    | .cfb => r.out.set (r.turn mode E).2 c
    | .ofb => r.out
  feed := (r.turn mode E).1
  index := (r.turn mode E).2.succ

def back (r : Register β w) : Register β w := { r with index := ⟨r.index - 1, by omega⟩ }

/-- Codes a run of items. -/
def code (mode : Mode) (E : Vector β w → Vector β w) : Register β w → List β → List β × Register β w
  | r, [] => ([], r)
  | r, x :: l =>
    let c := x ^^^ r.mask mode E
    ((c :: (code mode E (r.absorb mode E c) l).1), (code mode E (r.absorb mode E c) l).2)

end Register

/-! ## What the register holds -/

section Ready

variable {mode : Mode} {E : Vector β w → Vector β w} {V : Nat → Vector β w} {c : Nat → β}

/-- `V` is a key stream of the mode for the text whose coded form is `c`. -/
def Follows (mode : Mode) (E : Vector β w → Vector β w) (V : Nat → Vector β w) (c : Nat → β) : Prop :=
  ∀ n, V (n + 1) = E (match mode with
    | .cfb => Vector.ofFn fun j => c (w * n + j)
    | .ofb => V n)

/-- The register is ready for the item at position `n`: all is before it, or the feed is
    the block of the item before `n` and the coded items of that block are put out. -/
def Ready (mode : Mode) (E : Vector β w → Vector β w) (V : Nat → Vector β w) (c : Nat → β) (n : Nat)
    (r : Register β w) : Prop :=
  (n = 0 ∧ r.index.val = w ∧ V 0 = E (r.source mode)) ∨
  ∃ m, n = w * m + r.index.val ∧ r.feed = V m ∧
    (mode = .cfb → ∀ j : Fin w, j.val < r.index.val → r.out[j] = c (w * m + j))

omit [XorOp β] [Inhabited β] in
theorem turn_of_ready (hV : Follows mode E V c) {n : Nat} {r : Register β w} (h : Ready mode E V c n r) :
    r.turn mode E = (V (n / w), Fin.ofNat w n) ∧
      (mode = .cfb → ∀ j : Fin w, j.val < n % w → r.out[j] = c (w * (n / w) + j)) := by
  have hw : 0 < w := Nat.pos_of_ne_zero (NeZero.ne w)
  unfold Register.turn
  rcases h with ⟨rfl, hi, h0⟩ | ⟨m, hn, hf, ho⟩
  · rw [dif_neg (by omega), ← h0]
    refine ⟨by rw [Nat.zero_div]; rfl, ?_⟩
    intro _ j hj
    simp at hj
  · by_cases hi : r.index.val < w
    · have hd : n / w = m := by rw [hn, Nat.mul_add_div hw, Nat.div_eq_of_lt hi, Nat.add_zero]
      have hm : n % w = r.index.val := by rw [hn, Nat.mul_add_mod, Nat.mod_eq_of_lt hi]
      rw [dif_pos hi, hf, hd]
      refine ⟨Prod.ext rfl (Fin.ext hm.symm), ?_⟩
      intro hc j hj
      exact ho hc j (by omega)
    · -- the block is full: the feed is made anew
      have hiw : r.index.val = w := by have := r.index.isLt; omega
      have hn' : n = w * (m + 1) := by rw [hn, hiw, Nat.mul_succ]
      have hd : n / w = m + 1 := by rw [hn', Nat.mul_div_cancel_left _ hw]
      have hm : n % w = 0 := by rw [hn', Nat.mul_mod_right]
      have hsrc : E (r.source mode) = V (m + 1) := by
        rw [hV m]
        cases mode with
        | cfb =>
          refine congrArg E (Vector.ext ?_)
          intro j hj
          rw [Vector.getElem_ofFn]
          exact ho rfl ⟨j, hj⟩ (by rw [hiw]; exact hj)
        | ofb => exact congrArg E hf
      rw [dif_neg hi, hsrc, hd]
      refine ⟨Prod.ext rfl (Fin.ext hm.symm), ?_⟩
      intro _ j hj
      omega

omit [XorOp β] [Inhabited β] in
/-- A ready register masks with the item of the key stream. -/
theorem mask_of_ready (hV : Follows mode E V c) {n : Nat} {r : Register β w} (h : Ready mode E V c n r) :
    r.mask mode E = maskAt V n := by
  simp only [Register.mask, maskAt, (turn_of_ready hV h).1]

omit [XorOp β] [Inhabited β] in
/-- Behind its item it is ready for the next one and, stepped back, for the same one. -/
theorem ready_absorb (hV : Follows mode E V c) {n : Nat} {r : Register β w} (h : Ready mode E V c n r) :
    Ready mode E V c (n + 1) (r.absorb mode E (c n)) ∧ Ready mode E V c n (r.absorb mode E (c n)).back := by
  obtain ⟨ht, ho⟩ := turn_of_ready hV h
  have hn : w * (n / w) + n % w = n := Nat.div_add_mod n w
  have hout : ∀ j : Fin w, mode = .cfb → j.val < n % w + 1 →
      (r.absorb mode E (c n)).out[j] = c (w * (n / w) + j) := by
    intro j hc hj
    subst hc
    simp only [Register.absorb, ht]
    by_cases hjn : j.val = n % w
    · have hnj : (Fin.ofNat w n).val = j.val := hjn.symm
      simp only [Fin.getElem_fin, Vector.getElem_set, hnj, if_true]
      rw [hjn, hn]
    · have hnj : (Fin.ofNat w n).val ≠ j.val := fun e => hjn e.symm
      simp only [Fin.getElem_fin, Vector.getElem_set, hnj, if_false]
      exact ho rfl j (by omega)
  have hidx : (r.absorb mode E (c n)).index.val = n % w + 1 := by
    simp [Register.absorb, ht]
  have hfeed : (r.absorb mode E (c n)).feed = V (n / w) := by
    simp [Register.absorb, ht]
  constructor
  · refine Or.inr ⟨n / w, by rw [hidx]; omega, hfeed, ?_⟩
    intro hc j hj
    exact hout j hc (by omega)
  · have hback : (r.absorb mode E (c n)).back.index.val = n % w := by
      simp [Register.back, hidx]
    refine Or.inr ⟨n / w, by rw [hback]; omega, hfeed, ?_⟩
    intro hc j hj
    exact hout j hc (by omega)

end Ready

/-! ## A text in the mode -/

section Text

variable {mode : Mode} {E : Vector β w → Vector β w}

/-- The coded item at a position, behind the end of the text too. -/
def codedAt (mode : Mode) (E : Vector β w → Vector β w) (iv : Vector β w) (d : List β) (i : Nat) : β :=
  d.getD i default ^^^ maskAt (keystream mode E iv d) i

theorem follows_keystream (iv : Vector β w) (d : List β) :
    Follows mode E (keystream mode E iv d) (codedAt mode E iv d) := by
  intro n
  cases mode with
  | ofb => rfl
  | cfb =>
    refine congrArg E (Vector.ext ?_)
    intro j hj
    have hw : 0 < w := Nat.pos_of_ne_zero (NeZero.ne w)
    have hd : (w * n + j) / w = n := by rw [Nat.mul_add_div hw, Nat.div_eq_of_lt hj, Nat.add_zero]
    have hm : Fin.ofNat w (w * n + j) = ⟨j, hj⟩ := Fin.ext (by simp [Nat.mod_eq_of_lt hj])
    simp only [Vector.getElem_zipWith, Vector.getElem_ofFn, block, codedAt, maskAt, hd, hm]
    rfl

theorem ready_start {r : Register β w} (h : r.index.val = w) (d : List β) :
    Ready mode E (keystream mode E (r.source mode) d) (codedAt mode E (r.source mode) d) 0 r :=
  Or.inl ⟨rfl, h, rfl⟩

theorem codedAt_of_getElem? {iv : Vector β w} {d : List β} {i : Nat} {x : β} (h : d[i]? = some x) :
    codedAt mode E iv d i = x ^^^ maskAt (keystream mode E iv d) i := by
  simp [codedAt, List.getD_eq_getElem?_getD, h]

omit [Inhabited β] in
theorem code_append (r : Register β w) (l l' : List β) :
    r.code mode E (l ++ l') =
      ((r.code mode E l).1 ++ ((r.code mode E l).2.code mode E l').1, ((r.code mode E l).2.code mode E l').2) := by
  induction l generalizing r with
  | nil => rfl
  | cons x l ih => simp [Register.code, ih]

/-- A register that is ready for a position of the text codes what is left of it. -/
theorem code_of_ready {iv : Vector β w} {d : List β} {n : Nat} {l : List β} (hl : d.drop n = l) {r : Register β w}
    (h : Ready mode E (keystream mode E iv d) (codedAt mode E iv d) n r) :
    (r.code mode E l).1 = l.mapIdx fun i x => x ^^^ maskAt (keystream mode E iv d) (n + i) := by
  induction l generalizing n r with
  | nil => rfl
  | cons x l ih =>
    have hx : d[n]? = some x := by
      have := congrArg List.head? hl
      rwa [List.head?_drop, List.head?_cons] at this
    have htail : d.drop (n + 1) = l := by
      have := congrArg List.tail hl
      rwa [List.tail_drop, List.tail_cons] at this
    have hF : Follows mode E _ _ := follows_keystream iv d
    have hm := mask_of_ready hF h
    have hnext := (ready_absorb hF h).1
    rw [codedAt_of_getElem? hx] at hnext
    have hshift : (fun i (x : β) => x ^^^ maskAt (keystream mode E iv d) (n + 1 + i)) =
        fun i x => x ^^^ maskAt (keystream mode E iv d) (n + (i + 1)) := by
      funext i x
      rw [Nat.add_assoc, Nat.add_comm 1 i]
    simp only [Register.code, hm, ih htail hnext, List.mapIdx_cons, Nat.add_zero, hshift]

/-- A register at the end of its block codes a text in the mode. -/
theorem code_eq_encode {r : Register β w} (h : r.index.val = w) (d : List β) :
    (r.code mode E d).1 = encode mode E (r.source mode) d := by
  rw [code_of_ready (List.drop_zero) (ready_start h d)]
  simp [encode]

@[simp] theorem length_encode (iv : Vector β w) (d : List β) : (encode mode E iv d).length = d.length := by
  simp [encode]

/-- A ready register unmasks the next item of a coded text. -/
theorem unmask_of_ready (hx : ∀ a b : β, a ^^^ b ^^^ b = a) {iv : Vector β w} {d : List β} {n : Nat} {c : β}
    (hc : (encode mode E iv d)[n]? = some c) {r : Register β w}
    (h : Ready mode E (keystream mode E iv d) (codedAt mode E iv d) n r) :
    d[n]? = some (c ^^^ r.mask mode E) ∧
      Ready mode E (keystream mode E iv d) (codedAt mode E iv d) (n + 1) (r.absorb mode E c) ∧
      Ready mode E (keystream mode E iv d) (codedAt mode E iv d) n (r.absorb mode E c).back := by
  have hF : Follows mode E _ _ := follows_keystream iv d
  rw [encode, List.getElem?_mapIdx, Option.map_eq_some_iff] at hc
  obtain ⟨x, hd, hc⟩ := hc
  rw [mask_of_ready hF h, ← hc, hx, ← codedAt_of_getElem? hd]
  exact ⟨hd, ready_absorb hF h⟩

/-- Two initial blocks give the same text exactly where the first block of the key stream
    masks it the same. -/
theorem encode_ofb_eq_iff (hx : ∀ a b : β, a ^^^ (a ^^^ b) = b) (iv iv' : Vector β w) (d : List β) :
    encode .ofb E iv d = encode .ofb E iv' d ↔ ∀ j : Fin w, j.val < d.length → (E iv)[j] = (E iv')[j] := by
  have hcancel : ∀ a b c : β, a ^^^ b = a ^^^ c → b = c := by
    intro a b c h
    rw [← hx a b, h, hx]
  have hw : 0 < w := Nat.pos_of_ne_zero (NeZero.ne w)
  constructor
  · intro h j hj
    have hj' := congrArg (fun l : List β => l[j.val]?) h
    have hm : Fin.ofNat w j.val = j := Fin.ext (Nat.mod_eq_of_lt j.isLt)
    simp only [encode, List.getElem?_mapIdx, List.getElem?_eq_getElem hj, Option.map_some, Option.some.injEq, maskAt,
      Nat.div_eq_of_lt j.isLt, hm] at hj'
    exact hcancel _ _ _ hj'
  · intro h
    apply List.ext_getElem
    · simp
    intro i hi hi'
    have hlen : i < d.length := by simpa using hi
    simp only [encode, List.getElem_mapIdx, maskAt]
    by_cases hiw : i < w
    · have hm : Fin.ofNat w i = ⟨i, hiw⟩ := Fin.ext (Nat.mod_eq_of_lt hiw)
      simp only [Nat.div_eq_of_lt hiw, hm]
      exact congrArg (_ ^^^ ·) (h ⟨i, hiw⟩ hlen)
    · -- more than a block: the whole first block of the key stream is the same
      have h0 : E iv = E iv' := Vector.ext fun j hj => h ⟨j, hj⟩ (by show j < d.length; omega)
      have hall : ∀ n, keystream .ofb E iv d n = keystream .ofb E iv' d n := by
        intro n
        induction n with
        | zero => exact h0
        | succ n ih => exact congrArg E ih
      rw [hall]

end Text

/-! ## A reader that looks one item ahead -/

inductive Op where
  /-- Reads the next item. -/
  | next
  /-- Puts back the item just read. -/
  | back

/-- A reader with its state, the items that it has not read, the one it may put back, and
    what it made of those it has read. -/
structure Reader (σ γ δ : Type) where
  state : σ
  rest : List γ
  last : Option γ
  done : List δ

section Reader

variable {σ γ δ : Type}

/-- `read` with an item reads it, without one it puts the last one back. -/
def Reader.step (read : Option γ → σ → δ × σ) (op : Op) (t : Reader σ γ δ) : Option (Reader σ γ δ) :=
  match op, t.rest, t.last with
  | .next, c :: l, _ => some ⟨(read (some c) t.state).2, l, some c, t.done ++ [(read (some c) t.state).1]⟩
  | .back, l, some c => some ⟨(read none t.state).2, c :: l, none, t.done.dropLast⟩
  | _, _, _ => none

variable {read : Option γ → σ → δ × σ} {R : Nat → σ → Prop} {coded : List γ} {plain : List δ}

/-- The reader has read a part of the text, is ready for the rest and, where it may put an
    item back, for that item too. -/
structure Reads (read : Option γ → σ → δ × σ) (R : Nat → σ → Prop) (coded : List γ) (plain : List δ)
    (t : Reader σ γ δ) : Prop where
  done : t.done = plain.take t.done.length
  rest : t.rest = coded.drop t.done.length
  ready : R t.done.length t.state
  last : ∀ c ∈ t.last, ∃ n, t.done.length = n + 1 ∧ coded[n]? = some c ∧ R n (read none t.state).2

theorem reads_step
    (hread : ∀ n s c, R n s → coded[n]? = some c →
      plain[n]? = some (read (some c) s).1 ∧ R (n + 1) (read (some c) s).2 ∧ R n (read none (read (some c) s).2).2)
    (op : Op) (t u : Reader σ γ δ) (h : Reads read R coded plain t) (hs : t.step read op = some u) :
    Reads read R coded plain u := by
  obtain ⟨s, rest, last, done⟩ := t
  obtain ⟨hdone, hrest, hready, hlast⟩ := h
  simp only at hdone hrest hready hlast
  cases op with
  | next =>
    rcases rest with _ | ⟨c, l⟩
    · simp [Reader.step] at hs
    · simp only [Reader.step, Option.some.injEq] at hs
      subst hs
      have hc : coded[done.length]? = some c := by rw [← List.head?_drop, ← hrest]; rfl
      have hl : l = coded.drop (done.length + 1) := by rw [← List.tail_drop, ← hrest]; rfl
      obtain ⟨hx, hn, hb⟩ := hread _ _ _ hready hc
      refine ⟨?_, by simpa using hl, by simpa using hn, ?_⟩
      · rw [List.length_append, List.length_singleton, List.take_add_one, hx, ← hdone]
        rfl
      · intro c' hc'
        obtain rfl : c = c' := by simpa using hc'
        exact ⟨done.length, by simp, hc, hb⟩
  | back =>
    rcases last with _ | c
    · cases rest <;> simp [Reader.step] at hs
    · have hu : u = ⟨(read none s).2, c :: rest, none, done.dropLast⟩ := by
        cases rest <;> simp [Reader.step] at hs <;> exact hs.symm
      subst hu
      obtain ⟨n, hn, hc, hb⟩ := hlast c rfl
      have hlen : done.dropLast.length = n := by rw [List.length_dropLast, hn, Nat.add_sub_cancel]
      refine ⟨?_, ?_, by rw [hlen]; exact hb, by intro c' hc'; cases hc'⟩
      · rw [hlen, List.dropLast_eq_take, hn, Nat.add_sub_cancel]
        conv_lhs => rw [hdone, List.take_take]
        rw [hn, Nat.min_eq_left (Nat.le_succ n)]
      · obtain ⟨hlt, hget⟩ := List.getElem?_eq_some_iff.mp hc
        rw [hlen, hrest, hn, List.drop_eq_getElem_cons hlt, hget]

/-- The reader's rule: however a run goes back and forth, what it made of the items it has
    read is the text but for what is left to be read. -/
theorem reads_run
    (hread : ∀ n s c, R n s → coded[n]? = some c →
      plain[n]? = some (read (some c) s).1 ∧ R (n + 1) (read (some c) s).2 ∧ R n (read none (read (some c) s).2).2)
    (hlen : coded.length = plain.length) {s : σ} (hs : R 0 s) {ops : List Op} {t : Reader σ γ δ}
    (h : run (Reader.step read) ops ⟨s, coded, none, []⟩ = some t) :
    ∃ l, t.done ++ l = plain ∧ l.length = t.rest.length := by
  have h0 : Reads read R coded plain ⟨s, coded, none, []⟩ := ⟨rfl, rfl, hs, by intro c hc; cases hc⟩
  have ht := run_inv (reads_step hread) h0 h
  have hle : t.done.length ≤ plain.length := by
    have := congrArg List.length ht.done
    rw [List.length_take] at this
    omega
  refine ⟨plain.drop t.done.length, ?_, ?_⟩
  · conv_lhs => rw [ht.done]
    rw [List.length_take_of_le hle, List.take_append_drop]
  · rw [ht.rest, List.length_drop, List.length_drop, hlen]

end Reader

end Netutils.Lib.Feedback
