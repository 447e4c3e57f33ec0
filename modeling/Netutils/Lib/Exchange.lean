/-
  Netutils.Lib.Exchange — a party that answers a message item by item: what a message's
  answers weigh, and what becomes of one key where items and state are kept apart by key.
-/

import Mathlib.Algebra.GroupWithZero.Nat
import Mathlib.Data.List.Basic
import Mathlib.Logic.Function.Basic

namespace Netutils.Lib.Exchange

/-- The items are answered in turn, each in the state that those before it left. -/
def converse {σ τ υ : Type} (respond : σ → τ → σ × List υ) : σ → List τ → σ × List υ
  | s, [] => (s, [])
  | s, x :: l =>
    let r := respond s x
    let rest := converse respond r.1 l
    (rest.1, r.2 ++ rest.2)

/-! ## Weights -/

section Weight

variable {σ τ υ : Type} {respond : σ → τ → σ × List υ}

/-- What is so before a message, and kept by each item, is so after it. -/
theorem converse_inv {P : σ → Prop} (h : ∀ s x, P s → P (respond s x).1) {s : σ} (hs : P s) (l : List τ) :
    P (converse respond s l).1 := by
  induction l generalizing s with
  | nil => exact hs
  | cons x l ih => exact ih (h s x hs)

/-- Where an item outweighs its answers, a message does, and by as much as it has items. -/
theorem converse_weight {P : σ → Prop} {w : τ → Nat} {w' : υ → Nat}
    (h : ∀ s x, P s → P (respond s x).1 ∧ ((respond s x).2.map w').sum < w x) {s : σ} (hs : P s) (l : List τ) :
    ((converse respond s l).2.map w').sum + l.length ≤ (l.map w).sum := by
  induction l generalizing s with
  | nil => exact Nat.le_refl _
  | cons x l ih =>
    obtain ⟨hp, hw⟩ := h s x hs
    have := ih hp
    simp only [converse, List.map_append, List.sum_append, List.map_cons, List.sum_cons, List.length_cons]
    omega

end Weight

/-! ## Keys -/

section Keyed

variable {κ ν ε ι ο : Type} [DecidableEq ν]

/-- The entry that the item's key stands for is changed, and the answer, if there is one, has
    that key. -/
def keyed (idx : κ → ν) (f : κ → ε → ι → ε × Option ο) (tab : ν → ε) (x : κ × ι) : (ν → ε) × List (κ × ο) :=
  (Function.update tab (idx x.1) (f x.1 (tab (idx x.1)) x.2).1, ((f x.1 (tab (idx x.1)) x.2).2.map (x.1, ·)).toList)

/-- A party that does so for the keys that `ok` allows. -/
def IsKeyed (idx : κ → ν) (f : κ → ε → ι → ε × Option ο) (ok : κ → Prop)
    (respond : (ν → ε) → κ × ι → (ν → ε) × List (κ × ο)) : Prop :=
  ∀ tab x, ok x.1 → respond tab x = keyed idx f tab x

variable {idx : κ → ν} {f : κ → ε → ι → ε × Option ο} {ok : κ → Prop}
  {respond : (ν → ε) → κ × ι → (ν → ε) × List (κ × ο)} {tab : ν → ε} {l : List (κ × ι)}

theorem isKeyed_keyed : IsKeyed idx f (fun _ => True) (keyed idx f) := fun _ _ _ => rfl

/-- The answers come under the keys of the message, each at most as often as there. -/
theorem keys_converse (hr : IsKeyed idx f ok respond) (hl : ∀ x ∈ l, ok x.1) :
    List.Sublist ((converse respond tab l).2.map Prod.fst) (l.map Prod.fst) := by
  induction l generalizing tab with
  | nil => exact List.Sublist.slnil
  | cons x l ih =>
    have hrest := @ih (respond tab x).1 fun y hy => hl y (List.mem_cons_of_mem _ hy)
    simp only [converse, List.map_append, List.map_cons]
    rw [hr tab x (hl x List.mem_cons_self)] at hrest ⊢
    unfold keyed
    rcases (f x.1 (tab (idx x.1)) x.2).2 with _ | y
    · exact hrest.cons x.1
    · exact hrest.cons_cons x.1

/-- A party that goes through its table on its own. -/
def sweep (idx : κ → ν) (g : κ → ε → ε × Option ο) (tab : ν → ε) (ks : List κ) : (ν → ε) × List (κ × ο) :=
  converse (keyed idx fun k e (_ : Unit) => g k e) tab (ks.map (·, ()))

theorem sweep_cons (g : κ → ε → ε × Option ο) (tab : ν → ε) (k : κ) (ks : List κ) :
    sweep idx g tab (k :: ks) =
      let r := g k (tab (idx k))
      let rest := sweep idx g (Function.update tab (idx k) r.1) ks
      (rest.1, (r.2.map (k, ·)).toList ++ rest.2) := rfl

theorem map_keys (ks : List κ) : (ks.map (·, ())).map Prod.fst = ks := by
  rw [List.map_map]
  exact List.map_id ks

theorem keys_sweep {g : κ → ε → ε × Option ο} {ks : List κ} : List.Sublist ((sweep idx g tab ks).2.map Prod.fst) ks := by
  have hkeyed : IsKeyed idx (fun k e (_ : Unit) => g k e) (fun _ => True) (keyed idx fun k e _ => g k e) := isKeyed_keyed
  have h : List.Sublist ((sweep idx g tab ks).2.map Prod.fst) ((ks.map (·, ())).map Prod.fst) :=
    keys_converse hkeyed fun _ _ => trivial
  rwa [map_keys] at h

variable [DecidableEq κ]

/-- In a message that has no key twice each key is dealt with by itself. -/
theorem lookup_converse (hi : Function.Injective idx) (hr : IsKeyed idx f ok respond) (hl : ∀ x ∈ l, ok x.1)
    (hn : (l.map Prod.fst).Nodup) (tab : ν → ε) (k : κ) :
    (converse respond tab l).1 (idx k) = ((l.lookup k).map fun i => (f k (tab (idx k)) i).1).getD (tab (idx k)) ∧
      (converse respond tab l).2.lookup k = (l.lookup k).bind fun i => (f k (tab (idx k)) i).2 := by
  induction l generalizing tab with
  | nil => exact ⟨rfl, rfl⟩
  | cons x l ih =>
    obtain ⟨j, i⟩ := x
    obtain ⟨hj, hn⟩ := List.nodup_cons.mp hn
    have hl' : ∀ y ∈ l, ok y.1 := fun y hy => hl y (List.mem_cons_of_mem _ hy)
    have hone := hr tab (j, i) (hl _ List.mem_cons_self)
    obtain ⟨h1, h2⟩ := ih hl' hn (respond tab (j, i)).1
    simp only [converse]
    rw [hone] at h1 h2 ⊢
    simp only [keyed] at h1 h2 ⊢
    by_cases hk : k = j
    · -- the key of the first item does not come again, neither here nor in the answers
      subst hk
      have hno : l.lookup k = none := by
        rw [List.lookup_eq_none_iff]
        intro y hy
        have : y.1 ≠ k := fun he => hj (List.mem_map.mpr ⟨y, hy, he⟩)
        simpa using Ne.symm this
      rw [hno] at h1 h2
      simp only [Option.map_none, Option.getD_none, Option.bind_none] at h1 h2
      simp only [List.lookup_cons_self, Option.map_some, Option.getD_some, Option.bind_some]
      rw [h1, Function.update_self]
      refine ⟨rfl, ?_⟩
      rcases hf : (f k (tab (idx k)) i).2 with _ | y
      · simpa [hf] using h2
      · simp
    · have hne : (k == j) = false := by simpa using hk
      have hidx : idx k ≠ idx j := fun he => hk (hi he)
      have hsame : Function.update tab (idx j) (f j (tab (idx j)) i).1 (idx k) = tab (idx k) :=
        Function.update_of_ne hidx _ _
      have hskip : ∀ m, (((f j (tab (idx j)) i).2.map (j, ·)).toList ++ m).lookup k = m.lookup k := by
        intro m
        rcases (f j (tab (idx j)) i).2 with _ | y
        · rfl
        · simp [List.lookup_cons, hne]
      rw [hsame] at h1 h2
      simp only [List.lookup_cons, hne]
      rw [hskip]
      exact ⟨h1, h2⟩

theorem lookup_keys (ks : List κ) (k : κ) : (ks.map (·, ())).lookup k = if k ∈ ks then some () else none := by
  induction ks with
  | nil => rfl
  | cons j ks ih =>
    rw [List.map_cons, List.lookup_cons, ih]
    by_cases hk : k = j
    · simp [hk]
    · have : (k == j) = false := by simpa using hk
      simp [this, hk]

theorem lookup_sweep (hi : Function.Injective idx) {g : κ → ε → ε × Option ο} {ks : List κ} (hn : ks.Nodup) {k : κ}
    (hk : k ∈ ks) : (sweep idx g tab ks).1 (idx k) = (g k (tab (idx k))).1 ∧
      (sweep idx g tab ks).2.lookup k = (g k (tab (idx k))).2 := by
  have hkeyed : IsKeyed idx (fun k e (_ : Unit) => g k e) (fun _ => True) (keyed idx fun k e _ => g k e) := isKeyed_keyed
  have hmap : ((ks.map (·, ())).map Prod.fst).Nodup := by rwa [map_keys]
  obtain ⟨h1, h2⟩ := lookup_converse hi hkeyed (fun _ _ => trivial) hmap tab k
  rw [lookup_keys, if_pos hk] at h1 h2
  exact ⟨h1, h2⟩

end Keyed

end Netutils.Lib.Exchange
