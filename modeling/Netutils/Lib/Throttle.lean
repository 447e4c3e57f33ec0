/-
  Netutils.Lib.Throttle — arrivals counted in a window that is begun anew only when the limit is
  reached after it has expired, and refused when it is reached before.

  A refusal comes at the arrival that reaches the limit in its window (`refused_since`). Of the
  arrivals no two of which are a window apart fewer than twice the limit are let in
  (`length_block_lt`), since no more than one window can begin among them.
-/

import Netutils.Lib.Transition

namespace Netutils.Lib.Throttle

open Transition

variable {τ : Type}

structure Window (τ : Type) where
  start : τ
  count : Nat

/-- One arrival, `none` if it is refused. No window is open in the beginning. -/
def arrive (limit : Nat) (expired : τ → τ → Bool) (now : τ) : Option (Window τ) → Option (Option (Window τ))
  | none => some (some ⟨now, 1⟩)
  | some w =>
    if w.count + 1 < limit then some (some ⟨w.start, w.count + 1⟩)
    else if expired w.start now then some (some ⟨now, 1⟩)
    else none

variable {limit : Nat} {expired : τ → τ → Bool} {l : List τ} {w : Window τ} {s t : Option (Window τ)} {now : τ}

/-! ## Refusals -/

/-- A window that is open holds the last so many arrivals. -/
def Holds (l : List τ) : Option (Window τ) → Prop
  | none => True
  | some w => ∃ before since, l = before ++ w.start :: since ∧ since.length + 1 = w.count

theorem arrive_cases (h : arrive limit expired now s = some t) :
    t = some ⟨now, 1⟩ ∨ ∃ w, s = some w ∧ w.count + 1 < limit ∧ t = some ⟨w.start, w.count + 1⟩ := by
  cases s with
  | none =>
    obtain rfl := Option.some.inj h
    exact .inl rfl
  | some w =>
    rw [arrive] at h
    split at h
    · rename_i hroom
      exact .inr ⟨w, rfl, hroom, (Option.some.inj h).symm⟩
    · split at h
      · exact .inl (Option.some.inj h).symm
      · cases h

theorem Holds.arrive (hs : Holds l s) (h : arrive limit expired now s = some t) : Holds (l ++ [now]) t := by
  rcases arrive_cases h with rfl | ⟨w, rfl, -, rfl⟩
  · exact ⟨l, [], rfl, rfl⟩
  · obtain ⟨before, since, rfl, hcount⟩ := hs
    refine ⟨before, since ++ [now], by simp, ?_⟩
    rw [List.length_append, List.length_singleton, hcount]

theorem holds_run {l' : List τ} (hs : Holds l s) (h : run (Throttle.arrive limit expired) l' s = some t) : Holds (l ++ l') t := by
  induction l' generalizing l s with
  | nil =>
    obtain rfl := Option.some.inj h
    rwa [List.append_nil]
  | cons now l' ih =>
    obtain ⟨u, hu, hrun⟩ := run_cons.mp h
    have hnext := ih (hs.arrive hu) hrun
    rwa [List.append_assoc, List.singleton_append] at hnext

/-- What is refused is the one too many since a moment that has not expired. -/
theorem refused_since (hrun : run (Throttle.arrive limit expired) l none = some s)
    (h : Throttle.arrive limit expired now s = none) :
    ∃ before start since, l = before ++ start :: since ∧ limit ≤ since.length + 2 ∧ expired start now = false := by
  have hholds : Holds ([] ++ l) s := holds_run (s := none) trivial hrun
  cases s with
  | none => cases h
  | some w =>
    obtain ⟨before, since, hl, hcount⟩ := hholds
    rw [Throttle.arrive] at h
    split at h
    · cases h
    · rename_i hlimit
      split at h
      · cases h
      · rename_i hexpired
        exact ⟨before, w.start, since, hl, by omega, by simpa using hexpired⟩

/-! ## Blocks -/

/-- Behind the beginning of a window that does not expire. -/
theorem length_window_lt (hcount : w.count < limit) (hl : ∀ x ∈ l, expired w.start x = false)
    (hrun : run (Throttle.arrive limit expired) l (some w) = some t) : w.count + l.length < limit := by
  induction l generalizing w with
  | nil => exact hcount
  | cons x l ih =>
    obtain ⟨u, hu, hrun⟩ := run_cons.mp hrun
    rw [Throttle.arrive] at hu
    split at hu
    · rename_i hroom
      obtain rfl := Option.some.inj hu
      have hrest := @ih ⟨w.start, w.count + 1⟩ hroom (fun y hy => hl y (List.mem_cons_of_mem x hy)) hrun
      rw [List.length_cons]
      simp only at hrest
      omega
    · rw [hl x List.mem_cons_self] at hu
      cases hu

/-- One window at most begins in the block, behind what is left of the one before. -/
theorem length_rest_lt (hlimit : 2 ≤ limit) (hcount : w.count < limit) (hl : l.Pairwise fun x y => expired x y = false)
    (hrun : run (Throttle.arrive limit expired) l (some w) = some t) : w.count + l.length < 2 * limit := by
  induction l generalizing w with
  | nil => rw [List.length_nil]; omega
  | cons x l ih =>
    obtain ⟨hx, hl⟩ := List.pairwise_cons.mp hl
    obtain ⟨u, hu, hrun⟩ := run_cons.mp hrun
    rw [List.length_cons]
    rcases arrive_cases hu with rfl | ⟨v, hv, hroom, rfl⟩
    · have hwindow := @length_window_lt _ _ _ l ⟨x, 1⟩ _ hlimit hx hrun
      simp only at hwindow
      omega
    · obtain rfl := Option.some.inj hv
      have hrest := @ih ⟨w.start, w.count + 1⟩ hroom hl hrun
      simp only at hrest
      omega

theorem count_lt (hlimit : 2 ≤ limit) (hs : ∀ w ∈ s, w.count < limit) (h : Throttle.arrive limit expired now s = some t) :
    ∀ w ∈ t, w.count < limit := by
  intro w hw
  rcases arrive_cases h with rfl | ⟨v, rfl, hroom, rfl⟩
  · obtain rfl := Option.some.inj hw
    exact hlimit
  · obtain rfl := Option.some.inj hw
    exact hroom

theorem length_block_lt {before block : List τ} (hlimit : 2 ≤ limit) (hblock : block.Pairwise fun x y => expired x y = false)
    (hrun : run (Throttle.arrive limit expired) (before ++ block) none = some t) : block.length < 2 * limit := by
  obtain ⟨s, hbefore, hrun⟩ := run_append.mp hrun
  have hcount : ∀ w ∈ s, w.count < limit :=
    run_inv (fun _ _ _ hs h => count_lt hlimit hs h) (fun _ hw => by cases hw) hbefore
  cases s with
  | some w =>
    have hrest := length_rest_lt hlimit (hcount w rfl) hblock hrun
    omega
  | none =>
    cases block with
    | nil => rw [List.length_nil]; omega
    | cons x block =>
      obtain ⟨u, hu, hrun⟩ := run_cons.mp hrun
      obtain rfl := Option.some.inj hu
      have hwindow := @length_window_lt _ _ _ block ⟨x, 1⟩ _ hlimit (List.pairwise_cons.mp hblock).1 hrun
      rw [List.length_cons]
      simp only at hwindow
      omega

/-- What lies between two bounds of a list in order is a block of it. -/
theorem filter_block {le : τ → τ → Prop} {p : τ → Bool} (hconvex : ∀ x y z, p x = true → p z = true → le x y → le y z → p y = true)
    (hl : l.Pairwise le) : ∃ before after, l = before ++ l.filter p ++ after := by
  induction l with
  | nil => exact ⟨[], [], rfl⟩
  | cons x l ih =>
    obtain ⟨hx, hl⟩ := List.pairwise_cons.mp hl
    obtain ⟨before, after, hsplit⟩ := ih hl
    by_cases hpx : p x = true
    · rw [List.filter_cons_of_pos hpx]
      cases hfilter : l.filter p with
      | nil => exact ⟨[], l, rfl⟩
      | cons z f =>
        rw [hfilter] at hsplit
        cases before with
        | nil => exact ⟨[], after, congrArg (x :: ·) hsplit⟩
        | cons y before =>
          -- it would be between the bounds
          have hyl : y ∈ l := by rw [hsplit]; exact List.mem_cons_self
          have hyz : le y z := by
            rw [hsplit] at hl
            exact (List.pairwise_cons.mp hl).1 z (by simp)
          have hpz : p z = true := List.of_mem_filter (hfilter ▸ List.mem_cons_self)
          have hpy := hconvex x y z hpx hpz (hx y hyl) hyz
          have hlen := congrArg List.length (congrArg (List.filter p) hsplit)
          have hself : (z :: f).filter p = z :: f := by rw [← hfilter, List.filter_filter]; simp
          rw [hfilter, List.filter_append, List.filter_append, hself, List.filter_cons_of_pos hpy] at hlen
          simp only [List.length_append, List.length_cons] at hlen
          omega
    · rw [List.filter_cons_of_neg hpx]
      exact ⟨x :: before, after, congrArg (x :: ·) hsplit⟩

end Netutils.Lib.Throttle
