/-
  Netutils.Lib.Filling — texts with places in them, and what they are once the places are
  filled.

  Cutting a text where an item is of some kind and filling its places can be done in either
  order, as long as a place counts as an item of the kind that all items of its filling are
  of (`Fills.span`, `Fills.strip`).
-/

import Mathlib.Data.List.DropRight

namespace Netutils.Lib.Filling

variable {ν α : Type}

inductive Item (ν α : Type) where
  | chr (a : α)
  | place (x : ν)
  deriving DecidableEq

/-- What a symbol becomes with the values `σ`. -/
def Item.fill (σ : ν → List α) : Item ν α → List α
  | .chr a => [a]
  | .place x => σ x

/-- The second text is the first, each place filled with what is `ok`. -/
inductive Fills (ok : List α → Prop) : List (Item ν α) → List α → Prop
  | nil : Fills ok [] []
  | chr (a : α) {l : List (Item ν α)} {l' : List α} : Fills ok l l' → Fills ok (.chr a :: l) (a :: l')
  | place (x : ν) {v : List α} {l : List (Item ν α)} {l' : List α} :
      ok v → Fills ok l l' → Fills ok (.place x :: l) (v ++ l')

variable {ok ok' : List α → Prop} {l m : List (Item ν α)} {l' m' : List α}

theorem fills_flatMap {σ : ν → List α} (h : ∀ x, ok (σ x)) (l : List (Item ν α)) : Fills ok l (l.flatMap (Item.fill σ)) := by
  induction l with
  | nil => exact .nil
  | cons s l ih =>
    rw [List.flatMap_cons]
    cases s with
    | chr a => exact .chr a ih
    | place x => exact .place x (h x) ih

theorem Fills.append (h : Fills ok l l') (h' : Fills ok m m') : Fills ok (l ++ m) (l' ++ m') := by
  induction h with
  | nil => exact h'
  | chr a _ ih => exact .chr a ih
  | place x hv _ ih =>
    rw [List.cons_append, List.append_assoc]
    exact .place x hv ih

theorem Fills.split (h : Fills ok (l ++ m) l') : ∃ a b, l' = a ++ b ∧ Fills ok l a ∧ Fills ok m b := by
  induction l generalizing l' with
  | nil => exact ⟨[], l', rfl, .nil, h⟩
  | cons s l ih =>
    cases h with
    | chr a h =>
      obtain ⟨b, c, rfl, h1, h2⟩ := ih h
      exact ⟨a :: b, c, rfl, .chr a h1, h2⟩
    | @place x v _ _ hv h =>
      obtain ⟨b, c, rfl, h1, h2⟩ := ih h
      exact ⟨v ++ b, c, (List.append_assoc _ _ _).symm, .place x hv h1, h2⟩

/-- Without places there is nothing to fill. -/
theorem Fills.text {t : List α} (h : Fills ok (t.map (.chr : α → Item ν α)) l') : l' = t := by
  induction t generalizing l' with
  | nil =>
    cases h
    rfl
  | cons a t ih =>
    cases h with
    | chr _ h => rw [ih h]

theorem fills_single {s : Item ν α} (h : Fills ok [s] l') :
    (∃ a, s = .chr a ∧ l' = [a]) ∨ ∃ x, s = .place x ∧ ok l' := by
  cases h with
  | chr a h =>
    cases h
    exact Or.inl ⟨a, rfl, rfl⟩
  | place x hv h =>
    cases h
    exact Or.inr ⟨x, rfl, by rwa [List.append_nil]⟩

variable {p : Item ν α → Bool} {p' : α → Bool}

/-- A cut where the kind `p` ends, places being of the kind of what they are filled with. -/
theorem Fills.span (hchr : ∀ a, p (.chr a) = p' a) (hplace : ∀ x v, ok v → v ≠ [] ∧ ∀ c ∈ v, p' c = p (.place x))
    (h : Fills ok l l') : Fills ok (l.takeWhile p) (l'.takeWhile p') ∧ Fills ok (l.dropWhile p) (l'.dropWhile p') := by
  induction h with
  | nil => exact ⟨.nil, .nil⟩
  | chr a h ih =>
    simp only [List.takeWhile_cons, List.dropWhile_cons, hchr]
    cases p' a with
    | true => exact ⟨.chr a ih.1, ih.2⟩
    | false => exact ⟨.nil, .chr a h⟩
  | @place x v _ l' hv h ih =>
    obtain ⟨hne, hall⟩ := hplace x v hv
    simp only [List.takeWhile_cons, List.dropWhile_cons]
    cases hp : p (.place x) with
    | true =>
      have hpos : ∀ c ∈ v, p' c = true := fun c hc => (hall c hc).trans hp
      rw [List.takeWhile_append_of_pos hpos, List.dropWhile_append_of_pos hpos]
      exact ⟨.place x hv ih.1, ih.2⟩
    | false =>
      obtain ⟨c, v, rfl⟩ := List.exists_cons_of_ne_nil hne
      have hc : p' c = false := (hall c List.mem_cons_self).trans hp
      rw [List.cons_append, List.takeWhile_cons_of_neg (by simp [hc]), List.dropWhile_cons_of_neg (by simp [hc])]
      exact ⟨.nil, .place x hv h⟩

/-- What `p'` holds of is cut off at the end, and of a last place no more than a part of what
    it is filled with. -/
theorem Fills.strip (hchr : ∀ a, p (.chr a) = p' a) (hplace : ∀ x, p (.place x) = false)
    (hok : ∀ v, ok v → ok' v ∧ ok' (v.rdropWhile p') ∧ ∃ c ∈ v, p' c = false) (h : Fills ok l l') :
    Fills ok' (l.rdropWhile p) (l'.rdropWhile p') ∧
      ((∃ a, (l.rdropWhile p).getLast? = some (.chr a)) →
        ∃ t, l = l.rdropWhile p ++ t.map .chr ∧ l' = l'.rdropWhile p' ++ t) := by
  have hweak : ∀ {m : List (Item ν α)} {m' : List α}, Fills ok m m' → Fills ok' m m' := by
    intro m m' hm
    induction hm with
    | nil => exact .nil
    | chr a _ ih => exact .chr a ih
    | place x hv _ ih => exact .place x (hok _ hv).1 ih
  induction l using List.reverseRecOn generalizing l' with
  | nil =>
    cases h
    exact ⟨.nil, fun ⟨a, ha⟩ => nomatch ha⟩
  | append_singleton l s ih =>
    obtain ⟨b, c, rfl, h1, h2⟩ := h.split
    rcases fills_single h2 with ⟨a, rfl, rfl⟩ | ⟨x, rfl, hv⟩
    · by_cases ha : p' a = true
      · rw [List.rdropWhile_concat_pos _ _ _ (by rw [hchr, ha]), List.rdropWhile_concat_pos _ _ _ ha]
        obtain ⟨h3, h4⟩ := ih h1
        refine ⟨h3, fun hl => ?_⟩
        obtain ⟨t, h5, h6⟩ := h4 hl
        exact ⟨t ++ [a], by rw [List.map_append, ← List.append_assoc, ← h5]; rfl,
          by rw [← List.append_assoc, ← h6]⟩
      · rw [List.rdropWhile_concat_neg _ _ _ (by rw [hchr]; exact ha), List.rdropWhile_concat_neg _ _ _ ha]
        exact ⟨hweak h, fun _ => ⟨[], (List.append_nil _).symm, (List.append_nil _).symm⟩⟩
    · obtain ⟨-, hrest, d, hd, hp⟩ := hok c hv
      rw [List.rdropWhile_concat_neg _ _ _ (by rw [hplace]; decide)]
      have hcut : (b ++ c).rdropWhile p' = b ++ c.rdropWhile p' := by
        have hne : (c.reverse.dropWhile p').isEmpty = false := by
          rcases he : c.reverse.dropWhile p' with _ | ⟨_, _⟩
          · have := List.dropWhile_eq_nil_iff.mp he d (List.mem_reverse.mpr hd)
            rw [hp] at this
            cases this
          · rfl
        simp only [List.rdropWhile, List.reverse_append, List.dropWhile_append, hne]
        simp
      rw [hcut]
      refine ⟨(hweak h1).append ?_, ?_⟩
      · have hplace : Fills ok' [.place x] (c.rdropWhile p' ++ []) := .place x hrest .nil
        rwa [List.append_nil] at hplace
      · intro h
        obtain ⟨a, ha⟩ := h
        simp at ha

end Netutils.Lib.Filling
