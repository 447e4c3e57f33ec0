/-
  Netutils.Lib.Doubly — doubly linked lists behind a head, in a heap of cells: a new cell in front,
  a walk for a cell, and a cell taken out of the middle and freed.

  A `Segment` is a part of such a list, by address, with what its first cell has behind it and
  its last in front; segments are put together at these two (`segment_append`). As long as a
  heap `Lists` its cells, each link of both kinds is right, the cells that are not freed are
  those of the list, and no freed cell has been looked at.
-/

import Mathlib.Data.List.Basic
import Mathlib.Data.List.Nodup
import Mathlib.Data.List.Perm.Subperm

namespace Netutils.Lib.Doubly

/-! ## The heap -/

structure Cell (α : Type) where
  val : α
  next : Option Nat
  /-- `none` is the head. -/
  prev : Option Nat
  live : Bool

structure Heap (α : Type) where
  /-- The `next` of the head. -/
  first : Option Nat
  /-- By their addresses; none is used twice. -/
  cells : List (Cell α)
  /-- A cell has been read or written behind its `free`. -/
  dangled : Bool

variable {α : Type}

namespace Heap

def empty : Heap α := ⟨none, [], false⟩

def liveAt (h : Heap α) (a : Nat) : Bool := (h.cells[a]?).any (·.live)

/-- The cell at `a` is looked at. -/
def touch (h : Heap α) (a : Nat) : Heap α := { h with dangled := h.dangled || !h.liveAt a }

def modify (h : Heap α) (a : Nat) (f : Cell α → Cell α) : Heap α := { h.touch a with cells := h.cells.modify a f }

/-- `p->next = n`, where `p` may be the head. -/
def setNext (h : Heap α) (p : Option Nat) (n : Option Nat) : Heap α :=
  match p with
  | none => { h with first := n }
  | some a => h.modify a fun c => { c with next := n }

/-- `if (n) n->prev = p`. -/
def setPrev (h : Heap α) (n : Option Nat) (p : Option Nat) : Heap α :=
  match n with
  | none => h
  | some a => h.modify a fun c => { c with prev := p }

def update (h : Heap α) (a : Nat) (f : α → α) : Heap α := h.modify a fun c => { c with val := f c.val }

/-- A new cell in front; its address is `h.cells.length`. -/
def push (h : Heap α) (v : α) : Heap α :=
  let ep := h.cells.length
  ({ h with first := some ep, cells := h.cells ++ [⟨v, h.first, none, true⟩] } : Heap α).setPrev h.first (some ep)

def next (h : Heap α) (a : Nat) : Option Nat := (h.cells[a]?).bind (·.next)

def prev (h : Heap α) (a : Nat) : Option Nat := (h.cells[a]?).bind (·.prev)

/-- Out of the list, and freed. -/
def unlink (h : Heap α) (a : Nat) : Heap α :=
  (((h.touch a).setNext (h.prev a) (h.next a)).setPrev (h.next a) (h.prev a)).modify a fun c => { c with live := false }

/-- The first cell with `q` from `p` on; `n` bounds the length of the list. -/
def walk (q : α → Bool) : Nat → Heap α → Option Nat → Option Nat × Heap α
  | 0, h, _ => (none, h)
  | _ + 1, h, none => (none, h)
  | n + 1, h, some a =>
    if (h.cells[a]?).any (fun c => q c.val) then (some a, h.touch a) else walk q n (h.touch a) (h.next a)

def find (h : Heap α) (q : α → Bool) : Option Nat × Heap α := walk q h.cells.length h h.first

/-- What is met from `p` on. -/
def valuesFrom : Nat → Heap α → Option Nat → List α
  | 0, _, _ => []
  | _ + 1, _, none => []
  | n + 1, h, some a => ((h.cells[a]?).map (·.val)).toList ++ valuesFrom n h (h.next a)

def values (h : Heap α) : List α := valuesFrom h.cells.length h h.first

end Heap

/-! ## Lists in it -/

/-- A part of a list, from the pointer `p` with `q` behind it, up to the pointer `p'` with `q'` behind
    it; the addresses and what is there. -/
def Segment (cells : List (Cell α)) (q p : Option Nat) : List (Nat × α) → Option Nat → Option Nat → Prop
  | [], q', p' => q = q' ∧ p = p'
  | (a, v) :: l, q', p' => p = some a ∧ ∃ n, cells[a]? = some ⟨v, n, q, true⟩ ∧ Segment cells (some a) n l q' p'

/-- The cells from the head on. -/
structure Lists (h : Heap α) (l : List (Nat × α)) : Prop where
  segment : ∃ q, Segment h.cells none h.first l q none
  nodup : (l.map Prod.fst).Nodup
  safe : h.dangled = false
  /-- Nothing that has been taken out is left. -/
  owned : ∀ b, h.liveAt b = true → b ∈ l.map Prod.fst

variable {cells cells' : List (Cell α)} {h : Heap α} {p q p' q' : Option Nat} {l r : List (Nat × α)} {a : Nat} {v : α}

theorem segment_append :
    Segment cells q p (l ++ r) q' p' ↔ ∃ q₁ p₁, Segment cells q p l q₁ p₁ ∧ Segment cells q₁ p₁ r q' p' := by
  induction l generalizing q p with
  | nil =>
    constructor
    · intro hr
      exact ⟨q, p, ⟨rfl, rfl⟩, hr⟩
    · rintro ⟨q₁, p₁, ⟨rfl, rfl⟩, hr⟩
      exact hr
  | cons x l ih =>
    constructor
    · rintro ⟨hp, n, hcell, hrest⟩
      obtain ⟨q₁, p₁, hl, hr⟩ := ih.mp hrest
      exact ⟨q₁, p₁, ⟨hp, n, hcell, hl⟩, hr⟩
    · rintro ⟨q₁, p₁, ⟨hp, n, hcell, hl⟩, hr⟩
      exact ⟨hp, n, hcell, ih.mpr ⟨q₁, p₁, hl, hr⟩⟩

/-- A segment is in its own cells. -/
theorem Segment.congr (hs : Segment cells q p l q' p') (hsame : ∀ x ∈ l, cells'[x.1]? = cells[x.1]?) :
    Segment cells' q p l q' p' := by
  induction l generalizing q p with
  | nil => exact hs
  | cons x l ih =>
    obtain ⟨hp, n, hcell, hrest⟩ := hs
    exact ⟨hp, n, (hsame x List.mem_cons_self).trans hcell, ih hrest fun y hy => hsame y (List.mem_cons_of_mem x hy)⟩

theorem Segment.mem_cell (hs : Segment cells q p l q' p') {x : Nat × α} (hx : x ∈ l) :
    ∃ n b, cells[x.1]? = some ⟨x.2, n, b, true⟩ := by
  obtain ⟨l₁, l₂, rfl⟩ := List.append_of_mem hx
  obtain ⟨q₁, p₁, -, -, n, hcell, -⟩ := segment_append.mp hs
  exact ⟨n, q₁, hcell⟩

theorem Segment.lt (hs : Segment cells q p l q' p') {x : Nat × α} (hx : x ∈ l) : x.1 < cells.length := by
  obtain ⟨n, b, hcell⟩ := hs.mem_cell hx
  exact (List.getElem?_eq_some_iff.mp hcell).1

theorem Lists.length_le (hl : Lists h l) : l.length ≤ h.cells.length := by
  obtain ⟨q, hs⟩ := hl.segment
  have hsub : l.map Prod.fst ⊆ List.range h.cells.length := by
    intro b hb
    obtain ⟨x, hx, rfl⟩ := List.mem_map.mp hb
    exact List.mem_range.mpr (hs.lt hx)
  have hlen := (List.subperm_of_subset hl.nodup hsub).length_le
  rwa [List.length_map, List.length_range] at hlen

theorem lists_empty : Lists (Heap.empty : Heap α) [] :=
  ⟨⟨none, rfl, rfl⟩, List.nodup_nil, rfl, fun _ hlive => Bool.noConfusion hlive⟩

/-! ## The operations -/

theorem touch_live {c : Cell α} (hcell : h.cells[a]? = some c) (hlive : c.live = true) : h.touch a = h := by
  simp [Heap.touch, Heap.liveAt, hcell, hlive]

theorem modify_live {c : Cell α} (f : Cell α → Cell α) (hcell : h.cells[a]? = some c) (hlive : c.live = true) :
    h.modify a f = { h with cells := h.cells.modify a f } := by
  rw [Heap.modify, touch_live hcell hlive]

theorem liveAt_modify (a b : Nat) {f : Cell α → Cell α} (hf : ∀ c, (f c).live = c.live) :
    (h.modify a f).liveAt b = h.liveAt b := by
  show ((h.cells.modify a f)[b]?).any _ = (h.cells[b]?).any _
  rw [List.getElem?_modify]
  cases h.cells[b]? with
  | none => rfl
  | some c =>
    by_cases hab : a = b
    · simp [hab, hf]
    · simp [hab]

theorem liveAt_setNext (p n : Option Nat) (b : Nat) : (h.setNext p n).liveAt b = h.liveAt b := by
  cases p with
  | none => rfl
  | some a =>
    rw [Heap.setNext, liveAt_modify a b]
    exact fun _ => rfl

theorem liveAt_setPrev (n p : Option Nat) (b : Nat) : (h.setPrev n p).liveAt b = h.liveAt b := by
  cases n with
  | none => rfl
  | some a =>
    rw [Heap.setPrev, liveAt_modify a b]
    exact fun _ => rfl

theorem liveAt_update (a : Nat) (f : α → α) (b : Nat) : (h.update a f).liveAt b = h.liveAt b := by
  rw [Heap.update, liveAt_modify a b]
  exact fun _ => rfl

theorem liveAt_push {v : α} {b : Nat} (hlive : (h.push v).liveAt b = true) : b = h.cells.length ∨ h.liveAt b = true := by
  rw [Heap.push, liveAt_setPrev] at hlive
  rcases Nat.lt_trichotomy b h.cells.length with hb | hb | hb
  · right
    rwa [Heap.liveAt, List.getElem?_append_left hb] at hlive
  · exact Or.inl hb
  · rw [Heap.liveAt, List.getElem?_eq_none (by rw [List.length_append]; exact hb)] at hlive
    exact Bool.noConfusion hlive

theorem liveAt_unlink {b : Nat} (hlive : (h.unlink a).liveAt b = true) : b ≠ a ∧ h.liveAt b = true := by
  obtain ⟨h', hh'⟩ : ∃ h', h' = ((h.touch a).setNext (h.prev a) (h.next a)).setPrev (h.next a) (h.prev a) := ⟨_, rfl⟩
  have hsame : h'.liveAt b = h.liveAt b := by
    rw [hh', liveAt_setPrev, liveAt_setNext]
    rfl
  rw [Heap.unlink, ← hh'] at hlive
  change ((h'.cells.modify a _)[b]?).any _ = true at hlive
  have hne : b ≠ a := by
    rintro rfl
    rw [List.getElem?_modify_eq] at hlive
    cases hcell : h'.cells[b]? <;> simp [hcell] at hlive
  rw [List.getElem?_modify_ne _ _ hne.symm] at hlive
  exact ⟨hne, hsame.symm.trans hlive⟩

/-- The walk meets the cells of the list in order, and none that is freed. -/
theorem walk_segment {n : Nat} (t : α → Bool) (hs : Segment h.cells q p l q' none) (hn : l.length ≤ n) :
    Heap.walk t n h p = ((l.find? fun x => t x.2).map Prod.fst, h) := by
  induction l generalizing n q p with
  | nil =>
    obtain ⟨-, rfl⟩ := hs
    cases n <;> rfl
  | cons x l ih =>
    obtain ⟨rfl, m, hcell, hrest⟩ := hs
    obtain ⟨n, rfl⟩ := Nat.exists_eq_succ_of_ne_zero (Nat.ne_of_gt (Nat.lt_of_lt_of_le (Nat.succ_pos l.length) hn))
    have hnext : h.next x.1 = m := by simp [Heap.next, hcell]
    have hany : (h.cells[x.1]?).any (fun c => t c.val) = t x.2 := by simp [hcell]
    rw [Heap.walk, hany, touch_live hcell rfl, hnext, ih hrest (Nat.le_of_succ_le_succ hn), List.find?_cons]
    cases ht : t x.2 <;> simp

theorem find_lists (hl : Lists h l) (t : α → Bool) : h.find t = ((l.find? fun x => t x.2).map Prod.fst, h) := by
  obtain ⟨q, hs⟩ := hl.segment
  exact walk_segment t hs hl.length_le

theorem valuesFrom_segment {n : Nat} (hs : Segment h.cells q p l q' none) (hn : l.length ≤ n) :
    Heap.valuesFrom n h p = l.map Prod.snd := by
  induction l generalizing n q p with
  | nil =>
    obtain ⟨-, rfl⟩ := hs
    cases n <;> rfl
  | cons x l ih =>
    obtain ⟨rfl, m, hcell, hrest⟩ := hs
    obtain ⟨n, rfl⟩ := Nat.exists_eq_succ_of_ne_zero (Nat.ne_of_gt (Nat.lt_of_lt_of_le (Nat.succ_pos l.length) hn))
    have hnext : h.next x.1 = m := by simp [Heap.next, hcell]
    rw [Heap.valuesFrom, hnext, ih hrest (Nat.le_of_succ_le_succ hn), hcell]
    rfl

theorem values_lists (hl : Lists h l) : h.values = l.map Prod.snd := by
  obtain ⟨q, hs⟩ := hl.segment
  exact valuesFrom_segment hs hl.length_le

theorem lists_push (hl : Lists h l) (v : α) : Lists (h.push v) ((h.cells.length, v) :: l) := by
  obtain ⟨q, hs⟩ := hl.segment
  have hold : ∀ {c : Cell α} {x : Nat × α}, x ∈ l → (h.cells ++ [c])[x.1]? = h.cells[x.1]? :=
    fun hx => List.getElem?_append_left (hs.lt hx)
  have hnew : ∀ c : Cell α, (h.cells ++ [c])[h.cells.length]? = some c := fun c => by simp
  have hnodup : (((h.cells.length, v) :: l).map Prod.fst).Nodup := by
    rw [List.map_cons, List.nodup_cons]
    refine ⟨?_, hl.nodup⟩
    intro hmem
    obtain ⟨x, hx, heq⟩ := List.mem_map.mp hmem
    exact absurd (hs.lt hx) (by rw [heq]; exact Nat.lt_irrefl _)
  have howned : ∀ b, (h.push v).liveAt b = true → b ∈ ((h.cells.length, v) :: l).map Prod.fst := by
    intro b hlive
    rw [List.map_cons, List.mem_cons]
    exact (liveAt_push hlive).imp_right (hl.owned b)
  cases l with
  | nil =>
    obtain ⟨-, hfirst⟩ := hs
    rw [Heap.push, hfirst] at howned ⊢
    exact ⟨⟨_, rfl, none, hnew _, rfl, rfl⟩, hnodup, hl.safe, howned⟩
  | cons x l =>
    obtain ⟨hfirst, n, hcell, hrest⟩ := hs
    have hx : (h.cells ++ [⟨v, some x.1, none, true⟩])[x.1]? = some ⟨x.2, n, none, true⟩ :=
      (hold List.mem_cons_self).trans hcell
    have hne : x.1 ≠ h.cells.length := Nat.ne_of_lt (List.getElem?_eq_some_iff.mp hcell).1
    rw [Heap.push, hfirst, Heap.setPrev, modify_live _ hx rfl] at howned ⊢
    refine ⟨⟨q, rfl, some x.1, ?_, rfl, n, ?_, hrest.congr ?_⟩, hnodup, hl.safe, howned⟩
    · show (List.modify _ x.1 _)[h.cells.length]? = _
      rw [List.getElem?_modify_ne _ _ hne]
      exact hnew _
    · show (List.modify _ x.1 _)[x.1]? = _
      rw [List.getElem?_modify_eq, hx]
      rfl
    · intro y hy
      have hxy : x.1 ≠ y.1 := fun heq =>
        (List.nodup_cons.mp (hl.nodup : (x.1 :: l.map Prod.fst).Nodup)).1 (List.mem_map.mpr ⟨y, hy, heq.symm⟩)
      show (List.modify _ x.1 _)[y.1]? = _
      rw [List.getElem?_modify_ne _ _ hxy]
      exact hold (List.mem_cons_of_mem x hy)

/-- The other addresses of a list, where one is `a`. -/
theorem ne_of_nodup (hnodup : ((l ++ (a, v) :: r).map Prod.fst).Nodup) {x : Nat × α} (hx : x ∈ l ++ r) : a ≠ x.1 := by
  rintro rfl
  rw [List.map_append, List.map_cons, List.nodup_middle] at hnodup
  rw [← List.map_append] at hnodup
  exact (List.nodup_cons.mp hnodup).1 (List.mem_map.mpr ⟨x, hx, rfl⟩)

theorem lists_update (hl : Lists h (l ++ (a, v) :: r)) (f : α → α) : Lists (h.update a f) (l ++ (a, f v) :: r) := by
  obtain ⟨q, hs⟩ := hl.segment
  obtain ⟨q₁, p₁, hsl, rfl, n, hcell, hsr⟩ := segment_append.mp hs
  have hother : ∀ f, ∀ x ∈ l ++ r, (h.cells.modify a f)[x.1]? = h.cells[x.1]? :=
    fun f x hx => List.getElem?_modify_ne _ _ (ne_of_nodup hl.nodup hx)
  have howned : ∀ b, (h.update a f).liveAt b = true → b ∈ (l ++ (a, f v) :: r).map Prod.fst := by
    intro b hlive
    have hmem := hl.owned b ((liveAt_update a f b).symm.trans hlive)
    rw [List.map_append, List.map_cons] at hmem ⊢
    exact hmem
  rw [Heap.update, modify_live _ hcell rfl] at howned ⊢
  refine ⟨⟨q, segment_append.mpr ⟨q₁, some a, ?_, rfl, n, ?_, ?_⟩⟩, ?_, hl.safe, howned⟩
  · exact hsl.congr fun x hx => hother _ x (List.mem_append_left r hx)
  · show (List.modify _ a _)[a]? = _
    rw [List.getElem?_modify_eq, hcell]
    rfl
  · exact hsr.congr fun x hx => hother _ x (List.mem_append_right l hx)
  · have hnodup := hl.nodup
    rw [List.map_append, List.map_cons] at hnodup ⊢
    exact hnodup

/-- The end of a segment gets another link in front. -/
theorem Segment.setNext {n : Option Nat} (hs : Segment h.cells none h.first l q p)
    (hnodup : (l.map Prod.fst).Nodup) :
    Segment (h.setNext q n).cells none (h.setNext q n).first l q n ∧ (h.setNext q n).dangled = h.dangled ∧
      ∀ b, (∀ x ∈ l, x.1 ≠ b) → (h.setNext q n).cells[b]? = h.cells[b]? := by
  rcases List.eq_nil_or_concat l with rfl | ⟨l, ⟨a, v⟩, rfl⟩
  · obtain ⟨rfl, -⟩ := hs
    exact ⟨⟨rfl, rfl⟩, rfl, fun _ _ => rfl⟩
  · rw [List.concat_eq_append] at hs hnodup ⊢
    obtain ⟨q₁, p₁, hsl, rfl, m, hcell, rfl, rfl⟩ := segment_append.mp hs
    have hother : ∀ f b, a ≠ b → (h.cells.modify a f)[b]? = h.cells[b]? := fun f b hb => List.getElem?_modify_ne _ _ hb
    rw [Heap.setNext, modify_live _ hcell rfl]
    refine ⟨segment_append.mpr ⟨q₁, some a, ?_, rfl, n, ?_, rfl, rfl⟩, rfl, fun b hb => ?_⟩
    · refine hsl.congr fun x hx => hother _ x.1 ?_
      exact ne_of_nodup hnodup (List.mem_append_left [] hx)
    · show (List.modify _ a _)[a]? = _
      rw [List.getElem?_modify_eq, hcell]
      rfl
    · exact hother _ b (hb (a, v) (List.mem_append_right l List.mem_cons_self))

/-- The first cell of a segment gets another link behind. -/
theorem Segment.setPrev {b : Option Nat} (hs : Segment h.cells q p r q' none) (hnodup : (r.map Prod.fst).Nodup) :
    ∃ q'', Segment (h.setPrev p b).cells b p r q'' none ∧ (h.setPrev p b).dangled = h.dangled ∧
      (h.setPrev p b).first = h.first ∧ ∀ c, (∀ x ∈ r, x.1 ≠ c) → (h.setPrev p b).cells[c]? = h.cells[c]? := by
  cases r with
  | nil =>
    obtain ⟨-, rfl⟩ := hs
    exact ⟨b, ⟨rfl, rfl⟩, rfl, rfl, fun _ _ => rfl⟩
  | cons x r =>
    obtain ⟨rfl, m, hcell, hrest⟩ := hs
    have hother : ∀ f c, x.1 ≠ c → (h.cells.modify x.1 f)[c]? = h.cells[c]? := fun f c hc => List.getElem?_modify_ne _ _ hc
    rw [Heap.setPrev, modify_live _ hcell rfl]
    refine ⟨q', ⟨rfl, m, ?_, hrest.congr fun y hy => hother _ y.1 ?_⟩, rfl, rfl, fun c hc => ?_⟩
    · show (List.modify _ x.1 _)[x.1]? = _
      rw [List.getElem?_modify_eq, hcell]
      rfl
    · exact ne_of_nodup (l := []) hnodup hy
    · exact hother _ c (hc x List.mem_cons_self)

/-- The cell is freed, and the two on its sides are linked with each other. -/
theorem lists_unlink (hl : Lists h (l ++ (a, v) :: r)) : Lists (h.unlink a) (l ++ r) := by
  obtain ⟨q, hs⟩ := hl.segment
  obtain ⟨q₁, p₁, hsl, rfl, n, hcell, hsr⟩ := segment_append.mp hs
  have hparts : (l.map Prod.fst).Nodup ∧ (r.map Prod.fst).Nodup ∧ ((l ++ r).map Prod.fst).Nodup := by
    have hnodup := hl.nodup
    rw [List.map_append, List.map_cons, List.nodup_middle, ← List.map_append] at hnodup
    have hlr := (List.nodup_cons.mp hnodup).2
    exact ⟨(List.nodup_append.mp (List.map_append ▸ hlr)).1, (List.nodup_append.mp (List.map_append ▸ hlr)).2.1, hlr⟩
  have hnext : h.next a = n := by simp [Heap.next, hcell]
  have hprev : h.prev a = q₁ := by simp [Heap.prev, hcell]
  have hdisjoint : ∀ x ∈ l, ∀ y ∈ r, y.1 ≠ x.1 := by
    intro x hx y hy heq
    have hlr := hparts.2.2
    rw [List.map_append] at hlr
    exact List.disjoint_of_nodup_append hlr (List.mem_map_of_mem hx) (heq ▸ List.mem_map_of_mem hy)
  have hnot : ∀ x ∈ l ++ r, x.1 ≠ a := fun x hx heq => ne_of_nodup hl.nodup hx heq.symm
  obtain ⟨hsl₁, hsafe₁, hkept₁⟩ := hsl.setNext (n := n) hparts.1
  obtain ⟨h₁, hh₁⟩ : ∃ h₁, h₁ = h.setNext q₁ n := ⟨_, rfl⟩
  rw [← hh₁] at hsl₁ hsafe₁ hkept₁
  have hsr₁ : Segment h₁.cells (some a) n r q none := hsr.congr fun y hy => hkept₁ y.1 fun x hx => (hdisjoint x hx y hy).symm
  obtain ⟨q₂, hsr₂, hsafe₂, hfirst₂, hkept₂⟩ := hsr₁.setPrev (b := q₁) hparts.2.1
  obtain ⟨h₂, hh₂⟩ : ∃ h₂, h₂ = h₁.setPrev n q₁ := ⟨_, rfl⟩
  rw [← hh₂] at hsr₂ hsafe₂ hfirst₂ hkept₂
  have hsl₂ : Segment h₂.cells none h₂.first l q₁ n := by
    rw [hfirst₂]
    exact hsl₁.congr fun x hx => hkept₂ x.1 fun y hy => hdisjoint x hx y hy
  have hcell₂ : h₂.cells[a]? = some ⟨v, n, q₁, true⟩ := by
    rw [hkept₂ a fun y hy => hnot y (List.mem_append_right l hy), hkept₁ a fun x hx => hnot x (List.mem_append_left r hx), hcell]
  have heq : h.unlink a = { h₂ with cells := h₂.cells.modify a fun c => { c with live := false } } := by
    rw [Heap.unlink, touch_live hcell rfl, hnext, hprev, ← hh₁, ← hh₂, modify_live _ hcell₂ rfl]
  have hother : ∀ x ∈ l ++ r, (h₂.cells.modify a fun c => { c with live := false })[x.1]? = h₂.cells[x.1]? :=
    fun x hx => List.getElem?_modify_ne _ _ (hnot x hx).symm
  have howned : ∀ b, (h.unlink a).liveAt b = true → b ∈ (l ++ r).map Prod.fst := by
    intro b hlive
    obtain ⟨hne, hlive⟩ := liveAt_unlink hlive
    have hmem := hl.owned b hlive
    rw [List.map_append, List.map_cons, List.mem_append, List.mem_cons] at hmem
    rw [List.map_append, List.mem_append]
    exact hmem.imp_right fun h => h.resolve_left hne
  rw [heq] at howned ⊢
  refine ⟨⟨q₂, segment_append.mpr ⟨q₁, n, ?_, ?_⟩⟩, hparts.2.2, ?_, howned⟩
  · exact hsl₂.congr fun x hx => hother x (List.mem_append_left r hx)
  · exact hsr₂.congr fun y hy => hother y (List.mem_append_right l hy)
  · exact hsafe₂.trans (hsafe₁.trans hl.safe)

end Netutils.Lib.Doubly
