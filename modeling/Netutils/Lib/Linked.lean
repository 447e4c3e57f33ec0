/-
  Netutils.Lib.Linked — singly linked lists in a heap of cells: append behind the last cell, a
  walk along the links, and freeing what follows a cell.

  A `Chain` is the list that a pointer stands for, by address, as long as its cells lie in the
  order they were allocated in and none has been freed. Appending and cutting keep it
  (`chain_append`, `chain_cut`), a walk along it meets its cells (`walk_chain`), and freeing it
  leaves every other cell what it was (`freeFrom_spec`). Whoever reads a freed cell is found
  out (`dangled`).
-/

import Mathlib.Data.List.Basic

namespace Netutils.Lib.Linked

/-! ## The heap -/

structure Cell (α : Type) where
  val : α
  next : Option Nat
  live : Bool

/-- The cells by their addresses; none is used twice. -/
structure Heap (α : Type) where
  cells : List (Cell α)
  /-- A cell has been read or written behind its `free`. -/
  dangled : Bool

variable {α : Type}

namespace Heap

def live (h : Heap α) (a : Nat) : Bool := (h.cells[a]?).any (·.live)

/-- The cell at `a` is looked at. -/
def touch (h : Heap α) (a : Nat) : Heap α := { h with dangled := h.dangled || !h.live a }

def next (h : Heap α) (a : Nat) : Option Nat := (h.cells[a]?).bind (·.next)

/-- A new cell, which ends a list; its address is `h.cells.length`. -/
def alloc (h : Heap α) (v : α) : Heap α := { h with cells := h.cells ++ [⟨v, none, true⟩] }

def setNext (h : Heap α) (a : Nat) (n : Option Nat) : Heap α :=
  { h.touch a with cells := h.cells.modify a fun c => { c with next := n } }

def free (h : Heap α) (a : Nat) : Heap α :=
  { h.touch a with cells := h.cells.modify a fun c => { c with live := false } }

/-- Frees a list; `n` bounds its length. -/
def freeFrom : Nat → Heap α → Option Nat → Heap α
  | 0, h, _ => h
  | _ + 1, h, none => h
  | n + 1, h, some a => freeFrom n (h.free a) (h.next a)

/-- The first cell with `p` from a pointer on; `n` bounds the length of the list. -/
def walk (p : α → Bool) : Nat → Heap α → Option Nat → Option Nat × Heap α
  | 0, h, _ => (none, h)
  | _ + 1, h, none => (none, h)
  | n + 1, h, some a =>
    if (h.cells[a]?).any (fun c => p c.val) then (some a, h.touch a) else walk p n (h.touch a) (h.next a)

/-- The list that a pointer stands for. -/
def values : Nat → Heap α → Option Nat → List α
  | 0, _, _ => []
  | _ + 1, _, none => []
  | n + 1, h, some a => ((h.cells[a]?).map (·.val)).toList ++ values n h (h.next a)

end Heap

/-! ## Lists in it -/

/-- The addresses and what is there. -/
inductive Chain (cells : List (Cell α)) : Option Nat → List (Nat × α) → Prop
  | nil : Chain cells none []
  | cons {a : Nat} {v : α} {n : Option Nat} {l : List (Nat × α)} (hcell : cells[a]? = some ⟨v, n, true⟩)
    (hlt : ∀ x ∈ l, a < x.1) (hchain : Chain cells n l) : Chain cells (some a) ((a, v) :: l)

/-- A pointer to the last of these cells. -/
def IsLast (l : List (Nat × α)) (p : Option Nat) : Prop := p = l.getLast?.map Prod.fst

variable {cells cells' : List (Cell α)} {h : Heap α} {p : Option Nat} {l r : List (Nat × α)} {a : Nat} {v : α}

/-- A chain is in its own cells. -/
theorem Chain.congr (hc : Chain cells p l) (hsame : ∀ x ∈ l, cells'[x.1]? = cells[x.1]?) : Chain cells' p l := by
  induction hc with
  | nil => exact .nil
  | cons hcell hlt _ ih =>
    refine .cons ?_ hlt (ih fun x hx => hsame x (List.mem_cons_of_mem _ hx))
    rw [hsame _ List.mem_cons_self, hcell]

theorem Chain.length_le (hc : Chain cells p l) : l.length ≤ cells.length := by
  have hbound : ∀ b, (∀ x ∈ l, b ≤ x.1) → b + l.length ≤ cells.length ∨ l = [] := by
    induction hc with
    | nil => exact fun _ _ => Or.inr rfl
    | @cons a v n l hcell hlt hchain ih =>
      intro b hb
      left
      have hab : b ≤ a := hb (a, v) List.mem_cons_self
      have ha := (List.getElem?_eq_some_iff.mp hcell).1
      rcases ih (a + 1) (fun x hx => hlt x hx) with hle | rfl
      · rw [List.length_cons]
        omega
      · rw [List.length_singleton]
        omega
  rcases hbound 0 (fun _ _ => Nat.zero_le _) with hle | rfl
  · omega
  · exact Nat.zero_le _

/-- The cells of the second part lie behind those of the first. -/
theorem Chain.split (hc : Chain cells p (l ++ (a, v) :: r)) :
    (∃ n, cells[a]? = some ⟨v, n, true⟩ ∧ Chain cells n r) ∧ (∀ x ∈ l, x.1 < a) ∧ ∀ x ∈ r, a < x.1 := by
  induction l generalizing p with
  | nil =>
    cases hc with
    | cons hcell hlt hchain => exact ⟨⟨_, hcell, hchain⟩, nofun, hlt⟩
  | cons y l ih =>
    cases hc with
    | cons hcell hlt hchain =>
      obtain ⟨hsuffix, hl, hr⟩ := ih hchain
      refine ⟨hsuffix, ?_, hr⟩
      intro x hx
      rcases List.mem_cons.mp hx with rfl | hx
      · exact hlt (a, v) (List.mem_append_right _ List.mem_cons_self)
      · exact hl x hx

theorem Chain.mem_cell (hc : Chain cells p l) {x : Nat × α} (hx : x ∈ l) : ∃ n, cells[x.1]? = some ⟨x.2, n, true⟩ := by
  obtain ⟨l₁, l₂, rfl⟩ := List.append_of_mem hx
  obtain ⟨⟨n, hcell, -⟩, -⟩ := hc.split
  exact ⟨n, hcell⟩

/-- Where the link of the cell at `a` is another, with another list behind it. -/
theorem Chain.relink {n : Option Nat} {r' : List (Nat × α)} (hc : Chain cells p (l ++ (a, v) :: r))
    (ha : cells'[a]? = some ⟨v, n, true⟩) (hsame : ∀ b, b < a → cells'[b]? = cells[b]?) (hlt : ∀ x ∈ r', a < x.1)
    (hr : Chain cells' n r') : Chain cells' p (l ++ (a, v) :: r') := by
  induction l generalizing p with
  | nil =>
    cases hc with
    | cons => exact .cons ha hlt hr
  | cons y l ih =>
    obtain ⟨-, hl, -⟩ := hc.split
    cases hc with
    | cons hcell hly hchain =>
      have hy := hl _ List.mem_cons_self
      refine .cons (by rw [hsame _ hy]; exact hcell) ?_ (ih hchain)
      intro x hx
      rcases List.mem_append.mp hx with hx | hx
      · exact hly x (List.mem_append_left _ hx)
      · rcases List.mem_cons.mp hx with rfl | hx
        · exact hy
        · exact Nat.lt_trans hy (hlt x hx)

/-! ## The operations -/

theorem Chain.touch (hcell : h.cells[a]? = some ⟨v, p, true⟩) : h.touch a = h := by
  simp [Heap.touch, Heap.live, hcell]

theorem getElem?_modify_self (f : Cell α → Cell α) {c : Cell α} (hcell : cells[a]? = some c) :
    (cells.modify a f)[a]? = some (f c) := by
  rw [List.getElem?_modify_eq, hcell]
  rfl

/-- A new cell alone. -/
theorem chain_alloc (h : Heap α) (v : α) : Chain (h.alloc v).cells (some h.cells.length) [(h.cells.length, v)] :=
  .cons (by simp [Heap.alloc]) nofun .nil

theorem getElem?_alloc (v : α) {b : Nat} (hb : b < h.cells.length) : (h.alloc v).cells[b]? = h.cells[b]? := by
  rw [Heap.alloc, List.getElem?_append_left hb]

/-- A new cell behind the last. -/
theorem chain_append (w : α) (hc : Chain h.cells p (l ++ [(a, v)])) :
    Chain (((h.alloc w).setNext a (some h.cells.length)).cells) p (l ++ [(a, v)] ++ [(h.cells.length, w)]) ∧
      ((h.alloc w).setNext a (some h.cells.length)).dangled = h.dangled := by
  obtain ⟨⟨n, hcell, -⟩, -⟩ := hc.split
  have hlt : a < h.cells.length := (List.getElem?_eq_some_iff.mp hcell).1
  have hnew : (h.alloc w).cells[a]? = some ⟨v, n, true⟩ := by rw [getElem?_alloc w hlt, hcell]
  rw [List.append_assoc, List.singleton_append]
  constructor
  · refine hc.relink (getElem?_modify_self _ hnew) ?_ ?_ ?_
    · intro b hb
      show ((h.alloc w).cells.modify a _)[b]? = _
      rw [List.getElem?_modify_ne _ _ (Nat.ne_of_gt hb), getElem?_alloc w (Nat.lt_trans hb hlt)]
    · intro x hx
      rw [List.mem_singleton.mp hx]
      exact hlt
    · refine (chain_alloc h w).congr ?_
      intro x hx
      rw [List.mem_singleton.mp hx]
      exact List.getElem?_modify_ne _ _ (Nat.ne_of_lt hlt)
  · show ((h.alloc w).touch a).dangled = _
    rw [Chain.touch hnew]
    rfl

/-- Only the cells of the list are freed, each once. -/
theorem freeFrom_spec {n : Nat} (hc : Chain h.cells p l) (hn : l.length ≤ n) :
    (Heap.freeFrom n h p).dangled = h.dangled ∧ (Heap.freeFrom n h p).cells.length = h.cells.length ∧
      (∀ b, (∀ x ∈ l, x.1 ≠ b) → (Heap.freeFrom n h p).cells[b]? = h.cells[b]?) ∧
      ∀ x ∈ l, (Heap.freeFrom n h p).live x.1 = false := by
  induction l generalizing n h p with
  | nil =>
    cases hc
    cases n <;> exact ⟨rfl, rfl, fun _ _ => rfl, nofun⟩
  | cons y l ih =>
    cases hc with
    | @cons a v m _ hcell hlt hchain =>
      obtain ⟨n, rfl⟩ := Nat.exists_eq_succ_of_ne_zero (Nat.ne_of_gt (Nat.lt_of_lt_of_le (Nat.succ_pos l.length) hn))
      have hnext : h.next a = m := by simp [Heap.next, hcell]
      have hother : ∀ b, a ≠ b → (h.free a).cells[b]? = h.cells[b]? := fun b hb => List.getElem?_modify_ne _ _ hb
      obtain ⟨hdangled, hlength, hkept, hfreed⟩ := ih (h := h.free a)
        (hchain.congr fun x hx => hother x.1 (Nat.ne_of_lt (hlt x hx))) (Nat.le_of_succ_le_succ hn)
      rw [Heap.freeFrom, hnext]
      refine ⟨?_, ?_, ?_, ?_⟩
      · rw [hdangled]
        show (h.touch a).dangled = _
        rw [Chain.touch hcell]
      · rw [hlength]
        exact List.length_modify ..
      · intro b hb
        rw [hkept b fun x hx => hb x (List.mem_cons_of_mem _ hx), hother b (hb (a, v) List.mem_cons_self)]
      · intro x hx
        rcases List.mem_cons.mp hx with rfl | hx
        · have hself : (h.free a).cells[a]? = some ⟨v, m, false⟩ := getElem?_modify_self _ hcell
          rw [Heap.live, hkept a fun x hx => Nat.ne_of_gt (hlt x hx), hself]
          rfl
        · exact hfreed x hx

/-- What follows the cell at `a` is freed, and the list ends there. -/
theorem chain_cut {n : Nat} (hc : Chain h.cells p (l ++ (a, v) :: r)) (hn : r.length ≤ n) :
    Chain ((Heap.freeFrom n h (h.next a)).setNext a none).cells p (l ++ [(a, v)]) ∧
      ((Heap.freeFrom n h (h.next a)).setNext a none).dangled = h.dangled ∧
      ((Heap.freeFrom n h (h.next a)).setNext a none).cells.length = h.cells.length ∧
      (∀ x ∈ l ++ [(a, v)], ((Heap.freeFrom n h (h.next a)).setNext a none).live x.1 = true) ∧
      ∀ x ∈ r, ((Heap.freeFrom n h (h.next a)).setNext a none).live x.1 = false := by
  obtain ⟨⟨m, hcell, hr⟩, hbefore, hbehind⟩ := hc.split
  have hnext : h.next a = m := by simp [Heap.next, hcell]
  rw [hnext]
  obtain ⟨hdangled, hlength, hkept, hfreed⟩ := freeFrom_spec hr hn
  have hcell' : (Heap.freeFrom n h m).cells[a]? = some ⟨v, m, true⟩ := by
    rw [hkept a fun x hx => Nat.ne_of_gt (hbehind x hx), hcell]
  have hchain : Chain ((Heap.freeFrom n h m).setNext a none).cells p (l ++ [(a, v)]) := by
    refine hc.relink (getElem?_modify_self _ hcell') ?_ nofun .nil
    intro b hb
    show ((Heap.freeFrom n h m).cells.modify a _)[b]? = _
    rw [List.getElem?_modify_ne _ _ (Nat.ne_of_gt hb)]
    exact hkept b fun x hx => Nat.ne_of_gt (Nat.lt_trans hb (hbehind x hx))
  refine ⟨hchain, ?_, ?_, ?_, ?_⟩
  · show ((Heap.freeFrom n h m).touch a).dangled = _
    rw [Chain.touch hcell', hdangled]
  · show ((Heap.freeFrom n h m).cells.modify a _).length = _
    rw [List.length_modify, hlength]
  · intro x hx
    obtain ⟨k, hx'⟩ := hchain.mem_cell hx
    simp [Heap.live, hx']
  · intro x hx
    show (((Heap.freeFrom n h m).cells.modify a _)[x.1]?).any _ = false
    rw [List.getElem?_modify_ne _ _ (Nat.ne_of_lt (hbehind x hx))]
    exact hfreed x hx

/-- The walk meets the cells of the list in order, and none that is freed. -/
theorem walk_chain {n : Nat} (q : α → Bool) (hc : Chain h.cells p l) (hn : l.length ≤ n) :
    Heap.walk q n h p = ((l.find? fun x => q x.2).map Prod.fst, h) := by
  induction l generalizing n p with
  | nil =>
    cases hc
    cases n <;> rfl
  | cons y l ih =>
    cases hc with
    | @cons a v m _ hcell hlt hchain =>
      obtain ⟨n, rfl⟩ := Nat.exists_eq_succ_of_ne_zero (Nat.ne_of_gt (Nat.lt_of_lt_of_le (Nat.succ_pos l.length) hn))
      have hnext : h.next a = m := by simp [Heap.next, hcell]
      rw [Heap.walk, hcell, Chain.touch hcell, hnext, ih hchain (Nat.le_of_succ_le_succ hn), List.find?_cons]
      cases hq : q v <;> simp [hq]

theorem values_chain {n : Nat} (hc : Chain h.cells p l) (hn : l.length ≤ n) : Heap.values n h p = l.map Prod.snd := by
  induction l generalizing n p with
  | nil =>
    cases hc
    cases n <;> rfl
  | cons y l ih =>
    cases hc with
    | @cons a v m _ hcell hlt hchain =>
      obtain ⟨n, rfl⟩ := Nat.exists_eq_succ_of_ne_zero (Nat.ne_of_gt (Nat.lt_of_lt_of_le (Nat.succ_pos l.length) hn))
      have hnext : h.next a = m := by simp [Heap.next, hcell]
      rw [Heap.values, hnext, ih hchain (Nat.le_of_succ_le_succ hn), hcell]
      rfl

end Netutils.Lib.Linked
