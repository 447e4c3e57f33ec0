/-
  Netutils.Telnetd.Netclear — what netclear leaves of telnetd's output buffer (nextitem and
  netclear of telnetd/utility.c), while nothing is encrypted.

  netclear looks for the item that nbackp is in, and keeps from there on the items that it
  wants. If nbackp is where that item begins, the network sees whole items: those that were
  sent, and the wanted ones behind them. If the item has been sent in part, it is kept whole,
  and sent again behind its own first bytes, or dropped with these bytes already sent. And if
  everything has been sent, the first item that netclear looks at lies past nfrontp
  (`netclear_exact_iff`).
-/

import Netutils.Telnetd.Output

namespace Netutils.Telnetd

open Netutils.Arpa
open Netutils.Lib.Cells

/-! ## The source -/

namespace Netobuf

/-- `*p & 0xff`, for a byte that is in the buffer. -/
def look (s : Netobuf) (p : Nat) : Option UInt8 := if p < s.nfrontp then some (s.mem p) else none

/-- "loop forever looking for the SE"; every turn looks at a byte, so `nfrontp` turns are
    enough to come past the buffer. -/
def lookSE (s : Netobuf) : Nat → Nat → Option Nat
  | 0, _ => none
  | fuel + 1, p => do
    let c ← s.look p
    if c = IAC then
      let d ← s.look (p + 1)
      if d = SE then some (p + 2) else lookSE s fuel (p + 2)
    else lookSE s fuel (p + 1)

/-- nextitem; `none` where it looks at a byte past nfrontp. -/
def nextitem (s : Netobuf) (current : Nat) : Option Nat := do
  let c ← s.look current
  if c ≠ IAC then some (current + 1)
  else
    let d ← s.look (current + 1)
    if d = DO ∨ d = DONT ∨ d = WILL ∨ d = WONT then some (current + 3)
    else if d = SB then s.lookSE s.nfrontp (current + 2)
    else some (current + 2)

def wewant (s : Netobuf) (p : Nat) : Prop :=
  s.nfrontp > p ∧ s.mem p = IAC ∧ s.mem (p + 1) ≠ EC ∧ s.mem (p + 1) ≠ EL

instance (s : Netobuf) (p : Nat) : Decidable (s.wewant p) := inferInstanceAs (Decidable (_ ∧ _))

/-- `while ((next = nextitem (thisitem)) <= nbackp)` -/
def straddling (s : Netobuf) : Nat → Nat → Option Nat
  | 0, _ => none
  | fuel + 1, thisitem => do
    let next ← s.nextitem thisitem
    if next ≤ s.nbackp then straddling s fuel next else some thisitem

/-- `for (next = thisitem; wewant (next) && nfrontp > next; next = nextitem (next))` -/
def wanted (s : Netobuf) : Nat → Nat → Option Nat
  | 0, _ => none
  | fuel + 1, next =>
    if s.wewant next ∧ s.nfrontp > next then do
      let next ← s.nextitem next
      wanted s fuel next
    else some next

/-- `while (nfrontp > thisitem)`, with the memory and `good` it ends with. -/
def keep : Netobuf → Nat → Nat → Nat → Option (Netobuf × Nat)
  | _, 0, _, _ => none
  | s, fuel + 1, good, thisitem =>
    if s.nfrontp > thisitem then
      if s.wewant thisitem then do
        let next ← s.wanted (s.nfrontp + 1) thisitem
        let length := next - thisitem
        -- memmove
        keep { s with mem := store s.mem good (slice s.mem thisitem next) } fuel (good + length) next
      else do
        let next ← s.nextitem thisitem
        keep s fuel good next
    else some (s, good)

/-- netclear; each loop gets over a byte with every turn. -/
def netclear (s : Netobuf) : Option Netobuf := do
  let thisitem ← s.straddling (s.nfrontp + 1) 0
  let (s, good) ← s.keep (s.nfrontp + 1) 0 thisitem
  some { s with nbackp := 0, nfrontp := good, neturg := none }

end Netobuf

/-! ## Items -/

/-- What may stand between IAC SB and IAC SE. -/
inductive Inside : List UInt8 → Prop where
  | nil : Inside []
  | byte {c : UInt8} {l : List UInt8} (h : c ≠ IAC) : Inside l → Inside (c :: l)
  | pair {c : UInt8} {l : List UInt8} (h : c ≠ SE) : Inside l → Inside (IAC :: c :: l)

/-- A complete item of the TELNET data stream. -/
inductive Item where
  | data (c : UInt8) (h : c ≠ IAC)
  /-- IAC IAC, or a command of two bytes. -/
  | pair (c : UInt8) (h : c ∉ [DO, DONT, WILL, WONT, SB])
  | verb (v : UInt8) (h : v ∈ [DO, DONT, WILL, WONT]) (c : UInt8)
  | sub (l : List UInt8) (h : Inside l)

def Item.bytes : Item → List UInt8
  | .data c _ => [c]
  | .pair c _ => [IAC, c]
  | .verb v _ c => [IAC, v, c]
  | .sub l _ => IAC :: SB :: (l ++ [IAC, SE])

/-- What begins with IAC, other than EC and EL. -/
def Item.wanted : Item → Bool
  | .data _ _ => false
  | .pair c _ => c ≠ EC ∧ c ≠ EL
  | .verb _ _ _ => true
  | .sub _ _ => true

/-- The bytes of a row of items. -/
def encode (items : List Item) : List UInt8 := items.flatMap Item.bytes

/-- The items that begin before the first `n` bytes are over. -/
def begun : Nat → List Item → List Item
  | _, [] => []
  | n, it :: items => if n = 0 then [] else it :: begun (n - it.bytes.length) items

/-- The others. -/
def later : Nat → List Item → List Item
  | _, [] => []
  | n, it :: items => if n = 0 then it :: items else later (n - it.bytes.length) items

theorem Item.bytes_pos (it : Item) : 0 < it.bytes.length := by
  cases it <;> simp [Item.bytes]

@[simp] theorem encode_nil : encode [] = [] := rfl

@[simp] theorem encode_cons (it : Item) (items : List Item) : encode (it :: items) = it.bytes ++ encode items := rfl

theorem length_le_encode (items : List Item) : items.length ≤ (encode items).length := by
  induction items with
  | nil => exact Nat.le_refl _
  | cons it items ih =>
    have := it.bytes_pos
    rw [List.length_cons, encode_cons, List.length_append]
    omega

theorem encode_append (items items' : List Item) : encode (items ++ items') = encode items ++ encode items' :=
  List.flatMap_append

/-! ## What nextitem finds -/

namespace Netobuf

variable {s : Netobuf} {p : Nat} {l : List UInt8}

theorem slice_cons_iff {m : Nat → UInt8} {i j : Nat} {c : UInt8} :
    slice m i j = c :: l ↔ i < j ∧ m i = c ∧ slice m (i + 1) j = l := by
  constructor
  · intro h
    have hlt : i < j := by
      have := congrArg List.length h
      rw [length_slice, List.length_cons] at this
      omega
    rw [slice_cons hlt] at h
    obtain ⟨h1, h2⟩ := List.cons.inj h
    exact ⟨hlt, h1, h2⟩
  · intro h
    obtain ⟨hlt, rfl, rfl⟩ := h
    exact slice_cons hlt

theorem look_of_slice {c : UInt8} (h : slice s.mem p s.nfrontp = c :: l) : s.look p = some c := by
  obtain ⟨h1, h2, -⟩ := slice_cons_iff.mp h
  rw [look, if_pos h1, h2]

theorem lookSE_inside {body rest : List UInt8} (hb : Inside body) {fuel : Nat}
    (h : slice s.mem p s.nfrontp = body ++ [IAC, SE] ++ rest) (hf : body.length < fuel) :
    s.lookSE fuel p = some (p + body.length + 2) := by
  induction hb generalizing fuel p with
  | nil =>
    obtain ⟨fuel, rfl⟩ : ∃ f, fuel = f + 1 := ⟨fuel - 1, by omega⟩
    have h1 := look_of_slice h
    have h2 := look_of_slice (slice_cons_iff.mp h).2.2
    simp [lookSE, h1, h2]
  | @byte c l hc _ ih =>
    rw [List.length_cons] at hf
    obtain ⟨fuel, rfl⟩ : ∃ f, fuel = f + 1 := ⟨fuel - 1, by omega⟩
    have h1 := look_of_slice h
    rw [lookSE, h1]
    simp only [Option.bind_eq_bind, Option.bind_some, if_neg hc]
    rw [ih (slice_cons_iff.mp h).2.2 (by omega), List.length_cons]
    congr 1
    omega
  | @pair c l hc _ ih =>
    rw [List.length_cons, List.length_cons] at hf
    obtain ⟨fuel, rfl⟩ : ∃ f, fuel = f + 1 := ⟨fuel - 1, by omega⟩
    have h1 := look_of_slice h
    have hnext := (slice_cons_iff.mp h).2.2
    have h2 := look_of_slice hnext
    rw [lookSE, h1]
    simp only [Option.bind_eq_bind, Option.bind_some, if_true, h2, if_neg hc]
    rw [ih (slice_cons_iff.mp hnext).2.2 (by omega), List.length_cons, List.length_cons]
    congr 1
    omega

/-- An item in the buffer is what nextitem gets over. -/
theorem nextitem_item {it : Item} (h : slice s.mem p s.nfrontp = it.bytes ++ l) :
    s.nextitem p = some (p + it.bytes.length) := by
  have hlen := congrArg List.length h
  rw [length_slice, List.length_append] at hlen
  cases it with
  | data c hc =>
    have h1 := look_of_slice h
    simp [nextitem, h1, hc, Item.bytes]
  | pair c hc =>
    have h1 := look_of_slice h
    have h2 := look_of_slice (slice_cons_iff.mp h).2.2
    simp only [List.mem_cons, List.not_mem_nil, or_false, not_or] at hc
    simp [nextitem, h1, h2, hc, Item.bytes]
  | verb v hv c =>
    have h1 := look_of_slice h
    have h2 := look_of_slice (slice_cons_iff.mp h).2.2
    simp only [List.mem_cons, List.not_mem_nil, or_false] at hv
    simp [nextitem, h1, h2, hv, Item.bytes]
  | sub body hb =>
    have h1 := look_of_slice h
    have hnext := (slice_cons_iff.mp h).2.2
    have h2 := look_of_slice hnext
    have hsb : ¬ (SB = DO ∨ SB = DONT ∨ SB = WILL ∨ SB = WONT) := by decide
    simp only [Item.bytes, List.length_cons, List.length_append, List.length_nil] at hlen
    rw [nextitem, h1]
    simp only [Option.bind_eq_bind, Option.bind_some, ne_eq, not_true_eq_false, if_false, h2, if_neg hsb, if_true]
    rw [lookSE_inside hb (slice_cons_iff.mp hnext).2.2 (by omega)]
    simp only [Item.bytes, List.length_cons, List.length_append, List.length_nil, Option.some.injEq]
    omega

/-- wewant is about the item at `p`. -/
theorem wewant_item {it : Item} (h : slice s.mem p s.nfrontp = it.bytes ++ l) : s.wewant p ↔ it.wanted = true := by
  cases it with
  | data c hc =>
    obtain ⟨-, h1, -⟩ := slice_cons_iff.mp h
    refine iff_of_false ?_ nofun
    intro h
    obtain ⟨-, h2, -⟩ := h
    exact hc (h1.symm.trans h2)
  | pair c hc =>
    obtain ⟨hlt, h1, h2⟩ := slice_cons_iff.mp h
    obtain ⟨-, h3, -⟩ := slice_cons_iff.mp h2
    simp [wewant, Item.wanted, hlt, h1, h3]
  | verb v hv c =>
    obtain ⟨hlt, h1, h2⟩ := slice_cons_iff.mp h
    obtain ⟨-, h3, -⟩ := slice_cons_iff.mp h2
    refine iff_of_true ⟨hlt, h1, ?_⟩ rfl
    rw [h3]
    simp only [List.mem_cons, List.not_mem_nil, or_false] at hv
    rcases hv with rfl | rfl | rfl | rfl <;> decide
  | sub body hb =>
    obtain ⟨hlt, h1, h2⟩ := slice_cons_iff.mp h
    obtain ⟨-, h3, -⟩ := slice_cons_iff.mp h2
    refine iff_of_true ⟨hlt, h1, ?_⟩ rfl
    rw [h3]
    decide

/-! ## The loops -/

/-- From `p` on the buffer is this row of items. -/
def Holds (s : Netobuf) (p : Nat) (items : List Item) : Prop := p ≤ s.nfrontp ∧ slice s.mem p s.nfrontp = encode items

theorem Holds.length {items : List Item} (h : s.Holds p items) : s.nfrontp = p + (encode items).length := by
  have := congrArg List.length h.2
  have := h.1
  rw [length_slice] at *
  omega

theorem Holds.empty (h : s.Holds p []) : p = s.nfrontp := h.length.symm

theorem Holds.front {it : Item} {items : List Item} (h : s.Holds p (it :: items)) : p < s.nfrontp := by
  have hlen := h.length
  have hpos := it.bytes_pos
  rw [encode_cons, List.length_append] at hlen
  omega

/-- The items in front are the bytes up to those behind them. -/
theorem Holds.append {pre post : List Item} (h : s.Holds p (pre ++ post)) :
    s.Holds (p + (encode pre).length) post ∧ slice s.mem p (p + (encode pre).length) = encode pre := by
  have hlen := h.length
  rw [encode_append, List.length_append] at hlen
  have hle : p + (encode pre).length ≤ s.nfrontp := by omega
  have hsplit := h.2
  rw [← slice_append (Nat.le_add_right p (encode pre).length) hle, encode_append] at hsplit
  have hcut : (slice s.mem p (p + (encode pre).length)).length = (encode pre).length := by
    rw [length_slice]
    omega
  obtain ⟨hfront, hback⟩ := List.append_inj hsplit hcut
  exact ⟨⟨hle, hback⟩, hfront⟩

theorem Holds.next {it : Item} {items : List Item} (h : s.Holds p (it :: items)) :
    s.Holds (p + it.bytes.length) items := by
  have hone : encode [it] = it.bytes := by rw [encode_cons, encode_nil, List.append_nil]
  have h : s.Holds p ([it] ++ items) := h
  rw [← hone]
  exact h.append.1

/-- A write below them does not touch them. -/
theorem Holds.store {items : List Item} (h : s.Holds p items) {good : Nat} {l : List UInt8} (hl : good + l.length ≤ p) :
    ({ s with mem := store s.mem good l } : Netobuf).Holds p items := by
  refine ⟨h.1, ?_⟩
  show slice (Lib.Cells.store s.mem good l) p s.nfrontp = encode items
  rw [slice_store_behind _ hl]
  exact h.2

theorem nextitem_front (hp : p = s.nfrontp) : s.nextitem p = none := by
  unfold nextitem look
  rw [if_neg (by omega)]
  rfl

/-- The item that nbackp is in, or right before. -/
theorem straddling_spec {items : List Item} (h : s.Holds p items) (hp : p ≤ s.nbackp) (hb : s.nbackp < s.nfrontp)
    {fuel : Nat} (hf : items.length < fuel) :
    ∃ pre it post, items = pre ++ it :: post ∧ s.straddling fuel p = some (p + (encode pre).length) ∧
      p + (encode pre).length ≤ s.nbackp ∧ s.nbackp < p + (encode pre).length + it.bytes.length := by
  induction items generalizing p fuel with
  | nil =>
    have hend := h.empty
    omega
  | cons it items ih =>
    obtain ⟨fuel, rfl⟩ : ∃ f, fuel = f + 1 := ⟨fuel - 1, by omega⟩
    rw [List.length_cons] at hf
    have hnext := nextitem_item h.2
    by_cases hle : p + it.bytes.length ≤ s.nbackp
    · obtain ⟨pre, it', post, hitems, hs, h1, h2⟩ := ih h.next hle (show items.length < fuel by omega)
      refine ⟨it :: pre, it', post, by rw [hitems, List.cons_append], ?_, ?_, ?_⟩
      · rw [straddling, hnext]
        simp only [Option.bind_eq_bind, Option.bind_some, if_pos hle]
        rw [hs, encode_cons, List.length_append, Nat.add_assoc]
      · rw [encode_cons, List.length_append]
        omega
      · rw [encode_cons, List.length_append]
        omega
    · refine ⟨[], it, items, rfl, ?_, hp, by simpa using hle⟩
      rw [straddling, hnext]
      simp only [Option.bind_eq_bind, Option.bind_some, if_neg hle]
      rfl

/-- Where everything has been sent, the search for the item comes to nfrontp. -/
theorem straddling_front {items : List Item} (h : s.Holds p items) (hb : s.nbackp = s.nfrontp) (fuel : Nat) :
    s.straddling fuel p = none := by
  induction fuel generalizing p items with
  | zero => rfl
  | succ fuel ih =>
    rw [straddling]
    rcases items with _ | ⟨it, items⟩
    · rw [nextitem_front h.empty]
      rfl
    · have hle : p + it.bytes.length ≤ s.nbackp := by
        rw [hb]
        exact h.next.1
      rw [nextitem_item h.2]
      simp only [Option.bind_eq_bind, Option.bind_some, if_pos hle]
      exact ih h.next

/-- A run of wanted items. -/
theorem wanted_spec {items : List Item} (h : s.Holds p items) {fuel : Nat} (hf : items.length < fuel) :
    s.wanted fuel p = some (p + (encode (items.takeWhile Item.wanted)).length) := by
  induction items generalizing p fuel with
  | nil =>
    obtain ⟨fuel, rfl⟩ : ∃ f, fuel = f + 1 := ⟨fuel - 1, by omega⟩
    have hend := h.empty
    rw [wanted, if_neg (by omega)]
    rfl
  | cons it items ih =>
    obtain ⟨fuel, rfl⟩ : ∃ f, fuel = f + 1 := ⟨fuel - 1, by omega⟩
    rw [List.length_cons] at hf
    have hlt := h.front
    rw [wanted]
    by_cases hw : it.wanted = true
    · rw [if_pos ⟨(wewant_item h.2).mpr hw, hlt⟩, nextitem_item h.2]
      simp only [Option.bind_eq_bind, Option.bind_some]
      rw [ih h.next (by omega), List.takeWhile_cons_of_pos hw, encode_cons, List.length_append, Nat.add_assoc]
    · rw [if_neg fun hn => hw ((wewant_item h.2).mp hn.1), List.takeWhile_cons_of_neg hw]
      rfl

theorem filter_wanted (items : List Item) : items.filter Item.wanted =
    items.takeWhile Item.wanted ++ (items.dropWhile Item.wanted).filter Item.wanted := by
  have hall : (items.takeWhile Item.wanted).filter Item.wanted = items.takeWhile Item.wanted :=
    List.filter_eq_self.mpr fun _ hx => List.mem_takeWhile_imp hx
  conv_lhs => rw [← @List.takeWhile_append_dropWhile _ Item.wanted items]
  rw [List.filter_append, hall]

/-- The wanted items are moved down behind the good ones, which stay. -/
theorem keep_spec {items : List Item} (h : s.Holds p items) {good fuel : Nat} (hg : good ≤ p)
    (hf : items.length < fuel) :
    ∃ mem, s.keep fuel good p = some ({ s with mem := mem }, good + (encode (items.filter Item.wanted)).length) ∧
      slice mem 0 (good + (encode (items.filter Item.wanted)).length) =
        slice s.mem 0 good ++ encode (items.filter Item.wanted) := by
  induction fuel generalizing s p good items with
  | zero => omega
  | succ fuel ih =>
    rcases items with _ | ⟨it, items⟩
    · have hend := h.empty
      refine ⟨s.mem, ?_, by simp⟩
      rw [keep, if_neg (by omega)]
      rfl
    have hlt := h.front
    rw [List.length_cons] at hf
    rw [keep, if_pos hlt]
    by_cases hw : it.wanted = true
    · obtain ⟨ws, hws⟩ : ∃ ws, ws = (it :: items).takeWhile Item.wanted := ⟨_, rfl⟩
      obtain ⟨rest, hrest⟩ : ∃ rest, rest = (it :: items).dropWhile Item.wanted := ⟨_, rfl⟩
      have hsplit : it :: items = ws ++ rest := by rw [hws, hrest, List.takeWhile_append_dropWhile]
      have hlen := h.length
      have hmany := length_le_encode (it :: items)
      rw [List.length_cons] at hmany
      have hrun := wanted_spec h (show (it :: items).length < s.nfrontp + 1 by rw [List.length_cons]; omega)
      rw [← hws] at hrun
      rw [hsplit] at h
      obtain ⟨hafter, hbytes⟩ := h.append
      have hfew : rest.length ≤ items.length := by
        have := congrArg List.length hsplit
        rw [hws, List.takeWhile_cons_of_pos hw, List.length_append, List.length_cons, List.length_cons] at this
        omega
      have hkept : (it :: items).filter Item.wanted = ws ++ rest.filter Item.wanted := by
        rw [hws, hrest, filter_wanted]
      obtain ⟨next, hnext⟩ : ∃ next, next = p + (encode ws).length := ⟨_, rfl⟩
      rw [← hnext] at hrun hafter hbytes
      have hmoved : ({ s with mem := store s.mem good (slice s.mem p next) } : Netobuf).Holds next rest := by
        apply hafter.store
        rw [hbytes]
        omega
      obtain ⟨mem, h1, h2⟩ := ih hmoved (show good + (encode ws).length ≤ next by omega) (by omega)
      have hitem : slice s.mem p s.nfrontp = it.bytes ++ encode items := by
        rw [h.2, ← hsplit, encode_cons]
      rw [if_pos ((wewant_item hitem).mpr hw), hrun]
      simp only [Option.bind_eq_bind, Option.bind_some]
      rw [show next - p = (encode ws).length by omega, h1, hkept, encode_append, List.length_append,
        ← Nat.add_assoc]
      refine ⟨mem, rfl, ?_⟩
      rw [h2, ← List.append_assoc]
      congr 1
      have := slice_store (m := s.mem) (i := 0) (j := good) (encode ws) (Nat.zero_le _)
      rw [← hbytes] at this ⊢
      exact this
    · rw [if_neg fun hn => hw ((wewant_item h.2).mp hn), nextitem_item h.2, List.filter_cons_of_neg hw]
      exact ih h.next (by omega) (by omega)

end Netobuf

/-! ## netclear -/

/-- The bytes that had been sent and those that are now pending are the items begun before
    nbackp and the wanted ones of the others. -/
def Cleared (s : Netobuf) (items : List Item) : Prop :=
  ∃ t, s.netclear = some t ∧
    slice s.mem 0 s.nbackp ++ t.pending = encode (begun s.nbackp items ++ (later s.nbackp items).filter Item.wanted)

variable {s : Netobuf} {items : List Item}

/-- netclear keeps of the item that nbackp is in, and of those behind it, the wanted ones. -/
theorem netclear_spec (h : s.Holds 0 items) (hb : s.nbackp < s.nfrontp) :
    ∃ pre it post t, items = pre ++ it :: post ∧ (encode pre).length ≤ s.nbackp ∧
      s.nbackp < (encode pre).length + it.bytes.length ∧ s.netclear = some t ∧
      t.pending = encode ((it :: post).filter Item.wanted) := by
  have hlen := h.length
  have hmany := length_le_encode items
  obtain ⟨pre, it, post, rfl, hs, h1, h2⟩ :=
    Netobuf.straddling_spec h (Nat.zero_le _) hb (show items.length < s.nfrontp + 1 by omega)
  rw [Nat.zero_add] at hs h1 h2
  have hrest := h.append.1
  rw [Nat.zero_add] at hrest
  rw [List.length_append] at hmany
  obtain ⟨mem, hkeep, hmem⟩ := Netobuf.keep_spec hrest (Nat.zero_le _) (show (it :: post).length < s.nfrontp + 1 by omega)
  refine ⟨pre, it, post, { s with
    mem := mem
    nbackp := 0
    nfrontp := 0 + (encode ((it :: post).filter Item.wanted)).length
    neturg := none }, rfl, h1, h2, ?_, ?_⟩
  · rw [Netobuf.netclear, hs]
    simp only [Option.bind_eq_bind, Option.bind_some, hkeep]
  · unfold Netobuf.pending
    simp only
    rw [hmem, slice_self, List.nil_append]

theorem begun_zero (items : List Item) : begun 0 items = [] ∧ later 0 items = items := by
  cases items with
  | nil => exact ⟨rfl, rfl⟩
  | cons it items => exact ⟨if_pos rfl, if_pos rfl⟩

/-- The items begun before a byte of one of them, or right before it. -/
theorem begun_at (pre : List Item) (it : Item) (post : List Item) {n : Nat} (h1 : (encode pre).length ≤ n)
    (h2 : n < (encode pre).length + it.bytes.length) :
    n = (encode pre).length ∧ begun n (pre ++ it :: post) = pre ∧ later n (pre ++ it :: post) = it :: post ∨
      n ≠ (encode pre).length ∧ begun n (pre ++ it :: post) = pre ++ [it] ∧ later n (pre ++ it :: post) = post := by
  induction pre generalizing n with
  | nil =>
    rw [encode_nil, List.length_nil, Nat.zero_add] at *
    by_cases h0 : n = 0
    · subst h0
      exact Or.inl ⟨rfl, begun_zero _⟩
    · obtain ⟨hb, hl⟩ := begun_zero post
      refine Or.inr ⟨h0, ?_, ?_⟩
      · rw [List.nil_append, begun, if_neg h0, show n - it.bytes.length = 0 by omega, hb]
        rfl
      · rw [List.nil_append, later, if_neg h0, show n - it.bytes.length = 0 by omega, hl]
  | cons x pre ih =>
    have hpos := x.bytes_pos
    rw [encode_cons, List.length_append] at *
    have hne : n ≠ 0 := by omega
    rw [List.cons_append, begun, later, if_neg hne, if_neg hne]
    rcases ih (n := n - x.bytes.length) (by omega) (by omega) with ⟨hn, hb, hl⟩ | ⟨hn, hb, hl⟩
    · exact Or.inl ⟨by omega, by rw [hb], hl⟩
    · exact Or.inr ⟨by omega, by rw [hb]; rfl, hl⟩

/-- netclear does what it should exactly where nbackp lies between two items and something
    is left to be sent. -/
theorem netclear_exact_iff (h : slice s.mem 0 s.nfrontp = encode items) (hb : s.nbackp ≤ s.nfrontp) :
    Cleared s items ↔ s.nbackp < s.nfrontp ∧ (encode (begun s.nbackp items)).length = s.nbackp := by
  have hholds : s.Holds 0 items := ⟨Nat.zero_le _, h⟩
  by_cases hlt : s.nbackp < s.nfrontp
  · obtain ⟨pre, it, post, t, rfl, h1, h2, ht, hpend⟩ := netclear_spec hholds hlt
    have hsent : (slice s.mem 0 s.nbackp).length = s.nbackp := by rw [length_slice, Nat.sub_zero]
    rcases begun_at pre it post h1 h2 with ⟨hn, hbegun, hlater⟩ | ⟨hn, hbegun, hlater⟩
    · refine iff_of_true ⟨t, ht, ?_⟩ ⟨hlt, by rw [hbegun]; exact hn.symm⟩
      have hfirst := hholds.append.2
      rw [Nat.zero_add, ← hn] at hfirst
      rw [hbegun, hlater, encode_append, hpend, hfirst]
    · refine iff_of_false ?_ ?_
      · -- the item is there in part and whole, or in part alone
        intro h
        obtain ⟨t', ht', heq⟩ := h
        obtain rfl := Option.some.inj (ht.symm.trans ht')
        rw [hbegun, hlater, hpend] at heq
        have hlen := congrArg List.length heq
        rw [List.length_append, hsent, encode_append, encode_append, List.length_append, List.length_append,
          List.filter_cons] at hlen
        by_cases hw : it.wanted = true
        · rw [if_pos hw, encode_cons, List.length_append, encode_cons, encode_nil, List.append_nil] at hlen
          omega
        · rw [if_neg hw, encode_cons, encode_nil, List.append_nil] at hlen
          omega
      · intro h
        obtain ⟨-, hbound⟩ := h
        rw [hbegun, encode_append, List.length_append, encode_cons, encode_nil, List.append_nil] at hbound
        omega
  · refine iff_of_false ?_ fun hn => hlt hn.1
    intro h
    obtain ⟨t, ht, -⟩ := h
    rw [Netobuf.netclear, Netobuf.straddling_front hholds (by omega)] at ht
    cases ht

/-- A buffer whose first `nbackp` bytes have been sent. -/
def partly (l : List UInt8) (nbackp : Nat) : Netobuf := ⟨fun k => l.getD k 0, nbackp, l.length, none, true, l.length, []⟩

theorem netclear_exact_between_items :
    let items : List Item := [.verb WILL (by decide) 1, .data 97 (by decide), .pair EC (by decide), .pair AYT (by decide),
      .sub [24, 0] (.byte (by decide) (.byte (by decide) .nil))]
    Cleared (partly (encode items) 3) items := by
  intro items
  exact (netclear_exact_iff (s := partly (encode items) 3) (by decide) (by decide)).mpr (by decide)

/-- IAC has been sent of IAC WILL ECHO, and the three bytes are kept behind it. -/
theorem item_in_part_is_sent_again :
    let items : List Item := [.verb WILL (by decide) TELOPT_ECHO]
    (∃ t, (partly (encode items) 1).netclear = some t ∧ t.pending = [IAC, WILL, TELOPT_ECHO]) ∧
      ¬ Cleared (partly (encode items) 1) items := by
  intro items
  have h : (partly (encode items) 1).netclear.map Netobuf.pending = some [IAC, WILL, TELOPT_ECHO] := by decide +kernel
  obtain ⟨t, ht, hpend⟩ := Option.map_eq_some_iff.mp h
  refine ⟨⟨t, ht, hpend⟩, ?_⟩
  intro h
  obtain ⟨t', ht', heq⟩ := h
  obtain rfl := Option.some.inj (ht.symm.trans ht')
  rw [hpend] at heq
  revert heq
  decide +kernel

end Netutils.Telnetd
