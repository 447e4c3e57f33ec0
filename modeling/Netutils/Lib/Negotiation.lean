/-
  Netutils.Lib.Negotiation — two parties negotiate one on/off setting over two FIFO
  channels, each counting its unanswered requests modulo `M`.

  A party's half is the last value the peer sent (`state`), the value it wants (`want`)
  and the number of its requests still unanswered (`resp`). It may ask for a new value at
  any time; on a received value it first credits its counter, then, when nothing is
  outstanding and it wants the other value, agrees, refuses (which is itself a request)
  or gives in.

  `Inv` is what holds in every reachable link. Where both parties accept, each channel
  alternates from what the peer saw to what the sender wants, and the counters account
  for all messages in flight but `lost`, the number of requests that counter overflows
  forgot. Where one refuses, the refuser only ever answers no, and twice the pending
  rounds bound the other's counter. From it:
  - `agree`: the parties want the same once both channels are empty, for any even `M`;
  - `measure_lt`: with nothing lost every delivery lowers a measure;
  - `in_flight_of_lost`: with something lost the channels never drain.
-/

import Mathlib.Data.List.Basic
import Netutils.Lib.Transition

namespace Netutils.Lib.Negotiation

/-! ## One party -/

structure Half where
  state : Bool
  want : Bool
  resp : Nat
  deriving DecidableEq

def Half.idle : Half := ⟨false, false, 0⟩

/-- Asking for `new` on one's own initiative: the new half and what is sent. -/
def Half.request (M : Nat) (new : Bool) (h : Half) : Half × List Bool :=
  if (h.resp = 0 ∧ h.state = new) ∨ h.want = new then (h, [])
  else (⟨h.state, new, (h.resp + 1) % M⟩, [new])

/-- The counter once the peer's `new` is credited as an answer: a value the peer had
    already sent before answers two requests. -/
def Half.credit (new : Bool) (h : Half) : Nat :=
  if h.resp = 0 then 0
  else if h.resp - 1 ≠ 0 ∧ h.state = new then h.resp - 1 - 1
  else h.resp - 1

/-- Receiving `new`; `ok` is whether the party is willing to have the setting on. -/
def Half.receive (M : Nat) (ok new : Bool) (h : Half) : Half × List Bool :=
  if h.credit new = 0 ∧ h.want ≠ new then
    if new then
      if ok then (⟨new, new, h.credit new⟩, [new])
      else (⟨new, h.want, (h.credit new + 1) % M⟩, [!new])
    else (⟨new, new, h.credit new⟩, if h.state then [new] else [])
  else (⟨new, h.want, h.credit new⟩, [])

/-- A request goes out (the two early returns are not taken). -/
def Half.asks (new : Bool) (h : Half) : Prop := ¬((h.resp = 0 ∧ h.state = new) ∨ h.want = new)

instance (new : Bool) (h : Half) : Decidable (h.asks new) := inferInstanceAs (Decidable (¬_))

/-! ## Two coupled parties -/

structure Link where
  a : Half
  b : Half
  ab : List Bool
  ba : List Bool
  deriving DecidableEq

def Link.idle : Link := ⟨.idle, .idle, [], []⟩

inductive Move where
  | reqA (new : Bool)
  | reqB (new : Bool)
  | recvA
  | recvB
  deriving DecidableEq

/-- A party asks to turn the setting on only if it is itself willing. -/
def Link.step (M : Nat) (okA okB : Bool) : Move → Link → Option Link
  | .reqA new, l =>
    if new && !okA then none
    else some { l with a := (l.a.request M new).1, ab := l.ab ++ (l.a.request M new).2 }
  | .reqB new, l =>
    if new && !okB then none
    else some { l with b := (l.b.request M new).1, ba := l.ba ++ (l.b.request M new).2 }
  | .recvA, l =>
    match l.ba with
    | [] => none
    | x :: rest => some { l with a := (l.a.receive M okA x).1, ba := rest, ab := l.ab ++ (l.a.receive M okA x).2 }
  | .recvB, l =>
    match l.ab with
    | [] => none
    | x :: rest => some { l with b := (l.b.receive M okB x).1, ab := rest, ba := l.ba ++ (l.b.receive M okB x).2 }

/-- The requests a move makes a counter forget: `M` when the counter of a party in a
    negotiation both accept turns over. -/
def Link.forgets (M : Nat) (okA okB : Bool) : Move → Link → Nat
  | .reqA new, l => if okA ∧ okB ∧ l.a.asks new ∧ l.a.resp + 1 = M then M else 0
  | .reqB new, l => if okA ∧ okB ∧ l.b.asks new ∧ l.b.resp + 1 = M then M else 0
  | _, _ => 0

/-! ## The same link seen from the other end -/

def Link.swap (l : Link) : Link := ⟨l.b, l.a, l.ba, l.ab⟩

def Move.swap : Move → Move
  | .reqA new => .reqB new
  | .reqB new => .reqA new
  | .recvA => .recvB
  | .recvB => .recvA

@[simp] theorem swap_swap (l : Link) : l.swap.swap = l := rfl

theorem step_swap (M : Nat) (okA okB : Bool) (m : Move) (l : Link) :
    Link.step M okB okA m.swap l.swap = (Link.step M okA okB m l).map Link.swap := by
  cases m with
  | reqA new => simp only [Move.swap, Link.step, Link.swap]; split <;> rfl
  | reqB new => simp only [Move.swap, Link.step, Link.swap]; split <;> rfl
  | recvA => simp only [Move.swap, Link.step, Link.swap]; split <;> simp_all [Link.swap]
  | recvB => simp only [Move.swap, Link.step, Link.swap]; split <;> simp_all [Link.swap]

/-! ## Channels that alternate -/

/-- From `s` on, `l` changes value with every message and ends in `w`. -/
def Alternates (s : Bool) : List Bool → Bool → Prop
  | [], w => s = w
  | x :: l, w => x = !s ∧ Alternates x l w

theorem alternates_snoc {s w : Bool} {l : List Bool} (h : Alternates s l w) : Alternates s (l ++ [!w]) (!w) := by
  induction l generalizing s with
  | nil => simp only [Alternates] at h; subst h; exact ⟨rfl, rfl⟩
  | cons x l ih => exact ⟨h.1, ih h.2⟩

theorem alternates_request {s : Bool} {l : List Bool} {h : Half} {M : Nat} {new : Bool}
    (ha : Alternates s l h.want) : Alternates s (l ++ (h.request M new).2) (h.request M new).1.want := by
  unfold Half.request
  split
  · simpa using ha
  · rename_i hn
    have : new = !h.want := by cases new <;> cases hw : h.want <;> simp_all
    subst this
    exact alternates_snoc ha

/-! ## Both parties accept -/

/-- 1 when the party wants something else than the peer last said. -/
def Half.pending (h : Half) : Nat := (h.state ^^ h.want).toNat

structure Open (M lost : Nat) (l : Link) : Prop where
  altA : Alternates l.b.state l.ab l.a.want
  altB : Alternates l.a.state l.ba l.b.want
  parA : l.a.resp % 2 = l.a.pending
  parB : l.b.resp % 2 = l.b.pending
  ltA : l.a.resp < M
  ltB : l.b.resp < M
  count : l.a.resp + l.b.resp + lost = l.ab.length + l.ba.length

theorem Open.swap {M lost : Nat} {l : Link} (h : Open M lost l) : Open M lost l.swap :=
  ⟨h.altB, h.altA, h.parB, h.parA, h.ltB, h.ltA, by simp only [Link.swap]; have := h.count; omega⟩

theorem request_resp {M : Nat} (new : Bool) {h : Half} (hlt : h.resp < M) :
    (h.request M new).1.resp + (if h.asks new ∧ h.resp + 1 = M then M else 0) =
      h.resp + (h.request M new).2.length := by
  unfold Half.request Half.asks
  split
  · rename_i hn; simp [hn]
  · rename_i hn
    simp only [hn, not_false_eq_true, true_and, List.length_singleton]
    split
    · rename_i hM; rw [hM, Nat.mod_self]; omega
    · rw [Nat.mod_eq_of_lt (by omega)]

theorem request_pending {M : Nat} (new : Bool) {h : Half} (hM : 2 ∣ M) (hp : h.resp % 2 = h.pending) :
    (h.request M new).1.resp % 2 = (h.request M new).1.pending := by
  unfold Half.request
  split
  · exact hp
  · rename_i hn
    simp only [Nat.mod_mod_of_dvd _ hM, Half.pending] at hp ⊢
    cases new <;> cases hw : h.want <;> cases hs : h.state <;> simp_all <;> omega

theorem request_lt {M : Nat} {new : Bool} {h : Half} (hM : 0 < M) (hlt : h.resp < M) :
    (h.request M new).1.resp < M := by
  unfold Half.request
  split
  · exact hlt
  · exact Nat.mod_lt _ hM

@[simp] theorem request_state (M : Nat) (new : Bool) (h : Half) : (h.request M new).1.state = h.state := by
  unfold Half.request; split <;> rfl

/-- A willing party whose peer's next value is always a change: it agrees when nothing is
    outstanding, and otherwise takes the value as an answer. -/
theorem receive_open {M : Nat} {h : Half} (hp : h.resp % 2 = h.pending) :
    h.receive M true (!h.state) =
      if h.resp = 0 then (⟨!h.state, !h.state, 0⟩, [!h.state]) else (⟨!h.state, h.want, h.resp - 1⟩, []) := by
  obtain ⟨s, w, r⟩ := h
  rcases r with _ | _ | r
  · cases s <;> cases w <;> simp_all [Half.receive, Half.credit, Half.pending]
  · cases s <;> cases w <;> simp_all [Half.receive, Half.credit, Half.pending]
  · cases s <;> cases w <;> simp_all [Half.receive, Half.credit, Half.pending]

theorem open_reqA {M lost : Nat} {l : Link} (hM : 2 ∣ M) (h : Open M lost l) (new : Bool) :
    Open M (lost + if l.a.asks new ∧ l.a.resp + 1 = M then M else 0)
      { l with a := (l.a.request M new).1, ab := l.ab ++ (l.a.request M new).2 } := by
  refine ⟨alternates_request h.altA, by simpa using h.altB, request_pending new hM h.parA, h.parB,
    request_lt (by have := h.ltA; omega) h.ltA, h.ltB, ?_⟩
  have := request_resp new h.ltA
  have := h.count
  simp only [List.length_append]
  omega

theorem open_recvB {M lost : Nat} {l : Link} (h : Open M lost l) {x : Bool} {rest : List Bool}
    (hx : l.ab = x :: rest) :
    Open M lost { l with b := (l.b.receive M true x).1, ab := rest, ba := l.ba ++ (l.b.receive M true x).2 } := by
  obtain ⟨altA, altB, parA, parB, ltA, ltB, count⟩ := h
  rw [hx] at altA count
  obtain ⟨rfl, hrest⟩ := altA
  rw [receive_open parB]
  simp only [List.length_cons] at count
  split
  · rename_i h0
    -- nothing outstanding: what the party wants is what the peer last said
    have hw : l.b.want = l.b.state := by
      rw [h0] at parB
      revert parB
      unfold Half.pending
      cases l.b.state <;> cases l.b.want <;> simp
    refine ⟨hrest, ?_, parA, by simp [Half.pending], ltA, by simp only; omega, ?_⟩
    · rw [hw] at altB; exact alternates_snoc altB
    · simp only [List.length_append, List.length_singleton]; omega
  · rename_i h0
    refine ⟨hrest, by simpa using altB, parA, ?_, ltA, by simp only; omega, ?_⟩
    · unfold Half.pending at parB ⊢
      revert parB
      cases l.b.state <;> cases l.b.want <;> simp <;> omega
    · simp only [List.append_nil]; omega

/-! ## One party refuses

  `a` accepts and `b` refuses: `b` answers every yes with a no and every no with silence,
  and `a` never has to answer. -/

structure Shut (l : Link) : Prop where
  bWant : l.b.want = false
  bResp : l.b.resp = l.b.state.toNat
  baNo : ∀ x ∈ l.ba, x = false
  aState : l.a.state = false
  parA : l.a.resp % 2 = l.a.want.toNat
  count : l.a.resp + l.a.want.toNat ≤ 2 * (l.ba.length + l.ab.count true)

theorem receive_refuser {M : Nat} (hM : 2 ≤ M) {h : Half} (hw : h.want = false) (hr : h.resp = h.state.toNat)
    (x : Bool) : h.receive M false x = (⟨x, false, x.toNat⟩, if x then [false] else []) := by
  obtain ⟨s, w, r⟩ := h
  simp only at hw hr
  subst hw hr
  have h1 : 1 % M = 1 := Nat.mod_eq_of_lt (by omega)
  cases s <;> cases x <;> simp [Half.receive, Half.credit, h1]

theorem receive_refused {M : Nat} {ok : Bool} {h : Half} (hs : h.state = false) (hp : h.resp % 2 = h.want.toNat) :
    h.receive M ok false = (⟨false, if h.resp ≤ 1 then false else h.want, h.resp - 2⟩, []) := by
  obtain ⟨s, w, r⟩ := h
  simp only at hs hp
  subst hs
  rcases r with _ | _ | r
  · cases w <;> simp_all [Half.receive, Half.credit]
  · cases w <;> simp_all [Half.receive, Half.credit]
  · cases w
    · simp_all [Half.receive, Half.credit]
    · simp_all [Half.receive, Half.credit]; omega

theorem shut_reqA {M : Nat} (hM : 2 ∣ M) {l : Link} (h : Shut l) (new : Bool) :
    Shut { l with a := (l.a.request M new).1, ab := l.ab ++ (l.a.request M new).2 } := by
  obtain ⟨bWant, bResp, baNo, aState, parA, count⟩ := h
  refine ⟨bWant, bResp, baNo, by simpa using aState, ?_, ?_⟩
  · have := request_pending new hM (h := l.a) (by simpa [Half.pending, aState] using parA)
    simpa [Half.pending, aState] using this
  · simp only [Half.request]
    split
    · simpa using count
    · rename_i hn
      have hle : (l.a.resp + 1) % M ≤ l.a.resp + 1 := Nat.mod_le _ _
      cases new with
      | false =>
        have hw : l.a.want = true := by revert hn; cases l.a.want <;> simp
        simp [hw] at count ⊢; omega
      | true =>
        have hw : l.a.want = false := by revert hn; cases l.a.want <;> simp
        simp [hw] at count ⊢; omega

theorem shut_recvA {M : Nat} {ok : Bool} {l : Link} (h : Shut l) {x : Bool} {rest : List Bool} (hx : l.ba = x :: rest) :
    Shut { l with a := (l.a.receive M ok x).1, ba := rest, ab := l.ab ++ (l.a.receive M ok x).2 } := by
  obtain ⟨bWant, bResp, baNo, aState, parA, count⟩ := h
  obtain rfl : x = false := baNo x (by simp [hx])
  rw [receive_refused aState parA]
  rw [hx] at count
  refine ⟨bWant, bResp, fun y hy => baNo y (by simp [hx, hy]), rfl, ?_, ?_⟩
  · simp only
    split
    · have : l.a.resp - 2 = 0 := by omega
      simp [this]
    · rw [← parA]; omega
  · simp only [List.length_cons, List.append_nil] at count ⊢
    split
    · simp; omega
    · omega

theorem shut_recvB {M : Nat} (hM : 2 ≤ M) {l : Link} (h : Shut l) {x : Bool} {rest : List Bool}
    (hx : l.ab = x :: rest) :
    Shut { l with b := (l.b.receive M false x).1, ab := rest, ba := l.ba ++ (l.b.receive M false x).2 } := by
  obtain ⟨bWant, bResp, baNo, aState, parA, count⟩ := h
  rw [receive_refuser hM bWant bResp]
  rw [hx] at count
  cases x with
  | false =>
    refine ⟨rfl, rfl, by simpa using baNo, aState, parA, ?_⟩
    simpa using count
  | true =>
    refine ⟨rfl, rfl, ?_, aState, parA, ?_⟩
    · intro y hy
      simp only [if_true, List.mem_append, List.mem_singleton] at hy
      exact hy.elim (baNo y) id
    · simp at count ⊢; omega

/-! ## Every reachable link -/

def Inv (M : Nat) : Bool → Bool → Nat → Link → Prop
  | true, true, lost, l => Open M lost l
  | true, false, lost, l => Shut l ∧ lost = 0
  | false, true, lost, l => Shut l.swap ∧ lost = 0
  | false, false, lost, l => l = .idle ∧ lost = 0

theorem inv_swap {M : Nat} {okA okB : Bool} {lost : Nat} {l : Link} (h : Inv M okA okB lost l) :
    Inv M okB okA lost l.swap := by
  cases okA <;> cases okB
  · exact ⟨by rw [h.1]; rfl, h.2⟩
  · exact h
  · exact h
  · exact Open.swap h

theorem inv_idle {M : Nat} (hM : 0 < M) (okA okB : Bool) : Inv M okA okB 0 .idle := by
  cases okA <;> cases okB
  · exact ⟨rfl, rfl⟩
  · exact ⟨⟨rfl, rfl, by simp [Link.idle, Link.swap], rfl, rfl, by simp [Link.idle, Link.swap, Half.idle]⟩, rfl⟩
  · exact ⟨⟨rfl, rfl, by simp [Link.idle], rfl, rfl, by simp [Link.idle, Half.idle]⟩, rfl⟩
  · exact ⟨rfl, rfl, rfl, rfl, hM, hM, rfl⟩

/-- A party that refuses and wants nothing has no request to make. -/
theorem request_off {M : Nat} {h : Half} (hw : h.want = false) : h.request M false = (h, []) := by
  simp [Half.request, hw]

theorem forgets_swap (M : Nat) (okA okB : Bool) (m : Move) (l : Link) :
    Link.forgets M okB okA m.swap l.swap = Link.forgets M okA okB m l := by
  cases m <;> simp only [Move.swap, Link.forgets, Link.swap] <;> congr 1 <;> simp only [eq_iff_iff] <;> tauto

/-- The step lemma for the moves of `a`'s messages: its requests and their delivery. -/
theorem inv_step_a {M : Nat} (hM : 2 ∣ M) (h0 : 0 < M) {okA okB : Bool} {lost : Nat} {m : Move} {l l' : Link}
    (hm : (∃ new, m = .reqA new) ∨ m = .recvB) (hi : Inv M okA okB lost l) (hs : Link.step M okA okB m l = some l') :
    Inv M okA okB (lost + Link.forgets M okA okB m l) l' := by
  have h2 : 2 ≤ M := Nat.le_of_dvd h0 hM
  rcases hm with ⟨new, rfl⟩ | rfl
  · simp only [Link.step] at hs
    split at hs
    · cases hs
    rename_i hn
    cases hs
    cases okA with
    | false =>
      obtain rfl : new = false := by simpa using hn
      cases okB with
      | false => obtain ⟨rfl, rfl⟩ := hi; exact ⟨rfl, rfl⟩
      | true =>
        have hr : l.a.request M false = (l.a, []) := request_off hi.1.bWant
        rw [hr]
        simpa [Link.forgets] using hi
    | true =>
      cases okB with
      | false =>
        refine ⟨shut_reqA hM hi.1 new, ?_⟩
        simpa [Link.forgets] using hi.2
      | true => simpa [Link.forgets, Inv] using open_reqA hM hi new
  · simp only [Link.step] at hs
    split at hs
    · cases hs
    rename_i x rest hx
    cases hs
    cases okA with
    | false =>
      cases okB with
      | false => obtain ⟨rfl, -⟩ := hi; cases hx
      | true => exact ⟨shut_recvA hi.1 hx, hi.2⟩
    | true =>
      cases okB with
      | false => exact ⟨shut_recvB h2 hi.1 hx, hi.2⟩
      | true => exact open_recvB hi hx

theorem inv_step {M : Nat} (hM : 2 ∣ M) (h0 : 0 < M) {okA okB : Bool} {lost : Nat} {m : Move} {l l' : Link}
    (hi : Inv M okA okB lost l) (hs : Link.step M okA okB m l = some l') :
    Inv M okA okB (lost + Link.forgets M okA okB m l) l' := by
  have other : ((∃ new, m.swap = .reqA new) ∨ m.swap = .recvB) →
      Inv M okA okB (lost + Link.forgets M okA okB m l) l' := by
    intro hm
    have hs' : Link.step M okB okA m.swap l.swap = some l'.swap := by rw [step_swap, hs]; rfl
    have := inv_swap (inv_step_a hM h0 hm (inv_swap hi) hs')
    rwa [swap_swap, forgets_swap] at this
  cases m with
  | reqA new => exact inv_step_a hM h0 (Or.inl ⟨new, rfl⟩) hi hs
  | recvB => exact inv_step_a hM h0 (Or.inr rfl) hi hs
  | reqB new => exact other (Or.inl ⟨new, rfl⟩)
  | recvA => exact other (Or.inr rfl)

/-! ## What the invariant gives -/

/-- With both channels empty the two parties want the same. -/
theorem agree {M : Nat} {okA okB : Bool} {lost : Nat} {l : Link} (h : Inv M okA okB lost l) (hab : l.ab = [])
    (hba : l.ba = []) : l.a.want = l.b.want := by
  have shut : ∀ l : Link, Shut l → l.ab = [] → l.ba = [] → l.a.want = l.b.want := by
    intro l h hab hba
    have := h.count
    rw [hab, hba] at this
    rw [h.bWant]
    revert this
    cases l.a.want <;> simp
  cases okA <;> cases okB
  · obtain ⟨rfl, -⟩ := h; rfl
  · exact (shut l.swap h.1 hba hab).symm
  · exact shut l h.1 hab hba
  · obtain ⟨altA, altB, parA, parB, -, -, count⟩ := h
    rw [hab] at altA count
    rw [hba] at altB count
    simp only [Alternates] at altA altB
    have ha : l.a.resp = 0 := by simp at count; omega
    rw [ha, Half.pending, altB] at parA
    revert parA
    cases l.a.want <;> cases l.b.want <;> simp

/-- The deliveries left, given that no request was forgotten. -/
def Link.left : Bool → Bool → Link → Nat
  | true, true, l => l.ab.length + l.ba.length + (l.ab.length - l.b.resp) + (l.ba.length - l.a.resp)
  | true, false, l => l.ba.length + 2 * l.ab.length
  | false, true, l => l.ab.length + 2 * l.ba.length
  | false, false, l => l.ab.length + l.ba.length

theorem left_swap (okA okB : Bool) (l : Link) : Link.left okB okA l.swap = Link.left okA okB l := by
  cases okA <;> cases okB <;> simp only [Link.left, Link.swap] <;> omega

theorem left_recvB {M : Nat} (h2 : 2 ≤ M) {okA okB : Bool} {l l' : Link} (hi : Inv M okA okB 0 l)
    (hs : Link.step M okA okB .recvB l = some l') : Link.left okA okB l' < Link.left okA okB l := by
  simp only [Link.step] at hs
  split at hs
  · cases hs
  rename_i x rest hx
  cases hs
  cases okA <;> cases okB
  · obtain ⟨rfl, -⟩ := hi; cases hx
  · have h := hi.1
    obtain rfl : x = false := h.baNo x (by simp [Link.swap, hx])
    have hr : l.b.receive M true false = _ := receive_refused h.aState h.parA
    rw [hr]
    simp [Link.left, hx]
  · have h := hi.1
    rw [receive_refuser h2 h.bWant h.bResp]
    simp only [Link.left, hx, List.length_cons, List.length_append]
    cases x
    · simp
    · simp; omega
  · obtain ⟨altA, -, -, parB, -, -, count⟩ := hi
    rw [hx] at altA count
    obtain ⟨rfl, -⟩ := altA
    rw [receive_open parB]
    simp only [Link.left, hx, List.length_cons] at count ⊢
    split
    · simp; omega
    · simp; omega

/-- While no request is forgotten, every delivery brings the end nearer. -/
theorem measure_lt {M : Nat} (h2 : 2 ≤ M) {okA okB : Bool} {m : Move} {l l' : Link} (hm : m = .recvA ∨ m = .recvB)
    (hi : Inv M okA okB 0 l) (hs : Link.step M okA okB m l = some l') :
    Link.left okA okB l' < Link.left okA okB l := by
  rcases hm with rfl | rfl
  · have hs' : Link.step M okB okA .recvB l.swap = some l'.swap := by
      have := step_swap M okA okB .recvA l
      rw [hs] at this
      exact this
    have := left_recvB h2 (inv_swap hi) hs'
    rwa [left_swap, left_swap] at this
  · exact left_recvB h2 hi hs

/-- A forgotten request leaves a message in flight for good. -/
theorem in_flight_of_lost {M : Nat} {okA okB : Bool} {lost : Nat} {l : Link} (h : Inv M okA okB lost l) (hl : 0 < lost) :
    l.ab ≠ [] ∨ l.ba ≠ [] := by
  cases okA <;> cases okB
  · have := h.2; omega
  · have := h.2; omega
  · have := h.2; omega
  · have hc := Open.count h
    by_cases hab : l.ab = []
    · right
      intro hba
      rw [hab, hba] at hc
      simp at hc
      omega
    · exact Or.inl hab

end Netutils.Lib.Negotiation
