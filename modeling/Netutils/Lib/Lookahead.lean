/-
  Netutils.Lib.Lookahead — stream decoders that may look one item ahead.

  A turn takes an item, sees the next one only if it is already at hand, and may take
  that one too. `loop` is one call of the decoder on what is at hand, which stops when
  nothing is left or when its output reaches a limit; `feed` is a sequence of calls, each
  after new items have come in behind what the last call left.

  `plain` never looks ahead, so it is a function of the stream alone. Where looking ahead
  at no pair of neighbours makes a difference (`Clear`), every feed makes what `plain`
  makes, however the stream is cut and wherever the calls stop (`feed_plain`).
-/

import Mathlib.Data.List.Basic

namespace Netutils.Lib.Lookahead

variable {σ β ε : Type}

structure Turn (σ ε : Type) where
  next : σ
  out : List ε
  /-- The item looked at was taken as well. -/
  took : Bool

abbrev Decoder (σ β ε : Type) := σ → β → Option β → Turn σ ε

/-! ## Calls -/

/-- One call: the state, what is left and the output so far; it goes on while `go` allows
    it for its output. -/
def loop (D : Decoder σ β ε) (go : List ε → Bool) : σ → List β → List ε → σ × List β × List ε
  | s, [], o => (s, [], o)
  | s, [c], o => if go o then ((D s c none).next, [], o ++ (D s c none).out) else (s, [c], o)
  | s, c :: x :: l, o =>
    if go o then
      if (D s c (some x)).took then loop D go (D s c (some x)).next l (o ++ (D s c (some x)).out)
      else loop D go (D s c (some x)).next (x :: l) (o ++ (D s c (some x)).out)
    else (s, c :: x :: l, o)

/-- Calls in turn, each with the items that came in before it: the state, what is left and
    all the output. -/
def feed (D : Decoder σ β ε) : σ → List β → List (List β × (List ε → Bool)) → σ × List β × List ε
  | s, left, [] => (s, left, [])
  | s, left, (new, go) :: fs =>
    let r := loop D go s (left ++ new) []
    let r' := feed D r.1 r.2.1 fs
    (r'.1, r'.2.1, r.2.2 ++ r'.2.2)

/-- The items a feed brings in. -/
def brought (fs : List (List β × (List ε → Bool))) : List β := (fs.map Prod.fst).flatten

/-- New items come in only once nothing is left. -/
def DrainFirst (D : Decoder σ β ε) : σ → List β → List (List β × (List ε → Bool)) → Prop
  | _, _, [] => True
  | s, left, (new, go) :: fs =>
    (left = [] ∨ new = []) ∧ DrainFirst D (loop D go s (left ++ new) []).1 (loop D go s (left ++ new) []).2.1 fs

/-- Decoding without looking ahead. -/
def plain (D : Decoder σ β ε) : σ → List β → σ × List ε
  | s, [] => (s, [])
  | s, c :: l => ((plain D (D s c none).next l).1, (D s c none).out ++ (plain D (D s c none).next l).2)

variable {D : Decoder σ β ε}

@[simp] theorem plain_nil (s : σ) : plain D s [] = (s, []) := rfl

theorem plain_cons (s : σ) (c : β) (l : List β) :
    plain D s (c :: l) = ((plain D (D s c none).next l).1, (D s c none).out ++ (plain D (D s c none).next l).2) := rfl

theorem plain_append (s : σ) (l m : List β) :
    plain D s (l ++ m) = ((plain D (plain D s l).1 m).1, (plain D s l).2 ++ (plain D (plain D s l).1 m).2) := by
  induction l generalizing s with
  | nil => simp
  | cons c l ih => simp only [List.cons_append, plain_cons, ih, List.append_assoc]

/-! ## Where looking ahead makes no difference -/

/-- The two states treat the item alike, whatever follows it. -/
def SameOn (D : Decoder σ β ε) (x : β) (s t : σ) : Prop := ∀ p, D s x p = D t x p

/-- Seeing `x` behind `c` changes nothing: taking both at once is taking one after the
    other, and taking `c` alone leaves a state that treats `x` as the other would. -/
def Agrees (D : Decoder σ β ε) (s : σ) (c x : β) : Prop :=
  if (D s c (some x)).took then ((D s c (some x)).next, (D s c (some x)).out) = plain D s [c, x]
  else (D s c (some x)).out = (D s c none).out ∧ SameOn D x (D s c (some x)).next (D s c none).next

/-- Every two neighbours of the stream agree, each in the state before them. -/
def Clear (D : Decoder σ β ε) (s : σ) (l : List β) : Prop :=
  ∀ pre c x post, l = pre ++ c :: x :: post → Agrees D (plain D s pre).1 c x

theorem clear_tail {s : σ} {c : β} {l : List β} (h : Clear D s (c :: l)) : Clear D (D s c none).next l := by
  intro pre d x post hl
  have := h (c :: pre) d x post (by rw [hl]; rfl)
  simpa [plain_cons] using this

theorem clear_append {s : σ} {l m : List β} (h : Clear D s (l ++ m)) : Clear D (plain D s l).1 m := by
  intro pre c x post hm
  have := h (l ++ pre) c x post (by rw [hm, List.append_assoc])
  simpa [plain_append] using this

theorem clear_nil (s : σ) : Clear D s [] := by
  intro pre c x post h
  simp at h

theorem clear_cons {s : σ} {c : β} {l : List β} (h : ∀ x post, l = x :: post → Agrees D s c x)
    (hl : Clear D (D s c none).next l) : Clear D s (c :: l) := by
  intro pre d x post he
  rcases pre with _ | ⟨b, pre⟩
  · obtain ⟨rfl, hl⟩ := List.cons.inj he
    exact h x post hl
  · obtain ⟨rfl, hp⟩ := List.cons.inj he
    exact hl pre d x post hp

/-- The decoder's state and the plain one's, on what is still to come. -/
def Synced (D : Decoder σ β ε) (s t : σ) : List β → Prop
  | [] => s = t
  | x :: _ => SameOn D x s t

theorem synced_refl (s : σ) (l : List β) : Synced D s s l := by
  rcases l with _ | ⟨x, l⟩
  · rfl
  · intro p; rfl

theorem sameOn_plain {s t : σ} {c : β} (h : SameOn D c s t) (l : List β) : plain D s (c :: l) = plain D t (c :: l) := by
  rw [plain_cons, plain_cons, h none]

/-- One call in step with the plain decoder: it has decoded some of what was at hand, and
    the rest finds the two in step again. -/
theorem loop_plain (go : List ε → Bool) {l : List β} {s t : σ} {o : List ε} (more : List β)
    (hc : Clear D t (l ++ more)) (hs : Synced D s t (l ++ more)) :
    ∃ p, l = p ++ (loop D go s l o).2.1 ∧ (loop D go s l o).2.2 = o ++ (plain D t p).2 ∧
      Synced D (loop D go s l o).1 (plain D t p).1 ((loop D go s l o).2.1 ++ more) := by
  induction s, l, o using loop.induct D go generalizing t with
  | case1 s o => exact ⟨[], by simpa [loop] using hs⟩
  | case2 s c o hg =>
    have e := hs none
    exact ⟨[c], by simp [loop, hg], by simp [loop, hg, plain_cons, e], by
      simpa [loop, hg, plain_cons, e] using synced_refl _ _⟩
  | case3 s c o hg => exact ⟨[], by simpa [loop, hg] using hs⟩
  | case4 s c x l o hg ht ih =>
    have e := hs (some x)
    have ha : Agrees D t c x := hc [] c x (l ++ more) rfl
    rw [e] at ht
    rw [Agrees, if_pos ht] at ha
    have hn : (D t c (some x)).next = (plain D t [c, x]).1 := congrArg Prod.fst ha
    have ho : (D t c (some x)).out = (plain D t [c, x]).2 := congrArg Prod.snd ha
    have hc' : Clear D (D t c (some x)).next (l ++ more) := by
      rw [hn]
      exact clear_append (l := [c, x]) (by simpa using hc)
    obtain ⟨p, hp, hq, hr⟩ := ih hc' (by rw [e]; exact synced_refl _ _)
    refine ⟨c :: x :: p, ?_, ?_, ?_⟩
    · simp only [loop, hg, if_true, e, ht] at hp ⊢
      rw [List.cons_append, List.cons_append, ← hp]
    · have : plain D t (c :: x :: p) = _ := plain_append (D := D) t [c, x] p
      simp only [loop, hg, if_true, e, ht] at hq ⊢
      rw [hq, this, ho, hn, List.append_assoc]
    · have : plain D t (c :: x :: p) = _ := plain_append (D := D) t [c, x] p
      simp only [loop, hg, if_true, e, ht] at hr ⊢
      rw [this, ← hn]
      exact hr
  | case5 s c x l o hg ht ih =>
    have e := hs (some x)
    have ha : Agrees D t c x := hc [] c x (l ++ more) rfl
    rw [e] at ht
    rw [Agrees, if_neg ht] at ha
    obtain ⟨p, hp, hq, hr⟩ := ih (clear_tail hc) (by rw [e]; exact ha.2)
    refine ⟨c :: p, ?_, ?_, ?_⟩
    · simp only [loop, hg, if_true, e, ht, Bool.false_eq_true, if_false] at hp ⊢
      rw [List.cons_append, ← hp]
    · simp only [loop, hg, if_true, e, ht, Bool.false_eq_true, if_false] at hq ⊢
      rw [hq, plain_cons, ha.1, List.append_assoc]
    · simp only [loop, hg, if_true, e, ht, Bool.false_eq_true, if_false] at hr ⊢
      exact hr
  | case6 s c x l o hg => exact ⟨[], by simpa [loop, hg] using hs⟩

/-- Every feed of a clear stream makes what the plain decoder makes of the items taken. -/
theorem feed_plain {fs : List (List β × (List ε → Bool))} {s t : σ} (left : List β)
    (hc : Clear D t (left ++ brought fs)) (hs : Synced D s t (left ++ brought fs)) :
    ∃ p, left ++ brought fs = p ++ (feed D s left fs).2.1 ∧ (feed D s left fs).2.2 = (plain D t p).2 ∧
      Synced D (feed D s left fs).1 (plain D t p).1 (feed D s left fs).2.1 := by
  induction fs generalizing s t left with
  | nil => exact ⟨[], by simp [feed, brought], rfl, by simpa [feed, brought] using hs⟩
  | cons f fs ih =>
    obtain ⟨new, go⟩ := f
    have hb : left ++ brought ((new, go) :: fs) = (left ++ new) ++ brought fs := by simp [brought]
    rw [hb] at hc hs ⊢
    obtain ⟨p, hp, hq, hr⟩ := loop_plain go (o := []) _ hc hs
    have hc' : Clear D (plain D t p).1 ((loop D go s (left ++ new) []).2.1 ++ brought fs) := by
      apply clear_append
      rw [← List.append_assoc, ← hp]
      exact hc
    obtain ⟨p', hp', hq', hr'⟩ := ih _ hc' hr
    refine ⟨p ++ p', ?_, ?_, ?_⟩
    · calc (left ++ new) ++ brought fs
          = (p ++ (loop D go s (left ++ new) []).2.1) ++ brought fs := by rw [← hp]
        _ = p ++ (p' ++ (feed D s left ((new, go) :: fs)).2.1) := by rw [List.append_assoc, hp']; rfl
        _ = (p ++ p') ++ (feed D s left ((new, go) :: fs)).2.1 := by rw [List.append_assoc]
    · simp only [feed]
      rw [hq', hq, plain_append, List.nil_append]
    · simp only [feed, plain_append]
      exact hr'

/-- A feed that leaves nothing ends in the plain decoder's state with its output. -/
theorem feed_all {fs : List (List β × (List ε → Bool))} {s : σ} (hc : Clear D s (brought fs))
    (hl : (feed D s [] fs).2.1 = []) :
    (feed D s [] fs).1 = (plain D s (brought fs)).1 ∧ (feed D s [] fs).2.2 = (plain D s (brought fs)).2 := by
  obtain ⟨p, hp, hq, hr⟩ := feed_plain [] (by simpa using hc) (synced_refl s _)
  rw [hl] at hp hr
  simp only [List.nil_append, List.append_nil] at hp
  rw [hp]
  exact ⟨hr, hq⟩

/-! ## What every turn keeps -/

/-- What relates the items of each turn to its output, and goes through appends, relates
    those of a call. -/
theorem loop_rel {R : List β → List ε → Prop} (hnil : R [] [])
    (happ : ∀ {p q o u}, R p o → R q u → R (p ++ q) (o ++ u)) (hlast : ∀ s c, R [c] (D s c none).out)
    (hone : ∀ s c x, (D s c (some x)).took = false → R [c] (D s c (some x)).out)
    (htwo : ∀ s c x, (D s c (some x)).took = true → R [c, x] (D s c (some x)).out)
    (go : List ε → Bool) {s : σ} {l : List β} {o : List ε} :
    ∃ p u, l = p ++ (loop D go s l o).2.1 ∧ (loop D go s l o).2.2 = o ++ u ∧ R p u := by
  induction s, l, o using loop.induct D go with
  | case1 s o => exact ⟨[], [], by simp [loop, hnil]⟩
  | case2 s c o hg => exact ⟨[c], (D s c none).out, by simp [loop, hg, hlast]⟩
  | case3 s c o hg => exact ⟨[], [], by simp [loop, hg, hnil]⟩
  | case4 s c x l o hg ht ih =>
    obtain ⟨p, u, hp, hu, hr⟩ := ih
    refine ⟨[c, x] ++ p, (D s c (some x)).out ++ u, ?_, ?_, happ (htwo s c x ht) hr⟩
    · simp only [loop, hg, if_true, ht]
      simpa using hp
    · simp only [loop, hg, if_true, ht]
      rw [hu, List.append_assoc]
  | case5 s c x l o hg ht ih =>
    obtain ⟨p, u, hp, hu, hr⟩ := ih
    refine ⟨[c] ++ p, (D s c (some x)).out ++ u, ?_, ?_, happ (hone s c x (by simpa using ht)) hr⟩
    · simp only [loop, hg, if_true, ht]
      simpa using hp
    · simp only [loop, hg, if_true, ht]
      simpa using hu
  | case6 s c x l o hg => exact ⟨[], [], by simp [loop, hg, hnil]⟩

/-- And those of a feed. -/
theorem feed_rel {R : List β → List ε → Prop} (hnil : R [] [])
    (happ : ∀ {p q o u}, R p o → R q u → R (p ++ q) (o ++ u)) (hlast : ∀ s c, R [c] (D s c none).out)
    (hone : ∀ s c x, (D s c (some x)).took = false → R [c] (D s c (some x)).out)
    (htwo : ∀ s c x, (D s c (some x)).took = true → R [c, x] (D s c (some x)).out)
    {fs : List (List β × (List ε → Bool))} {s : σ} (left : List β) :
    ∃ p, left ++ brought fs = p ++ (feed D s left fs).2.1 ∧ R p (feed D s left fs).2.2 := by
  induction fs generalizing s left with
  | nil => exact ⟨[], by simp [feed, brought, hnil]⟩
  | cons f fs ih =>
    obtain ⟨new, go⟩ := f
    obtain ⟨p, u, hp, hu, hr⟩ := loop_rel hnil happ hlast hone htwo go (s := s) (l := left ++ new) (o := [])
    obtain ⟨q, hq, hv⟩ := ih (s := (loop D go s (left ++ new) []).1) (loop D go s (left ++ new) []).2.1
    refine ⟨p ++ q, ?_, ?_⟩
    · calc left ++ brought ((new, go) :: fs)
          = (left ++ new) ++ brought fs := by simp [brought]
        _ = (p ++ (loop D go s (left ++ new) []).2.1) ++ brought fs := by rw [← hp]
        _ = p ++ (q ++ (feed D s left ((new, go) :: fs)).2.1) := by rw [List.append_assoc, hq]; rfl
        _ = (p ++ q) ++ (feed D s left ((new, go) :: fs)).2.1 := by rw [List.append_assoc]
    · simp only [feed, hu, List.nil_append]
      exact happ hr hv

/-! ## Feeds one item at a time -/

/-- One item, decoded in one call. -/
def single (c : β) : List β × (List ε → Bool) := ([c], fun _ => true)

@[simp] theorem brought_singles (l : List β) : brought (l.map (single (ε := ε))) = l := by
  induction l with
  | nil => rfl
  | cons c l ih => simpa [brought, single] using ih

theorem feed_append (s : σ) (left : List β) (fs gs : List (List β × (List ε → Bool))) :
    feed D s left (fs ++ gs) =
      let r := feed D s left fs
      let r' := feed D r.1 r.2.1 gs
      (r'.1, r'.2.1, r.2.2 ++ r'.2.2) := by
  induction fs generalizing s left with
  | nil => simp [feed]
  | cons f fs ih => simp [feed, ih]

/-- An item at a time leaves nothing to look ahead to. -/
theorem feed_singles (s : σ) (l : List β) :
    feed D s [] (l.map single) = ((plain D s l).1, [], (plain D s l).2) := by
  induction l generalizing s with
  | nil => rfl
  | cons c l ih => simp [feed, single, loop, plain_cons] at ih ⊢; simp [ih]

theorem drainFirst_singles (s : σ) (l : List β) : DrainFirst D s [] (l.map single) := by
  induction l generalizing s with
  | nil => trivial
  | cons c l ih => exact ⟨Or.inl rfl, by simpa [loop, single] using ih _⟩

/-- An item at a time, but for the two neighbours `c` and `x`, which come in together. -/
def together (pre : List β) (c x : β) (post : List β) : List (List β × (List ε → Bool)) :=
  pre.map single ++ (([c, x], fun _ => true) :: post.map single)

theorem brought_together (pre : List β) (c x : β) (post : List β) :
    brought (together (ε := ε) pre c x post) = pre ++ c :: x :: post := by
  have : brought (together (ε := ε) pre c x post) =
      brought (pre.map (single (ε := ε))) ++ ([c, x] ++ brought (post.map (single (ε := ε)))) := by
    simp [brought, together]
  rw [this, brought_singles, brought_singles]
  rfl

/-- Where the pair is taken at once, its output stands between what an item at a time
    makes of the rest. -/
theorem feed_together {s : σ} {pre : List β} {c x : β} (post : List β)
    (ht : (D (plain D s pre).1 c (some x)).took = true) :
    feed D s [] (together pre c x post) =
      let t := D (plain D s pre).1 c (some x)
      ((plain D t.next post).1, [], (plain D s pre).2 ++ (t.out ++ (plain D t.next post).2)) := by
  have h := feed_singles (D := D) (D (plain D s pre).1 c (some x)).next post
  simp only [together, feed_append, feed_singles, feed, List.nil_append, loop, if_true, ht, h]

theorem drainFirst_append {s : σ} {left : List β} {fs gs : List (List β × (List ε → Bool))}
    (hf : DrainFirst D s left fs) (hg : DrainFirst D (feed D s left fs).1 (feed D s left fs).2.1 gs) :
    DrainFirst D s left (fs ++ gs) := by
  induction fs generalizing s left with
  | nil => exact hg
  | cons f fs ih => exact ⟨hf.1, ih hf.2 hg⟩

theorem drainFirst_together {s : σ} {pre : List β} {c x : β} (post : List β)
    (ht : (D (plain D s pre).1 c (some x)).took = true) : DrainFirst D s [] (together pre c x post) := by
  apply drainFirst_append (drainFirst_singles s pre)
  rw [feed_singles]
  refine ⟨Or.inl rfl, ?_⟩
  simpa [loop, ht] using drainFirst_singles _ post

/-! ## Cuts that show -/

variable {γ : Type} (f : ε → Option γ)

/-- Taking both at once comes to the state of taking one after the other, but not to the
    output of that, as far as `f` shows it. -/
structure Parts (D : Decoder σ β ε) (s : σ) (c x : β) : Prop where
  took : (D s c (some x)).took = true
  next : (D s c (some x)).next = (plain D s [c, x]).1
  out : (D s c (some x)).out.filterMap f ≠ (plain D s [c, x]).2.filterMap f

/-- The feeds that take all of a stream, whole. -/
structure Brings (D : Decoder σ β ε) (s : σ) (l : List β) (fs : List (List β × (List ε → Bool))) : Prop where
  stream : brought fs = l
  done : (feed D s [] fs).2.1 = []

theorem brings_singles (s : σ) (l : List β) : Brings D s l (l.map single) :=
  ⟨brought_singles l, by rw [feed_singles]⟩

theorem brings_together {s : σ} {pre : List β} {c x : β} (post : List β) (h : Parts f D (plain D s pre).1 c x) :
    Brings D s (pre ++ c :: x :: post) (together pre c x post) :=
  ⟨brought_together pre c x post, by rw [feed_together post h.took]⟩

/-- Two neighbours that part show in the output whether they came in together. -/
theorem together_ne_singles {s : σ} {pre : List β} {c x : β} (post : List β)
    (h : Parts f D (plain D s pre).1 c x) :
    (feed D s [] (together pre c x post)).2.2.filterMap f ≠
      (feed D s [] ((pre ++ c :: x :: post).map single)).2.2.filterMap f := by
  have hl : pre ++ c :: x :: post = pre ++ ([c, x] ++ post) := rfl
  rw [feed_together post h.took, feed_singles, hl, plain_append, plain_append]
  simp only [List.filterMap_append]
  intro he
  rw [← h.next] at he
  exact h.out (List.append_cancel_right (List.append_cancel_left he))

end Netutils.Lib.Lookahead
