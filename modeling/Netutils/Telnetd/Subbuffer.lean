/-
  Netutils.Telnetd.Subbuffer — subbuffer in telnetd's memory (telnetd/state.c, the SB macros
  and the cases TS_SB and TS_SE of telrcv).

  The macros move pointers and store through them, so the memory around subbuffer is there
  too. Up to the call of suboption nothing is stored outside of subbuffer, and what lies
  between subpointer and subend then is the sub-option, cut off two bytes before the end of
  the buffer, however the stream is divided into reads (`suboption_framed`).
-/

import Mathlib.Logic.Function.Basic
import Netutils.Telnetd.Receive

namespace Netutils.Telnetd

open Netutils.Arpa
open Netutils.Lib.Lookahead
open Netutils.Wire

/-! ## The macros -/

/-- The memory, by address, with the two pointers. -/
structure SbMem where
  mem : Int → UInt8
  subpointer : Int
  subend : Int

/-- `sizeof subbuffer` -/
def sizeofSubbuffer : Nat := 512

namespace SbMem

variable (subbuffer : Int)

/-- SB_CLEAR -/
def clear (m : SbMem) : SbMem := { m with subpointer := subbuffer }

/-- SB_TERM -/
def term (m : SbMem) : SbMem := clear subbuffer { m with subend := m.subpointer }

/-- SB_ACCUM -/
def accum (m : SbMem) (c : UInt8) : SbMem :=
  if m.subpointer < subbuffer + sizeofSubbuffer then
    { m with mem := Function.update m.mem m.subpointer c, subpointer := m.subpointer + 1 }
  else m

/-- IAC and the byte behind it, "for DIAGNOSTICS", and the end. -/
def close (m : SbMem) (c : UInt8) : SbMem :=
  let m := (m.accum subbuffer IAC).accum subbuffer c
  { m with subpointer := m.subpointer - 2 }.term subbuffer

/-- What SB_GET gets until SB_EOF. -/
def option (m : SbMem) : List UInt8 := (List.range (m.subend - m.subpointer).toNat).map fun i : Nat => m.mem (m.subpointer + i)

/-- The buffer alone, the pointers as offsets. -/
@[irreducible] def view (m : SbMem) : SubBuf :=
  ⟨(List.range sizeofSubbuffer).map fun i : Nat => m.mem (subbuffer + i), (m.subpointer - subbuffer).toNat,
    (m.subend - subbuffer).toNat⟩

/-- The pointer is in the buffer or right behind it. -/
def Inside (m : SbMem) : Prop := subbuffer ≤ m.subpointer ∧ m.subpointer ≤ subbuffer + sizeofSubbuffer

/-- The memory outside of subbuffer is that of `m`. -/
def Around (m n : SbMem) : Prop := ∀ a, a < subbuffer ∨ subbuffer + sizeofSubbuffer ≤ a → n.mem a = m.mem a

variable {subbuffer : Int} {m n k : SbMem}

@[simp] theorem length_view : (m.view subbuffer).mem.length = sizeofSubbuffer := by
  unfold view
  rw [List.length_map, List.length_range]

theorem view_ptr : (m.view subbuffer).ptr = (m.subpointer - subbuffer).toNat := by
  unfold view
  rfl

theorem view_fin : (m.view subbuffer).fin = (m.subend - subbuffer).toNat := by
  unfold view
  rfl

theorem view_clear : (m.clear subbuffer).view subbuffer = (m.view subbuffer).clear := by
  unfold clear view SubBuf.clear
  simp only [SubBuf.mk.injEq, true_and, and_true]
  omega

theorem around_refl : Around subbuffer m m := fun _ _ => rfl

theorem Around.trans (h : Around subbuffer m n) (h' : Around subbuffer n k) : Around subbuffer m k :=
  fun a ha => (h' a ha).trans (h a ha)

theorem inside_clear : Inside subbuffer (m.clear subbuffer) := by
  unfold Inside clear
  simp only
  omega

theorem inside_accum (h : Inside subbuffer m) (c : UInt8) : Inside subbuffer (m.accum subbuffer c) := by
  unfold Inside at *
  unfold accum
  split
  · simp only
    omega
  · exact h

theorem around_accum (h : Inside subbuffer m) (c : UInt8) : Around subbuffer m (m.accum subbuffer c) := by
  intro a ha
  obtain ⟨hlow, -⟩ := h
  unfold accum
  by_cases hroom : m.subpointer < subbuffer + sizeofSubbuffer
  · rw [if_pos hroom]
    exact Function.update_of_ne (show a ≠ m.subpointer by omega) c m.mem
  · rw [if_neg hroom]

theorem view_accum (h : Inside subbuffer m) (c : UInt8) :
    (m.accum subbuffer c).view subbuffer = (m.view subbuffer).accum c := by
  obtain ⟨h1, h2⟩ := h
  unfold accum SubBuf.accum
  rw [length_view]
  by_cases hroom : m.subpointer < subbuffer + sizeofSubbuffer
  · rw [if_pos hroom, if_pos (by unfold view; simp only; omega)]
    unfold view
    simp only [SubBuf.mk.injEq, and_true]
    refine ⟨?_, by omega⟩
    apply List.ext_getElem
    · simp
    · intro i hi hi'
      rw [List.getElem_set]
      simp only [List.getElem_map, List.getElem_range]
      by_cases he : (m.subpointer - subbuffer).toNat = i
      · rw [if_pos he, show subbuffer + (i : Int) = m.subpointer by omega, Function.update_self]
      · rw [if_neg he, Function.update_of_ne (by omega)]
  · rw [if_neg hroom, if_neg (by unfold view; simp only; omega)]

theorem accum_all (h : Inside subbuffer m) (l : List UInt8) :
    Inside subbuffer (l.foldl (accum subbuffer) m) ∧ Around subbuffer m (l.foldl (accum subbuffer) m) ∧
      (l.foldl (accum subbuffer) m).view subbuffer = l.foldl SubBuf.accum (m.view subbuffer) := by
  induction l generalizing m with
  | nil => exact ⟨h, around_refl, rfl⟩
  | cons c l ih =>
    obtain ⟨h1, h2, h3⟩ := ih (inside_accum h c)
    rw [List.foldl_cons, List.foldl_cons, ← view_accum h c]
    exact ⟨h1, (around_accum h c).trans h2, h3⟩

/-- Two bytes have gone into the buffer, or it is full, so subpointer steps back inside. -/
theorem close_spec (h : Inside subbuffer m) (c : UInt8) :
    (m.close subbuffer c).subpointer = subbuffer ∧ subbuffer ≤ (m.close subbuffer c).subend ∧
      Around subbuffer m (m.close subbuffer c) ∧ (m.close subbuffer c).view subbuffer = (m.view subbuffer).close c := by
  obtain ⟨-, h2, h3⟩ := accum_all h [IAC, c]
  have hsize : 2 ≤ sizeofSubbuffer := by decide
  have hle : (m.view subbuffer).ptr ≤ (m.view subbuffer).mem.length := by
    obtain ⟨hlow, hhigh⟩ := h
    rw [length_view, view_ptr]
    omega
  have hptr := (accum_min (l := [IAC, c]) hle).1
  rw [← h3, length_view, view_ptr, view_ptr] at hptr
  simp only [List.foldl_cons, List.foldl_nil, List.length_cons, List.length_nil] at h2 h3 hptr
  refine ⟨rfl, ?_, h2, ?_⟩
  · show subbuffer ≤ ((m.accum subbuffer IAC).accum subbuffer c).subpointer - 2
    omega
  · unfold SubBuf.close
    rw [← h3]
    unfold close term clear SubBuf.term view
    simp only [SubBuf.mk.injEq, true_and]
    omega

/-- Read from subpointer on, the sub-option is what the buffer holds up to subend. -/
theorem option_view (h : m.subpointer = subbuffer) (hend : m.subend ≤ subbuffer + sizeofSubbuffer) :
    m.option = (m.view subbuffer).mem.take (m.view subbuffer).fin := by
  rw [view_fin]
  unfold option view
  rw [h, ← List.map_take, List.take_range, Nat.min_eq_left (by omega)]

/-- All of a payload but what comes less than two bytes before the end of the buffer. -/
theorem option_close (l : List UInt8) (c : UInt8) :
    ((l.foldl (accum subbuffer) (m.clear subbuffer)).close subbuffer c).option = l.take (sizeofSubbuffer - 2) := by
  obtain ⟨hin, -, hview⟩ := accum_all (inside_clear : Inside subbuffer (m.clear subbuffer)) l
  obtain ⟨hptr, hend, -, hclose⟩ := close_spec hin c
  have hsize : 2 ≤ sizeofSubbuffer := by decide
  rw [hview, view_clear] at hclose
  obtain ⟨-, h2, -, h4⟩ := close_min (b := m.view subbuffer) l (by rw [length_view]; decide) c
  rw [← hclose, length_view] at h2 h4
  rw [option_view hptr, h4]
  rw [view_fin] at h2
  omega

end SbMem

/-! ## telrcv -/

structure MemRcv (Env : Type) where
  state : TS
  sub : SbMem
  env : Env

section Telrcv

variable {Env : Type} (subbuffer : Int) (H : Handlers Env) (suboption : Env → SbMem → Env × SbMem × List UInt8)

/-- The cases of the switch that leave subbuffer alone. -/
def elsewhere (s : MemRcv Env) (c : UInt8) (nc : Option UInt8) : Turn (MemRcv Env) Event :=
  let t := telrcv H ⟨s.state, s.sub.view subbuffer, s.env⟩ c nc
  ⟨⟨t.next.state, s.sub, t.next.env⟩, t.out, t.took⟩

def memGotiac (s : MemRcv Env) (c : UInt8) (nc : Option UInt8) : Turn (MemRcv Env) Event :=
  if c = SB then ⟨{ s with state := .sb, sub := s.sub.clear subbuffer }, [], false⟩
  else elsewhere subbuffer H { s with state := .iac } c nc

/-- One turn of the loop of `telrcv`, on memory. -/
def memTelrcv : Decoder (MemRcv Env) UInt8 Event := fun s c nc =>
  match s.state with
  | .iac => memGotiac subbuffer H s c nc
  | .sb =>
    if c = IAC then ⟨{ s with state := .se }, [], false⟩
    else ⟨{ s with sub := s.sub.accum subbuffer c }, [], false⟩
  | .se =>
    if c ≠ SE then
      if c ≠ IAC then
        let m := s.sub.close subbuffer c
        let r := suboption s.env m
        let t := memGotiac subbuffer H ⟨.iac, r.2.1, r.1⟩ c nc
        { t with out := .suboption (m.view subbuffer) :: put r.2.2 ++ t.out }
      else ⟨{ s with state := .sb, sub := s.sub.accum subbuffer c }, [], false⟩
    else
      let m := s.sub.close subbuffer SE
      let r := suboption s.env m
      ⟨⟨.data, r.2.1, r.1⟩, .suboption (m.view subbuffer) :: put r.2.2, false⟩
  | _ => elsewhere subbuffer H s c nc

/-- The buffer apart from the memory. -/
def MemRcv.view (s : MemRcv Env) : Rcv Env := ⟨s.state, s.sub.view subbuffer, s.env⟩

variable {subbuffer H suboption} {s : MemRcv Env}

theorem elsewhere_view {c : UInt8} {nc : Option UInt8}
    (h : (telrcv H (s.view subbuffer) c nc).next.sub = s.sub.view subbuffer) :
    let t := elsewhere subbuffer H s c nc
    ⟨t.next.view subbuffer, t.out, t.took⟩ = telrcv H (s.view subbuffer) c nc := by
  show (⟨⟨(telrcv H (s.view subbuffer) c nc).next.state, s.sub.view subbuffer,
    (telrcv H (s.view subbuffer) c nc).next.env⟩, _, _⟩ : Turn (Rcv Env) Event) = _
  rw [← h]
  rfl

/-- A turn of the switch at gotiac. -/
theorem memGotiac_view (hs : s.state = .iac) (c : UInt8) (nc : Option UInt8) :
    let t := memGotiac subbuffer H s c nc
    ⟨t.next.view subbuffer, t.out, t.took⟩ = gotiac (program H) (s.view subbuffer) c := by
  obtain ⟨state, sub, env⟩ := s
  obtain rfl : state = .iac := hs
  by_cases hc : c = SB
  · subst hc
    have hsb : SB ∉ (program H).commands := by
      show SB ∉ commands
      decide
    simp only [memGotiac, gotiac, if_true, if_neg hsb, MemRcv.view, SbMem.view_clear]
  · have hsub : (gotiac (program H) ⟨.iac, sub.view subbuffer, env⟩ c).next.sub = sub.view subbuffer := by
      unfold gotiac
      rw [if_neg hc]
      repeat' split
      all_goals rfl
    simp only [memGotiac, if_neg hc]
    have hview := @elsewhere_view _ subbuffer H ⟨.iac, sub, env⟩ c nc hsub
    exact hview

/-- Where suboption does to the memory what it does to the buffer alone, so does a turn of
    telrcv. -/
theorem memTelrcv_view (hin : s.state = .sb ∨ s.state = .se → s.sub.Inside subbuffer)
    (hsub : ∀ e m, (suboption e m).1 = (H.suboption e (m.view subbuffer)).1 ∧
      (suboption e m).2.1.view subbuffer = (H.suboption e (m.view subbuffer)).2.1 ∧
      (suboption e m).2.2 = (H.suboption e (m.view subbuffer)).2.2) (c : UInt8) (nc : Option UInt8) :
    let t := memTelrcv subbuffer H suboption s c nc
    ⟨t.next.view subbuffer, t.out, t.took⟩ = telrcv H (s.view subbuffer) c nc := by
  obtain ⟨state, sub, env⟩ := s
  cases state with
  | data => rfl
  | cr => rfl
  | verb v => rfl
  | iac => exact memGotiac_view rfl c nc
  | sb =>
    simp only [memTelrcv, telrcv, receive, MemRcv.view]
    by_cases hc : c = IAC
    · rw [if_pos hc, if_pos hc]
    · rw [if_neg hc, if_neg hc]
      simp only [SbMem.view_accum (hin (Or.inl rfl))]
  | se =>
    have hinside : sub.Inside subbuffer := hin (Or.inr rfl)
    simp only [memTelrcv, telrcv, receive, MemRcv.view]
    by_cases hc : c = SE
    · obtain ⟨h1, h2, h3⟩ := hsub env (sub.close subbuffer SE)
      rw [(SbMem.close_spec hinside SE).2.2.2] at h1 h2 h3
      simp only [hc, ne_eq, not_true_eq_false, if_false, h1, h2, h3, (SbMem.close_spec hinside SE).2.2.2]
      rfl
    by_cases hi : c = IAC
    · have hne : IAC ≠ SE := by decide
      simp only [hi, hne, ne_eq, not_true_eq_false, not_false_eq_true, if_true, if_false, SbMem.view_accum hinside]
    · obtain ⟨h1, h2, h3⟩ := hsub env (sub.close subbuffer c)
      have hg := @memGotiac_view _ subbuffer H ⟨.iac, (suboption env (sub.close subbuffer c)).2.1,
        (suboption env (sub.close subbuffer c)).1⟩ rfl c nc
      simp only [MemRcv.view] at hg
      rw [h1, h2] at hg
      have hprog : (program H).suboption = H.suboption := rfl
      simp only [hc, hi, ne_eq, not_false_eq_true, if_true, hprog]
      rw [← (SbMem.close_spec hinside c).2.2.2, ← hg, h3, h1]

/-- Where the byte behind is not looked at. -/
theorem memTelrcv_outside (hs : s.state.frame ≠ .data) (c : UInt8) (nc : Option UInt8) :
    memTelrcv subbuffer H suboption s c nc = memTelrcv subbuffer H suboption s c none ∧
      (memTelrcv subbuffer H suboption s c none).took = false := by
  obtain ⟨state, sub, env⟩ := s
  have hiac : ∀ m e, memGotiac subbuffer H ⟨.iac, m, e⟩ c nc = memGotiac subbuffer H ⟨.iac, m, e⟩ c none ∧
      (memGotiac subbuffer H ⟨.iac, m, e⟩ c none).took = false := by
    intro m e
    unfold memGotiac
    split
    · exact ⟨rfl, rfl⟩
    · exact ⟨rfl, gotiac_took (program H) _ c⟩
  cases state with
  | data => exact absurd rfl hs
  | cr => exact absurd rfl hs
  | verb v => exact ⟨rfl, rfl⟩
  | iac => exact hiac sub env
  | sb => by_cases hc : c = IAC <;> simp [memTelrcv, hc]
  | se =>
    by_cases hc : c = SE
    · simp [memTelrcv, hc]
    by_cases hi : c = IAC
    · subst hi
      simp [memTelrcv, hc]
    · obtain ⟨h1, h2⟩ := hiac (suboption env (sub.close subbuffer c)).2.1 (suboption env (sub.close subbuffer c)).1
      simp [memTelrcv, hc, hi, h1, h2]

/-- The bytes of a sub-option with what starts and ends it. -/
def framed (payload : List UInt8) : List UInt8 := IAC :: SB :: (doubled payload ++ [IAC, SE])

theorem plain_byte (hs : s.state = .sb) {c : UInt8} (hc : c ≠ IAC) (l : List UInt8) :
    plain (memTelrcv subbuffer H suboption) s (c :: l) =
      plain (memTelrcv subbuffer H suboption) { s with sub := s.sub.accum subbuffer c } l := by
  simp [plain_cons, memTelrcv, hs, hc]

theorem plain_iac (hs : s.state = .sb) (l : List UInt8) :
    plain (memTelrcv subbuffer H suboption) s (IAC :: l) =
      plain (memTelrcv subbuffer H suboption) { s with state := .se } l := by
  simp [plain_cons, memTelrcv, hs]

theorem plain_double (hs : s.state = .sb) (l : List UInt8) :
    plain (memTelrcv subbuffer H suboption) s (IAC :: IAC :: l) =
      plain (memTelrcv subbuffer H suboption) { s with sub := s.sub.accum subbuffer IAC } l := by
  rw [plain_iac hs, plain_cons]
  simp [memTelrcv, hs]

theorem doubled_iac (l : List UInt8) : doubled (IAC :: l) = IAC :: IAC :: doubled l := rfl

theorem doubled_byte {c : UInt8} (hc : c ≠ IAC) (l : List UInt8) : doubled (c :: l) = c :: doubled l := by
  simp [doubled, hc]

/-- Before SE nothing is called and nothing stored outside of subbuffer. -/
theorem plain_inside (hs : s.state = .sb) (hin : s.sub.Inside subbuffer) {l pre post : List UInt8}
    (hp : doubled l ++ [IAC] = pre ++ post) :
    let t := plain (memTelrcv subbuffer H suboption) s pre
    (t.1.state = .sb ∨ t.1.state = .se) ∧ s.sub.Around subbuffer t.1.sub := by
  induction l generalizing s pre with
  | nil =>
    rcases pre with _ | ⟨c, pre⟩
    · exact ⟨Or.inl hs, SbMem.around_refl⟩
    · obtain ⟨rfl, hl⟩ := List.cons.inj hp
      obtain rfl := (List.append_eq_nil_iff.mp hl.symm).1
      rw [plain_iac hs]
      exact ⟨Or.inr rfl, SbMem.around_refl⟩
  | cons c l ih =>
    have hnext : ∀ pre' : List UInt8, doubled l ++ [IAC] = pre' ++ post →
        let t := plain (memTelrcv subbuffer H suboption) { s with sub := s.sub.accum subbuffer c } pre'
        (t.1.state = .sb ∨ t.1.state = .se) ∧ s.sub.Around subbuffer t.1.sub := by
      intro pre' hp'
      obtain ⟨h1, h2⟩ := ih (s := { s with sub := s.sub.accum subbuffer c }) hs (SbMem.inside_accum hin c) hp'
      exact ⟨h1, (SbMem.around_accum hin c).trans h2⟩
    by_cases hc : c = IAC
    · subst hc
      rw [doubled_iac] at hp
      match pre with
      | [] => exact ⟨Or.inl hs, SbMem.around_refl⟩
      | [d] =>
        obtain ⟨rfl, -⟩ := List.cons.inj hp
        rw [plain_iac hs]
        exact ⟨Or.inr rfl, SbMem.around_refl⟩
      | d :: d' :: pre =>
        simp only [List.cons_append, List.cons.injEq] at hp
        obtain ⟨rfl, rfl, hl⟩ := hp
        rw [plain_double hs]
        exact hnext pre hl
    · rw [doubled_byte hc] at hp
      rcases pre with _ | ⟨d, pre⟩
      · exact ⟨Or.inl hs, SbMem.around_refl⟩
      · obtain ⟨rfl, hl⟩ := List.cons.inj hp
        rw [plain_byte hs hc]
        exact hnext pre hl

theorem plain_payload (hs : s.state = .sb) (l : List UInt8) (rest : List UInt8) :
    plain (memTelrcv subbuffer H suboption) s (doubled l ++ rest) =
      plain (memTelrcv subbuffer H suboption) { s with sub := l.foldl (SbMem.accum subbuffer) s.sub } rest := by
  induction l generalizing s with
  | nil => rfl
  | cons c l ih =>
    by_cases hc : c = IAC
    · subst hc
      rw [doubled_iac, List.cons_append, List.cons_append, plain_double hs]
      exact ih hs
    · rw [doubled_byte hc, List.cons_append, plain_byte hs hc]
      exact ih hs

theorem memTelrcv_iac (hs : s.state = .data) (nc : Option UInt8) :
    memTelrcv subbuffer H suboption s IAC nc = ⟨{ s with state := .iac }, [], false⟩ := by
  obtain ⟨state, sub, env⟩ := s
  obtain rfl : state = .data := hs
  simp only [memTelrcv, elsewhere, telrcv]
  rw [receive_iac (program H) rfl]

theorem plain_open (hs : s.state = .data) (l : List UInt8) :
    plain (memTelrcv subbuffer H suboption) s (IAC :: SB :: l) =
      plain (memTelrcv subbuffer H suboption) { s with state := .sb, sub := s.sub.clear subbuffer } l := by
  rw [plain_cons, memTelrcv_iac hs, plain_cons]
  simp [memTelrcv, memGotiac]

theorem plain_framed (hs : s.state = .data) (payload : List UInt8) :
    let m := (payload.foldl (SbMem.accum subbuffer) (s.sub.clear subbuffer)).close subbuffer SE
    let r := suboption s.env m
    plain (memTelrcv subbuffer H suboption) s (framed payload) =
      (⟨.data, r.2.1, r.1⟩, .suboption (m.view subbuffer) :: put r.2.2) := by
  unfold framed
  rw [plain_open hs, plain_payload rfl, plain_iac rfl, plain_cons]
  simp [memTelrcv]

/-- A prefix that leaves something behind the SB lies before SE. -/
theorem prefix_framed {payload pre post : List UInt8} (h : framed payload = pre ++ post) (h0 : post ≠ []) :
    pre = [] ∨ pre = [IAC] ∨ ∃ pre', pre = IAC :: SB :: pre' ∧ doubled payload ++ [IAC] = pre' ++ post.dropLast := by
  unfold framed at h
  match pre with
  | [] => exact Or.inl rfl
  | [c] =>
    obtain ⟨rfl, -⟩ := List.cons.inj h
    exact Or.inr (Or.inl rfl)
  | c :: d :: pre' =>
    simp only [List.cons_append, List.cons.injEq] at h
    obtain ⟨rfl, rfl, hl⟩ := h
    refine Or.inr (Or.inr ⟨pre', rfl, ?_⟩)
    have hlast := congrArg List.dropLast hl
    rw [List.dropLast_append_of_ne_nil (by nofun), List.dropLast_append_of_ne_nil h0] at hlast
    exact hlast

/-- On the way to SE telrcv is inside the sub-option, or has not come to it. -/
theorem plain_toEnd (hs : s.state = .data) {payload pre post : List UInt8} (h : framed payload = pre ++ post)
    (h0 : post ≠ []) :
    let t := plain (memTelrcv subbuffer H suboption) s pre
    (pre = [] ∨ t.1.state.frame ≠ .data) ∧ s.sub.Around subbuffer t.1.sub := by
  rcases prefix_framed h h0 with rfl | rfl | ⟨pre', rfl, hp⟩
  · exact ⟨Or.inl rfl, SbMem.around_refl⟩
  · rw [plain_cons, memTelrcv_iac hs]
    exact ⟨Or.inr nofun, SbMem.around_refl⟩
  · rw [plain_open hs]
    obtain ⟨h1, h2⟩ := plain_inside (s := { s with state := .sb, sub := s.sub.clear subbuffer }) rfl
      SbMem.inside_clear hp
    refine ⟨Or.inr ?_, h2⟩
    rcases h1 with h1 | h1 <;> rw [h1] <;> nofun

theorem clear_framed (hs : s.state = .data) (payload : List UInt8) :
    Clear (memTelrcv subbuffer H suboption) s (framed payload) := by
  intro pre c x post h
  rcases (plain_toEnd hs h (by nofun)).1 with rfl | hf
  · obtain ⟨rfl, -⟩ := List.cons.inj h
    unfold Agrees
    rw [plain_nil, memTelrcv_iac hs, memTelrcv_iac hs]
    exact ⟨rfl, fun _ => rfl⟩
  · obtain ⟨h1, h2⟩ := memTelrcv_outside hf c (some x)
    unfold Agrees
    rw [h1, if_neg (by rw [h2]; nofun)]
    exact ⟨rfl, fun _ => rfl⟩

/-- Whatever its length and the reads that bring it in, the sub-option is given to suboption
    once, as far as it fits in front of two bytes, and nothing is stored around the buffer
    before. -/
theorem suboption_framed (hs : s.state = .data) (payload : List UInt8)
    {fs : List (List UInt8 × (List Event → Bool))}
    (hf : Brings (memTelrcv subbuffer H suboption) s (framed payload) fs) :
    ∃ m : SbMem, m.subpointer = subbuffer ∧ m.option = payload.take 510 ∧ s.sub.Around subbuffer m ∧
      feed (memTelrcv subbuffer H suboption) s [] fs =
        (⟨.data, (suboption s.env m).2.1, (suboption s.env m).1⟩, [],
          .suboption (m.view subbuffer) :: put (suboption s.env m).2.2) ∧
      ∀ pre, pre <+: framed payload → pre ≠ framed payload →
        s.sub.Around subbuffer (plain (memTelrcv subbuffer H suboption) s pre).1.sub := by
  obtain ⟨hin, haround, -⟩ := SbMem.accum_all (SbMem.inside_clear : SbMem.Inside subbuffer (s.sub.clear subbuffer)) payload
  obtain ⟨hptr, -, hclose, -⟩ := SbMem.close_spec hin SE
  refine ⟨_, hptr, SbMem.option_close payload SE, haround.trans hclose, ?_, ?_⟩
  · have hclear : Clear (memTelrcv subbuffer H suboption) s (brought fs) := by
      rw [hf.stream]
      exact clear_framed hs payload
    have hall := feed_all hclear hf.done
    rw [hf.stream, plain_framed hs] at hall
    exact Prod.ext hall.1 (Prod.ext hf.done hall.2)
  · rintro pre ⟨post, hpost⟩ hne
    refine (plain_toEnd hs hpost.symm ?_).2
    rintro rfl
    rw [List.append_nil] at hpost
    exact hne hpost

end Telrcv

/-- Two reads that part an IAC of the sub-option from its double. -/
theorem suboption_framed_in_two_reads :
    let s : MemRcv Unit := ⟨.data, ⟨fun _ => 0, 0, 0⟩, ()⟩
    let keep : Unit → SbMem → Unit × SbMem × List UInt8 := fun e m => (e, m, [])
    let fs : List (List UInt8 × (List Event → Bool)) :=
      [([IAC, SB, 1, IAC], fun _ => true), ([IAC, 2, IAC, SE], fun _ => true)]
    Brings (memTelrcv 1000 editing keep) s (framed [1, IAC, 2]) fs ∧
      ∃ m : SbMem, m.option = [1, IAC, 2] ∧
        (feed (memTelrcv 1000 editing keep) s [] fs).2.2 = [.suboption (m.view 1000)] := by
  intro s keep fs
  have hb : Brings (memTelrcv 1000 editing keep) s (framed [1, IAC, 2]) fs := ⟨rfl, by decide +kernel⟩
  obtain ⟨m, -, hm, -, hfeed, -⟩ := suboption_framed (s := s) rfl [1, IAC, 2] hb
  refine ⟨hb, m, hm, ?_⟩
  rw [hfeed]
  rfl

end Netutils.Telnetd
