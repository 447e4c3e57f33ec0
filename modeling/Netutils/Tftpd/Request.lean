/-
  Netutils.Tftpd.Request — the parse of a request (tftpd/tftpd.c, the beginning of tftp).

  One loop looks for the NUL of the file name and for that of the mode, and the test behind it
  looks at the byte where it has stopped, which may be the first one that has not been
  received. A NUL that lies there ends the mode as well as one of the request does. The parse
  stays inside the datagram exactly where that has two NULs behind its opcode
  (`parse_inside_iff`).
-/

import Netutils.Lib.Cells
import Netutils.Libc.Ctype

namespace Netutils.Tftpd

open Netutils.Lib.Cells Netutils.Libc

/-! ## tftp -/

/-- buf behind recvfrom: what was there before, and what lies behind buf, is `old`. -/
def received (datagram : List UInt8) (old : Nat → UInt8) : Nat → UInt8 := fun i => datagram.getD i (old i)

/-- Offset of th_stuff. -/
def stuff : Nat := 2

structure Request where
  filename : Nat
  mode : Nat
  convert : Bool
  deriving DecidableEq

/-- `while (cp < buf + size)`, with `left` bytes up to there: where it stops, and what it has
    examined. -/
def scan (m : Nat → UInt8) : Nat → Nat → Nat × List Nat
  | 0, cp => (cp, [])
  | left + 1, cp =>
    if m cp = 0 then (cp, [cp])
    else
      let r := scan m left (cp + 1)
      (r.1, cp :: r.2)

/-- `for (cp = mode; *cp; cp++)`, with a NUL `left` bytes further on. -/
def lower : Nat → (Nat → UInt8) → Nat → (Nat → UInt8) × List Nat
  | 0, m, cp => (m, [cp])
  | left + 1, m, cp =>
    if m cp = 0 then (m, [cp])
    else
      let r := lower left (if isupper (m cp) then store m cp [tolower (m cp)] else m) (cp + 1)
      (r.1, cp :: r.2)

/-- `strcmp (s, mode) == 0` -/
def strcmp (m : Nat → UInt8) : List UInt8 → Nat → Bool × List Nat
  | [], mode => (m mode = 0, [mode])
  | c :: s, mode =>
    if m mode = c then
      let r := strcmp m s (mode + 1)
      (r.1, mode :: r.2)
    else (false, [mode])

/-- f_mode and f_convert of formats: "netascii" and "octet". -/
def formats : List (List UInt8 × Bool) :=
  [([0x6e, 0x65, 0x74, 0x61, 0x73, 0x63, 0x69, 0x69], true), ([0x6f, 0x63, 0x74, 0x65, 0x74], false)]

def lookup (m : Nat → UInt8) (mode : Nat) : List (List UInt8 × Bool) → Option Bool × List Nat
  | [] => (none, [])
  | pf :: l =>
    let r := strcmp m pf.1 mode
    if r.1 then (some pf.2, r.2)
    else
      let r' := lookup m mode l
      (r'.1, r.2 ++ r'.2)

/-- Up to the lookup of the mode: the request, `none` after nak (EBADOP), and all that has been
    examined. -/
def parse (m : Nat → UInt8) (size : Nat) : Option Request × List Nat :=
  let name := scan m (size - stuff) stuff
  if m name.1 ≠ 0 then (none, name.2 ++ [name.1])
  else
    let mode := name.1 + 1
    let last := scan m (size - mode) mode
    if m last.1 ≠ 0 then (none, name.2 ++ [name.1] ++ (last.2 ++ [last.1]))
    else
      let low := lower (last.1 - mode) m mode
      let found := lookup low.1 mode formats
      (found.1.map fun convert => ⟨stuff, mode, convert⟩,
        name.2 ++ [name.1] ++ (last.2 ++ [last.1]) ++ low.2 ++ found.2)

/-! ## The loops -/

variable {m : Nat → UInt8} {left cp n : Nat}

/-- It stops at the first NUL, or behind all there is. -/
theorem scan_spec (m : Nat → UInt8) (left cp : Nat) :
    cp ≤ (scan m left cp).1 ∧ (∀ i, cp ≤ i → i < (scan m left cp).1 → m i ≠ 0) ∧
      (∀ i ∈ (scan m left cp).2, i < cp + left) ∧
      ((scan m left cp).1 < cp + left ∧ m (scan m left cp).1 = 0 ∨ (scan m left cp).1 = cp + left) := by
  induction left generalizing cp with
  | zero =>
    refine ⟨Nat.le_refl _, fun i h1 h2 => absurd h2 (Nat.not_lt.mpr h1), ?_, Or.inr rfl⟩
    intro i hi
    cases hi
  | succ left ih =>
    unfold scan
    by_cases h0 : m cp = 0
    · rw [if_pos h0]
      refine ⟨Nat.le_refl _, fun i h1 h2 => absurd h2 (Nat.not_lt.mpr h1), ?_, Or.inl ⟨by simp, h0⟩⟩
      intro i hi
      obtain rfl := List.mem_singleton.mp hi
      omega
    · rw [if_neg h0]
      obtain ⟨hle, hfirst, hseen, hend⟩ := ih (cp + 1)
      refine ⟨by simp only; omega, ?_, ?_, ?_⟩
      · intro i h1 h2
        rcases Nat.eq_or_lt_of_le h1 with rfl | hlt
        · exact h0
        · exact hfirst i hlt h2
      · intro i hi
        rcases List.mem_cons.mp hi with rfl | hi
        · omega
        · have := hseen i hi
          omega
      · simp only
        rw [show cp + (left + 1) = cp + 1 + left by omega]
        exact hend

/-- With a NUL in reach the loop stops at one. -/
theorem scan_stops {j : Nat} (left : Nat) (hj : cp ≤ j) (hlt : j < cp + left) (h0 : m j = 0) :
    (scan m left cp).1 ≤ j ∧ m (scan m left cp).1 = 0 := by
  obtain ⟨hle, hfirst, -, hend⟩ := scan_spec m left cp
  have hstop : (scan m left cp).1 ≤ j := by
    by_contra hbeyond
    exact hfirst j hj (by omega) h0
  refine ⟨hstop, ?_⟩
  rcases hend with h | h
  · exact h.2
  · omega

/-- The loop ends where it should, and no NUL comes or goes. -/
theorem lower_spec (m : Nat → UInt8) (left cp : Nat) :
    (∀ i ∈ (lower left m cp).2, i ≤ cp + left) ∧ ∀ i, (lower left m cp).1 i = 0 ↔ m i = 0 := by
  induction left generalizing m cp with
  | zero =>
    refine ⟨?_, fun i => Iff.rfl⟩
    intro i hi
    obtain rfl := List.mem_singleton.mp hi
    exact Nat.le_refl _
  | succ left ih =>
    unfold lower
    by_cases h0 : m cp = 0
    · rw [if_pos h0]
      refine ⟨?_, fun i => Iff.rfl⟩
      intro i hi
      obtain rfl := List.mem_singleton.mp hi
      exact Nat.le_add_right _ _
    · rw [if_neg h0]
      obtain ⟨hseen, hnul⟩ := ih (if isupper (m cp) then store m cp [tolower (m cp)] else m) (cp + 1)
      refine ⟨?_, ?_⟩
      · intro i hi
        rcases List.mem_cons.mp hi with rfl | hi
        · omega
        · have := hseen i hi
          omega
      · intro i
        rw [hnul i]
        split
        · rename_i hupper
          by_cases hi : i = cp
          · rw [hi, store_same]
            exact iff_of_false (tolower_ne_zero hupper) h0
          · rw [store_ne _ hi]
        · exact Iff.rfl

/-- strcmp goes no further than the NUL of the mode. -/
theorem strcmp_seen {s : List UInt8} (hs : 0 ∉ s) {mode last : Nat} (hle : mode ≤ last) (h0 : m last = 0) :
    ∀ i ∈ (strcmp m s mode).2, i ≤ last := by
  induction s generalizing mode with
  | nil =>
    intro i hi
    obtain rfl := List.mem_singleton.mp hi
    exact hle
  | cons c s ih =>
    intro i hi
    unfold strcmp at hi
    split at hi
    · rename_i hc
      rcases List.mem_cons.mp hi with rfl | hi
      · exact hle
      · have hne : mode ≠ last := by
          rintro rfl
          exact hs (hc.symm.trans h0 ▸ List.mem_cons_self)
        exact ih (fun h => hs (List.mem_cons_of_mem _ h)) (by omega) i hi
    · obtain rfl := List.mem_singleton.mp hi
      exact hle

theorem lookup_seen {l : List (List UInt8 × Bool)} (hl : ∀ pf ∈ l, 0 ∉ pf.1) {mode last : Nat} (hle : mode ≤ last)
    (h0 : m last = 0) : ∀ i ∈ (lookup m mode l).2, i ≤ last := by
  induction l with
  | nil =>
    intro i hi
    cases hi
  | cons pf l ih =>
    have hhead := strcmp_seen (hl pf List.mem_cons_self) hle h0
    intro i hi
    unfold lookup at hi
    simp only at hi
    split at hi
    · exact hhead i hi
    · rcases List.mem_append.mp hi with hi | hi
      · exact hhead i hi
      · exact ih (fun qf hq => hl qf (List.mem_cons_of_mem _ hq)) i hi

/-! ## Inside the datagram -/

/-- A request has both NULs among the first `n` bytes, and nothing else is examined. -/
structure Inside (m : Nat → UInt8) (n : Nat) (p : Option Request × List Nat) : Prop where
  filename : ∀ r ∈ p.1, ∃ i, r.filename ≤ i ∧ i < n ∧ m i = 0
  mode : ∀ r ∈ p.1, ∃ i, r.mode ≤ i ∧ i < n ∧ m i = 0
  examined : ∀ i ∈ p.2, i < n

/-- Two NULs behind the opcode. -/
def TwoNuls (datagram : List UInt8) : Prop :=
  ∃ i j, stuff ≤ i ∧ i < j ∧ datagram[i]? = some 0 ∧ datagram[j]? = some 0

variable {datagram : List UInt8} {old : Nat → UInt8}

theorem received_of_getElem? (old : Nat → UInt8) {i : Nat} {c : UInt8} (h : datagram[i]? = some c) :
    i < datagram.length ∧ received datagram old i = c := by
  obtain ⟨hi, -⟩ := List.getElem?_eq_some_iff.mp h
  refine ⟨hi, ?_⟩
  rw [received, List.getD_eq_getElem?_getD, h, Option.getD_some]

theorem getElem?_of_received {i : Nat} (hi : i < datagram.length) (h : received datagram old i = 0) :
    datagram[i]? = some 0 := by
  rw [received, List.getD_eq_getElem?_getD, List.getElem?_eq_getElem hi, Option.getD_some] at h
  rw [List.getElem?_eq_getElem hi, h]

/-- With two NULs both loops stop at one. -/
theorem parse_inside (h : TwoNuls datagram) :
    Inside (received datagram old) datagram.length (parse (received datagram old) datagram.length) := by
  obtain ⟨i, j, hi, hij, hnul, hnul'⟩ := h
  obtain ⟨-, hzero⟩ := received_of_getElem? old hnul
  obtain ⟨hj, hzero'⟩ := received_of_getElem? old hnul'
  generalize received datagram old = m at hzero hzero' ⊢
  generalize datagram.length = n at hj ⊢
  obtain ⟨hname, hname0⟩ := scan_stops (n - stuff) hi (by omega) hzero
  obtain ⟨hlow, -, hseen, -⟩ := scan_spec m (n - stuff) stuff
  unfold parse
  generalize scan m (n - stuff) stuff = name at hname hname0 hlow hseen ⊢
  obtain ⟨hlast, hlast0⟩ := scan_stops (n - (name.1 + 1)) (show name.1 + 1 ≤ j by omega) (by omega) hzero'
  obtain ⟨hlow', -, hseen', -⟩ := scan_spec m (n - (name.1 + 1)) (name.1 + 1)
  simp only [if_neg (not_not.mpr hname0)]
  generalize scan m (n - (name.1 + 1)) (name.1 + 1) = last at hlast hlast0 hlow' hseen' ⊢
  simp only [if_neg (not_not.mpr hlast0)]
  obtain ⟨hseen'', hnul''⟩ := lower_spec m (last.1 - (name.1 + 1)) (name.1 + 1)
  generalize lower (last.1 - (name.1 + 1)) m (name.1 + 1) = low at hseen'' hnul'' ⊢
  have hformats : ∀ pf ∈ formats, 0 ∉ pf.1 := by decide
  have hfound := lookup_seen hformats hlow' ((hnul'' last.1).mpr hlast0)
  refine ⟨?_, ?_, ?_⟩
  · intro r hr
    obtain ⟨convert, -, rfl⟩ := Option.map_eq_some_iff.mp hr
    exact ⟨name.1, hlow, by omega, hname0⟩
  · intro r hr
    obtain ⟨convert, -, rfl⟩ := Option.map_eq_some_iff.mp hr
    exact ⟨last.1, hlow', by omega, hlast0⟩
  · intro k hk
    simp only [List.append_assoc, List.mem_append, List.mem_singleton] at hk
    rcases hk with hk | rfl | hk | rfl | hk | hk
    · have := hseen k hk
      omega
    · omega
    · have := hseen' k hk
      omega
    · omega
    · have := hseen'' k hk
      omega
    · have := hfound k hk
      omega

/-- The byte where a loop stops is always examined. -/
theorem nuls_of_inside
    (h : ∀ i ∈ (parse (received datagram old) datagram.length).2, i < datagram.length) : TwoNuls datagram := by
  obtain ⟨hlow, -, -, hend⟩ := scan_spec (received datagram old) (datagram.length - stuff) stuff
  unfold parse at h
  generalize scan (received datagram old) (datagram.length - stuff) stuff = name at h hlow hend
  have hname : name.1 < datagram.length := by
    apply h
    simp only
    repeat' split
    all_goals simp
  have hname0 : received datagram old name.1 = 0 := by
    rcases hend with hend | hend
    · exact hend.2
    · omega
  simp only [if_neg (not_not.mpr hname0)] at h
  obtain ⟨hlow', -, -, hend'⟩ := scan_spec (received datagram old) (datagram.length - (name.1 + 1)) (name.1 + 1)
  generalize scan (received datagram old) (datagram.length - (name.1 + 1)) (name.1 + 1) = last at h hlow' hend'
  have hlast : last.1 < datagram.length := by
    apply h
    split <;> simp
  have hlast0 : received datagram old last.1 = 0 := by
    rcases hend' with hend' | hend'
    · exact hend'.2
    · omega
  exact ⟨name.1, last.1, hlow, hlow', getElem?_of_received hname hname0, getElem?_of_received hlast hlast0⟩

/-- Whatever lies behind the datagram. -/
theorem parse_inside_iff (datagram : List UInt8) (old : Nat → UInt8) :
    Inside (received datagram old) datagram.length (parse (received datagram old) datagram.length) ↔
      TwoNuls datagram :=
  ⟨fun h => nuls_of_inside h.examined, parse_inside⟩

/-- A read request for "f" in mode "octet" without the last NUL; buf was empty, so there is one
    behind it. -/
def unterminated : List UInt8 := [0, 1, 0x66, 0, 0x6f, 0x63, 0x74, 0x65, 0x74]

theorem unterminated_is_taken :
    (parse (received unterminated fun _ => 0) unterminated.length).1 = some ⟨2, 4, false⟩ ∧
      ¬ Inside (received unterminated fun _ => 0) unterminated.length
        (parse (received unterminated fun _ => 0) unterminated.length) := by
  refine ⟨by decide +kernel, fun h => ?_⟩
  have hlast := h.examined 9 (by decide +kernel)
  exact absurd hlast (by decide)

end Netutils.Tftpd
