/-
  Netutils.Libtelnet.Keyid — where the key ids of the negotiation are written.

  encrypt_keyid copies a key id of any length into the 64 bytes of ki[i].keyid when a cipher
  is selected. fb64_keyid forgets at once every key id but the one zero byte, so what is put
  into str_keyid and str_start is short, and a key id longer than MAXKEYLEN that arrives
  while a cipher is selected is all that is ever written outside (`keyids_inside_iff`).
-/

import Netutils.Libtelnet.Encrypt

namespace Netutils.Libtelnet

open Netutils.Arpa
open Netutils.Lib.Transition
open Netutils.Wire (doubled)

namespace Encrypt

variable {Schedule : Type} {des : Des Schedule} {s t u : Encrypt Schedule}

/-- Everything has been written inside its array, and no length has been more than MAXKEYLEN. -/
structure Inside (s : Encrypt Schedule) : Prop where
  keyid : ∀ d, (s.ki d).keyid.length ≤ MAXKEYLEN
  keylen : ∀ d, (s.ki d).keylenMax ≤ MAXKEYLEN
  strKeyid : s.strKeyidTop ≤ strKeyidSize
  strStart : s.strStartTop ≤ strStartSize

/-- No key id arrives that is longer than MAXKEYLEN, while a cipher is selected for its
    direction. -/
def KeyidFits (a : Action × (Cipher → Block)) (s : Encrypt Schedule) : Prop :=
  match a.1 with
  | .encKeyid k => s.getcrypt .decrypt ≠ none → k.length ≤ MAXKEYLEN
  | .decKeyid k => s.getcrypt .encrypt ≠ none → k.length ≤ MAXKEYLEN
  | _ => True

/-- Between calls no key id is longer than a byte. -/
structure Tame (s : Encrypt Schedule) : Prop where
  keylen : ∀ d, (s.ki d).keylen ≤ 1
  room : ∀ d, MAXKEYLEN ≤ (s.ki d).keyid.length

/-- A step that leaves the state tame and writes nothing outside. -/
def Even (s t : Encrypt Schedule) : Prop := Tame s → Tame t ∧ (Inside t ↔ Inside s)

theorem Even.refl (s : Encrypt Schedule) : Even s s := fun h => ⟨h, Iff.rfl⟩

theorem Even.trans (h : Even s t) (h' : Even t u) : Even s u := by
  intro hs
  obtain ⟨ht, hi⟩ := h hs
  obtain ⟨hu, hi'⟩ := h' ht
  exact ⟨hu, hi'.trans hi⟩

/-- A step that does not touch the key ids. -/
structure SameKeys (s t : Encrypt Schedule) : Prop where
  ki : t.ki = s.ki
  strKeyid : t.strKeyidTop = s.strKeyidTop
  strStart : t.strStartTop = s.strStartTop

theorem SameKeys.trans (h : SameKeys s t) (h' : SameKeys t u) : SameKeys s u :=
  ⟨h'.ki.trans h.ki, h'.strKeyid.trans h.strKeyid, h'.strStart.trans h.strStart⟩

theorem SameKeys.even (h : SameKeys s t) : Even s t := by
  obtain ⟨h1, h2, h3⟩ := h
  intro hs
  refine ⟨⟨by rw [h1]; exact hs.keylen, by rw [h1]; exact hs.room⟩, ?_, ?_⟩
  · intro hi
    exact ⟨by rw [← h1]; exact hi.keyid, by rw [← h1]; exact hi.keylen, by rw [← h2]; exact hi.strKeyid,
      by rw [← h3]; exact hi.strStart⟩
  · intro hi
    exact ⟨by rw [h1]; exact hi.keyid, by rw [h1]; exact hi.keylen, by rw [h2]; exact hi.strKeyid,
      by rw [h3]; exact hi.strStart⟩

/-! ## What does not touch them -/

theorem sameKeys_start (c : Cipher) (random : Block) (s : Encrypt Schedule) : SameKeys s (fb64Start des c random s).2 := by
  unfold fb64Start
  simp only
  split
  · exact ⟨rfl, rfl, rfl⟩
  · split <;> exact ⟨rfl, rfl, rfl⟩

theorem sameKeys_is (c : Cipher) (data : List UInt8) (s : Encrypt Schedule) : SameKeys s (fb64Is des c data s).2 := by
  unfold fb64Is
  simp only
  repeat' split
  all_goals exact ⟨rfl, rfl, rfl⟩

theorem sameKeys_session (c : Cipher) (key : Option SessionKey) (random : Block) (s : Encrypt Schedule) :
    SameKeys s (fb64Session des c key random s) := by
  unfold fb64Session
  simp only
  repeat' split
  · exact ⟨rfl, rfl, rfl⟩
  · exact SameKeys.trans (t := s.setFb c _) ⟨rfl, rfl, rfl⟩ (sameKeys_start c random _)
  · exact ⟨rfl, rfl, rfl⟩
  · exact ⟨rfl, rfl, rfl⟩

/-! ## What writes them -/

theorem length_doubled_le (l : List UInt8) : (doubled l).length ≤ 2 * l.length := by
  have hcount : l.count IAC ≤ l.length := List.count_le_length
  rw [Wire.length_doubled]
  omega

/-- A key id of at most a byte leaves room in the arrays. -/
theorem length_keyid_le (d : Dir) {k : List UInt8} (hk : k.length ≤ 1) :
    (Message.keyid d k).bytes.length ≤ strKeyidSize ∧ (Message.start k).bytes.length ≤ strStartSize ∧
      (Message.requestStart k).bytes.length ≤ strStartSize := by
  have := length_doubled_le k
  have hsize : strKeyidSize = 133 ∧ strStartSize = 72 := ⟨rfl, rfl⟩
  refine ⟨?_, ?_, ?_⟩
  · cases d <;> simp [Message.bytes, Message.body] <;> omega
  · simp [Message.bytes, Message.body]; omega
  · simp [Message.bytes, Message.body]; omega

theorem length_take_keyid (h : Tame s) (d : Dir) : ((s.ki d).keyid.take (s.ki d).keylen).length ≤ 1 := by
  have := h.keylen d
  rw [List.length_take]
  omega

theorem even_netWriteStart (s : Encrypt Schedule) {m : Message} (hm : m.bytes.length ≤ strStartSize) :
    Even s (s.netWriteStart m) := by
  intro hs
  refine ⟨⟨hs.keylen, hs.room⟩, ?_, ?_⟩
  · intro hi
    exact ⟨hi.keyid, hi.keylen, hi.strKeyid, Nat.le_trans (Nat.le_max_left _ _) hi.strStart⟩
  · intro hi
    exact ⟨hi.keyid, hi.keylen, hi.strKeyid, Nat.max_le.mpr ⟨hi.strStart, hm⟩⟩

theorem even_requestStart (s : Encrypt Schedule) : Even s s.sendRequestStart := by
  intro hs
  exact even_netWriteStart s (length_keyid_le .decrypt (length_take_keyid hs .decrypt)).2.2 hs

theorem even_startOutput (random : Cipher → Block) (type : UInt8) (s : Encrypt Schedule) :
    Even s (startOutput des random type s) := by
  unfold startOutput
  split
  · exact Even.refl s
  · rename_i c _
    simp only
    have h : Even s (fb64Start des c (random c) s).2 := (sameKeys_start c (random c) s).even
    split
    · exact h
    · intro hs
      have hm := (length_keyid_le .encrypt (length_take_keyid (h hs).1 .encrypt)).2.1
      exact h.trans ((even_netWriteStart _ hm).trans (SameKeys.even ⟨rfl, rfl, rfl⟩)) hs

theorem even_sendEnd (s : Encrypt Schedule) : Even s s.sendEnd := by
  unfold sendEnd
  split
  · exact Even.refl s
  · exact SameKeys.even ⟨rfl, rfl, rfl⟩

/-- A key id of at most a byte is answered. -/
theorem even_answer (s : Encrypt Schedule) (d : Dir) :
    Even s (s.sendKeyid d ((s.ki d).keyid.take (s.ki d).keylen) false) := by
  intro hs
  have hm := (length_keyid_le d (length_take_keyid hs d)).1
  refine ⟨⟨hs.keylen, hs.room⟩, ?_, ?_⟩
  · intro hi
    exact ⟨hi.keyid, hi.keylen, Nat.le_trans (Nat.le_max_left _ _) hi.strKeyid, hi.strStart⟩
  · intro hi
    exact ⟨hi.keyid, hi.keylen, Nat.max_le.mpr ⟨hi.strKeyid, hm⟩, hi.strStart⟩

theorem forall_setKi {p : KeyInfo → Prop} {d : Dir} {k : KeyInfo} (h : p k ↔ p (s.ki d)) :
    (∀ e, p ((s.setKi d k).ki e)) ↔ ∀ e, p (s.ki e) := by
  have hki : ∀ e, (s.setKi d k).ki e = if e = d then k else s.ki e := fun e => rfl
  constructor
  · intro hp e
    have := hp e
    rw [hki] at this
    split at this
    · rename_i he
      rw [he]
      exact h.mp this
    · exact this
  · intro hp e
    rw [hki]
    split
    · exact h.mpr (hp d)
    · exact hp e

theorem tame_setKi (hs : Tame s) (d : Dir) {k : KeyInfo} (hlen : k.keylen ≤ 1) (hroom : MAXKEYLEN ≤ k.keyid.length) :
    Tame (s.setKi d k) := by
  constructor
  · exact (forall_setKi (p := fun k => k.keylen ≤ 1) (iff_of_true hlen (hs.keylen d))).mpr hs.keylen
  · exact (forall_setKi (p := fun k => MAXKEYLEN ≤ k.keyid.length) (iff_of_true hroom (hs.room d))).mpr hs.room

/-- A new entry of ki that is tame, written as far as the old one or within its array. -/
theorem even_setKi (s : Encrypt Schedule) (d : Dir) {k : KeyInfo} (hlen : k.keylen ≤ 1)
    (hroom : MAXKEYLEN ≤ k.keyid.length)
    (hkeyid : k.keyid.length ≤ MAXKEYLEN ↔ (s.ki d).keyid.length ≤ MAXKEYLEN)
    (hmax : k.keylenMax ≤ MAXKEYLEN ↔ (s.ki d).keylenMax ≤ MAXKEYLEN) : Even s (s.setKi d k) := by
  intro hs
  refine ⟨tame_setKi hs d hlen hroom, ?_, ?_⟩
  · intro h
    obtain ⟨h1, h2, h3, h4⟩ := h
    exact ⟨(forall_setKi (p := fun k => k.keyid.length ≤ MAXKEYLEN) hkeyid).mp h1,
      (forall_setKi (p := fun k => k.keylenMax ≤ MAXKEYLEN) hmax).mp h2, h3, h4⟩
  · intro h
    obtain ⟨h1, h2, h3, h4⟩ := h
    exact ⟨(forall_setKi (p := fun k => k.keyid.length ≤ MAXKEYLEN) hkeyid).mpr h1,
      (forall_setKi (p := fun k => k.keylenMax ≤ MAXKEYLEN) hmax).mpr h2, h3, h4⟩

/-- The copy of the zero key id. -/
theorem even_saveZero (s : Encrypt Schedule) (d : Dir) : Even s (s.sendKeyid d [0] true) := by
  intro hs
  have hroom := hs.room d
  have hM : MAXKEYLEN = 64 := rfl
  have hset := even_setKi s d (k := ⟨[0] ++ (s.ki d).keyid.drop 1, 1, max (s.ki d).keylenMax 1⟩) (Nat.le_refl _)
    (by simp; omega) (by simp; omega) (by simp; omega)
  have hsend := even_answer (s.setKi d ⟨[0] ++ (s.ki d).keyid.drop 1, 1, max (s.ki d).keylenMax 1⟩) d
  have hki : (s.setKi d ⟨[0] ++ (s.ki d).keyid.drop 1, 1, max (s.ki d).keylenMax 1⟩).ki d =
      ⟨[0] ++ (s.ki d).keyid.drop 1, 1, max (s.ki d).keylenMax 1⟩ := if_pos rfl
  rw [hki] at hsend
  exact hset.trans hsend hs

theorem even_reply (c : Cipher) (data : List UInt8) (s : Encrypt Schedule) : Even s (fb64Reply des c data s).2 := by
  unfold fb64Reply
  simp only
  split
  · split
    · exact (even_saveZero s .encrypt).trans (SameKeys.even ⟨rfl, rfl, rfl⟩)
    · split <;> exact SameKeys.even ⟨rfl, rfl, rfl⟩
  · exact SameKeys.even ⟨rfl, rfl, rfl⟩

/-- fb64_keyid keeps the one zero byte and forgets everything else. -/
theorem keyid_forgets (c : Cipher) (d : Dir) (s : Encrypt Schedule) :
    ∃ l ≤ 1, SameKeys (s.setKi d { s.ki d with keylen := l }) (fb64Keyid c d s).2 := by
  unfold fb64Keyid
  simp only
  split
  · exact ⟨0, Nat.zero_le _, rfl, rfl, rfl⟩
  · rename_i h
    refine ⟨1, Nat.le_refl _, ?_, rfl, rfl⟩
    have hlen : (s.ki d).keylen = 1 := by simp at h; exact h.1
    funext e
    show s.ki e = if e = d then _ else s.ki e
    split
    · rename_i he
      rw [he, ← hlen]
    · rfl

theorem even_keyid (c : Cipher) (d : Dir) (s : Encrypt Schedule) : Even s (fb64Keyid c d s).2 := by
  obtain ⟨l, hl, hkeys⟩ := keyid_forgets c d s
  intro hs
  exact (even_setKi s d (k := { s.ki d with keylen := l }) hl (hs.room d) Iff.rfl Iff.rfl).trans hkeys.even hs

theorem setKi_setKi (s : Encrypt Schedule) (d : Dir) (k k' : KeyInfo) : (s.setKi d k).setKi d k' = s.setKi d k' := by
  unfold setKi
  congr 1
  funext e
  by_cases he : e = d
  · rw [if_pos he, if_pos he]
  · rw [if_neg he, if_neg he]
    exact if_neg he

/-- A key id that is new is copied before fb64_keyid looks at it. -/
theorem copy_spec (c : Cipher) (d : Dir) (k : List UInt8) (s : Encrypt Schedule) (hs : Tame s) :
    let t := (fb64Keyid c d (s.setKi d
      ⟨k ++ (s.ki d).keyid.drop k.length, k.length, max (s.ki d).keylenMax k.length⟩)).2
    Tame t ∧ (Inside t ↔ Inside s ∧ k.length ≤ MAXKEYLEN) := by
  intro t
  obtain ⟨l, hl, hkeys⟩ := keyid_forgets c d (s.setKi d
    ⟨k ++ (s.ki d).keyid.drop k.length, k.length, max (s.ki d).keylenMax k.length⟩)
  rw [setKi_setKi, show (s.setKi d _).ki d = _ from if_pos rfl] at hkeys
  have hroom := hs.room d
  have hlen : (k ++ (s.ki d).keyid.drop k.length).length = max (s.ki d).keyid.length k.length := by
    rw [List.length_append, List.length_drop]
    omega
  by_cases hk : k.length ≤ MAXKEYLEN
  · have hset := even_setKi s d
      (k := ⟨k ++ (s.ki d).keyid.drop k.length, l, max (s.ki d).keylenMax k.length⟩) hl
      (by rw [hlen]; omega) (by rw [hlen]; omega) (by simp only; omega)
    obtain ⟨ht, hi⟩ := hset.trans hkeys.even hs
    exact ⟨ht, hi.trans ⟨fun h => ⟨h, hk⟩, fun h => h.1⟩⟩
  · have ht := tame_setKi hs d
      (k := ⟨k ++ (s.ki d).keyid.drop k.length, l, max (s.ki d).keylenMax k.length⟩) hl (by rw [hlen]; omega)
    refine ⟨(hkeys.even ht).1, ?_, fun h => absurd h.2 hk⟩
    intro hi
    have hlong := hi.keyid d
    rw [hkeys.ki, show (s.setKi d _).ki d = _ from if_pos rfl, hlen] at hlong
    omega

theorem even_none (d : Dir) (s : Encrypt Schedule) : Even s (s.setKi d { s.ki d with keylen := 0 }) := by
  intro hs
  exact even_setKi s d (k := { s.ki d with keylen := 0 }) (Nat.zero_le _) (hs.room d) Iff.rfl Iff.rfl hs

theorem encryptKeyid_spec (random : Cipher → Block) (d : Dir) (k : List UInt8) (s : Encrypt Schedule) (hs : Tame s) :
    Tame (encryptKeyid des random d k s) ∧
      (Inside (encryptKeyid des random d k s) ↔ Inside s ∧ (s.getcrypt d ≠ none → k.length ≤ MAXKEYLEN)) := by
  have hM : MAXKEYLEN = 64 := rfl
  -- where nothing is copied, the key id is short or no cipher is selected
  have hquiet : ∀ {t : Encrypt Schedule}, Even s t → (s.getcrypt d ≠ none → k.length ≤ MAXKEYLEN) →
      Tame t ∧ (Inside t ↔ Inside s ∧ (s.getcrypt d ≠ none → k.length ≤ MAXKEYLEN)) := by
    intro t he hk
    obtain ⟨ht, hi⟩ := he hs
    exact ⟨ht, hi.trans ⟨fun h => ⟨h, hk⟩, fun h => h.1⟩⟩
  unfold encryptKeyid
  simp only
  rcases hc : s.getcrypt d with _ | c
  · rw [hc] at hquiet
    simp only
    split
    · exact hquiet (Even.refl s) (fun h => absurd rfl h)
    · exact hquiet ((even_none d s).trans (even_answer _ d)) (fun h => absurd rfl h)
  · rw [hc] at hquiet
    simp only
    by_cases h0 : k.length = 0
    · rw [if_pos h0]
      split
      · exact hquiet (Even.refl s) (fun _ => by omega)
      · exact hquiet ((even_none d s).trans ((even_keyid c d _).trans (even_answer _ d))) (fun _ => by omega)
    rw [if_neg h0]
    split
    · -- Length or contents are different
      obtain ⟨ht, hi⟩ := copy_spec c d k s hs
      obtain ⟨hu, hi'⟩ := even_answer _ d ht
      refine ⟨hu, (hi'.trans hi).trans ?_⟩
      exact ⟨fun h => ⟨h.1, fun _ => h.2⟩, fun h => ⟨h.1, h.2 (by simp)⟩⟩
    · rename_i hsame
      have hlen : k.length ≤ MAXKEYLEN := by
        have := hs.keylen d
        have : k.length = (s.ki d).keylen := by
          by_cases h : k.length = (s.ki d).keylen
          · exact h
          · exact absurd (Or.inl h) hsame
        omega
      refine hquiet ?_ (fun _ => hlen)
      split
      · exact (even_keyid c d s).trans (even_startOutput random _ _)
      · exact even_keyid c d s

/-! ## The calls -/

/-- A type that is picked, and output perhaps started. -/
theorem even_pick (random : Cipher → Block) (type : UInt8) {p : Prop} [Decidable p] (h : Even s t) :
    Even s (if p then startOutput des random type { t with encryptMode := type } else { t with encryptMode := type }) := by
  have hmode : Even s { t with encryptMode := type } := h.trans (SameKeys.even ⟨rfl, rfl, rfl⟩)
  split
  · exact hmode.trans (even_startOutput random _ _)
  · exact hmode

theorem even_pickInput (type : UInt8) {p : Prop} [Decidable p] (h : Even s t) :
    Even s (if p then { t with decryptMode := type }.sendRequestStart else { t with decryptMode := type }) := by
  have hmode : Even s { t with decryptMode := type } := h.trans (SameKeys.even ⟨rfl, rfl, rfl⟩)
  split
  · exact hmode.trans (even_requestStart _)
  · exact hmode

theorem even_support (random : Cipher → Block) (typelist : List UInt8) (s : Encrypt Schedule) :
    Even s (encryptSupport des random typelist s) := by
  have hremote : ∀ f, SameKeys s { s with remoteSupportsDecrypt := f } := fun f => ⟨rfl, rfl, rfl⟩
  unfold encryptSupport
  simp only
  split
  · exact (hremote _).even
  split
  · exact (hremote _).even
  · rename_i c _
    have h : ∀ f, Even s (fb64Start des c (random c) { s with remoteSupportsDecrypt := f }).2 :=
      fun f => ((hremote f).trans (sameKeys_start c (random c) _)).even
    split
    · exact h _
    · exact even_pick random _ (h _)

theorem even_is (data : List UInt8) (s : Encrypt Schedule) : Even s (encryptIs des data s) := by
  have hremote : ∀ f, SameKeys s { s with remoteSupportsEncrypt := f } := fun f => ⟨rfl, rfl, rfl⟩
  unfold encryptIs
  split
  · exact Even.refl s
  simp only
  split
  · exact (hremote _).even
  · rename_i type data _ c _
    have h : ∀ f, Even s (fb64Is des c data { s with remoteSupportsEncrypt := f }).2 :=
      fun f => ((hremote f).trans (sameKeys_is c data _)).even
    split
    · exact (h _).trans (SameKeys.even ⟨rfl, rfl, rfl⟩)
    · exact even_pickInput type (h _)

theorem even_encryptReply (random : Cipher → Block) (data : List UInt8) (s : Encrypt Schedule) :
    Even s (encryptReply des random data s) := by
  unfold encryptReply
  split
  · exact Even.refl s
  split
  · exact Even.refl s
  · rename_i type data _ c _
    have h : Even s (fb64Reply des c data s).2 := even_reply c data s
    simp only
    split
    · exact h.trans (SameKeys.even ⟨rfl, rfl, rfl⟩)
    · exact even_pick random type h

theorem even_disable (c : Cipher) (input output : Bool) (s : Encrypt Schedule) :
    Even s (encryptDisable c input output s) := by
  have hin : ∀ s : Encrypt Schedule, Even s (disableInput c s) := by
    intro s
    unfold disableInput
    simp only
    split <;> exact SameKeys.even ⟨rfl, rfl, rfl⟩
  have hout : ∀ s : Encrypt Schedule, Even s (disableOutput c s) := by
    intro s
    unfold disableOutput
    simp only
    split
    · exact (even_sendEnd s).trans (SameKeys.even ⟨rfl, rfl, rfl⟩)
    · exact SameKeys.even ⟨rfl, rfl, rfl⟩
  unfold encryptDisable
  cases input <;> cases output
  · exact Even.refl s
  · exact hout s
  · exact hin s
  · exact (hin s).trans (hout _)

theorem even_encryptStart (s : Encrypt Schedule) : Even s s.encryptStart := by
  unfold encryptStart
  repeat' split
  all_goals exact SameKeys.even ⟨rfl, rfl, rfl⟩

theorem even_encryptRequestStart (random : Cipher → Block) (s : Encrypt Schedule) :
    Even s (requestStart des random s) := by
  unfold requestStart
  repeat' split
  · exact SameKeys.even ⟨rfl, rfl, rfl⟩
  · exact Even.refl _
  · exact even_startOutput random _ _

theorem even_encryptType (c : Cipher) (input output : Bool) (s : Encrypt Schedule) :
    Even s (encryptType c input output s) := by
  unfold encryptType
  cases input <;> cases output <;> exact SameKeys.even ⟨rfl, rfl, rfl⟩

theorem even_startModes (random : Cipher → Block) (input output : Bool) (s : Encrypt Schedule) :
    Even s (encryptStartModes des random input output s) := by
  have hin : Even s (if input ∧ s.decryptMode ≠ 0 then s.sendRequestStart else s) := by
    split
    · exact even_requestStart s
    · exact Even.refl s
  unfold encryptStartModes
  generalize (if input ∧ s.decryptMode ≠ 0 then s.sendRequestStart else s) = t at hin
  simp only
  split
  · exact hin.trans (even_startOutput random _ _)
  · exact hin

theorem even_encryptStop (input output : Bool) (s : Encrypt Schedule) : Even s (encryptStop input output s) := by
  have hin : Even s (if input then s.sendRequestEnd else s) := by
    cases input <;> exact SameKeys.even ⟨rfl, rfl, rfl⟩
  unfold encryptStop
  generalize (if input then s.sendRequestEnd else s) = t at hin
  simp only
  split
  · exact hin.trans (even_sendEnd _)
  · exact hin

theorem even_sendSupport (s : Encrypt Schedule) : Even s s.sendSupport := by
  unfold sendSupport
  split
  · exact Even.refl s
  · simp only
    split
    · exact (even_requestStart s).trans (SameKeys.even ⟨rfl, rfl, rfl⟩)
    · exact SameKeys.even ⟨rfl, rfl, rfl⟩

/-- Every call but that of a key id writes inside; that one, where the key id fits. -/
theorem step_spec (a : Action × (Cipher → Block)) (s t : Encrypt Schedule) (hs : Tame s) (h : step des a s = some t) :
    Tame t ∧ (Inside t ↔ Inside s ∧ KeyidFits a s) := by
  obtain ⟨a, random⟩ := a
  obtain rfl : act des random a (s.log (.received a)) = t := Option.some.inj h
  have hlog : Even s (s.log (.received a)) := SameKeys.even ⟨rfl, rfl, rfl⟩
  have hquiet : ∀ {t : Encrypt Schedule}, Even s t → Tame t ∧ (Inside t ↔ Inside s ∧ True) := by
    intro t he
    obtain ⟨ht, hi⟩ := he hs
    exact ⟨ht, hi.trans ⟨fun h => ⟨h, trivial⟩, fun h => h.1⟩⟩
  obtain ⟨hls, hli⟩ := hlog hs
  cases a with
  | encKeyid k =>
    obtain ⟨ht, hi⟩ := encryptKeyid_spec random .decrypt k _ hls
    exact ⟨ht, hi.trans (and_congr hli Iff.rfl)⟩
  | decKeyid k =>
    obtain ⟨ht, hi⟩ := encryptKeyid_spec random .encrypt k _ hls
    exact ⟨ht, hi.trans (and_congr hli Iff.rfl)⟩
  | support typelist => exact hquiet (hlog.trans (even_support random typelist _))
  | is data => exact hquiet (hlog.trans (even_is data _))
  | reply data => exact hquiet (hlog.trans (even_encryptReply random data _))
  | start => exact hquiet (hlog.trans (even_encryptStart _))
  | stop => exact hquiet (hlog.trans (SameKeys.even ⟨rfl, rfl, rfl⟩))
  | requestStart => exact hquiet (hlog.trans (even_encryptRequestStart random _))
  | requestEnd => exact hquiet (hlog.trans (even_sendEnd _))
  | sessionKey key =>
    exact hquiet (hlog.trans ((sameKeys_session .cfb key _ _).trans (sameKeys_session .ofb key _ _)).even)
  | encryptType c input output => exact hquiet (hlog.trans (even_encryptType c input output _))
  | encryptStart input output => exact hquiet (hlog.trans (even_startModes random input output _))
  | encryptStop input output => exact hquiet (hlog.trans (even_encryptStop input output _))
  | encryptDisable c input output => exact hquiet (hlog.trans (even_disable c input output _))
  | auto dir on => cases dir <;> exact hquiet (hlog.trans (SameKeys.even ⟨rfl, rfl, rfl⟩))
  | sendSupport => exact hquiet (hlog.trans (even_sendSupport _))

theorem tame_init (server : Bool) : Tame (init des server) := ⟨fun _ => Nat.zero_le _, fun _ => Nat.le_refl _⟩

theorem inside_init (server : Bool) : Inside (init des server) :=
  ⟨fun _ => Nat.le_refl _, fun _ => Nat.zero_le _, show 3 ≤ strKeyidSize by decide, show 3 ≤ strStartSize by decide⟩

/-- In every run the key ids stay in their arrays, and their lengths within MAXKEYLEN,
    exactly where every key id that arrives while a cipher is selected for its direction is
    no longer than MAXKEYLEN. -/
theorem keyids_inside_iff (des : Des Schedule) (server : Bool) (as : List (Action × (Cipher → Block)))
    (t : Encrypt Schedule) (h : run (step des) as (init des server) = some t) :
    Inside t ↔ Meets (step des) KeyidFits as (init des server) :=
  (run_inv_iff step_spec (tame_init server) h).trans
    ⟨fun h => h.2, fun h => ⟨inside_init server, h⟩⟩

/-- A cipher is selected, and the peer sends a key id of 65 bytes. -/
theorem long_keyid_overruns :
    ∃ t, run (step adding) [(.support [ENCTYPE_DES_CFB64], fun _ => zeroBlock),
        (.decKeyid (List.replicate 65 1), fun _ => zeroBlock)] (init adding true) = some t ∧
      MAXKEYLEN < (t.ki .encrypt).keyid.length :=
  ⟨_, rfl, by decide +kernel⟩

theorem keyids_inside_iff_zero :
    ∃ t, run (step adding) [(.support [ENCTYPE_DES_CFB64], fun _ => zeroBlock), (.decKeyid [0], fun _ => zeroBlock)]
        (init adding true) = some t ∧
      (Inside t ↔ Meets (step adding) KeyidFits [(.support [ENCTYPE_DES_CFB64], fun _ => zeroBlock),
        (.decKeyid [0], fun _ => zeroBlock)] (init adding true)) :=
  ⟨_, rfl, keyids_inside_iff adding true _ _ rfl⟩

end Encrypt

end Netutils.Libtelnet
