/-
  Netutils.Libtelnet.EncDes — the DES stream ciphers of libtelnet (libtelnet/enc_des.c):
  fb64_stream_iv, fb64_stream_key, and CFB and OFB encryption and decryption with the
  one-byte look-ahead of the decrypting side.

  Both ciphers drive the register machine of Lib.Feedback. CFB feeds back str_output, to
  which the initial vector goes; OFB feeds back str_feed, to which it does not, so its
  output is the documented mode only where the block function makes the same of the old
  feed and of the vector (`streams_are_modes_iff`). Both ends being wrong alike, decryption
  undoes encryption (`decrypt_undoes_encrypt`).
-/

import Netutils.Lib.Feedback

namespace Netutils.Libtelnet

open Netutils.Lib.Feedback
open Netutils.Lib.Transition

/-! ## The streams -/

abbrev Block := Vector UInt8 8

/-- The DES library: des_key_sched, des_ecb_encrypt with a last argument of 1, and a schedule
    whose memory is cleared. -/
structure Des (Schedule : Type) where
  keySched : Block → Schedule
  ecbEncrypt : Block → Schedule → Block
  cleared : Schedule

/-- struct stinfo -/
structure Stinfo (Schedule : Type) where
  strOutput : Block
  strFeed : Block
  strIv : Block
  strIkey : Block
  strSched : Schedule
  strIndex : Fin 9

def zeroBlock : Block := Vector.replicate 8 0

variable {Schedule : Type} (des : Des Schedule)

/-- What the memset of fb64_init leaves of a stream. -/
def Stinfo.cleared : Stinfo Schedule := ⟨zeroBlock, zeroBlock, zeroBlock, zeroBlock, des.cleared, 0⟩

def fb64StreamIv (seed : Block) (stp : Stinfo Schedule) : Stinfo Schedule :=
  { stp with strIv := seed, strOutput := seed, strSched := des.keySched stp.strIkey, strIndex := 8 }

def fb64StreamKey (key : Block) (stp : Stinfo Schedule) : Stinfo Schedule :=
  { stp with strIkey := key, strSched := des.keySched key, strOutput := stp.strIv, strIndex := 8 }

/-- `if (index == sizeof (Block))`: the feed made from `input`, and the index from there on. -/
def refill (stp : Stinfo Schedule) (input : Block) : Block × Fin 8 :=
  if h : stp.strIndex.val < 8 then (stp.strFeed, ⟨stp.strIndex, h⟩) else (des.ecbEncrypt input stp.strSched, 0)

/-- The CFB stream behind a byte that is `c` as cypher. -/
def cfb64Next (stp : Stinfo Schedule) (c : UInt8) : Stinfo Schedule :=
  let (feed, index) := refill des stp stp.strOutput
  { stp with strFeed := feed, strOutput := stp.strOutput.set index c, strIndex := index.succ }

/-- The OFB stream behind a byte. -/
def ofb64Next (stp : Stinfo Schedule) : Stinfo Schedule :=
  let (feed, index) := refill des stp stp.strFeed
  { stp with strFeed := feed, strIndex := index.succ }

/-- `data == -1`: one byte is backed up. -/
def backUp (stp : Stinfo Schedule) : Stinfo Schedule := { stp with strIndex := ⟨stp.strIndex - 1, by omega⟩ }

/-- The bytes encrypted, and the stream behind them. -/
def cfb64Encrypt : Stinfo Schedule → List UInt8 → List UInt8 × Stinfo Schedule
  | stp, [] => ([], stp)
  | stp, s :: l =>
    let (feed, index) := refill des stp stp.strOutput
    -- On encryption, we store (feed ^ data) which is cypher
    let c := feed[index] ^^^ s
    let (out, stp) := cfb64Encrypt (cfb64Next des stp c) l
    (c :: out, stp)

/-- `none` is -1. -/
def cfb64Decrypt (data : Option UInt8) (stp : Stinfo Schedule) : UInt8 × Stinfo Schedule :=
  match data with
  | none => (0, backUp stp)
  | some data =>
    let (feed, index) := refill des stp stp.strOutput
    -- On decryption we store (data) which is cypher.
    (data ^^^ feed[index], cfb64Next des stp data)

def ofb64Encrypt : Stinfo Schedule → List UInt8 → List UInt8 × Stinfo Schedule
  | stp, [] => ([], stp)
  | stp, s :: l =>
    let (feed, index) := refill des stp stp.strFeed
    let (out, stp) := ofb64Encrypt (ofb64Next des stp) l
    ((s ^^^ feed[index]) :: out, stp)

def ofb64Decrypt (data : Option UInt8) (stp : Stinfo Schedule) : UInt8 × Stinfo Schedule :=
  match data with
  | none => (0, backUp stp)
  | some data =>
    let (feed, index) := refill des stp stp.strFeed
    (data ^^^ feed[index], ofb64Next des stp)

/-- Successive calls. -/
def calls (encrypt : Stinfo Schedule → List UInt8 → List UInt8 × Stinfo Schedule) (stp : Stinfo Schedule) :
    List (List UInt8) → List UInt8
  | [] => []
  | s :: l => (encrypt stp s).1 ++ calls encrypt (encrypt stp s).2 l

/-! ## The two ends -/

inductive Dir where
  | decrypt
  | encrypt
  deriving DecidableEq

def FAILED : BitVec 32 := -1

/-- struct fb, with fb_feed[4], the type of the cipher, for fb_feed. -/
structure Fb (Schedule : Type) where
  krbdesKey : Block
  krbdesSched : Schedule
  tempFeed : Block
  type : UInt8
  needStart : Bool
  state : Dir → BitVec 32
  streams : Dir → Stinfo Schedule

/-- cfb64_init and ofb64_init, with their types -/
def fb64Init (type : UInt8) : Fb Schedule where
  krbdesKey := zeroBlock
  krbdesSched := des.cleared
  tempFeed := zeroBlock
  type := type
  needStart := false
  state := fun _ => FAILED
  streams := fun _ => Stinfo.cleared des

/-! ## The streams as registers -/

variable {des : Des Schedule}

def Stinfo.register (stp : Stinfo Schedule) : Register UInt8 8 := ⟨stp.strOutput, stp.strFeed, stp.strIndex⟩

/-- The block function of a key. -/
def blockFunction (des : Des Schedule) (key : Block) (b : Block) : Block := des.ecbEncrypt b (des.keySched key)

/-- A stream whose schedule is that of its key. -/
def Keyed (des : Des Schedule) (stp : Stinfo Schedule) : Prop := stp.strSched = des.keySched stp.strIkey

theorem keyed_streamKey (key : Block) (stp : Stinfo Schedule) : Keyed des (fb64StreamKey des key stp) := rfl

theorem keyed_streamIv (seed : Block) (stp : Stinfo Schedule) : Keyed des (fb64StreamIv des seed stp) := rfl

/-- `encrypt` drives its stream as the register of the mode. -/
def Drives (des : Des Schedule) (mode : Mode)
    (encrypt : Stinfo Schedule → List UInt8 → List UInt8 × Stinfo Schedule) : Prop :=
  ∀ stp l, Keyed des stp →
    (encrypt stp l).1 = (stp.register.code mode (blockFunction des stp.strIkey) l).1 ∧
    (encrypt stp l).2.register = (stp.register.code mode (blockFunction des stp.strIkey) l).2 ∧
    (encrypt stp l).2.strIkey = stp.strIkey ∧ Keyed des (encrypt stp l).2

theorem refill_eq_turn {mode : Mode} {stp : Stinfo Schedule} (hk : Keyed des stp) {input : Block}
    (hi : stp.register.source mode = input) :
    refill des stp input = stp.register.turn mode (blockFunction des stp.strIkey) := by
  unfold refill Register.turn
  rw [hi, hk]
  rfl

theorem mask_eq {mode : Mode} {stp : Stinfo Schedule} (hk : Keyed des stp) {input : Block}
    (hi : stp.register.source mode = input) :
    (refill des stp input).1[(refill des stp input).2] =
      stp.register.mask mode (blockFunction des stp.strIkey) := by
  simp only [Register.mask, refill_eq_turn hk hi]

theorem register_cfb64Next {stp : Stinfo Schedule} (hk : Keyed des stp) (c : UInt8) :
    (cfb64Next des stp c).register = stp.register.absorb .cfb (blockFunction des stp.strIkey) c := by
  have ht : refill des stp stp.strOutput = stp.register.turn .cfb (blockFunction des stp.strIkey) :=
    refill_eq_turn hk rfl
  simp only [Register.absorb, ← ht]
  rfl

theorem register_ofb64Next {stp : Stinfo Schedule} (hk : Keyed des stp) (c : UInt8) :
    (ofb64Next des stp).register = stp.register.absorb .ofb (blockFunction des stp.strIkey) c := by
  have ht : refill des stp stp.strFeed = stp.register.turn .ofb (blockFunction des stp.strIkey) :=
    refill_eq_turn hk rfl
  simp only [Register.absorb, ← ht]
  rfl

theorem drives_cfb : Drives des .cfb (cfb64Encrypt des) := by
  intro stp l
  induction l generalizing stp with
  | nil => intro hk; exact ⟨rfl, rfl, rfl, hk⟩
  | cons s l ih =>
    intro hk
    have hm : (refill des stp stp.strOutput).1[(refill des stp stp.strOutput).2] =
        stp.register.mask .cfb (blockFunction des stp.strIkey) := mask_eq hk rfl
    obtain ⟨h1, h2, h3, h4⟩ := ih (cfb64Next des stp (s ^^^ stp.register.mask .cfb (blockFunction des stp.strIkey))) hk
    rw [register_cfb64Next hk] at h1 h2
    simp only [cfb64Encrypt, Register.code, hm, UInt8.xor_comm _ s]
    exact ⟨congrArg _ h1, h2, h3, h4⟩

theorem drives_ofb : Drives des .ofb (ofb64Encrypt des) := by
  intro stp l
  induction l generalizing stp with
  | nil => intro hk; exact ⟨rfl, rfl, rfl, hk⟩
  | cons s l ih =>
    intro hk
    have hm : (refill des stp stp.strFeed).1[(refill des stp stp.strFeed).2] =
        stp.register.mask .ofb (blockFunction des stp.strIkey) := mask_eq hk rfl
    obtain ⟨h1, h2, h3, h4⟩ := ih (ofb64Next des stp) hk
    rw [register_ofb64Next hk (s ^^^ stp.register.mask .ofb (blockFunction des stp.strIkey))] at h1 h2
    simp only [ofb64Encrypt, Register.code, hm]
    exact ⟨congrArg _ h1, h2, h3, h4⟩

/-- However the bytes are cut into calls, they come out as the register codes them. -/
theorem calls_eq_code {mode : Mode} {encrypt : Stinfo Schedule → List UInt8 → List UInt8 × Stinfo Schedule}
    (hd : Drives des mode encrypt) {stp : Stinfo Schedule} (hk : Keyed des stp) (ss : List (List UInt8)) :
    calls encrypt stp ss = (stp.register.code mode (blockFunction des stp.strIkey) ss.flatten).1 := by
  induction ss generalizing stp with
  | nil => rfl
  | cons s ss ih =>
    obtain ⟨h1, h2, h3, h4⟩ := hd stp s hk
    rw [calls, List.flatten_cons, code_append, h1, ih h4, h2, h3]

/-- Behind an initial vector, that is the mode over what the mode feeds back. -/
theorem calls_streamIv {mode : Mode} {encrypt : Stinfo Schedule → List UInt8 → List UInt8 × Stinfo Schedule}
    (hd : Drives des mode encrypt) (iv : Block) (stp : Stinfo Schedule) (ss : List (List UInt8)) :
    calls encrypt (fb64StreamIv des iv stp) ss =
      encode mode (blockFunction des stp.strIkey) ((fb64StreamIv des iv stp).register.source mode) ss.flatten := by
  rw [calls_eq_code hd (keyed_streamIv iv stp), code_eq_encode rfl]
  rfl

/-! ## The documented modes -/

/-- What may happen to an encrypting stream under one key. -/
inductive Use where
  | iv (seed : Block)
  | cfb (s : List UInt8)
  | ofb (s : List UInt8)

def Use.apply (des : Des Schedule) (stp : Stinfo Schedule) : Use → Stinfo Schedule
  | .iv seed => fb64StreamIv des seed stp
  | .cfb s => (cfb64Encrypt des stp s).2
  | .ofb s => (ofb64Encrypt des stp s).2

theorem strIkey_uses {stp : Stinfo Schedule} (hk : Keyed des stp) (uses : List Use) :
    (uses.foldl (Use.apply des) stp).strIkey = stp.strIkey := by
  induction uses generalizing stp with
  | nil => rfl
  | cons u uses ih =>
    have hu : (Use.apply des stp u).strIkey = stp.strIkey ∧ Keyed des (Use.apply des stp u) := by
      cases u with
      | iv seed => exact ⟨rfl, rfl⟩
      | cfb s => exact (drives_cfb stp s hk).2.2
      | ofb s => exact (drives_ofb stp s hk).2.2
    rw [List.foldl_cons, ih hu.2, hu.1]

theorem xor_xor (a b : UInt8) : a ^^^ b ^^^ b = a := by rw [UInt8.xor_assoc, UInt8.xor_self, UInt8.xor_zero]

theorem xor_xor_left (a b : UInt8) : a ^^^ (a ^^^ b) = b := by rw [← UInt8.xor_assoc, UInt8.xor_self, UInt8.zero_xor]

/-- Behind a key and, at any time later, an initial vector, CFB and OFB put out what their
    modes define, in any pieces, exactly where the block function makes the same of what
    str_feed held before as of the vector, as far as the text reaches into the first block. -/
theorem streams_are_modes_iff (des : Des Schedule) (stp : Stinfo Schedule) (key : Block) (uses : List Use)
    (iv : Block) (ss : List (List UInt8)) :
    let used := uses.foldl (Use.apply des) (fb64StreamKey des key stp)
    let E := blockFunction des key
    (calls (cfb64Encrypt des) (fb64StreamIv des iv used) ss = encode .cfb E iv ss.flatten ∧
      calls (ofb64Encrypt des) (fb64StreamIv des iv used) ss = encode .ofb E iv ss.flatten) ↔
    ∀ j : Fin 8, j.val < ss.flatten.length → (E used.strFeed)[j] = (E iv)[j] := by
  intro used E
  have hkey : used.strIkey = key := strIkey_uses (keyed_streamKey key stp) uses
  have hcfb : calls (cfb64Encrypt des) (fb64StreamIv des iv used) ss = encode .cfb E iv ss.flatten := by
    rw [calls_streamIv drives_cfb, hkey]
    rfl
  have hofb : calls (ofb64Encrypt des) (fb64StreamIv des iv used) ss = encode .ofb E used.strFeed ss.flatten := by
    rw [calls_streamIv drives_ofb, hkey]
    rfl
  rw [hofb, encode_ofb_eq_iff xor_xor_left]
  exact ⟨fun h => h.2, fun h => ⟨hcfb, h⟩⟩

/-- A block function that adds the key. -/
def adding : Des Block := ⟨id, fun b k => b.zipWith (· ^^^ ·) k, zeroBlock⟩

/-- On a fresh stream OFB puts out the zero block's encryption, whatever the vector is. -/
theorem ofb_ignores_the_vector :
    calls (ofb64Encrypt adding)
        (fb64StreamIv adding (Vector.replicate 8 1) (fb64StreamKey adding (Vector.replicate 8 2) (Stinfo.cleared adding)))
        [[0, 0, 0]] ≠
      encode .ofb (blockFunction adding (Vector.replicate 8 2)) (Vector.replicate 8 1) [0, 0, 0] := by
  decide +kernel

/-! ## Decryption undoes encryption -/

/-- The decrypting stream is ready for the byte at position `n` of a text coded under `key`. -/
def Awaits (des : Des Schedule) (mode : Mode) (key seed : Block) (text : List UInt8) (n : Nat)
    (stp : Stinfo Schedule) : Prop :=
  Keyed des stp ∧ stp.strIkey = key ∧
    Ready mode (blockFunction des key) (keystream mode (blockFunction des key) seed text)
      (codedAt mode (blockFunction des key) seed text) n stp.register

/-- `decrypt` drives its stream as the register of the mode. -/
def Undrives (des : Des Schedule) (mode : Mode)
    (decrypt : Option UInt8 → Stinfo Schedule → UInt8 × Stinfo Schedule) : Prop :=
  (∀ stp, (decrypt none stp).2 = backUp stp) ∧
  ∀ stp c, Keyed des stp →
    (decrypt (some c) stp).1 = c ^^^ stp.register.mask mode (blockFunction des stp.strIkey) ∧
    (decrypt (some c) stp).2.register = stp.register.absorb mode (blockFunction des stp.strIkey) c ∧
    (decrypt (some c) stp).2.strIkey = stp.strIkey ∧ Keyed des (decrypt (some c) stp).2

theorem undrives_cfb : Undrives des .cfb (cfb64Decrypt des) := by
  refine ⟨fun _ => rfl, ?_⟩
  intro stp c hk
  have hm : (refill des stp stp.strOutput).1[(refill des stp stp.strOutput).2] =
      stp.register.mask .cfb (blockFunction des stp.strIkey) := mask_eq hk rfl
  exact ⟨congrArg (c ^^^ ·) hm, register_cfb64Next hk c, rfl, hk⟩

theorem undrives_ofb : Undrives des .ofb (ofb64Decrypt des) := by
  refine ⟨fun _ => rfl, ?_⟩
  intro stp c hk
  have hm : (refill des stp stp.strFeed).1[(refill des stp stp.strFeed).2] =
      stp.register.mask .ofb (blockFunction des stp.strIkey) := mask_eq hk rfl
  exact ⟨congrArg (c ^^^ ·) hm, register_ofb64Next hk c, rfl, hk⟩

/-- An end that starts where the encrypting one did reads the text, looking ahead or not. -/
theorem reads_text {mode : Mode} {encrypt : Stinfo Schedule → List UInt8 → List UInt8 × Stinfo Schedule}
    {decrypt : Option UInt8 → Stinfo Schedule → UInt8 × Stinfo Schedule}
    (he : Drives des mode encrypt) (hd : Undrives des mode decrypt) (iv : Block) {stp : Stinfo Schedule}
    {ss : List (List UInt8)} {ops : List Op} {t : Reader (Stinfo Schedule) UInt8 UInt8}
    (h : run (Reader.step decrypt) ops ⟨fb64StreamIv des iv stp, calls encrypt (fb64StreamIv des iv stp) ss, none, []⟩ =
      some t) :
    ∃ l, t.done ++ l = ss.flatten ∧ l.length = t.rest.length := by
  have hcoded := calls_streamIv he iv stp ss
  refine reads_run (R := Awaits des mode stp.strIkey ((fb64StreamIv des iv stp).register.source mode) ss.flatten)
    ?_ ?_ ?_ h
  · rintro n s c ⟨hk, hkey, hready⟩ hc
    rw [hcoded] at hc
    obtain ⟨hout, hreg, hkey', hk'⟩ := hd.2 s c hk
    obtain ⟨hx, hnext, hback⟩ := unmask_of_ready xor_xor hc hready
    rw [hkey] at hout hreg hkey'
    refine ⟨?_, ⟨hk', hkey', ?_⟩, ?_⟩
    · rw [hout]
      exact hx
    · rw [hreg]
      exact hnext
    · rw [hd.1]
      refine ⟨hk', hkey', ?_⟩
      rw [← hreg] at hback
      exact hback
  · rw [hcoded, length_encode]
  · exact ⟨keyed_streamIv iv stp, rfl, ready_start rfl _⟩

/-- Between two fresh ends with the same key and vector, however the bytes are cut into
    encrypting calls and whatever bytes the other end backs up over and decrypts again, what
    it has decrypted is the text but for what it has still to read. -/
theorem decrypt_undoes_encrypt (des : Des Schedule) (type : UInt8) (key iv : Block) (ss : List (List UInt8))
    (ops : List Op) (t : Reader (Stinfo Schedule) UInt8 UInt8) :
    let fresh := fun dir => fb64StreamIv des iv (fb64StreamKey des key ((fb64Init des type).streams dir))
    (run (Reader.step (cfb64Decrypt des)) ops ⟨fresh .decrypt, calls (cfb64Encrypt des) (fresh .encrypt) ss, none, []⟩ =
        some t ∨
      run (Reader.step (ofb64Decrypt des)) ops ⟨fresh .decrypt, calls (ofb64Encrypt des) (fresh .encrypt) ss, none, []⟩ =
        some t) →
    ∃ l, t.done ++ l = ss.flatten ∧ l.length = t.rest.length := by
  intro fresh h
  rcases h with h | h
  · exact reads_text drives_cfb undrives_cfb iv h
  · exact reads_text drives_ofb undrives_ofb iv h

/-- Backing up over the first byte of a block. -/
theorem decrypt_undoes_encrypt_at_a_block :
    let fresh := fun dir => fb64StreamIv adding (Vector.replicate 8 1)
      (fb64StreamKey adding (Vector.replicate 8 2) ((fb64Init adding 1).streams dir))
    ∃ t, run (Reader.step (cfb64Decrypt adding)) (List.replicate 9 .next ++ [.back, .next])
        ⟨fresh .decrypt, calls (cfb64Encrypt adding) (fresh .encrypt) [[10, 11, 12], [13, 14, 15, 16, 17, 18, 19]],
          none, []⟩ = some t ∧
      ∃ l, t.done ++ l = [10, 11, 12, 13, 14, 15, 16, 17, 18, 19] ∧ l.length = t.rest.length := by
  intro fresh
  have hs : (run (Reader.step (cfb64Decrypt adding)) (List.replicate 9 .next ++ [.back, .next])
      ⟨fresh .decrypt, calls (cfb64Encrypt adding) (fresh .encrypt) [[10, 11, 12], [13, 14, 15, 16, 17, 18, 19]],
        none, []⟩).isSome = true := by
    decide +kernel
  obtain ⟨t, ht⟩ := Option.isSome_iff_exists.mp hs
  exact ⟨t, ht, decrypt_undoes_encrypt adding 1 _ _ [[10, 11, 12], [13, 14, 15, 16, 17, 18, 19]] _ t (Or.inl ht)⟩

end Netutils.Libtelnet
