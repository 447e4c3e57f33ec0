/-
  Netutils.Libtelnet.Encrypt — the negotiation of encryption (libtelnet/encrypt.c, and
  fb64_start to fb64_keyid of libtelnet/enc_des.c): what each ENCRYPT sub-option, each
  local command and the arrival of a session key do to one side's state.

  Beside the state of the code it keeps what it has received and done (`history`), and how
  far each of the arrays that hold key ids has been written.
-/

import Netutils.Arpa
import Netutils.Libtelnet.EncDes
import Netutils.Wire.Framing

namespace Netutils.Libtelnet

open Netutils.Arpa
open Netutils.Lib.Transition
open Netutils.Wire (doubled)

/-! ## The state -/

/-- encryptions[] -/
inductive Cipher where
  | cfb
  | ofb
  deriving DecidableEq

def Cipher.type : Cipher → UInt8
  | .cfb => ENCTYPE_DES_CFB64
  | .ofb => ENCTYPE_DES_OFB64

/-- The search through encryptions[]. -/
def Cipher.ofType (type : UInt8) : Option Cipher := [cfb, ofb].find? fun c => c.type = type

def NO_SEND_IV : BitVec 32 := 1
def NO_RECV_IV : BitVec 32 := 2
def NO_KEYID : BitVec 32 := 4
def IN_PROGRESS : BitVec 32 := NO_SEND_IV ||| NO_RECV_IV ||| NO_KEYID

def FB64_IV : UInt8 := 1
def FB64_IV_OK : UInt8 := 2
def FB64_IV_BAD : UInt8 := 3

def MAXKEYLEN : Nat := 64
def strKeyidSize : Nat := MAXKEYLEN * 2 + 5
def strStartSize : Nat := 72

/-- The sub-options that are sent. -/
inductive Message where
  | support (types : List UInt8)
  | is (type : UInt8) (feed : Block)
  | reply (type code : UInt8)
  | start (keyid : List UInt8)
  | stop
  | requestStart (keyid : List UInt8)
  | requestEnd
  | keyid (dir : Dir) (keyid : List UInt8)

/-- What lies between IAC SB ENCRYPT and IAC SE. -/
def Message.body : Message → List UInt8
  | .support types => ENCRYPT_SUPPORT :: doubled types
  | .is type feed => ENCRYPT_IS :: type :: FB64_IV :: doubled feed.toList
  | .reply type code => [ENCRYPT_REPLY, type, code]
  | .start k => ENCRYPT_START :: doubled k
  | .stop => [ENCRYPT_END]
  | .requestStart k => ENCRYPT_REQSTART :: doubled k
  | .requestEnd => [ENCRYPT_REQEND]
  | .keyid .encrypt k => ENCRYPT_ENC_KEYID :: doubled k
  | .keyid .decrypt k => ENCRYPT_DEC_KEYID :: doubled k

def Message.bytes (m : Message) : List UInt8 := [IAC, SB, TELOPT_ENCRYPT] ++ m.body ++ [IAC, SE]

/-- Session_Key; its data is eight bytes for a type of SK_DES. -/
structure SessionKey where
  type : Int
  data : Block

def SK_DES : Int := 1

/-- What one side can be called with: the sub-options of its peer, with what follows the
    command in them, the session key, and the user's commands. -/
inductive Action where
  | support (typelist : List UInt8)
  | is (data : List UInt8)
  | reply (data : List UInt8)
  | start
  | stop
  | requestStart
  | requestEnd
  | encKeyid (keyid : List UInt8)
  | decKeyid (keyid : List UInt8)
  | sessionKey (key : Option SessionKey)
  | encryptType (c : Cipher) (input output : Bool)
  | encryptStart (input output : Bool)
  | encryptStop (input output : Bool)
  | encryptDisable (c : Cipher) (input output : Bool)
  | auto (dir : Dir) (on : Int)
  | sendSupport

inductive Event where
  | received (a : Action)
  | wrote (m : Message)
  /-- net_encrypt -/
  | netEncrypt
  /-- An assignment to encrypt_output. -/
  | output (c : Option Cipher)

/-- struct key_info. -/
structure KeyInfo where
  /-- As far as it has been written; 64 bytes to begin with. -/
  keyid : List UInt8
  keylen : Nat
  /-- The most that keylen has been. -/
  keylenMax : Nat

structure Encrypt (Schedule : Type) where
  server : Bool
  encryptOutput : Option Cipher
  decryptInput : Option Cipher
  encryptMode : UInt8
  decryptMode : UInt8
  autoencrypt : Bool
  autodecrypt : Bool
  iWontSupportEncrypt : Cipher → Bool
  iWontSupportDecrypt : Cipher → Bool
  remoteSupportsEncrypt : Cipher → Bool
  remoteSupportsDecrypt : Cipher → Bool
  /-- The types in str_send, until it has been sent. -/
  strSend : Option (List UInt8)
  fb : Cipher → Fb Schedule
  /-- ki[0] for encryption, ki[1] for decryption. -/
  ki : Dir → KeyInfo
  /-- How far str_keyid and str_start have been written. -/
  strKeyidTop : Nat
  strStartTop : Nat
  history : List Event

namespace Encrypt

variable {Schedule : Type} (des : Des Schedule)

/-- encrypt_init -/
def init (server : Bool) : Encrypt Schedule where
  server := server
  encryptOutput := none
  decryptInput := none
  encryptMode := 0
  decryptMode := 0
  autoencrypt := false
  autodecrypt := false
  iWontSupportEncrypt := fun _ => false
  iWontSupportDecrypt := fun _ => false
  remoteSupportsEncrypt := fun _ => false
  remoteSupportsDecrypt := fun _ => false
  strSend := some [ENCTYPE_DES_CFB64, ENCTYPE_DES_OFB64]
  fb := fun c => fb64Init des c.type
  ki := fun _ => ⟨List.replicate MAXKEYLEN 0, 0, 0⟩
  strKeyidTop := 3
  strStartTop := 3
  history := []

def log (s : Encrypt Schedule) (e : Event) : Encrypt Schedule := { s with history := s.history ++ [e] }

def setFb (s : Encrypt Schedule) (c : Cipher) (f : Fb Schedule) : Encrypt Schedule :=
  { s with fb := fun k => if k = c then f else s.fb k }

def setKi (s : Encrypt Schedule) (dir : Dir) (k : KeyInfo) : Encrypt Schedule :=
  { s with ki := fun d => if d = dir then k else s.ki d }

/-- net_write -/
def netWrite (s : Encrypt Schedule) (m : Message) : Encrypt Schedule := s.log (.wrote m)

/-- A message that is put together in str_start. -/
def netWriteStart (s : Encrypt Schedule) (m : Message) : Encrypt Schedule :=
  { s with strStartTop := max s.strStartTop m.bytes.length }.netWrite m

def findencryption (s : Encrypt Schedule) (type : UInt8) : Option Cipher :=
  (Cipher.ofType type).filter fun c => !s.iWontSupportEncrypt c && s.remoteSupportsDecrypt c

def finddecryption (s : Encrypt Schedule) (type : UInt8) : Option Cipher :=
  (Cipher.ofType type).filter fun c => !s.iWontSupportDecrypt c && s.remoteSupportsEncrypt c

/-- `(*kp->getcrypt) (*kp->modep)` -/
def getcrypt (s : Encrypt Schedule) : Dir → Option Cipher
  | .encrypt => s.findencryption s.encryptMode
  | .decrypt => s.finddecryption s.decryptMode

end Encrypt

/-! ## The ciphers' part -/

/-- VALIDKEY -/
def validKey (key : Block) : Bool := key.toList.any (· ≠ 0)

def Fb.setState {Schedule : Type} (f : Fb Schedule) (dir : Dir) (state : BitVec 32) : Fb Schedule :=
  { f with state := fun d => if d = dir then state else f.state d }

def Fb.setStream {Schedule : Type} (f : Fb Schedule) (dir : Dir) (stp : Stinfo Schedule) : Fb Schedule :=
  { f with streams := fun d => if d = dir then stp else f.streams d }

/-- `if (state == FAILED) state = IN_PROGRESS` -/
def revived (state : BitVec 32) : BitVec 32 := if state = FAILED then IN_PROGRESS else state

namespace Encrypt

variable {Schedule : Type} (des : Des Schedule)

/-- encrypt_send_keyid -/
def sendKeyid (s : Encrypt Schedule) (dir : Dir) (keyid : List UInt8) (saveit : Bool) : Encrypt Schedule :=
  let s := if saveit then
      s.setKi dir { s.ki dir with
        keyid := keyid ++ (s.ki dir).keyid.drop keyid.length
        keylen := keyid.length
        keylenMax := max (s.ki dir).keylenMax keyid.length }
    else s
  { s with strKeyidTop := max s.strKeyidTop (Message.keyid dir keyid).bytes.length }.netWrite (.keyid dir keyid)

/-- fb64_start with DIR_ENCRYPT, which is what all its calls have; `random` is what
    des_new_random_key makes. -/
def fb64Start (c : Cipher) (random : Block) (s : Encrypt Schedule) : BitVec 32 × Encrypt Schedule :=
  let fbp := s.fb c
  let state := fbp.state .encrypt
  if state ≠ FAILED ∧ state &&& NO_SEND_IV = 0 then (state, s)
  else
    let state := revived state
    if validKey fbp.krbdesKey = false then
      (state, s.setFb c { fbp.setState .encrypt state with needStart := true })
    else
      let state := state &&& ~~~NO_SEND_IV ||| NO_RECV_IV
      -- Create a random feed and send it over.
      let feed := des.ecbEncrypt random fbp.krbdesSched
      (state, (s.setFb c { fbp.setState .encrypt state with tempFeed := feed }).netWrite (.is fbp.type feed))

/-- fb64_is -/
def fb64Is (c : Cipher) (data : List UInt8) (s : Encrypt Schedule) : BitVec 32 × Encrypt Schedule :=
  let fbp := s.fb c
  let state := fbp.state .decrypt
  match data with
  | code :: data =>
    if code = FB64_IV then
      if data.length ≠ 8 then
        (FAILED, (s.setFb c (fbp.setState .decrypt FAILED)).netWrite (.reply fbp.type FB64_IV_BAD))
      else
        let stp := fb64StreamIv des (Vector.ofFn fun j => data.getD j 0) (fbp.streams .decrypt)
        (IN_PROGRESS,
          (s.setFb c ((fbp.setStream .decrypt stp).setState .decrypt IN_PROGRESS)).netWrite (.reply fbp.type FB64_IV_OK))
    else (state, s.netWrite (.reply fbp.type FB64_IV_BAD))
  | [] => (state, s.netWrite (.reply fbp.type FB64_IV_BAD))

/-- fb64_reply -/
def fb64Reply (c : Cipher) (data : List UInt8) (s : Encrypt Schedule) : BitVec 32 × Encrypt Schedule :=
  let fbp := s.fb c
  let state := fbp.state .encrypt
  match data with
  | code :: _ =>
    if code = FB64_IV_OK then
      let stp := fb64StreamIv des fbp.tempFeed (fbp.streams .encrypt)
      let state := revived state &&& ~~~NO_RECV_IV
      (state, (s.sendKeyid .encrypt [0] true).setFb c ((fbp.setStream .encrypt stp).setState .encrypt state))
    else if code = FB64_IV_BAD then
      let stp := fb64StreamIv des zeroBlock (fbp.streams .encrypt)
      (FAILED, s.setFb c { (fbp.setStream .encrypt stp).setState .encrypt FAILED with tempFeed := zeroBlock })
    else (FAILED, s.setFb c (fbp.setState .encrypt FAILED))
  | [] => (FAILED, s.setFb c (fbp.setState .encrypt FAILED))

/-- fb64_session -/
def fb64Session (c : Cipher) (key : Option SessionKey) (random : Block) (s : Encrypt Schedule) : Encrypt Schedule :=
  match key with
  | some key =>
    if key.type ≠ SK_DES then s
    else
      let fbp := s.fb c
      let keyed := { fbp with
        krbdesKey := key.data
        krbdesSched := des.keySched key.data
        streams := fun d => fb64StreamKey des key.data (fbp.streams d) }
      if fbp.needStart then (fb64Start des c random (s.setFb c { keyed with needStart := false })).2
      else s.setFb c keyed
  | none => s

/-- fb64_keyid, on ki[dir] -/
def fb64Keyid (c : Cipher) (dir : Dir) (s : Encrypt Schedule) : BitVec 32 × Encrypt Schedule :=
  let state := (s.fb c).state dir
  if (s.ki dir).keylen ≠ 1 ∨ (s.ki dir).keyid.head? ≠ some 0 then
    (state, s.setKi dir { s.ki dir with keylen := 0 })
  else
    let state := revived state &&& ~~~NO_KEYID
    (state, s.setFb c ((s.fb c).setState dir state))

/-! ## Commands and sub-options -/

/-- encrypt_send_request_start -/
def sendRequestStart (s : Encrypt Schedule) : Encrypt Schedule :=
  s.netWriteStart (.requestStart ((s.ki .decrypt).keyid.take (s.ki .decrypt).keylen))

/-- encrypt_send_request_end -/
def sendRequestEnd (s : Encrypt Schedule) : Encrypt Schedule := s.netWrite .requestEnd

/-- encrypt_start_output -/
def startOutput (random : Cipher → Block) (type : UInt8) (s : Encrypt Schedule) : Encrypt Schedule :=
  match s.findencryption type with
  | none => s
  | some c =>
    let (i, s) := fb64Start des c (random c) s
    if i ≠ 0 then s
    else
      let s := (s.netWriteStart (.start ((s.ki .encrypt).keyid.take (s.ki .encrypt).keylen))).log .netEncrypt
      { s with encryptOutput := some c, encryptMode := type }.log (.output (some c))

/-- encrypt_send_end -/
def sendEnd (s : Encrypt Schedule) : Encrypt Schedule :=
  if s.encryptOutput = none then s
  else { (s.netWrite .stop).log .netEncrypt with encryptOutput := none }.log (.output none)

/-- encrypt_support -/
def encryptSupport (random : Cipher → Block) (typelist : List UInt8) (s : Encrypt Schedule) : Encrypt Schedule :=
  let types := typelist.filterMap fun type => (Cipher.ofType type).filter fun c => !s.iWontSupportEncrypt c
  let s := { s with remoteSupportsDecrypt := fun c => types.contains c }
  match types.head? with
  | none => s
  | some useType =>
    match s.findencryption useType.type with
    | none => s
    | some c =>
      let (ret, s) := fb64Start des c (random c) s
      if ret.toInt < 0 then s
      else
        let s := { s with encryptMode := useType.type }
        if ret = 0 then startOutput des random useType.type s else s

/-- encrypt_is -/
def encryptIs (data : List UInt8) (s : Encrypt Schedule) : Encrypt Schedule :=
  match data with
  | [] => s
  | type :: data =>
    let s := { s with remoteSupportsEncrypt := fun c => s.remoteSupportsEncrypt c || c.type = type }
    match s.finddecryption type with
    | none => s
    | some c =>
      let (ret, s) := fb64Is des c data s
      if ret.toInt < 0 then { s with autodecrypt := false }
      else
        let s := { s with decryptMode := type }
        if ret = 0 ∧ s.autodecrypt then s.sendRequestStart else s

/-- encrypt_reply -/
def encryptReply (random : Cipher → Block) (data : List UInt8) (s : Encrypt Schedule) : Encrypt Schedule :=
  match data with
  | [] => s
  | type :: data =>
    match s.findencryption type with
    | none => s
    | some c =>
      let (ret, s) := fb64Reply des c data s
      if ret.toInt < 0 then { s with autoencrypt := false }
      else
        let s := { s with encryptMode := type }
        if ret = 0 ∧ s.autoencrypt then startOutput des random type s else s

/-- encrypt_start -/
def encryptStart (s : Encrypt Schedule) : Encrypt Schedule :=
  if s.decryptMode = 0 then s.sendRequestEnd
  else
    match s.finddecryption s.decryptMode with
    | some c => { s with decryptInput := some c }
    | none => s.sendRequestEnd

/-- encrypt_session_key -/
def sessionKey (random : Cipher → Block) (key : Option SessionKey) (s : Encrypt Schedule) : Encrypt Schedule :=
  fb64Session des .ofb key (random .ofb) (fb64Session des .cfb key (random .cfb) s)

/-- encrypt_request_start -/
def requestStart (random : Cipher → Block) (s : Encrypt Schedule) : Encrypt Schedule :=
  if s.encryptMode = 0 then (if s.server then { s with autoencrypt := true } else s)
  else startOutput des random s.encryptMode s

/-- encrypt_keyid on ki[dir] -/
def encryptKeyid (random : Cipher → Block) (dir : Dir) (keyid : List UInt8) (s : Encrypt Schedule) :
    Encrypt Schedule :=
  let kp := s.ki dir
  let answer (s : Encrypt Schedule) := s.sendKeyid dir ((s.ki dir).keyid.take (s.ki dir).keylen) false
  match s.getcrypt dir with
  | none =>
    if keyid.length = 0 then s
    else answer (s.setKi dir { kp with keylen := 0 })
  | some c =>
    if keyid.length = 0 then
      -- Empty option, indicates a failure.
      if kp.keylen = 0 then s
      else answer (fb64Keyid c dir (s.setKi dir { kp with keylen := 0 })).2
    else if keyid.length ≠ kp.keylen ∨ keyid ≠ kp.keyid.take keyid.length then
      -- Length or contents are different
      answer (fb64Keyid c dir (s.setKi dir
        ⟨keyid ++ kp.keyid.drop keyid.length, keyid.length, max kp.keylenMax keyid.length⟩)).2
    else
      let (ret, s) := fb64Keyid c dir s
      if ret = 0 ∧ dir = .encrypt ∧ s.autoencrypt then startOutput des random s.encryptMode s else s

/-- EncryptType, for a type and modes that it recognises -/
def encryptType (c : Cipher) (input output : Bool) (s : Encrypt Schedule) : Encrypt Schedule :=
  let s := if input then
      { s with decryptMode := c.type, iWontSupportDecrypt := fun k => if k = c then false else s.iWontSupportDecrypt k }
    else s
  if output then
    { s with encryptMode := c.type, iWontSupportEncrypt := fun k => if k = c then false else s.iWontSupportEncrypt k }
  else s

/-- EncryptStart, for modes that it recognises -/
def encryptStartModes (random : Cipher → Block) (input output : Bool) (s : Encrypt Schedule) : Encrypt Schedule :=
  let s := if input ∧ s.decryptMode ≠ 0 then s.sendRequestStart else s
  if output ∧ s.encryptMode ≠ 0 then startOutput des random s.encryptMode s else s

/-- EncryptStop -/
def encryptStop (input output : Bool) (s : Encrypt Schedule) : Encrypt Schedule :=
  let s := if input then s.sendRequestEnd else s
  if output then s.sendEnd else s

/-- EncryptDisable for input -/
def disableInput (c : Cipher) (s : Encrypt Schedule) : Encrypt Schedule :=
  let s := if s.decryptMode = c.type then s.sendRequestEnd else s
  { s with iWontSupportDecrypt := fun k => if k = c then true else s.iWontSupportDecrypt k }

/-- EncryptDisable for output -/
def disableOutput (c : Cipher) (s : Encrypt Schedule) : Encrypt Schedule :=
  let s := if s.encryptMode = c.type then s.sendEnd else s
  { s with iWontSupportEncrypt := fun k => if k = c then true else s.iWontSupportEncrypt k }

/-- EncryptDisable, for a type and modes that it recognises -/
def encryptDisable (c : Cipher) (input output : Bool) (s : Encrypt Schedule) : Encrypt Schedule :=
  let s := if input then disableInput c s else s
  if output then disableOutput c s else s

/-- encrypt_auto and decrypt_auto -/
def auto (dir : Dir) (on : Int) (s : Encrypt Schedule) : Encrypt Schedule :=
  match dir with
  | .encrypt => { s with autoencrypt := if on < 0 then !s.autoencrypt else on ≠ 0 }
  | .decrypt => { s with autodecrypt := if on < 0 then !s.autodecrypt else on ≠ 0 }

/-- encrypt_send_support -/
def sendSupport (s : Encrypt Schedule) : Encrypt Schedule :=
  match s.strSend with
  | none => s
  | some types =>
    let s := if s.server = false ∧ s.autodecrypt then s.sendRequestStart else s
    { s.netWrite (.support types) with strSend := none }

/-- What the side does when it is called. -/
def act (random : Cipher → Block) (a : Action) (s : Encrypt Schedule) : Encrypt Schedule :=
  match a with
  | .support typelist => encryptSupport des random typelist s
  | .is data => encryptIs des data s
  | .reply data => encryptReply des random data s
  | .start => s.encryptStart
  | .stop => { s with decryptInput := none }
  | .requestStart => requestStart des random s
  | .requestEnd => s.sendEnd
  | .encKeyid keyid => encryptKeyid des random .decrypt keyid s
  | .decKeyid keyid => encryptKeyid des random .encrypt keyid s
  | .sessionKey key => sessionKey des random key s
  | .encryptType c input output => encryptType c input output s
  | .encryptStart input output => encryptStartModes des random input output s
  | .encryptStop input output => encryptStop input output s
  | .encryptDisable c input output => encryptDisable c input output s
  | .auto dir on => auto dir on s
  | .sendSupport => s.sendSupport

/-- A step is a call, and the random keys that the generator makes in it. -/
def step (a : Action × (Cipher → Block)) (s : Encrypt Schedule) : Option (Encrypt Schedule) :=
  some (act des a.2 a.1 (s.log (.received a.1)))

end Encrypt

end Netutils.Libtelnet
