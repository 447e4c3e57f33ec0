/-
  Netutils.Telnetd.Suboption — suboption (telnetd/state.c), with every offset of subbuffer that
  SB_GET fetches.

  Each parser looks for SB_EOF before it fetches, except for two fetches: that of the option
  itself, and the first one of the loop that looks for the comma in TSPEED. So the fetches
  stay before subend unless there is nothing in the sub-option, or nothing behind TSPEED IS
  (`fetches_inside_iff`).
-/

import Netutils.Telnetd.Environ
import Netutils.Libc.Ctype

namespace Netutils.Telnetd.Suboption

open Netutils.Arpa Netutils.Libc
open Netutils.Lib.Cells
open Netutils.Wire

/-! ## SB_GET and SB_EOF -/

/-- What suboption does with what it has read. -/
inductive Call where
  | settimer (option : UInt8)
  /-- The texts that atoi is given for xspeed and rspeed. -/
  | tspeed (xspeed rspeed : CString)
  | terminaltype (name : CString)
  | naws (xwinsize ywinsize : Nat)
  | doOptSlc (data : List UInt8)
  | useeditmode (flag : UInt8)
  | sendStatus
  | env (c : EnvCall)
  | auth (qualifier : UInt8) (data : List UInt8)
  | encrypt (command : UInt8) (data : List UInt8)

/-- The pointers as offsets into subbuffer. -/
structure Subopt where
  mem : Nat → UInt8
  subpointer : Nat
  subend : Nat
  /-- env_ovar and env_ovalue; without ENV_HACK they are OLD_ENV_VAR and OLD_ENV_VALUE. -/
  ovar : Int
  ovalue : Int
  /-- What SB_GET has fetched. -/
  fetched : List Nat
  calls : List Call

namespace Subopt

/-- SB_EOF -/
abbrev Eof (s : Subopt) : Prop := s.subend ≤ s.subpointer

/-- What SB_GET gets, -/
def byte (s : Subopt) : UInt8 := s.mem s.subpointer

/-- and what it does. -/
def get (s : Subopt) : Subopt := { s with subpointer := s.subpointer + 1, fetched := s.fetched ++ [s.subpointer] }

def call (s : Subopt) (c : Call) : Subopt := { s with calls := s.calls ++ [c] }

/-- `*cp = c` -/
def poke (s : Subopt) (cp : Nat) (c : UInt8) : Subopt := { s with mem := store s.mem cp [c] }

/-- SB_LEN bytes from subpointer. -/
def rest (s : Subopt) : List UInt8 := slice s.mem s.subpointer s.subend

/-- Size of subbuffer. -/
def size : Nat := 512

/-- `(char *) subpointer` -/
def text (s : Subopt) : CString := strAt size s.mem s.subpointer

/-! ## The options -/

def comma : UInt8 := 0x2c

/-- `while (SB_GET () != ',' && !SB_EOF ());` -/
def skipComma (s : Subopt) : Subopt := if s.byte ≠ comma ∧ ¬ s.get.Eof then s.get.skipComma else s.get
termination_by s.subend - s.subpointer
decreasing_by
  rename_i h
  have h : ¬ s.subend ≤ s.subpointer + 1 := h.2
  show s.subend - (s.subpointer + 1) < s.subend - s.subpointer
  omega

def tspeed (s : Subopt) : Subopt :=
  let s := s.call (.settimer TELOPT_TSPEED)
  if s.Eof then s
  else if s.byte ≠ TELQUAL_IS then s.get
  else
    let t := s.get.skipComma
    if t.Eof then t else t.call (.tspeed s.get.text t.text)

/-- The characters up to subend, in lower case. -/
def grow (s : Subopt) (stk : List UInt8) : Subopt × List UInt8 :=
  if s.Eof then (s, stk) else s.get.grow (stk ++ [tolower s.byte])
termination_by s.subend - s.subpointer
decreasing_by
  rename_i h
  show s.subend - (s.subpointer + 1) < s.subend - s.subpointer
  omega

def ttype (s : Subopt) : Subopt :=
  let s := s.call (.settimer TELOPT_TTYPE)
  if s.Eof then s
  else if s.byte ≠ TELQUAL_IS then s.get
  else
    let r := s.get.grow []
    r.1.call (.terminaltype (cstr r.2))

def naws (s : Subopt) : Subopt :=
  if s.Eof then s
  else
    let xhigh := s.byte
    let s := s.get
    if s.Eof then s
    else
      let xlow := s.byte
      let s := s.get
      if s.Eof then s
      else
        let yhigh := s.byte
        let s := s.get
        if s.Eof then s
        else s.get.call (.naws (xhigh.toNat <<< 8 ||| xlow.toNat) (yhigh.toNat <<< 8 ||| s.byte.toNat))

def linemode (s : Subopt) : Subopt :=
  if s.Eof then s
  else
    let request := s.byte
    let s := s.get
    if s.Eof then s
    else if request = LM_SLC then s.call (.doOptSlc s.rest)
    else if request = LM_MODE then
      if s.Eof then s else s.get.call (.useeditmode s.byte)
    else if s.Eof then s
    else s.get

def status (myStateIsWill : Bool) (s : Subopt) : Subopt :=
  if s.Eof then s
  else if s.byte = TELQUAL_SEND ∧ myStateIsWill then s.get.call .sendStatus
  else s.get

/-- The name of the variable. -/
def display : CString := cstr [0x44, 0x49, 0x53, 0x50, 0x4c, 0x41, 0x59]

def xdisploc (s : Subopt) : Subopt :=
  if s.Eof then s
  else if s.byte ≠ TELQUAL_IS then s.get
  else
    let s := (s.get.call (.settimer TELOPT_XDISPLOC)).poke s.subend 0
    s.call (.env (.setenv display s.text))

/-! ## The environment -/

/-- Up to behind the first byte of the kind `p`. -/
def skipTo (p : UInt8 → Bool) (s : Subopt) : Subopt :=
  if s.Eof then s else if p s.byte then s.get else s.get.skipTo p
termination_by s.subend - s.subpointer
decreasing_by
  rename_i h _
  show s.subend - (s.subpointer + 1) < s.subend - s.subpointer
  omega

/-- Whether the other side has its VALUE and VAR reversed, if that can be told. -/
def reversed (s : Subopt) (last : Option UInt8) (empty : Bool) (gotVar gotValue gotUservar : Nat) : Subopt × Option Bool :=
  if s.Eof then
    (s,
      if empty ∧ last = some OLD_ENV_VALUE then some false
      else if empty ∧ last = some OLD_ENV_VAR then some true
      else if gotUservar + gotVar = gotValue then some false
      else if gotUservar + gotValue = gotVar then some true
      else none)
  else if s.byte = OLD_ENV_VAR then
    if last = none ∨ last = some OLD_ENV_VAR ∨ empty ∧ last = some OLD_ENV_VALUE then (s.get, some false)
    else s.get.reversed (some OLD_ENV_VAR) true (gotVar + 1) gotValue gotUservar
  else if s.byte = OLD_ENV_VALUE then
    if last = none ∨ last = some OLD_ENV_VALUE ∨ empty ∧ last = some OLD_ENV_VAR then (s.get, some true)
    else s.get.reversed (some OLD_ENV_VALUE) true gotVar (gotValue + 1) gotUservar
  else if s.byte = ENV_USERVAR then
    if empty ∧ last = some OLD_ENV_VALUE then (s.get, some false)
    else if empty ∧ last = some OLD_ENV_VAR then (s.get, some true)
    else
      s.get.reversed (some ENV_USERVAR) true gotVar gotValue
        (if last ≠ some ENV_USERVAR then gotUservar + 1 else gotUservar)
  else if s.byte = ENV_ESC ∧ ¬ s.get.Eof then s.get.get.reversed last false gotVar gotValue gotUservar
  else s.get.reversed last false gotVar gotValue gotUservar
termination_by s.subend - s.subpointer
decreasing_by
  all_goals
    simp only [get, Eof] at *
    omega

/-- Between SB_SAVE and SB_RESTORE, as long as it has not been decided; what an earlier sub-option
    has saved is the same offset. -/
def order (s : Subopt) : Subopt :=
  if s.ovar < 0 then
    let r := s.reversed none false 0 0 0
    let t := { r.1 with subpointer := s.subpointer }
    match r.2 with
    | some false => { t with ovar := OLD_ENV_VAR.toNat, ovalue := OLD_ENV_VALUE.toNat }
    | some true => { t with ovar := OLD_ENV_VALUE.toNat, ovalue := OLD_ENV_VAR.toNat }
    | none => t
  else s

structure Locals where
  cp : Nat
  varp : Nat
  valp : Option Nat

/-- `if (valp) setenv (varp, valp, 1); else unsetenv (varp);` -/
def callEnv (s : Subopt) (l : Locals) : Subopt :=
  s.call (.env (match l.valp with
    | some v => .setenv (strAt size s.mem l.varp) (strAt size s.mem v)
    | none => .unsetenv (strAt size s.mem l.varp)))

/-- The kind of a byte on OLD_ENVIRON. -/
def kind (s : Subopt) (old : Bool) (c : UInt8) : UInt8 :=
  if old then (if (c.toNat : Int) = s.ovar then NEW_ENV_VAR else if (c.toNat : Int) = s.ovalue then NEW_ENV_VALUE else c)
  else c

def turn (old : Bool) (s : Subopt) (l : Locals) : Subopt × Locals :=
  let c := s.kind old s.byte
  let s := s.get
  if c = NEW_ENV_VALUE then (s.poke l.cp 0, { l with cp := s.subpointer, valp := some s.subpointer })
  else if c = NEW_ENV_VAR ∨ c = ENV_USERVAR then ((s.poke l.cp 0).callEnv l, ⟨s.subpointer, s.subpointer, none⟩)
  else if c = ENV_ESC then
    if s.Eof then (s, l) else (s.get.poke l.cp s.byte, { l with cp := l.cp + 1 })
  else (s.poke l.cp c, { l with cp := l.cp + 1 })

theorem turn_lt (old : Bool) (s : Subopt) (l : Locals) :
    (turn old s l).1.subend = s.subend ∧ s.subpointer < (turn old s l).1.subpointer := by
  unfold turn
  simp only
  repeat' split
  · exact ⟨rfl, Nat.lt_succ_self _⟩
  · exact ⟨rfl, Nat.lt_succ_self _⟩
  · exact ⟨rfl, Nat.lt_succ_self _⟩
  · exact ⟨rfl, Nat.lt_succ_of_lt (Nat.lt_succ_self _)⟩
  · exact ⟨rfl, Nat.lt_succ_self _⟩

def loop (old : Bool) (s : Subopt) (l : Locals) : Subopt × Locals :=
  if s.Eof then (s, l) else loop old (turn old s l).1 (turn old s l).2
termination_by s.subend - s.subpointer
decreasing_by
  obtain ⟨h1, h2⟩ := turn_lt old s l
  omega

def environ (old : Bool) (s : Subopt) : Subopt :=
  if s.Eof then s
  else if s.byte ≠ TELQUAL_IS ∧ s.byte ≠ TELQUAL_INFO then s.get
  else
    let option := if old then TELOPT_OLD_ENVIRON else TELOPT_NEW_ENVIRON
    let s := if s.byte = TELQUAL_IS then s.get.call (.settimer option) else s.get
    let s :=
      if old then
        let s := s.order
        s.skipTo fun c => (c.toNat : Int) = s.ovar ∨ c = ENV_USERVAR
      else s.skipTo fun c => c = NEW_ENV_VAR ∨ c = ENV_USERVAR
    if s.Eof then s
    else
      let r := loop old s ⟨s.subpointer, s.subpointer, none⟩
      (r.1.poke r.2.cp 0).callEnv r.2

/-! ## Authentication and encryption -/

def authentication (s : Subopt) : Subopt :=
  if s.Eof then s
  else if s.byte = TELQUAL_IS ∨ s.byte = TELQUAL_NAME then s.get.call (.auth s.byte s.get.rest)
  else s.get

/-- Those that are given what is left. -/
def encryptCommands : List UInt8 :=
  [ENCRYPT_SUPPORT, ENCRYPT_IS, ENCRYPT_REPLY, ENCRYPT_START, ENCRYPT_REQSTART, ENCRYPT_ENC_KEYID, ENCRYPT_DEC_KEYID]

def encrypt (s : Subopt) : Subopt :=
  if s.Eof then s
  else if s.byte ∈ encryptCommands then s.get.call (.encrypt s.byte s.get.rest)
  else if s.byte = ENCRYPT_END ∨ s.byte = ENCRYPT_REQEND then s.get.call (.encrypt s.byte [])
  else s.get

end Subopt

def MY_STATE_WILL : UInt8 := 0x01
def MY_STATE_DO : UInt8 := 0x04

def hisStateIsWill (options : UInt8 → UInt8) (i : UInt8) : Prop := options i &&& MY_STATE_DO ≠ 0

def myStateIsWill (options : UInt8 → UInt8) (i : UInt8) : Prop := options i &&& MY_STATE_WILL ≠ 0

instance (options : UInt8 → UInt8) (i : UInt8) : Decidable (hisStateIsWill options i) := inferInstanceAs (Decidable (_ ≠ _))

instance (options : UInt8 → UInt8) (i : UInt8) : Decidable (myStateIsWill options i) := inferInstanceAs (Decidable (_ ≠ _))

def suboption (options : UInt8 → UInt8) (s : Subopt) : Subopt :=
  let subchar := s.byte
  let s := s.get
  if subchar = TELOPT_TSPEED then (if hisStateIsWill options TELOPT_TSPEED then s.tspeed else s)
  else if subchar = TELOPT_TTYPE then (if hisStateIsWill options TELOPT_TTYPE then s.ttype else s)
  else if subchar = TELOPT_NAWS then (if hisStateIsWill options TELOPT_NAWS then s.naws else s)
  else if subchar = TELOPT_LINEMODE then (if hisStateIsWill options TELOPT_LINEMODE then s.linemode else s)
  else if subchar = TELOPT_STATUS then s.status (myStateIsWill options TELOPT_STATUS)
  else if subchar = TELOPT_XDISPLOC then s.xdisploc
  else if subchar = TELOPT_NEW_ENVIRON then s.environ false
  else if subchar = TELOPT_OLD_ENVIRON then s.environ true
  else if subchar = TELOPT_AUTHENTICATION then s.authentication
  else if subchar = TELOPT_ENCRYPT then s.encrypt
  else s

/-! ## What is fetched -/

namespace Subopt

/-- What has been fetched lies before subend. -/
def Within (s : Subopt) : Prop := ∀ i ∈ s.fetched, i < s.subend

/-- Nothing is fetched behind subend on the way from `s` to `t`. -/
structure Keeps (s t : Subopt) : Prop where
  subend : t.subend = s.subend
  fetched : ∀ i ∈ s.fetched, i ∈ t.fetched
  within : s.Within → t.Within

variable {s t u : Subopt} {options : UInt8 → UInt8}

theorem Keeps.refl (s : Subopt) : Keeps s s := ⟨rfl, fun _ => id, id⟩

theorem Keeps.trans (h : Keeps s t) (h' : Keeps t u) : Keeps s u :=
  ⟨h'.subend.trans h.subend, fun i hi => h'.fetched i (h.fetched i hi), fun hs => h'.within (h.within hs)⟩

theorem keeps_get (h : ¬ s.Eof) : Keeps s s.get := by
  refine ⟨rfl, fun i hi => List.mem_append_left _ hi, fun hs i hi => ?_⟩
  rcases List.mem_append.mp hi with hi | hi
  · exact hs i hi
  · rw [List.mem_singleton.mp hi]
    exact Nat.lt_of_not_le h

theorem keeps_call (s : Subopt) (c : Call) : Keeps s (s.call c) := ⟨rfl, fun _ => id, id⟩

theorem keeps_poke (s : Subopt) (cp : Nat) (c : UInt8) : Keeps s (s.poke cp c) := ⟨rfl, fun _ => id, id⟩

theorem Keeps.get (h : Keeps s t) (ht : ¬ t.Eof) : Keeps s t.get := h.trans (keeps_get ht)

theorem Keeps.call (h : Keeps s t) (c : Call) : Keeps s (t.call c) := h.trans (keeps_call t c)

theorem Keeps.poke (h : Keeps s t) (cp : Nat) (c : UInt8) : Keeps s (t.poke cp c) := h.trans (keeps_poke t cp c)

theorem keeps_skipComma (h : ¬ s.Eof) : Keeps s s.skipComma := by
  induction s using skipComma.induct with
  | case1 s hmore ih =>
    rw [skipComma, if_pos hmore]
    exact (keeps_get h).trans (ih hmore.2)
  | case2 s hstop =>
    rw [skipComma, if_neg hstop]
    exact keeps_get h

theorem keeps_grow (s : Subopt) (stk : List UInt8) : Keeps s (s.grow stk).1 := by
  induction s, stk using grow.induct with
  | case1 s stk heof =>
    rw [grow, if_pos heof]
    exact Keeps.refl s
  | case2 s stk heof ih =>
    rw [grow, if_neg heof]
    exact (keeps_get heof).trans ih

theorem keeps_ttype (s : Subopt) : Keeps s s.ttype := by
  have hcall := keeps_call s (.settimer TELOPT_TTYPE)
  unfold ttype
  simp only
  split
  · exact hcall
  · rename_i heof
    split
    · exact hcall.get heof
    · exact ((hcall.get heof).trans (keeps_grow _ _)).call _

theorem keeps_naws (s : Subopt) : Keeps s s.naws := by
  unfold naws
  simp only
  split
  · exact Keeps.refl s
  rename_i h1
  have hx := keeps_get h1
  split
  · exact hx
  rename_i h2
  have hxy := hx.get h2
  split
  · exact hxy
  rename_i h3
  have hy := hxy.get h3
  split
  · exact hy
  · rename_i h4
    exact (hy.get h4).call _

theorem keeps_linemode (s : Subopt) : Keeps s s.linemode := by
  unfold linemode
  simp only
  split
  · exact Keeps.refl s
  rename_i h1
  have hrequest := keeps_get h1
  split
  · exact hrequest
  rename_i h2
  split
  · exact hrequest.call _
  · split
    · exact (hrequest.get h2).call _
    · exact hrequest.get h2

theorem keeps_status (mine : Bool) (s : Subopt) : Keeps s (s.status mine) := by
  unfold status
  split
  · exact Keeps.refl s
  · rename_i heof
    split
    · exact (keeps_get heof).call _
    · exact keeps_get heof

theorem keeps_xdisploc (s : Subopt) : Keeps s s.xdisploc := by
  unfold xdisploc
  split
  · exact Keeps.refl s
  · rename_i heof
    split
    · exact keeps_get heof
    · exact (((keeps_get heof).call _).poke _ _).call _

theorem keeps_skipTo (p : UInt8 → Bool) (s : Subopt) : Keeps s (s.skipTo p) := by
  induction s using skipTo.induct p with
  | case1 s heof =>
    rw [skipTo, if_pos heof]
    exact Keeps.refl s
  | case2 s heof hp =>
    rw [skipTo, if_neg heof, if_pos hp]
    exact keeps_get heof
  | case3 s heof hp ih =>
    rw [skipTo, if_neg heof, if_neg hp]
    exact (keeps_get heof).trans ih

theorem keeps_reversed (s : Subopt) (last : Option UInt8) (empty : Bool) (gotVar gotValue gotUservar : Nat) :
    Keeps s (s.reversed last empty gotVar gotValue gotUservar).1 := by
  fun_induction reversed s last empty gotVar gotValue gotUservar with
  | case1 => exact Keeps.refl _
  | case2 _ _ _ _ _ _ heof => exact keeps_get heof
  | case3 _ _ _ _ _ _ heof _ _ ih => exact (keeps_get heof).trans ih
  | case4 _ _ _ _ _ _ heof => exact keeps_get heof
  | case5 _ _ _ _ _ _ heof _ _ _ ih => exact (keeps_get heof).trans ih
  | case6 _ _ _ _ _ _ heof => exact keeps_get heof
  | case7 _ _ _ _ _ _ heof => exact keeps_get heof
  | case8 _ _ _ _ _ _ heof _ _ _ _ _ ih => exact (keeps_get heof).trans ih
  | case9 _ _ _ _ _ _ heof _ _ _ hesc ih => exact ((keeps_get heof).get hesc.2).trans ih
  | case10 _ _ _ _ _ _ heof _ _ _ _ ih => exact (keeps_get heof).trans ih

theorem keeps_order (s : Subopt) : Keeps s s.order := by
  have hscan := keeps_reversed s none false 0 0 0
  unfold order
  split
  · simp only
    split
    · exact ⟨hscan.subend, hscan.fetched, hscan.within⟩
    · exact ⟨hscan.subend, hscan.fetched, hscan.within⟩
    · exact ⟨hscan.subend, hscan.fetched, hscan.within⟩
  · exact Keeps.refl s

theorem keeps_callEnv (s : Subopt) (l : Locals) : Keeps s (s.callEnv l) := keeps_call s _

theorem keeps_turn (old : Bool) (h : ¬ s.Eof) (l : Locals) : Keeps s (turn old s l).1 := by
  have hget := keeps_get h
  unfold turn
  simp only
  split
  · exact hget.poke _ _
  split
  · exact (hget.poke _ _).trans (keeps_callEnv _ l)
  split
  · split
    · exact hget
    · rename_i heof
      exact (hget.get heof).poke _ _
  · exact hget.poke _ _

theorem keeps_loop (old : Bool) (s : Subopt) (l : Locals) : Keeps s (loop old s l).1 := by
  induction s, l using loop.induct old with
  | case1 s l heof =>
    rw [loop, if_pos heof]
    exact Keeps.refl s
  | case2 s l heof ih =>
    rw [loop, if_neg heof]
    exact (keeps_turn old heof l).trans ih

theorem keeps_environ (old : Bool) (s : Subopt) : Keeps s (s.environ old) := by
  unfold environ
  split
  · exact Keeps.refl s
  rename_i heof
  have hget := keeps_get heof
  split
  · exact hget
  have hqual : Keeps s (if s.byte = TELQUAL_IS then
      s.get.call (.settimer (if old then TELOPT_OLD_ENVIRON else TELOPT_NEW_ENVIRON)) else s.get) := by
    split
    · exact hget.call _
    · exact hget
  simp only
  generalize (if s.byte = TELQUAL_IS then
    s.get.call (.settimer (if old then TELOPT_OLD_ENVIRON else TELOPT_NEW_ENVIRON)) else s.get) = t at hqual
  have hvar : Keeps s (if old then t.order.skipTo fun c => (c.toNat : Int) = t.order.ovar ∨ c = ENV_USERVAR
      else t.skipTo fun c => c = NEW_ENV_VAR ∨ c = ENV_USERVAR) := by
    split
    · exact (hqual.trans (keeps_order t)).trans (keeps_skipTo _ _)
    · exact hqual.trans (keeps_skipTo _ _)
  generalize (if old then t.order.skipTo fun c => (c.toNat : Int) = t.order.ovar ∨ c = ENV_USERVAR
      else t.skipTo fun c => c = NEW_ENV_VAR ∨ c = ENV_USERVAR) = u at hvar
  split
  · exact hvar
  · exact ((hvar.trans (keeps_loop old u _)).poke _ _).trans (keeps_callEnv _ _)

theorem keeps_authentication (s : Subopt) : Keeps s s.authentication := by
  unfold authentication
  split
  · exact Keeps.refl s
  · rename_i heof
    split
    · exact (keeps_get heof).call _
    · exact keeps_get heof

theorem keeps_encrypt (s : Subopt) : Keeps s s.encrypt := by
  unfold encrypt
  split
  · exact Keeps.refl s
  · rename_i heof
    split
    · exact (keeps_get heof).call _
    · split
      · exact (keeps_get heof).call _
      · exact keeps_get heof

/-! ## The variables of NEW_ENVIRON -/

/-- The two loops over the variables are at the same place, and have made the same calls. -/
structure Same (calls : List Call) (d : Scan) (s : Subopt) (l : Locals) : Prop where
  mem : d.mem = s.mem
  subpointer : d.subpointer = s.subpointer
  cp : d.cp = l.cp
  varp : d.varp = l.varp
  valp : d.valp = l.valp
  calls : s.calls = calls ++ d.calls.map .env

variable {calls : List Call} {d : Scan} {l : Locals}

theorem Same.callsEnv (h : Same calls d s l) (c : UInt8) :
    ((s.poke l.cp c).callEnv l).calls = calls ++ ((d.poke c).call size).calls.map .env := by
  have hmem : (s.poke l.cp c).mem = (d.poke c).mem := by
    show store s.mem l.cp [c] = store d.mem d.cp [c]
    rw [h.mem, h.cp]
  have hvarp : (d.poke c).varp = l.varp := h.varp
  have hvalp : (d.poke c).valp = l.valp := h.valp
  unfold Subopt.callEnv Scan.call Subopt.call
  simp only [hmem, hvarp, hvalp, List.map_append, List.map_cons, List.map_nil]
  rw [← List.append_assoc]
  exact congrArg (· ++ _) h.calls

theorem same_turn (h : Same calls d s l) :
    Same calls (d.turn size s.subend) (turn false s l).1 (turn false s l).2 := by
  have hbyte : d.mem d.subpointer = s.byte := by rw [h.mem, h.subpointer]; rfl
  have hnext : d.subpointer + 1 = s.get.subpointer := congrArg (· + 1) h.subpointer
  have hstore : ∀ c, store d.mem d.cp [c] = store s.mem l.cp [c] := fun c => by rw [h.mem, h.cp]
  unfold Scan.turn turn
  simp only [hbyte, hnext, kind, Bool.false_eq_true, if_false]
  split
  · exact ⟨hstore 0, rfl, rfl, h.varp, rfl, h.calls⟩
  split
  · exact ⟨hstore 0, rfl, rfl, rfl, rfl, h.callsEnv 0⟩
  split
  · by_cases heof : s.get.Eof
    · rw [if_pos heof, if_pos (show s.get.subpointer ≥ s.subend from heof)]
      exact ⟨h.mem, rfl, h.cp, h.varp, h.valp, h.calls⟩
    · rw [if_neg heof, if_neg (show ¬ s.get.subpointer ≥ s.subend from heof)]
      refine ⟨?_, rfl, congrArg (· + 1) h.cp, h.varp, h.valp, h.calls⟩
      show store d.mem d.cp [d.mem s.get.subpointer] = store s.mem l.cp [s.mem s.get.subpointer]
      rw [hstore, h.mem]
  · exact ⟨hstore _, rfl, congrArg (· + 1) h.cp, h.varp, h.valp, h.calls⟩

theorem same_loop (h : Same calls d s l) :
    Same calls (d.loop size s.subend) (loop false s l).1 (loop false s l).2 := by
  induction s, l using loop.induct false generalizing d with
  | case1 s l heof =>
    have hd : ¬ d.subpointer < s.subend := by
      rw [h.subpointer]
      exact Nat.not_lt.mpr heof
    rw [loop, if_pos heof, Scan.loop, if_neg hd]
    exact h
  | case2 s l heof ih =>
    have hd : d.subpointer < s.subend := by
      rw [h.subpointer]
      exact Nat.lt_of_not_le heof
    have hrest := ih (same_turn h)
    rw [(turn_lt false s l).1] at hrest
    rw [loop, if_neg heof, Scan.loop, if_pos hd]
    exact hrest

theorem skip_skipTo (s : Subopt) :
    (s.skipTo fun c => c = NEW_ENV_VAR ∨ c = ENV_USERVAR).subpointer = skip s.mem s.subend s.subpointer ∧
      (s.skipTo fun c => c = NEW_ENV_VAR ∨ c = ENV_USERVAR).mem = s.mem ∧
      (s.skipTo fun c => c = NEW_ENV_VAR ∨ c = ENV_USERVAR).subend = s.subend ∧
      (s.skipTo fun c => c = NEW_ENV_VAR ∨ c = ENV_USERVAR).calls = s.calls := by
  induction s using skipTo.induct (fun c => c = NEW_ENV_VAR ∨ c = ENV_USERVAR) with
  | case1 s heof =>
    rw [skipTo, if_pos heof, skip, if_neg (Nat.not_lt.mpr heof)]
    exact ⟨rfl, rfl, rfl, rfl⟩
  | case2 s heof hvar =>
    have hvar' : s.mem s.subpointer = NEW_ENV_VAR ∨ s.mem s.subpointer = ENV_USERVAR := of_decide_eq_true hvar
    rw [skipTo, if_neg heof, if_pos hvar, skip, if_pos (Nat.lt_of_not_le heof), if_pos hvar']
    exact ⟨rfl, rfl, rfl, rfl⟩
  | case3 s heof hvar ih =>
    have hvar' : ¬ (s.mem s.subpointer = NEW_ENV_VAR ∨ s.mem s.subpointer = ENV_USERVAR) := fun h => hvar (decide_eq_true h)
    rw [skipTo, if_neg heof, if_neg hvar, skip, if_pos (Nat.lt_of_not_le heof), if_neg hvar']
    exact ih

/-- On NEW_ENVIRON the calls are those of the decoding in place. -/
theorem environ_env (b : SubBuf) (hsize : b.mem.length = size) (hs : s.mem = fun i => b.mem.getD i 0)
    (hptr : s.subpointer = b.ptr + 1) (hend : s.subend = b.fin) :
    ∃ timers, (s.environ false).calls = s.calls ++ timers ++ (Telnetd.environ b).2.map .env := by
  have hbyte : b.mem.getD s.subpointer 0 = s.byte := by rw [byte, hs]
  unfold environ Telnetd.environ
  simp only [hsize, ← hs, ← hend, ← hptr, hbyte, Bool.false_eq_true, if_false]
  by_cases heof : s.Eof
  · rw [if_pos heof, if_pos (show s.subpointer ≥ s.subend from heof)]
    exact ⟨[], by simp⟩
  rw [if_neg heof, if_neg (show ¬ s.subpointer ≥ s.subend from heof)]
  by_cases hqual : s.byte ≠ TELQUAL_IS ∧ s.byte ≠ TELQUAL_INFO
  · rw [if_pos hqual, if_pos hqual]
    exact ⟨[], by simp [get]⟩
  rw [if_neg hqual, if_neg hqual]
  obtain ⟨timers, t, ht, hcalls, hmem, hsub, hfin⟩ : ∃ timers t,
      (if s.byte = TELQUAL_IS then s.get.call (.settimer TELOPT_NEW_ENVIRON) else s.get) = t ∧
        t.calls = s.calls ++ timers ∧ t.mem = s.mem ∧ t.subpointer = s.subpointer + 1 ∧ t.subend = s.subend := by
    split
    · exact ⟨[.settimer TELOPT_NEW_ENVIRON], _, rfl, rfl, rfl, rfl, rfl⟩
    · exact ⟨[], _, rfl, (List.append_nil _).symm, rfl, rfl, rfl⟩
  rw [ht]
  obtain ⟨h1, h2, h3, h4⟩ := skip_skipTo t
  generalize (t.skipTo fun c => c = NEW_ENV_VAR ∨ c = ENV_USERVAR) = u at h1 h2 h3 h4
  rw [hmem, hsub, hfin] at h1
  refine ⟨timers, ?_⟩
  rw [← h1]
  by_cases hnone : u.Eof
  · rw [if_pos hnone, if_pos (show u.subpointer ≥ s.subend by rw [← hfin, ← h3]; exact hnone), h4, hcalls]
    simp
  · rw [if_neg hnone, if_neg (show ¬ u.subpointer ≥ s.subend by rw [← hfin, ← h3]; exact hnone)]
    have hstart : Same (s.calls ++ timers) ⟨s.mem, u.subpointer, u.subpointer, u.subpointer, none, []⟩ u
        ⟨u.subpointer, u.subpointer, none⟩ :=
      ⟨(h2.trans hmem).symm, rfl, rfl, rfl, rfl, by rw [h4, hcalls]; simp⟩
    have hloop := (same_loop hstart).callsEnv 0
    rw [h3, hfin] at hloop
    exact hloop

/-! ## TSPEED -/

/-- The first fetch of the loop is made without a look at SB_EOF. -/
theorem skipComma_fetched (h : s.Eof) : s.skipComma = s.get := by
  rw [skipComma, if_neg]
  intro ⟨_, hmore⟩
  have heof : s.subend ≤ s.subpointer := h
  exact hmore (Nat.le_succ_of_le heof)

/-- Something is left behind TSPEED IS, or it is not IS. -/
def Room (s : Subopt) : Prop := s.Eof ∨ s.byte ≠ TELQUAL_IS ∨ ¬ s.get.Eof

theorem keeps_tspeed (h : s.Room) : Keeps s s.tspeed := by
  have hcall := keeps_call s (.settimer TELOPT_TSPEED)
  unfold tspeed
  simp only
  split
  · exact hcall
  rename_i heof
  have hget := hcall.get heof
  split
  · exact hget
  rename_i his
  have hcomma := hget.trans (keeps_skipComma ((h.resolve_left heof).resolve_left his))
  split
  · exact hcomma
  · exact hcomma.call _

theorem fetches_behind_tspeed (h : ¬ s.Room) : ∃ i ∈ s.tspeed.fetched, s.subend ≤ i := by
  unfold Room at h
  simp only [not_or, not_not] at h
  obtain ⟨heof, his, hend⟩ := h
  have heof' : ¬ (s.call (.settimer TELOPT_TSPEED)).Eof := heof
  have his' : ¬ (s.call (.settimer TELOPT_TSPEED)).byte ≠ TELQUAL_IS := not_not.mpr his
  have hfetch : (s.call (.settimer TELOPT_TSPEED)).get.skipComma = (s.call (.settimer TELOPT_TSPEED)).get.get :=
    skipComma_fetched hend
  have hlast : s.tspeed.fetched = s.fetched ++ [s.subpointer] ++ [s.subpointer + 1] := by
    unfold tspeed
    simp only
    rw [if_neg heof', if_neg his', hfetch]
    split
    · rfl
    · rfl
  refine ⟨s.subpointer + 1, ?_, hend⟩
  rw [hlast]
  exact List.mem_append_right _ (List.mem_singleton_self _)

/-! ## The sub-option -/

/-- suboption is called with `content` in subbuffer, and `left` behind it. -/
def ofContent (content : List UInt8) (left : Nat → UInt8) (ovar ovalue : Int) : Subopt where
  mem := fun i => content.getD i (left i)
  subpointer := 0
  subend := content.length
  ovar := ovar
  ovalue := ovalue
  fetched := []
  calls := []

/-- Behind the option, only TSPEED can fetch too much. -/
theorem keeps_suboption (h : s.byte = TELOPT_TSPEED → hisStateIsWill options TELOPT_TSPEED → s.get.Room) :
    Keeps s.get (suboption options s) := by
  unfold suboption
  simp only
  split
  · rename_i htspeed
    split
    · rename_i hwill
      exact keeps_tspeed (h htspeed hwill)
    · exact Keeps.refl _
  split
  · split
    · exact keeps_ttype _
    · exact Keeps.refl _
  split
  · split
    · exact keeps_naws _
    · exact Keeps.refl _
  split
  · split
    · exact keeps_linemode _
    · exact Keeps.refl _
  split
  · exact keeps_status _ _
  split
  · exact keeps_xdisploc _
  split
  · exact keeps_environ _ _
  split
  · exact keeps_environ _ _
  split
  · exact keeps_authentication _
  split
  · exact keeps_encrypt _
  · exact Keeps.refl _

theorem fetches_behind (htspeed : s.byte = TELOPT_TSPEED) (hwill : hisStateIsWill options TELOPT_TSPEED)
    (h : ¬ s.get.Room) : ∃ i ∈ (suboption options s).fetched, s.subend ≤ i := by
  have heq : suboption options s = s.get.tspeed := by
    unfold suboption
    simp only
    rw [if_pos htspeed, if_pos hwill]
  rw [heq]
  exact fetches_behind_tspeed h

end Subopt

open Subopt

/-- The sub-option leaves room behind TSPEED IS, unless that is all. -/
theorem room_iff (c : UInt8) (l : List UInt8) (left : Nat → UInt8) (ovar ovalue : Int) :
    (ofContent (c :: l) left ovar ovalue).get.Room ↔ l ≠ [TELQUAL_IS] := by
  have hend : (ofContent (c :: l) left ovar ovalue).get.Eof ↔ l.length + 1 ≤ 1 := Iff.rfl
  have hend' : (ofContent (c :: l) left ovar ovalue).get.get.Eof ↔ l.length + 1 ≤ 2 := Iff.rfl
  unfold Room
  rw [hend, hend']
  rcases l with _ | ⟨d, _ | ⟨e, l⟩⟩
  · exact iff_of_true (Or.inl (Nat.le_refl 1)) (List.cons_ne_nil _ _).symm
  · have hbyte : (ofContent [c, d] left ovar ovalue).get.byte = d := rfl
    rw [hbyte]
    constructor
    · intro h heq
      rcases h with h | h | h
      · exact Nat.not_succ_le_self 1 h
      · exact h (List.cons.inj heq).1
      · exact h (Nat.le_refl 2)
    · intro h
      exact Or.inr (Or.inl fun hd => h (congrArg (fun x => [x]) hd))
  · refine iff_of_true (Or.inr (Or.inr ?_)) ?_
    · simp only [List.length_cons]
      omega
    · intro h
      cases h

/-- For every option state, and whatever an earlier sub-option has left. -/
theorem fetches_inside_iff (options : UInt8 → UInt8) (content : List UInt8) (left : Nat → UInt8) (ovar ovalue : Int) :
    (∀ i ∈ (suboption options (ofContent content left ovar ovalue)).fetched, i < content.length) ↔
      content ≠ [] ∧ ¬ (hisStateIsWill options TELOPT_TSPEED ∧ content = [TELOPT_TSPEED, TELQUAL_IS]) := by
  rcases content with _ | ⟨c, l⟩
  · have hroom : (ofContent [] left ovar ovalue).get.Room := Or.inl (Nat.zero_le 1)
    have hkeeps : Keeps (ofContent [] left ovar ovalue).get (suboption options (ofContent [] left ovar ovalue)) :=
      keeps_suboption fun _ _ => hroom
    refine iff_of_false (fun h => ?_) fun h => h.1 rfl
    exact absurd (h 0 (hkeeps.fetched 0 List.mem_cons_self)) (Nat.lt_irrefl 0)
  · have hbyte : (ofContent (c :: l) left ovar ovalue).byte = c := rfl
    have hbad : (hisStateIsWill options TELOPT_TSPEED ∧ c :: l = [TELOPT_TSPEED, TELQUAL_IS]) ↔
        c = TELOPT_TSPEED ∧ hisStateIsWill options TELOPT_TSPEED ∧ ¬ (ofContent (c :: l) left ovar ovalue).get.Room := by
      rw [room_iff, not_not, List.cons.injEq]
      tauto
    rw [hbad]
    by_cases h : c = TELOPT_TSPEED ∧ hisStateIsWill options TELOPT_TSPEED ∧ ¬ (ofContent (c :: l) left ovar ovalue).get.Room
    · refine iff_of_false (fun hin => ?_) fun h' => h'.2 h
      obtain ⟨htspeed, hwill, hroom⟩ := h
      obtain ⟨i, hi, hle⟩ := fetches_behind (hbyte.trans htspeed) hwill hroom
      exact absurd (hin i hi) (Nat.not_lt.mpr hle)
    · refine iff_of_true ?_ ⟨List.cons_ne_nil _ _, h⟩
      have hnonempty : ¬ (ofContent (c :: l) left ovar ovalue).Eof := Nat.not_succ_le_zero _
      have hrest : Keeps (ofContent (c :: l) left ovar ovalue).get
          (suboption options (ofContent (c :: l) left ovar ovalue)) := by
        refine keeps_suboption fun htspeed hwill => ?_
        by_contra hroom
        exact h ⟨hbyte.symm.trans htspeed, hwill, hroom⟩
      have hkeeps := (keeps_get hnonempty).trans hrest
      have hwithin := hkeeps.within fun i hi => absurd hi List.not_mem_nil
      intro i hi
      exact (hwithin i hi).trans_eq hkeeps.subend

/-- Nothing has been received, or TSPEED IS and nothing behind it. -/
theorem fetches_behind_subend :
    (¬ ∀ i ∈ (suboption (fun _ => 0) (ofContent [] (fun _ => IAC) 1 0)).fetched, i < 0) ∧
      ¬ ∀ i ∈ (suboption (fun _ => MY_STATE_DO) (ofContent [TELOPT_TSPEED, TELQUAL_IS] (fun _ => IAC) 1 0)).fetched,
        i < 2 := by
  constructor
  · intro h
    exact absurd (h 0 (by decide)) (by decide)
  · intro h
    have hbad : ∃ i ∈ (suboption (fun _ => MY_STATE_DO)
        (ofContent [TELOPT_TSPEED, TELQUAL_IS] (fun _ => IAC) 1 0)).fetched, 2 ≤ i :=
      fetches_behind rfl (by decide) fun hroom => (room_iff _ _ _ _ _).mp hroom rfl
    obtain ⟨i, hi, hle⟩ := hbad
    exact absurd (h i hi) (Nat.not_lt.mpr hle)

end Netutils.Telnetd.Suboption
