/-
  Netutils.Arpa — what the programs use of <arpa/telnet.h>, <arpa/ftp.h> and <arpa/tftp.h>.
-/

namespace Netutils.Arpa

/-! ## Commands -/

def IAC : UInt8 := 255
def DONT : UInt8 := 254
def DO : UInt8 := 253
def WONT : UInt8 := 252
def WILL : UInt8 := 251
def SB : UInt8 := 250
def EL : UInt8 := 248
def EC : UInt8 := 247
def AYT : UInt8 := 246
def AO : UInt8 := 245
def IP : UInt8 := 244
def BREAK : UInt8 := 243
def DM : UInt8 := 242
def SE : UInt8 := 240
def EOR : UInt8 := 239
def ABORT : UInt8 := 238
def SUSP : UInt8 := 237
def xEOF : UInt8 := 236

/-! ## Sub-options -/

def TELQUAL_IS : UInt8 := 0
def TELQUAL_SEND : UInt8 := 1
def TELQUAL_INFO : UInt8 := 2
def TELQUAL_NAME : UInt8 := 3

def TELOPT_BINARY : UInt8 := 0
def TELOPT_ECHO : UInt8 := 1
def TELOPT_SGA : UInt8 := 3
def TELOPT_STATUS : UInt8 := 5
def TELOPT_TM : UInt8 := 6
def TELOPT_TTYPE : UInt8 := 24
def TELOPT_NAWS : UInt8 := 31
def TELOPT_TSPEED : UInt8 := 32
def TELOPT_LFLOW : UInt8 := 33
def TELOPT_XDISPLOC : UInt8 := 35

def TELOPT_OLD_ENVIRON : UInt8 := 36
def OLD_ENV_VALUE : UInt8 := 0
def OLD_ENV_VAR : UInt8 := 1

def TELOPT_AUTHENTICATION : UInt8 := 37

def TELOPT_NEW_ENVIRON : UInt8 := 39
def NEW_ENV_VAR : UInt8 := 0
def NEW_ENV_VALUE : UInt8 := 1
def ENV_ESC : UInt8 := 2
def ENV_USERVAR : UInt8 := 3

/-- The options are those below. -/
def NTELOPTS : Nat := 40

def LFLOW_OFF : UInt8 := 0
def LFLOW_ON : UInt8 := 1
def LFLOW_RESTART_ANY : UInt8 := 2
def LFLOW_RESTART_XON : UInt8 := 3

def TELOPT_LINEMODE : UInt8 := 34
def LM_MODE : UInt8 := 1
def LM_SLC : UInt8 := 3

def MODE_EDIT : UInt8 := 0x01
def MODE_TRAPSIG : UInt8 := 0x02
def MODE_ACK : UInt8 := 0x04
def MODE_SOFT_TAB : UInt8 := 0x08
def MODE_LIT_ECHO : UInt8 := 0x10
def MODE_MASK : UInt8 := 0x1f

def NSLC : Nat := 18

def SLC_NOSUPPORT : UInt8 := 0
def SLC_CANTCHANGE : UInt8 := 1
def SLC_VARIABLE : UInt8 := 2
def SLC_DEFAULT : UInt8 := 3
def SLC_LEVELBITS : UInt8 := 3
def SLC_ACK : UInt8 := 0x80
def SLC_FLUSHIN : UInt8 := 0x40
def SLC_FLUSHOUT : UInt8 := 0x20

def SLC_SYNCH : Nat := 1
def SLC_BRK : Nat := 2
def SLC_IP : Nat := 3
def SLC_AO : Nat := 4
def SLC_AYT : Nat := 5
def SLC_EOR : Nat := 6
def SLC_ABORT : Nat := 7
def SLC_EOF : Nat := 8
def SLC_SUSP : Nat := 9
def SLC_EC : Nat := 10
def SLC_EL : Nat := 11
def SLC_EW : Nat := 12
def SLC_RP : Nat := 13
def SLC_LNEXT : Nat := 14
def SLC_XON : Nat := 15
def SLC_XOFF : Nat := 16
def SLC_FORW1 : Nat := 17
def SLC_FORW2 : Nat := 18

def TELOPT_ENCRYPT : UInt8 := 38
def ENCRYPT_IS : UInt8 := 0
def ENCRYPT_SUPPORT : UInt8 := 1
def ENCRYPT_REPLY : UInt8 := 2
def ENCRYPT_START : UInt8 := 3
def ENCRYPT_END : UInt8 := 4
def ENCRYPT_REQSTART : UInt8 := 5
def ENCRYPT_REQEND : UInt8 := 6
def ENCRYPT_ENC_KEYID : UInt8 := 7
def ENCRYPT_DEC_KEYID : UInt8 := 8

def ENCTYPE_DES_CFB64 : UInt8 := 1
def ENCTYPE_DES_OFB64 : UInt8 := 2

/-! ## FTP and TFTP -/

/-- TYPE_A, TYPE_I and TYPE_L; ftpd refuses TYPE_E. -/
inductive TransferType where
  | A | I | L
  deriving DecidableEq

def SEGSIZE : Nat := 512

def RRQ : UInt16 := 1
def WRQ : UInt16 := 2
def DATA : UInt16 := 3
def ACK : UInt16 := 4
def ERROR : UInt16 := 5

def ENOTFOUND : Nat := 1
def EACCESS : Nat := 2

/-- A packet, in host order. -/
structure Tftphdr where
  opcode : UInt16
  block : UInt16
  data : List UInt8
  deriving DecidableEq

/-! ## Characters -/

def NUL : UInt8 := 0
def LF : UInt8 := 10
def CR : UInt8 := 13

/-! ## Which differ -/

@[simp] theorem cr_ne_iac : CR ≠ IAC := by decide
@[simp] theorem cr_ne_lf : CR ≠ LF := by decide
@[simp] theorem cr_ne_nul : CR ≠ NUL := by decide
@[simp] theorem lf_ne_nul : LF ≠ NUL := by decide
@[simp] theorem lf_ne_cr : LF ≠ CR := by decide
@[simp] theorem lf_ne_iac : LF ≠ IAC := by decide
@[simp] theorem nul_ne_lf : NUL ≠ LF := by decide
@[simp] theorem iac_ne_nul : IAC ≠ NUL := by decide
@[simp] theorem iac_ne_lf : IAC ≠ LF := by decide
@[simp] theorem iac_ne_cr : IAC ≠ CR := by decide
@[simp] theorem iac_ne_se : IAC ≠ SE := by decide
@[simp] theorem iac_ne_sb : IAC ≠ SB := by decide
@[simp] theorem iac_ne_will : IAC ≠ WILL := by decide
@[simp] theorem iac_ne_wont : IAC ≠ WONT := by decide
@[simp] theorem iac_ne_do : IAC ≠ DO := by decide
@[simp] theorem iac_ne_dont : IAC ≠ DONT := by decide
@[simp] theorem se_ne_iac : SE ≠ IAC := by decide
@[simp] theorem esc_ne_var : ENV_ESC ≠ NEW_ENV_VAR := by decide
@[simp] theorem esc_ne_value : ENV_ESC ≠ NEW_ENV_VALUE := by decide
@[simp] theorem esc_ne_uservar : ENV_ESC ≠ ENV_USERVAR := by decide
@[simp] theorem esc_ne_iac : ENV_ESC ≠ IAC := by decide

end Netutils.Arpa
