/-
  Netutils.Protocols.Talkd — the messages of <protocols/talkd.h>, in host order.
-/

namespace Netutils.Protocols

abbrev Str := List UInt8

def TALK_VERSION : UInt8 := 1

def LEAVE_INVITE : UInt8 := 0
def LOOK_UP : UInt8 := 1
def DELETE : UInt8 := 2
def ANNOUNCE : UInt8 := 3

def SUCCESS : UInt8 := 0
def NOT_HERE : UInt8 := 1
def MACHINE_UNKNOWN : UInt8 := 3
def UNKNOWN_REQUEST : UInt8 := 5
def BADVERSION : UInt8 := 6
def BADADDR : UInt8 := 7
def BADCTLADDR : UInt8 := 8

def AF_INET : UInt16 := 2

/-- In seconds; -r sets another. -/
def MAX_LIFE : Int := 60

structure Osockaddr where
  family : UInt16
  data : List UInt8
  deriving DecidableEq

structure CtlMsg where
  vers : UInt8
  type : UInt8
  idNum : Nat
  addr : Osockaddr
  ctlAddr : Osockaddr
  pid : UInt32
  lName : Str
  rName : Str
  rTty : Str
  deriving DecidableEq

structure CtlResponse where
  vers : UInt8
  type : UInt8
  answer : UInt8
  idNum : Nat
  addr : Osockaddr
  deriving DecidableEq

end Netutils.Protocols
