/-
  Netutils.Libc.Syslog — priorities (<syslog.h>): a facility and a level in one number, masks
  of levels, and the names that a configuration may use for them.
-/

import Mathlib.Algebra.Group.Nat.Defs
import Netutils.Libc.Ctype

namespace Netutils.Libc

def LOG_NFACILITIES : Nat := 24
def LOG_PRIMASK : Nat := 7
def LOG_FACMASK : Nat := 0x3f8

def LOG_KERN : Nat := 0
def LOG_USER : Nat := 1 * 8

def LOG_FAC (pri : Nat) : Nat := pri % 0x400 / 8
def LOG_PRI (pri : Nat) : Nat := pri % 8

/-- LOG_MASK, as a byte of a mask -/
def LOG_MASK (level : Nat) : UInt8 := UInt8.ofNat (2 ^ level)

def LOG_UPTO (level : Nat) : UInt8 := UInt8.ofNat (2 ^ (level + 1) - 1)

def LOG_CRIT : Nat := 2
def LOG_NOTICE : Nat := 5
def LOG_INFO : Nat := 6

def LOG_MAKEPRI (fac pri : Nat) : Nat := fac ||| pri

/-- `INTERNAL_NOPRI`, the level of "none" -/
def INTERNAL_NOPRI : Nat := 0x10

/-- `INTERNAL_MARK`, the facility "mark" -/
def INTERNAL_MARK : Nat := LOG_NFACILITIES * 8

structure CODE where
  name : List UInt8
  val : Nat
  deriving DecidableEq

def prioritynames : List CODE := [
  ⟨text "alert", 1⟩,
  ⟨text "crit", 2⟩,
  ⟨text "debug", 7⟩,
  ⟨text "emerg", 0⟩,
  ⟨text "err", 3⟩,
  ⟨text "error", 3⟩,
  ⟨text "info", LOG_INFO⟩,
  ⟨text "none", INTERNAL_NOPRI⟩,
  ⟨text "notice", 5⟩,
  ⟨text "panic", 0⟩,
  ⟨text "warn", 4⟩,
  ⟨text "warning", 4⟩]

def facilitynames : List CODE := [
  ⟨text "auth", 4 * 8⟩,
  ⟨text "authpriv", 10 * 8⟩,
  ⟨text "cron", 9 * 8⟩,
  ⟨text "daemon", 3 * 8⟩,
  ⟨text "ftp", 11 * 8⟩,
  ⟨text "kern", 0 * 8⟩,
  ⟨text "lpr", 6 * 8⟩,
  ⟨text "mail", 2 * 8⟩,
  ⟨text "mark", INTERNAL_MARK⟩,
  ⟨text "news", 7 * 8⟩,
  ⟨text "security", 4 * 8⟩,
  ⟨text "syslog", 5 * 8⟩,
  ⟨text "user", 1 * 8⟩,
  ⟨text "uucp", 8 * 8⟩,
  ⟨text "local0", 16 * 8⟩,
  ⟨text "local1", 17 * 8⟩,
  ⟨text "local2", 18 * 8⟩,
  ⟨text "local3", 19 * 8⟩,
  ⟨text "local4", 20 * 8⟩,
  ⟨text "local5", 21 * 8⟩,
  ⟨text "local6", 22 * 8⟩,
  ⟨text "local7", 23 * 8⟩]

end Netutils.Libc
