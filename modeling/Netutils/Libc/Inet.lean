/-
  Netutils.Libc.Inet — the functions of the C library that read an address or a number, on
  texts of digits and dots. Addresses are in host order, whatever order the
  functions give them in.
-/

import Mathlib.Algebra.Group.Nat.Defs
import Mathlib.Data.List.Basic

namespace Netutils.Libc

def isdigit (c : UInt8) : Bool := 0x30 ≤ c && c ≤ 0x39

/-- `'.'` -/
def dot : UInt8 := 0x2e

def digit (c : UInt8) : Nat := c.toNat - 0x30

/-- The digits of a number in this base, from 8 or 10 on. -/
def isdigitOf (base : Nat) (c : UInt8) : Bool := isdigit c && digit c < base

def number (base : Nat) (ds : List UInt8) : Nat := ds.foldl (fun n c => n * base + digit c) 0

theorem number_concat (base : Nat) (ds : List UInt8) (c : UInt8) :
    number base (ds ++ [c]) = number base ds * base + digit c := by
  rw [number, List.foldl_append]
  rfl

theorem digit_le {c : UInt8} (hc : isdigit c = true) : digit c ≤ 9 := by
  simp only [isdigit, Bool.and_eq_true, decide_eq_true_eq, UInt8.le_iff_toNat_le] at hc
  have hmax : c.toNat ≤ 0x39 := hc.2
  rw [digit]
  omega

def ULONG_MAX : Nat := 2 ^ 64 - 1

/-- `strtoul (s, &end, 0)` of decimal or octal digits. -/
def strtoul (s : List UInt8) : Nat × List UInt8 :=
  let base := if s.head? = some 0x30 then 8 else 10
  (min (number base (s.takeWhile (isdigitOf base))) ULONG_MAX, s.dropWhile (isdigitOf base))

def INADDR_NONE : UInt32 := 0xffffffff

/-- A part of an address. -/
def inetPart (s : List UInt8) : Option (Nat × List UInt8) :=
  let r := strtoul s
  if (s.head?).any isdigit ∧ r.1 ≤ 0xffffffff then some r else none

/-- The parts between the dots, each but the last a byte; `n` more may follow. -/
def dotted (part : List UInt8 → Option (Nat × List UInt8)) : Nat → List UInt8 → Option (List Nat)
  | 0, s => (part s).bind fun r => if r.2 = [] then some [r.1] else none
  | n + 1, s =>
    (part s).bind fun r =>
      match r.2 with
      | [] => some [r.1]
      | c :: s' => if c = dot ∧ r.1 ≤ 0xff then (dotted part n s').map (r.1 :: ·) else none

/-- What the last part may be, behind so many others. -/
def inetMax (n : Nat) : Nat := 256 ^ (4 - n) - 1

/-- inet_addr -/
def inetAddr (s : List UInt8) : UInt32 :=
  match dotted inetPart 3 s with
  | none => INADDR_NONE
  | some parts =>
    let last := parts.getLastD 0
    let front := parts.dropLast
    if inetMax front.length < last then INADDR_NONE
    else UInt32.ofNat (front.foldl (fun n b => n * 256 + b) 0 * 256 ^ (4 - front.length) + last)

/-- A byte of a network number. -/
def networkPart (s : List UInt8) : Option (Nat × List UInt8) :=
  let base := if s.head? = some 0x30 then 8 else 10
  let ds := s.takeWhile isdigit
  if ds ≠ [] ∧ ds.all (isdigitOf base) ∧ number base ds ≤ 0xff then some (number base ds, s.dropWhile isdigit) else none

/-- inet_network -/
def inetNetwork (s : List UInt8) : UInt32 :=
  match dotted networkPart 3 s with
  | none => INADDR_NONE
  | some parts => UInt32.ofNat (parts.foldl (fun n b => n * 256 + b) 0)

-- As an address the last part fills up the rest; as a network the parts are the low bytes.
example : inetAddr [0x31, 0x32, 0x37, dot, 0x31] = 0x7f000001 := by decide
example : inetNetwork [0x32, 0x35, 0x35, dot, 0x30] = 0xff00 := by decide

end Netutils.Libc
