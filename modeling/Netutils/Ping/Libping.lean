/-
  Netutils.Ping.Libping — the packets of ping (ping/libping.c): what ping_xmit and ping_recv
  count, and what ping_recv makes of a packet that is no answer.

  ping_cktab has a bit for each of the last 128 numbers. It is cleared before the number is
  sent and set by the first answer.
-/

import Netutils.Lib.BitTable
import Netutils.Lib.Cells
import Netutils.Libicmp.Cksum

namespace Netutils.Ping

open Netutils.Lib Netutils.Libicmp

/-! ## Packets -/

def ICMP_ECHOREPLY : UInt8 := 0
def ICMP_DEST_UNREACH : UInt8 := 3
def ICMP_SOURCE_QUENCH : UInt8 := 4
def ICMP_REDIRECT : UInt8 := 5
def ICMP_ECHO : UInt8 := 8
def ICMP_TIME_EXCEEDED : UInt8 := 11
def ICMP_PARAMETERPROB : UInt8 := 12
def ICMP_TIMESTAMP : UInt8 := 13
def ICMP_TIMESTAMPREPLY : UInt8 := 14
def ICMP_INFO_REQUEST : UInt8 := 15
def ICMP_ADDRESS : UInt8 := 17
def ICMP_ADDRESSREPLY : UInt8 := 18

def IPPROTO_ICMP : UInt8 := 1

/-- Offsets in an ICMP header: icmp_id, icmp_seq and icmp_ip. -/
def icmp_id : Nat := 4
def icmp_seq : Nat := 6
def icmp_ip : Nat := 8

/-- Offsets in an IP header: ip_p and ip_dst; and what it takes without options. -/
def ip_p : Nat := 9
def ip_dst : Nat := 16
def sizeof_ip : Nat := 20

/-- ping_buffer behind recvfrom: what was there before, and what lies behind it, is `old`. -/
def pingBuffer (datagram : List UInt8) (old : Nat → UInt8) : Nat → UInt8 := fun i => datagram.getD i (old i)

def shortAt (m : Nat → UInt8) (i : Nat) : UInt16 := UInt16.ofNat (short (m i) (m (i + 1)))

/-- The offsets of the `n` bytes from `i` on. -/
def bytes (i n : Nat) : List Nat := List.range' i n

/-! ## State -/

def PING_CKTABSIZE : Nat := 128

structure PING where
  ping_ident : UInt16
  /-- The address in ping_dest, as it lies in memory. -/
  ping_dest : Vector UInt8 4
  ping_cktab : Nat → UInt8 := fun _ => 0
  ping_num_xmit : Nat := 0
  ping_num_recv : Nat := 0
  ping_num_rept : Nat := 0

/-! ## ping_xmit -/

/-- The message of the next number. -/
def PING.encode (p : PING) (type : UInt8) (buffer : List UInt8) : Option (List UInt8 × Int) :=
  icmpGenericEncode buffer type.toNat p.ping_ident.toNat p.ping_num_xmit

/-- ping_xmit, for what sendto returns -/
def PING.xmit (p : PING) (i : Int) : PING :=
  -- "Mark sequence number as sent"
  let p := { p with ping_cktab := BitTable.clr p.ping_cktab (p.ping_num_xmit % PING_CKTABSIZE) }
  if i < 0 then p else { p with ping_num_xmit := p.ping_num_xmit + 1 }

/-! ## ping_recv -/

/-- my_echo_reply: the result, and what it has examined. -/
def PING.myEchoReply (p : PING) (m : Nat → UInt8) (icmp : Nat) : Bool × List Nat :=
  let orig_ip := icmp + icmp_ip
  let orig_icmp := orig_ip + sizeof_ip
  let dst := bytes (orig_ip + ip_dst) 4
  if Cells.slice m (orig_ip + ip_dst) (orig_ip + ip_dst + 4) ≠ p.ping_dest.toList then (false, dst)
  else if m (orig_ip + ip_p) ≠ IPPROTO_ICMP then (false, dst ++ [orig_ip + ip_p])
  else if m orig_icmp ≠ ICMP_ECHO then (false, dst ++ [orig_ip + ip_p, orig_icmp])
  else (shortAt m (orig_icmp + icmp_id) = p.ping_ident, dst ++ [orig_ip + ip_p, orig_icmp] ++ bytes (orig_icmp + icmp_id) 2)

inductive Pev where
  | response
  | duplicate
  | noecho
  deriving DecidableEq

/-- What a call of ping_recv leads to. -/
structure Outcome where
  ping : PING
  rc : Int
  /-- The call of the handler, with `icmp - ping_buffer`. -/
  event : Option (Pev × Nat) := none
  /-- What my_echo_reply has examined. -/
  examined : List Nat := []

/-- The switch of ping_recv. -/
def PING.dispatch (p : PING) (m : Nat → UInt8) (icmp : Nat) : Outcome :=
  if m icmp ∈ [ICMP_ECHOREPLY, ICMP_TIMESTAMPREPLY, ICMP_ADDRESSREPLY] then
    if shortAt m (icmp + icmp_id) ≠ p.ping_ident then { ping := p, rc := -1 }
    else
      let bit := (shortAt m (icmp + icmp_seq)).toNat % PING_CKTABSIZE
      let p := { p with ping_num_recv := p.ping_num_recv + 1 }
      if BitTable.tst p.ping_cktab bit then
        { ping := { p with ping_num_rept := p.ping_num_rept + 1, ping_num_recv := p.ping_num_recv - 1 }
          rc := 0
          event := some (.duplicate, icmp) }
      else { ping := { p with ping_cktab := BitTable.set p.ping_cktab bit }, rc := 0, event := some (.response, icmp) }
  else if m icmp ∈ [ICMP_ECHO, ICMP_TIMESTAMP, ICMP_ADDRESS] then { ping := p, rc := -1 }
  else
    let r := p.myEchoReply m icmp
    if r.1 then { ping := p, rc := 0, event := some (.noecho, icmp), examined := r.2 } else { ping := p, rc := -1, examined := r.2 }

/-- ping_recv, for what recvfrom has stored; `none` if the checksum overflows. -/
def PING.recv (p : PING) (old : Nat → UInt8) : Option (List UInt8) → Option Outcome
  | none => some { ping := p, rc := -1 }
  | some datagram =>
    (icmpGenericDecode datagram).map fun d =>
      match d.icmp with
      | none => { ping := p, rc := -1 }
      | some icmp => p.dispatch (pingBuffer d.buffer old) icmp

end Netutils.Ping
