/-
  Netutils.Ifconfig.Linux — the format handlers of Linux (ifconfig/system/linux.c). The table of
  hardware types has no entry without a name, at which alone the search in it stops.
-/

import Netutils.Ifconfig.Output

namespace Netutils.Ifconfig

open Netutils.Libc

/-! ## arphrd_symbols -/

inductive PrintHwaddr where
  | ether
  | arcnet
  | dlci
  | ax25
  | irda
  | rose

/-- An entry as the file has it, with the macros of `#ifdef` and of its value behind ARPHRD_. -/
structure ArphrdSource where
  name : String
  title : String
  ifdef : String := name
  value : String := ifdef
  print_hwaddr : Option PrintHwaddr := none

def arphrdSources : List ArphrdSource :=
  [{ name := "NETROM", title := "AMPR NET/ROM", print_hwaddr := some .ax25 },
   { name := "ETHER", title := "Ethernet", print_hwaddr := some .ether },
   { name := "EETHER", title := "Experimental Etherner" },
   { name := "AX25", title := "AMPR AX.25", print_hwaddr := some .ax25 },
   { name := "PRONET", title := "PROnet token ring" }, { name := "CHAOS", title := "Chaosnet" },
   { name := "IEEE802", title := "16/4 Mbps Token Ring", print_hwaddr := some .ether },
   { name := "ARCNET", title := "ARCnet", print_hwaddr := some .arcnet },
   { name := "APPLETLK", title := "Appletalk" },
   { name := "DLCI", title := "Frame Relay DLCI", print_hwaddr := some .dlci }, { name := "ATM", title := "ATM" },
   { name := "METRICOM", title := "Metricom STRIP" }, { name := "SLIP", title := "Serial Line IP" },
   { name := "CSLIP", title := "VJ Serial Line IP" }, { name := "SLIP6", title := "6-bit Serial Line IP" },
   { name := "CSLIP6", title := "VJ 6-bit Serial Line IP" },
   { name := "SLIP", title := "Notional KISS type", ifdef := "RSRVD", value := "SLIP" },
   { name := "ADAPT", title := "Adaptive Serial Line IP" },
   { name := "ROSE", title := "AMPR ROSE", print_hwaddr := some .rose }, { name := "X25", title := "CCITT X.25" },
   { name := "HWX25", title := "CCITT X.25 in firmware" }, { name := "PPP", title := "Point-to-Point Protocol" },
   { name := "HDLC", title := "(Cisco)-HDLC" }, { name := "LAPB", title := "LAPB" },
   { name := "DDCMP", title := "DDCMP" }, { name := "TUNNEL", title := "IPIP Tunnel" },
   { name := "TUNNEL", title := "IPIP6 Tunnel", ifdef := "TUNNEL6" },
   { name := "FRAD", title := "Frame Relay Access Device" }, { name := "SKIP", title := "SKIP vif" },
   { name := "LOOPBACK", title := "Local Loopback" }, { name := "LOCALTALK", title := "Localtalk" },
   { name := "FDDI", title := "Fiber Distributed Data Interface" }, { name := "BIF", title := "AP1000 BIF" },
   { name := "SIT", title := "IPv6-in-IPv4" }, { name := "IPDDP", title := "IP-in-DDP" },
   { name := "IPGRE", title := "GRE over IP" }, { name := "PIMREG", title := "PIMSM register" },
   { name := "HIPPI", title := "HIPPI", print_hwaddr := some .ether }, { name := "ASH", title := "Ash" },
   { name := "ECONET", title := "Econet" }, { name := "IRDA", title := "IrLap", print_hwaddr := some .irda },
   { name := "FCPP", title := "FCPP" }, { name := "FCAL", title := "FCAL" }, { name := "FCPL", title := "FCPL" },
   { name := "FCFABRIC", title := "FCFABRIC", ifdef := "FCPFABRIC" },
   { name := "IEEE802_TR", title := "16/4 Mbps Token Ring (New)", print_hwaddr := some .ether },
   { name := "VOID", title := "Void (nothing is known)" }]

structure ArphrdSymbol where
  title : Str
  value : BitVec 16
  print_hwaddr : Option PrintHwaddr

def ArphrdSource.entry (arphrd : String → Option (BitVec 16)) (s : ArphrdSource) : Option ArphrdSymbol :=
  if (arphrd s.ifdef).isSome then (arphrd s.value).map fun value => ⟨text s.title, value, s.print_hwaddr⟩ else none

def arphrdSymbols (arphrd : String → Option (BitVec 16)) : List ArphrdSymbol :=
  arphrdSources.filterMap (ArphrdSource.entry arphrd)

/-- arphrd_findvalue: the loop ends at an entry with the value only, so the result is never NULL. -/
def arphrdFindvalue (l : Linux) (value : BitVec 16) : Except Stop ArphrdSymbol :=
  match (arphrdSymbols l.arphrd).find? fun arp => decide (arp.value = value) with
  | none => .error (.fault .arphrd_symbols)
  | some arp => .ok arp

/-! ## print_hwaddr -/

/-- `while (i < 6 && (data[i] >> 1) != ' ')` -/
def callsign (data : Fin 14 → UInt8) : Str :=
  ((List.ofFn fun i : Fin 6 => data (i.castLE (by decide)) >>> 1).takeWhile (· != 0x20))

/-- print_hwaddr_ether, and so on. -/
def PrintHwaddr.print (p : PrintHwaddr) (form : FormatData) (l : Linux) (data : Fin 14 → UInt8) (o : Out) : Out :=
  let byte (i : Fin 14) : Int := (data i).toNat
  match p with
  | .ether => printf form (text "%02X:%02X:%02X:%02X:%02X:%02X") [byte 0, byte 1, byte 2, byte 3, byte 4, byte 5] o
  | .arcnet => printf form (text "%02X") [byte 0] o
  | .dlci => printf form (text "%i") [(l.short (data 0) (data 1)).toInt] o
  | .ax25 =>
    let o := putString (callsign data) o
    let i := (data 6 &&& 0x1e) >>> 1
    if i ≠ 0 then printf form (text "-%i") [(i.toNat : Int)] o else o
  | .irda => printf form (text "%02X:%02X:%02X:%02X") [byte 3, byte 2, byte 1, byte 0] o
  | .rose => printf form (text "%02X%02X%02X%02X%02X") [byte 0, byte 1, byte 2, byte 3, byte 4] o

/-! ## The handlers -/

/-- system_fh_hwaddr_query: without a return behind the first select_arg. -/
def systemFhHwaddrQuery (l : Linux) : Handler := fun print _ argv o =>
  let found (family : BitVec 16) (o : Out) : Except Stop Out := do
    let arp ← arphrdFindvalue l family
    selectArg print argv (if arp.print_hwaddr.isSome then 0 else 1) o
  match l.hwaddr with
  | .undefined => selectArg print argv 1 o
  | .failed => selectArg print argv 1 o >>= found l.sa_family
  | .done hwaddr => found hwaddr.sa_family o

/-- system_fh_hwaddr -/
def systemFhHwaddr (form : FormatData) (l : Linux) : Handler :=
  value form "SIOCGIFHWADDR" l.hwaddr fun hwaddr _ o => do
    let arp ← arphrdFindvalue l hwaddr.sa_family
    match arp.print_hwaddr with
    | some p => .ok (p.print form l hwaddr.sa_data o)
    | none => .ok (putString (text "(hwaddr unknown)") o)

/-- system_fh_hwtype_query -/
def systemFhHwtypeQuery (l : Linux) : Handler := query (l.hwaddr.holds fun _ => true)

/-- system_fh_hwtype -/
def systemFhHwtype (form : FormatData) (l : Linux) : Handler :=
  value form "SIOCGIFHWADDR" l.hwaddr fun hwaddr _ o => do
    let arp ← arphrdFindvalue l hwaddr.sa_family
    return putString arp.title o

/-- system_fh_txqlen_query -/
def systemFhTxqlenQuery (l : Linux) : Handler := query (l.qlen.holds fun qlen => 0 ≤ qlen.toInt)

/-- system_fh_txqlen -/
def systemFhTxqlen (form : FormatData) (l : Linux) : Handler :=
  value form "SIOCGIFTXQLEN" l.qlen fun qlen argv o => putInt form argv qlen.toInt o

end Netutils.Ifconfig
