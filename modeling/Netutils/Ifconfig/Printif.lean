/-
  Netutils.Ifconfig.Printif — the format interpreter of ifconfig (print_interfaceX and the
  fh_ handlers of ifconfig/printif.c, with the formats of ifconfig/options.c).

  print_interfaceX takes a turn for each `$` that it comes to. The arguments of a substitution
  are first gone through quietly, to find their ends, and copied; the handler then goes on with
  those that it chooses.
-/

import Netutils.Ifconfig.Linux

namespace Netutils.Ifconfig

open Netutils.Libc

/-! ## formats -/

structure Format where
  name : Str
  templ : Str
  deriving DecidableEq

/-- The bytes of a template, with brackets for its braces. -/
def template (s : String) : Str :=
  s.toByteArray.data.toList.map fun c => if c = 0x5b then 0x7b else if c = 0x5d then 0x7d else c

def formats : List Format :=
  [⟨text "default", template "$[format][gnu]"⟩,
   ⟨text "gnu", template "$[first?][][$[\\n]]$[format][gnu-one-entry]"⟩,
   ⟨text "gnu-one-entry", List.flatten
    [template "$[format][check-existance]",
     template "$[name] ($[index]):$[\\n]",
     template "$[addr?][  inet address $[tab][16]$[addr]$[\\n]]",
     template "$[netmask?][  netmask $[tab][16]$[netmask]$[\\n]]",
     template "$[brdaddr?][  broadcast $[tab][16]$[brdaddr]$[\\n]]",
     template "$[dstaddr?][  peer address $[tab][16]$[dstaddr]$[\\n]]",
     template "$[flags?][  flags $[tab][16]$[flags]$[\\n]]",
     template "$[mtu?][  mtu $[tab][16]$[mtu]$[\\n]]",
     template "$[metric?][  metric $[tab][16]$[metric]$[\\n]]",
     template "$[exists?][hwtype?][$[hwtype?][  link encap $[tab][16]$[hwtype]$[\\n]]]",
     template "$[exists?][hwaddr?][$[hwaddr?][  hardware addr $[tab][16]$[hwaddr]$[\\n]]]",
     template "$[exists?][txqlen?][$[txqlen?][  tx queue len $[tab][16]$[txqlen]$[\\n]]]"]⟩,
   ⟨text "net-tools", List.flatten
    [template "$[format][check-existance]",
     template "$[name]$[exists?][hwtype?][$[hwtype?][$[tab][10]Link encap:$[hwtype]]",
     template "$[hwaddr?][  HWaddr $[hwaddr]]]$[\\n]",
     template "$[addr?][$[tab][10]inet addr:$[addr]",
     template "$[brdaddr?][  Bcast:$[brdaddr]]",
     template "$[netmask?][  Mask:$[netmask]]",
     template "$[newline]]",
     template "$[tab][10]$[flags]",
     template "$[mtu?][  MTU:$[mtu]]",
     template "$[metric?][  Metric:$[metric]]",
     template "$[newline]",
     template "$[exists?][txqlen?][$[txqlen?][$[tab][10]txqueuelen:$[txqlen]]$[\\n]]",
     template "$[newline]"]⟩,
   ⟨text "unix", List.flatten
    [template "$[format][check-existance]",
     template "$[name]: flags=$[flags][number]<$[flags][string][,]>",
     template "$[mtu?][ mtu $[mtu]]$[\\n]",
     template "$[addr?][$[\\t]inet $[addr]",
     template " netmask $[netmask][0][%02x]$[netmask][1][%02x]",
     template "$[netmask][2][%02x]$[netmask][3][%02x]",
     template "$[brdaddr?][ broadcast $[brdaddr]]$[\\n]]",
     template "$[exists?][hwtype?][$[hwtype?][$[\\t]$[hwtype]",
     template "]$[exists?][hwaddr?][$[hwaddr?][ $[hwaddr]]]$[\\n]]"]⟩,
   ⟨text "osf", List.flatten
    [template "$[format][check-existance]",
     template "$[name]: flags=$[flags][number][%x]<$[flags][string][,]>$[\\n]",
     template "$[addr?][$[\\t]inet $[addr]",
     template " netmask $[netmask][0][%02x]$[netmask][1][%02x]",
     template "$[netmask][2][%02x]$[netmask][3][%02x]",
     template "$[brdaddr?][ broadcast $[brdaddr]]", template "$[mtu?][ ipmtu $[mtu]]$[\\n]]"]⟩,
   ⟨text "check-existance", List.flatten
    [template "$[index?][]",
     template "[$[error][$[progname]: error: interface `$[name]' does not exist$[\\n]]",
     template "$[exit][1]]"]⟩]

/-! ## The handlers -/

variable (form : FormatData)

/-- fh_nothing -/
def fhNothing : Handler := fun _ _ _ o => .ok o

/-- fh_newline -/
def fhNewline : Handler := fun _ _ _ o => .ok (putChar 0x0a o)

/-- fh_tabulator -/
def fhTabulator : Handler := fun _ _ _ o => .ok (putChar 0x09 o)

/-- fh_first -/
def fhFirst : Handler := query form.first

/-- `while (*column < goal)` -/
def tabLoop (goal : Int) : Nat → Out → Except Stop Out
  | 0, _ => .error (.fault .turns)
  | n + 1, o => if o.column.toInt < goal then tabLoop goal n (putChar 0x20 o) else .ok o

/-- fh_tab -/
def fhTab : Handler := fun _ n argv o =>
  let goal := (argv.head?.map strtol).getD 0
  tabLoop (if goal ≤ 0 then o.nextTab.toInt else goal) n o

/-- `while (++count < argc)`, with had_output_saved. -/
def joinLoop (print : Print) (delimiter : Str) : List Str → Bool → Out → Except Stop Out
  | [], saved, o => .ok { o with had_output := saved }
  | arg :: rest, saved, o =>
    if o.had_output then
      print arg { putString delimiter o with had_output := false } >>= joinLoop print delimiter rest true
    else print arg o >>= joinLoop print delimiter rest saved

/-- fh_join -/
def fhJoin : Handler := fun print _ argv o =>
  match argv with
  | delimiter :: arg :: rest => joinLoop print delimiter (arg :: rest) o.had_output { o with had_output := false }
  | _ => .ok o

/-- fh_exists_query, where the names are those of format_handles. -/
def fhExistsQuery (names : List Str) : Handler := fun print _ argv o =>
  match argv with
  | [] => .ok o
  | arg :: _ => selectArg print argv (if arg ∈ names then 1 else 2) o

/-- fh_format -/
def fhFormat : Handler := fun print _ argv o =>
  argv.foldlM (fun o arg =>
    match formats.find? fun frm => decide (arg = frm.name) with
    | none => .ok o
    | some frm => print frm.templ o) o

/-- fh_error -/
def fhError : Handler := fun print _ argv o => do
  let o' ← argv.foldlM (fun o arg => print arg o) { o with ostream := .stderr }
  return { o' with ostream := o.ostream }

/-- fh_progname -/
def fhProgname : Handler := fun _ _ _ o => .ok (putString form.program_name o)

/-- fh_exit -/
def fhExit : Handler := fun _ _ argv o =>
  let err := (argv.head?.map strtoulSigned).getD 0
  .error (.exit (err.setWidth 32) o)

/-- fh_name -/
def fhName : Handler := fun _ _ _ o => .ok (putString form.name o)

/-- fh_index_query -/
def fhIndexQuery : Handler := query (form.index ≠ 0)

/-- fh_index -/
def fhIndex : Handler := fun _ _ _ o =>
  if form.index = 0 then .error (failure form ": No index number found for interface `" form.name o)
  else .ok (hadOutput (printf form (text "%i") [form.index.toInt] o))

/-- fh_addr_query -/
def fhAddrQuery : Handler := query (form.addr.holds fun _ => true)

/-- fh_addr -/
def fhAddr : Handler := value form "SIOCGIFADDR" form.addr fun sa argv o => putAddr form argv sa o

/-- fh_netmask_query -/
def fhNetmaskQuery : Handler := query (form.netmask.holds fun _ => true)

/-- fh_netmask -/
def fhNetmask : Handler := value form "SIOCGIFNETMASK" form.netmask fun sa argv o => putAddr form argv sa o

/-- An address that only interfaces with this flag have: the flag is looked up and tested first,
    where the system has both ioctls. -/
def flaggedQuery (flag : String) (d : Ioctl Addr) : Handler := fun print n argv o =>
  match d with
  | .undefined => selectArg print argv 1 o
  | _ =>
    match form.flags with
    | .undefined => query (d.holds fun _ => true) print n argv o
    | flags =>
      match ifNametoflag form.iff (text flag) with
      | .error e => .error (.fault (.flags e))
      | .ok f =>
        if flags.holds fun flags => f &&& flags.signExtend 32 ≠ 0 then query (d.holds fun _ => true) print n argv o
        else selectArg print argv 1 o

/-- fh_brdaddr_query -/
def fhBrdaddrQuery : Handler := flaggedQuery form "BROADCAST" form.brdaddr

/-- fh_brdaddr -/
def fhBrdaddr : Handler := value form "SIOCGIFBRDADDR" form.brdaddr fun sa argv o => putAddr form argv sa o

/-- fh_dstaddr_query -/
def fhDstaddrQuery : Handler := flaggedQuery form "POINTOPOINT" form.dstaddr

/-- fh_dstaddr -/
def fhDstaddr : Handler := value form "SIOCGIFDSTADDR" form.dstaddr fun sa argv o => putAddr form argv sa o

/-- fh_mtu_query -/
def fhMtuQuery : Handler := query (form.mtu.holds fun _ => true)

/-- fh_mtu -/
def fhMtu : Handler := value form "SIOCGIFMTU" form.mtu fun mtu argv o => putInt form argv mtu.toInt o

/-- fh_metric_query -/
def fhMetricQuery : Handler := query (form.metric.holds fun metric => 0 < metric.toInt)

/-- fh_metric -/
def fhMetric : Handler := value form "SIOCGIFMETRIC" form.metric fun metric argv o => putInt form argv metric.toInt o

/-- fh_flags_query -/
def fhFlagsQuery : Handler := query (form.flags.holds fun _ => true)

/-- fh_flags -/
def fhFlags : Handler := value form "SIOCGIFFLAGS" form.flags fun flags argv o =>
  match argv with
  | [] => putFlags form [] flags o
  | arg :: rest =>
    if arg = text "number" then putInt form rest flags.toInt o
    else if arg = text "string" then putFlags form rest flags o
    else .ok o

/-! ## format_handles -/

/-- SYSTEM_FORMAT_HANDLER -/
def systemFormatHandler : List (Str × Handler) :=
  match form.system with
  | .linux l =>
    [(text "linux", fhNothing), (text "hwaddr?", systemFhHwaddrQuery l), (text "hwaddr", systemFhHwaddr form l),
     (text "hwtype?", systemFhHwtypeQuery l), (text "hwtype", systemFhHwtype form l),
     (text "txqlen?", systemFhTxqlenQuery l), (text "txqlen", systemFhTxqlen form l)]
  | .solaris => [(text "solaris", fhNothing)]
  | .hpux => [(text "hpux", fhNothing)]
  | .qnx => [(text "qnx", fhNothing)]
  | .generic => []

/-- Behind those of the system; `exists?` looks a name up in the whole table. -/
def ownHandles (names : List Str) : List (Str × Handler) :=
  [(text "", fhNothing), (text "newline", fhNewline), (text "\\n", fhNewline), (text "\\t", fhTabulator),
   (text "first?", fhFirst form), (text "tab", fhTab), (text "join", fhJoin), (text "exists?", fhExistsQuery names),
   (text "format", fhFormat), (text "error", fhError), (text "progname", fhProgname form), (text "exit", fhExit),
   (text "name", fhName form), (text "index?", fhIndexQuery form), (text "index", fhIndex form),
   (text "addr?", fhAddrQuery form), (text "addr", fhAddr form), (text "netmask?", fhNetmaskQuery form),
   (text "netmask", fhNetmask form), (text "brdaddr?", fhBrdaddrQuery form), (text "brdaddr", fhBrdaddr form),
   (text "dstaddr?", fhDstaddrQuery form), (text "dstaddr", fhDstaddr form), (text "flags?", fhFlagsQuery form),
   (text "flags", fhFlags form), (text "mtu?", fhMtuQuery form), (text "mtu", fhMtu form),
   (text "metric?", fhMetricQuery form), (text "metric", fhMetric form)]

def handleNames : List Str := (systemFormatHandler form ++ ownHandles form []).map Prod.fst

def formatHandles : List (Str × Handler) := systemFormatHandler form ++ ownHandles form (handleNames form)

/-- format_handler -/
def formatHandler (name : Str) : Handler := fun print n argv o =>
  match (formatHandles form).lookup name with
  | some handler => handler print n argv o
  | none => .ok (hadOutput (printf form (text " unknown)") [] (putString name (printf form (text "(") [] o))))

/-! ## print_interfaceX -/

def DOLLAR : UInt8 := 0x24

def OPEN : UInt8 := 0x7b

def CLOSE : UInt8 := 0x7d

/-- What is not echoed: `$`, and the end of an argument where the depth is more than one. -/
def stops (nested : Bool) (c : UInt8) : Bool := c == DOLLAR || (nested && c == CLOSE)

/-- What a turn of the loop finds behind the text that it echoes. -/
inductive Turn where
  /-- The NUL, or the end of an argument. -/
  | stop (p : Str)
  /-- `$` and the NUL, which is put and gone past. -/
  | leave
  /-- `$` and a character that are put as this text. -/
  | put (s p : Str)
  /-- `$` and `{` without a `}` behind. -/
  | dump (s : Str)
  | subst (id p : Str)
  deriving DecidableEq

/-- A turn on a text that begins with a character that is not echoed. -/
def dollarTurn : Str → Turn
  | [] => .stop []
  | c :: p =>
    if c ≠ DOLLAR then .stop (c :: p)
    else
      match p with
      | [] => .leave
      | d :: p =>
        if d = OPEN then
          if CLOSE ∈ p then .subst (p.takeWhile (· != CLOSE)) ((p.dropWhile (· != CLOSE)).drop 1) else .dump (c :: d :: p)
        else if d = DOLLAR ∨ d = CLOSE then .put [d] p
        else .put [c, d] p

/-- "Echo until end of string or '$'." -/
def turn (nested : Bool) (p : Str) : Turn := dollarTurn (p.dropWhile fun c => !stops nested c)

/-- `quiet || (put_char (form, c), 0)` -/
def echo (quiet : Bool) (s : Str) (o : Out) : Out := if quiet then o else putString s o

/-- Behind the end of an argument. -/
def skipClose (q : Str) : Str := if q.head? = some CLOSE then q.tail else q

def POINTER_SIZE : Nat := 8

/-- `while (*p == '{')`: the arguments are gone through, and copied where argv has so many bytes. -/
def argsLoop (scan : Str → Out → Except Stop (Str × Out)) (room : Option Nat) :
    Nat → List Str → Str → Out → Except Stop (List Str × Str × Out)
  | 0, _, _, _ => .error (.fault .turns)
  | n + 1, argv, p, o =>
    if p.head? = some OPEN then do
      let p := p.tail
      let (q, o) ← scan p o
      if room.any (· < POINTER_SIZE * (argv.length + 1)) then .error (.fault .argv)
      else argsLoop scan room n (argv ++ [p.take (p.length - q.length)]) (skipClose q) o
    else .ok (argv, p, o)

/-- print_interfaceX for so many turns, at a depth of more than one if nested: where form->format
    is left. -/
def printX : Nat → Bool → Bool → Str → Out → Except Stop (Str × Out)
  | 0, _, _, _, _ => .error (.fault .turns)
  | n + 1, nested, quiet, p, o =>
    let o := echo quiet (p.takeWhile fun c => !stops nested c) o
    match turn nested p with
    | .stop p => .ok (p, o)
    | .leave => .error (.fault .template)
    | .put s p => printX n nested quiet p (echo quiet s o)
    | .dump s => .ok ([], putString s o)
    | .subst id p => do
      if quiet then
        let (_, p, o) ← argsLoop (printX n true true) none n [] p o
        printX n nested quiet p o
      else
        -- `alloca (strlen (q) / 2)`, where q is the `}` before p
        let (argv, p, o) ← argsLoop (printX n true true) (some ((p.length + 1) / 2)) n [] p o
        let o ← formatHandler form id (fun s o => Prod.snd <$> printX n true false s o) n argv o
        printX n nested quiet p o

/-- print_interface, where it goes on with print_interfaceX. -/
def printInterface (n : Nat) (format : Str) (o : Out) : Except Stop Out :=
  Prod.snd <$> printX form n false false format o

end Netutils.Ifconfig
