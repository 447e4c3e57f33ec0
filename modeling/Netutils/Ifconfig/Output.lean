/-
  Netutils.Ifconfig.Output — what the format handlers print with: put_char … put_flags and
  select_arg of ifconfig/printif.c, on the two streams with their columns.

  The strings are those of C without their NUL, so an empty text is one whose NUL is next. An
  access outside of a string, of a table or of argv is a fault, and so is running out of the
  turns that a run is given.
-/

import Netutils.Ifconfig.Flags

namespace Netutils.Ifconfig

open Netutils.Libc

/-! ## The state -/

inductive Stream where
  | stdout
  | stderr
  deriving DecidableEq

/-- ostream, column_stdout, column_stderr and had_output, with what has been written. -/
structure Out where
  ostream : Stream := .stdout
  column_stdout : BitVec 32 := 0
  column_stderr : BitVec 32 := 0
  had_output : Bool := false
  stdout : Str := []
  stderr : Str := []
  deriving DecidableEq

inductive Fault where
  /-- print_interfaceX reads behind the NUL of a template. -/
  | template
  /-- A pointer is stored behind the end of argv. -/
  | argv
  /-- put_int writes behind the NUL of its argument. -/
  | put_int
  /-- A lookup leaves if_flags. -/
  | flags (f : FlagFault)
  /-- A lookup leaves arphrd_symbols. -/
  | arphrd_symbols
  /-- There are no turns left. -/
  | turns
  deriving DecidableEq

inductive Stop where
  | fault (f : Fault)
  | exit (err : BitVec 32) (o : Out)
  deriving DecidableEq

/-! ## The data of an interface -/

/-- An ioctl: the system does not have it, or it fails, or it gives its result. -/
inductive Ioctl (α : Type) where
  | undefined
  | failed
  | done (a : α)

/-- `sin_addr`, its bytes in network order. -/
abbrev Addr := Vector UInt8 4

structure Hwaddr where
  sa_family : BitVec 16
  sa_data : Fin 14 → UInt8

/-- What system/linux.c has beside the others. -/
structure Linux where
  /-- The macros ARPHRD_…, as far as they are defined. -/
  arphrd : String → Option (BitVec 16)
  hwaddr : Ioctl Hwaddr
  /-- The `sa_family` that ifr holds where SIOCGIFHWADDR has failed, which then no ioctl has set. -/
  sa_family : BitVec 16
  qlen : Ioctl (BitVec 32)
  /-- `*((short *) data)` of two bytes. -/
  short : UInt8 → UInt8 → BitVec 16

inductive System where
  | linux (l : Linux)
  | solaris
  | hpux
  | qnx
  | generic

/-- What a format_data tells: its fields that do not change, and what the ioctls of its
    interface and the C library answer. -/
structure FormatData where
  name : Str
  ifr_name : Str
  first : Bool
  program_name : Str
  strerror : Str
  /-- if_nametoindex of the name. -/
  index : BitVec 32
  addr : Ioctl Addr
  netmask : Ioctl Addr
  brdaddr : Ioctl Addr
  dstaddr : Ioctl Addr
  flags : Ioctl (BitVec 16)
  mtu : Ioctl (BitVec 32)
  metric : Ioctl (BitVec 32)
  iff : Macros
  system : System
  /-- What printf writes for a format and its numbers, and its result. -/
  printf : Str → List Int → Str × BitVec 32

/-! ## put_char, put_string, printf -/

def TAB_STOP : BitVec 32 := 8

/-- `*column` -/
def Out.column (o : Out) : BitVec 32 :=
  match o.ostream with
  | .stdout => o.column_stdout
  | .stderr => o.column_stderr

def Out.setColumn (o : Out) (column : BitVec 32) : Out :=
  match o.ostream with
  | .stdout => { o with column_stdout := column }
  | .stderr => { o with column_stderr := column }

def Out.putc (o : Out) (c : UInt8) : Out :=
  match o.ostream with
  | .stdout => { o with stdout := o.stdout ++ [c] }
  | .stderr => { o with stderr := o.stderr ++ [c] }

/-- `((*column / TAB_STOP) + 1) * TAB_STOP` -/
def Out.nextTab (o : Out) : BitVec 32 := (o.column.sdiv TAB_STOP + 1) * TAB_STOP

/-- put_char -/
def putChar (c : UInt8) (o : Out) : Out :=
  let column := if c = 0x0a then 0 else if c = 0x09 then o.nextTab else o.column + 1
  { (o.setColumn column).putc c with had_output := true }

/-- put_string -/
def putString (s : Str) (o : Out) : Out := s.foldl (fun o c => putChar c o) o

/-- `*column += printf (…)`, which writes to stdout whatever ostream is. -/
def printf (form : FormatData) (fmt : Str) (args : List Int) (o : Out) : Out :=
  let (out, n) := form.printf fmt args
  { o.setColumn (o.column + n) with stdout := o.stdout ++ out }

def hadOutput (o : Out) : Out := { o with had_output := true }

/-! ## put_int, select_arg -/

def PERCENT : UInt8 := 0x25

def HASH : UInt8 := 0x23

/-- The conversion that put_int puts in the place of this character. -/
def conversion (c : UInt8) : UInt8 :=
  if c = 0x78 ∨ c = 0x68 then 0x78
  else if c = 0x58 ∨ c = 0x48 then 0x58
  else if c = 0x6f ∨ c = 0x4f then 0x6f
  else 0x69

/-- What put_int makes of its argument. The conversion takes the place of the character behind the
    digits and the `#`, and the NUL that of the next one; behind a NUL there is none. -/
def intFormat (s : Str) : Option Str :=
  match s with
  | [] => some (text "%i")
  | c :: p =>
    if c ≠ PERCENT then some (text "%i")
    else
      let digits := p.takeWhile isdigit
      let p := p.dropWhile isdigit
      let hash := if p.head? = some HASH then [HASH] else []
      match if p.head? = some HASH then p.tail else p with
      | [] => none
      | c :: _ => some (PERCENT :: digits ++ hash ++ [conversion c])

/-- put_int -/
def putInt (form : FormatData) (argv : List Str) (nr : Int) (o : Out) : Except Stop Out :=
  match argv with
  | [] => .ok (hadOutput (printf form (text "%i") [nr] o))
  | p :: _ =>
    match intFormat p with
    | none => .error (.fault .put_int)
    | some fmt => .ok (hadOutput (printf form fmt [nr] o))

/-- print_interfaceX with quiet 0, from the start of a text. -/
abbrev Print := Str → Out → Except Stop Out

/-- select_arg -/
def selectArg (print : Print) (argv : List Str) (nr : Nat) (o : Out) : Except Stop Out :=
  match argv[nr]? with
  | none => .ok o
  | some format => print format o

/-! ## put_addr, put_flags -/

/-- inet_ntoa -/
def inetNtoa (a : Addr) : Str :=
  decimal a[0].toNat ++ dot :: decimal a[1].toNat ++ dot :: decimal a[2].toNat ++ dot :: decimal a[3].toNat

/-- The texts between the dots, as strchr finds them. -/
def parts (addr : Str) : Nat → List Str
  | 0 => [addr]
  | n + 1 => addr.takeWhile (· != dot) :: parts ((addr.dropWhile (· != dot)).drop 1) n

/-- put_addr -/
def putAddr (form : FormatData) (argv : List Str) (sa : Addr) (o : Out) : Except Stop Out :=
  let addr := inetNtoa sa
  let byte := (parts addr 3).map strtol
  match argv with
  | [] => .ok (putString addr o)
  | arg :: rest =>
    let i := strtol arg
    if 0 ≤ i ∧ i ≤ 3 then putInt form rest (byte.getD i.toNat 0) o else .ok o

/-- What stands between two flags. -/
def putSeperator (argv : List Str) (o : Out) : Out :=
  match argv with
  | [] => putChar 0x20 o
  | arg :: _ => putString arg o

/-- `while (flags && f)`, for the turns until `f` is shifted out: what is left of the flags, and first. -/
def putFlagsLoop (form : FormatData) (argv : List Str) :
    Nat → BitVec 16 → BitVec 16 → Bool → Out → Except Stop (BitVec 16 × Bool × Out)
  | 0, _, flags, first, o => .ok (flags, first, o)
  | n + 1, f, flags, first, o =>
    if flags ≠ 0 ∧ f ≠ 0 then
      if f &&& flags ≠ 0 then
        match ifFlagtoname form.iff (f.signExtend 32) (some []) with
        | .error e => .error (.fault (.flags e))
        | .ok none => putFlagsLoop form argv n (f <<< 1) flags first o
        | .ok (some name) =>
          let o := if first then o else putSeperator argv o
          putFlagsLoop form argv n (f <<< 1) (flags &&& ~~~ f) false (putString name o)
      else putFlagsLoop form argv n (f <<< 1) flags first o
    else .ok (flags, first, o)

/-- put_flags -/
def putFlags (form : FormatData) (argv : List Str) (flags : BitVec 16) (o : Out) : Except Stop Out := do
  let (flags, first, o) ← putFlagsLoop form argv 16 1 flags true o
  if flags ≠ 0 then
    let o := if first then o else putSeperator argv o
    putInt form argv.tail flags.toInt o
  else .ok o

/-! ## Handlers of one kind -/

/-- A format handler, with the turns that it may take. -/
abbrev Handler := Print → Nat → List Str → Out → Except Stop Out

/-- `ioctl (…) >= 0`, where its result is such. -/
def Ioctl.holds {α : Type} (d : Ioctl α) (p : α → Bool) : Bool :=
  match d with
  | .done a => p a
  | _ => false

/-- Goes on with the first argument or with the second. -/
def query (yes : Bool) : Handler := fun print _ argv o => selectArg print argv (if yes then 0 else 1) o

/-- fprintf to stderr and `exit (EXIT_FAILURE)` -/
def failure (form : FormatData) (what : String) (name : Str) (o : Out) : Stop :=
  .exit 1 { o with stderr := o.stderr ++ (form.program_name ++ text what ++ name ++ text "': " ++ form.strerror ++ [0x0a]) }

/-- Puts what the ioctl gives, or ends the program. -/
def value {α : Type} (form : FormatData) (request : String) (d : Ioctl α)
    (put : α → List Str → Out → Except Stop Out) : Handler := fun _ _ argv o =>
  match d with
  | .undefined => .ok (hadOutput (printf form (text "(not available)") [] o))
  | .failed => .error (failure form (": " ++ request ++ " failed for interface `") form.ifr_name o)
  | .done a => put a argv o

end Netutils.Ifconfig
