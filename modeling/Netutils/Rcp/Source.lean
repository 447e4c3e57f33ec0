/-
  Netutils.Rcp.Source — source, rsource and response of rcp/rcp.c, for a tree of directories
  and regular files, connected to sink.

  Both sides read only from each other, so that it does not matter when sink gets to what has
  been written: here it does so at once. Opening files, listing directories and allocbuf succeed; a
  read of a file may fail, and then run_err is the end of an rcp that is not the remote one.
-/

import Netutils.Lib.Cells
import Netutils.Rcp.Sink

namespace Netutils.Rcp

open Netutils.Arpa (LF NUL)
open Netutils.Lib.Cells (store slice length_slice slice_store_same)
open Netutils.Libc (text piece)

/-! ## The tree -/

/-- A name in a directory: readdir's, without "." and "..". -/
structure Name where
  bytes : Path
  nul : NUL ∉ bytes
  proper : Proper bytes

/-- How a read fails: with an errno, or with this many bytes. -/
inductive Fault where
  | errno (e : Errno)
  | short (n : Nat)

structure File where
  mode : Nat
  times : Times
  /-- Of `st_size` bytes. -/
  content : List UInt8
  /-- The read that fails, counted from 0, if there are as many. -/
  fault : Option (Nat × Fault)

mutual
inductive Tree where
  | file (f : File)
  | dir (mode : Nat) (times : Times) (entries : Entries)

inductive Entries where
  | nil
  | cons (name : Name) (t : Tree) (rest : Entries)
end

/-- What is at a path of the tree. -/
inductive Node where
  | file (f : File)
  | dir (mode : Nat) (times : Times)

/-- `"%s/%s"` -/
def below (p : Path) (name : Name) : Path := p ++ SLASH :: name.bytes

mutual
/-- Everything in the tree, if its root is at this path. -/
def Tree.nodes (p : Path) : Tree → List (Path × Node)
  | .file f => [(p, .file f)]
  | .dir mode times entries => (p, .dir mode times) :: entries.nodes p

def Entries.nodes (p : Path) : Entries → List (Path × Node)
  | .nil => []
  | .cons name t rest => t.nodes (below p name) ++ rest.nodes p
end

def Entries.names : Entries → List Path
  | .nil => []
  | .cons name _ rest => name.bytes :: rest.names

mutual
/-- No directory has a name twice. -/
def Tree.Distinct : Tree → Prop
  | .file _ => True
  | .dir _ _ entries => entries.Distinct

def Entries.Distinct : Entries → Prop
  | .nil => True
  | .cons name t rest => name.bytes ∉ rest.names ∧ t.Distinct ∧ rest.Distinct
end

/-- `strrchr (name, '/')`, and what is behind it. -/
def last (name : Path) : Path := (name.reverse.takeWhile (· ≠ SLASH)).reverse

/-! ## Paths -/

/-- It, or a path below it. -/
def Under (p q : Path) : Prop := ∃ r, q = p ++ r ∧ ∀ c ∈ r.head?, c = SLASH

theorem under_refl (p : Path) : Under p p := ⟨[], (List.append_nil p).symm, nofun⟩

theorem under_below {p n q : Path} (h : Under (p ++ SLASH :: n) q) : Under p q := by
  obtain ⟨r, rfl, -⟩ := h
  refine ⟨SLASH :: n ++ r, List.append_assoc _ _ _, ?_⟩
  rintro c ⟨⟩
  rfl

theorem under_self {p n : Path} : ¬ Under (p ++ SLASH :: n) p := by
  intro h
  obtain ⟨r, hr, -⟩ := h
  have hlen := congrArg List.length hr
  simp only [List.length_append, List.length_cons] at hlen
  omega

theorem takeWhile_component {a r : Path} (ha : SLASH ∉ a) (hr : ∀ c ∈ r.head?, c = SLASH) :
    (a ++ r).takeWhile (· ≠ SLASH) = a := by
  have hall : ∀ c ∈ a, decide (c ≠ SLASH) = true := by
    intro c hc
    exact decide_eq_true (fun h => ha (h ▸ hc))
  rw [List.takeWhile_append_of_pos hall]
  cases r with
  | nil => exact List.append_nil a
  | cons c r =>
    obtain rfl := hr c rfl
    rw [List.takeWhile_cons, if_neg (by decide), List.append_nil]

/-- What is below one name is not below another. -/
theorem under_unique {p a b q : Path} (ha : SLASH ∉ a) (hb : SLASH ∉ b) (h : Under (p ++ SLASH :: a) q)
    (h' : Under (p ++ SLASH :: b) q) : a = b := by
  obtain ⟨r, rfl, hr⟩ := h
  obtain ⟨r', heq, hr'⟩ := h'
  rw [List.append_assoc, List.append_assoc] at heq
  have htail : a ++ r = b ++ r' := (List.cons.inj (List.append_cancel_left heq)).2
  rw [← takeWhile_component ha hr, htail, takeWhile_component hb hr']

mutual
theorem Tree.nodes_under (t : Tree) (p : Path) : ∀ x ∈ t.nodes p, Under p x.1 := by
  intro x hx
  cases t with
  | file f =>
    obtain rfl := List.mem_singleton.mp hx
    exact under_refl p
  | dir mode times entries =>
    rcases List.mem_cons.mp hx with rfl | hx
    · exact under_refl p
    · obtain ⟨n, -, hn⟩ := entries.nodes_under p x hx
      exact under_below hn

theorem Entries.nodes_under (es : Entries) (p : Path) :
    ∀ x ∈ es.nodes p, ∃ n ∈ es.names, Under (p ++ SLASH :: n) x.1 := by
  intro x hx
  cases es with
  | nil => cases hx
  | cons name t rest =>
    rcases List.mem_append.mp hx with hx | hx
    · exact ⟨name.bytes, List.mem_cons_self, t.nodes_under (below p name) x hx⟩
    · obtain ⟨n, hn, hu⟩ := rest.nodes_under p x hx
      exact ⟨n, List.mem_cons_of_mem _ hn, hu⟩
end

theorem Entries.names_slash (es : Entries) : ∀ n ∈ es.names, SLASH ∉ n := by
  intro n hn
  cases es with
  | nil => cases hn
  | cons name t rest =>
    rcases List.mem_cons.mp hn with rfl | hn
    · exact name.proper.slash
    · exact rest.names_slash n hn

mutual
/-- With the root at another place. -/
theorem Tree.nodes_append (t : Tree) (p q : Path) : t.nodes (p ++ q) = (t.nodes q).map fun x => (p ++ x.1, x.2) := by
  cases t with
  | file f => rfl
  | dir mode times entries =>
    rw [Tree.nodes, Tree.nodes, List.map_cons, entries.nodes_append p q]

theorem Entries.nodes_append (es : Entries) (p q : Path) :
    es.nodes (p ++ q) = (es.nodes q).map fun x => (p ++ x.1, x.2) := by
  cases es with
  | nil => rfl
  | cons name t rest =>
    have hbelow : below (p ++ q) name = p ++ below q name := List.append_assoc _ _ _
    rw [Entries.nodes, Entries.nodes, List.map_append, hbelow, t.nodes_append p (below q name), rest.nodes_append p q]
end

/-- What stands in front of a file's name on the command line. -/
def Dirname (p : Path) : Prop := p = [] ∨ ∃ d, p = d ++ [SLASH]

theorem last_dirname {p : Path} (hp : Dirname p) (q : Path) : last (p ++ q) = last q := by
  have hslash : ∀ x y : Path, (x ++ SLASH :: y).takeWhile (· ≠ SLASH) = x.takeWhile (· ≠ SLASH) := by
    intro x y
    induction x with
    | nil => rfl
    | cons c x ih => rw [List.cons_append, List.takeWhile_cons, List.takeWhile_cons, ih]
  rcases hp with rfl | ⟨d, rfl⟩
  · rfl
  · have hrev : (d ++ [SLASH] ++ q).reverse = q.reverse ++ SLASH :: d.reverse := by
      rw [List.reverse_append, List.reverse_append]
      rfl
    rw [last, hrev, hslash, last]

theorem last_component {n : Path} (hn : SLASH ∉ n) : last n = n := by
  have hrev : (n.reverse ++ []).takeWhile (· ≠ SLASH) = n.reverse :=
    takeWhile_component (List.mem_reverse.not.mpr hn) nofun
  rw [List.append_nil] at hrev
  rw [last, hrev, List.reverse_reverse]

theorem last_below (p : Path) (n : Name) : last (below p n) = n.bytes := by
  have hp : below p n = (p ++ [SLASH]) ++ n.bytes := by
    rw [below, List.append_assoc]
    rfl
  rw [hp, last_dirname (Or.inr ⟨p, rfl⟩), last_component n.proper.slash]

/-! ## Reading a file -/

/-- `read (fd, bp->buf, amt)`, the k-th; the error, and what the buffer holds then. -/
def File.read (f : File) (k amt : Nat) (rest : List UInt8) (buf : Nat → UInt8) : Option Errno × (Nat → UInt8) :=
  match f.fault with
  | some (j, fault) =>
    if j = k then
      match fault with
      | .errno e => (some e, buf)
      | .short n => (some EIO, store buf 0 (rest.take (min n (amt - 1))))
    else (none, store buf 0 (rest.take amt))
  | none => (none, store buf 0 (rest.take amt))

/-- What the loop has written, and leaves. -/
structure Copied where
  bytes : List UInt8
  haderr : Option Errno
  buf : Nat → UInt8

/-- `for (haderr = i = 0; i < stb.st_size; i += bp->cnt)`, from the k-th turn on. "Keep
    writing after an error so that we stay sync'd up." -/
def File.copyFrom (f : File) : Nat → Nat → List UInt8 → Option Errno → (Nat → UInt8) → Copied
  | fuel + 1, k, rest, haderr, buf =>
    if rest = [] then ⟨[], haderr, buf⟩
    else
      let amt := min BUFSIZ rest.length
      let r := if haderr.isNone then f.read k amt rest buf else (haderr, buf)
      let c := f.copyFrom fuel (k + 1) (rest.drop amt) r.1 r.2
      { c with bytes := slice r.2 0 amt ++ c.bytes }
  | 0, _, _, haderr, buf => ⟨[], haderr, buf⟩

def File.copy (f : File) (buf : Nat → UInt8) : Copied := f.copyFrom f.content.length 0 f.content none buf

/-- No read of it fails. -/
def File.Readable (f : File) : Prop := ∀ k fault, f.fault = some (k, fault) → f.content.length ≤ k * BUFSIZ

/-- How much of it is read before the read that fails. -/
def File.good (f : File) : Nat :=
  match f.fault with
  | some (k, _) => min (k * BUFSIZ) f.content.length
  | none => f.content.length

/-- Each turn leaves less to be read. -/
theorem length_turn {fuel : Nat} {rest : List UInt8} (hfuel : rest.length ≤ fuel + 1) (hne : rest ≠ []) :
    (rest.drop (min BUFSIZ rest.length)).length ≤ fuel := by
  have hpos : 0 < rest.length := List.length_pos_iff.mpr hne
  rw [List.length_drop]
  unfold BUFSIZ
  omega

theorem File.length_copyFrom (f : File) {fuel : Nat} {rest : List UInt8} (hfuel : rest.length ≤ fuel) (k : Nat)
    (haderr : Option Errno) (buf : Nat → UInt8) : (f.copyFrom fuel k rest haderr buf).bytes.length = rest.length := by
  induction fuel generalizing rest k haderr buf with
  | zero =>
    obtain rfl := List.length_eq_zero_iff.mp (Nat.le_zero.mp hfuel)
    rfl
  | succ fuel ih =>
    unfold copyFrom
    split
    · rename_i h
      rw [h]
    · rename_i hne
      simp only [List.length_append, length_slice, ih (length_turn hfuel hne), List.length_drop, Nat.sub_zero]
      exact Nat.add_sub_of_le (Nat.min_le_right _ _)

theorem File.read_ok {f : File} {k : Nat} (h : ∀ j fault, f.fault = some (j, fault) → j ≠ k) (amt : Nat)
    (rest : List UInt8) (buf : Nat → UInt8) : f.read k amt rest buf = (none, store buf 0 (rest.take amt)) := by
  unfold read
  split
  · rename_i j fault hf
    exact if_neg (h j fault hf)
  · rfl

/-- What is written is what has been read, up to the read that fails. -/
theorem File.take_copyFrom (f : File) {fuel : Nat} {rest : List UInt8} (hfuel : rest.length ≤ fuel) {k m : Nat}
    (hm : ∀ j fault, f.fault = some (j, fault) → m ≤ (j - k) * BUFSIZ) (buf : Nat → UInt8) :
    (f.copyFrom fuel k rest none buf).bytes.take m = rest.take m := by
  induction fuel generalizing rest k m buf with
  | zero =>
    obtain rfl := List.length_eq_zero_iff.mp (Nat.le_zero.mp hfuel)
    rfl
  | succ fuel ih =>
    unfold copyFrom
    split
    · rename_i h
      rw [h]
    rename_i hne
    by_cases h0 : m = 0
    · subst h0
      rfl
    have hread : ∀ j fault, f.fault = some (j, fault) → j ≠ k := by
      rintro j fault hf rfl
      have hj := hm j fault hf
      rw [Nat.sub_self, Nat.zero_mul] at hj
      omega
    have hlen : (rest.take (min BUFSIZ rest.length)).length = min BUFSIZ rest.length := by
      rw [List.length_take]
      omega
    have hslice := @slice_store_same _ buf 0 (rest.take (min BUFSIZ rest.length))
    rw [hlen, Nat.zero_add] at hslice
    have hdrop := length_turn hfuel hne
    simp only [Option.isNone_none, if_true, read_ok hread, hslice]
    conv_rhs => rw [← List.take_append_drop (min BUFSIZ rest.length) rest]
    rw [List.take_append, List.take_append, hlen]
    congr 1
    by_cases hfull : BUFSIZ ≤ rest.length
    · apply ih hdrop
      intro j fault hf
      have hj := hm j fault hf
      unfold BUFSIZ at *
      omega
    · -- the last turn
      have hnone : rest.drop (min BUFSIZ rest.length) = [] := List.drop_of_length_le (by omega)
      have hlast := f.length_copyFrom hdrop (k + 1) none (store buf 0 (rest.take (min BUFSIZ rest.length)))
      rw [hnone, List.length_nil, List.length_eq_zero_iff] at hlast
      rw [hnone, hlast]

/-- haderr stays as it is once it is set. -/
theorem File.haderr_kept (f : File) (e : Errno) (fuel k : Nat) (rest : List UInt8) (buf : Nat → UInt8) :
    (f.copyFrom fuel k rest (some e) buf).haderr = some e := by
  induction fuel generalizing k rest buf with
  | zero => rfl
  | succ fuel ih =>
    unfold copyFrom
    split
    · rfl
    · simp only [Option.isNone_some, Bool.false_eq_true, if_false]
      exact ih _ _ _

theorem File.read_fails {f : File} {k : Nat} {fault : Fault} (h : f.fault = some (k, fault)) (amt : Nat)
    (rest : List UInt8) (buf : Nat → UInt8) : ∃ e, (f.read k amt rest buf).1 = some e := by
  simp only [read, h, if_true]
  cases fault with
  | errno e => exact ⟨_, rfl⟩
  | short n => exact ⟨_, rfl⟩

theorem File.haderr_copyFrom {f : File} {fuel : Nat} {rest : List UInt8} (hfuel : rest.length ≤ fuel) (k : Nat)
    (buf : Nat → UInt8) : (f.copyFrom fuel k rest none buf).haderr = none ↔
      ∀ j fault, f.fault = some (j, fault) → k ≤ j → rest.length ≤ (j - k) * BUFSIZ := by
  induction fuel generalizing rest k buf with
  | zero =>
    obtain rfl := List.length_eq_zero_iff.mp (Nat.le_zero.mp hfuel)
    exact ⟨fun _ _ _ _ _ => Nat.zero_le _, fun _ => rfl⟩
  | succ fuel ih =>
    unfold copyFrom
    split
    · rename_i h
      rw [h]
      exact ⟨fun _ _ _ _ _ => Nat.zero_le _, fun _ => rfl⟩
    rename_i hne
    have hpos : 0 < rest.length := List.length_pos_iff.mpr hne
    simp only [Option.isNone_none, if_true]
    by_cases hread : ∀ j fault, f.fault = some (j, fault) → j ≠ k
    · rw [read_ok hread, ih (length_turn hfuel hne)]
      refine forall_congr' fun j => forall_congr' fun fault => forall_congr' fun hfault => ?_
      have hjk := hread j fault hfault
      rw [List.length_drop]
      unfold BUFSIZ
      omega
    · -- the read of this turn is the one that fails
      push Not at hread
      obtain ⟨_, fault, hfault, rfl⟩ := hread
      obtain ⟨e, he⟩ := read_fails hfault (min BUFSIZ rest.length) rest buf
      rw [he, haderr_kept]
      refine iff_of_false (Option.some_ne_none e) fun h => ?_
      have hzero := h _ fault hfault (Nat.le_refl _)
      rw [Nat.sub_self, Nat.zero_mul] at hzero
      omega

theorem File.haderr_copy (f : File) (buf : Nat → UInt8) : (f.copy buf).haderr = none ↔ f.Readable := by
  rw [copy, haderr_copyFrom (Nat.le_refl _)]
  exact ⟨fun h j fault hf => h j fault hf (Nat.zero_le j), fun h j fault hf _ => h j fault hf⟩

theorem File.length_copy (f : File) (buf : Nat → UInt8) : (f.copy buf).bytes.length = f.content.length :=
  f.length_copyFrom (Nat.le_refl _) 0 none buf

theorem File.take_copy (f : File) (buf : Nat → UInt8) : (f.copy buf).bytes.take f.good = f.content.take f.good := by
  apply f.take_copyFrom (Nat.le_refl _)
  intro j fault hf
  simp only [good, hf, Nat.sub_zero]
  exact Nat.min_le_left _ _

/-! ## The connection -/

/-- rem, from source's side. -/
structure Conn (σ : Type) where
  sink : Sink σ
  /-- How much has been read of what sink has written. -/
  read : Nat
  /-- `static BUF buffer` -/
  buffer : Nat → UInt8
  errs : Nat
  /-- Ghost: no reply has been left behind one that response has read. -/
  inStep : Bool

namespace Conn

variable {σ : Type} (F : Files σ) (conf : Conf) (iamremote : Bool)

def write (l : List UInt8) (c : Conn σ) : Conn σ := { c with sink := l.foldl (Sink.byte F conf) c.sink }

/-- Whether it returns 0, and not -1. `none`: it waits for ever, or calls exit (1). -/
def response (c : Conn σ) : Option (Bool × Conn σ) :=
  match c.sink.out.drop c.read with
  | [] => none
  | resp :: l =>
    if resp = 0 then some (true, { c with read := c.read + 1, inStep := c.inStep && l.isEmpty })
    else if resp = 1 then
      let (rbuf, rest) := piece BUFSIZ l
      if rbuf.getLast? = some LF ∨ rbuf.length = BUFSIZ then
        some (false, { c with
          read := c.read + (1 + rbuf.length), errs := c.errs + 1, inStep := c.inStep && rest.isEmpty })
      else none
    else none

/-- A record is written, and the response read. -/
def exchange (l : List UInt8) (c : Conn σ) : Option (Bool × Conn σ) := (c.write F conf l).response

/-- The message goes to sink, and if this is not the remote rcp, to the user: `vwarnx (fmt, ap)`,
    with the ap that vfprintf has used up. That is undefined (`none`). -/
def runErr (msg : List UInt8) (c : Conn σ) : Option (Conn σ) :=
  let c := { c with errs := c.errs + 1 }.write F conf (errorLine msg)
  if iamremote then some c else none

/-- `if (pflag)`: write_stat_time, and its response. -/
def sendTimes (t : Times) (c : Conn σ) : Option (Bool × Conn σ) :=
  if conf.pflag then c.exchange F conf (timesRecord t) else some (true, c)

/-- The data of the file, and how it went. -/
def sendData (name : Path) (f : File) (c : Conn σ) : Option (Conn σ) :=
  let r := f.copy c.buffer
  let c := { c with buffer := r.buf }.write F conf r.bytes
  match r.haderr with
  | none => some (c.write F conf [0])
  | some e => c.runErr F conf iamremote (name ++ text ": " ++ conf.strerror e)

/-- source, for a regular file. -/
def sendFile (name : Path) (f : File) (c : Conn σ) : Option (Conn σ) :=
  (c.sendTimes F conf f.times).bind fun (ok, c) =>
  if ok = false then some c else
  (c.exchange F conf (fileRecord f.mode f.content.length (last name))).bind fun (ok, c) =>
  if ok = false then some c else
  (c.sendData F conf iamremote name f).bind fun c => c.response.map Prod.snd

/-- rsource; `send` sends the entries. -/
def sendDir (name : Path) (mode : Nat) (times : Times) (send : Conn σ → Option (Conn σ)) (c : Conn σ) :
    Option (Conn σ) :=
  (c.sendTimes F conf times).bind fun (ok, c) =>
  if ok = false then some c else
  (c.exchange F conf (dirRecord mode (last name))).bind fun (ok, c) =>
  if ok = false then some c else
  (send c).bind fun c => (c.exchange F conf [letterE, LF]).map Prod.snd

end Conn

section

variable {σ : Type} (F : Files σ) (conf : Conf) (iamremote : Bool)

mutual
/-- source, with this name. -/
def Tree.source (name : Path) : Tree → Conn σ → Option (Conn σ)
  | .file f, c => c.sendFile F conf iamremote name f
  | .dir mode times entries, c => c.sendDir F conf name mode times (fun c => entries.source name c)

/-- `while (dp = readdir (dirp))` -/
def Entries.source (name : Path) : Entries → Conn σ → Option (Conn σ)
  | .nil, c => some c
  | .cons n t rest, c => (t.source (below name n) c).bind fun c => rest.source name c
end

/-- A copy of the tree: response, for sink's first byte, source, and the end of the connection. -/
def copyTree (name : Path) (t : Tree) (targ : Path) (fs : σ) (buffer : Nat → UInt8) : Option (Conn σ) :=
  (Conn.response ⟨.start F conf targ fs, 0, buffer, 0, true⟩).bind fun (ok, c) =>
  if ok = false then none else
  (t.source F conf iamremote name c).map fun c => { c with sink := c.sink.closed F conf none }

end

/-! ## What sink is sent -/

namespace Conn

variable {σ : Type} {F : Files σ} {conf : Conf} {iamremote : Bool} {c c' c'' : Conn σ} {ok : Bool}

/-- All that has become of sink is by bytes that it has read. -/
def Fed (F : Files σ) (conf : Conf) (c c' : Conn σ) : Prop :=
  ∃ l : List UInt8, c'.sink = l.foldl (Sink.byte F conf) c.sink

theorem fed_same (h : c'.sink = c.sink) : Fed F conf c c' := ⟨[], h⟩

theorem Fed.trans (h : Fed F conf c c') (h' : Fed F conf c' c'') : Fed F conf c c'' := by
  obtain ⟨l, hl⟩ := h
  obtain ⟨l', hl'⟩ := h'
  exact ⟨l ++ l', by rw [hl', hl, List.foldl_append]⟩

theorem fed_write (l : List UInt8) : Fed F conf c (c.write F conf l) := ⟨l, rfl⟩

theorem response_sink (h : c.response = some (ok, c')) : c'.sink = c.sink := by
  unfold response at h
  split at h
  · cases h
  · simp only at h
    split at h
    · cases h
      rfl
    · split at h
      · split at h
        · cases h
          rfl
        · cases h
      · cases h

theorem fed_exchange {l : List UInt8} (h : c.exchange F conf l = some (ok, c')) : Fed F conf c c' :=
  ⟨l, response_sink h⟩

theorem fed_sendTimes {t : Times} (h : c.sendTimes F conf t = some (ok, c')) : Fed F conf c c' := by
  unfold sendTimes at h
  split at h
  · exact fed_exchange h
  · cases h
    exact fed_same rfl

theorem fed_runErr {msg : List UInt8} (h : c.runErr F conf iamremote msg = some c') : Fed F conf c c' := by
  unfold runErr at h
  simp only at h
  split at h
  · cases h
    exact ⟨_, rfl⟩
  · cases h

theorem fed_sendData {name : Path} {f : File} (h : c.sendData F conf iamremote name f = some c') : Fed F conf c c' := by
  have hdata : Fed F conf c (write F conf (f.copy c.buffer).bytes { c with buffer := (f.copy c.buffer).buf }) :=
    ⟨_, rfl⟩
  unfold sendData at h
  simp only at h
  split at h
  · cases h
    exact hdata.trans (fed_write _)
  · exact hdata.trans (fed_runErr h)

theorem fed_sendFile {name : Path} {f : File} (h : c.sendFile F conf iamremote name f = some c') : Fed F conf c c' := by
  obtain ⟨⟨ok, c1⟩, htimes, h⟩ := Option.bind_eq_some_iff.mp h
  refine (fed_sendTimes htimes).trans ?_
  simp only at h
  split at h
  · cases h
    exact fed_same rfl
  obtain ⟨⟨ok, c2⟩, hrecord, h⟩ := Option.bind_eq_some_iff.mp h
  refine (fed_exchange hrecord).trans ?_
  simp only at h
  split at h
  · cases h
    exact fed_same rfl
  obtain ⟨c3, hdata, h⟩ := Option.bind_eq_some_iff.mp h
  obtain ⟨⟨ok, c4⟩, hresponse, rfl⟩ := Option.map_eq_some_iff.mp h
  exact (fed_sendData hdata).trans (fed_same (response_sink hresponse))

theorem fed_sendDir {name : Path} {mode : Nat} {times : Times} {send : Conn σ → Option (Conn σ)}
    (hsend : ∀ c c', send c = some c' → Fed F conf c c') (h : c.sendDir F conf name mode times send = some c') :
    Fed F conf c c' := by
  obtain ⟨⟨ok, c1⟩, htimes, h⟩ := Option.bind_eq_some_iff.mp h
  refine (fed_sendTimes htimes).trans ?_
  simp only at h
  split at h
  · cases h
    exact fed_same rfl
  obtain ⟨⟨ok, c2⟩, hrecord, h⟩ := Option.bind_eq_some_iff.mp h
  refine (fed_exchange hrecord).trans ?_
  simp only at h
  split at h
  · cases h
    exact fed_same rfl
  obtain ⟨c3, hentries, h⟩ := Option.bind_eq_some_iff.mp h
  obtain ⟨⟨ok, c4⟩, hend, rfl⟩ := Option.map_eq_some_iff.mp h
  exact (hsend c2 c3 hentries).trans (fed_exchange hend)

end Conn

section

variable {σ : Type} {F : Files σ} {conf : Conf} {iamremote : Bool}

mutual
theorem Tree.source_fed (t : Tree) {name : Path} {c c' : Conn σ} (h : t.source F conf iamremote name c = some c') :
    Conn.Fed F conf c c' := by
  cases t with
  | file f => exact Conn.fed_sendFile h
  | dir mode times entries => exact Conn.fed_sendDir (fun _ _ h => entries.source_fed h) h

theorem Entries.source_fed (es : Entries) {name : Path} {c c' : Conn σ} (h : es.source F conf iamremote name c = some c') :
    Conn.Fed F conf c c' := by
  cases es with
  | nil =>
    cases h
    exact Conn.fed_same rfl
  | cons n t rest =>
    obtain ⟨c1, hfirst, hrest⟩ := Option.bind_eq_some_iff.mp h
    exact (t.source_fed hfirst).trans (rest.source_fed hrest)
end

/-- It is a run of sink. -/
theorem copyTree_run {name targ : Path} {t : Tree} {fs : σ} {buffer : Nat → UInt8} {c : Conn σ}
    (h : copyTree F conf iamremote name t targ fs buffer = some c) :
    ∃ l : List Sink.Input, c.sink = l.foldl (Sink.input F conf) (.start F conf targ fs) := by
  obtain ⟨⟨ok, c1⟩, hresponse, h⟩ := Option.bind_eq_some_iff.mp h
  simp only at h
  split at h
  · cases h
  obtain ⟨c2, hsource, rfl⟩ := Option.map_eq_some_iff.mp h
  obtain ⟨l, hl⟩ := t.source_fed hsource
  refine ⟨l.map .byte ++ [.closed none], ?_⟩
  rw [Conn.response_sink hresponse] at hl
  rw [List.foldl_append, List.foldl_map, List.foldl_cons, List.foldl_nil]
  exact congrArg (Sink.closed F conf · none) hl

end

end Netutils.Rcp
