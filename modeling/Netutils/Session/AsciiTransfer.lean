/-
  Netutils.Session.AsciiTransfer — files in type A between the two FTP programs, both ways.

  Both senders put a CR in front of every newline and escape nothing; both receivers also take
  CR NUL for a CR. So what arrives is the file without the NULs behind its CRs.
-/

import Netutils.Ftp.Transfer
import Netutils.Ftpd.Transfer

namespace Netutils.Session.AsciiTransfer

open Netutils.Arpa Netutils.Lib.Buffered Netutils.Lib.Newline
open Netutils.Ftp.Transfer (sendrequest recvrequest)
open Netutils.Ftpd.Transfer (Machine Chances sendData receiveData)

variable {m : Machine} {e : Chances} {file : List UInt8}

/-! ## One way -/

/-- By mmap or by getc. -/
theorem sendData_open (hsize : 0 < m.bufsize) (blksize : Nat) (file : List UInt8) :
    (sendData m e .A file.length blksize (.open file)).sent = encode CR LF file := by
  by_cases hmap : m.Maps file 0
  · exact congrArg _ (Ftpd.Transfer.sendData_maps (f := .open file) blksize hmap)
  · exact congrArg _ (Ftpd.Transfer.sendData_getc hsize blksize (at_open _ file) hmap)

theorem decode_encode_file (file : List UInt8) : decode CR LF NUL (encode CR LF file) = dropFillers CR NUL file :=
  decode_encode (by decide) (by decide) (by decide) file

/-- The client has nothing to warn of: no newline comes without its CR. -/
theorem recvLoop_bareLfs (tcrflag behind : Bool) (file : List UInt8) (r : Ftp.Transfer.Received) :
    (Ftp.Transfer.recvLoop tcrflag behind (encode CR LF file) r).bareLfs = r.bareLfs := by
  induction file generalizing behind r with
  | nil => cases behind <;> rfl
  | cons c file ih =>
    have hcr : CR ≠ LF := by decide
    rw [encode_cons, code]
    by_cases hl : c = LF
    · cases behind <;> cases tcrflag <;>
        simp [Ftp.Transfer.recvLoop, ih, hl, hcr, hcr.symm, Ftp.Transfer.Received.putc, Ftp.Transfer.Received.count]
    · cases behind with
      | false => by_cases hc : c = CR <;>
          simp [Ftp.Transfer.recvLoop, ih, hl, hc, hcr, Ftp.Transfer.Received.putc, Ftp.Transfer.Received.count]
      | true => by_cases hn : c = NUL <;> by_cases hc : c = CR <;>
          simp [Ftp.Transfer.recvLoop, ih, hl, hn, hc, hcr, Ftp.Transfer.Received.putc, Ftp.Transfer.Received.count]

/-- Nor has ftpd. -/
theorem receiveLoop_bareLfs (behind : Bool) (file : List UInt8) (r : Ftpd.Transfer.Received) :
    (Ftpd.Transfer.receiveLoop behind (encode CR LF file) r).bareLfs = r.bareLfs := by
  induction file generalizing behind r with
  | nil => cases behind <;> rfl
  | cons c file ih =>
    have hcr : CR ≠ LF := by decide
    rw [encode_cons, code]
    by_cases hl : c = LF
    · cases behind <;> simp [Ftpd.Transfer.receiveLoop, ih, hl, hcr, Ftpd.Transfer.Received.putc]
    · cases behind with
      | false => by_cases hc : c = CR <;>
          simp [Ftpd.Transfer.receiveLoop, ih, hl, hc, hcr, Ftpd.Transfer.Received.putc]
      | true => by_cases hn : c = NUL <;> by_cases hc : c = CR <;>
          simp [Ftpd.Transfer.receiveLoop, ih, hl, hn, hc, hcr, Ftpd.Transfer.Received.putc]

/-! ## Both ways -/

/-- What comes of a file over the network, in either direction: all but the NULs behind its CRs,
    so the file itself exactly if it has no such NUL. -/
theorem ascii_round_trip (m : Machine) (e : Chances) (file : List UInt8) (blksize : Nat) (hsize : 0 < m.bufsize) :
    (recvrequest true true .A (sendData m e .A file.length blksize (.open file)).sent).fout = dropFillers CR NUL file ∧
      (receiveData .A (sendrequest .A file).dout).outstr = dropFillers CR NUL file ∧
      (dropFillers CR NUL file = file ↔ ¬ Filled CR NUL file) := by
  refine ⟨?_, ?_, dropFillers_eq_self_iff (by decide) file⟩
  · rw [sendData_open hsize, Ftp.Transfer.recvrequest_fout (Or.inl rfl), decode_encode_file]
  · rw [Ftpd.Transfer.receiveData_outstr, Ftp.Transfer.sendrequest_dout, decode_encode_file]

/-- And neither warns of bare linefeeds. -/
theorem ascii_no_warning (crflag : Bool) (blksize : Nat) (hsize : 0 < m.bufsize) :
    (recvrequest crflag true .A (sendData m e .A file.length blksize (.open file)).sent).bareLfs = 0 ∧
      (receiveData .A (sendrequest .A file).dout).bareLfs = 0 := by
  rw [sendData_open hsize, Ftp.Transfer.sendrequest_dout]
  exact ⟨recvLoop_bareLfs _ false file _, receiveLoop_bareLfs false file _⟩

/-- A machine whose mmap does not work. -/
def noMmap : Machine := ⟨1024, 4096, false, true⟩

theorem ascii_round_trip_bare_cr :
    (recvrequest true true .A (sendData noMmap (Ftpd.Transfer.atOnce [CR, 0x61]) .A 2 0 (.open [CR, 0x61])).sent).fout =
      [CR, 0x61] := by
  have h := ascii_round_trip noMmap (Ftpd.Transfer.atOnce [CR, 0x61]) [CR, 0x61] 0 (by decide)
  exact h.1.trans (by decide)

/-- A CR with a NUL behind it comes back alone. -/
theorem escaped_cr_loses_its_nul :
    ¬ ∀ (m : Machine) (e : Chances) (file : List UInt8), 0 < m.bufsize →
      (recvrequest true true .A (sendData m e .A file.length 0 (.open file)).sent).fout = file ∧
        (receiveData .A (sendrequest .A file).dout).outstr = file := by
  intro h
  have hback := (h noMmap (Ftpd.Transfer.atOnce [CR, NUL]) [CR, NUL] (by decide)).2
  exact absurd hback (by decide)

end Netutils.Session.AsciiTransfer
