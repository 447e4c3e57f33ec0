/-
  Netutils.Ftp.Transfer — what the client sends of a file, and what it makes of the bytes it
  receives (ftp/ftp.c, sendrequest and recvrequest).
-/

import Netutils.Arpa
import Netutils.Lib.Newline

namespace Netutils.Ftp.Transfer

open Netutils.Arpa Netutils.Lib.Newline

/-! ## sendrequest -/

structure Sent where
  dout : List UInt8
  bytes : Nat

def Sent.putc (s : Sent) (c : UInt8) : Sent := ⟨s.dout ++ [c], s.bytes + 1⟩

/-- `while ((c = getc (fin)) != EOF)` -/
def sendLoop : List UInt8 → Sent → Sent
  | [], s => s
  | c :: fin, s => sendLoop fin ((if c = LF then s.putc CR else s).putc c)

/-- Neither of the two files fails. -/
def sendrequest (type : TransferType) (fin : List UInt8) : Sent :=
  match type with
  | .A => sendLoop fin ⟨[], 0⟩
  | .I | .L => ⟨fin, fin.length⟩

/-! ## recvrequest -/

structure Received where
  fout : List UInt8
  bytes : Nat
  bareLfs : Nat

def Received.putc (r : Received) (c : UInt8) : Received := { r with fout := r.fout ++ [c] }

/-- `bytes++` -/
def Received.count (r : Received) : Received := { r with bytes := r.bytes + 1 }

/-- `while ((c = getc (din)) != EOF)`, and with `true` `while (c == '\r')` behind its `bytes++`,
    up to the end of the connection. -/
def recvLoop (tcrflag : Bool) : Bool → List UInt8 → Received → Received
  | false, [], r => r
  | true, [], r => r.putc CR
  | false, c :: din, r =>
    let r := { r with bareLfs := if c = LF then r.bareLfs + 1 else r.bareLfs }
    if c = CR then recvLoop tcrflag true din r.count else recvLoop tcrflag false din (r.putc c).count
  | true, c :: din, r =>
    if c ≠ LF ∨ tcrflag = true then
      let r := r.putc CR
      if c = NUL then recvLoop tcrflag false din r.count
      else if c = CR then recvLoop tcrflag true din r.count
      else recvLoop tcrflag false din (r.putc c).count
    else recvLoop tcrflag false din (r.putc c).count

/-- Without a restart; neither of the two files fails. -/
def recvrequest (crflag isRetr : Bool) (type : TransferType) (din : List UInt8) : Received :=
  let tcrflag := !crflag && isRetr
  match type with
  | .A => recvLoop tcrflag false din ⟨[], 0, 0⟩
  | .I | .L => ⟨din, din.length, 0⟩

/-! ## The loops -/

theorem sendLoop_eq (fin : List UInt8) (s : Sent) :
    (sendLoop fin s).dout = s.dout ++ encode CR LF fin ∧
      (sendLoop fin s).bytes = s.bytes + (encode CR LF fin).length := by
  induction fin generalizing s with
  | nil => simp [sendLoop]
  | cons c fin ih =>
    obtain ⟨hdout, hbytes⟩ := ih ((if c = LF then s.putc CR else s).putc c)
    rw [sendLoop, hdout, hbytes, encode_cons, code]
    by_cases hc : c = LF
    · simp [hc, Sent.putc]
      omega
    · simp [hc, Sent.putc]
      omega

theorem sendrequest_dout (fin : List UInt8) : (sendrequest .A fin).dout = encode CR LF fin :=
  (sendLoop_eq fin _).1.trans (List.nil_append _)

/-- It counts what goes over the network, both ways. -/
theorem sendrequest_bytes (type : TransferType) (fin : List UInt8) :
    (sendrequest type fin).bytes = (sendrequest type fin).dout.length := by
  cases type with
  | A => rw [sendrequest, (sendLoop_eq fin _).1, (sendLoop_eq fin _).2, Nat.zero_add, List.nil_append]
  | I => rfl
  | L => rfl

theorem recvLoop_fout (behind : Bool) (din : List UInt8) (r : Received) :
    (recvLoop false behind din r).fout = r.fout ++ decodeFrom CR LF NUL behind din := by
  induction din generalizing behind r with
  | nil => cases behind <;> simp [recvLoop, decodeFrom, Received.putc]
  | cons c din ih =>
    cases behind with
    | false => by_cases hc : c = CR <;> simp [recvLoop, decodeFrom, ih, hc, Received.putc, Received.count]
    | true =>
      by_cases hl : c = LF
      · simp [recvLoop, decodeFrom, ih, hl, Received.putc, Received.count]
      · by_cases hn : c = NUL
        · simp [recvLoop, decodeFrom, ih, hn, Received.putc, Received.count]
        · by_cases hc : c = CR <;> simp [recvLoop, decodeFrom, ih, hl, hn, hc, Received.putc, Received.count]

theorem recvLoop_bytes (tcrflag behind : Bool) (din : List UInt8) (r : Received) :
    (recvLoop tcrflag behind din r).bytes = r.bytes + din.length := by
  induction din generalizing behind r with
  | nil => cases behind <;> rfl
  | cons c din ih =>
    have hstep : ∃ behind' r', recvLoop tcrflag behind (c :: din) r = recvLoop tcrflag behind' din r' ∧
        r'.bytes = r.bytes + 1 := by
      cases behind with
      | false =>
        by_cases hc : c = CR
        · exact ⟨true, _, by rw [recvLoop, if_pos hc], rfl⟩
        · exact ⟨false, _, by rw [recvLoop, if_neg hc], rfl⟩
      | true =>
        by_cases hl : c ≠ LF ∨ tcrflag = true
        · by_cases hn : c = NUL
          · exact ⟨false, _, by rw [recvLoop, if_pos hl, if_pos hn], rfl⟩
          · by_cases hc : c = CR
            · exact ⟨true, _, by rw [recvLoop, if_pos hl, if_neg hn, if_pos hc], rfl⟩
            · exact ⟨false, _, by rw [recvLoop, if_pos hl, if_neg hn, if_neg hc], rfl⟩
        · exact ⟨false, _, by rw [recvLoop, if_neg hl], rfl⟩
    obtain ⟨behind', r', heq, hbytes⟩ := hstep
    rw [heq, ih, hbytes, List.length_cons]
    omega

/-- With stripping on, or for a list, recvrequest undoes the newlines, and an escaped CR. -/
theorem recvrequest_fout {crflag isRetr : Bool} (h : crflag = true ∨ isRetr = false) (din : List UInt8) :
    (recvrequest crflag isRetr .A din).fout = decode CR LF NUL din := by
  have htcr : (!crflag && isRetr) = false := by
    rcases h with rfl | rfl
    · rfl
    · exact Bool.and_false _
  rw [recvrequest, htcr]
  exact (recvLoop_fout false din _).trans (List.nil_append _)

theorem recvrequest_bytes (crflag isRetr : Bool) (type : TransferType) (din : List UInt8) :
    (recvrequest crflag isRetr type din).bytes = din.length := by
  cases type with
  | A => exact (recvLoop_bytes _ _ din _).trans (Nat.zero_add _)
  | I => rfl
  | L => rfl

end Netutils.Ftp.Transfer
