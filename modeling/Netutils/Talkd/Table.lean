/-
  Netutils.Talkd.Table — talkd's table of invitations (talkd/table.c).

  The table is a list, from `table` on. A lookup goes through it until its comparison finds an
  entry; what it did with each entry it came to is kept beside its result (`seen`).
-/

import Mathlib.Data.List.Basic
import Netutils.Protocols.Talkd

namespace Netutils.Talkd

open Netutils.Protocols

/-! ## The table -/

structure Entry where
  request : CtlMsg
  time : Int
  /-- The how-manieth id from new_id it has; nothing in the program knows this. -/
  issue : Nat

/-- What a lookup does with an entry. -/
inductive Fate where
  | removed
  | passed
  | answered
  deriving DecidableEq

structure Lookup where
  table : List Entry
  /-- The entry that is returned, and its place. -/
  found : Option (Nat × Entry)
  seen : List (Entry × Fate)
  /-- `ptr->next` has been read of an entry that had been freed. -/
  followed : Bool

/-- lookup_request; `comp` returns 0 with the entry as it leaves it. -/
def lookupRequest (ttl now : Int) (comp : Entry → Option Entry) : List Entry → Lookup
  | [] => ⟨[], none, [], false⟩
  | ptr :: rest =>
    if ttl < ptr.time - now then
      -- the freed entry's next is still the rest
      let r := lookupRequest ttl now comp rest
      { r with seen := (ptr, .removed) :: r.seen, followed := true }
    else
      match comp ptr with
      | some ptr' => ⟨ptr' :: rest, some (0, ptr'), [(ptr, .answered)], false⟩
      | none =>
        let r := lookupRequest ttl now comp rest
        ⟨ptr :: r.table, r.found.map fun x => (x.1 + 1, x.2), (ptr, .passed) :: r.seen, r.followed⟩

def fuzzyComp (request : CtlMsg) (ptr : Entry) : Option Entry :=
  if ptr.request.type = LEAVE_INVITE ∧ request.lName = ptr.request.rName ∧ request.rName = ptr.request.lName then some ptr
  else none

def exactComp (request : CtlMsg) (now : Int) (ptr : Entry) : Option Entry :=
  if request.type = ptr.request.type ∧ request.pid = ptr.request.pid ∧ request.rName = ptr.request.rName ∧
      request.lName = ptr.request.lName then
    some { ptr with time := now }
  else none

/-! ## The ids -/

def MAX_ID : Nat := 16000

/-- new_id, from current_id. -/
def newId (currentId : Nat) : Nat := if (currentId + 1) % MAX_ID = 0 then 1 else (currentId + 1) % MAX_ID

structure Daemon where
  table : List Entry
  currentId : Nat
  /-- The calls of new_id so far. -/
  issued : Nat

namespace Daemon

def init : Daemon := ⟨[], 0, 0⟩

def insertTable (s : Daemon) (time : Int) (request : CtlMsg) (response : CtlResponse) : Daemon × CtlResponse :=
  let id := newId s.currentId
  ({ table := ⟨{ request with idNum := id }, time, s.issued + 1⟩ :: s.table, currentId := id, issued := s.issued + 1 },
    { response with idNum := id })

/-- `ptr->id_num = new_id ()` at this place. -/
def reissue (s : Daemon) (i : Nat) : Daemon :=
  let id := newId s.currentId
  { table := s.table.modify i fun e => { e with request := { e.request with idNum := id }, issue := s.issued + 1 }
    currentId := id, issued := s.issued + 1 }

/-- delete_invite -/
def deleteInvite (s : Daemon) (idNum : Nat) : UInt8 × Daemon :=
  if s.table.any (fun e => e.request.idNum = idNum) then
    (SUCCESS, { s with table := s.table.eraseP fun e => e.request.idNum = idNum })
  else (NOT_HERE, s)

end Daemon

end Netutils.Talkd
