import Htmsql.LinkedList.Sequence

/-!
# The list in transactions

`ListRtm` of `src/hle/list/ListRtm.cpp` for any number of threads. `insertTail`, `get` and
`findAndRemoveFromList` are each one transaction, in which the functions of `List` run as they do for
one thread alone: the hardware makes an attempt visible as a whole or, when it aborts, not at all. An
attempt may abort at any time; the call tries again until it has failed `MAX_RETRIES` times, and then
the process ends. An item is created before the transaction of `insert` and deleted after that of
`remove`, outside of any transaction.

`id` and `log` are ghosts; a call takes effect when its transaction commits.
-/

namespace Htmsql.ListRtm

open Linearizable (Log Status)
open LinkedList (State Default New defaultAllocator)
open ThreadsafeList (Ptr Op Ret listSpec)

/-- `MAX_RETRIES` -/
def maxRetries : Nat := 1000000000

/-- The points of a call; the sections between `_xbegin` and `_xend` are one step each. -/
inductive Pc where
  | idle
  /-- `insert`, before `createListItem` -/
  | create (d : Int)
  /-- before an attempt of `insertTail` -/
  | insertTail (d : Int) (item : Ptr) (failures : Nat)
  /-- `contains`, before an attempt of `get` -/
  | get (d : Int) (failures : Nat)
  /-- `remove`, before an attempt of `findAndRemoveFromList` -/
  | findAndRemove (d : Int) (failures : Nat)
  /-- before `deleteListItem`, perhaps of NULL -/
  | delete (item : Option Ptr)
  | ret (r : Ret)
  deriving DecidableEq, Repr

/-- The list, the point of each thread and whether one has given up; `log` is the ghost history. -/
structure Sys (T : Type) where
  list : State Default
  /-- `exit(1)` has been called -/
  exited : Bool
  pc : T → Pc
  /-- the number of the thread's call -/
  id : T → Nat
  log : Log Op Ret

/-- A thread calls an operation or takes a step, or its attempt fails. -/
inductive Act (T : Type) where
  | call (t : T) (op : Op)
  | run (t : T)
  /-- an attempt aborts, or does not start -/
  | abort (t : T)

variable {T : Type} [DecidableEq T]

namespace Sys

/-- The thread goes on to another point. -/
def goto (s : Sys T) (t : T) (p : Pc) : Sys T := { s with pc := Function.update s.pc t p }

omit [DecidableEq T] in
/-- The list is changed. -/
def setList (s : Sys T) (list : State Default) : Sys T := { s with list := list }

omit [DecidableEq T] in
/-- The operation of the thread takes effect, which is noted in the ghost log. -/
def effect (s : Sys T) (t : T) (op : Op) (r : Ret) : Sys T :=
  { s with log := s.log.effect (s.id t) op r }

/-- A loop over the list takes no more rounds than there are items. -/
def rounds (s : Sys T) : Nat := s.list.own.used.length

/-- The next step of a thread; a transaction commits. It is `none` where the thread is in no
function, or its transaction accesses an item that is not there. -/
def run (new : New) (s : Sys T) (t : T) : Option (Sys T) :=
  match s.pc t with
  | .idle => none
  | .create d =>
    ((defaultAllocator new).createListItem d none none s.list.heap s.list.own).map
      fun (item, heap, own) =>
        (s.setList { s.list with heap := heap, own := own }).goto t (.insertTail d item 0)
  | .insertTail d item _ =>
    (LinkedList.insertTail item s.list).map fun list =>
      ((s.setList list).effect t (.insert d) (.item item)).goto t (.ret (.item item))
  | .get d _ =>
    (LinkedList.get s.rounds d s.list).map fun item =>
      let r := .int (if item ≠ none then 1 else 0)
      (s.effect t (.contains d) r).goto t (.ret r)
  | .findAndRemove d _ => do
    let item ← LinkedList.get s.rounds d s.list
    let list ← LinkedList.removeFromList item s.list
    return ((s.setList list).effect t (.remove d) .void).goto t (.delete item)
  | .delete item =>
    (LinkedList.deleteItem (defaultAllocator new) item s.list).map fun list =>
      (s.setList list).goto t (.ret .void)
  | .ret r => some (({ s with log := s.log.ret (s.id t) r } : Sys T).goto t .idle)

/-- `if (++failures < MAX_RETRIES) goto retry; else exit(1);` -/
def retry (s : Sys T) (t : T) (failures : Nat) (again : Nat → Pc) : Sys T :=
  if failures + 1 < maxRetries then s.goto t (again (failures + 1)) else { s with exited := true }

/-- The attempt of the thread is thrown out, or not started; after `MAX_RETRIES` failures it gives
up. -/
def abort (s : Sys T) (t : T) : Option (Sys T) :=
  match s.pc t with
  | .insertTail d item failures => some (s.retry t failures (.insertTail d item))
  | .get d failures => some (s.retry t failures (.get d))
  | .findAndRemove d failures => some (s.retry t failures (.findAndRemove d))
  | _ => none

end Sys

/-- Where each function begins. -/
def entry : Op → Pc
  | .insert d => .create d
  | .remove d => .findAndRemove d 0
  | .contains d => .get d 0

/-- One step of the machine, `none` where the action is not possible. Nothing happens after
`exit(1)`. -/
def step (new : New) (s : Sys T) (a : Act T) : Option (Sys T) :=
  if s.exited = true then none
  else
    match a with
    | .call t op =>
      if s.pc t = .idle then
        some (({ s with
          id := Function.update s.id t s.log.calls
          log := s.log.call op } : Sys T).goto t (entry op))
      else none
    | .run t => s.run new t
    | .abort t => s.abort t

omit [DecidableEq T] in
/-- An empty list. -/
def init : Sys T where
  list := LinkedList.start
  exited := false
  pc _ := .idle
  id _ := 0
  log := .empty

/-- How far the call of the thread has got, as the log sees it. -/
def Pc.status : Pc → Status Op Ret
  | idle => .idle
  | create d | insertTail d _ _ => .pending (.insert d)
  | get d _ => .pending (.contains d)
  | findAndRemove d _ => .pending (.remove d)
  | delete _ => .effective .void
  | ret r => .effective r

/-- The item that the call has created and not inserted yet, or removed and not deleted yet. -/
def Pc.owned : Pc → Option Ptr
  | insertTail _ item _ => some item
  | delete item => item
  | _ => none

@[simp] theorem goto_pc_self (s : Sys T) (t : T) (p : Pc) : (s.goto t p).pc t = p :=
  Function.update_self _ _ _

theorem goto_pc_of_ne {s : Sys T} {t u : T} {p : Pc} (h : u ≠ t) : (s.goto t p).pc u = s.pc u :=
  Function.update_of_ne h _ _

end Htmsql.ListRtm
