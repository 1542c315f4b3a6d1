import Htmsql.HashMap.Machine

/-!
# The hash map without locks

`HashMapRtm::insert`, `HashMapRtm::remove` and `HashMapRtm::contains` of
`src/hle/hashmap/HashMap-rtm.cpp`, called one after the other. The part of each function that
works on a list is a transaction; it is one memory access at a time here, and an attempt may be
aborted before each of them. An abort restores the memory and the locals to what they were at
`_xbegin`; then the call tries again until it has failed `MAX_RETRIES` times. `insert` allocates
its node before its first attempt, and `prev_item` of `remove` is declared there.

`linked` and `discarded` are ghosts: the items that `insert` has put into a list, and those that it
has deleted.
-/

namespace Htmsql.HashMapRtm

open Chain (Node)
open HashMap (Ptr Op Ret Req hash)
open Linearizable (Event)

/-- `MAX_RETRIES` -/
def maxRetries : Nat := 1000000

/-- The points of a call, in the transaction each before the access that it is named after. -/
inductive Pc where
  | idle
  /-- `insert`, before `new LinkedListItem(value)` -/
  | alloc (v : Nat)
  /-- before `_xbegin` -/
  | retry (q : Req) (prev : Option Ptr)
  /-- in the transaction, before the read of `map[h]->item` -/
  | head (q : Req) (prev : Option Ptr)
  /-- at the condition of the loop, with a current item -/
  | test (q : Req) (prev : Option Ptr) (item : Ptr)
  /-- in the loop, before the read of `successor` -/
  | next (q : Req) (item : Ptr)
  /-- `insert`, past the end of the list -/
  | link (v : Nat) (insertItem : Ptr) (prev : Option Ptr)
  /-- `remove`, the value is found; before the read of its successor -/
  | succ (v : Nat) (prev : Option Ptr) (item : Ptr)
  | unlink (v : Nat) (prev : Option Ptr) (item : Ptr) (successor : Option Ptr)
  /-- before `_xend`; the item is deleted afterwards -/
  | xend (q : Req) (item : Option Ptr) (r : Ret)
  | delete (q : Req) (item : Ptr) (r : Ret)
  | ret (q : Req) (r : Ret)
  /-- after `maxRetries` and `exit(1)` -/
  | exit
  deriving DecidableEq, Repr

/-- What a transaction writes. -/
structure Memory where
  heap : Ptr → Option (Node Ptr Nat)
  /-- `map[h]->item` -/
  item : Nat → Option Ptr
  linked : List Ptr

/-- The memory of the map, the point of the thread, and what an abort restores while it is in a
transaction; `hist` and `calls` are the ghost history. -/
structure State where
  mem : Memory
  /-- the number of allocations so far -/
  allocated : Nat
  /-- a deleted node has been read, written or deleted -/
  fault : Bool
  pc : Pc
  /-- of the call, or of the last one -/
  failures : Nat
  /-- in a transaction: the memory and the point at `_xbegin` -/
  saved : Option (Memory × Pc)
  discarded : List Ptr
  hist : List (Event Op Ret)
  calls : Nat

/-- The next operation is called, the code takes a step, or the attempt fails. -/
inductive Act where
  | call (op : Op)
  | run
  /-- the attempt is aborted, or `_xbegin` does not start it -/
  | abort

namespace State

/-- The code goes on to another point. -/
def goto (s : State) (p : Pc) : State := { s with pc := p }

/-- The memory is changed. -/
def setMem (s : State) (m : Memory) : State := { s with mem := m }

/-- An access to the node at `p`. -/
def access (s : State) (p : Ptr) (k : Node Ptr Nat → State) : State :=
  match s.mem.heap p with
  | some n => k n
  | none => { s with fault := true }

/-- `prev_item->successor = e` or, without a previous item, `map[h]->item = e`. -/
def setSuccessor (s : State) (h : Nat) (prev e : Option Ptr) : State :=
  match prev with
  | some p =>
    s.access p fun n => s.setMem { s.mem with
      heap := Function.update s.mem.heap p (some { n with successor := e }) }
  | none => s.setMem { s.mem with item := Function.update s.mem.item h e }

/-- `delete` of an item; one that is not there any more is a fault. -/
def delete (s : State) (p : Ptr) : State :=
  s.access p fun _ => s.setMem { s.mem with heap := Function.update s.mem.heap p none }

/-- `insert_item` is in the list. -/
def noteLinked (s : State) (p : Ptr) : State :=
  s.setMem { s.mem with linked := s.mem.linked ++ [p] }

/-- What `delete` means for the item of a call. -/
def noteDiscarded (s : State) (p : Ptr) : Req → State
  | .insert _ _ => { s with discarded := s.discarded ++ [p] }
  | .remove _ | .contains _ => s

/-- The value is in the list. -/
def found (s : State) (prev : Option Ptr) (item : Ptr) : Req → State
  | .insert v insertItem => s.goto (.xend (.insert v insertItem) (some insertItem) (.item item))
  | .remove v => s.goto (.succ v prev item)
  | .contains v => s.goto (.xend (.contains v) none (.int 1))

/-- The list has no further item. -/
def atEnd (s : State) (prev : Option Ptr) : Req → State
  | .insert v insertItem => s.goto (.link v insertItem prev)
  | .remove v => s.goto (.xend (.remove v) none (.int 0))
  | .contains v => s.goto (.xend (.contains v) none (.int 0))

/-- The loop continues with the item at `p`. -/
def goTo (s : State) (q : Req) (prev p : Option Ptr) : State :=
  match p with
  | some item => s.goto (.test q prev item)
  | none => s.atEnd prev q

/-- `++failures < MAX_RETRIES` -/
def fail (s : State) (m : Memory) (p : Pc) : State :=
  { s with
    mem := m
    pc := if s.failures + 1 < maxRetries then p else .exit
    failures := s.failures + 1
    saved := none }

end State

/-- `prev_item` at the begin of the loop: `remove` alone has it outside the transaction. -/
def prevItem (prev : Option Ptr) : Req → Option Ptr
  | .remove _ => prev
  | .insert _ _ | .contains _ => none

/-- What is left to do after `_xend`. -/
def afterXend (q : Req) : Option Ptr → Ret → Pc
  | some p, r => .delete q p r
  | none, r => .ret q r

/-- One step of the code, `none` where it waits for a call or has exited. -/
def State.run (size : Nat) (s : State) : Option State :=
  match s.pc with
  | .idle | .exit => none
  | .alloc v =>
    some (({ s with
      mem := { s.mem with heap := Function.update s.mem.heap s.allocated (some ⟨v, none⟩) }
      allocated := s.allocated + 1 } : State).goto (.retry (.insert v s.allocated) none))
  | .retry q prev =>
    some (({ s with saved := some (s.mem, .retry q prev) } : State).goto (.head q prev))
  | .head q prev => some (s.goTo q (prevItem prev q) (s.mem.item (hash size q.value)))
  | .test q prev item =>
    some (s.access item fun n =>
      if n.data = q.value then s.found prev item q else s.goto (.next q item))
  | .next q item => some (s.access item fun n => s.goTo q (some item) n.successor)
  | .link v insertItem prev =>
    some (((s.setSuccessor (hash size v) prev (some insertItem)).noteLinked insertItem).goto
      (.xend (.insert v insertItem) none (.item insertItem)))
  | .succ v prev item =>
    some (s.access item fun n => s.goto (.unlink v prev item n.successor))
  | .unlink v prev item successor =>
    some ((s.setSuccessor (hash size v) prev successor).goto
      (.xend (.remove v) (some item) (.int 1)))
  | .xend q item r => some (({ s with saved := none } : State).goto (afterXend q item r))
  | .delete q item r => some (((s.delete item).noteDiscarded item q).goto (.ret q r))
  | .ret _ r => some (({ s with hist := s.hist ++ [.ret (s.calls - 1) r] } : State).goto .idle)

/-- The hardware throws the transaction out, or refuses to start one. -/
def State.abort (s : State) : Option State :=
  match s.saved, s.pc with
  | some (m, p), _ => some (s.fail m p)
  | none, .retry q prev => some (s.fail s.mem (.retry q prev))
  | none, _ => none

/-- Where each function begins. -/
def entry : Op → Pc
  | .insert v => .alloc v
  | .remove v => .retry (.remove v) none
  | .contains v => .retry (.contains v) none

/-- One step of the machine, `none` where the action is not possible. -/
def step (size : Nat) (s : State) : Act → Option State
  | .call op =>
    if s.pc = .idle then
      some (({ s with
        failures := 0
        hist := s.hist ++ [.call s.calls op]
        calls := s.calls + 1 } : State).goto (entry op))
    else none
  | .run => s.run size
  | .abort => s.abort

/-- An empty map. -/
def init : State where
  mem := ⟨fun _ => none, fun _ => none, []⟩
  allocated := 0
  fault := false
  pc := .idle
  failures := 0
  saved := none
  discarded := []
  hist := []
  calls := 0

end Htmsql.HashMapRtm
