import Htmsql.Lib.Chain
import Htmsql.Lib.Linearizable
import Htmsql.Lib.Run
import Mathlib.Data.Finset.Basic

/-!
# The bucket-locked hash map

`HashMap::insert`, `HashMap::remove` and `HashMap::contains` of `src/hle/hashmap/HashMap.cpp`,
one memory access at a time, for any number of threads. A bucket has a lock and the head of a
linked list; the lock is what the code takes it for, mutual exclusion between `lock` and
`unlock`. `insert` allocates its node before it locks; `remove`, and `insert` when the value is
there already, delete a node after they have unlocked.

A pointer is the number of an allocation, so two nodes never have the same pointer and an access
to a node that has been deleted is always noticed (`fault`). `id` and `log` are ghosts; an
operation takes effect at the access that decides its result.
-/

namespace Htmsql.HashMap

open Chain (Node)
open Linearizable (Log)

/-- An item of the map, named by the number of its allocation. -/
abbrev Ptr := Nat

/-- The operations of the map. -/
inductive Op where
  | insert (v : Nat)
  | remove (v : Nat)
  | contains (v : Nat)
  deriving DecidableEq, Repr

/-- What an operation returns: the item of `insert`, the 0 or 1 of the others. -/
inductive Ret where
  | item (p : Ptr)
  | int (n : Nat)
  deriving DecidableEq, Repr

/-- An operation that has what it needs before it locks. -/
inductive Req where
  | insert (v : Nat) (insertItem : Ptr)
  | remove (v : Nat)
  | contains (v : Nat)
  deriving DecidableEq, Repr

/-- The value that the request is about. -/
def Req.value : Req → Nat
  | insert v _ | remove v | contains v => v

/-- The operation that the request belongs to. -/
def Req.op : Req → Op
  | insert v _ => .insert v
  | remove v => .remove v
  | contains v => .contains v

/-- The points of a call, each before the access of shared memory that it is named after. -/
inductive Pc where
  | idle
  /-- `insert`, before `new LinkedListItem(value)` -/
  | alloc (v : Nat)
  | lock (q : Req)
  /-- the bucket is locked; before the read of `map[h]->item` -/
  | head (q : Req)
  /-- at the condition of the loop, with a current item -/
  | test (q : Req) (prev : Option Ptr) (item : Ptr)
  /-- in the loop, before the read of `successor` -/
  | next (q : Req) (item : Ptr)
  /-- `insert`, past the end of the list -/
  | link (v : Nat) (insertItem : Ptr) (prev : Option Ptr)
  /-- `remove`, the value is found; before the read of its successor -/
  | succ (v : Nat) (prev : Option Ptr) (item : Ptr)
  | unlink (v : Nat) (prev : Option Ptr) (item : Ptr) (successor : Option Ptr)
  /-- before `unlock`; the item is deleted afterwards -/
  | unlock (v : Nat) (item : Option Ptr) (r : Ret)
  | delete (item : Ptr) (r : Ret)
  | ret (r : Ret)
  deriving DecidableEq, Repr

/-- The items, the buckets with their locks, the count of the items, and where each thread is;
`log` is the ghost history. -/
structure Sys (T : Type) where
  heap : Ptr → Option (Node Ptr Nat)
  /-- the number of allocations so far -/
  allocated : Nat
  /-- `map[h]->item` -/
  item : Nat → Option Ptr
  /-- who has locked the bucket -/
  holder : Nat → Option T
  /-- a deleted node has been read, written or deleted -/
  fault : Bool
  pc : T → Pc
  /-- the number of the thread's call -/
  id : T → Nat
  log : Log Op Ret

/-- A thread calls an operation or takes the next step of the one it is in. -/
inductive Act (T : Type) where
  | call (t : T) (op : Op)
  | run (t : T)

/-- `HashMap::hash` -/
def hash (size value : Nat) : Nat := value % size

variable {T : Type} [DecidableEq T]

/-- The thread goes on to another point. -/
def Sys.setPc (s : Sys T) (t : T) (p : Pc) : Sys T := { s with pc := Function.update s.pc t p }

omit [DecidableEq T] in
/-- The operation of the thread takes effect, which is noted in the ghost log. -/
def Sys.effect (s : Sys T) (t : T) (op : Op) (r : Ret) : Sys T :=
  { s with log := s.log.effect (s.id t) op r }

/-- An access to the node at `p`. -/
def Sys.access (s : Sys T) (p : Ptr) (k : Node Ptr Nat → Sys T) : Sys T :=
  match s.heap p with
  | some n => k n
  | none => { s with fault := true }

/-- `prev_item->successor = e` or, without a previous item, `map[h]->item = e`. -/
def Sys.setSuccessor (s : Sys T) (h : Nat) (prev e : Option Ptr) : Sys T :=
  match prev with
  | some p =>
    s.access p fun n => { s with heap := Function.update s.heap p (some { n with successor := e }) }
  | none => { s with item := Function.update s.item h e }

/-- `delete` of an item; one that is not there any more is a fault. -/
def Sys.delete (s : Sys T) (p : Ptr) : Sys T :=
  s.access p fun _ => { s with heap := Function.update s.heap p none }

/-- The value is in the list. -/
def Sys.found (s : Sys T) (t : T) (prev : Option Ptr) (item : Ptr) : Req → Sys T
  | .insert v insertItem =>
    (s.effect t (.insert v) (.item item)).setPc t (.unlock v (some insertItem) (.item item))
  | .remove v => s.setPc t (.succ v prev item)
  | .contains v => (s.effect t (.contains v) (.int 1)).setPc t (.unlock v none (.int 1))

/-- The list has no further item. -/
def Sys.atEnd (s : Sys T) (t : T) (prev : Option Ptr) : Req → Sys T
  | .insert v insertItem => s.setPc t (.link v insertItem prev)
  | .remove v => (s.effect t (.remove v) (.int 0)).setPc t (.unlock v none (.int 0))
  | .contains v => (s.effect t (.contains v) (.int 0)).setPc t (.unlock v none (.int 0))

/-- The loop continues with the item at `p`. -/
def Sys.goTo (s : Sys T) (t : T) (q : Req) (prev p : Option Ptr) : Sys T :=
  match p with
  | some item => s.setPc t (.test q prev item)
  | none => s.atEnd t prev q

/-- What is left to do after `unlock`. -/
def afterUnlock : Option Ptr → Ret → Pc
  | some p, r => .delete p r
  | none, r => .ret r

/-- One step of a thread by its own code, `none` while the bucket is locked. -/
def Sys.run (size : Nat) (s : Sys T) (t : T) : Option (Sys T) :=
  match s.pc t with
  | .idle => none
  | .alloc v =>
    some (({ s with
      heap := Function.update s.heap s.allocated (some ⟨v, none⟩)
      allocated := s.allocated + 1 } : Sys T).setPc t (.lock (.insert v s.allocated)))
  | .lock q =>
    if s.holder (hash size q.value) = none then
      some (({ s with
        holder := Function.update s.holder (hash size q.value) (some t) } : Sys T).setPc t (.head q))
    else none
  | .head q => some (s.goTo t q none (s.item (hash size q.value)))
  | .test q prev item =>
    some (s.access item fun n =>
      if n.data = q.value then s.found t prev item q else s.setPc t (.next q item))
  | .next q item => some (s.access item fun n => s.goTo t q (some item) n.successor)
  | .link v insertItem prev =>
    some (((s.setSuccessor (hash size v) prev (some insertItem)).effect t (.insert v)
      (.item insertItem)).setPc t (.unlock v none (.item insertItem)))
  | .succ v prev item =>
    some (s.access item fun n => s.setPc t (.unlink v prev item n.successor))
  | .unlink v prev item successor =>
    some (((s.setSuccessor (hash size v) prev successor).effect t (.remove v) (.int 1)).setPc t
      (.unlock v (some item) (.int 1)))
  | .unlock v item r =>
    some (({ s with holder := Function.update s.holder (hash size v) none } : Sys T).setPc t
      (afterUnlock item r))
  | .delete item r => some ((s.delete item).setPc t (.ret r))
  | .ret r => some (({ s with log := s.log.ret (s.id t) r } : Sys T).setPc t .idle)

/-- Where each function begins. -/
def Op.entry : Op → Pc
  | insert v => .alloc v
  | remove v => .lock (.remove v)
  | contains v => .lock (.contains v)

/-- One step of the machine, `none` where the action is not possible. -/
def step (size : Nat) (s : Sys T) : Act T → Option (Sys T)
  | .call t op =>
    if s.pc t = .idle then
      some (({ s with
        id := Function.update s.id t s.log.calls
        log := s.log.call op } : Sys T).setPc t op.entry)
    else none
  | .run t => s.run size t

omit [DecidableEq T] in
/-- An empty map. -/
def init : Sys T where
  heap _ := none
  allocated := 0
  item _ := none
  holder _ := none
  fault := false
  pc _ := .idle
  id _ := 0
  log := .empty

/-- What the map is: a set, whose operations return 1 or 0 as the value is in it. -/
def setSpec (m : Finset Nat) (op : Op) (r : Ret) (m' : Finset Nat) : Prop :=
  match op with
  | .insert v => (∃ p, r = .item p) ∧ m' = insert v m
  | .remove v => r = .int (if v ∈ m then 1 else 0) ∧ m' = m.erase v
  | .contains v => r = .int (if v ∈ m then 1 else 0) ∧ m' = m

/-- The inner loop of `countElements`, from an item on; `none` if the fuel does not suffice. -/
def countItems (heap : Ptr → Option (Node Ptr Nat)) : Nat → Option Ptr → Option Nat
  | _, none => some 0
  | 0, some _ => none
  | fuel + 1, some p => (heap p).bind fun n => (countItems heap fuel n.successor).map (· + 1)

/-- `HashMap::countElements` -/
def countElements (size fuel : Nat) (s : Sys T) : Option Nat :=
  (List.range size).foldl (fun count h =>
    count.bind fun c => (countItems s.heap fuel (s.item h)).map (c + ·)) (some 0)

end Htmsql.HashMap
