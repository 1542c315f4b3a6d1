import Htmsql.Lib.Clients
import Htmsql.Lib.Run
import Mathlib.Logic.Function.Basic

/-!
# The doubly linked list under one lock

`List::insert`, `List::remove` and `List::contains` of `src/hle/list/List.cpp` on a
`ThreadsafeList`, statement by statement, for any number of threads. `insertTail`, `get` and
`findAndRemoveFromList` take the lock of the list, which is what the code takes it for, mutual
exclusion; an item is created before and deleted after that. `get` hands its pointer out of the lock,
and `contains` compares it with NULL.

The allocator returns fresh memory: a pointer is the number of an allocation, so an access to an
item that has been deleted is always noticed (`fault`). `deleteListItem` of NULL does nothing. `id` and
`log` are ghosts; `insert` takes effect when it sets the `next` of the last item, `remove` with its
last write to the list, and a search that finds nothing when it comes to the end.
-/

namespace Htmsql.ThreadsafeList

open Linearizable (Log Status)

/-- An item, named by the number of its allocation. -/
abbrev Ptr := Nat

/-- `ListItem` with its two links. -/
structure ListItem where
  data : Int
  prev : Option Ptr
  next : Option Ptr
  deriving DecidableEq, Repr

/-- The operations of the list. -/
inductive Op where
  | insert (d : Int)
  | remove (d : Int)
  | contains (d : Int)
  deriving DecidableEq, Repr

/-- What an operation returns: an item, nothing, or 0 or 1. -/
inductive Ret where
  | item (p : Ptr)
  | void
  | int (n : Nat)
  deriving DecidableEq, Repr

/-- Who calls `List::get`. -/
inductive Search where
  | remove (d : Int)
  | contains (d : Int)
  deriving DecidableEq, Repr

/-- The data that is looked for. -/
def Search.data : Search → Int
  | remove d | contains d => d

/-- The operation that the search belongs to. -/
def Search.op : Search → Op
  | remove d => .remove d
  | contains d => .contains d

/-- The points of a call, each before the access of shared memory that it is named after. -/
inductive Pc where
  | idle
  /-- before `createListItem` -/
  | create (d : Int)
  | lockInsert (d : Int) (item : Ptr)
  /-- in `insertTail`: before `item->prev = last` -/
  | setPrev (d : Int) (item : Ptr)
  /-- before `if (last != NULL) last->next = item` -/
  | setNext (d : Int) (item : Ptr)
  /-- before `last = item` -/
  | setLast (d : Int) (item : Ptr)
  /-- before `if (first == NULL) first = item` -/
  | setFirst (d : Int) (item : Ptr)
  | lockGet (q : Search)
  /-- in `get`: before `item = first` -/
  | first (q : Search)
  /-- at the condition of the loop, with a current item -/
  | test (q : Search) (item : Ptr)
  /-- before `item = item->next` -/
  | next (q : Search) (item : Ptr)
  /-- in `removeFromList`: before `prev = item->prev` -/
  | readPrev (d : Int) (item : Ptr)
  /-- before `next = item->next` -/
  | readNext (d : Int) (item : Ptr) (prev : Option Ptr)
  /-- before `if (item == first) first = next` -/
  | unlinkFirst (d : Int) (item : Ptr) (prev next : Option Ptr)
  /-- before `if (item == last) last = prev` -/
  | unlinkLast (d : Int) (item : Ptr) (prev next : Option Ptr)
  /-- before `if (next != NULL) next->prev = prev` -/
  | unlinkNext (d : Int) (item : Ptr) (prev next : Option Ptr)
  /-- before `if (prev != NULL) prev->next = next` -/
  | unlinkPrev (d : Int) (item : Ptr) (prev next : Option Ptr)
  /-- before `unlock`; the item is deleted afterwards -/
  | unlock (item : Option Ptr) (r : Ret)
  | delete (item : Ptr) (r : Ret)
  | ret (r : Ret)
  deriving DecidableEq, Repr

/-- The items, the ends of the list, its lock, and where each thread is; `log` is the ghost
history. -/
structure Sys (T : Type) where
  heap : Ptr → Option ListItem
  /-- the number of allocations so far -/
  allocated : Nat
  first : Option Ptr
  last : Option Ptr
  /-- who has locked the list -/
  holder : Option T
  /-- a deleted item has been read, written or deleted -/
  fault : Bool
  pc : T → Pc
  /-- the number of the thread's call -/
  id : T → Nat
  log : Log Op Ret

/-- A thread calls an operation or takes the next step of the one it is in. -/
inductive Act (T : Type) where
  | call (t : T) (op : Op)
  | run (t : T)
  deriving DecidableEq, Repr

variable {T : Type} [DecidableEq T]

/-- The thread goes on to another point. -/
def Sys.goto (s : Sys T) (t : T) (p : Pc) : Sys T := { s with pc := Function.update s.pc t p }

omit [DecidableEq T] in
/-- The operation of the thread takes effect, which is noted in the ghost log. -/
def Sys.effect (s : Sys T) (t : T) (op : Op) (r : Ret) : Sys T :=
  { s with log := s.log.effect (s.id t) op r }

/-- An access to the item at `p`. -/
def Sys.access (s : Sys T) (p : Ptr) (k : ListItem → Sys T) : Sys T :=
  match s.heap p with
  | some n => k n
  | none => { s with fault := true }

/-- A write to the item at `p`, or no write if there is no pointer. -/
def Sys.write (s : Sys T) (p : Option Ptr) (f : ListItem → ListItem) : Sys T :=
  match p with
  | some p => s.access p fun n => { s with heap := Function.update s.heap p (some (f n)) }
  | none => s

def ListItem.setPrev (n : ListItem) (p : Option Ptr) : ListItem := { n with prev := p }

def ListItem.setNext (n : ListItem) (p : Option Ptr) : ListItem := { n with next := p }

omit [DecidableEq T] in
def Sys.setFirst (s : Sys T) (p : Option Ptr) : Sys T := { s with first := p }

omit [DecidableEq T] in
def Sys.setLast (s : Sys T) (p : Option Ptr) : Sys T := { s with last := p }

omit [DecidableEq T] in
def Sys.setHolder (s : Sys T) (h : Option T) : Sys T := { s with holder := h }

/-- `createListItem(d, NULL, NULL)` -/
def Sys.create (s : Sys T) (d : Int) : Sys T :=
  { s with
    heap := Function.update s.heap s.allocated (some ⟨d, none, none⟩)
    allocated := s.allocated + 1 }

/-- `delete` of an item; one that is not there any more is a fault. -/
def Sys.delete (s : Sys T) (p : Ptr) : Sys T :=
  s.access p fun _ => { s with heap := Function.update s.heap p none }

/-- `get` has found the item. -/
def Sys.found (s : Sys T) (t : T) (item : Ptr) : Search → Sys T
  | .remove d => s.goto t (.readPrev d item)
  | .contains d => (s.effect t (.contains d) (.int 1)).goto t (.unlock none (.int 1))

/-- `get` returns NULL. -/
def Sys.atEnd (s : Sys T) (t : T) : Search → Sys T
  | .remove d => (s.effect t (.remove d) .void).goto t (.unlock none .void)
  | .contains d => (s.effect t (.contains d) (.int 0)).goto t (.unlock none (.int 0))

/-- The loop continues with the item at `p`. -/
def Sys.goTo (s : Sys T) (t : T) (q : Search) (p : Option Ptr) : Sys T :=
  match p with
  | some item => s.goto t (.test q item)
  | none => s.atEnd t q

/-- What is left to do after `unlock`. -/
def afterUnlock : Option Ptr → Ret → Pc
  | some p, r => .delete p r
  | none, r => .ret r

/-- One step of a thread by its own code, `none` while the list is locked. -/
def Sys.run (s : Sys T) (t : T) : Option (Sys T) :=
  match s.pc t with
  | .idle => none
  | .create d => some ((s.create d).goto t (.lockInsert d s.allocated))
  | .lockInsert d item =>
    if s.holder = none then some ((s.setHolder (some t)).goto t (.setPrev d item)) else none
  | .setPrev d item =>
    some ((s.write (some item) (·.setPrev s.last)).goto t (.setNext d item))
  | .setNext d item =>
    some (((s.write s.last (·.setNext (some item))).effect t (.insert d) (.item item)).goto t
      (.setLast d item))
  | .setLast d item => some ((s.setLast (some item)).goto t (.setFirst d item))
  | .setFirst _ item =>
    some ((s.setFirst (if s.first = none then some item else s.first)).goto t
      (.unlock none (.item item)))
  | .lockGet q =>
    if s.holder = none then some ((s.setHolder (some t)).goto t (.first q)) else none
  | .first q => some (s.goTo t q s.first)
  | .test q item =>
    some (s.access item fun n =>
      if n.data = q.data then s.found t item q else s.goto t (.next q item))
  | .next q item => some (s.access item fun n => s.goTo t q n.next)
  | .readPrev d item => some (s.access item fun n => s.goto t (.readNext d item n.prev))
  | .readNext d item prev =>
    some (s.access item fun n => s.goto t (.unlinkFirst d item prev n.next))
  | .unlinkFirst d item prev next =>
    some ((s.setFirst (if some item = s.first then next else s.first)).goto t
      (.unlinkLast d item prev next))
  | .unlinkLast d item prev next =>
    some ((s.setLast (if some item = s.last then prev else s.last)).goto t
      (.unlinkNext d item prev next))
  | .unlinkNext d item prev next =>
    some ((s.write next (·.setPrev prev)).goto t (.unlinkPrev d item prev next))
  | .unlinkPrev d item prev next =>
    some (((s.write prev (·.setNext next)).effect t (.remove d) .void).goto t
      (.unlock (some item) .void))
  | .unlock item r => some ((s.setHolder none).goto t (afterUnlock item r))
  | .delete item r => some ((s.delete item).goto t (.ret r))
  | .ret r => some (({ s with log := s.log.ret (s.id t) r } : Sys T).goto t .idle)

/-- Where each function begins. -/
def Op.entry : Op → Pc
  | insert d => .create d
  | remove d => .lockGet (.remove d)
  | contains d => .lockGet (.contains d)

/-- One step of the machine, `none` where the action is not possible. -/
def step (s : Sys T) : Act T → Option (Sys T)
  | .call t op =>
    if s.pc t = .idle then
      some (({ s with
        id := Function.update s.id t s.log.calls
        log := s.log.call op } : Sys T).goto t op.entry)
    else none
  | .run t => s.run t

omit [DecidableEq T] in
/-- An empty list. -/
def init : Sys T where
  heap _ := none
  allocated := 0
  first := none
  last := none
  holder := none
  fault := false
  pc _ := .idle
  id _ := 0
  log := .empty

/-- What the list is: `insert` appends, `remove` takes the first occurrence out. -/
def listSpec (m : List Int) (op : Op) (r : Ret) (m' : List Int) : Prop :=
  match op with
  | .insert d => (∃ p, r = .item p) ∧ m' = m ++ [d]
  | .remove d => r = .void ∧ m' = m.erase d
  | .contains d => r = .int (if d ∈ m then 1 else 0) ∧ m' = m

end Htmsql.ThreadsafeList
