import Htmsql.LinkedList.Code
import Htmsql.ThreadsafeList.Sequence

/-!
# The list under one lock over a `PreAllocator`

The machine of `ThreadsafeList`, whose items are now the slots of one `PreAllocator`:
`createListItem` and `deleteListItem` of `src/hle/list/PreAllocator.cpp` are not protected by the
lock, and each of their reads and writes of the data of a slot, of its pointers and of
`last_allocation_slot` is a step. The data of all calls is at least 0.

`deleteListItem` of NULL writes through a null pointer, and `createListItem` calls `exit(1)` when it
has found no slot; both end the process. `live` is a ghost: the slots of the items that have been
created and not deleted, each as often as it has been handed out.
-/

namespace Htmsql.SharedSlots

open LinkedList (allocationsSize dummies)
open ThreadsafeList (Ptr ListItem Op Ret Act Sys)

/-- Where a thread is in the allocator; `b` is `allocation_slot_begin`. -/
inductive AllocPc where
  /-- before `allocation_slot_begin = last_allocation_slot` -/
  | begin
  /-- in the loop: before the read of `last_allocation_slot` that is to be moved on -/
  | read (b : ℤ)
  /-- before the write of it; `c` has been read -/
  | store (b c : ℤ)
  /-- before the read of the index of `item` -/
  | index (b : ℤ)
  /-- before the read of `item->data` -/
  | test (b : ℤ) (item : Ptr)
  /-- at the condition of the loop -/
  | check (b : ℤ)
  /-- before `item->data = data` -/
  | claim (item : Ptr)
  /-- before `item->prev = prev` -/
  | initPrev (item : Ptr)
  /-- before `item->next = next` -/
  | initNext (item : Ptr)
  /-- in `deleteListItem(NULL)` -/
  | null
  deriving DecidableEq, Repr

/-- A list with a `PreAllocator` that the threads share: the list, the cursor, where each thread
is in the allocator, and the slots in use. -/
structure State (T : Type) where
  list : Sys T
  /-- `last_allocation_slot` -/
  cursor : ℤ
  alloc : T → AllocPc
  live : List Ptr
  /-- the process has ended -/
  ended : Bool

/-- The data that a call is given. -/
def data : Op → ℤ
  | .insert d | .remove d | .contains d => d

/-- The data of an item is overwritten, its links stay. -/
def setData (d : ℤ) (n : ListItem) : ListItem := { n with data := d }

variable {T : Type} [DecidableEq T]

/-- The thread goes on to another point of the allocator. -/
def State.moveTo (s : State T) (t : T) (pc : AllocPc) : State T :=
  { s with alloc := Function.update s.alloc t pc }

omit [DecidableEq T] in
/-- The list is changed. -/
def State.setList (s : State T) (l : Sys T) : State T := { s with list := l }

/-- A step of `createListItem(d, NULL, NULL)`. -/
def State.create (s : State T) (t : T) (d : ℤ) : AllocPc → Option (State T)
  | .begin => some (s.moveTo t (.read s.cursor))
  | .read b => some (s.moveTo t (.store b s.cursor))
  | .store b c =>
    some (({ s with cursor := (c + 1) % allocationsSize } : State T).moveTo t (.index b))
  | .index b => some (s.moveTo t (.test b s.cursor.toNat))
  | .test b item =>
    (s.list.heap item).map fun n => s.moveTo t (if n.data = -1 then .claim item else .check b)
  | .check b =>
    if s.cursor ≠ b then some (s.moveTo t (.read b))
    -- `exit(1)`
    else some { s with ended := true }
  | .claim item =>
    some (({ s with
      list := s.list.write (some item) (setData d)
      live := item :: s.live } : State T).moveTo t (.initPrev item))
  | .initPrev item =>
    some ((s.setList (s.list.write (some item) (·.setPrev none))).moveTo t (.initNext item))
  | .initNext item =>
    some ((s.setList ((s.list.write (some item) (·.setNext none)).goto t
      (.lockInsert d item))).moveTo t .begin)
  | .null => none

/-- One step of a thread: in the allocator where it creates or deletes an item, else in the list. -/
def State.run (s : State T) (t : T) : Option (State T) :=
  match s.list.pc t with
  | .create d => s.create t d (s.alloc t)
  | .delete item r =>
    -- `deleteListItem`
    some { s with
      list := (s.list.write (some item) (setData (-1))).goto t (.ret r)
      live := s.live.erase item }
  | .unlock none .void => (s.list.run t).map fun l => (s.setList l).moveTo t .null
  | .ret _ =>
    if s.alloc t = .null then some { s with ended := true } else (s.list.run t).map s.setList
  | _ => (s.list.run t).map s.setList

/-- One step of the machine, `none` where the action is not possible. The values are at least 0,
and nothing happens after the process has ended. -/
def step (s : State T) : Act T → Option (State T)
  | .call t op =>
    if s.ended = false ∧ 0 ≤ data op then
      (ThreadsafeList.step s.list (.call t op)).map fun l => (s.setList l).moveTo t .begin
    else none
  | .run t => if s.ended = false then s.run t else none

omit [DecidableEq T] in
/-- An empty list, and the slots as the constructor of the `PreAllocator` leaves them. -/
def init : State T where
  list := { ThreadsafeList.init with heap := dummies allocationsSize, allocated := allocationsSize }
  cursor := -1
  alloc _ := .begin
  live := []
  ended := false

/-! ## Slots in use and slots that are free -/

/-- The items of `u`, and the other slots as in `rest`. -/
def overlay (rest : Ptr → Option ListItem) (u : Sys T) : Sys T :=
  { u with heap := fun p => (u.heap p).or (rest p) }

variable {u u' : Sys T} {rest : Ptr → Option ListItem} {t : T} {p : Ptr} {n : ListItem}

omit [DecidableEq T] in
theorem overlay_heap (h : u.heap p = some n) : (overlay rest u).heap p = some n := by
  show (u.heap p).or (rest p) = some n
  rw [h]
  rfl

omit [DecidableEq T] in
theorem overlay_heap_none (h : u.heap p = none) : (overlay rest u).heap p = rest p := by
  show (u.heap p).or (rest p) = rest p
  rw [h]
  rfl

omit [DecidableEq T] in
theorem overlay_update (u : Sys T) (rest : Ptr → Option ListItem) (p : Ptr) (n : ListItem) :
    Function.update (overlay rest u).heap p (some n) =
      (overlay rest (u.setHeap (Function.update u.heap p (some n)))).heap := by
  funext q
  show _ = (Function.update u.heap p (some n) q).or (rest q)
  by_cases hq : q = p
  · rw [hq, Function.update_self, Function.update_self]
    rfl
  · rw [Function.update_of_ne hq, Function.update_of_ne hq]
    rfl

omit [DecidableEq T] in
theorem overlay_access {k k' : ListItem → Sys T} (hfault : (u.access p k).fault = false)
    (huf : ∀ n, u.heap p = some n → k' n = overlay rest (k n)) :
    (overlay rest u).access p k' = overlay rest (u.access p k) := by
  cases hn : u.heap p with
  | none =>
    simp only [Sys.access, hn] at hfault
    cases hfault
  | some n =>
    simp only [Sys.access, hn, overlay_heap hn]
    exact huf n hn

end Htmsql.SharedSlots
