import Htmsql.Lib.NextFit
import Htmsql.ThreadsafeList.Machine

/-!
# `List` and its allocators

The functions of `src/hle/list/List.cpp`, called one after the other, over an allocator. A result
`none` means that the function does not return: it accesses an item that is not there, the process
ends in the allocator, or a loop takes more rounds than the bound `fuel` that is given to it.

`DefaultAllocator` calls `new` and `delete`. Which address `new` returns is not known, except that
it is not in use (`New`); an access to an item that has been deleted is an access to nothing.
`PreAllocator` takes its items from an array of 10000 that exist for ever; an item counts as free if
its data is -1.
-/

namespace Htmsql.LinkedList

open ThreadsafeList (Ptr ListItem)

/-- The items in memory, at their addresses. -/
abbrev Heap := Ptr → Option ListItem

/-- The two functions of an `Allocator`, on the memory and on the members of the allocator. -/
structure Allocator (M : Type) where
  createListItem : ℤ → Option Ptr → Option Ptr → Heap → M → Option (Ptr × Heap × M)
  deleteListItem : Option Ptr → Heap → M → Option (Heap × M)

/-! ## `DefaultAllocator` -/

/-- The addresses that `new` returns, by the number of its call and the addresses in use. -/
structure New where
  choose : ℕ → List Ptr → Ptr
  fresh : ∀ n used, choose n used ∉ used

/-- What the default allocator goes through: the calls of `new` so far and the addresses in use. -/
structure Default where
  calls : ℕ
  /-- the addresses in use -/
  used : List Ptr
  /-- the items that have been passed to `deleteListItem`; a ghost -/
  deleted : List Ptr

/-- `DefaultAllocator`: an item is `new`, and deleting one that is not in use is an error. -/
def defaultAllocator (new : New) : Allocator Default where
  createListItem data prev next heap own :=
    let item := new.choose own.calls own.used
    some (item, Function.update heap item (some ⟨data, prev, next⟩),
      { own with calls := own.calls + 1, used := item :: own.used })
  deleteListItem item heap own :=
    match item with
    | none => some (heap, own)
    | some item =>
      if item ∈ own.used then
        some (Function.update heap item none,
          { own with used := own.used.erase item, deleted := own.deleted ++ [item] })
      else none

/-! ## `PreAllocator` -/

/-- `allocations_size`, the number of items that a `PreAllocator` has. -/
def allocationsSize : ℕ := 10000

/-- An item is free if its data is -1. -/
def isFree (heap : Heap) (slot : ℕ) : Bool :=
  match heap slot with
  | some item => item.data = -1
  | none => false

/-- The address of an item is its index in `allocations`; the allocator's own member is
`last_allocation_slot`. -/
def preAllocator (size : ℕ) : Allocator ℤ where
  createListItem data prev next heap lastAllocationSlot :=
    match NextFit.search (isFree heap) size lastAllocationSlot size lastAllocationSlot with
    | some (.found slot) => some (slot, Function.update heap slot (some ⟨data, prev, next⟩), slot)
    -- `exit(1)`
    | some .exhausted => none
    | none => none
  deleteListItem item heap lastAllocationSlot :=
    match item with
    -- `item->data = -1`
    | some item =>
      (heap item).map fun n =>
        (Function.update heap item (some { n with data := -1 }), lastAllocationSlot)
    | none => none

/-- The items after the constructor of a `PreAllocator`. -/
def dummies (size : ℕ) : Heap := fun slot => if slot < size then some ⟨-1, none, none⟩ else none

/-! ## `List` -/

/-- A list: the memory, what its allocator keeps, and the two ends. -/
structure State (M : Type) where
  heap : Heap
  own : M
  first : Option Ptr
  last : Option Ptr

variable {M : Type}

/-- The constructor, which makes an empty list. -/
def newList (heap : Heap) (own : M) : State M := ⟨heap, own, none, none⟩

/-- A write to the item at `p`. -/
def State.write (s : State M) (p : Ptr) (f : ListItem → ListItem) : Option (State M) :=
  (s.heap p).map fun n => { s with heap := Function.update s.heap p (some (f n)) }

/-- A write behind `if (p != NULL)`. -/
def State.writeIf (s : State M) (p : Option Ptr) (f : ListItem → ListItem) : Option (State M) :=
  match p with
  | some p => s.write p f
  | none => some s

/-- The item is linked behind the last one. -/
def insertTail (item : Ptr) (s : State M) : Option (State M) := do
  let s ← s.write item (·.setPrev s.last)
  let s ← s.writeIf s.last (·.setNext (some item))
  let s := { s with last := some item }
  return { s with first := if s.first = none then some item else s.first }

/-- `insert` allocates an item for the data and links it at the tail. -/
def insert (a : Allocator M) (data : ℤ) (s : State M) : Option (Ptr × State M) := do
  let (item, heap, own) ← a.createListItem data none none s.heap s.own
  let s ← insertTail item { s with heap := heap, own := own }
  return (item, s)

/-- The neighbours are linked past the item and the ends are moved; NULL is left alone. -/
def removeFromList (item : Option Ptr) (s : State M) : Option (State M) :=
  match item with
  | none => some s
  | some item => do
    let ⟨_, prev, next⟩ ← s.heap item
    let s := { s with first := if some item = s.first then next else s.first }
    let s := { s with last := if some item = s.last then prev else s.last }
    let s ← s.writeIf next (·.setPrev prev)
    s.writeIf prev (·.setNext next)

/-- The loop of `get`, from `item` on. -/
def getLoop (heap : Heap) (data : ℤ) : ℕ → Option Ptr → Option (Option Ptr)
  | _, none => some none
  | 0, some _ => none
  | fuel + 1, some item => do
    let n ← heap item
    if n.data = data then return some item else getLoop heap data fuel n.next

/-- `get`, the first item with the data, or NULL. -/
def get (fuel : ℕ) (data : ℤ) (s : State M) : Option (Option Ptr) :=
  getLoop s.heap data fuel s.first

/-- The item goes back to the allocator. -/
def deleteItem (a : Allocator M) (item : Option Ptr) (s : State M) : Option (State M) := do
  let (heap, own) ← a.deleteListItem item s.heap s.own
  return { s with heap := heap, own := own }

/-- `remove(ListItem *)` -/
def removeItem (a : Allocator M) (item : Option Ptr) (s : State M) : Option (State M) :=
  match item with
  | none => some s
  | some item => do
    let s ← removeFromList (some item) s
    deleteItem a (some item) s

/-- `remove(int)` -/
def remove (a : Allocator M) (fuel : ℕ) (data : ℤ) (s : State M) : Option (State M) := do
  -- `findAndRemoveFromList`
  let item ← get fuel data s
  let s ← removeFromList item s
  deleteItem a item s

/-- `contains` says with 1 or 0 whether `get` finds the data. -/
def contains (fuel : ℕ) (data : ℤ) (s : State M) : Option ℕ := do
  let item ← get fuel data s
  return if item ≠ none then 1 else 0

/-- The loop of `size`, from `item` on. -/
def sizeLoop (heap : Heap) : ℕ → ℕ → Option Ptr → Option ℕ
  | _, count, none => some count
  | 0, _, some _ => none
  | fuel + 1, count, some item => do
    let n ← heap item
    sizeLoop heap fuel (count + 1) n.next

/-- `size` counts the items from the head on. The count is an `int`, here a number without bound:
the lists have fewer than 2^31 items. -/
def size (fuel : ℕ) (s : State M) : Option ℕ := sizeLoop s.heap fuel 0 s.first

/-- The loop of the destructor, which deletes an item after it has read where the next one is. -/
def deleteAll (a : Allocator M) : ℕ → Option Ptr → State M → Option (State M)
  | _, none, s => some s
  | 0, some _, _ => none
  | fuel + 1, some list, s => do
    let n ← s.heap list
    let s ← deleteItem a (some list) s
    deleteAll a fuel n.next s

/-- `~List` -/
def destroy (a : Allocator M) (fuel : ℕ) (s : State M) : Option (State M) := do
  let s ← deleteAll a fuel s.first s
  return { s with first := none, last := none }

/-- The operations of the list that take data. -/
inductive Op where
  | insert (data : ℤ)
  | remove (data : ℤ)
  | contains (data : ℤ)
  | size
  deriving DecidableEq, Repr

/-- What an operation returns: an item, nothing or a number. -/
inductive Ret where
  | item (p : Ptr)
  | void
  | int (n : ℕ)
  deriving DecidableEq, Repr

/-- One operation; `none` where the code follows a pointer to nothing, the allocator fails or the
fuel is used up. -/
def Op.run (a : Allocator M) (fuel : ℕ) (s : State M) : Op → Option (Ret × State M)
  | insert data => (LinkedList.insert a data s).map fun (item, s) => (.item item, s)
  | remove data => (LinkedList.remove a fuel data s).map fun s => (.void, s)
  | contains data => (LinkedList.contains fuel data s).map fun n => (.int n, s)
  | size => (LinkedList.size fuel s).map fun n => (.int n, s)

end Htmsql.LinkedList
