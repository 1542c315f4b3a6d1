import Mathlib.Logic.Function.Basic
import Mathlib.Data.List.Basic
import Htmsql.Lib.Run

/-!
# The events and mutexes of the operating system

The events, the slow mutexes (`os_ib_mutex_t`) and the fast mutexes of `os0sync.cc` from
`os_sync_init` to `os_sync_free`. Events and slow mutexes are in two lists, and all three kinds are
counted. `os_sync_mutex` guards the lists and the counts; it is a slow mutex with an event and a
fast mutex of its own, so that it is in the lists and in the counts itself. Calls come one after
another: `os_event_free_internal` changes the list of events without `os_sync_mutex`.

What the code must not do ends a call without a result: an assertion that fails, the use of memory
that is not allocated, of a fast mutex that is not initialized, the destruction of a locked one, a
wait for a mutex that is locked, the removal of a node from a list that it is not in, a count below
zero. The counts are less than the bytes of memory and do not overflow.
-/

namespace Htmsql.OsSync

variable {Ptr : Type}

/-- Where a fast mutex lies: in an event, at the `handle` of a slow mutex, or in other memory. -/
inductive Place (Ptr : Type) where
  | event (event : Ptr)
  | handle (mutex : Ptr)
  | other (fastMutex : Ptr)
  deriving DecidableEq

/-- The fields of an event; its fast mutex is in a place of its own. -/
structure Event where
  /-- `cond_var` is initialized -/
  condVar : Bool
  isSet : Bool
  signalCount : Nat
  deriving DecidableEq

/-- The fields of an `os_mutex_t`: the event that belongs to it and how often it is entered. -/
structure OsMutex (Ptr : Type) where
  event : Ptr
  count : Nat
  deriving DecidableEq

/-- What `os_sync_mutex` guards. -/
@[ext]
structure Lists (Ptr : Type) where
  osEventList : List Ptr
  osMutexList : List Ptr
  osEventCount : Nat
  osMutexCount : Nat
  osFastMutexCount : Nat
  deriving DecidableEq

/-- `lost` and `others` are ghosts: how many events `os_sync_init` has found in the list, and the
fast mutexes that lie in other memory. -/
structure State (Ptr : Type) where
  lists : Lists Ptr
  osSyncMutex : Option Ptr
  osSyncMutexInited : Bool
  osSyncFreeCalled : Bool
  /-- the events that are allocated -/
  events : Ptr → Option Event
  /-- the slow mutexes that are allocated -/
  mutexes : Ptr → Option (OsMutex Ptr)
  /-- the fast mutexes that are initialized, and whether they are locked -/
  fastMutexes : Place Ptr → Option Bool
  lost : Nat
  others : List Ptr

/-- The variables as the program starts: nothing created and nothing in the lists. -/
def State.initial : State Ptr where
  lists := ⟨[], [], 0, 0, 0⟩
  osSyncMutex := none
  osSyncMutexInited := false
  osSyncFreeCalled := false
  events _ := none
  mutexes _ := none
  fastMutexes _ := none
  lost := 0
  others := []

variable [DecidableEq Ptr]

/-- `UT_LIST_REMOVE` -/
def remove (p : Ptr) (l : List Ptr) : Option (List Ptr) :=
  if p ∈ l then some (l.erase p) else none

/-- `ut_ad(n > 0)` and the decrement of a count. -/
def decrement (n : Nat) : Option Nat :=
  if 0 < n then some (n - 1) else none

namespace State

/-- The fast mutex at a place is created, locked, unlocked or destroyed. -/
@[simp]
def setFastMutex (s : State Ptr) (p : Place Ptr) (v : Option Bool) : State Ptr :=
  { s with fastMutexes := Function.update s.fastMutexes p v }

/-- The event at an address is changed or freed. -/
@[simp]
def setEvent (s : State Ptr) (event : Ptr) (v : Option Event) : State Ptr :=
  { s with events := Function.update s.events event v }

/-- The mutex at an address is changed or freed. -/
@[simp]
def setMutex (s : State Ptr) (mutex : Ptr) (v : Option (OsMutex Ptr)) : State Ptr :=
  { s with mutexes := Function.update s.mutexes mutex v }

/-- A change of the lists and counts, `none` where an assertion about them fails. -/
def modifyLists (f : Lists Ptr → Option (Lists Ptr)) (s : State Ptr) : Option (State Ptr) :=
  (f s.lists).map fun l => { s with lists := l }

end State

/-- `os_fast_mutex_lock` of a mutex that is there and free. A thread alone would wait for ever for
one that it has locked itself. -/
def osFastMutexLock (p : Place Ptr) (s : State Ptr) : Option (State Ptr) :=
  if s.fastMutexes p = some false then some (s.setFastMutex p (some true)) else none

/-- `os_fast_mutex_unlock` of a mutex that is locked. -/
def osFastMutexUnlock (p : Place Ptr) (s : State Ptr) : Option (State Ptr) :=
  if s.fastMutexes p = some true then some (s.setFastMutex p (some false)) else none

/-- `os_mutex_enter` locks the fast mutex, and the count becomes 1: `ut_a(mutex->count == 1)`. -/
def osMutexEnter (mutex : Ptr) (s : State Ptr) : Option (State Ptr) := do
  let m ← s.mutexes mutex
  let s ← osFastMutexLock (.handle mutex) s
  let s := s.setMutex mutex (some { m with count := m.count + 1 })
  if m.count + 1 = 1 then some s else none

/-- `os_mutex_exit`, with `ut_a(mutex->count == 1)` before the count goes back to 0. -/
def osMutexExit (mutex : Ptr) (s : State Ptr) : Option (State Ptr) := do
  let m ← s.mutexes mutex
  if m.count = 1 then
    osFastMutexUnlock (.handle mutex) (s.setMutex mutex (some { m with count := m.count - 1 }))
  else none

/-- Between `os_mutex_enter(os_sync_mutex)` and `os_mutex_exit(os_sync_mutex)`. -/
def underSync (f : Lists Ptr → Option (Lists Ptr)) (s : State Ptr) : Option (State Ptr) := do
  let s ← s.osSyncMutex.bind fun mutex => osMutexEnter mutex s
  let s ← s.modifyLists f
  s.osSyncMutex.bind fun mutex => osMutexExit mutex s

/-- The same where the source reserves `os_sync_mutex` only on a condition. -/
def underSyncIf (reserve : Bool) (f : Lists Ptr → Option (Lists Ptr)) (s : State Ptr) :
    Option (State Ptr) :=
  if reserve then underSync f s else s.modifyLists f

/-- `os_fast_mutex_init_func`, which counts the new mutex under `os_sync_mutex` once that is
there. -/
def osFastMutexInit (p : Place Ptr) (s : State Ptr) : Option (State Ptr) :=
  underSyncIf s.osSyncMutexInited
    (fun l => some { l with osFastMutexCount := l.osFastMutexCount + 1 })
    (s.setFastMutex p (some false))

/-- `os_fast_mutex_free_func` of a mutex that is not locked, which is then not counted any more. -/
def osFastMutexFree (p : Place Ptr) (s : State Ptr) : Option (State Ptr) :=
  if s.fastMutexes p = some false then
    underSyncIf s.osSyncMutexInited
      (fun l => (decrement l.osFastMutexCount).map fun n => { l with osFastMutexCount := n })
      (s.setFastMutex p none)
  else none

/-- The new event is at `event`. It starts to be counted at 1, because 0 stands for no count. -/
def osEventCreate (event : Ptr) (s : State Ptr) : Option (State Ptr) := do
  let s ← osFastMutexInit (.event event) s
  let s := s.setEvent event (some ⟨true, false, 1⟩)
  underSyncIf s.osSyncMutex.isSome
    (fun l => some
      { l with osEventList := event :: l.osEventList, osEventCount := l.osEventCount + 1 }) s

/-- `os_event_set` under the fast mutex of the event; a broadcast has nobody to wake here. -/
def osEventSet (event : Ptr) (s : State Ptr) : Option (State Ptr) := do
  let s ← osFastMutexLock (.event event) s
  let e ← s.events event
  let s := if e.isSet then s else
    s.setEvent event (some { e with isSet := true, signalCount := e.signalCount + 1 })
  osFastMutexUnlock (.event event) s

/-- The state is returned, and the signal count. -/
def osEventReset (event : Ptr) (s : State Ptr) : Option (State Ptr × Nat) := do
  let s ← osFastMutexLock (.event event) s
  let e ← s.events event
  let s := if e.isSet then s.setEvent event (some { e with isSet := false }) else s
  let s ← osFastMutexUnlock (.event event) s
  return (s, e.signalCount)

/-- `os_fast_mutex_free` and `os_cond_destroy`. -/
def osEventDestroy (event : Ptr) (s : State Ptr) : Option (State Ptr) := do
  let s ← osFastMutexFree (.event event) s
  let e ← s.events event
  if e.condVar then some (s.setEvent event (some { e with condVar := false })) else none

/-- The event leaves the list. -/
def unlinkEvent (event : Ptr) (l : Lists Ptr) : Option (Lists Ptr) := do
  let list ← remove event l.osEventList
  let n ← decrement l.osEventCount
  return { l with osEventList := list, osEventCount := n }

/-- `os_event_free_internal`, for a caller that has `os_sync_mutex`. -/
def osEventFreeInternal (event : Ptr) (s : State Ptr) : Option (State Ptr) := do
  let s ← osEventDestroy event s
  let s ← s.modifyLists (unlinkEvent event)
  return s.setEvent event none

/-- `os_event_free`, which takes `os_sync_mutex` for the list. -/
def osEventFree (event : Ptr) (s : State Ptr) : Option (State Ptr) := do
  let s ← osEventDestroy event s
  let s ← underSync (unlinkEvent event) s
  return s.setEvent event none

/-- The new mutex is at `mutex`, its event at `event`. -/
def osMutexCreate (mutex event : Ptr) (s : State Ptr) : Option (State Ptr) := do
  let s ← osFastMutexInit (.handle mutex) s
  let s ← osEventCreate event s
  let s := s.setMutex mutex (some ⟨event, 0⟩)
  underSyncIf s.osSyncMutexInited
    (fun l => some
      { l with osMutexList := mutex :: l.osMutexList, osMutexCount := l.osMutexCount + 1 }) s

/-- The mutex leaves the list. -/
def unlinkMutex (mutex : Ptr) (l : Lists Ptr) : Option (Lists Ptr) := do
  let list ← remove mutex l.osMutexList
  let n ← decrement l.osMutexCount
  return { l with osMutexList := list, osMutexCount := n }

/-- `os_mutex_free`. While `os_sync_free` runs, the event of the mutex is gone already. -/
def osMutexFree (mutex : Ptr) (s : State Ptr) : Option (State Ptr) := do
  let m ← s.mutexes mutex
  let s ← if s.osSyncFreeCalled then some s else osEventFreeInternal m.event s
  let s ← underSyncIf s.osSyncMutexInited (unlinkMutex mutex) s
  let s ← osFastMutexFree (.handle mutex) s
  return s.setMutex mutex none

/-- The new `os_sync_mutex` is at `mutex`, its event at `event`. -/
def osSyncInit (mutex event : Ptr) (s : State Ptr) : Option (State Ptr) := do
  let s := { s with
    lists := { s.lists with osEventList := [], osMutexList := [] }
    osSyncMutex := none
    osSyncMutexInited := false }
  let s ← osMutexCreate mutex event s
  return { s with osSyncMutex := some mutex, osSyncMutexInited := true }

/-- The first loop of `os_sync_free`, with a bound on its iterations. -/
def freeEvents : Nat → State Ptr → Option (State Ptr)
  | 0, s => if s.lists.osEventList = [] then some s else none
  | n + 1, s =>
    match s.lists.osEventList with
    | [] => some s
    | event :: _ => (osEventFree event s).bind (freeEvents n)

/-- The second loop. -/
def freeMutexes : Nat → State Ptr → Option (State Ptr)
  | 0, s => if s.lists.osMutexList = [] then some s else none
  | n + 1, s =>
    match s.lists.osMutexList with
    | [] => some s
    | mutex :: _ =>
      let s := if some mutex = s.osSyncMutex then { s with osSyncMutexInited := false } else s
      (osMutexFree mutex s).bind (freeMutexes n)

/-- `os_sync_free` frees the events, then the mutexes, in the order of the lists. -/
def osSyncFree (s : State Ptr) : Option (State Ptr) := do
  let s := { s with osSyncFreeCalled := true }
  let s ← freeEvents s.lists.osEventList.length s
  let s ← freeMutexes s.lists.osMutexList.length s
  return { s with osSyncFreeCalled := false }

/-- The calls of the rest of the server, with the memory that `ut_malloc` returns. -/
inductive Call (Ptr : Type) where
  | syncInit (mutex event : Ptr)
  | syncFree
  | eventCreate (event : Ptr)
  | eventSet (event : Ptr)
  | eventReset (event : Ptr)
  | eventFree (event : Ptr)
  | mutexCreate (mutex event : Ptr)
  | mutexEnter (mutex : Ptr)
  | mutexExit (mutex : Ptr)
  | mutexFree (mutex : Ptr)
  | fastMutexInit (fastMutex : Ptr)
  | fastMutexLock (fastMutex : Ptr)
  | fastMutexUnlock (fastMutex : Ptr)
  | fastMutexFree (fastMutex : Ptr)

/-- One call; the ghosts follow it. -/
def call (s : State Ptr) : Call Ptr → Option (State Ptr)
  | .syncInit mutex event =>
    (osSyncInit mutex event s).map fun s' =>
      { s' with lost := s.lost + s.lists.osEventList.length }
  | .syncFree => osSyncFree s
  | .eventCreate event => osEventCreate event s
  | .eventSet event => osEventSet event s
  | .eventReset event => (osEventReset event s).map Prod.fst
  | .eventFree event => osEventFree event s
  | .mutexCreate mutex event => osMutexCreate mutex event s
  | .mutexEnter mutex => osMutexEnter mutex s
  | .mutexExit mutex => osMutexExit mutex s
  | .mutexFree mutex => osMutexFree mutex s
  | .fastMutexInit p =>
    (osFastMutexInit (.other p) s).map fun s' => { s' with others := p :: s.others }
  | .fastMutexLock p => osFastMutexLock (.other p) s
  | .fastMutexUnlock p => osFastMutexUnlock (.other p) s
  | .fastMutexFree p =>
    (osFastMutexFree (.other p) s).map fun s' => { s' with others := s.others.erase p }

/-- The slow mutex is in the list and not `os_sync_mutex`. -/
def State.Owned (s : State Ptr) (mutex : Ptr) : Prop :=
  mutex ∈ s.lists.osMutexList ∧ s.osSyncMutex ≠ some mutex

/-- The event in a slow mutex. -/
def State.eventOf (s : State Ptr) (mutex : Ptr) : Option Ptr :=
  (s.mutexes mutex).map OsMutex.event

/-- Which calls the server may make: `ut_malloc` returns memory that is not allocated; events may be
created before `os_sync_init`, but not after `os_sync_free`; what is used has been created and not
been freed; what is freed is not locked, and the event of a mutex is left to `os_mutex_free`. -/
def Admitted (s : State Ptr) : Call Ptr → Prop
  | .syncInit mutex event =>
    s.osSyncMutexInited = false ∧ s.mutexes mutex = none ∧ s.events event = none
  | .syncFree =>
    s.osSyncMutexInited = true ∧
      ∀ mutex ∈ s.lists.osMutexList, s.fastMutexes (.handle mutex) = some false
  | .eventCreate event =>
    s.events event = none ∧ s.osSyncMutex.isSome = s.osSyncMutexInited
  | .eventSet event => event ∈ s.lists.osEventList
  | .eventReset event => event ∈ s.lists.osEventList
  | .eventFree event =>
    s.osSyncMutexInited = true ∧ event ∈ s.lists.osEventList ∧
      ∀ mutex ∈ s.lists.osMutexList, s.eventOf mutex ≠ some event
  | .mutexCreate mutex event =>
    s.osSyncMutexInited = true ∧ s.mutexes mutex = none ∧ s.events event = none
  | .mutexEnter mutex => s.Owned mutex ∧ s.fastMutexes (.handle mutex) = some false
  | .mutexExit mutex => s.Owned mutex ∧ s.fastMutexes (.handle mutex) = some true
  | .mutexFree mutex => s.Owned mutex ∧ s.fastMutexes (.handle mutex) = some false
  | .fastMutexInit p => s.fastMutexes (.other p) = none
  | .fastMutexLock p => s.fastMutexes (.other p) = some false
  | .fastMutexUnlock p => s.fastMutexes (.other p) = some true
  | .fastMutexFree p => s.fastMutexes (.other p) = some false

instance (s : State Ptr) (c : Call Ptr) : Decidable (Admitted s c) :=
  match c with
  | .syncInit .. | .syncFree | .eventFree _ | .mutexCreate .. => inferInstanceAs (Decidable (_ ∧ _))
  | .eventCreate _ => inferInstanceAs (Decidable (_ ∧ _))
  | .eventSet _ | .eventReset _ => inferInstanceAs (Decidable (_ ∈ _))
  | .mutexEnter _ | .mutexExit _ | .mutexFree _ =>
    inferInstanceAs (Decidable ((_ ∧ ¬ _ = _) ∧ _ = _))
  | .fastMutexInit _ | .fastMutexLock _ | .fastMutexUnlock _ | .fastMutexFree _ =>
    inferInstanceAs (Decidable (_ = _))

/-- A state that admitted calls lead to from the start of the program. -/
def Reachable (s : State Ptr) : Prop :=
  Run.Reach call (fun s => s = State.initial) Admitted s

end Htmsql.OsSync
