import Htmsql.LockType.Exclusion

/-!
# The lock object of `HashMap-global.cpp`

All maps of `HashMap-global.cpp` lock the object `locker`; `globalLock` of
`GlobalThreadsafeCounter.cpp` is the same for the counters. Every constructor assigns it the
`LockType` it is given, field after field: the two member pointers, the two functions that they
call, the pthread mutex and the word. `HashMapRtm` gives `LockType::NONE`.

A call reads `locker.lock`, runs what it points to, runs its section, and then reads
`locker.unlock`. In `rtm_lock_smart` every transaction that starts is aborted, since `mutex != 0`
compares the pointer; the function ends in `atomic_exch_lock_spec`, and `rtm_unlock_smart` in
`atomic_exch_unlock_spec`. The lock functions with an HLE prefix are what they are without it.
-/

namespace Htmsql.GlobalLock

open LockType (EnumType Word Local Code)

/-- What a member pointer `lock` or `unlock` points to. -/
inductive Member where
  /-- `no_lock`, `no_unlock` -/
  | no
  /-- `pthread_lock`, `pthread_unlock` -/
  | pthread
  /-- `type_lock`, `type_unlock` -/
  | type
  deriving DecidableEq, Repr

/-- A `LockType`; its two functions are named by the type whose functions they are. -/
structure Object (T : Type) where
  lock : Option Member
  unlock : Option Member
  typeLockFunction : Option EnumType
  typeUnlockFunction : Option EnumType
  /-- the owner of `p_mutex` -/
  pMutex : Option T
  typeMutex : Word

/-- The members of a `LockType` that an assignment copies. -/
inductive Field where
  | lock | unlock | typeLockFunction | typeUnlockFunction | pMutex | typeMutex
  deriving DecidableEq, Repr

/-- The members in the order in which they are copied, that of their declarations. -/
def fields : List Field :=
  [.lock, .unlock, .typeLockFunction, .typeUnlockFunction, .pMutex, .typeMutex]

/-- The pair of member functions that `LockType::init` takes for a type. -/
def memberOf : EnumType → Member
  | .none => .no
  | .pthread => .pthread
  | _ => .type

/-- `LockType::init` leaves the functions of `NONE` and `PTHREAD` unset. -/
def functionOf (k : EnumType) : Option EnumType :=
  match memberOf k with
  | .type => some k
  | .no | .pthread => none

variable {T : Type}

/-- The `LockType` of a type as its constructor makes it, which the constructors of maps and
counters are given. -/
def Object.fresh (k : EnumType) : Object T :=
  ⟨some (memberOf k), some (memberOf k), functionOf k, functionOf k, none, 0⟩

/-- One field of the assignment `locker = _locker`. -/
def Object.assign (o src : Object T) : Field → Object T
  | .lock => { o with lock := src.lock }
  | .unlock => { o with unlock := src.unlock }
  | .typeLockFunction => { o with typeLockFunction := src.typeLockFunction }
  | .typeUnlockFunction => { o with typeUnlockFunction := src.typeUnlockFunction }
  | .pMutex => { o with pMutex := src.pMutex }
  | .typeMutex => { o with typeMutex := src.typeMutex }

/-- The spin lock that the functions of a type run in the end. -/
def spinOf (k : EnumType) : Option EnumType :=
  if k = .rtmSmart then some .atomicExchSpec
  else if k.typeLockFunction.isSome then some k
  else none

/-- The types that a map or a counter is given. -/
def locking (k : EnumType) : Bool := decide (k = .pthread) || (spinOf k).isSome

/-- `max_retries` of `rtm_lock_smart` -/
def maxRetries : Nat := 10000000

/-- The points of a thread: in a constructor, in a lock function, inside, in an unlock function or
outside of all. -/
inductive Thread where
  | outside
  /-- in a constructor, with the fields that it has still to assign -/
  | constructing (k : EnumType) (todo : List Field)
  /-- in `pthread_mutex_lock` -/
  | pthreadLock
  /-- in `type_lock`, before it reads the function -/
  | typeLock
  /-- in `rtm_lock_smart`, before `_xbegin` -/
  | attempting (failures : Nat)
  | locking (k : EnumType) (l : Local)
  /-- in the section, which the member function `by` has opened -/
  | inside (m : Member)
  | pthreadUnlock (m : Member)
  | typeUnlock (m : Member)
  | unlocking (m : Member) (k : EnumType) (l : Local)
  deriving DecidableEq, Repr

/-- How the thread got into its section; it is inside until what it has acquired is released. -/
def Thread.acquired : Thread → Option Member
  | locking _ l => if l.acquired then some .type else none
  | inside m | pthreadUnlock m | typeUnlock m => some m
  | unlocking m _ l => if l.acquired then some m else none
  | _ => none

/-- The member function of the call that the thread is in. -/
def Thread.calls : Thread → Option Member
  | pthreadLock => some .pthread
  | typeLock | attempting _ | locking _ _ => some .type
  | inside m | pthreadUnlock m | typeUnlock m => some m
  | unlocking m _ l => if l.acquired then some m else none
  | outside | constructing _ _ => none

/-- The lock that all maps and counters share, and the point of each thread. -/
structure Sys (T : Type) where
  locker : Object T
  /-- a constructor of a map or a counter has returned -/
  built : Bool
  thread : T → Thread

/-- What happens next: a constructor begins or goes on, or a thread locks, steps or unlocks. -/
inductive Act (T : Type) where
  | construct (t : T) (k : EnumType)
  /-- the next field -/
  | assign (t : T)
  /-- `(locker.*(locker.lock))()` -/
  | call (t : T)
  /-- the next step of the lock or unlock function -/
  | run (t : T)
  /-- `_xbegin` of `rtm_lock_smart`; `retry` says whether `code & 7` is not 0 -/
  | attempt (t : T) (retry : Bool)
  /-- `(locker.*(locker.unlock))()` -/
  | unlock (t : T)

/-- The lock before the first constructor has run. -/
def init : Sys T :=
  ⟨⟨none, none, none, none, none, 0⟩, false, fun _ => .outside⟩

variable [DecidableEq T]

/-- The thread goes on to another point. -/
def Sys.goto (s : Sys T) (t : T) (p : Thread) : Sys T :=
  { s with thread := Function.update s.thread t p }

/-- The shared lock is changed. -/
def Sys.setLocker (s : Sys T) (o : Object T) : Sys T := { s with locker := o }

/-- Where a call of the member function begins. -/
def enterMember : Member → Thread
  | .no => .inside .no
  | .pthread => .pthreadLock
  | .type => .typeLock

/-- The thread leaves its section. -/
def leaveMember (m : Member) : Member → Thread
  | .no => .outside
  | .pthread => .pthreadUnlock m
  | .type => .typeUnlock m

/-- One step of a function on the word; after the last one the thread is where `done` says. -/
def Sys.runCode (s : Sys T) (t : T) (code : Code) (l : Local) (cont : Local → Thread)
    (done : Thread) : Option (Sys T) :=
  code[l.pc]?.bind fun i =>
    if i = .ret then some (s.goto t done)
    else (i.exec s.locker.typeMutex l).map fun x =>
      (s.setLocker { s.locker with typeMutex := x.1 }).goto t (cont x.2)

/-- One step of a thread by its own code, `none` where it is blocked. -/
def Sys.run (s : Sys T) (t : T) : Option (Sys T) :=
  match s.thread t with
  | .pthreadLock =>
    if s.locker.pMutex = none then
      some ((s.setLocker { s.locker with pMutex := some t }).goto t (.inside .pthread))
    else none
  | .typeLock =>
    s.locker.typeLockFunction.bind fun k =>
      if k = .rtmSmart then some (s.goto t (.attempting 0))
      else if k.typeLockFunction.isSome then some (s.goto t (.locking k ⟨0, 0, 0, false⟩))
      else none
  | .locking k l =>
    k.typeLockFunction.bind fun code => s.runCode t code l (.locking k) (.inside .type)
  | .pthreadUnlock _ =>
    some ((s.setLocker { s.locker with pMutex := none }).goto t .outside)
  | .typeUnlock m =>
    (s.locker.typeUnlockFunction.bind spinOf).map fun k =>
      s.goto t (.unlocking m k ⟨0, 0, 0, true⟩)
  | .unlocking m k l =>
    k.typeUnlockFunction.bind fun code => s.runCode t code l (.unlocking m k) .outside
  | _ => none

/-- One step of the machine, `none` where the action is not possible. -/
def step (s : Sys T) : Act T → Option (Sys T)
  | .construct t k =>
    if s.thread t = .outside ∧ (locking k ∨ k = .none) then
      some (s.goto t (.constructing k fields))
    else none
  | .assign t =>
    match s.thread t with
    | .constructing k (f :: todo) =>
      some ((s.setLocker (s.locker.assign (.fresh k) f)).goto t (.constructing k todo))
    | .constructing k [] =>
      some { s.goto t .outside with built := s.built || locking k }
    | _ => none
  | .call t =>
    if s.thread t = .outside ∧ s.built then
      s.locker.lock.map fun m => s.goto t (enterMember m)
    else none
  | .run t => s.run t
  | .attempt t retry =>
    match s.thread t with
    | .attempting failures =>
      if retry ∧ failures + 1 ≤ maxRetries then some (s.goto t (.attempting (failures + 1)))
      else some (s.goto t (.locking .atomicExchSpec ⟨0, 0, 0, false⟩))
    | _ => none
  | .unlock t =>
    match s.thread t with
    | .inside m => s.locker.unlock.map fun m' => s.goto t (leaveMember m m')
    | _ => none

end Htmsql.GlobalLock
