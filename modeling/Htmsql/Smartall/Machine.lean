import Htmsql.Lib.Run
import Mathlib.Data.Finset.Basic
import Mathlib.Logic.Function.Basic

/-!
# Nested elision

The mutexes of `mysql-5.6.10-smartall` with `HAVE_HLE`: any number of threads enter and leave any
of the mutexes, and sections of different mutexes may overlap in any way. `mutex_spin_wait` of
this tree touches the lock word by `ib_mutex_test_and_set` only and returns once this has returned
0; a thread that has called `mutex_enter_func` is therefore a thread that will make the test and
set again until it succeeds. After the reset of the lock word `mutex_exit_func` touches no lock
word any more.

The hardware: an `XACQUIRE` exchange that finds the word 0 may start a transaction instead of
writing, and then the word is in the read set; the `XRELEASE` store to the same word commits. A
transaction buffers its stores and publishes them at the commit. It is aborted as soon as another
thread writes a word that it has read or written, or reads one that it has written, and perhaps at
any other moment; the thread is then back before the exchange that began the transaction.

`setter` is a ghost: no step depends on it.
-/

namespace Htmsql.Smartall

/-- A transaction that began with the elided exchange on `elided`. -/
structure Txn (M : Type) where
  elided : M
  /-- the sections that were open when it began -/
  outer : Finset M
  /-- the lock words that it has read, with the values -/
  reads : List (M × Nat)
  /-- its buffered stores to lock words -/
  buffer : M → Option Nat

/-- A thread: the mutex it is about to enter, those it is inside of, and its open transaction. -/
structure Thread (M : Type) where
  /-- the mutex whose `mutex_enter_func` the thread has called -/
  entering : Option M
  /-- the mutexes whose section the thread is in -/
  inside : Finset M
  txn : Option (Txn M)

/-- The lock words in memory and the threads. `setter` is a ghost. -/
structure Sys (T M : Type) where
  lockWord : M → Nat
  thread : T → Thread M
  /-- whose store has set the lock word -/
  setter : M → Option T

/-- What happens next: a call, the test-and-set inside it, or an abort. -/
inductive Act (T M : Type) where
  | enter (t : T) (m : M)
  /-- `ib_mutex_test_and_set`; `elide` is the choice of the hardware -/
  | testAndSet (t : T) (elide : Bool)
  | exit (t : T) (m : M)
  | abort (t : T)

variable {T M : Type}

/-- The sections that the thread has entered and not left, as the other threads see it. -/
def Thread.committed (th : Thread M) : Finset M :=
  match th.txn with
  | some x => x.outer
  | none => th.inside

/-- The thread after an abort: where its outermost elided test-and-set began. -/
def Thread.rollback (th : Thread M) : Thread M :=
  match th.txn with
  | some x => { entering := some x.elided, inside := x.outer, txn := none }
  | none => th

variable [DecidableEq M]

/-- The transaction has read the word of the mutex from memory. -/
def Txn.hasRead (x : Txn M) (m : M) : Bool := decide (m ∈ x.reads.map Prod.fst)

omit [DecidableEq M] in
/-- The transaction has a value for the word in its buffer. -/
def Txn.hasWritten (x : Txn M) (m : M) : Bool := (x.buffer m).isSome

/-- A read of the word by another thread aborts the transaction. -/
def readConflict (m : M) (x : Txn M) : Bool := x.hasWritten m

/-- A write of the word by another thread aborts the transaction. -/
def writeConflict (m : M) (x : Txn M) : Bool := x.hasRead m || x.hasWritten m

/-- `__hle_acquire_test_and_set4` returns `__hle_acquire_exchange_n4(ptr, 1) == 1`. -/
def Thread.afterExchange (th : Thread M) (m : M) (old : Nat) : Thread M :=
  if old = 1 then th else { th with entering := none, inside := insert m th.inside }

variable [DecidableEq T]

omit [DecidableEq M] in
/-- The transactions of other threads that `conflict` selects are aborted. -/
def Sys.abortOthers (s : Sys T M) (t : T) (conflict : Txn M → Bool) : Sys T M :=
  { s with
    thread := fun u =>
      if u ≠ t ∧ (s.thread u).txn.any conflict = true then (s.thread u).rollback else s.thread u }

omit [DecidableEq M] in
/-- One thread is replaced, everything else stays. -/
def Sys.setThread (s : Sys T M) (t : T) (th : Thread M) : Sys T M :=
  { s with thread := Function.update s.thread t th }

/-- A store to the lock word in memory. -/
def Sys.store (s : Sys T M) (t : T) (m : M) (v : Nat) : Sys T M :=
  { s with
    lockWord := Function.update s.lockWord m v
    setter := Function.update s.setter m (if v = 0 then none else some t) }

omit [DecidableEq M] in
/-- The stores of the transaction become visible. -/
def Sys.publish (s : Sys T M) (t : T) (x : Txn M) : Sys T M :=
  { s with
    lockWord := fun m => (x.buffer m).getD (s.lockWord m)
    setter := fun m =>
      match x.buffer m with
      | some v => if v = 0 then none else some t
      | none => s.setter m }

/-- `ib_mutex_test_and_set` inside a transaction. -/
def Sys.testAndSetInside (s : Sys T M) (t : T) (m : M) (x : Txn M) : Sys T M :=
  let th := s.thread t
  let w := (x.buffer m).getD (s.lockWord m)
  let x' := { x with reads := (m, w) :: x.reads }
  if w ≠ 98789347 then
    (s.abortOthers t (readConflict m)).setThread t
      { entering := none, inside := insert m th.inside, txn := some x' }
  else
    (s.abortOthers t (writeConflict m)).setThread t
      ({ th with txn := some { x' with buffer := Function.update x.buffer m (some 1) } }.afterExchange
        m w)

/-- The exchange of `ib_mutex_test_and_set` outside a transaction. Only a successful one is
elided. A failed one writes the 1 that is there already. -/
def Sys.testAndSetOutside (s : Sys T M) (t : T) (m : M) (elide : Bool) : Option (Sys T M) :=
  let th := s.thread t
  if elide = true then
    if s.lockWord m = 0 then
      some ((s.abortOthers t (readConflict m)).setThread t
        { entering := none
          inside := insert m th.inside
          txn := some ⟨m, th.inside, [(m, 0)], fun _ => none⟩ })
    else none
  else
    let s' := if s.lockWord m = 1 then s else s.store t m 1
    some ((s'.abortOthers t (writeConflict m)).setThread t (th.afterExchange m (s.lockWord m)))

/-- `mutex_reset_lock_word`: the `XRELEASE` store of 0. -/
def Sys.resetLockWord (s : Sys T M) (t : T) (m : M) : Sys T M :=
  let th := s.thread t
  match th.txn with
  | none =>
    ((s.store t m 0).abortOthers t (writeConflict m)).setThread t
      { th with inside := th.inside.erase m }
  | some x =>
    if m = x.elided then
      (s.publish t x).setThread t { th with inside := th.inside.erase m, txn := none }
    else
      (s.abortOthers t (writeConflict m)).setThread t
        { th with
          inside := th.inside.erase m
          txn := some { x with buffer := Function.update x.buffer m (some 0) } }

/-- A thread enters no mutex that it is in, and leaves only one that it is in. -/
def step (s : Sys T M) : Act T M → Option (Sys T M)
  | .enter t m =>
    if (s.thread t).entering = none ∧ m ∉ (s.thread t).inside then
      some (s.setThread t { s.thread t with entering := some m })
    else none
  | .testAndSet t elide =>
    (s.thread t).entering.bind fun m =>
      match (s.thread t).txn with
      | some x => some (s.testAndSetInside t m x)
      | none => s.testAndSetOutside t m elide
  | .exit t m =>
    if (s.thread t).entering = none ∧ m ∈ (s.thread t).inside then some (s.resetLockWord t m)
    else none
  | .abort t =>
    if (s.thread t).txn.isSome then some (s.setThread t (s.thread t).rollback) else none

omit [DecidableEq T] [DecidableEq M] in
/-- All words 0, and no thread inside or in a transaction. -/
def init : Sys T M where
  lockWord _ := 0
  thread _ := ⟨none, ∅, none⟩
  setter _ := none

end Htmsql.Smartall
