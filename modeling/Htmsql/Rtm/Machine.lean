import Htmsql.Innodb.MutexCode
import Htmsql.Lib.Trace

/-!
# A mutex with `rtm_lock`

The transactional mutex of the trees `mysql-5.6.10-trx_lock_func-rtm` and
`mysql-5.6.10-syslock-rtm`: any number of threads run critical sections on one `ib_mutex_t`,
entered by `rtm_mutex_enter` and left by `rtm_mutex_exit`, or entered by `mutex_enter` and left
by `mutex_exit`. The two trees share all of this except `rtm_lock`: they differ in the retry
budget, and only the second reads the lock word inside the transaction (`Variant`).

Inside its section a thread reads and writes shared data as it likes. Memory is sequentially
consistent. The hardware is taken as follows: a transaction buffers its writes and publishes
them at `_xend`; it is aborted as soon as another thread writes a location it has read or
written, or reads one it has written; it may also be aborted at any other moment. An abort
restores memory and locals, and `_xbegin` then returns an abort code.

`trace`, `log` and the field `overlap` of a transaction are ghosts: no step depends on them.
-/

namespace Htmsql.Rtm

open Innodb Trace

/-- What distinguishes the two versions of `rtm_lock`. -/
structure Variant where
  maxRetries : Nat
  /-- the transaction reads the lock word and aborts itself when the mutex is set -/
  readsLockWord : Bool

/-- `rtm_lock` of `mysql-5.6.10-trx_lock_func-rtm`: "ignore if the mutex is set already". -/
def trxLockFuncRtm : Variant := ⟨1000, false⟩

/-- `rtm_lock` of `mysql-5.6.10-syslock-rtm`. -/
def syslockRtm : Variant := ⟨10, true⟩

/-- Which pair of functions guards the section. -/
inductive Call where
  | rtm
  | plain
  deriving DecidableEq, Repr

/-- The points of a thread: in the retry loop, in the speculative section, in a mutex function or
in a section that holds the mutex. -/
inductive Pc where
  | idle
  /-- `rtm_lock`, before `_xbegin()` -/
  | xbegin (failures : Nat)
  /-- `_xbegin()` has returned an abort code -/
  | aborted (failures : Nat)
  /-- inside the transaction, before `mutex_get_lock_word` -/
  | started
  /-- `rtm_lock` has returned inside a transaction -/
  | speculative
  /-- inside the mutex functions, or the owner of the mutex -/
  | mutex (call : Call) (p : MutexPc)
  /-- `rtm_mutex_exit_func` after `rtm_unlock` -/
  | exitTail (p : MutexPc)
  deriving DecidableEq, Repr

/-- An open transaction. -/
structure Txn (D V : Type) where
  /-- its accesses to shared data; they give its read set and its buffered writes -/
  trace : List (Ev D V)
  /-- the lock word is in its read set -/
  readsLockWord : Bool
  /-- the local of `rtm_lock` that an abort restores -/
  failures : Nat
  /-- the lock word was 1 at some moment since `_xbegin`, or since the transaction read it -/
  overlap : Bool

/-- The mutex, the data it protects, the point of each thread and its transaction; `log` has the
sections that are over. -/
structure Sys (T D V : Type) where
  mutex : IbMutex
  data : D → V
  pc : T → Pc
  txn : T → Option (Txn D V)
  /-- the accesses of an open section that holds the mutex -/
  trace : T → List (Ev D V)
  /-- the sections that are over, in the order of their commits and releases -/
  log : List (T × List (Ev D V))

variable {T D V : Type} [DecidableEq T] [DecidableEq D]

/-- The thread goes on to another point. -/
def Sys.setPc (s : Sys T D V) (t : T) (p : Pc) : Sys T D V :=
  { s with pc := Function.update s.pc t p }

/-- The thread starts a transaction, goes on in it or leaves it. -/
def Sys.setTxn (s : Sys T D V) (t : T) (x : Option (Txn D V)) : Sys T D V :=
  { s with txn := Function.update s.txn t x }

/-- Abort every open transaction that `hit` says; its thread continues after `_xbegin`. -/
def Sys.abortAll (s : Sys T D V) (hit : T → Txn D V → Bool) : Sys T D V where
  mutex := s.mutex
  data := s.data
  pc u :=
    match s.txn u with
    | some x => if hit u x then .aborted x.failures else s.pc u
    | none => s.pc u
  txn u := (s.txn u).filter fun x => !hit u x
  trace := s.trace
  log := s.log

/-- The transactions of other threads that an access of `t` to shared data conflicts with. -/
def hitBy (t : T) (e : Ev D V) (u : T) (x : Txn D V) : Bool :=
  decide (u ≠ t ∧ e.Conflicts x.trace)

/-- The transactions of other threads that have the lock word in their read set, when `t` makes
an operation that writes it. -/
def runHit (t : T) (i : Instr MutexPc) (u : T) (x : Txn D V) : Bool :=
  decide (u ≠ t) && i.writesLockWord && x.readsLockWord

/-- Note in every open transaction whether the lock word is set. -/
def Sys.noteOverlap (s : Sys T D V) : Sys T D V :=
  { s with
    txn := fun u => (s.txn u).map fun x =>
      { x with overlap := x.overlap || s.mutex.lockWord != 0 } }

/-- One operation of the mutex code by thread `t`. A write of the lock word aborts the
transactions that have it in their read set. -/
def Sys.runInstr (s : Sys T D V) (t : T) (i : Instr MutexPc) : Option (Sys T D V × MutexPc) :=
  (s.mutex.exec i).map fun (m, p) =>
    (({ s with mutex := m }.abortAll (runHit t i)).noteOverlap, p)

/-- One access to shared data inside a section. -/
def Sys.access (s : Sys T D V) (t : T) (e : (D → V) → Ev D V) : Option (Sys T D V) :=
  match s.pc t, s.txn t with
  | .speculative, some x =>
    let e := e (publish s.data x.trace)
    some ((s.abortAll (hitBy t e)).setTxn t (some { x with trace := x.trace ++ [e] }))
  | .mutex _ .owner, none =>
    let e := e s.data
    some { s.abortAll (hitBy t e) with
      data := publish s.data [e]
      trace := Function.update s.trace t (s.trace t ++ [e]) }
  | _, _ => none

/-- What happens next: a call, the outcome of `_xbegin`, an access of the section, a step of a
function or an abort. -/
inductive Act (T D V : Type) where
  /-- a call of `rtm_mutex_enter` or `mutex_enter` -/
  | enter (t : T) (call : Call)
  /-- `_xbegin()`, which starts the transaction or returns an abort code -/
  | xbegin (t : T) (started : Bool)
  /-- the branch of `rtm_lock` after an abort code -/
  | retry (t : T)
  /-- `if (mutex_get_lock_word(mutex) != 0) _xabort(0)` -/
  | checkLockWord (t : T)
  | load (t : T) (d : D)
  | store (t : T) (d : D) (v : V)
  /-- a call of `rtm_mutex_exit` or `mutex_exit` -/
  | exit (t : T)
  /-- the hardware aborts the transaction -/
  | abort (t : T)
  /-- the next operation of the mutex code -/
  | run (t : T)

/-- `rtm_lock`, when `_xbegin()` has returned an abort code. -/
def retryRtmLock (v : Variant) (failures : Nat) : Pc :=
  if failures + 1 ≤ v.maxRetries then .xbegin (failures + 1) else .mutex .rtm .enter

/-- Where a thread goes on that is done with the mutex code. -/
def afterMutex : Call → MutexPc → Pc
  | .rtm, .done => .exitTail .released
  | .plain, .done => .idle
  | call, p => .mutex call p

/-- Where the thread is at a point of the mutex code behind its exit: outside, once that is over. -/
def afterTail : MutexPc → Pc
  | .done => .idle
  | p => .exitTail p

/-- Open a transaction. -/
def Sys.begin (s : Sys T D V) (v : Variant) (t : T) (failures : Nat) : Sys T D V :=
  (s.setPc t (if v.readsLockWord then .started else .speculative)).setTxn t
    (some ⟨[], false, failures, s.mutex.lockWord != 0⟩)

/-- `rtm_unlock` decides by `_xtest()`: it commits, or calls `mutex_exit_func`. -/
def Sys.exit (s : Sys T D V) (t : T) : Option (Sys T D V) :=
  match s.pc t, s.txn t with
  | .speculative, some x =>
    some { (s.setPc t (.exitTail .released)).setTxn t none with
      data := publish s.data x.trace
      log := s.log ++ [(t, x.trace)] }
  | .mutex call .owner, none => some (s.setPc t (.mutex call (.exit false)))
  | _, _ => none

/-- The next operation of the mutex code; the section is over when the lock word is reset. -/
def Sys.run (s : Sys T D V) (rounds : Nat) (t : T) : Option (Sys T D V) :=
  match s.pc t with
  | .mutex call p =>
    (code false rounds p).bind fun i => (s.runInstr t i).map fun (s', p') =>
      if p = .reset then
        { s'.setPc t (afterMutex call p') with
          trace := Function.update s.trace t []
          log := s.log ++ [(t, s.trace t)] }
      else s'.setPc t (afterMutex call p')
  | .exitTail p =>
    (code false rounds p).bind fun i => (s.runInstr t i).map fun (s', p') =>
      s'.setPc t (afterTail p')
  | _ => none

/-- One step of the machine, `none` where the action is not possible. -/
def step (v : Variant) (rounds : Nat) (s : Sys T D V) : Act T D V → Option (Sys T D V)
  | .enter t call =>
    if s.pc t = .idle then
      some (s.setPc t (match call with | .rtm => .xbegin 0 | .plain => .mutex .plain .enter))
    else none
  | .xbegin t started =>
    match s.pc t with
    | .xbegin n => some (if started then s.begin v t n else s.setPc t (.aborted n))
    | _ => none
  | .retry t =>
    match s.pc t with
    | .aborted n => some (s.setPc t (retryRtmLock v n))
    | _ => none
  | .checkLockWord t =>
    match s.pc t, s.txn t with
    | .started, some x =>
      if s.mutex.lockWord ≠ 0 then some ((s.setPc t (.aborted x.failures)).setTxn t none)
      else some ((s.setPc t .speculative).setTxn t
        (some { x with readsLockWord := true, overlap := false }))
    | _, _ => none
  | .load t d => s.access t fun m => .rd d (m d)
  | .store t d w => s.access t fun _ => .wr d w
  | .exit t => s.exit t
  | .abort t =>
    (s.txn t).map fun x => (s.setPc t (.aborted x.failures)).setTxn t none
  | .run t => s.run rounds t

/-- Before the first section: the mutex as `mutex_create_func` leaves it. -/
def init (data : D → V) : Sys T D V where
  mutex := ⟨0, 0, 0⟩
  data := data
  pc _ := .idle
  txn _ := none
  trace _ := []
  log := []

/-- The points at which a thread has set the lock word and has not reset it. -/
def Pc.holds : Pc → Bool
  | .mutex _ p => p.holds
  | _ => false

end Htmsql.Rtm
