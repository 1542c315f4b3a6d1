import Htmsql.Innodb.MutexCode
import Htmsql.Lib.Run
import Mathlib.Logic.Function.Basic

/-!
# One mutex, two protocols

The `ib_mutex_t` of `mysql-5.6.10-syslock` has a second lock word, `hle_mutex`, beside
`lock_word`. `mutex_enter`, `mutex_enter_nowait` and `mutex_exit` work on `lock_word`;
`hle_mutex_enter`, `hle_mutex_enter_nowait` and `hle_mutex_exit` work on `hle_mutex`. Both exits
read `waiters` and may signal. A thread leaves a section by the protocol by which it entered it.

`debug` is `UNIV_DEBUG`: the code then keeps `thread_id` and checks `mutex_own` at some of the
calls. A thread whose assertion fails stops (`Pc.failed`). The value of `thread_id` is a thread
of the system or, as `none`, anything else: `ULINT_UNDEFINED` or what the memory contained.
-/

namespace Htmsql.Syslock

open Innodb Run

/-- The fields of an `ib_mutex_t` of this tree that its functions use. -/
structure HleMutex (T : Type) where
  ib : IbMutex
  hleMutex : Nat
  threadId : Option T

/-- The points of a thread in the functions of the two protocols, and in the sections between
them. -/
inductive Pc where
  | idle
  /-- a nowait function has returned 1 -/
  | refused
  /-- `mutex_enter_nowait_func`, before the test-and-set -/
  | nowait
  /-- in the functions of the first protocol, its section, or the end of an exit function -/
  | plain (p : MutexPc)
  /-- `hle_lock`, before the exchange -/
  | hleEnter
  /-- `hle_lock`, in the inner loop -/
  | hleSpin
  /-- `hle_mutex_enter_nowait_func`, before the test-and-set -/
  | hleNowait
  /-- and before `thread_id` is written -/
  | hleAcquired
  /-- in a section of the second protocol -/
  | hleOwner
  /-- `hle_mutex_exit_func`, before `thread_id` is overwritten -/
  | hleDisown
  /-- before `hle_unlock` -/
  | hleReset
  /-- a debug assertion has failed in a function called at `p` -/
  | failed (p : Pc)
  deriving DecidableEq, Repr

/-- The functions of the mutex that a thread calls. -/
inductive Call where
  | enter
  | enterNowait
  | exit
  | hleEnter
  | hleEnterNowait
  | hleExit
  deriving DecidableEq, Repr

/-- A thread calls one of the functions or takes the next step in it. -/
inductive Act (T : Type) where
  | call (t : T) (c : Call)
  /-- the next operation of the function that the thread is in -/
  | run (t : T)

/-- The mutex and the point of each thread. -/
structure Sys (T : Type) where
  mutex : HleMutex T
  pc : T → Pc

/-- `mutex_create_func`, in a memory block with any content. -/
def mutexCreate {T : Type} (memory : HleMutex T) : HleMutex T :=
  { memory with ib := ⟨0, 0, 1⟩ }

/-- The two checks of `mutex_free_func`. -/
def HleMutex.mayFree {T : Type} (m : HleMutex T) : Prop := m.ib.lockWord = 0 ∧ m.ib.waiters = 0

/-- `mutex_create_func` on a block of memory that may hold anything. -/
def init {T : Type} (memory : HleMutex T) : Sys T := ⟨mutexCreate memory, fun _ => .idle⟩

variable {T : Type} [DecidableEq T]

/-- `mutex_own`, evaluated by thread `t`. -/
def HleMutex.own (m : HleMutex T) (t : T) : Prop := m.ib.lockWord = 1 ∧ m.threadId = some t

instance (m : HleMutex T) (t : T) : Decidable (m.own t) :=
  inferInstanceAs (Decidable (_ ∧ _))

/-- The thread goes on to another point. -/
def Sys.setPc (s : Sys T) (t : T) (p : Pc) : Sys T := { s with pc := Function.update s.pc t p }

/-- The function called at each point, when no assertion fails. -/
def Call.entry (debug : Bool) : Call → Pc → Option Pc
  | .enter, .idle | .enter, .refused => some (.plain .enter)
  | .enterNowait, .idle | .enterNowait, .refused => some .nowait
  | .hleEnter, .idle | .hleEnter, .refused => some .hleEnter
  | .hleEnterNowait, .idle | .hleEnterNowait, .refused => some .hleNowait
  | .exit, .plain .owner => some (.plain (.exit debug))
  | .hleExit, .hleOwner => some (if debug then .hleDisown else .hleReset)
  | _, _ => none

/-- The assertion at the beginning of each function. -/
def Call.asserts (m : HleMutex T) (t : T) : Call → Prop
  | .enter | .hleEnter => ¬ m.own t
  | .exit | .hleExit => m.own t
  | .enterNowait | .hleEnterNowait => True

instance (m : HleMutex T) (t : T) (c : Call) : Decidable (c.asserts m t) :=
  match c with
  | .enter | .hleEnter => inferInstanceAs (Decidable (¬ _))
  | .exit | .hleExit => inferInstanceAs (Decidable (m.own t))
  | .enterNowait | .hleEnterNowait => isTrue trivial

/-- One operation of the mutex code, with `thread_id`. -/
def HleMutex.exec {P : Type} (m : HleMutex T) (t : T) : Instr P → Option (HleMutex T × P)
  | .setThreadId own next => some ({ m with threadId := if own then some t else none }, next)
  | i => (m.ib.exec i).map fun (ib, p) => ({ m with ib := ib }, p)

/-- Where a thread is that is done with a function of the first protocol. -/
def afterMutex : MutexPc → Pc
  | .done => .idle
  | p => .plain p

/-- The next operation of a thread: the mutex after it and where the thread goes on. -/
def operation (debug : Bool) (rounds : Nat) (m : HleMutex T) (t : T) :
    Pc → Option (HleMutex T × Pc)
  | .plain p =>
    (code debug rounds p).bind fun i => (m.exec t i).map fun (m', p') => (m', afterMutex p')
  | .nowait =>
    some ({ m with ib := { m.ib with lockWord := 1 } },
      if m.ib.lockWord = 0 then .plain (.afterTestAndSet debug) else .refused)
  | .hleEnter => some ({ m with hleMutex := 1 }, if m.hleMutex ≠ 0 then .hleSpin else .hleOwner)
  | .hleSpin => some (m, if m.hleMutex = 1 then .hleSpin else .hleEnter)
  -- `__hle_acquire_test_and_set4` compares the previous value with 1
  | .hleNowait =>
    some ({ m with hleMutex := 1 },
      if m.hleMutex = 1 then .refused else if debug then .hleAcquired else .hleOwner)
  | .hleAcquired => some ({ m with threadId := some t }, .hleOwner)
  | .hleDisown => some ({ m with threadId := none }, .hleReset)
  | .hleReset => some ({ m with hleMutex := 0 }, .plain .released)
  | .idle | .refused | .hleOwner | .failed _ => none

/-- One step of the machine; a call whose assertion fails leads to the point of the failure. -/
def step (debug : Bool) (rounds : Nat) (s : Sys T) : Act T → Option (Sys T)
  | .call t c =>
    (c.entry debug (s.pc t)).map fun p =>
      s.setPc t (if debug ∧ ¬ c.asserts s.mutex t then .failed (s.pc t) else p)
  | .run t =>
    (operation debug rounds s.mutex t (s.pc t)).map fun (m, p) =>
      ({ s with mutex := m }).setPc t p

/-- The thread has entered by the first protocol and holds `lock_word`. -/
def Pc.holds : Pc → Bool
  | .plain p => p.holds
  | .failed p => p.holds
  | _ => false

/-- The thread has entered by the second protocol and holds `hle_mutex`. -/
def Pc.hleHolds : Pc → Bool
  | .hleAcquired => true
  | .hleOwner => true
  | .hleDisown => true
  | .hleReset => true
  | .failed p => p.hleHolds
  | _ => false

end Htmsql.Syslock
