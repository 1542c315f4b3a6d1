import Htmsql.Innodb.MutexCode
import Htmsql.Lib.Run
import Mathlib.Logic.Function.Basic

/-!
# A mutex without atomic operations

`mysql-5.6.10-glibc` comments `HAVE_ATOMIC_BUILTINS` out, so that glibc may elide the locks. Then
`ib_mutex_test_and_set` is `os_fast_mutex_trylock` followed by a check of `lock_word` and a plain
store to it, and `mutex_reset_lock_word` a plain store followed by `os_fast_mutex_unlock`. Any
number of threads call `mutex_enter_func`, `mutex_enter_nowait_func` and `mutex_exit_func`; between
any two accesses the others may run.
-/

namespace Htmsql.FastMutex

open Innodb Run

/-- The points of the mutex functions, with the ones inside the test-and-set and the reset, which
go through the fast mutex. -/
inductive Pc where
  /-- at a point of the functions, `done` outside of them -/
  | code (p : MutexPc)
  /-- `mutex_enter_nowait_func`, before the test-and-set -/
  | nowait
  /-- and after it returned 1 -/
  | refused
  /-- `os_fast_mutex_trylock` has returned 0; before `ut_a(mutex->lock_word == 0)` -/
  | tried (next : MutexPc)
  /-- before `mutex->lock_word = 1` -/
  | checked (next : MutexPc)
  /-- `mutex_reset_lock_word`, before `os_fast_mutex_unlock` -/
  | unlocking (next : MutexPc)
  /-- the check has failed -/
  | crashed
  deriving DecidableEq, Repr

/-- The words of the mutex, the owner of `os_fast_mutex` and the point of each thread. -/
structure Sys (T : Type) where
  ib : IbMutex
  osFastMutex : Option T
  pc : T → Pc

/-- The functions of the mutex that a thread calls. -/
inductive Call where
  | enter
  | enterNowait
  | exit
  deriving DecidableEq, Repr

/-- A thread calls one of the functions or takes the next step of its own. -/
inductive Act (T : Type) where
  | call (t : T) (c : Call)
  | run (t : T)

/-- Where a call begins. Nobody enters the mutex while inside, and only the owner leaves it. -/
def Call.entry (debug : Bool) : Call → Pc → Option Pc
  | .enter, .code .done | .enter, .refused => some (.code .enter)
  | .enterNowait, .code .done | .enterNowait, .refused => some .nowait
  | .exit, .code .owner => some (.code (.exit debug))
  | _, _ => none

/-- What `pthread_mutex_trylock` returns for a mutex that is locked. -/
def ebusy : Nat := 16

variable {T : Type} [DecidableEq T]

namespace Sys

/-- The thread goes on to another point. -/
def goto (s : Sys T) (t : T) (p : Pc) : Sys T := { s with pc := Function.update s.pc t p }

/-- `os_fast_mutex_trylock`, and where the thread goes on -/
def trylock (s : Sys T) (t : T) (success failure : Pc) : Sys T :=
  if s.osFastMutex = none then { s with osFastMutex := some t }.goto t success
  else s.goto t failure

/-- The next access of a thread; `none` where it is in none of the functions, or blocked. -/
def run (debug : Bool) (rounds : Nat) (s : Sys T) (t : T) : Option (Sys T) :=
  match s.pc t with
  | .code p =>
    (code debug rounds p).bind fun
      | .testAndSet k => some (s.trylock t (.tried (k 0)) (.code (k ebusy)))
      | .resetLockWord next =>
        some ({ s with ib := { s.ib with lockWord := 0 } }.goto t (.unlocking next))
      | i => (s.ib.exec i).map fun (ib, p') => { s with ib := ib }.goto t (.code p')
  | .nowait => some (s.trylock t (.tried (.afterTestAndSet debug)) .refused)
  | .tried next => some (s.goto t (if s.ib.lockWord = 0 then .checked next else .crashed))
  | .checked next => some ({ s with ib := { s.ib with lockWord := 1 } }.goto t (.code next))
  | .unlocking next => some ({ s with osFastMutex := none }.goto t (.code next))
  | .refused | .crashed => none

end Sys

/-- One step of the machine, `none` where the call is not admitted or the thread is blocked. -/
def step (debug : Bool) (rounds : Nat) (s : Sys T) : Act T → Option (Sys T)
  | .call t c => (c.entry debug (s.pc t)).map (s.goto t)
  | .run t => s.run debug rounds t

/-- `mutex_create_func` -/
def init : Sys T := ⟨⟨0, 0, 1⟩, none, fun _ => .code .done⟩

@[simp] theorem goto_pc_self (s : Sys T) (t : T) (p : Pc) : (s.goto t p).pc t = p :=
  Function.update_self _ _ _

theorem goto_pc_of_ne {s : Sys T} {t u : T} {p : Pc} (h : u ≠ t) : (s.goto t p).pc u = s.pc u :=
  Function.update_of_ne h _ _

end Htmsql.FastMutex
