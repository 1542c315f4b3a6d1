import Htmsql.Innodb.Atomic
import Htmsql.Innodb.ThreadId

/-!
# Two protocols on one lock word

In `mysql-5.6.10-trx_lock_func` the `trx->mutex` is entered and left by `hle_mutex_enter_func` and
`hle_mutex_exit_func`. They work on the `lock_word` that `mutex_enter_func`,
`mutex_enter_nowait_func` and `mutex_exit_func` work on. A thread that enters by `hle_exch_spec_lock`
waits without announcing itself, but the exit of either protocol looks for waiters of the other. Any
number of threads enter by either protocol and leave by either.

Every operation takes effect at once and in the order of the code: the exchange of
`hle_exch_spec_lock`, which has the prefix XACQUIRE, is never elided, and the plain store of
`hle_unlock` is not kept in a store buffer. With either of the two on x86 the results do not hold:
a section that is elided is one beside `lock_word` 0, and an exit whose store is buffered may read
`waiters` before a thread goes to sleep that has seen the old `lock_word`.

`debug` is `UNIV_DEBUG`, with `thread_id` and the assertions about it. A thread whose assertion
fails stops.
-/

namespace Htmsql.TrxLock

open Innodb Run

/-- Where a thread is. -/
inductive Pc where
  /-- at a point of the functions of the first protocol, `done` outside of them -/
  | code (p : MutexPc)
  /-- `mutex_enter_nowait_func`, before the test-and-set -/
  | nowait
  /-- and after it returned 1 -/
  | refused
  /-- `hle_exch_spec_lock`, before the exchange -/
  | hleEnter
  /-- in the inner loop -/
  | hleSpin
  /-- in a section entered by `hle_mutex_enter_func` -/
  | hleOwner
  /-- `hle_mutex_exit_func`, before `thread_id` is overwritten -/
  | hleDisown
  /-- before `hle_unlock` -/
  | hleReset
  /-- an assertion has failed in a function called at `p` -/
  | failed (p : Pc)
  deriving DecidableEq, Repr

/-- The functions that a thread may call. -/
inductive Call where
  | enter
  | enterNowait
  | exit
  | hleEnter
  | hleExit
  deriving DecidableEq, Repr

/-- A thread calls one of the functions or takes the next step in it. -/
inductive Act (T : Type) where
  | call (t : T) (c : Call)
  /-- the next operation of the function that the thread is in -/
  | run (t : T)

/-- One mutex and the threads that use it. -/
structure Sys (T : Type) where
  mutex : DebugMutex T
  pc : T → Pc

/-- `mutex_create_func`, in a memory block with any `thread_id` -/
def init {T : Type} (threadId : Option T) : Sys T := ⟨⟨⟨0, 0, 1⟩, threadId⟩, fun _ => .code .done⟩

/-- Whether the thread is outside of the functions and of a section. -/
def Pc.outside : Pc → Bool
  | code .done | refused => true
  | _ => false

/-- Whether the thread is in a section. -/
def Pc.inside : Pc → Bool
  | code .owner | hleOwner => true
  | _ => false

/-- The function called at each point, when no assertion fails. -/
def Call.entry (debug : Bool) (c : Call) (p : Pc) : Option Pc :=
  match c with
  | .enter => if p.outside = true then some (.code .enter) else none
  | .enterNowait => if p.outside = true then some .nowait else none
  | .hleEnter => if p.outside = true then some .hleEnter else none
  | .exit => if p.inside = true then some (.code (.exit debug)) else none
  | .hleExit => if p.inside = true then some (if debug then .hleDisown else .hleReset) else none

variable {T : Type} [DecidableEq T]

/-- `mutex_own`, evaluated by thread `t`. -/
def own (m : DebugMutex T) (t : T) : Prop := m.ib.lockWord = 1 ∧ m.threadId = some t

instance (m : DebugMutex T) (t : T) : Decidable (own m t) :=
  inferInstanceAs (Decidable (_ ∧ _))

/-- The assertion at the beginning of each function. -/
def Call.asserts (m : DebugMutex T) (t : T) : Call → Prop
  | .enter | .hleEnter => ¬ own m t
  | .exit | .hleExit => own m t
  | .enterNowait => True

instance (m : DebugMutex T) (t : T) (c : Call) : Decidable (c.asserts m t) :=
  match c with
  | .enter | .hleEnter => inferInstanceAs (Decidable (¬ _))
  | .exit | .hleExit => inferInstanceAs (Decidable (own m t))
  | .enterNowait => isTrue trivial

/-- The next operation of a thread: the mutex after it and where the thread goes on. The exchange of
`hleEnter` is a real one, and the store of `hleReset` reaches memory at once. -/
def operation (debug : Bool) (rounds : Nat) (m : DebugMutex T) (t : T) :
    Pc → Option (DebugMutex T × Pc)
  | .code p =>
    (code debug rounds p).bind fun i => (m.exec t i).map fun (m', p') => (m', .code p')
  | .nowait =>
    some ({ m with ib := { m.ib with lockWord := 1 } },
      if m.ib.lockWord = 0 then .code (.afterTestAndSet debug) else .refused)
  | .hleEnter =>
    some ({ m with ib := { m.ib with lockWord := 1 } },
      if m.ib.lockWord = 0 then .hleOwner else .hleSpin)
  | .hleSpin => some (m, if m.ib.lockWord = 1 then .hleSpin else .hleEnter)
  | .hleDisown => some ({ m with threadId := none }, .hleReset)
  | .hleReset => some ({ m with ib := { m.ib with lockWord := 0 } }, .code .released)
  | .refused | .hleOwner | .failed _ => none

/-- The thread goes on to another point. -/
def Sys.goto (s : Sys T) (t : T) (p : Pc) : Sys T := { s with pc := Function.update s.pc t p }

/-- One step of the machine; a call whose assertion fails leads to the point of the failure. -/
def step (debug : Bool) (rounds : Nat) (s : Sys T) : Act T → Option (Sys T)
  | .call t c =>
    (c.entry debug (s.pc t)).map fun p =>
      s.goto t (if debug = true ∧ ¬ c.asserts s.mutex t then .failed (s.pc t) else p)
  | .run t =>
    (operation debug rounds s.mutex t (s.pc t)).map fun (m, p) => { s with mutex := m }.goto t p

@[simp] theorem goto_pc_self (s : Sys T) (t : T) (p : Pc) : (s.goto t p).pc t = p :=
  Function.update_self _ _ _

theorem goto_pc_of_ne {s : Sys T} {t u : T} {p : Pc} (h : u ≠ t) : (s.goto t p).pc u = s.pc u :=
  Function.update_of_ne h _ _

end Htmsql.TrxLock
