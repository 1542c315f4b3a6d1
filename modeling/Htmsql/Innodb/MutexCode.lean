/-!
# The functions of an InnoDB mutex

`mutex_enter_func`, `mutex_spin_wait`, `mutex_exit_func` and `mutex_signal_object` of
`sync0sync.ic` and `sync0sync.cc`, as the memory operations they make at each point of their
control flow. The text of these functions is the same in every source tree of the project; what
the trees change is how `ib_mutex_test_and_set` and `mutex_reset_lock_word` reach memory. So the
control flow is stated once (`code`) and the machines of the trees execute it.

The operations of the sync array and of the event are not part of the source. They are taken
by what the callers rely on: `sync_array_reserve_cell` resets the event and remembers its signal
count, `os_event_set` increments the count, and `sync_array_wait_event` blocks until the count
differs from the remembered one.
-/

namespace Htmsql.Innodb

/-- One operation on the fields of an `ib_mutex_t`, with the point of the code after it. -/
inductive Instr (P : Type) where
  /-- `ib_mutex_test_and_set`; the continuation gets the previous value of `lock_word`. -/
  | testAndSet (k : Nat → P)
  /-- `mutex_get_lock_word` -/
  | getLockWord (k : Nat → P)
  /-- `mutex_reset_lock_word` -/
  | resetLockWord (next : P)
  /-- `mutex_get_waiters` -/
  | getWaiters (k : Nat → P)
  /-- `mutex_set_waiters` -/
  | setWaiters (n : Nat) (next : P)
  /-- `sync_array_reserve_cell`; the continuation gets the remembered signal count. -/
  | reserveCell (k : Nat → P)
  /-- `sync_array_wait_event` -/
  | waitEvent (count : Nat) (next : P)
  /-- `os_event_set` -/
  | eventSet (next : P)
  /-- `ut_d(mutex->thread_id = ...)`, to the current thread or to `ULINT_UNDEFINED` -/
  | setThreadId (own : Bool) (next : P)

/-- The points of the code that a thread can be at, with the locals alive there. -/
inductive MutexPc where
  /-- `mutex_enter_func`, before the first `ib_mutex_test_and_set` -/
  | enter
  /-- `mutex_spin_wait`, at the condition of the `spin_loop` -/
  | spin (i : Nat)
  /-- after the loop, before `ib_mutex_test_and_set` -/
  | spinTry (i : Nat)
  | reserve
  /-- a cell is reserved; before `mutex_set_waiters(mutex, 1)` -/
  | announce (count : Nat)
  /-- one of the four late tries -/
  | late (count i : Nat)
  /-- in `sync_array_wait_event` -/
  | wait (count : Nat)
  /-- the test-and-set succeeded; `thread_id` is not written yet (`UNIV_DEBUG`) -/
  | acquired
  /-- the enter function has returned, the critical section is open -/
  | owner
  /-- `mutex_exit_func`, before `thread_id` is overwritten (`UNIV_DEBUG`) -/
  | disown
  | reset
  /-- `mutex_reset_lock_word` is done; before `mutex_get_waiters` -/
  | released
  /-- `mutex_signal_object`, before `mutex_set_waiters(mutex, 0)` -/
  | clear
  /-- before `os_event_set` -/
  | signal
  | done
  deriving DecidableEq, Repr

namespace MutexPc

/-- Where an enter function continues after a successful test-and-set. -/
def afterTestAndSet (debug : Bool) : MutexPc := if debug then acquired else owner

/-- Where `mutex_exit_func` begins. -/
def exit (debug : Bool) : MutexPc := if debug then disown else reset

end MutexPc

open MutexPc in
/-- The memory operation at each point of the code; `none` where the thread is not inside one of
the functions. `rounds` is `SYNC_SPIN_ROUNDS`, `debug` is `UNIV_DEBUG`. -/
def code (debug : Bool) (rounds : Nat) : MutexPc → Option (Instr MutexPc)
  | enter => some <| .testAndSet fun old =>
      if old = 0 then afterTestAndSet debug else spin 0
  | spin i => some <| .getLockWord fun word =>
      if word ≠ 0 ∧ i < rounds then spin (i + 1) else spinTry i
  | spinTry i => some <| .testAndSet fun old =>
      if old = 0 then afterTestAndSet debug
      else if i + 1 < rounds then spin (i + 1)
      else reserve
  | reserve => some <| .reserveCell announce
  | announce count => some <| .setWaiters 1 (late count 0)
  | late count i => some <| .testAndSet fun old =>
      if old = 0 then afterTestAndSet debug
      else if i + 1 < 4 then late count (i + 1)
      else wait count
  | wait count => some <| .waitEvent count (spin 0)
  | acquired => some <| .setThreadId true owner
  | owner => none
  | disown => some <| .setThreadId false reset
  | reset => some <| .resetLockWord released
  | released => some <| .getWaiters fun n => if n ≠ 0 then clear else done
  | clear => some <| .setWaiters 0 signal
  | signal => some <| .eventSet done
  | done => none

/-- The fields of an `ib_mutex_t` that the code works on, with the signal count of its event. -/
structure IbMutex where
  lockWord : Nat
  waiters : Nat
  signalCount : Nat
  deriving DecidableEq, Repr

/-- One operation under sequential consistency; `none` while it blocks. -/
def IbMutex.exec {P : Type} (m : IbMutex) : Instr P → Option (IbMutex × P)
  | .testAndSet k => some ({ m with lockWord := 1 }, k m.lockWord)
  | .getLockWord k => some (m, k m.lockWord)
  | .resetLockWord next => some ({ m with lockWord := 0 }, next)
  | .getWaiters k => some (m, k m.waiters)
  | .setWaiters n next => some ({ m with waiters := n }, next)
  | .reserveCell k => some (m, k m.signalCount)
  | .waitEvent count next => if m.signalCount = count then none else some (m, next)
  | .eventSet next => some ({ m with signalCount := m.signalCount + 1 }, next)
  | .setThreadId _ next => some (m, next)

/-! ## What one operation does to the lock word -/

/-- Whether an operation writes the lock word. -/
def Instr.writesLockWord {P : Type} : Instr P → Bool
  | testAndSet _ => true
  | resetLockWord _ => true
  | _ => false

/-- The points at which a thread has set the lock word and has not reset it. -/
def MutexPc.holds : MutexPc → Bool
  | acquired => true
  | owner => true
  | disown => true
  | reset => true
  | _ => false

/-- The points of an exit function after the mutex is free. -/
def MutexPc.inTail : MutexPc → Bool
  | released => true
  | clear => true
  | signal => true
  | done => true
  | _ => false

@[simp] theorem MutexPc.holds_afterTestAndSet (debug : Bool) :
    (afterTestAndSet debug).holds = true := by
  cases debug <;> rfl

/-- The lock word changes in two ways only: a thread takes the mutex, or its holder resets it. -/
theorem exec_word {debug : Bool} {rounds : Nat} {m m' : IbMutex} {p p' : MutexPc}
    {i : Instr MutexPc} (hw : m.lockWord = 0 ∨ m.lockWord = 1)
    (hi : code debug rounds p = some i) (he : m.exec i = some (m', p')) :
    (m'.lockWord = m.lockWord ∧ p'.holds = p.holds ∧ p ≠ .reset) ∨
      (m.lockWord = 0 ∧ m'.lockWord = 1 ∧ p.holds = false ∧ p.inTail = false ∧
        p' = .afterTestAndSet debug ∧ i.writesLockWord = true) ∨
      (p = .reset ∧ m'.lockWord = 0 ∧ p' = .released) := by
  cases p <;> simp only [code, Option.some.injEq, reduceCtorEq] at hi <;> subst hi
  case wait count =>
    simp only [IbMutex.exec] at he
    split at he
    · cases he
    · cases he
      exact Or.inl ⟨rfl, rfl, by simp⟩
  all_goals
    simp only [IbMutex.exec, Option.some.injEq, Prod.mk.injEq] at he
    obtain ⟨rfl, rfl⟩ := he
  case reset => exact Or.inr (Or.inr ⟨rfl, rfl, rfl⟩)
  case enter | spinTry i | late count i =>
    rcases hw with hw | hw
    · exact Or.inr (Or.inl ⟨hw, rfl, rfl, rfl, by rw [if_pos hw], rfl⟩)
    · refine Or.inl ⟨hw.symm, ?_, by simp⟩
      simp only [hw, Nat.one_ne_zero, if_false]
      repeat' split
      all_goals rfl
  case spin i | released =>
    refine Or.inl ⟨rfl, ?_, by simp⟩
    split <;> rfl
  all_goals exact Or.inl ⟨rfl, rfl, by simp⟩

theorem exec_tail {debug : Bool} {rounds : Nat} {m m' : IbMutex} {p p' : MutexPc}
    {i : Instr MutexPc} (hp : p.inTail = true) (hi : code debug rounds p = some i)
    (he : m.exec i = some (m', p')) : m'.lockWord = m.lockWord ∧ p'.inTail = true := by
  cases p <;> simp only [MutexPc.inTail, reduceCtorEq] at hp <;>
    simp only [code, Option.some.injEq, reduceCtorEq] at hi <;> subst hi <;>
    simp only [IbMutex.exec, Option.some.injEq, Prod.mk.injEq] at he <;>
    obtain ⟨rfl, rfl⟩ := he
  case released => exact ⟨rfl, by split <;> rfl⟩
  all_goals exact ⟨rfl, rfl⟩

end Htmsql.Innodb
