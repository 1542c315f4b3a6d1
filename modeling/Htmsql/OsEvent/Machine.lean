import Mathlib.Logic.Function.Basic
import Htmsql.Lib.Run

/-!
# The event of InnoDB

`os_event_set`, `os_event_reset`, `os_event_wait_low` and `os_event_wait_time_low` of `os0sync.cc`,
called by any number of threads. An event has a flag, a signal count, a mutex and a condition
variable. A thread in `os_cond_wait` has released the mutex and sleeps until the next broadcast, or
until it wakes up for no reason; then it takes the mutex again.

`sets` and `resets` are ghosts: how often `os_event_set` has been through its section, and for
each call of `os_event_reset` the count that it returned with the number of `sets` before it.
-/

namespace Htmsql.OsEvent

variable {T : Type}

/-- What a function returns: nothing, the signal count, or from a wait with the count waited for
whether it timed out. -/
inductive Ret where
  | unit
  | count (n : Nat)
  | waited (count : Nat) (timedOut : Bool)
  deriving DecidableEq, Repr

/-- The points of the code; `timed` is `os_event_wait_time_low`. -/
inductive Pc where
  | idle
  /-- `os_event_set`, before `os_fast_mutex_lock` -/
  | setLock
  | set
  | resetLock
  | reset
  | waitLock (timed : Bool) (resetSigCount : Nat)
  /-- before `if (!reset_sig_count)` -/
  | waitCount (timed : Bool) (resetSigCount : Nat)
  /-- at the condition of the loop -/
  | waitTest (timed : Bool) (resetSigCount : Nat)
  /-- in `os_cond_wait` or `os_cond_wait_timed` -/
  | asleep (timed : Bool) (resetSigCount : Nat)
  /-- woken up, before the mutex is taken again -/
  | awake (timed : Bool) (resetSigCount : Nat) (timedOut : Bool)
  /-- before `os_fast_mutex_unlock` -/
  | unlock (r : Ret)
  deriving DecidableEq, Repr

/-- The event and the point of each thread. `sets` counts the calls of `os_event_set`, `resets`
has for each reset the count it returned and how many sets came before. -/
structure Sys (T : Type) where
  isSet : Bool
  signalCount : Nat
  /-- who has locked `os_mutex` -/
  osMutex : Option T
  pc : T → Pc
  sets : Nat
  resets : List (Nat × Nat)

/-- The functions of the event that a thread calls. -/
inductive Call where
  | set
  | reset
  | wait (timed : Bool) (resetSigCount : Nat)
  deriving DecidableEq, Repr

/-- What happens next: a call, a step of a thread, or the end of a wait that no broadcast has
ended. -/
inductive Act (T : Type) where
  | call (t : T) (c : Call)
  | run (t : T)
  /-- A thread in `os_cond_wait` wakes up without a broadcast. -/
  | spurious (t : T)
  /-- The time of `os_cond_wait_timed` is over. -/
  | timeout (t : T)

/-- Each function begins with the lock of `os_mutex`. -/
def Call.entry : Call → Pc
  | set => .setLock
  | reset => .resetLock
  | wait timed resetSigCount => .waitLock timed resetSigCount

/-- The broadcast. -/
def Pc.broadcast : Pc → Pc
  | asleep timed resetSigCount => awake timed resetSigCount false
  | p => p

variable [DecidableEq T]

namespace Sys

/-- The thread goes on to another point. -/
def goto (s : Sys T) (t : T) (p : Pc) : Sys T := { s with pc := Function.update s.pc t p }

/-- `os_fast_mutex_lock`; `none` while another thread has the mutex. -/
def lock (s : Sys T) (t : T) (p : Pc) : Option (Sys T) :=
  if s.osMutex = none then some ({ s with osMutex := some t }.goto t p) else none

/-- The section of `os_event_set`. -/
def signal (s : Sys T) : Sys T :=
  if s.isSet then { s with sets := s.sets + 1 }
  else
    { s with
      isSet := true
      signalCount := s.signalCount + 1
      pc := fun u => (s.pc u).broadcast
      sets := s.sets + 1 }

/-- The section of `os_event_reset`. -/
def clear (s : Sys T) : Sys T :=
  { s with isSet := false, resets := (s.signalCount, s.sets) :: s.resets }

/-- The next operation of a thread; `none` while it cannot go on. -/
def run (s : Sys T) (t : T) : Option (Sys T) :=
  match s.pc t with
  | .idle => none
  | .setLock => s.lock t .set
  | .set => some (s.signal.goto t (.unlock .unit))
  | .resetLock => s.lock t .reset
  | .reset => some (s.clear.goto t (.unlock (.count s.signalCount)))
  | .waitLock timed count => s.lock t (.waitCount timed count)
  | .waitCount timed count =>
    some (s.goto t (.waitTest timed (if count = 0 then s.signalCount else count)))
  | .waitTest timed count =>
    if s.isSet = false ∧ s.signalCount = count then
      some ({ s with osMutex := none }.goto t (.asleep timed count))
    else some (s.goto t (.unlock (.waited count false)))
  | .asleep _ _ => none
  | .awake timed count timedOut =>
    s.lock t (if timedOut then .unlock (.waited count true) else .waitTest timed count)
  | .unlock _ => some ({ s with osMutex := none }.goto t .idle)

/-- A sleeping thread wakes up without a broadcast; only a timed wait can be timed out. -/
def wake (s : Sys T) (t : T) (timedOut : Bool) : Option (Sys T) :=
  match s.pc t with
  | .asleep timed count =>
    if timed = true ∨ timedOut = false then some (s.goto t (.awake timed count timedOut)) else none
  | _ => none

end Sys

/-- One step of the machine, `none` where the action is not possible. -/
def step (s : Sys T) : Act T → Option (Sys T)
  | .call t c => if s.pc t = .idle then some (s.goto t c.entry) else none
  | .run t => s.run t
  | .spurious t => s.wake t false
  | .timeout t => s.wake t true

/-- `os_event_create` -/
def init : Sys T where
  isSet := false
  signalCount := 1
  osMutex := none
  pc := fun _ => .idle
  sets := 0
  resets := []

@[simp] theorem goto_pc_self (s : Sys T) (t : T) (p : Pc) : (s.goto t p).pc t = p :=
  Function.update_self _ _ _

theorem goto_pc_of_ne {s : Sys T} {t u : T} {p : Pc} (h : u ≠ t) : (s.goto t p).pc u = s.pc u :=
  Function.update_of_ne h _ _

end Htmsql.OsEvent
