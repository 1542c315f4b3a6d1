import Htmsql.Innodb.Holder
import Htmsql.Innodb.Signalling
import Htmsql.Lib.Run

/-!
# The mutex with atomic operations

The functions of an InnoDB mutex as a machine of their own: any number of threads, one mutex, every
operation at once. The spin loop may end at any time, so that a tree may read the lock word in it as
it likes. At most one thread holds the mutex, and the waiting protocol is kept (`Atomic.reach_inv`).
A tree whose states are states of this machine has both.
-/

namespace Htmsql.Innodb

open Run
open Wakeup (Steps Safe)

variable {T : Type} [DecidableEq T]

/-- An `ib_mutex_t` and the threads in its functions. -/
structure Atomic (T : Type) where
  ib : IbMutex
  pc : T → MutexPc

/-- The calls of the mutex functions and the steps inside them. -/
inductive AtomicAct (T : Type) where
  | enter (t : T)
  /-- `mutex_enter_nowait_func` that returns 0 -/
  | enterNowait (t : T)
  | exit (t : T)
  | run (t : T)
  /-- the `spin_loop` ends early -/
  | endSpin (t : T)

/-- The thread goes on to another point. -/
def Atomic.goto (a : Atomic T) (t : T) (p : MutexPc) : Atomic T :=
  { a with pc := Function.update a.pc t p }

/-- One step, `none` where the call is not admitted or the thread is blocked. The test-and-set and
the reset are one step each. -/
def Atomic.step (debug : Bool) (rounds : Nat) (a : Atomic T) : AtomicAct T → Option (Atomic T)
  | .enter t => if a.pc t = .done then some (a.goto t .enter) else none
  | .enterNowait t =>
    if a.pc t = .done ∧ a.ib.lockWord = 0 then
      some ({ a with ib := { a.ib with lockWord := 1 } }.goto t (.afterTestAndSet debug))
    else none
  | .exit t => if a.pc t = .owner then some (a.goto t (.exit debug)) else none
  | .run t =>
    (code debug rounds (a.pc t)).bind fun i =>
      (a.ib.exec i).map fun (ib, p') => { a with ib := ib }.goto t p'
  | .endSpin t =>
    match a.pc t with
    | .spin i => some (a.goto t (.spinTry i))
    | _ => none

/-- `mutex_create_func`: the mutex free and no thread in a function. -/
def Atomic.init : Atomic T := ⟨⟨0, 0, 1⟩, fun _ => .done⟩

/-! ## Its invariant -/

variable {debug : Bool} {rounds : Nat} {a a' : Atomic T} {t : T} {p p' : MutexPc}
  {i : Instr MutexPc} {m m' : IbMutex}

theorem Atomic.step_run (hi : code debug rounds (a.pc t) = some i)
    (he : a.ib.exec i = some (m', p')) :
    Atomic.step debug rounds a (.run t) = some (({ a with ib := m' } : Atomic T).goto t p') := by
  simp only [Atomic.step, hi, Option.bind_some, he, Option.map_some]

/-- The lock word has one holder, the waiting protocol is kept, and no thread remembers a signal
count ahead of the event's. -/
structure Atomic.Inv (a : Atomic T) : Prop where
  held : Held a.ib.lockWord fun t => (a.pc t).holds
  current : ∀ t, (a.pc t).Current a.ib.signalCount
  safe : Safe (view a.ib a.pc)

omit [DecidableEq T] in
theorem Atomic.inv_init : (Atomic.init : Atomic T).Inv := by
  refine ⟨held_free fun _ => rfl, fun _ => trivial, fun w hw => ?_, fun w hw => ?_⟩
  · exact hw.elim
  · cases hw

@[simp] theorem Atomic.goto_pc_self (a : Atomic T) (t : T) (p : MutexPc) : (a.goto t p).pc t = p :=
  Function.update_self _ _ _

theorem Atomic.goto_pc_of_ne {u : T} (h : u ≠ t) : (a.goto t p).pc u = a.pc u :=
  Function.update_of_ne h _ _

theorem Atomic.Inv.goto (h : a.Inv)
    (hheld : Held m.lockWord fun u => ((a.goto t p).pc u).holds)
    (hcount : a.ib.signalCount ≤ m.signalCount) (hp : p.Current m.signalCount)
    (hs : Steps (view a.ib a.pc) (view m (Function.update a.pc t p))) :
    (({ a with ib := m } : Atomic T).goto t p).Inv := by
  refine ⟨hheld, fun u => ?_, h.safe.steps hs⟩
  by_cases hu : u = t
  · subst hu
    rw [Atomic.goto_pc_self]
    exact hp
  · rw [Atomic.goto_pc_of_ne hu]
    exact MutexPc.current_mono hcount (h.current u)

/-- A thread goes on that neither takes nor gives back the mutex and has no part in the waiting
protocol. -/
theorem Atomic.Inv.stay (h : a.Inv) (hholds : p.holds = (a.pc t).holds)
    (hp : p.Current a.ib.signalCount)
    (hr : (a.pc t).role a.ib.signalCount = p.role a.ib.signalCount) : (a.goto t p).Inv := by
  refine h.goto (h.held.congr fun u => ?_) (Nat.le_refl _) hp (steps_stay hr)
  by_cases hu : u = t
  · subst hu
    rw [Atomic.goto_pc_self, hholds]
  · rw [Atomic.goto_pc_of_ne hu]

theorem Atomic.Inv.step {b : AtomicAct T} (h : a.Inv)
    (hs : Atomic.step debug rounds a b = some a') : a'.Inv := by
  cases b with
  | enter t =>
    simp only [Atomic.step] at hs
    split at hs
    · rename_i hdone
      obtain rfl := Option.some.inj hs
      exact h.stay (by rw [hdone]; rfl) trivial (by rw [hdone]; rfl)
    · cases hs
  | enterNowait t =>
    simp only [Atomic.step] at hs
    split at hs
    · rename_i hcond
      obtain rfl := Option.some.inj hs
      have hsteps : Steps (view a.ib a.pc) (view { a.ib with lockWord := 1 }
          (Function.update a.pc t
            (if a.ib.lockWord = 0 then .afterTestAndSet debug else .done))) :=
        steps_testAndSet (by rw [hcond.1]; exact id) fun hw => (hw hcond.2).elim
      rw [if_pos hcond.2] at hsteps
      have hheld := h.held
      rw [hcond.2] at hheld
      refine h.goto (hheld.take (t := t) ?_ fun u hu => ?_) (Nat.le_refl _)
        (MutexPc.current_afterTestAndSet _ _) hsteps
      · rw [Atomic.goto_pc_self]
        exact MutexPc.holds_afterTestAndSet debug
      · rw [Atomic.goto_pc_of_ne hu]
    · cases hs
  | exit t =>
    simp only [Atomic.step] at hs
    split at hs
    · rename_i howner
      obtain rfl := Option.some.inj hs
      refine h.stay ?_ ?_ ?_
      · rw [howner]
        cases debug <;> rfl
      · cases debug <;> trivial
      · rw [howner]
        cases debug <;> rfl
    · cases hs
  | run t =>
    simp only [Atomic.step, Option.bind_eq_some_iff, Option.map_eq_some_iff] at hs
    obtain ⟨i, hi, ⟨m', p'⟩, he, rfl⟩ := hs
    refine h.goto (h.held.exec (t := t) rfl ?_ (fun u hu => ?_) hi he) (exec_signalCount he)
      (exec_current hi he (h.current t)) (exec_steps h.current hi he)
    · rw [Atomic.goto_pc_self]
    · rw [Atomic.goto_pc_of_ne hu]
  | endSpin t =>
    simp only [Atomic.step] at hs
    split at hs
    · rename_i i hspin
      obtain rfl := Option.some.inj hs
      exact h.stay (by rw [hspin]; rfl) trivial (by rw [hspin]; rfl)
    · cases hs

theorem Atomic.reach_inv
    (h : Reach (Atomic.step debug rounds) (· = Atomic.init) (fun _ _ => True) a) : a.Inv := by
  refine h.invariant (I := Atomic.Inv) ?_ fun s a s' hs _ hstep => hs.step hstep
  rintro _ rfl
  exact Atomic.inv_init

end Htmsql.Innodb
