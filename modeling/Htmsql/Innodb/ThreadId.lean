import Htmsql.Innodb.MutexCode

/-!
# The owner that `UNIV_DEBUG` keeps

With `UNIV_DEBUG` an `ib_mutex_t` has a field `thread_id`, which `mutex_enter_func` sets to the
calling thread and `mutex_exit_func` to `ULINT_UNDEFINED`. The value is a thread of the system or,
as `none`, anything else.
-/

namespace Htmsql.Innodb

variable {T : Type}

/-- An `ib_mutex_t` with `thread_id`. -/
structure DebugMutex (T : Type) where
  ib : IbMutex
  threadId : Option T

/-- One operation of the mutex code by thread `t`, with `thread_id`. -/
def DebugMutex.exec {P : Type} (m : DebugMutex T) (t : T) : Instr P → Option (DebugMutex T × P)
  | .setThreadId own next => some ({ m with threadId := if own then some t else none }, next)
  | i => (m.ib.exec i).map fun (ib, p) => ({ m with ib := ib }, p)

/-- The points at which `thread_id` is the thread's own. -/
def MutexPc.ownsId : MutexPc → Bool
  | owner => true
  | disown => true
  | _ => false

variable {m m' : DebugMutex T} {t : T} {p p' : MutexPc} {i : Instr MutexPc}

/-- The operations on the other fields. -/
theorem DebugMutex.exec_ib (h : m.exec t i = some (m', p')) :
    m.ib.exec i = some (m'.ib, p') := by
  cases i
  case setThreadId own next =>
    cases h
    rfl
  all_goals
    simp only [DebugMutex.exec, Option.map_eq_some_iff] at h
    obtain ⟨⟨ib, q⟩, hx, hq⟩ := h
    cases hq
    exact hx

/-- An operation writes `thread_id` where the thread's own points begin and end. -/
theorem DebugMutex.exec_threadId {rounds : Nat} (hi : code true rounds p = some i)
    (hx : m.exec t i = some (m', p')) :
    (p = .acquired ∧ p' = .owner ∧ m'.threadId = some t) ∨
      (p = .disown ∧ p' = .reset ∧ m'.threadId = none) ∨
      (m'.threadId = m.threadId ∧ p.ownsId = false ∧ p'.ownsId = false) := by
  cases p <;> simp only [code, Option.some.injEq, reduceCtorEq] at hi <;> subst hi
  case acquired =>
    cases hx
    exact Or.inl ⟨rfl, rfl, rfl⟩
  case disown =>
    cases hx
    exact Or.inr (Or.inl ⟨rfl, rfl, rfl⟩)
  all_goals
    refine Or.inr (Or.inr ?_)
    simp only [DebugMutex.exec, Option.map_eq_some_iff] at hx
    obtain ⟨⟨ib, q⟩, hx, hq⟩ := hx
    cases hq
    refine ⟨rfl, rfl, ?_⟩
    simp only [IbMutex.exec] at hx
  case wait count =>
    split at hx
    · cases hx
    · cases hx
      rfl
  all_goals
    cases hx
    first | rfl | (repeat' split) <;> rfl

end Htmsql.Innodb
