import Htmsql.Innodb.MutexCode
import Htmsql.Lib.Wakeup

/-!
# The mutex functions keep the waiting protocol

`view` reads a mutex and the positions of all threads in its code as a state of the abstract
waiting protocol: `lock_word` is the lock, `waiters` the flag, and a thread waits from the
moment it has set `waiters` until the signal count has moved on from the one it remembered.
Every operation of the code is then some steps of the protocol (`exec_steps`), so the protocol's
invariant holds whatever else the threads do between these operations.
-/

namespace Htmsql.Innodb

open Wakeup (Role State Step Steps)

variable {T : Type} [DecidableEq T]

/-- The part a thread plays in the waiting protocol. A waiter whose remembered count is not the
current one has been signalled. -/
def MutexPc.role (signals : Nat) : MutexPc → Role
  | late count _ => if count = signals then .announced else .other
  | wait count => if count = signals then .suspended else .other
  | released => .released
  | clear => .clearing
  | signal => .setting
  | _ => .other

/-- A remembered signal count is never ahead of the event's. -/
def MutexPc.Current (signals : Nat) : MutexPc → Prop
  | announce count => count ≤ signals
  | late count _ => count ≤ signals
  | wait count => count ≤ signals
  | _ => True

/-- What the signalling is about: whether the lock is taken, the flag of the waiters, and what
each thread is to the others at its point. -/
def view (m : IbMutex) (pcs : T → MutexPc) : State T where
  locked := m.lockWord != 0
  flag := m.waiters != 0
  role t := (pcs t).role m.signalCount

theorem MutexPc.current_mono {signals signals' : Nat} (h : signals ≤ signals') {p : MutexPc}
    (hp : p.Current signals) : p.Current signals' := by
  cases p <;> first | trivial | exact Nat.le_trans hp h

@[simp] theorem MutexPc.role_afterTestAndSet (signals : Nat) (debug : Bool) :
    (afterTestAndSet debug).role signals = .other := by
  cases debug <;> rfl

@[simp] theorem MutexPc.current_afterTestAndSet (signals : Nat) (debug : Bool) :
    (afterTestAndSet debug).Current signals := by
  cases debug <;> trivial

/-- Who is obliged is in an exit function, past its store of `lock_word`. -/
theorem MutexPc.of_obliged {signals : Nat} {p : MutexPc} (h : (p.role signals).obliged) :
    p = released ∨ p = clear ∨ p = signal := by
  cases p <;> simp only [role] at h
  case late count i | wait count => split at h <;> exact h.elim
  case released => exact Or.inl rfl
  case clear => exact Or.inr (Or.inl rfl)
  case signal => exact Or.inr (Or.inr rfl)
  all_goals exact h.elim

/-- After one more signal nobody waits: a count remembered before it is not the new one. -/
theorem MutexPc.role_succ {signals : Nat} {p : MutexPc} (hp : p.Current signals) :
    ((p.role signals).waits → p.role (signals + 1) = .other) ∧
      (¬ (p.role signals).waits → p.role (signals + 1) = p.role signals) := by
  cases p
  case late count i | wait count =>
    have hne : count ≠ signals + 1 := by
      change count ≤ signals at hp
      omega
    simp only [role, if_neg hne]
    refine ⟨fun _ => trivial, fun hw => ?_⟩
    split at hw
    · exact (hw trivial).elim
    · rename_i hcur
      rw [if_neg hcur]
  all_goals exact ⟨fun hw => hw.elim, fun _ => rfl⟩

/-- Only `os_event_set` moves the signal count, and it moves it forwards. -/
theorem exec_signalCount {P : Type} {m m' : IbMutex} {i : Instr P} {p' : P}
    (he : m.exec i = some (m', p')) : m.signalCount ≤ m'.signalCount := by
  cases i <;> simp only [IbMutex.exec, Option.some.injEq, Prod.mk.injEq] at he
  case waitEvent count next =>
    split at he
    · cases he
    · cases he
      exact Nat.le_refl _
  all_goals
    obtain ⟨rfl, -⟩ := he
    simp

theorem exec_current {debug : Bool} {rounds : Nat} {m m' : IbMutex} {p p' : MutexPc}
    {i : Instr MutexPc} (hi : code debug rounds p = some i) (he : m.exec i = some (m', p'))
    (hp : p.Current m.signalCount) : p'.Current m'.signalCount := by
  have hs := exec_signalCount he
  cases p <;> simp only [code, Option.some.injEq, reduceCtorEq] at hi <;> subst hi
  case wait count =>
    simp only [IbMutex.exec] at he
    split at he
    · cases he
    · cases he
      trivial
  all_goals
    simp only [IbMutex.exec, Option.some.injEq, Prod.mk.injEq] at he
    obtain ⟨rfl, rfl⟩ := he
  case enter => split <;> first | exact MutexPc.current_afterTestAndSet _ _ | trivial
  case spin i => split <;> trivial
  case spinTry i =>
    split
    · exact MutexPc.current_afterTestAndSet _ _
    · split <;> trivial
  case reserve => exact Nat.le_refl _
  case announce count => exact hp
  case late count i =>
    split
    · exact MutexPc.current_afterTestAndSet _ _
    · split <;> exact hp
  case released => split <;> trivial
  all_goals trivial

/-! ## One operation of the code is some steps of the protocol -/

theorem setRole_eq_self {a : State T} {t : T} {r : Role} (h : a.role t = r) :
    a.setRole t r = a := by
  simp [State.setRole, ← h]

theorem view_update (m : IbMutex) (pcs : T → MutexPc) (t : T) (p' : MutexPc) :
    view m (Function.update pcs t p') = (view m pcs).setRole t (p'.role m.signalCount) := by
  simp only [view, State.setRole, State.mk.injEq, true_and]
  funext u
  simp only [Function.update_apply]
  split <;> rfl

/-- A thread that moves on without changing its role or the mutex. -/
theorem steps_stay {m : IbMutex} {pcs : T → MutexPc} {t : T} {p' : MutexPc}
    (h : (pcs t).role m.signalCount = p'.role m.signalCount) :
    Steps (view m pcs) (view m (Function.update pcs t p')) := by
  rw [view_update, setRole_eq_self h]
  exact .refl

/-- A test-and-set by a thread that owes nothing: it takes the lock, or it leaves the lock word
as it was and the thread goes on to `p'`. -/
theorem steps_testAndSet {debug : Bool} {m : IbMutex} {pcs : T → MutexPc} {t : T} {p' : MutexPc}
    (hn : ¬ ((pcs t).role m.signalCount).obliged)
    (hfail : m.lockWord ≠ 0 → Steps (view m pcs) (view m (Function.update pcs t p'))) :
    Steps (view m pcs) (view { m with lockWord := 1 }
      (Function.update pcs t (if m.lockWord = 0 then .afterTestAndSet debug else p'))) := by
  by_cases hw : m.lockWord = 0
  · refine .single ?_
    have hv : view { m with lockWord := 1 } (Function.update pcs t (.afterTestAndSet debug)) =
        { (view m pcs).setRole t .other with locked := true } := by
      rw [view_update, MutexPc.role_afterTestAndSet]
      rfl
    rw [if_pos hw, hv]
    exact .lock _ t hn
  · have hv : view { m with lockWord := 1 } (Function.update pcs t p') =
        view m (Function.update pcs t p') := by
      simp [view, hw]
    rw [if_neg hw, hv]
    exact hfail hw

theorem exec_steps {debug : Bool} {rounds : Nat} {m m' : IbMutex} {pcs : T → MutexPc} {t : T}
    {p' : MutexPc} {i : Instr MutexPc} (hc : ∀ u, (pcs u).Current m.signalCount)
    (hi : code debug rounds (pcs t) = some i) (he : m.exec i = some (m', p')) :
    Steps (view m pcs) (view m' (Function.update pcs t p')) := by
  have hrole : (view m pcs).role t = (pcs t).role m.signalCount := rfl
  cases hp : pcs t <;> rw [hp] at hi hrole <;>
    simp only [code, Option.some.injEq, reduceCtorEq] at hi <;> subst hi
  case wait count =>
    simp only [IbMutex.exec] at he
    split at he
    · cases he
    · rename_i hne
      cases he
      apply steps_stay
      simp [hp, MutexPc.role, Ne.symm hne]
  all_goals
    simp only [IbMutex.exec, Option.some.injEq, Prod.mk.injEq] at he
    obtain ⟨rfl, rfl⟩ := he
  case enter =>
    exact steps_testAndSet (by simp [hp, MutexPc.role, Role.obliged])
      fun _ => steps_stay (by simp [hp, MutexPc.role])
  case spin i =>
    apply steps_stay
    split <;> simp [hp, MutexPc.role]
  case spinTry i =>
    refine steps_testAndSet (by simp [hp, MutexPc.role, Role.obliged]) fun _ => steps_stay ?_
    split <;> simp [hp, MutexPc.role]
  case reserve => exact steps_stay (by simp [hp, MutexPc.role])
  case announce count =>
    have hv : ∀ r, MutexPc.role m.signalCount (.late count 0) = r →
        view { m with waiters := 1 } (Function.update pcs t (.late count 0)) =
          { (view m pcs).setRole t r with flag := true } := by
      rintro r rfl
      rw [view_update]
      rfl
    by_cases hcur : count = m.signalCount
    · rw [hv .announced (if_pos hcur)]
      exact .single (.announce _ t hrole)
    · -- signalled already: the flag goes up on behalf of nobody
      rw [hv .other (if_neg hcur), setRole_eq_self (show (view m pcs).role t = .other from hrole)]
      exact .single (.raise _)
  case late count i =>
    refine steps_testAndSet ?_ fun hw => ?_
    · rw [hp]
      simp only [MutexPc.role]
      split <;> exact id
    · by_cases hi : i + 1 < 4
      · rw [if_pos hi]
        exact steps_stay (by simp [hp, MutexPc.role])
      · rw [if_neg hi]
        by_cases hcur : count = m.signalCount
        · rw [view_update]
          simp only [MutexPc.role, hcur, if_true] at hrole ⊢
          exact .single (.suspend _ t hrole (by simpa [view] using hw))
        · exact steps_stay (by simp [hp, MutexPc.role, hcur])
  case acquired => exact steps_stay (by simp [hp, MutexPc.role])
  case disown => exact steps_stay (by simp [hp, MutexPc.role])
  case reset =>
    have h₁ : Step (view m pcs) ((view m pcs).setRole t .released) := .release _ t hrole
    have h₂ := Step.unlock ((view m pcs).setRole t .released) t (by simp [State.setRole])
    have hv : view { m with lockWord := 0 } (Function.update pcs t .released) =
        { (view m pcs).setRole t .released with locked := false } := by
      rw [view_update]
      rfl
    rw [hv]
    exact .tail (.single h₁) h₂
  case released =>
    rw [view_update]
    by_cases hw : m.waiters = 0
    · rw [if_neg (not_not.mpr hw)]
      exact .single (.pass _ t hrole (by simp [view, hw]))
    · rw [if_pos hw]
      exact .single (.oblige _ t (Or.inl hrole))
  case clear =>
    have h₁ : Step (view m pcs) ((view m pcs).setRole t .setting) := .clear _ t hrole
    have h₂ := Step.lower ((view m pcs).setRole t .setting) t (by simp [State.setRole])
    have hv : view { m with waiters := 0 } (Function.update pcs t .signal) =
        { (view m pcs).setRole t .setting with flag := false } := by
      rw [view_update]
      rfl
    rw [hv]
    exact .tail (.single h₁) h₂
  case signal =>
    refine .single (.signal _ t hrole _ (fun u hu => ?_) fun u hne hu => ?_)
    · by_cases he : u = t
      · simp [he, MutexPc.role]
      · simp only [Function.update_of_ne he]
        exact (MutexPc.role_succ (hc u)).1 (hu.resolve_left he)
    · simp only [Function.update_of_ne hne]
      exact (MutexPc.role_succ (hc u)).2 hu

end Htmsql.Innodb
