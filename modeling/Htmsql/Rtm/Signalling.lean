import Htmsql.Innodb.Signalling
import Htmsql.Rtm.LockWord

/-!
# No wakeup is lost when speculative exits read `waiters`

`rtm_mutex_exit_func` reads `waiters` after `rtm_unlock`, also when the section was a
transaction and the thread never held the mutex, and may go on to `mutex_signal_object`. In the
terms of the waiting protocol such a thread owes nobody a look at the flag: its position before
this read counts as outside the mutex code (`Pc.mutexPc`). If it finds the flag raised it joins
the signalling threads, which the protocol allows to everybody.

Transactions do not matter otherwise: they never write a field of the mutex, and a thread whose
transaction is aborted was not inside the mutex code.
-/

namespace Htmsql.Rtm

open Innodb Run
open Wakeup (Role Step Steps Safe)

variable {T D V : Type}

/-- The point of the mutex code at which a thread is, for the waiting protocol. -/
def Pc.mutexPc : Pc → MutexPc
  | .mutex _ p => p
  | .exitTail .released => .done
  | .exitTail p => p
  | _ => .done

/-- The point of each thread in the code of the mutex. -/
def Sys.mutexPcs (s : Sys T D V) (t : T) : MutexPc := (s.pc t).mutexPc

/-- What the state is to those who wait for the mutex. -/
def Sys.waiting (s : Sys T D V) : Wakeup.State T := view s.mutex s.mutexPcs

/-- No thread remembers a signal count ahead of the event's, and `waiters` is 0 or 1. -/
structure EventInv (s : Sys T D V) : Prop where
  current : ∀ t, (s.mutexPcs t).Current s.mutex.signalCount
  flag : s.mutex.waiters ≤ 1

@[simp] theorem mutexPc_afterMutex (call : Call) (p : MutexPc) :
    (afterMutex call p).mutexPc = p := by
  cases call <;> cases p <;> rfl

theorem mutexPc_afterTail {p : MutexPc} (h : p ≠ .released) : (afterTail p).mutexPc = p := by
  cases p <;> first | rfl | exact (h rfl).elim

theorem exec_waiters {debug : Bool} {rounds : Nat} {m m' : IbMutex} {p p' : MutexPc}
    {i : Instr MutexPc} (hi : code debug rounds p = some i) (he : m.exec i = some (m', p'))
    (hw : m.waiters ≤ 1) : m'.waiters ≤ 1 := by
  cases p <;> simp only [code, Option.some.injEq, reduceCtorEq] at hi <;> subst hi
  case wait count =>
    simp only [IbMutex.exec] at he
    split at he
    · cases he
    · cases he
      exact hw
  all_goals
    simp only [IbMutex.exec, Option.some.injEq, Prod.mk.injEq] at he
    obtain ⟨rfl, -⟩ := he
    first | exact hw | exact Nat.le_refl 1 | exact Nat.zero_le 1

variable {v : Variant} {s s' : Sys T D V}

/-- The waiting protocol sees of a step only the mutex and the roles of the threads. -/
theorem waiting_congr (hm : s'.mutex = s.mutex)
    (hr : ∀ t, (s'.mutexPcs t).role s.mutex.signalCount =
      (s.mutexPcs t).role s.mutex.signalCount) : s'.waiting = s.waiting := by
  have : (s'.waiting).role = s.waiting.role := by
    ext t
    simp only [Sys.waiting, view, hm]
    exact hr t
  simp only [Sys.waiting, view, hm] at this ⊢
  rw [this]

/-- A thread whose transaction is aborted was outside the mutex code and stays there. -/
theorem LockInv.mutexPcs_abortAll (h : LockInv v s) (hit : T → Txn D V → Bool) (t : T) :
    (s.abortAll hit).mutexPcs t = s.mutexPcs t := by
  unfold Sys.mutexPcs
  rcases abortAll_cases s hit t with ⟨hp, -, -⟩ | ⟨x, hx, -, -, hp⟩
  · rw [hp]
  · rcases (h.thread t).txn_pc x hx with hq | hq <;> rw [hp, hq] <;> rfl

theorem EventInv.congr (h : EventInv s) (hm : s'.mutex = s.mutex)
    (hp : ∀ t, s'.mutexPcs t = s.mutexPcs t ∨ (s'.mutexPcs t).Current s.mutex.signalCount) :
    EventInv s' := by
  refine ⟨fun t => ?_, hm ▸ h.flag⟩
  rw [hm]
  rcases hp t with ht | ht
  · rw [ht]
    exact h.current t
  · exact ht

/-! ## What the protocol says of the threads -/

/-- The thread is in `sync_array_wait_event` and the event has not been set since it reserved
its cell. -/
def Sys.Suspended (s : Sys T D V) (t : T) : Prop :=
  ∃ call, s.pc t = .mutex call (.wait s.mutex.signalCount)

/-- The thread is between `mutex_set_waiters(mutex, 0)` and `os_event_set`. -/
def Sys.Signalling (s : Sys T D V) (t : T) : Prop :=
  (∃ call, s.pc t = .mutex call .signal) ∨ s.pc t = .exitTail .signal

/-- The thread is in `mutex_signal_object`. -/
def Sys.InSignalObject (s : Sys T D V) (t : T) : Prop :=
  (∃ call, s.pc t = .mutex call .clear) ∨ s.pc t = .exitTail .clear ∨ s.Signalling t

/-- The thread has reset the lock word and has not read `waiters` since. -/
def Sys.Released (s : Sys T D V) (t : T) : Prop := ∃ call, s.pc t = .mutex call .released

theorem obliged_waiting {t : T} (h : (s.waiting.role t).obliged) :
    s.Released t ∨ s.InSignalObject t := by
  change ((s.pc t).mutexPc.role s.mutex.signalCount).obliged at h
  unfold Sys.Released Sys.InSignalObject Sys.Signalling
  cases hp : s.pc t with
  | mutex call p =>
    rw [hp] at h
    obtain rfl | rfl | rfl := MutexPc.of_obliged (p := p) h
    all_goals simp
  | exitTail p =>
    rw [hp] at h
    -- its `released` stands for a thread outside
    have hp' := MutexPc.of_obliged h
    cases p <;> simp [Pc.mutexPc] at hp' ⊢
  | idle | started | speculative | xbegin n | aborted n =>
    rw [hp] at h
    exact h.elim

theorem setting_waiting {t : T} (h : s.waiting.role t = .setting) : s.Signalling t := by
  have hob : (s.waiting.role t).obliged := by rw [h]; trivial
  have hrole : (s.pc t).mutexPc.role s.mutex.signalCount = .setting := h
  rcases obliged_waiting hob with ⟨call, hp⟩ | ⟨call, hp⟩ | hp | hp
  · rw [hp] at hrole
    cases hrole
  · rw [hp] at hrole
    cases hrole
  · rw [hp] at hrole
    cases hrole
  · exact hp

theorem Sys.Suspended.role {t : T} (h : s.Suspended t) : s.waiting.role t = .suspended := by
  obtain ⟨call, hp⟩ := h
  change (s.pc t).mutexPc.role s.mutex.signalCount = _
  rw [hp]
  simp [Pc.mutexPc, MutexPc.role]

variable [DecidableEq T]

theorem mutexPcs_setPc (s : Sys T D V) (t : T) (p : Pc) :
    (s.setPc t p).mutexPcs = Function.update s.mutexPcs t p.mutexPc := by
  ext u
  simp only [Sys.mutexPcs, Sys.setPc, Function.update_apply]
  split <;> rfl

/-! ## Steps outside the mutex code -/

/-- A step that leaves the mutex alone and moves one thread between points outside the part of
the code that the waiting protocol is about. -/
theorem waiting_of_quiet (he : EventInv s) (t : T) (hm : s'.mutex = s.mutex)
    (hother : ∀ u, u ≠ t → s'.mutexPcs u = s.mutexPcs u)
    (hold : ∀ n, (s.mutexPcs t).role n = .other) (hnew : ∀ n, (s'.mutexPcs t).role n = .other)
    (hc : (s'.mutexPcs t).Current s.mutex.signalCount) :
    s'.waiting = s.waiting ∧ EventInv s' := by
  refine ⟨waiting_congr hm fun u => ?_, he.congr hm fun u => ?_⟩
  · by_cases hu : u = t
    · rw [hu, hold, hnew]
    · rw [hother u hu]
  · by_cases hu : u = t
    · exact Or.inr (hu ▸ hc)
    · exact Or.inl (hother u hu)

theorem waiting_setPc (he : EventInv s) {t : T} {p : Pc}
    (hold : ∀ n, (s.mutexPcs t).role n = .other) (hnew : ∀ n, p.mutexPc.role n = .other)
    (hc : ∀ n, p.mutexPc.Current n) :
    (s.setPc t p).waiting = s.waiting ∧ EventInv (s.setPc t p) := by
  have hp : (s.setPc t p).mutexPcs t = p.mutexPc := by simp [mutexPcs_setPc]
  refine waiting_of_quiet he t rfl (fun u hu => ?_) hold (hp ▸ hnew) (hp ▸ hc _)
  rw [mutexPcs_setPc, Function.update_of_ne hu]

/-- A thread that speculates, or is about to, is outside the mutex code. -/
theorem waiting_setPc_setTxn (he : EventInv s) {t : T} {p : Pc} (x : Option (Txn D V))
    (hold : ∀ n, (s.mutexPcs t).role n = .other) (hnew : p.mutexPc = .done) :
    ((s.setPc t p).setTxn t x).waiting = s.waiting ∧ EventInv ((s.setPc t p).setTxn t x) := by
  obtain ⟨hw, he'⟩ := waiting_setPc he hold (p := p) (fun _ => by rw [hnew]; rfl)
    (fun _ => by rw [hnew]; trivial)
  exact ⟨hw, he'.current, he'.flag⟩

/-! ## An operation of the mutex code -/

/-- The state after an operation, for the waiting protocol. -/
theorem LockInv.mutexPcs_runInstr (h : LockInv v s) (hit : T → Txn D V → Bool) (m : IbMutex)
    (t : T) (p : Pc) :
    ((({ s with mutex := m }.abortAll hit).noteOverlap).setPc t p).mutexPcs =
      Function.update s.mutexPcs t p.mutexPc := by
  rw [mutexPcs_setPc]
  congr 1
  ext u
  exact h.mutexPcs_abortAll hit u

theorem steps_runInstr (h : LockInv v s) (he : EventInv s) {rounds : Nat} {t : T} {m : IbMutex}
    {p' : MutexPc} {i : Instr MutexPc} {p : Pc} (hit : T → Txn D V → Bool)
    (hi : code false rounds (s.mutexPcs t) = some i) (hx : s.mutex.exec i = some (m, p'))
    (hp : p.mutexPc = p') (hs' : s'.mutex = m)
    (hpc : s'.mutexPcs =
      ((({ s with mutex := m }.abortAll hit).noteOverlap).setPc t p).mutexPcs) :
    Wakeup.Steps s.waiting s'.waiting ∧ EventInv s' := by
  rw [h.mutexPcs_runInstr, hp] at hpc
  refine ⟨?_, fun u => ?_, hs' ▸ exec_waiters hi hx he.flag⟩
  · unfold Sys.waiting
    rw [hpc, hs']
    exact exec_steps he.current hi hx
  · rw [hpc, hs', Function.update_apply]
    split
    · exact exec_current hi hx (he.current t)
    · exact MutexPc.current_mono (exec_signalCount hx) (he.current u)

/-- The look at `waiters` by a thread that owes nobody this look. -/
theorem waiting_peek (h : LockInv v s) (he : EventInv s) {t : T} (hit : T → Txn D V → Bool)
    (hp : s.pc t = .exitTail .released) {p : MutexPc}
    (hq : p = if s.mutex.waiters ≠ 0 then .clear else .done)
    (hs' : s' = ((s.abortAll hit).noteOverlap).setPc t (afterTail p)) :
    Steps s.waiting s'.waiting ∧ EventInv s' := by
  have hpcs : s'.mutexPcs = Function.update s.mutexPcs t p := by
    rw [hs']
    apply (h.mutexPcs_runInstr hit s.mutex t (afterTail p)).trans
    rw [mutexPc_afterTail]
    rw [hq]
    split <;> simp
  have hm : s'.mutex = s.mutex := by rw [hs']; rfl
  have hview : s'.waiting = s.waiting.setRole t (p.role s.mutex.signalCount) := by
    unfold Sys.waiting
    rw [hpcs, hm]
    exact view_update s.mutex s.mutexPcs t p
  have hother : s.waiting.role t = .other := by
    change (s.mutexPcs t).role _ = _
    rw [Sys.mutexPcs, hp]
    rfl
  refine ⟨?_, fun u => ?_, hm ▸ he.flag⟩
  · rw [hview, hq]
    split
    · exact .single (.oblige _ t (Or.inr hother))
    · change Steps s.waiting (s.waiting.setRole t .other)
      rw [setRole_eq_self hother]
      exact .refl
  · rw [hpcs, hm, Function.update_apply]
    split
    · rw [hq]
      split <;> trivial
    · exact he.current u

variable {rounds : Nat}

theorem waiting_run (h : LockInv v s) (he : EventInv s) {t : T} (hs : s.run rounds t = some s') :
    Steps s.waiting s'.waiting ∧ EventInv s' := by
  rcases run_cases hs with ⟨call, p, i, m, p', hp, hi, hx, rfl⟩ | ⟨p, i, m, p', hp, hi, hx, rfl⟩
  · have hpc : s.mutexPcs t = p := by simp [Sys.mutexPcs, hp, Pc.mutexPc]
    rw [← hpc] at hi
    refine steps_runInstr h he (runHit t i) hi hx (mutexPc_afterMutex call p') ?_ ?_
    · split <;> rfl
    · split <;> rfl
  · by_cases hrel : p = .released
    · subst hrel
      cases hi
      cases hx
      exact waiting_peek h he _ hp rfl rfl
    · have hpc : s.mutexPcs t = p := by
        simp only [Sys.mutexPcs, hp]
        cases p <;> first | rfl | exact (hrel rfl).elim
      rw [← hpc] at hi
      refine steps_runInstr h he (runHit t i) hi hx (mutexPc_afterTail ?_) rfl rfl
      have htail := (h.thread t).tail p hp
      rw [hpc] at hi
      cases p <;> simp only [MutexPc.inTail, reduceCtorEq] at htail <;>
        simp only [code, Option.some.injEq, reduceCtorEq] at hi <;> subst hi <;> cases hx
      all_goals first | exact (hrel rfl).elim | simp

variable [DecidableEq D]

/-- One step of the machine is some steps of the waiting protocol. -/
theorem waiting_step (h : LockInv v s) (he : EventInv s) {a : Act T D V}
    (hs : step v rounds s a = some s') : Steps s.waiting s'.waiting ∧ EventInv s' := by
  have quiet : s'.waiting = s.waiting ∧ EventInv s' → Steps s.waiting s'.waiting ∧ EventInv s' :=
    fun hq => ⟨hq.1 ▸ .refl, hq.2⟩
  have outside : ∀ {t p}, s.pc t = p → p.mutexPc = .done →
      ∀ n, (s.mutexPcs t).role n = .other := by
    intro t p hp hd n
    rw [Sys.mutexPcs, hp, hd]
    rfl
  cases a with
  | enter t call =>
    simp only [step] at hs
    split at hs
    · rename_i hp
      cases hs
      refine quiet (waiting_setPc he (outside hp rfl) ?_ ?_) <;> cases call <;> intro <;>
        first | rfl | trivial
    · cases hs
  | xbegin t started =>
    simp only [step] at hs
    split at hs
    · rename_i n hp
      cases hs
      cases started
      · exact quiet (waiting_setPc he (p := .aborted n) (outside hp rfl) (fun _ => rfl)
          fun _ => trivial)
      · refine quiet (waiting_setPc_setTxn he _ (outside hp rfl) ?_)
        split <;> rfl
    · cases hs
  | retry t =>
    simp only [step] at hs
    split at hs
    · rename_i n hp
      cases hs
      refine quiet (waiting_setPc he (outside hp rfl) ?_ ?_) <;> unfold retryRtmLock <;> intro <;>
        split <;> first | rfl | trivial
    · cases hs
  | checkLockWord t =>
    simp only [step] at hs
    split at hs
    · rename_i x hp hx
      split at hs
      · cases hs
        exact quiet (waiting_setPc_setTxn he _ (outside hp rfl) rfl)
      · cases hs
        exact quiet (waiting_setPc_setTxn he _ (outside hp rfl) rfl)
    · cases hs
  | load t d | store t d w =>
    simp only [step, Sys.access] at hs
    split at hs
    all_goals first | cases hs
    all_goals
      refine quiet ⟨waiting_congr rfl fun u => ?_, he.congr rfl fun u => Or.inl ?_⟩
      · exact congrArg _ (h.mutexPcs_abortAll _ u)
      · exact h.mutexPcs_abortAll _ u
  | exit t =>
    simp only [step, Sys.exit] at hs
    split at hs
    · rename_i x hp hx
      cases hs
      obtain ⟨hw, he'⟩ := waiting_setPc_setTxn he (p := .exitTail .released) none
        (outside hp rfl) rfl
      exact quiet ⟨hw, he'.current, he'.flag⟩
    · rename_i call hp hx
      cases hs
      refine quiet (waiting_setPc he ?_ (fun _ => rfl) fun _ => trivial)
      intro n
      rw [Sys.mutexPcs, hp]
      rfl
    · cases hs
  | abort t =>
    simp only [step, Option.map_eq_some_iff] at hs
    obtain ⟨x, hx, rfl⟩ := hs
    refine quiet (waiting_setPc_setTxn he none ?_ rfl)
    rcases (h.thread t).txn_pc x hx with hp | hp
    · exact outside hp rfl
    · exact outside hp rfl
  | run t => exact waiting_run h he hs

/-! ## Every run -/

theorem reach_waiting {data₀ : D → V}
    (h : Reach (step v rounds) (· = init data₀) (fun _ _ => True) s) :
    Safe s.waiting ∧ EventInv s := by
  refine (h.strengthen fun _ => reach_lockInv).invariant (I := fun s => Safe s.waiting ∧ EventInv s) ?_ ?_
  · rintro _ rfl
    refine ⟨⟨fun w hw => hw.elim, fun w hw => by cases hw⟩, fun t => trivial, Nat.zero_le 1⟩
  · rintro s a s' ⟨hsafe, he⟩ ⟨-, hl⟩ hs
    obtain ⟨hsteps, he'⟩ := waiting_step hl he hs
    exact ⟨hsafe.steps hsteps, he'⟩

/-- No wakeup is lost: an unsignalled thread that is suspended has announced itself, or somebody
is about to set the event; and when the mutex is free, somebody who reset the lock word has not
read `waiters` yet, or somebody is in `mutex_signal_object`. -/
theorem syslockRtm_no_lost_wakeup {data₀ : D → V}
    (h : Reach (step syslockRtm rounds) (· = init data₀) (fun _ _ => True) s) {w : T}
    (hw : s.Suspended w) :
    (s.mutex.waiters = 1 ∨ ∃ u, s.Signalling u) ∧
      (s.mutex.lockWord = 0 → ∃ u, s.Released u ∨ s.InSignalObject u) := by
  obtain ⟨hsafe, he⟩ := reach_waiting h
  have hrole := hw.role
  constructor
  · have hwaits : (s.waiting.role w).waits := by
      rw [hrole]
      trivial
    rcases hsafe.flagged w hwaits with hflag | ⟨u, hu⟩
    · have hne : s.mutex.waiters ≠ 0 := by simpa [Sys.waiting, view] using hflag
      have hle := he.flag
      exact Or.inl (by omega)
    · exact Or.inr ⟨u, setting_waiting hu⟩
  · intro hfree
    obtain ⟨u, hu⟩ := hsafe.not_stuck hrole (by simp [Sys.waiting, view, hfree])
    exact ⟨u, obliged_waiting hu⟩

/-- A thread that is in a speculative section is aborted by another one that takes the mutex; there
the first one uses up its transactions, announces itself and suspends, and the other one resets the
lock word. -/
def waitingRun : List (Act Bool Unit Nat) :=
  [.enter true .rtm, .xbegin true true, .checkLockWord true, .load true (),
    .enter false .plain, .run false, .retry true] ++
  (List.replicate 10 [Act.xbegin true false, .retry true]).flatten ++
  List.replicate 10 (.run true) ++ [.exit false, .run false]

theorem syslockRtm_no_lost_wakeup_waitingRun :
    ∃ s, exec (step syslockRtm 1) (init fun _ => 0) waitingRun = some s ∧ s.Suspended true ∧
      s.mutex.lockWord = 0 ∧ ∃ u, s.Released u ∨ s.InSignalObject u := by
  obtain ⟨s, hs, hb⟩ := exec_result (step syslockRtm 1) (init fun _ => 0) waitingRun
    (fun s => (s.pc true, s.mutex)) (.mutex .rtm (.wait 0), ⟨0, 1, 0⟩) (by decide)
  simp only [Prod.mk.injEq] at hb
  obtain ⟨hp, hm⟩ := hb
  have hsus : s.Suspended true := ⟨.rtm, by rw [hp, hm]⟩
  have hfree : s.mutex.lockWord = 0 := by rw [hm]
  exact ⟨s, hs, hsus, hfree,
    (syslockRtm_no_lost_wakeup (.exec (.init rfl) hs) hsus).2 hfree⟩

end Htmsql.Rtm
