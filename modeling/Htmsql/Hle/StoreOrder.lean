import Htmsql.Innodb.Signalling
import Htmsql.Lib.Run

/-!
# The mutex of `mysql-5.6.10-beta` under store buffers

With `HAVE_HLE`, `mutex_reset_lock_word` is a plain store (`__hle_release_clear4`) where the
other branch of the same function has an atomic exchange. The machine of this module executes the
mutex functions with a FIFO store buffer for each thread. A locked instruction waits until the
buffer of its thread is empty and acts on memory. The operations of the sync array and of the
event lock a mutex of their own, so they count as locked instructions too.

A thread can then read `waiters` while its store to `lock_word` is still in its buffer, and a
wakeup is lost. If no thread ever does, every step is a step of the mutex code in memory, where
a buffered store happens when it leaves the buffer (`settled`), and nothing is lost.
-/

namespace Htmsql.Hle

open Innodb Run
open Wakeup (Role Steps Safe)

/-- A store on its way to memory. -/
inductive Store where
  | lockWord (n : Nat)
  | waiters (n : Nat)
  deriving DecidableEq, Repr

/-- The store leaves the buffer and reaches memory. -/
def Store.apply : Store → IbMutex → IbMutex
  | lockWord n, m => { m with lockWord := n }
  | waiters n, m => { m with waiters := n }

/-- What a thread with these buffered stores reads. -/
def forward (m : IbMutex) (buffer : List Store) : IbMutex :=
  buffer.foldl (fun m st => st.apply m) m

/-- One operation of a thread with its store buffer; `none` while it blocks. -/
def execBuffered {P : Type} (m : IbMutex) (buffer : List Store) :
    Instr P → Option (IbMutex × List Store × P)
  | .getLockWord k => some (m, buffer, k (forward m buffer).lockWord)
  | .getWaiters k => some (m, buffer, k (forward m buffer).waiters)
  -- `__hle_release_clear4`
  | .resetLockWord next => some (m, buffer ++ [.lockWord 0], next)
  | .setWaiters n next => some (m, buffer ++ [.waiters n], next)
  | .setThreadId _ next => some (m, buffer, next)
  -- `__hle_acquire_exchange_n4`
  | .testAndSet k =>
    if buffer = [] then some ({ m with lockWord := 1 }, [], k m.lockWord) else none
  | .reserveCell k => if buffer = [] then some (m, [], k m.signalCount) else none
  | .waitEvent count next =>
    if buffer = [] ∧ m.signalCount ≠ count then some (m, [], next) else none
  | .eventSet next =>
    if buffer = [] then some ({ m with signalCount := m.signalCount + 1 }, [], next) else none

/-- The words of the mutex in memory, and for each thread its point and the stores that have not
left it yet. -/
structure Sys (T : Type) where
  mutex : IbMutex
  buffer : T → List Store
  pc : T → MutexPc

/-- What happens next: a call, a step of a thread, or a buffered store that reaches memory. -/
inductive Act (T : Type) where
  /-- a call of `mutex_enter_func` -/
  | enter (t : T)
  /-- a call of `mutex_exit_func` -/
  | exit (t : T)
  /-- the next operation of the mutex code -/
  | run (t : T)
  /-- the oldest store of the buffer reaches memory -/
  | drain (t : T)

variable {T : Type} [DecidableEq T]

/-- The thread goes on to another point. -/
def Sys.setPc (s : Sys T) (t : T) (p : MutexPc) : Sys T :=
  { s with pc := Function.update s.pc t p }

/-- The store buffer of the thread is changed. -/
def Sys.setBuffer (s : Sys T) (t : T) (buffer : List Store) : Sys T :=
  { s with buffer := Function.update s.buffer t buffer }

/-- One step of the machine, `none` where the action is not possible. -/
def step (rounds : Nat) (s : Sys T) : Act T → Option (Sys T)
  | .enter t => if s.pc t = .done then some (s.setPc t .enter) else none
  | .exit t => if s.pc t = .owner then some (s.setPc t (.exit false)) else none
  | .run t =>
    (code false rounds (s.pc t)).bind fun i =>
      (execBuffered s.mutex (s.buffer t) i).map fun (m, b, p) =>
        (({ s with mutex := m }).setBuffer t b).setPc t p
  | .drain t =>
    match s.buffer t with
    | [] => none
    | st :: rest => some (({ s with mutex := st.apply s.mutex }).setBuffer t rest)

omit [DecidableEq T] in
/-- `mutex_create_func`: the mutex free, nobody waiting and nothing buffered. -/
def init : Sys T where
  mutex := ⟨0, 0, 0⟩
  buffer _ := []
  pc _ := .done

/-- The thread is in `sync_array_wait_event` and the event has not been set since it reserved
its cell. -/
def Sys.Suspended (s : Sys T) (t : T) : Prop := s.pc t = .wait s.mutex.signalCount

/-- The thread still has to read `waiters` after its release, or to finish
`mutex_signal_object`. -/
def Sys.Obliged (s : Sys T) (t : T) : Prop :=
  s.pc t = .released ∨ s.pc t = .clear ∨ s.pc t = .signal

/-- Where the mutex is free in memory and a thread is suspended, somebody will look after it. -/
def Sys.NoLostWakeup (s : Sys T) : Prop :=
  s.mutex.lockWord = 0 → (∃ w, s.Suspended w) → ∃ u, s.Obliged u

/-- The step does not read `waiters` in `mutex_exit_func` before the release has left the
buffer. -/
def ReadsAfterRelease (s : Sys T) : Act T → Prop
  | .run t => s.pc t = .released → .lockWord 0 ∉ s.buffer t
  | _ => True

/-! ## A buffered store happens when it leaves the buffer -/

/-- The store that a thread can have in its buffer at this point of the code. -/
def pending : MutexPc → Option Store
  | .late _ 0 => some (.waiters 1)
  | .released => some (.lockWord 0)
  | .signal => some (.waiters 0)
  | _ => none

/-- The point of the code that a thread has reached in memory. -/
def settled (p : MutexPc) : List Store → MutexPc
  | [] => p
  | _ :: _ =>
    match p with
    | .late count _ => .announce count
    | .released => .reset
    | .signal => .clear
    | p => p

/-- The buffer holds at most the one store that the point says can still be in it. -/
def Pending (p : MutexPc) (buffer : List Store) : Prop :=
  buffer = [] ∨ ∃ st, pending p = some st ∧ buffer = [st]

theorem Pending.empty {p : MutexPc} {buffer : List Store} (h : Pending p buffer)
    (hp : pending p = none) : buffer = [] := by
  rcases h with hb | ⟨st, hst, -⟩
  · exact hb
  · rw [hp] at hst
    cases hst

/-- Draining a store is the operation of the mutex code that issued it. -/
theorem exec_pending {p : MutexPc} {st : Store} (h : pending p = some st) (rounds : Nat)
    (m : IbMutex) : ∃ i, code false rounds (settled p [st]) = some i ∧
      m.exec i = some (st.apply m, p) := by
  unfold pending at h
  split at h <;> cases h
  · exact ⟨_, rfl, rfl⟩
  · exact ⟨_, rfl, rfl⟩
  · exact ⟨_, rfl, rfl⟩

/-- An operation of a thread that has not read `waiters` too early: its buffer is empty, and it
acts on memory or puts one store into the buffer. -/
theorem exec_cases {rounds : Nat} {m m' : IbMutex} {b b' : List Store} {p p' : MutexPc}
    {i : Instr MutexPc} (hb : Pending p b) (hok : p = .released → .lockWord 0 ∉ b)
    (hi : code false rounds p = some i) (he : execBuffered m b i = some (m', b', p')) :
    b = [] ∧ ((b' = [] ∧ m.exec i = some (m', p')) ∨
      ∃ st, b' = [st] ∧ m' = m ∧ pending p' = some st ∧ settled p' b' = p) := by
  have hempty : b = [] := by
    rcases hb with hb | ⟨st, hst, hb⟩
    · exact hb
    · -- a locked instruction waits for the buffer, and the read of `waiters` is admitted late
      unfold pending at hst
      split at hst <;> cases hst
      · cases hi
        simp [execBuffered, hb] at he
      · exact (hok rfl (by simp [hb])).elim
      · cases hi
        simp [execBuffered, hb] at he
  refine ⟨hempty, ?_⟩
  subst hempty
  cases p <;> simp only [code, Option.some.injEq, reduceCtorEq] at hi <;> subst hi
  case reset | announce count | clear =>
    cases he
    exact Or.inr ⟨_, rfl, rfl, rfl, rfl⟩
  case wait count =>
    simp only [execBuffered, true_and] at he
    split at he
    · rename_i hne
      cases he
      exact Or.inl ⟨rfl, if_neg hne⟩
    · cases he
  all_goals
    simp only [execBuffered, if_true, Option.some.injEq, Prod.mk.injEq] at he
    obtain ⟨rfl, rfl, rfl⟩ := he
    exact Or.inl ⟨rfl, rfl⟩

/-- What each thread has reached in memory. -/
def Sys.settled (s : Sys T) (t : T) : MutexPc := Hle.settled (s.pc t) (s.buffer t)

/-- The invariant of the runs that meet the condition: with the buffered stores taken as done,
nobody who waits is forgotten. -/
structure Inv (s : Sys T) : Prop where
  buffer : ∀ t, Pending (s.pc t) (s.buffer t)
  current : ∀ t, (s.settled t).Current s.mutex.signalCount
  safe : Safe (view s.mutex s.settled)

variable {s s' : Sys T}

/-- One thread moves on in its own code and memory. -/
theorem Inv.move (h : Inv s) {t : T} {m : IbMutex} {b : List Store} {p q : MutexPc}
    (hs' : s' = (({ s with mutex := m }).setBuffer t b).setPc t p) (hb : Pending p b)
    (hq : Hle.settled p b = q) (hc : q.Current m.signalCount)
    (hm : s.mutex.signalCount ≤ m.signalCount)
    (hstep : Steps (view s.mutex s.settled) (view m (Function.update s.settled t q))) : Inv s' := by
  have hsettled : s'.settled = Function.update s.settled t q := by
    ext u
    by_cases hu : u = t
    · subst hu
      simp [hs', Sys.settled, Sys.setPc, Sys.setBuffer, hq]
    · simp [hs', Sys.settled, Sys.setPc, Sys.setBuffer, hu]
  have hmutex : s'.mutex = m := by rw [hs']; rfl
  refine ⟨fun u => ?_, fun u => ?_, ?_⟩
  · by_cases hu : u = t
    · subst hu
      simpa [hs', Sys.setPc, Sys.setBuffer] using hb
    · simpa [hs', Sys.setPc, Sys.setBuffer, hu] using h.buffer u
  · rw [hsettled, hmutex]
    by_cases hu : u = t
    · rw [hu, Function.update_self]
      exact hc
    · rw [Function.update_of_ne hu]
      exact MutexPc.current_mono hm (h.current u)
  · rw [hsettled, hmutex]
    exact h.safe.steps hstep

/-- An operation in memory. -/
theorem Inv.exec (h : Inv s) {rounds : Nat} {t : T} {m : IbMutex} {p : MutexPc}
    {i : Instr MutexPc} (hs' : s' = (({ s with mutex := m }).setBuffer t []).setPc t p)
    (hi : code false rounds (s.settled t) = some i) (he : s.mutex.exec i = some (m, p)) :
    Inv s' :=
  h.move hs' (Or.inl rfl) rfl (exec_current hi he (h.current t)) (exec_signalCount he)
    (exec_steps h.current hi he)

/-- A thread with an empty buffer moves between points outside the waiting protocol. -/
theorem Inv.call (h : Inv s) {t : T} {p : MutexPc} (hold : pending (s.pc t) = none)
    (hother : ∀ n, (s.pc t).role n = .other) (hp : ∀ n, p.role n = .other)
    (hc : ∀ n, p.Current n) : Inv (s.setPc t p) := by
  have hb : s.buffer t = [] := (h.buffer t).empty hold
  have hset : s.settled t = s.pc t := by simp [Sys.settled, hb, Hle.settled]
  have hs' : s.setPc t p = (({ s with mutex := s.mutex }).setBuffer t []).setPc t p := by
    simp [Sys.setPc, Sys.setBuffer, ← hb]
  refine h.move hs' (Or.inl rfl) rfl (hc _) (Nat.le_refl _) (steps_stay ?_)
  rw [hset, hother]
  exact (hp _).symm

omit [DecidableEq T] in
theorem inv_init : Inv (init : Sys T) := by
  refine ⟨fun t => Or.inl rfl, fun t => trivial, ⟨fun w hw => hw.elim, fun w hw => ?_⟩⟩
  cases hw

theorem Inv.step (h : Inv s) {rounds : Nat} {a : Act T} (hok : ReadsAfterRelease s a)
    (hs : step rounds s a = some s') : Inv s' := by
  cases a with
  | enter t =>
    simp only [Hle.step] at hs
    split at hs
    · rename_i hp
      cases hs
      apply h.call <;> simp [hp, pending, MutexPc.role, MutexPc.Current]
    · cases hs
  | exit t =>
    simp only [Hle.step] at hs
    split at hs
    · rename_i hp
      cases hs
      apply h.call <;> simp [hp, pending, MutexPc.role, MutexPc.Current, MutexPc.exit]
    · cases hs
  | run t =>
    simp only [Hle.step, Option.bind_eq_some_iff, Option.map_eq_some_iff] at hs
    obtain ⟨i, hi, ⟨m, b, p⟩, he, rfl⟩ := hs
    obtain ⟨hb, hcase⟩ := exec_cases (h.buffer t) hok hi he
    have hset : s.settled t = s.pc t := by simp [Sys.settled, hb, Hle.settled]
    rcases hcase with ⟨rfl, hx⟩ | ⟨st, rfl, rfl, hpend, hq⟩
    · exact h.exec rfl (hset ▸ hi) hx
    · -- the store is not in memory yet, so the thread has not moved there
      refine h.move rfl (Or.inr ⟨st, hpend, rfl⟩) hq ?_ (Nat.le_refl _) (steps_stay ?_)
      · exact hset ▸ h.current t
      · rw [hset]
  | drain t =>
    simp only [Hle.step] at hs
    split at hs
    · cases hs
    · rename_i st rest hb
      cases hs
      rcases h.buffer t with hnil | ⟨st', hpend, hone⟩
      · rw [hnil] at hb
        cases hb
      · rw [hone] at hb
        cases hb
        obtain ⟨i, hi, hx⟩ := exec_pending hpend rounds s.mutex
        have hset : s.settled t = Hle.settled (s.pc t) [st] := by simp [Sys.settled, hone]
        refine h.exec (p := s.pc t) ?_ (hset ▸ hi) hx
        simp [Sys.setPc, Sys.setBuffer]

/-! ## Every run -/

/-- While every thread reads `waiters` only after its release has reached memory, no wakeup is
lost. -/
theorem beta_no_lost_wakeup {rounds : Nat}
    (h : Reach (step rounds) (· = init) ReadsAfterRelease s) : s.NoLostWakeup := by
  have hinv : Inv s := by
    refine h.invariant (I := Inv) ?_ fun s a s' hs hok hstep => hs.step hok hstep
    rintro _ rfl
    exact inv_init
  rintro hfree ⟨w, hw⟩
  have hset : s.settled w = s.pc w := by
    rw [Sys.settled, (hinv.buffer w).empty (by rw [hw]; rfl)]
    rfl
  have hrole : (view s.mutex s.settled).role w = .suspended := by
    change (s.settled w).role s.mutex.signalCount = .suspended
    rw [hset, hw]
    simp [MutexPc.role]
  obtain ⟨u, hu⟩ := hinv.safe.not_stuck hrole (by simp [view, hfree])
  refine ⟨u, ?_⟩
  change ((s.settled u).role s.mutex.signalCount).obliged at hu
  unfold Sys.settled at hu
  unfold Sys.Obliged
  cases hp : s.pc u <;> rw [hp] at hu <;> cases hb : s.buffer u <;> rw [hb] at hu <;>
    simp only [Hle.settled, MutexPc.role] at hu
  case late.nil count i | wait.nil count | wait.cons count st rest =>
    split at hu <;> exact hu.elim
  all_goals first | exact hu.elim | simp

instance (s : Sys T) (a : Act T) : Decidable (ReadsAfterRelease s a) :=
  match a with
  | .run t => inferInstanceAs (Decidable (s.pc t = .released → .lockWord 0 ∉ s.buffer t))
  | .enter _ | .exit _ | .drain _ => isTrue trivial

/-- One thread takes the mutex, another one announces itself and suspends. -/
def suspendRun : List (Act Bool) :=
  [.enter false, .run false, .enter true, .run true, .run true, .run true, .run true, .run true]

/-- The holder's release reaches memory before it reads `waiters`. -/
def drainedRun : List (Act Bool) :=
  suspendRun.append [.run true, .drain true, .run true, .run true, .run true, .run true,
    .exit false, .run false, .drain false]

theorem beta_no_lost_wakeup_drainedRun :
    ∃ s, exec (guarded (step 1) ReadsAfterRelease) init drainedRun = some s ∧
      s.Suspended true ∧ s.mutex.lockWord = 0 ∧ s.NoLostWakeup := by
  obtain ⟨s, hs, hb⟩ := exec_result (guarded (step 1) ReadsAfterRelease) init drainedRun
    (fun s => (s.pc true, s.mutex)) (.wait 0, ⟨0, 1, 0⟩) (by decide)
  simp only [Prod.mk.injEq] at hb
  obtain ⟨hp, hm⟩ := hb
  exact ⟨s, hs, by rw [Sys.Suspended, hp, hm], by rw [hm],
    beta_no_lost_wakeup (.exec_guarded (.init rfl) hs)⟩

/-- The holder reads `waiters` while its release is in its buffer, before the other thread has
raised the flag; that thread still finds the mutex taken in memory. -/
def lateRelease : List (Act Bool) :=
  suspendRun.append [.exit false, .run false, .run false, .run true, .drain true, .run true,
    .run true, .run true, .run true, .drain false]

theorem beta_lost_wakeup :
    ∃ s, Reach (step 1) (· = init) (fun _ _ => True) s ∧ ¬ (s : Sys Bool).NoLostWakeup := by
  obtain ⟨s, hs, hb⟩ := exec_result (step 1) init lateRelease
    (fun s => (s.pc true, s.pc false, s.mutex)) (.wait 0, .done, ⟨0, 1, 0⟩) (by decide)
  simp only [Prod.mk.injEq] at hb
  obtain ⟨htrue, hfalse, hm⟩ := hb
  refine ⟨s, .exec (.init rfl) hs, fun h => ?_⟩
  obtain ⟨u, hu⟩ := h (by rw [hm]) ⟨true, by rw [Sys.Suspended, htrue, hm]⟩
  cases u <;> simp [Sys.Obliged, htrue, hfalse] at hu

end Htmsql.Hle
