import Htmsql.FastMutex.Refinement

/-!
# Exclusion and waiting without atomic operations

The atomic mutex keeps the waiting protocol, also if its spin loops end at any time; the mutex with
`os_fast_mutex` takes this over. "We may end up with a situation where lock_word is 0 but the OS
fast mutex is still reserved": that is a thread in one of the two operations on the lock word, which
goes on by itself.
-/

namespace Htmsql.FastMutex

open Innodb Run
open Wakeup (Steps Safe)

variable {T : Type} [DecidableEq T] {debug : Bool} {rounds : Nat}

/-- The thread has unlocked `os_fast_mutex` and has still to read `waiters` or to signal. -/
def Pc.obliged : Pc → Prop
  | .code .released | .code .clear | .code .signal => True
  | _ => False

theorem obliged_of_role {signals : Nat} {q : Pc} (h : (q.atomic.role signals).obliged) :
    q.obliged ∨ ∃ next, q = .tried next ∨ q = .checked next := by
  have hpoints := MutexPc.of_obliged h
  cases q with
  | code p =>
    refine Or.inl ?_
    rcases hpoints with rfl | rfl | rfl <;> trivial
  | tried next => exact Or.inr ⟨next, Or.inl rfl⟩
  | checked next => exact Or.inr ⟨next, Or.inr rfl⟩
  | nowait | refused | unlocking next | crashed => rcases hpoints with h | h | h <;> cases h

variable {s : Sys T} {u : T}

/-- In every state that any run reaches: at most one thread is in a section; `lock_word` is 1
exactly while a thread is between the two operations on it, and where it is 0 although
`os_fast_mutex` is locked, the thread that has locked it is in one of them; and a thread that sleeps
unsignalled while `os_fast_mutex` is free is owed a signal by a thread that has just unlocked it. -/
theorem fastMutex_safe (h : Reach (step debug rounds) (· = init) (fun _ _ => True) s) :
    (∀ t u, s.pc t = .code .owner → s.pc u = .code .owner → t = u) ∧
      (s.ib.lockWord = 1 ↔ ∃ t, (s.pc t).sets = true) ∧
      (∀ t, s.osFastMutex = some t → s.ib.lockWord = 0 → ∃ next,
        s.pc t = .tried next ∨ s.pc t = .checked next ∨ s.pc t = .unlocking next) ∧
      ∀ t, s.pc t = .code (.wait s.ib.signalCount) → s.osFastMutex = none →
        ∃ u, (s.pc u).obliged := by
  have hinv := FastMutex.reach_inv h
  have hatomic := Atomic.reach_inv (fastMutex_refines h).1
  refine ⟨fun t u ht hu => ?_, ⟨fun hw => ?_, ?_⟩, fun t hfast hzero => ?_, fun t ht hfree => ?_⟩
  · refine hinv.owner_unique ?_ ?_
    · rw [ht]
      rfl
    · rw [hu]
      rfl
  · cases hf : s.osFastMutex with
    | none =>
      have hzero := hinv.free hf
      omega
    | some t =>
      refine ⟨t, ?_⟩
      have hword := hinv.word t ((hinv.owner t).mpr hf)
      by_contra hsets
      rw [if_neg hsets] at hword
      omega
  · rintro ⟨t, hsets⟩
    have hfast : (s.pc t).hasFast = true := by
      cases hp : s.pc t <;> rw [hp] at hsets <;> first | exact hsets | cases hsets
    rw [hinv.word t hfast, if_pos hsets]
  · have hhas := (hinv.owner t).mpr hfast
    have hword := hinv.word t hhas
    cases hp : s.pc t <;> rw [hp] at hhas hword
    case code p =>
      have hsets : (Pc.code p).sets = true := hhas
      rw [if_pos hsets] at hword
      omega
    case nowait | refused | crashed => cases hhas
    case tried next => exact ⟨next, Or.inl rfl⟩
    case checked next => exact ⟨next, Or.inr (Or.inl rfl)⟩
    case unlocking next => exact ⟨next, Or.inr (Or.inr rfl)⟩
  · have hsuspended : (view s.atomic.ib s.atomic.pc).role t = .suspended := by
      change (s.pc t).atomic.role s.ib.signalCount = _
      rw [ht]
      exact if_pos rfl
    have hlocked : (view s.atomic.ib s.atomic.pc).locked = false := by
      simp [view, Sys.atomic, hfree]
    obtain ⟨u, hu⟩ := hatomic.safe.not_stuck hsuspended hlocked
    refine ⟨u, ?_⟩
    rcases obliged_of_role hu with hobliged | ⟨next, hnext⟩
    · exact hobliged
    · -- a thread with `os_fast_mutex` is none of those
      have hhas : (s.pc u).hasFast = true := by
        rcases hnext with hp | hp <;> rw [hp] <;> rfl
      rw [(hinv.owner u).mp hhas] at hfree
      cases hfree

/-- Thread `true` goes to sleep while thread `false` is in its section, which then ends. -/
theorem fastMutex_safe_waiter :
    ∃ s : Sys Bool, s.pc true = .code (.wait s.ib.signalCount) ∧ s.osFastMutex = none ∧
      ∃ u, (s.pc u).obliged := by
  obtain ⟨s, hs, hres⟩ := exec_result (step false 1) (init : Sys Bool)
    ([.call false .enter, .run false, .run false, .run false, .call true .enter] ++
      List.replicate 10 (.run true) ++ [.call false .exit, .run false, .run false])
    (fun s => (s.pc true, s.ib.signalCount, s.osFastMutex)) (.code (.wait 1), 1, none)
    (by decide)
  simp only [Prod.mk.injEq] at hres
  obtain ⟨hwait, hcount, hfree⟩ := hres
  rw [← hcount] at hwait
  have hinit : Reach (step false 1) (· = init) (fun _ _ => True) (init : Sys Bool) := .init rfl
  exact ⟨s, hwait, hfree, (fastMutex_safe (hinit.exec hs)).2.2.2 true hwait hfree⟩

end Htmsql.FastMutex
