import Htmsql.Smartall.Steps

/-!
# Mutual exclusion under nested elision

Inside a transaction `ib_mutex_test_and_set` returns 0 whatever the lock word is, because it
compares the word with a value that it never has. A transaction may thus enter a section whose
mutex another thread holds, and its commit then resets the word of that thread. It may also commit
while a section that it has entered in this way is still open; this section goes on without a lock.
Mutual exclusion holds in the runs in which neither happens.
-/

namespace Htmsql.Smartall

open Run

variable {T M : Type}

/-- No two threads are in a committed section of one mutex. -/
def Sys.Exclusive (s : Sys T M) : Prop :=
  ∀ t u m, m ∈ (s.thread t).committed → m ∈ (s.thread u).committed → t = u

/-- `mutex_exit_func(m)` by thread `t` stores 0 to the lock word of `n` in memory. -/
def Sys.Resets (s : Sys T M) (t : T) (m n : M) : Prop :=
  match (s.thread t).txn with
  | some x => m = x.elided ∧ x.buffer n = some 0
  | none => n = m

/-- The lock words that the exit resets were not set by another thread. -/
def Sys.ResetsOwn (s : Sys T M) (t : T) (m : M) : Prop :=
  ∀ n, s.Resets t m n → ∀ u, s.setter n = some u → u = t

/-- If `mutex_exit_func(m)` commits a transaction, no other thread is in a section of a mutex that
was entered in it. -/
def Sys.CommitsAlone (s : Sys T M) (t : T) (m : M) : Prop :=
  ∀ x, (s.thread t).txn = some x → m = x.elided →
    ∀ n ∈ x.readSet, ∀ u, u ≠ t → n ∉ (s.thread u).committed

variable [DecidableEq M] [DecidableEq T] {s : Sys T M} {t : T} {m : M}

theorem Inv.resetsOwn (h : Inv s) (hm : m ∈ (s.thread t).inside)
    (hok : CommitsInOrder s (.exit t m)) : s.ResetsOwn t m := by
  intro n hn u hset
  have hu := (h.setter n u).mp hset
  unfold Sys.Resets at hn
  cases hx : (s.thread t).txn with
  | none =>
    rw [hx] at hn
    apply h.unique hu
    rw [hn, Thread.committed, hx]
    exact hm
  | some x =>
    rw [hx] at hn
    obtain ⟨heq, hb⟩ := hn
    by_contra hne
    exact h.reset_unheld hx (hok x hx heq).1 hb hne hu

theorem smartall_exclusive (hr : Reach step (· = (init : Sys T M)) CommitsInOrder s) :
    s.Exclusive ∧ ∀ t m s', CommitsInOrder s (.exit t m) → step s (.exit t m) = some s' →
      s.ResetsOwn t m ∧ s.CommitsAlone t m := by
  have h := reach_inv hr
  refine ⟨fun t u m ht hu => h.unique ht hu, fun t m s' hok hs => ⟨?_, ?_⟩⟩
  · simp only [step, Option.ite_none_right_eq_some] at hs
    exact h.resetsOwn hs.1.2 hok
  · intro x hx heq
    exact (h.txn t x hx).alone (hok x hx heq).1

/-- One thread takes the second mutex for real and releases it. The other one elides the first
mutex, enters and leaves the second inside the transaction, and is about to commit. -/
def nestedRun : List (Act Bool Bool) :=
  [.enter true true, .testAndSet true false, .exit true true,
    .enter false false, .testAndSet false true, .enter false true, .testAndSet false true,
    .exit false true]

theorem smartall_exclusive_nestedRun :
    ∃ s, exec (guarded step CommitsInOrder) init nestedRun = some s ∧
      (s.thread false).txn.map (fun x => (x.elided, x.readSet)) = some (false, [true, false]) ∧
      s.Exclusive ∧ s.ResetsOwn false false ∧ s.CommitsAlone false false := by
  obtain ⟨s, hs, hb⟩ := exec_result (guarded step CommitsInOrder) init nestedRun
    (fun s => ((s.thread false).txn.map fun x => (x.elided, x.readSet),
      decide (CommitsInOrder s (.exit false false)), (step s (.exit false false)).isSome))
    (some (false, [true, false]), true, true) (by decide)
  simp only [Prod.mk.injEq, decide_eq_true_eq] at hb
  obtain ⟨htxn, hok, hsome⟩ := hb
  obtain ⟨s', hs'⟩ := Option.isSome_iff_exists.mp hsome
  obtain ⟨hex, hexit⟩ := smartall_exclusive (.exec_guarded (.init rfl) hs)
  exact ⟨s, hs, htxn, hex, hexit false false s' hok hs'⟩

/-- One thread holds the second mutex; the other one elides the first, enters and leaves the
second inside the transaction, and takes it again after the commit. -/
def overHolder : List (Act Bool Bool) :=
  [.enter true true, .testAndSet true false,
    .enter false false, .testAndSet false true, .enter false true, .testAndSet false true,
    .exit false true, .exit false false, .enter false true, .testAndSet false false]

/-- The transaction commits between the entry into the second mutex and its exit. -/
def earlyCommit : List (Act Bool Bool) :=
  [.enter false false, .testAndSet false true, .enter false true, .testAndSet false true,
    .exit false false, .enter true true, .testAndSet true false]

theorem smartall_not_exclusive :
    (∃ s : Sys Bool Bool, exec step init overHolder = some s ∧ ¬ s.Exclusive) ∧
      ∃ s : Sys Bool Bool, exec step init earlyCommit = some s ∧ ¬ s.Exclusive := by
  have hboth : ∀ s : Sys Bool Bool,
      ((s.thread false).committed, (s.thread true).committed) = ({true}, {true}) →
        ¬ s.Exclusive := by
    intro s hs hex
    simp only [Prod.mk.injEq] at hs
    have heq := hex false true true (by simp [hs.1]) (by simp [hs.2])
    cases heq
  obtain ⟨s, hs, hb⟩ := exec_result step init overHolder
    (fun s => ((s.thread false).committed, (s.thread true).committed)) ({true}, {true}) (by decide)
  obtain ⟨s', hs', hb'⟩ := exec_result step init earlyCommit
    (fun s => ((s.thread false).committed, (s.thread true).committed)) ({true}, {true}) (by decide)
  exact ⟨⟨s, hs, hboth s hb⟩, s', hs', hboth s' hb'⟩

end Htmsql.Smartall
