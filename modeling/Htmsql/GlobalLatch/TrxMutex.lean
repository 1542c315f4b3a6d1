import Htmsql.GlobalLatch.Latching
import Htmsql.Lib.Run
import Mathlib.Data.List.Count
import Mathlib.Data.List.Induction
import Mathlib.Data.List.Infix
import Mathlib.Logic.Function.Basic

/-!
# One mutex for all transactions

In `mysql-5.6.10-global_latch`, `trx_mutex_enter` and `trx_mutex_exit` work on `global_mutex`
whatever transaction they are called for. The calls of one thread are executed here for any
assignment of mutexes to latches: `id` gives every transaction its own mutex, `globalLatch` is
the assignment of this tree. A thread that finds the lock word set by itself goes to
`mutex_spin_wait` and stays there, as nobody else resets the word.

As long as the thread leaves only what it has entered, it blocks itself exactly when it enters a
latch whose mutex is that of a latch it has open (`noSelfBlock_iff`). With a mutex for each
transaction the latching order excludes this; with `global_mutex` it allows it.
-/

namespace Htmsql.GlobalLatch

open Run

variable {X M : Type}

/-- The lock words of the mutexes, and whether the one thread that runs is stuck in a spin wait. -/
structure Thread (M : Type) where
  word : M → Nat
  /-- the mutex in whose `mutex_spin_wait` the thread is -/
  waiting : Option M

/-- All mutexes free. -/
def init : Thread M := ⟨fun _ => 0, none⟩

/-- The mutexes of `mysql-5.6.10-global_latch`. -/
def globalLatch : Latch X → Latch Unit
  | .lockSys => .lockSys
  | .trx _ => .trx ()

variable [DecidableEq M]

/-- `mutex_enter_func` with one thread: it takes the mutex at once or never. -/
def mutexEnterFunc (s : Thread M) (m : M) : Thread M :=
  if s.word m = 0 then { s with word := Function.update s.word m 1 }
  else { s with waiting := some m }

/-- `mutex_exit_func` resets the word whoever has set it. -/
def mutexExitFunc (s : Thread M) (m : M) : Thread M :=
  { s with word := Function.update s.word m 0 }

/-- The next operation, `none` once the thread waits. `mutexOf` is the mutex behind each latch. -/
def step (mutexOf : Latch X → M) (s : Thread M) (op : Op X) : Option (Thread M) :=
  if s.waiting = none then
    match op with
    | .enter l => some (mutexEnterFunc s (mutexOf l))
    | .exit l => some (mutexExitFunc s (mutexOf l))
  else none

/-- The thread never waits for a lock word that it has set itself. -/
def NoSelfBlock (mutexOf : Latch X → M) (ops : List (Op X)) : Prop :=
  ∀ pre s, pre <+: ops → exec (step mutexOf) init pre = some s → s.waiting = none

variable [DecidableEq X]

/-- The order checks let the calls pass. -/
def Allowed (ops : List (Op X)) : Prop := (exec orderCheck [] ops).isSome = true

instance (ops : List (Op X)) : Decidable (Allowed ops) := inferInstanceAs (Decidable (_ = true))

/-- The thread never resets a mutex while another section on this mutex is open. -/
def NoEarlyReset (mutexOf : Latch X → M) (ops : List (Op X)) : Prop :=
  ∀ pre l s s', pre ++ [.exit l] <+: ops → exec (step mutexOf) init pre = some s →
    step mutexOf s (.exit l) = some s' → ∀ k ∈ (openedBy pre).erase l, mutexOf k ≠ mutexOf l

/-- The thread owns no `trx->mutex` whenever it enters one. -/
def OneTrxMutex (ops : List (Op X)) : Prop :=
  ∀ pre x, pre ++ [.enter (.trx x)] <+: ops → ∀ y, Latch.trx y ∉ openedBy pre

/-- The thread leaves only what it has entered. -/
def ExitsOpened (ops : List (Op X)) : Prop :=
  ∀ pre l, pre ++ [.exit l] <+: ops → l ∈ openedBy pre

/-! ## The calls of an allowed sequence -/

omit [DecidableEq X] in
theorem prefix_concat_left {pre ops : List (Op X)} {op : Op X} (h : pre ++ [op] <+: ops) :
    pre <+: ops := (List.prefix_append pre [op]).trans h

omit [DecidableEq M] in
theorem orderCheck_run {ops : List (Op X)} {arr : List (SyncLevel X)}
    (h : exec orderCheck [] ops = some arr) :
    (arr.map SyncLevel.latch).Perm (openedBy ops) := by
  induction ops using List.reverseRecOn generalizing arr with
  | nil =>
    cases h
    exact .refl _
  | append_singleton ops op ih =>
    simp only [exec_append, Option.bind_eq_some_iff, exec, Option.some.injEq] at h
    obtain ⟨arr₁, h₁, arr₂, h₂, rfl⟩ := h
    have hperm := (orderCheck_opened (ih h₁) h₂).2
    cases op with
    | enter l => rwa [openedBy_enter]
    | exit l => rwa [openedBy_exit]

omit [DecidableEq M] in
theorem Allowed.exitsOpened {ops : List (Op X)} (h : Allowed ops) : ExitsOpened ops := by
  rintro pre l ⟨suf, rfl⟩
  obtain ⟨arr, harr⟩ := Option.isSome_iff_exists.mp h
  simp only [exec_append, Option.bind_eq_some_iff, exec, Option.some.injEq] at harr
  obtain ⟨arr₂, ⟨arr₁, h₁, _, h₂, rfl⟩, -⟩ := harr
  exact (orderCheck_opened (orderCheck_run h₁) h₂).1 l rfl

/-! ## Blocking on one's own lock word -/

variable {mutexOf : Latch X → M} {ops : List (Op X)}

/-- While the thread runs, a lock word is 1 or 0 as the thread has one section or none open on
its mutex. -/
theorem run_word {pre : List (Op X)} {s : Thread M} (hex : ExitsOpened pre)
    (hs : exec (step mutexOf) init pre = some s) (hw : s.waiting = none) (m : M) :
    ((openedBy pre).map mutexOf).count m = s.word m ∧ s.word m ≤ 1 := by
  induction pre using List.reverseRecOn generalizing s with
  | nil =>
    cases hs
    simp [init, openedBy]
  | append_singleton pre op ih =>
    simp only [exec_append, Option.bind_eq_some_iff, exec, Option.some.injEq] at hs
    obtain ⟨s₁, h₁, s₂, h₂, rfl⟩ := hs
    unfold step at h₂
    split at h₂
    · rename_i hw₁
      have hex₁ : ExitsOpened pre := fun pre' l hpre =>
        hex pre' l (hpre.trans (List.prefix_append _ _))
      obtain ⟨hcount, hle⟩ := ih hex₁ h₁ hw₁
      cases op with
      | enter l =>
        simp only [Option.some.injEq] at h₂
        subst h₂
        unfold mutexEnterFunc at hw ⊢
        split at hw
        · rename_i hz
          rw [if_pos hz, openedBy_enter, List.map_cons, List.count_cons]
          by_cases hm : m = mutexOf l
          · subst hm
            simp [hcount, hz]
          · simp [hcount, hle, hm, Ne.symm hm]
        · cases hw
      | exit l =>
        simp only [Option.some.injEq] at h₂
        subst h₂
        have hl : l ∈ openedBy pre := hex pre l (List.prefix_refl _)
        have hperm := (List.perm_cons_erase hl).map mutexOf
        have hc := hperm.count_eq m
        rw [List.map_cons, List.count_cons] at hc
        rw [openedBy_exit]
        unfold mutexExitFunc
        by_cases hm : m = mutexOf l
        · subst hm
          simp only [beq_self_eq_true, if_true, Function.update_self] at hc ⊢
          omega
        · have hbeq : (mutexOf l == m) = false := by simp [Ne.symm hm]
          simp only [hbeq, Function.update_of_ne hm] at hc ⊢
          simp only [Bool.false_eq_true, if_false] at hc
          omega
    · cases h₂

omit [DecidableEq X] in
/-- A thread that is not blocked has executed all its calls. -/
theorem NoSelfBlock.exec_some (h : NoSelfBlock mutexOf ops) {pre : List (Op X)}
    (hpre : pre <+: ops) : ∃ s, exec (step mutexOf) init pre = some s := by
  induction pre using List.reverseRecOn with
  | nil => exact ⟨_, rfl⟩
  | append_singleton pre op ih =>
    obtain ⟨s, hs⟩ := ih (prefix_concat_left hpre)
    have hw := h pre s (prefix_concat_left hpre) hs
    rw [exec_append, hs]
    simp only [Option.bind_some, exec, step, if_pos hw]
    cases op <;> exact ⟨_, rfl⟩

/-- The thread blocks itself when it enters a latch whose mutex it holds for another latch, and
only then. -/
theorem noSelfBlock_iff (hex : ExitsOpened ops) :
    NoSelfBlock mutexOf ops ↔
      ∀ pre l, pre ++ [.enter l] <+: ops → mutexOf l ∉ (openedBy pre).map mutexOf := by
  have hexits : ∀ {pre}, pre <+: ops → ExitsOpened pre :=
    fun hpre pre' l h => hex pre' l (h.trans hpre)
  constructor
  · intro h pre l hpre hmem
    obtain ⟨s', hs'⟩ := h.exec_some hpre
    have hw' := h _ s' hpre hs'
    simp only [exec_append, Option.bind_eq_some_iff, exec, Option.some.injEq] at hs'
    obtain ⟨s, hs, s₂, h₂, rfl⟩ := hs'
    have hw := h pre s (prefix_concat_left hpre) hs
    obtain ⟨hcount, -⟩ := run_word (hexits (prefix_concat_left hpre)) hs hw (mutexOf l)
    have hpos := List.count_pos_iff.mpr hmem
    simp only [step, if_pos hw, Option.some.injEq] at h₂
    subst h₂
    unfold mutexEnterFunc at hw'
    split at hw'
    · omega
    · cases hw'
  · intro h pre
    induction pre using List.reverseRecOn with
    | nil =>
      intro s _ hs
      cases hs
      rfl
    | append_singleton pre op ih =>
      intro s hpre hs
      simp only [exec_append, Option.bind_eq_some_iff, exec, Option.some.injEq] at hs
      obtain ⟨s₁, h₁, s₂, h₂, rfl⟩ := hs
      have hw₁ := ih s₁ (prefix_concat_left hpre) h₁
      simp only [step, if_pos hw₁] at h₂
      cases op with
      | enter l =>
        obtain ⟨hcount, -⟩ := run_word (hexits (prefix_concat_left hpre)) h₁ hw₁ (mutexOf l)
        have hzero := List.count_eq_zero.mpr (h pre l hpre)
        simp only [Option.some.injEq] at h₂
        subst h₂
        unfold mutexEnterFunc
        rw [if_pos (by omega)]
        exact hw₁
      | exit l =>
        cases h₂
        exact hw₁

/-- A section on a mutex is the only one, so its exit resets nobody else's. -/
theorem ExitsOpened.noEarlyReset (hex : ExitsOpened ops) : NoEarlyReset mutexOf ops := by
  intro pre l s s' hpre hs hstep k hk heq
  have hw : s.waiting = none := by
    unfold step at hstep
    split at hstep
    · assumption
    · cases hstep
  have hexits : ExitsOpened pre := fun pre' l' h => hex pre' l' (h.trans (prefix_concat_left hpre))
  obtain ⟨hcount, hle⟩ := run_word hexits hs hw (mutexOf l)
  have hc := ((List.perm_cons_erase (hex pre l hpre)).map mutexOf).count_eq (mutexOf l)
  rw [List.map_cons, List.count_cons_self] at hc
  have hpos : 0 < (((openedBy pre).erase l).map mutexOf).count (mutexOf l) :=
    List.count_pos_iff.mpr (List.mem_map.mpr ⟨k, hk, heq⟩)
  omega

omit [DecidableEq M] in
/-- A sequence of calls that the latching order allows, and that does not block itself with a
mutex for each transaction, is live with `global_mutex` exactly if it never enters the mutex of
a transaction while it owns that of another one. -/
theorem globalLatch_live_iff (hallow : Allowed ops) (hown : NoSelfBlock id ops) :
    (NoSelfBlock globalLatch ops ∧ NoEarlyReset globalLatch ops) ↔ OneTrxMutex ops := by
  have hex := hallow.exitsOpened
  rw [and_iff_left hex.noEarlyReset, noSelfBlock_iff hex]
  rw [noSelfBlock_iff hex] at hown
  constructor
  · intro h pre x hpre y hy
    exact h pre (.trx x) hpre (List.mem_map.mpr ⟨.trx y, hy, rfl⟩)
  · intro h pre l hpre hmem
    obtain ⟨k, hk, heq⟩ := List.mem_map.mp hmem
    cases l with
    | lockSys =>
      cases k with
      | lockSys => exact hown pre .lockSys hpre (by simpa using hk)
      | trx y => cases heq
    | trx x =>
      cases k with
      | lockSys => cases heq
      | trx y => exact h pre x hpre y hk

/-- Two transaction mutexes one after the other. -/
def oneAfterTheOther : List (Op Nat) :=
  [.enter (.trx 1), .exit (.trx 1), .enter (.trx 2), .exit (.trx 2)]

/-- Two transaction mutexes under `lock_sys->mutex`. -/
def underLockSys : List (Op Nat) := [.enter .lockSys, .enter (.trx 1), .enter (.trx 2)]

omit [DecidableEq X] in
/-- What holds of every prefix of a list can be checked. -/
theorem noSelfBlock_of_inits {mutexOf : Latch X → M}
    (h : ∀ pre ∈ ops.inits, ∀ s ∈ exec (step mutexOf) init pre, s.waiting = none) :
    NoSelfBlock mutexOf ops := fun pre s hpre hs => h pre ((List.mem_inits _ _).mpr hpre) s hs

theorem globalLatch_live_oneAfterTheOther :
    NoSelfBlock globalLatch oneAfterTheOther ∧ NoEarlyReset globalLatch oneAfterTheOther := by
  refine (globalLatch_live_iff (by decide) (noSelfBlock_of_inits (by decide))).mpr ?_
  rintro pre x ⟨suf, h⟩ y
  have hpre : pre = [] ∨ pre = [.enter (.trx 1), .exit (.trx 1)] := by
    rcases pre with _ | ⟨a, _ | ⟨b, _ | ⟨c, _ | ⟨d, pre⟩⟩⟩⟩ <;>
      simp_all [oneAfterTheOther]
  rcases hpre with rfl | rfl <;> simp [openedBy]

/-- The latching order allows two transaction mutexes under `lock_sys->mutex`; with
`global_mutex` the thread blocks itself at the second one. -/
theorem globalLatch_self_block :
    Allowed underLockSys ∧ NoSelfBlock id underLockSys ∧
      ¬ NoSelfBlock globalLatch underLockSys := by
  refine ⟨by decide, noSelfBlock_of_inits (by decide), fun h => ?_⟩
  obtain ⟨s, hs, hw⟩ := exec_result (step globalLatch) init underLockSys (fun s => s.waiting)
    (some (.trx ())) (by decide)
  rw [h _ s (List.prefix_refl _) hs] at hw
  cases hw

end Htmsql.GlobalLatch
