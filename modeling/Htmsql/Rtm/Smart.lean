import Mathlib.Data.Nat.Notation
import Mathlib.Order.Basic
import Mathlib.Tactic.Push

/-!
# `rtm_lock_smart` and `rtm_lock`

Two copies of one loop: `rtm_lock_smart` of `hle/lock_functions/rtm_lock.cpp` and `rtm_lock` of
`mysql-5.6.10-syslock-rtm`. An attempt is a call of `_xbegin()`, which gives an abort code back or
starts a transaction; a transaction that is aborted before the function returns is back at
`_xbegin()` with an abort code and counts as an attempt that fails. The copies differ in which
failed attempts they retry, and in the test at the end: `rtm_lock` aborts the transaction if the
lock word is set, `rtm_lock_smart` compares the pointer `mutex` with 0 where it means `*mutex`.

Each failed attempt that is retried is counted, so that attempt number `n` is made with
`failures = n`.
-/

namespace Htmsql.Rtm.Smart

/-- A pointer to a lock word. -/
structure Mutex where
  addr : ℕ
  ne_null : addr ≠ 0

/-- How one attempt to speculate goes, by what the hardware returns and what the word is. -/
inductive Attempt where
  /-- `_xbegin()` returns an abort code -/
  | fails (code : ℕ)
  /-- the transaction starts, and `*mutex` is `word` -/
  | starts (word : ℕ)
  deriving DecidableEq, Repr

/-- What an open transaction has done with `*mutex`. -/
structure Txn where
  reads : Bool
  writes : Option ℕ
  deriving DecidableEq, Repr

/-- The abort code after `_xabort(0)`: bit 0 is set. -/
def xabortCode : ℕ := 1

/-- `if (mutex != 0) _xabort(0);` -/
def checkPointer (mutex : Mutex) (_word : ℕ) : Except ℕ Txn :=
  if mutex.addr ≠ 0 then .error xabortCode else .ok ⟨false, none⟩

/-- `if (mutex_get_lock_word(mutex) != 0) _xabort(0);` -/
def checkLockWord (word : ℕ) : Except ℕ Txn :=
  if word ≠ 0 then .error xabortCode else .ok ⟨true, none⟩

/-- The abort code that the attempt ends with, or the transaction it leaves open. -/
def Attempt.run (check : ℕ → Except ℕ Txn) : Attempt → Except ℕ Txn
  | fails code => .error code
  | starts word => check word

/-- The variant of the retry loop: its bound and the abort codes it takes for worth another
attempt. -/
structure Policy where
  maxRetries : ℕ
  /-- the abort codes after which an attempt is made again -/
  retries : ℕ → Bool

/-- Bits 0 to 2: "either 0: xabort (ourselves), 1: may succeed on retry or 2: data conflict". -/
def smart : Policy := ⟨10000000, fun code => decide (code &&& 7 > 0)⟩

/-- How the retry loop ends. -/
inductive Decision where
  /-- return inside the transaction of this attempt -/
  | inside (attempt : ℕ) (txn : Txn)
  /-- call the mutex function after this attempt -/
  | fallback (attempt : ℕ)
  deriving DecidableEq, Repr

/-- The loop, from the attempt number `failures` on. -/
def lockLoop (p : Policy) (check : ℕ → Except ℕ Txn) (attempts : ℕ → Attempt) (failures : ℕ) :
    Decision :=
  match (attempts failures).run check with
  | .ok txn => .inside failures txn
  | .error code =>
    if p.retries code = true ∧ failures + 1 ≤ p.maxRetries then
      lockLoop p check attempts (failures + 1)
    else .fallback failures
termination_by p.maxRetries - failures

/-- `rtm_lock` up to the return of `mutex_enter_func`, under a retry policy. Its own is 10 retries
after any abort code. -/
def rtmLockUnder (p : Policy) (attempts : ℕ → Attempt) : Decision :=
  lockLoop p checkLockWord attempts 0

mutual

/-- `atomic_exch_lock_spec`, with the values that its exchanges and loads find, in their order.
It returns when an exchange finds 0, and the word is 1 then; the result is what it has not
looked at. -/
def atomicExchLockSpec : List ℕ → Option (List ℕ)
  | [] => none
  | old :: found => if old ≠ 0 then waitWhileSet found else some found

/-- `do { _mm_pause(); val = *lock; } while (val == 1);` -/
def waitWhileSet : List ℕ → Option (List ℕ)
  | [] => none
  | val :: found => if val = 1 then waitWhileSet found else atomicExchLockSpec found

end

/-- How the lock function returns, once the mutex function behind the loop has returned too. -/
inductive Return where
  | inside (attempt : ℕ) (txn : Txn)
  /-- holding the lock, which was taken after this attempt -/
  | holding (attempt : ℕ)
  deriving DecidableEq, Repr

/-- `rtm_lock_smart`; `none` while it waits in `atomic_exch_lock_spec`. -/
def rtmLockSmart (mutex : Mutex) (attempts : ℕ → Attempt) (found : List ℕ) : Option Return :=
  match lockLoop smart (checkPointer mutex) attempts 0 with
  | .inside n txn => some (.inside n txn)
  | .fallback n => (atomicExchLockSpec found).map fun _ => .holding n

/-! ## Checked elision -/

/-- The attempt fails, or it finds the lock set and aborts itself. -/
def Attempt.FailsWith (a : Attempt) (code : ℕ) : Prop :=
  a = .fails code ∨ (∃ word, a = .starts word ∧ word ≠ 0) ∧ code = xabortCode

/-- Attempt `n` has to be made again. -/
def Retried (p : Policy) (attempts : ℕ → Attempt) (n : ℕ) : Prop :=
  ∃ code, (attempts n).FailsWith code ∧ p.retries code = true ∧ n < p.maxRetries

/-- Attempt `n` starts while the lock is free, before the retries have run out. -/
def ElidesAt (p : Policy) (attempts : ℕ → Attempt) (n : ℕ) : Prop :=
  attempts n = .starts 0 ∧ ∀ k < n, Retried p attempts k

/-- Attempt `n` fails with a code that is not retried, or with no retry left. -/
def GivesUpAt (p : Policy) (attempts : ℕ → Attempt) (n : ℕ) : Prop :=
  (∃ code, (attempts n).FailsWith code ∧ (p.retries code = false ∨ p.maxRetries ≤ n)) ∧
    ∀ k < n, Retried p attempts k

/-- What `rtm_lock_smart` should do with these attempts. -/
structure ChecksElision (mutex : Mutex) (attempts : ℕ → Attempt) (found : List ℕ) : Prop where
  inside : ∀ n, (∃ txn, rtmLockSmart mutex attempts found = some (.inside n txn)) ↔
    ElidesAt smart attempts n
  txn : ∀ n txn, rtmLockSmart mutex attempts found = some (.inside n txn) →
    txn.reads = true ∧ txn.writes = none
  abortsItself : ∀ word, word ≠ 0 → checkPointer mutex word = .error xabortCode
  holding : ∀ n, rtmLockSmart mutex attempts found = some (.holding n) ↔
    GivesUpAt smart attempts n ∧ (atomicExchLockSpec found).isSome
  /-- the decision of `rtm_lock` under the retry policy of `rtm_lock_smart` -/
  agrees : lockLoop smart (checkPointer mutex) attempts 0 = rtmLockUnder smart attempts

/-! ## The loop -/

variable {p : Policy} {check : ℕ → Except ℕ Txn} {attempts : ℕ → Attempt}

/-- The attempt ends with an abort code after which another one is made. -/
def Continues (p : Policy) (check : ℕ → Except ℕ Txn) (attempts : ℕ → Attempt) (n : ℕ) : Prop :=
  ∃ code, (attempts n).run check = .error code ∧ p.retries code = true ∧ n < p.maxRetries

/-- The loop ends with the first attempt that does not continue. -/
theorem exists_lockLoop_eq (p : Policy) (check : ℕ → Except ℕ Txn) (attempts : ℕ → Attempt)
    (first : ℕ) :
    ∃ n, first ≤ n ∧ (∀ k, first ≤ k → k < n → Continues p check attempts k) ∧
      ((∃ txn, (attempts n).run check = .ok txn ∧
          lockLoop p check attempts first = .inside n txn) ∨
        ∃ code, (attempts n).run check = .error code ∧
          (p.retries code = false ∨ p.maxRetries ≤ n) ∧
          lockLoop p check attempts first = .fallback n) := by
  induction first using lockLoop.induct p check attempts with
  | case1 n txn h =>
    refine ⟨n, Nat.le_refl _, fun k _ _ => by omega, .inl ⟨txn, h, ?_⟩⟩
    rw [lockLoop, h]
  | case2 n code h hretry ih =>
    obtain ⟨m, hm, hcont, hend⟩ := ih
    have heq : lockLoop p check attempts n = lockLoop p check attempts (n + 1) := by
      rw [lockLoop, h]
      exact if_pos hretry
    refine ⟨m, by omega, fun k hk hkm => ?_, heq ▸ hend⟩
    obtain rfl | hlt := Nat.eq_or_lt_of_le hk
    · exact ⟨code, h, hretry.1, hretry.2⟩
    · exact hcont k hlt hkm
  | case3 n code h hretry =>
    refine ⟨n, Nat.le_refl _, fun k _ _ => by omega, .inr ⟨code, h, ?_, ?_⟩⟩
    · rw [← Bool.not_eq_true]
      by_cases hc : p.retries code = true
      · have hmax : ¬ n + 1 ≤ p.maxRetries := fun h => hretry ⟨hc, h⟩
        exact .inr (by omega)
      · exact .inl hc
    · rw [lockLoop, h]
      exact if_neg hretry

/-- The attempt ends the loop. -/
def Ends (p : Policy) (check : ℕ → Except ℕ Txn) (attempts : ℕ → Attempt) (n : ℕ) : Prop :=
  ¬ Continues p check attempts n ∧ ∀ k < n, Continues p check attempts k

theorem Ends.unique {m n : ℕ} (hm : Ends p check attempts m) (hn : Ends p check attempts n) :
    m = n := by
  by_contra hne
  obtain hlt | hlt := Nat.lt_or_gt_of_ne hne
  · exact hm.1 (hn.2 m hlt)
  · exact hn.1 (hm.2 n hlt)

theorem not_continues_of_ok {n : ℕ} {txn : Txn} (h : (attempts n).run check = .ok txn) :
    ¬ Continues p check attempts n := by
  rintro ⟨code, hc, -⟩
  rw [h] at hc
  cases hc

theorem not_continues_of_error {n code : ℕ} (h : (attempts n).run check = .error code)
    (hend : p.retries code = false ∨ p.maxRetries ≤ n) : ¬ Continues p check attempts n := by
  rintro ⟨code', hc, hr, hn⟩
  rw [h, Except.error.injEq] at hc
  subst hc
  obtain hf | hle := hend
  · rw [hr] at hf
    cases hf
  · omega

theorem lockLoop_eq_inside_iff {n : ℕ} {txn : Txn} :
    lockLoop p check attempts 0 = .inside n txn ↔
      (attempts n).run check = .ok txn ∧ ∀ k < n, Continues p check attempts k := by
  obtain ⟨m, -, hcont, hend⟩ := exists_lockLoop_eq p check attempts 0
  have hcont : ∀ k < m, Continues p check attempts k := fun k => hcont k (Nat.zero_le k)
  constructor
  · intro h
    obtain ⟨txn', hok, heq⟩ | ⟨code, -, -, heq⟩ := hend
    · rw [h, Decision.inside.injEq] at heq
      obtain ⟨rfl, rfl⟩ := heq
      exact ⟨hok, hcont⟩
    · rw [h] at heq
      cases heq
  · rintro ⟨hok, hn⟩
    have hends : Ends p check attempts n := ⟨not_continues_of_ok hok, hn⟩
    obtain ⟨txn', hok', heq⟩ | ⟨code, herr, hstop, -⟩ := hend
    · obtain rfl := hends.unique ⟨not_continues_of_ok hok', hcont⟩
      rw [hok, Except.ok.injEq] at hok'
      rw [heq, hok']
    · obtain rfl := hends.unique ⟨not_continues_of_error herr hstop, hcont⟩
      rw [hok] at herr
      cases herr

theorem lockLoop_eq_fallback_iff {n : ℕ} :
    lockLoop p check attempts 0 = .fallback n ↔
      (∃ code, (attempts n).run check = .error code ∧
        (p.retries code = false ∨ p.maxRetries ≤ n)) ∧ ∀ k < n, Continues p check attempts k := by
  obtain ⟨m, -, hcont, hend⟩ := exists_lockLoop_eq p check attempts 0
  have hcont : ∀ k < m, Continues p check attempts k := fun k => hcont k (Nat.zero_le k)
  constructor
  · intro h
    obtain ⟨txn, -, heq⟩ | ⟨code, herr, hstop, heq⟩ := hend
    · rw [h] at heq
      cases heq
    · rw [h, Decision.fallback.injEq] at heq
      subst heq
      exact ⟨⟨code, herr, hstop⟩, hcont⟩
  · rintro ⟨⟨code, herr, hstop⟩, hn⟩
    have hends : Ends p check attempts n := ⟨not_continues_of_error herr hstop, hn⟩
    obtain ⟨txn, hok, -⟩ | ⟨code', herr', hstop', heq⟩ := hend
    · obtain rfl := hends.unique ⟨not_continues_of_ok hok, hcont⟩
      rw [hok] at herr
      cases herr
    · obtain rfl := hends.unique ⟨not_continues_of_error herr' hstop', hcont⟩
      exact heq

/-! ## The two tests -/

theorem run_checkPointer (mutex : Mutex) (a : Attempt) :
    a.run (checkPointer mutex) =
      .error (match a with | .fails code => code | .starts _ => xabortCode) := by
  cases a with
  | fails code => rfl
  | starts word => exact if_pos mutex.ne_null

theorem run_checkLockWord_error {a : Attempt} {code : ℕ} :
    a.run checkLockWord = .error code ↔ a.FailsWith code := by
  cases a with
  | fails c => simp [Attempt.run, Attempt.FailsWith]
  | starts word =>
    by_cases hw : word = 0
    · simp [Attempt.run, Attempt.FailsWith, checkLockWord, hw]
    · simp [Attempt.run, Attempt.FailsWith, checkLockWord, hw, eq_comm]

theorem run_checkLockWord_ok {a : Attempt} {txn : Txn} :
    a.run checkLockWord = .ok txn ↔ a = .starts 0 ∧ txn = ⟨true, none⟩ := by
  cases a with
  | fails c => simp [Attempt.run]
  | starts word =>
    by_cases hw : word = 0
    · simp [Attempt.run, checkLockWord, hw, eq_comm]
    · simp [Attempt.run, checkLockWord, hw]

theorem continues_checkLockWord {n : ℕ} :
    Continues p checkLockWord attempts n ↔ Retried p attempts n := by
  simp only [Continues, Retried, run_checkLockWord_error]

/-- `rtm_lock` is checked elision, under every retry policy. -/
theorem rtmLockUnder_eq_inside_iff {n : ℕ} {txn : Txn} :
    rtmLockUnder p attempts = .inside n txn ↔ ElidesAt p attempts n ∧ txn = ⟨true, none⟩ := by
  rw [rtmLockUnder, lockLoop_eq_inside_iff, run_checkLockWord_ok]
  simp only [continues_checkLockWord, ElidesAt]
  exact and_right_comm

theorem rtmLockUnder_eq_fallback_iff {n : ℕ} :
    rtmLockUnder p attempts = .fallback n ↔ GivesUpAt p attempts n := by
  rw [rtmLockUnder, lockLoop_eq_fallback_iff]
  simp only [continues_checkLockWord, GivesUpAt, run_checkLockWord_error]

/-- The pointer is never 0, so that every transaction aborts itself. -/
theorem lockLoop_checkPointer_ne_inside (mutex : Mutex) {n : ℕ} {txn : Txn} :
    lockLoop p (checkPointer mutex) attempts 0 ≠ .inside n txn := by
  rw [Ne, lockLoop_eq_inside_iff, run_checkPointer]
  rintro ⟨h, -⟩
  cases h

/-- Up to an attempt that should elide, the two tests come to the same. -/
theorem lockLoop_checkPointer_eq (mutex : Mutex) (h : ∀ n, ¬ ElidesAt p attempts n) :
    lockLoop p (checkPointer mutex) attempts 0 = rtmLockUnder p attempts := by
  have hrun : ∀ n, (∀ k < n, Retried p attempts k) →
      (attempts n).run (checkPointer mutex) = (attempts n).run checkLockWord := by
    intro n hn
    rw [run_checkPointer]
    cases ha : attempts n with
    | fails code => rfl
    | starts word =>
      have hw : word ≠ 0 := by
        rintro rfl
        exact h n ⟨ha, hn⟩
      exact (if_pos hw).symm
  cases hd : rtmLockUnder p attempts with
  | inside n txn => exact absurd (rtmLockUnder_eq_inside_iff.mp hd).1 (h n)
  | fallback n =>
    obtain ⟨hcode, hn⟩ := rtmLockUnder_eq_fallback_iff.mp hd
    refine lockLoop_eq_fallback_iff.mpr ⟨?_, fun k hk => ?_⟩
    · simpa only [hrun n hn, run_checkLockWord_error] using hcode
    · obtain ⟨code, hc, hr⟩ := hn k hk
      have hk' := hrun k fun j hj => hn j (by omega)
      exact ⟨code, hk'.trans (run_checkLockWord_error.mpr hc), hr⟩

/-! ## When `rtm_lock_smart` elides -/

theorem rtmLockSmart_ne_inside (mutex : Mutex) (attempts : ℕ → Attempt) (found : List ℕ) (n : ℕ)
    (txn : Txn) : rtmLockSmart mutex attempts found ≠ some (.inside n txn) := by
  unfold rtmLockSmart
  split
  · rename_i h
    exact absurd h (lockLoop_checkPointer_ne_inside mutex)
  · simp

/-- `rtm_lock_smart` does what it should exactly if there is nothing to elide. -/
theorem checksElision_iff (mutex : Mutex) (attempts : ℕ → Attempt) (found : List ℕ) :
    ChecksElision mutex attempts found ↔ ∀ n, ¬ ElidesAt smart attempts n := by
  constructor
  · intro h n hn
    obtain ⟨txn, heq⟩ := (h.inside n).mpr hn
    exact rtmLockSmart_ne_inside mutex attempts found n txn heq
  · intro h
    have hagrees := lockLoop_checkPointer_eq mutex h
    refine ⟨fun n => ⟨?_, fun hn => absurd hn (h n)⟩, ?_, fun _ _ => if_pos mutex.ne_null, ?_,
      hagrees⟩
    · rintro ⟨txn, heq⟩
      exact absurd heq (rtmLockSmart_ne_inside mutex attempts found n txn)
    · intro n txn heq
      exact absurd heq (rtmLockSmart_ne_inside mutex attempts found n txn)
    · intro n
      rw [← rtmLockUnder_eq_fallback_iff, ← hagrees, rtmLockSmart]
      cases lockLoop smart (checkPointer mutex) attempts 0 with
      | inside m txn => simp
      | fallback m => simp [Option.isSome_iff_exists, and_comm]

/-- The lock is free at every attempt, and none of them ends inside the transaction. -/
theorem rtmLockSmart_not_elided : ¬ ∀ (mutex : Mutex) (attempts : ℕ → Attempt) (found : List ℕ),
    ChecksElision mutex attempts found := by
  intro h
  have hfree := (h ⟨1, by decide⟩ (fun _ => .starts 0) []).inside 0
  obtain ⟨txn, heq⟩ := hfree.mpr ⟨rfl, fun _ hk => absurd hk (Nat.not_lt_zero _)⟩
  exact rtmLockSmart_ne_inside _ _ _ _ _ heq

end Htmsql.Rtm.Smart
