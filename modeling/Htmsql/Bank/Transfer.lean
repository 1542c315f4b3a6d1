import Htmsql.Lib.Run
import Htmsql.Lib.Total
import Mathlib.Algebra.BigOperators.Fin
import Mathlib.Algebra.Ring.Int.Defs

/-!
# Transfers between accounts with a lock each

`run_object` and `checkResult` of `src/hle/bank/time_cmp.cpp` over `ThreadsafeAccount`, for any
number of workers. A method takes the lock of its account, loads the balance, stores the new one
and unlocks; the lock is what the code takes it for, mutual exclusion. Balances are integers, and
`random_generator` may return anything: the accounts and the amount of a transfer come with the
action.

No step of a transfer alone keeps the sum of the balances. What does stay is that sum and the
amounts in flight: withdrawn by a store, and not yet deposited by one (`Pc.inFlight`).
-/

namespace Htmsql.Bank

open Run (Reach exec exec_result)

/-- `ACCOUNT_INITIAL` -/
def accountInitial : Int := 1000

/-- A call of a method of `ThreadsafeAccount` by `run_object`; after `withdraw` comes the deposit
of the same transfer. -/
inductive Call (n : Nat) where
  | withdraw (a₁ a₂ : Fin n) (money : Int)
  | deposit (a₂ : Fin n) (money : Int)
  | getBalance (a : Fin n)
  deriving DecidableEq, Repr

namespace Call

variable {n : Nat}

/-- The account that the call works on. -/
def account : Call n → Fin n
  | withdraw a₁ _ _ => a₁
  | deposit a₂ _ => a₂
  | getBalance a => a

end Call

/-- The points of `run` in a thread, each before the access of shared memory that it is named
after. -/
inductive Pc (n : Nat) where
  /-- at `while (!stop_run)` -/
  | loop
  /-- in the loop, before the random numbers -/
  | choose
  | lock (c : Call n)
  | load (c : Call n)
  /-- the balance has been loaded -/
  | store (c : Call n) (b : Int)
  | unlock (c : Call n)
  /-- before `ops++` -/
  | count
  /-- before `operations_count[tid] = ops` -/
  | write
  | done
  deriving DecidableEq, Repr

namespace Pc

variable {n : Nat}

/-- The account whose lock the thread holds. -/
def locked : Pc n → Option (Fin n)
  | load c | store c _ | unlock c => some c.account
  | _ => none

/-- What has been withdrawn and not yet been deposited. -/
def inFlight : Pc n → Int
  | unlock (.withdraw _ _ money) => money
  | lock (.deposit _ money) | load (.deposit _ money) | store (.deposit _ money) _ => money
  | _ => 0

end Pc

/-- The accounts with their locks, and the point and the local count of each thread. -/
structure Sys (T : Type) (n : Nat) where
  balance : Fin n → Int
  /-- who holds the lock of the account -/
  holder : Fin n → Option T
  stopRun : Bool
  pc : T → Pc n
  ops : T → Nat
  operationsCount : T → Nat

/-- What happens next: the random numbers of an operation, a step of a thread, or the end of the
measurement. -/
inductive Act (T : Type) (n : Nat) where
  /-- the random numbers of a transfer -/
  | transfer (t : T) (a₁ a₂ : Fin n) (money : Int)
  /-- the random numbers of a read -/
  | read (t : T) (a : Fin n)
  | run (t : T)
  /-- `stop_run = 1` in `main` -/
  | stop

variable {T : Type} [DecidableEq T] {n : Nat}

/-- The thread goes on to another point. -/
def Sys.setPc (s : Sys T n) (t : T) (p : Pc n) : Sys T n :=
  { s with pc := Function.update s.pc t p }

/-- One account gets another balance. -/
def Sys.setBalance (s : Sys T n) (a : Fin n) (b : Int) : Sys T n :=
  { s with balance := Function.update s.balance a b }

/-- With the balance in hand: `deposit` and `withdraw` still have to store. -/
def afterLoad (b : Int) : Call n → Pc n
  | .getBalance a => .unlock (.getBalance a)
  | c => .store c b

/-- `this->balance -= money`, `this->balance += money` -/
def newBalance (b : Int) : Call n → Int
  | .withdraw _ _ money => b - money
  | .deposit _ money => b + money
  | .getBalance _ => b

/-- Where a call goes on after its unlock: a withdrawal to the deposit that belongs to it, the
others to the count of the operation. -/
def afterUnlock : Call n → Pc n
  | .withdraw _ a₂ money => .lock (.deposit a₂ money)
  | .deposit _ _ | .getBalance _ => .count

/-- One step of a thread by its own code, `none` while the lock it wants is taken. -/
def Sys.run (s : Sys T n) (t : T) : Option (Sys T n) :=
  match s.pc t with
  | .loop => some (s.setPc t (if s.stopRun then .write else .choose))
  | .choose => none
  | .lock c =>
    if s.holder c.account = none then
      some (({ s with holder := Function.update s.holder c.account (some t) } : Sys T n).setPc t
        (.load c))
    else none
  | .load c => some (s.setPc t (afterLoad (s.balance c.account) c))
  | .store c b => some ((s.setBalance c.account (newBalance b c)).setPc t (.unlock c))
  | .unlock c =>
    some (({ s with holder := Function.update s.holder c.account none } : Sys T n).setPc t
      (afterUnlock c))
  | .count => some (({ s with ops := Function.update s.ops t (s.ops t + 1) } : Sys T n).setPc t
      .loop)
  | .write =>
    some (({ s with
      operationsCount := Function.update s.operationsCount t (s.ops t) } : Sys T n).setPc t .done)
  | .done => none

/-- One step of the machine, `none` where the action is not possible. -/
def step (s : Sys T n) : Act T n → Option (Sys T n)
  | .transfer t a₁ a₂ money =>
    if s.pc t = .choose then some (s.setPc t (.lock (.withdraw a₁ a₂ money))) else none
  | .read t a => if s.pc t = .choose then some (s.setPc t (.lock (.getBalance a))) else none
  | .run t => s.run t
  | .stop => some { s with stopRun := true }

/-- The pool as `main` sets it up, with the workers about to start. -/
def init (n : Nat) : Sys T n where
  balance _ := accountInitial
  holder _ := none
  stopRun := false
  pc _ := .loop
  ops _ := 0
  operationsCount _ := 0

/-- `expected` of `checkResult` -/
def expected (accountPoolSize : Nat) : Int := accountPoolSize * accountInitial

/-- `actual` of `checkResult`. Over a `ThreadsafeAccount` it is an `int`, here without bound: the
pool is so small that 1000 for each account stays below 2^31. -/
def actual (balance : Fin n → Int) : Int :=
  (List.ofFn balance).foldl (fun actual balance => actual + balance) 0

/-! ## The invariant -/

/-- The invariant of the run: the locks are held by the threads inside, a balance that a thread
has loaded is still the one in memory, and the balances with the money in flight give the sum at
the start. -/
structure Inv [Fintype T] (s : Sys T n) : Prop where
  holder : ∀ t a, (s.pc t).locked = some a ↔ s.holder a = some t
  loaded : ∀ t c b, s.pc t = .store c b → b = s.balance c.account
  total : ∑ a, s.balance a + ∑ t, (s.pc t).inFlight = expected n

variable [Fintype T] {s s' : Sys T n} {t : T}

/-- A thread moves and leaves the accounts and their locks. -/
theorem Inv.move (h : Inv s) {p : Pc n} (hl : p.locked = (s.pc t).locked)
    (hf : p.inFlight = (s.pc t).inFlight)
    (hs : ∀ c b, p = .store c b → b = s.balance c.account) : Inv (s.setPc t p) := by
  refine ⟨fun u a => ?_, fun u c b hu => ?_, ?_⟩
  · show (Function.update s.pc t p u).locked = some a ↔ s.holder a = some u
    rw [← h.holder u a]
    by_cases hu : u = t
    · rw [hu, Function.update_self, hl]
    · rw [Function.update_of_ne hu]
  · by_cases hut : u = t
    · rw [hut] at hu
      exact hs c b (by simpa [Sys.setPc] using hu)
    · exact h.loaded u c b (by simpa [Sys.setPc, hut] using hu)
  · rw [← h.total]
    exact congrArg _ (Total.sum_update_of_eq hf)

theorem Inv.lock (h : Inv s) {c : Call n} (hp : s.pc t = .lock c)
    (hfree : s.holder c.account = none) :
    Inv (({ s with holder := Function.update s.holder c.account (some t) } : Sys T n).setPc t
      (.load c)) := by
  have hflight : (Pc.load c).inFlight = (s.pc t).inFlight := by
    rw [hp]
    cases c <;> rfl
  refine ⟨fun u a => ?_, fun u c' b hu => ?_, ?_⟩
  · show ((Function.update s.pc t (.load c)) u).locked = some a ↔
      Function.update s.holder c.account (some t) a = some u
    by_cases hu : u = t
    · subst hu
      have hnone := (h.holder u a).symm
      rw [hp] at hnone
      by_cases ha : a = c.account
      · simp [ha, Pc.locked]
      · simp [Pc.locked, ha, Ne.symm ha, hnone]
    · rw [Function.update_of_ne hu, h.holder u a]
      by_cases ha : a = c.account
      · simp [ha, hfree, Ne.symm hu]
      · simp [ha]
  · by_cases hut : u = t
    · rw [hut] at hu
      simp [Sys.setPc] at hu
    · exact h.loaded u c' b (by simpa [Sys.setPc, hut] using hu)
  · rw [← h.total]
    exact congrArg _ (Total.sum_update_of_eq hflight)

theorem Inv.unlock (h : Inv s) {c : Call n} (hp : s.pc t = .unlock c) :
    Inv (({ s with holder := Function.update s.holder c.account none } : Sys T n).setPc t
      (afterUnlock c)) := by
  have hheld : s.holder c.account = some t := (h.holder t _).mp (by rw [hp]; rfl)
  have hflight : (afterUnlock c).inFlight = (s.pc t).inFlight := by
    rw [hp]
    cases c <;> rfl
  have hlocked : (afterUnlock c).locked = none := by cases c <;> rfl
  refine ⟨fun u a => ?_, fun u c' b hu => ?_, ?_⟩
  · show ((Function.update s.pc t (afterUnlock c)) u).locked = some a ↔
      Function.update s.holder c.account none a = some u
    by_cases ha : a = c.account
    · subst ha
      rw [Function.update_self]
      by_cases hu : u = t
      · simp [hu, hlocked]
      · rw [Function.update_of_ne hu, h.holder u, hheld]
        simp [Ne.symm hu]
    · rw [Function.update_of_ne ha]
      by_cases hu : u = t
      · subst hu
        rw [Function.update_self, hlocked, ← h.holder u a, hp]
        simp [Pc.locked, Ne.symm ha]
      · rw [Function.update_of_ne hu, h.holder u a]
  · by_cases hut : u = t
    · rw [hut] at hu
      cases c <;> simp [Sys.setPc, afterUnlock] at hu
    · exact h.loaded u c' b (by simpa [Sys.setPc, hut] using hu)
  · rw [← h.total]
    exact congrArg _ (Total.sum_update_of_eq hflight)

/-- The store moves an amount between the account and the thread. -/
theorem Inv.store (h : Inv s) {c : Call n} {b : Int} (hp : s.pc t = .store c b) :
    Inv ((s.setBalance c.account (newBalance b c)).setPc t (.unlock c)) := by
  have hheld : s.holder c.account = some t := (h.holder t _).mp (by rw [hp]; rfl)
  refine ⟨fun u a => ?_, fun u c' b' hu => ?_, ?_⟩
  · show ((Function.update s.pc t (.unlock c)) u).locked = some a ↔ s.holder a = some u
    rw [← h.holder u a]
    by_cases hu : u = t
    · rw [hu, Function.update_self, hp]
      rfl
    · rw [Function.update_of_ne hu]
  · by_cases hut : u = t
    · rw [hut] at hu
      simp [Sys.setPc] at hu
    · have hu' : s.pc u = .store c' b' := by
        simpa [Sys.setPc, Sys.setBalance, hut] using hu
      have hne : c'.account ≠ c.account := by
        intro heq
        have hheld' := (h.holder u c'.account).mp (by rw [hu']; rfl)
        rw [heq, hheld, Option.some.injEq] at hheld'
        exact hut hheld'.symm
      rw [h.loaded u c' b' hu']
      exact (Function.update_of_ne hne _ _).symm
  · have hbalance := Total.sum_update s.balance id c.account (newBalance b c)
    have hflight := Total.sum_update s.pc Pc.inFlight t (.unlock c)
    have hmove : newBalance b c + (Pc.unlock c).inFlight =
        s.balance c.account + (s.pc t).inFlight := by
      rw [← h.loaded t c b hp, hp]
      cases c <;> simp only [newBalance, Pc.inFlight] <;> omega
    have htotal := h.total
    show ∑ a, Function.update s.balance c.account (newBalance b c) a +
      ∑ u, (Function.update s.pc t (.unlock c) u).inFlight = expected n
    simp only [id] at hbalance
    omega

theorem Inv.run (h : Inv s) (hs : s.run t = some s') : Inv s' := by
  unfold Sys.run at hs
  split at hs
  case h_1 hp =>
    cases hs
    split
    · exact h.move (by rw [hp]; rfl) (by rw [hp]; rfl) (by simp)
    · exact h.move (by rw [hp]; rfl) (by rw [hp]; rfl) (by simp)
  case h_2 => cases hs
  case h_3 c hp =>
    split at hs
    · rename_i hfree
      cases hs
      exact h.lock hp hfree
    · cases hs
  case h_4 c hp =>
    cases hs
    apply h.move
    · rw [hp]
      cases c <;> rfl
    · rw [hp]
      cases c <;> rfl
    · intro c' b hc
      cases c <;> simp only [afterLoad, Pc.store.injEq, reduceCtorEq] at hc <;>
        obtain ⟨rfl, rfl⟩ := hc <;> rfl
  case h_5 c b hp =>
    cases hs
    exact h.store hp
  case h_6 c hp =>
    cases hs
    exact h.unlock hp
  case h_7 hp =>
    cases hs
    have hmove : Inv (s.setPc t .loop) := h.move (by rw [hp]; rfl) (by rw [hp]; rfl) (by simp)
    exact ⟨hmove.holder, hmove.loaded, hmove.total⟩
  case h_8 hp =>
    cases hs
    have hmove : Inv (s.setPc t .done) := h.move (by rw [hp]; rfl) (by rw [hp]; rfl) (by simp)
    exact ⟨hmove.holder, hmove.loaded, hmove.total⟩
  case h_9 => cases hs

theorem Inv.step {a : Act T n} (h : Inv s) (hs : step s a = some s') : Inv s' := by
  cases a with
  | transfer t a₁ a₂ money =>
    simp only [Bank.step, Option.ite_none_right_eq_some, Option.some.injEq] at hs
    obtain ⟨hp, rfl⟩ := hs
    exact h.move (by rw [hp]; rfl) (by rw [hp]; rfl) (by simp)
  | read t a =>
    simp only [Bank.step, Option.ite_none_right_eq_some, Option.some.injEq] at hs
    obtain ⟨hp, rfl⟩ := hs
    exact h.move (by rw [hp]; rfl) (by rw [hp]; rfl) (by simp)
  | run t => exact h.run hs
  | stop =>
    cases hs
    exact ⟨h.holder, h.loaded, h.total⟩

omit [DecidableEq T] in
theorem inv_init : Inv (init n : Sys T n) := by
  refine ⟨?_, ?_, ?_⟩ <;> simp [init, Pc.locked, Pc.inFlight, expected]

theorem reach_inv (h : Reach step (· = init n) (fun _ _ => True) s) : Inv s := by
  refine h.invariant ?_ fun s a s' hi _ hs => hi.step hs
  rintro _ rfl
  exact inv_init

/-! ## Conservation -/

theorem actual_eq (balance : Fin n → Int) : actual balance = ∑ a, balance a := by
  rw [actual, ← List.sum_eq_foldl, List.sum_ofFn]

/-- The balances and what is in flight make the initial amount at every moment, and the balances
alone do when all workers have returned; `checkResult` then finds what it expects. -/
theorem transfers_conserve (h : Reach step (· = init n) (fun _ _ => True) s) :
    ∑ a, s.balance a + ∑ t, (s.pc t).inFlight = n * accountInitial ∧
      ((∀ t, s.pc t = .done) →
        ∑ a, s.balance a = expected n ∧ actual s.balance = expected n) := by
  have htotal := (reach_inv h).total
  refine ⟨htotal, fun hdone => ?_⟩
  have hnone : ∑ t, (s.pc t).inFlight = 0 := Finset.sum_eq_zero fun t _ => by
    rw [hdone t]
    rfl
  rw [hnone, add_zero] at htotal
  exact ⟨htotal, (actual_eq _).trans htotal⟩

/-- Two transfers, the second one from an account to itself. -/
def twoTransfers (a b : Fin 2) : List (Act Bool 2) :=
  [.run true, .transfer true a b 300, .run true, .run true, .run true,
    .run false, .transfer false b b 7, .run false, .run false,
    .run true, .run false, .run false, .run true, .stop]

theorem transfers_conserve_twoTransfers :
    ∃ s, exec step (init 2) (twoTransfers 0 1) = some s ∧
      (s.balance 0, s.balance 1) = (700, 993) ∧
      s.balance 0 + s.balance 1 + ((s.pc true).inFlight + (s.pc false).inFlight) = 2000 := by
  obtain ⟨s, hs, hb⟩ := exec_result step (init 2) (twoTransfers 0 1)
    (fun s => (s.balance 0, s.balance 1)) (700, 993) (by decide)
  have htotal := (transfers_conserve (.exec (.init rfl) hs)).1
  simp only [Fin.sum_univ_two, Fintype.sum_bool] at htotal
  exact ⟨s, hs, hb, htotal⟩

end Htmsql.Bank
