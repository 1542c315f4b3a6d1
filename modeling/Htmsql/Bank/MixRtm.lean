import Htmsql.Bank.Transfer
import Htmsql.Innodb.Holder
import Htmsql.Lib.Elision

/-!
# Transfers under a lock beside transfers in transactions

`run_mix_rtm` of `src/hle/bank/time_cmp.cpp` over one pool of `Account`, for any number of
workers. A worker chooses anew for each operation between `atomic_exch_lock_spec` on
`global_mutex` and `rtm_lock`; the latter only opens a transaction and never looks at
`global_mutex`.

The hardware is taken as in the other models: a transaction buffers its writes until `_xend`; it
is aborted as soon as another thread writes a location it has read or written, or reads one it has
written; it may also be aborted at any other moment, and `rtm_lock` then begins again.

`Account::withdraw` and `Account::deposit` load the balance and store the new one. A transaction
that commits between the load and the store of a worker under the lock loses its update if it has
changed that account. Where no commit does (`CommitsBeside`), each transaction moves money within
its own view of the pool, and each worker under the lock stores on top of what is there.
-/

namespace Htmsql.Bank.MixRtm

open Innodb (Held)
open Run (Reach exec guarded exec_result)
open Trace

/-- `curr_lock_func` -/
inductive Lock where
  | atomicExch
  | rtm
  deriving DecidableEq, Repr

/-- What a section is to do. -/
inductive Op (n : Nat) where
  | transfer (a₁ a₂ : Fin n) (money : Int)
  | read (a : Fin n)
  deriving DecidableEq, Repr

/-- The first call of a section. -/
def Op.first {n : Nat} : Op n → Call n
  | transfer a₁ a₂ money => .withdraw a₁ a₂ money
  | read a => .getBalance a

/-- The points of `run` in a thread, each before the access of shared memory that it is named
after. -/
inductive Pc (n : Nat) where
  | loop
  | choose
  /-- `atomic_exch_lock_spec`, before the exchange -/
  | exchange (o : Op n)
  /-- in the waiting loop, before `__atomic_load` -/
  | wait (o : Op n)
  /-- `rtm_lock`, before `_xbegin()` -/
  | xbegin (o : Op n)
  | load (k : Lock) (c : Call n)
  | store (k : Lock) (c : Call n) (b : Int)
  /-- before `curr_unlock_func` -/
  | unlock (k : Lock)
  | count
  | write
  | done
  deriving DecidableEq, Repr

/-- An open transaction. -/
structure Txn (n : Nat) where
  /-- its accesses; they give its read set and its buffered writes -/
  trace : List (Ev (Fin n) Int)
  /-- what starts again after an abort -/
  op : Op n
  deriving DecidableEq

/-- The shared memory, the point of each thread and its transaction while it is in one. `ops` is
the count of operations that is local to the thread. -/
structure Sys (T : Type) (n : Nat) where
  globalMutex : Nat
  balance : Fin n → Int
  pc : T → Pc n
  txn : T → Option (Txn n)
  stopRun : Bool
  ops : T → Nat
  operationsCount : T → Nat

/-- What happens next: a thread or its hardware takes a step, or `main` stops the threads. -/
inductive Act (T : Type) (n : Nat) where
  /-- the random numbers of an operation -/
  | choose (t : T) (k : Lock) (o : Op n)
  /-- `_xbegin()`, which starts the transaction or returns an abort code -/
  | xbegin (t : T) (started : Bool)
  | run (t : T)
  /-- the hardware aborts the transaction -/
  | abort (t : T)
  | stop

variable {T : Type} [DecidableEq T] {n : Nat}

/-- The thread goes on to another point. -/
def Sys.setPc (s : Sys T n) (t : T) (p : Pc n) : Sys T n :=
  { s with pc := Function.update s.pc t p }

/-- The thread starts a transaction, adds to its trace or leaves it. -/
def Sys.setTxn (s : Sys T n) (t : T) (x : Option (Txn n)) : Sys T n :=
  { s with txn := Function.update s.txn t x }

/-- Abort the transactions of other threads that the access conflicts with. -/
def Sys.abortHit (s : Sys T n) (t : T) (e : Ev (Fin n) Int) : Sys T n :=
  { s with
    pc := fun u =>
      match s.txn u with
      | some x => if u ≠ t ∧ e.Conflicts x.trace then .xbegin x.op else s.pc u
      | none => s.pc u
    txn := fun u => (s.txn u).filter fun x => !decide (u ≠ t ∧ e.Conflicts x.trace) }

/-- `curr_lock_func(&global_mutex)` -/
def enter (o : Op n) : Lock → Pc n
  | .atomicExch => .exchange o
  | .rtm => .xbegin o

/-- With the balance in hand. -/
def afterLoad (k : Lock) (b : Int) : Call n → Pc n
  | .getBalance _ => .unlock k
  | c => .store k c b

/-- Where a call goes on after its store: a transfer to its second half, the others to the end of
the section. -/
def afterStore (k : Lock) : Call n → Pc n
  | .withdraw _ a₂ money => .load k (.deposit a₂ money)
  | .deposit _ _ | .getBalance _ => .unlock k

/-- The load of the balance, in memory or in the view of the transaction. -/
def Sys.load (s : Sys T n) (t : T) (k : Lock) (c : Call n) : Sys T n :=
  match s.txn t with
  | some x =>
    let b := publish s.balance x.trace c.account
    ((s.abortHit t (.rd c.account b)).setTxn t
      (some { x with trace := x.trace ++ [.rd c.account b] })).setPc t (afterLoad k b c)
  | none =>
    let b := s.balance c.account
    (s.abortHit t (.rd c.account b)).setPc t (afterLoad k b c)

/-- The store of a new balance: in a transaction it stays in the trace until the commit, outside
of one it reaches memory at once. Transactions that have touched the account are aborted. -/
def Sys.store (s : Sys T n) (t : T) (k : Lock) (c : Call n) (b : Int) : Sys T n :=
  let e := .wr c.account (newBalance b c)
  match s.txn t with
  | some x =>
    ((s.abortHit t e).setTxn t (some { x with trace := x.trace ++ [e] })).setPc t (afterStore k c)
  | none =>
    ({ s.abortHit t e with
      balance := Function.update s.balance c.account (newBalance b c) } : Sys T n).setPc t
      (afterStore k c)

/-- One step of a thread by its own code, `none` where it waits for something else. -/
def Sys.run (s : Sys T n) (t : T) : Option (Sys T n) :=
  match s.pc t with
  | .loop => some (s.setPc t (if s.stopRun then .write else .choose))
  | .choose | .xbegin _ | .done => none
  | .exchange o =>
    some (({ s with globalMutex := 1 } : Sys T n).setPc t
      (if s.globalMutex ≠ 0 then .wait o else .load .atomicExch o.first))
  | .wait o => some (s.setPc t (if s.globalMutex = 1 then .wait o else .exchange o))
  | .load k c => some (s.load t k c)
  | .store k c b => some (s.store t k c b)
  | .unlock .atomicExch => some (({ s with globalMutex := 0 } : Sys T n).setPc t .count)
  | .unlock .rtm =>
    (s.txn t).map fun x =>
      (({ s with balance := publish s.balance x.trace } : Sys T n).setTxn t none).setPc t .count
  | .count =>
    some (({ s with ops := Function.update s.ops t (s.ops t + 1) } : Sys T n).setPc t .loop)
  | .write =>
    some (({ s with
      operationsCount := Function.update s.operationsCount t (s.ops t) } : Sys T n).setPc t .done)

/-- One step of the machine, `none` where the action is not possible. -/
def step (s : Sys T n) : Act T n → Option (Sys T n)
  | .choose t k o => if s.pc t = .choose then some (s.setPc t (enter o k)) else none
  | .xbegin t started =>
    match s.pc t with
    | .xbegin o =>
      some (if started then (s.setTxn t (some ⟨[], o⟩)).setPc t (.load .rtm o.first) else s)
    | _ => none
  | .run t => s.run t
  | .abort t => (s.txn t).map fun x => (s.setTxn t none).setPc t (.xbegin x.op)
  | .stop => some { s with stopRun := true }

/-- All accounts with their initial balance, no lock taken and every thread before its loop. -/
def init (n : Nat) : Sys T n where
  globalMutex := 0
  balance _ := accountInitial
  pc _ := .loop
  txn _ := none
  stopRun := false
  ops _ := 0
  operationsCount _ := 0

namespace Pc

/-- The thread holds `global_mutex`. -/
def holds : Pc n → Bool
  | load .atomicExch _ | store .atomicExch _ _ | unlock .atomicExch => true
  | _ => false

/-- The thread is inside a transaction. -/
def speculates : Pc n → Bool
  | load .rtm _ | store .rtm _ _ | unlock .rtm => true
  | _ => false

/-- The account whose balance a worker under the lock has loaded and not yet stored. -/
def loaded : Pc n → Option (Fin n)
  | store .atomicExch c _ => some c.account
  | _ => none

/-- What the section has withdrawn and not yet deposited, if it is guarded by `k`. -/
def inFlight (k : Lock) : Pc n → Int
  | load k' (.deposit _ money) | store k' (.deposit _ money) _ => if k' = k then money else 0
  | _ => 0

end Pc

/-- The step is not the `_xend` of a transaction that changes an account which a worker under the
lock has loaded and not yet stored. -/
def CommitsBeside (s : Sys T n) : Act T n → Prop
  | .run t => ∀ x ∈ s.txn t, s.pc t = .unlock .rtm → ∀ u a, (s.pc u).loaded = some a →
      publish s.balance x.trace a = s.balance a
  | _ => True

instance [Fintype T] (s : Sys T n) (a : Act T n) : Decidable (CommitsBeside s a) :=
  match a with
  | .run t => inferInstanceAs (Decidable (∀ x ∈ s.txn t, s.pc t = .unlock .rtm → ∀ u a,
      (s.pc u).loaded = some a → publish s.balance x.trace a = s.balance a))
  | .choose .. | .xbegin .. | .abort _ | .stop => isTrue trivial

/-! ## The invariant -/

/-- The lock that guards an access, told from whether the thread is in a transaction. -/
theorem Pc.guard_eq {p : Pc n} {k : Lock} {c : Call n}
    (hp : p = .load k c ∨ ∃ b, p = .store k c b) :
    k = if p.speculates then .rtm else .atomicExch := by
  rcases hp with rfl | ⟨b, rfl⟩ <;> cases k <;> rfl

/-- A section in a transaction is not one under the lock. -/
theorem Pc.of_speculates {p : Pc n} (h : p.speculates = true) :
    p.holds = false ∧ p.inFlight .atomicExch = 0 := by
  cases p with
  | load k c =>
    cases k with
    | atomicExch => cases h
    | rtm => cases c <;> exact ⟨rfl, rfl⟩
  | store k c b =>
    cases k with
    | atomicExch => cases h
    | rtm => cases c <;> exact ⟨rfl, rfl⟩
  | unlock k =>
    cases k with
    | atomicExch => cases h
    | rtm => exact ⟨rfl, rfl⟩
  | _ => cases h

/-- An open transaction of a thread at `p`, over the memory `m`. -/
structure View (m : Fin n → Int) (p : Pc n) (x : Txn n) : Prop where
  speculates : p.speculates = true
  legal : Legal m x.trace
  loaded : ∀ c b, p = .store .rtm c b →
    c.account ∈ touched x.trace ∧ b = publish m x.trace c.account
  total : ∑ a, publish m x.trace a + p.inFlight .rtm = ∑ a, m a

/-- The invariant of the runs that meet the condition: whoever has the lock word has loaded the
balance that is still there, and the transactions see disjoint parts of memory as it is. -/
structure Inv [Fintype T] (s : Sys T n) : Prop where
  held : Held s.globalMutex fun t => (s.pc t).holds
  loaded : ∀ t c b, s.pc t = .store .atomicExch c b → b = s.balance c.account
  outside : ∀ t, s.txn t = none → (s.pc t).speculates = false
  view : ∀ t x, s.txn t = some x → View s.balance (s.pc t) x
  apart : ∀ t u x y, t ≠ u → s.txn t = some x → s.txn u = some y →
    ∀ a ∈ written x.trace, a ∉ touched y.trace
  total : ∑ a, s.balance a + ∑ t, (s.pc t).inFlight .atomicExch = expected n

/-- Memory may change where the transaction has no access. -/
theorem View.frame {m m' : Fin n → Int} {p : Pc n} {x : Txn n} (h : View m p x)
    (hm : ∀ a ∈ touched x.trace, m' a = m a) : View m' p x := by
  refine ⟨h.speculates, h.legal.congr hm, fun c b hp => ?_, ?_⟩
  · obtain ⟨hc, hb⟩ := h.loaded c b hp
    exact ⟨hc, hb.trans (publish_congr fun _ => hm _ hc).symm⟩
  · have hpoint : ∀ a, publish m' x.trace a + m a = publish m x.trace a + m' a := by
      intro a
      by_cases ha : a ∈ touched x.trace
      · rw [publish_congr fun _ => hm a ha, hm a ha]
      · have hw : a ∉ written x.trace := fun hw => ha (mem_touched_of_mem_written hw)
        rw [publish_of_not_written hw, publish_of_not_written hw, add_comm]
    have hsum : ∑ a, (publish m' x.trace a + m a) = ∑ a, (publish m x.trace a + m' a) :=
      Finset.sum_congr rfl fun a _ => hpoint a
    rw [Finset.sum_add_distrib, Finset.sum_add_distrib] at hsum
    have htotal := h.total
    omega

variable [Fintype T] {s s' : Sys T n} {t : T}

omit [DecidableEq T] in
theorem Inv.txn_none (h : Inv s) (hp : (s.pc t).speculates = false) : s.txn t = none := by
  cases hx : s.txn t with
  | none => rfl
  | some x =>
    have := (h.view t x hx).speculates
    rw [hp] at this
    cases this

omit [DecidableEq T] in
/-- A thread is in a transaction exactly if it speculates. -/
theorem Inv.speculates_eq (h : Inv s) (t : T) : (s.pc t).speculates = (s.txn t).isSome := by
  cases hx : s.txn t with
  | none => exact h.outside t hx
  | some x => exact (h.view t x hx).speculates

/-- One thread moves, and its transaction begins, goes on or ends; memory and the lock stay. -/
theorem Inv.setThread (h : Inv s) {p : Pc n} {x : Option (Txn n)}
    (hholds : p.holds = (s.pc t).holds)
    (hloaded : ∀ c b, p = .store .atomicExch c b → b = s.balance c.account)
    (hflight : p.inFlight .atomicExch = (s.pc t).inFlight .atomicExch)
    (houtside : x = none → p.speculates = false) (hview : ∀ y ∈ x, View s.balance p y)
    (hapart : ∀ y ∈ x, ∀ u, u ≠ t → ∀ z ∈ s.txn u, (∀ a ∈ written y.trace, a ∉ touched z.trace) ∧
      ∀ a ∈ written z.trace, a ∉ touched y.trace) :
    Inv ((s.setTxn t x).setPc t p) := by
  have hpc : ((s.setTxn t x).setPc t p).pc = Function.update s.pc t p := rfl
  have htxn : ((s.setTxn t x).setPc t p).txn = Function.update s.txn t x := rfl
  refine ⟨h.held.congr fun u => ?_, fun u c b hu => ?_, fun u hu => ?_, fun u y hu => ?_,
    fun u w y z hne hu hw => ?_, ?_⟩
  · rw [hpc]
    by_cases hut : u = t
    · rw [hut, Function.update_self, hholds]
    · rw [Function.update_of_ne hut]
  · rw [hpc] at hu
    by_cases hut : u = t
    · rw [hut, Function.update_self] at hu
      exact hloaded c b hu
    · rw [Function.update_of_ne hut] at hu
      exact h.loaded u c b hu
  · rw [htxn] at hu
    rw [hpc]
    by_cases hut : u = t
    · rw [hut, Function.update_self] at hu ⊢
      exact houtside hu
    · rw [Function.update_of_ne hut] at hu ⊢
      exact h.outside u hu
  · rw [htxn] at hu
    rw [hpc]
    by_cases hut : u = t
    · rw [hut, Function.update_self] at hu ⊢
      exact hview y hu
    · rw [Function.update_of_ne hut] at hu ⊢
      exact h.view u y hu
  · rw [htxn] at hu hw
    by_cases hut : u = t
    · have hwt : w ≠ t := fun heq => hne (hut.trans heq.symm)
      rw [hut, Function.update_self] at hu
      rw [Function.update_of_ne hwt] at hw
      exact (hapart y hu w hwt z hw).1
    · rw [Function.update_of_ne hut] at hu
      by_cases hwt : w = t
      · rw [hwt, Function.update_self] at hw
        exact (hapart z hw u hut y hu).2
      · rw [Function.update_of_ne hwt] at hw
        exact h.apart u w y z hne hu hw
  · rw [← h.total]
    exact congrArg _ (Total.sum_update_of_eq hflight)

/-- A thread outside a transaction moves. -/
theorem Inv.setPc (h : Inv s) {p : Pc n} (hspec : (s.pc t).speculates = false)
    (hp : p.speculates = false) (hholds : p.holds = (s.pc t).holds)
    (hloaded : ∀ c b, p = .store .atomicExch c b → b = s.balance c.account)
    (hflight : p.inFlight .atomicExch = (s.pc t).inFlight .atomicExch) : Inv (s.setPc t p) := by
  have hnone := h.txn_none hspec
  have heq : s.setTxn t none = s := by
    rw [← hnone, Sys.setTxn, Function.update_eq_self]
  rw [← heq]
  exact h.setThread hholds hloaded hflight (fun _ => hp) (by simp) (by simp)

/-! ## Aborts -/

omit [Fintype T] in
theorem abortHit_cases (s : Sys T n) (t : T) (e : Ev (Fin n) Int) (u : T) :
    (s.abortHit t e).pc u = s.pc u ∧ (s.abortHit t e).txn u = s.txn u ∨
      ∃ x, s.txn u = some x ∧ (s.abortHit t e).pc u = .xbegin x.op ∧
        (s.abortHit t e).txn u = none := by
  cases hx : s.txn u with
  | none => exact Or.inl ⟨by simp [Sys.abortHit, hx], by simp [Sys.abortHit, hx]⟩
  | some x =>
    by_cases hc : u ≠ t ∧ e.Conflicts x.trace
    · exact Or.inr ⟨x, rfl, by simp [Sys.abortHit, hx, hc], by simp [Sys.abortHit, hx, hc]⟩
    · refine Or.inl ⟨?_, ?_⟩
      · simp only [Sys.abortHit, hx, if_neg hc]
      · simp only [Sys.abortHit, hx]
        exact Option.filter_eq_some_iff.mpr ⟨rfl, by rw [Bool.not_eq_true', decide_eq_false hc]⟩

omit [Fintype T] in
/-- What has survived does not conflict with the access. -/
theorem not_conflicts_of_abortHit {e : Ev (Fin n) Int} {u : T} {x : Txn n} (hu : u ≠ t)
    (hx : (s.abortHit t e).txn u = some x) : ¬ e.Conflicts x.trace := by
  obtain ⟨-, hc⟩ := Option.filter_eq_some_iff.mp hx
  simpa [hu] using hc

omit [Fintype T] in
theorem abortHit_self (s : Sys T n) (t : T) (e : Ev (Fin n) Int) :
    (s.abortHit t e).pc t = s.pc t ∧ (s.abortHit t e).txn t = s.txn t := by
  rcases abortHit_cases s t e t with h | ⟨x, hx, -, hnone⟩
  · exact h
  · simp [Sys.abortHit, hx] at hnone

theorem Inv.abortHit (h : Inv s) (t : T) (e : Ev (Fin n) Int) : Inv (s.abortHit t e) := by
  have hold : ∀ u x, (s.abortHit t e).txn u = some x →
      s.txn u = some x ∧ (s.abortHit t e).pc u = s.pc u := by
    intro u x hu
    rcases abortHit_cases s t e u with ⟨hp, hx⟩ | ⟨y, -, -, hx⟩
    · exact ⟨hx ▸ hu, hp⟩
    · rw [hx] at hu
      cases hu
  have hspec : ∀ u x, s.txn u = some x →
      (s.pc u).holds = false ∧ (s.pc u).inFlight .atomicExch = 0 := fun u x hu =>
    Pc.of_speculates (h.view u x hu).speculates
  refine ⟨h.held.congr fun u => ?_, fun u c b hu => ?_, fun u hu => ?_, fun u x hu => ?_,
    fun u w x y hne hu hw => ?_, ?_⟩
  · rcases abortHit_cases s t e u with ⟨hp, -⟩ | ⟨x, hx, hp, -⟩
    · rw [hp]
    · rw [hp, (hspec u x hx).1]
      rfl
  · rcases abortHit_cases s t e u with ⟨hp, -⟩ | ⟨x, -, hp, -⟩
    · exact h.loaded u c b (hp ▸ hu)
    · rw [hp] at hu
      cases hu
  · rcases abortHit_cases s t e u with ⟨hp, hx⟩ | ⟨x, -, hp, -⟩
    · rw [hp]
      exact h.outside u (hx ▸ hu)
    · rw [hp]
      rfl
  · obtain ⟨hx, hp⟩ := hold u x hu
    rw [hp]
    exact h.view u x hx
  · exact h.apart u w x y hne (hold u x hu).1 (hold w y hw).1
  · rw [← h.total]
    refine congrArg _ (Finset.sum_congr rfl fun u _ => ?_)
    rcases abortHit_cases s t e u with ⟨hp, -⟩ | ⟨x, hx, hp, -⟩
    · rw [hp]
    · rw [hp, (hspec u x hx).2]
      rfl

/-! ## Accesses -/

omit [DecidableEq T] [Fintype T] in
theorem View.load {m : Fin n → Int} {c : Call n} {x : Txn n} (h : View m (.load .rtm c) x) :
    View m (afterLoad .rtm (publish m x.trace c.account) c)
      { x with trace := x.trace ++ [.rd c.account (publish m x.trace c.account)] } := by
  have hpublish : ∀ b, publish m (x.trace ++ [.rd c.account b]) = publish m x.trace :=
    fun b => publish_append m x.trace _
  refine ⟨by cases c <;> rfl, legal_rd h.legal c.account, fun c' b hc => ?_, ?_⟩
  · have hstore : c' = c ∧ b = publish m x.trace c.account := by
      cases c <;> simp only [afterLoad, Pc.store.injEq, reduceCtorEq] at hc <;>
        exact ⟨hc.2.1.symm, hc.2.2.symm⟩
    obtain ⟨rfl, rfl⟩ := hstore
    rw [hpublish, touched_append]
    exact ⟨List.mem_append_right _ (List.mem_singleton.mpr rfl), rfl⟩
  · have htotal := h.total
    rw [hpublish]
    cases c <;> exact htotal

omit [DecidableEq T] [Fintype T] in
theorem View.store {m : Fin n → Int} {c : Call n} {b : Int} {x : Txn n}
    (h : View m (.store .rtm c b) x) :
    View m (afterStore .rtm c) { x with trace := x.trace ++ [.wr c.account (newBalance b c)] } := by
  obtain ⟨-, hb⟩ := h.loaded c b rfl
  refine ⟨by cases c <;> rfl, legal_wr h.legal _ _, fun c' b' hc => ?_, ?_⟩
  · cases c <;> cases hc
  · have hsum := Total.sum_update (publish m x.trace) id c.account (newBalance b c)
    have htotal := h.total
    rw [publish_append]
    simp only [id, ← hb] at hsum
    show ∑ a, Function.update (publish m x.trace) c.account (newBalance b c) a + _ = _
    cases c <;> simp only [newBalance, afterStore, Pc.inFlight, if_true] at hsum htotal ⊢ <;> omega

/-- An access inside a transaction, with no conflicting transaction left. -/
theorem Inv.specAccess (h : Inv s) {p : Pc n} {x : Txn n} {e : Ev (Fin n) Int}
    (hx : s.txn t = some x) (hfree : ∀ u y, u ≠ t → s.txn u = some y → ¬ e.Conflicts y.trace)
    (hview : View s.balance p { x with trace := x.trace ++ [e] }) :
    Inv ((s.setTxn t (some { x with trace := x.trace ++ [e] })).setPc t p) := by
  obtain ⟨hhold, hflight⟩ := Pc.of_speculates (h.view t x hx).speculates
  obtain ⟨hhold', hflight'⟩ := Pc.of_speculates hview.speculates
  refine h.setThread (hhold'.trans hhold.symm) ?_ (hflight'.trans hflight.symm) (by simp) ?_ ?_
  · rintro c b rfl
    cases hview.speculates
  · intro y hy
    cases hy
    exact hview
  · intro y hy u hu z hz
    cases hy
    obtain ⟨he₁, he₂⟩ := Elision.not_conflicts (hfree u z hu hz)
    refine ⟨fun a ha => ?_, fun a ha => ?_⟩
    · rw [written_append, List.mem_append] at ha
      rcases ha with ha | ha
      · exact h.apart t u x z hu.symm hx hz a ha
      · exact he₂ a ha
    · rw [touched_append, List.mem_append, not_or]
      exact ⟨h.apart u t z x hu hz hx a ha, he₁ a ha⟩

/-- The store of a worker under the lock. -/
theorem Inv.ownStore (h : Inv s) {c : Call n} {b : Int} (hp : s.pc t = .store .atomicExch c b)
    (hfree : ∀ u x, s.txn u = some x → c.account ∉ touched x.trace) :
    Inv (({ s with
      balance := Function.update s.balance c.account (newBalance b c) } : Sys T n).setPc t
      (afterStore .atomicExch c)) := by
  have hnone : s.txn t = none := h.txn_none (by rw [hp]; rfl)
  have hpc : ∀ u, u ≠ t → Function.update s.pc t (afterStore .atomicExch c) u = s.pc u :=
    fun u hu => Function.update_of_ne hu _ _
  refine ⟨h.held.congr fun u => ?_, fun u c' b' hu => ?_, fun u hu => ?_, fun u x hu => ?_,
    h.apart, ?_⟩
  · show (Function.update s.pc t (afterStore .atomicExch c) u).holds = _
    by_cases hut : u = t
    · rw [hut, Function.update_self, hp]
      cases c <;> rfl
    · rw [hpc u hut]
  · change Function.update s.pc t (afterStore .atomicExch c) u = _ at hu
    by_cases hut : u = t
    · rw [hut, Function.update_self] at hu
      cases c <;> cases hu
    · -- only one worker holds the lock
      rw [hpc u hut] at hu
      exact (hut (h.held.unique u t (by rw [hu]; rfl) (by rw [hp]; rfl))).elim
  · show (Function.update s.pc t (afterStore .atomicExch c) u).speculates = false
    by_cases hut : u = t
    · rw [hut, Function.update_self]
      cases c <;> rfl
    · rw [hpc u hut]
      exact h.outside u hu
  · show View _ (Function.update s.pc t (afterStore .atomicExch c) u) x
    have hut : u ≠ t := fun heq => by cases (heq ▸ hnone).symm.trans hu
    rw [hpc u hut]
    refine (h.view u x hu).frame fun a ha => Function.update_of_ne ?_ _ _
    rintro rfl
    exact hfree u x hu ha
  · have hbalance := Total.sum_update s.balance id c.account (newBalance b c)
    have hflight := Total.sum_update s.pc (Pc.inFlight .atomicExch) t (afterStore .atomicExch c)
    have hmove : newBalance b c + (afterStore .atomicExch c).inFlight .atomicExch =
        s.balance c.account + (s.pc t).inFlight .atomicExch := by
      rw [← h.loaded t c b hp, hp]
      cases c <;> simp only [newBalance, afterStore, Pc.inFlight, if_true] <;> omega
    have htotal := h.total
    show ∑ a, Function.update s.balance c.account (newBalance b c) a +
      ∑ u, (Function.update s.pc t (afterStore .atomicExch c) u).inFlight .atomicExch = expected n
    simp only [id] at hbalance
    omega

theorem Inv.load (h : Inv s) {k : Lock} {c : Call n} (hp : s.pc t = .load k c) :
    Inv (s.load t k c) := by
  have hk := Pc.guard_eq (.inl hp)
  rw [h.speculates_eq] at hk
  unfold Sys.load
  split
  · rename_i x hx
    rw [hx] at hk
    obtain rfl : k = .rtm := hk
    have hview := h.view t x hx
    rw [hp] at hview
    set e : Ev (Fin n) Int := .rd c.account (publish s.balance x.trace c.account) with he
    exact (h.abortHit t e).specAccess ((abortHit_self s t e).2.trans hx)
      (fun u y hu hy => not_conflicts_of_abortHit hu hy) hview.load
  · rename_i hx
    rw [hx] at hk
    obtain rfl : k = .atomicExch := hk
    set e : Ev (Fin n) Int := .rd c.account (s.balance c.account) with he
    have hself := (abortHit_self s t e).1
    refine (h.abortHit t e).setPc ?_ ?_ ?_ ?_ ?_ <;> try rw [hself, hp]
    · rfl
    · cases c <;> rfl
    · cases c <;> rfl
    · intro c' b hc
      cases c <;> simp only [afterLoad, Pc.store.injEq, reduceCtorEq] at hc <;>
        obtain ⟨-, rfl, rfl⟩ := hc <;> rfl
    · cases c <;> rfl

theorem Inv.store (h : Inv s) {k : Lock} {c : Call n} {b : Int} (hp : s.pc t = .store k c b) :
    Inv (s.store t k c b) := by
  have hk := Pc.guard_eq (.inr ⟨b, hp⟩)
  rw [h.speculates_eq] at hk
  unfold Sys.store
  set e : Ev (Fin n) Int := .wr c.account (newBalance b c) with he
  dsimp only
  split
  · rename_i x hx
    rw [hx] at hk
    obtain rfl : k = .rtm := hk
    have hview := h.view t x hx
    rw [hp] at hview
    exact (h.abortHit t e).specAccess ((abortHit_self s t e).2.trans hx)
      (fun u y hu hy => not_conflicts_of_abortHit hu hy) hview.store
  · rename_i hx
    rw [hx] at hk
    obtain rfl : k = .atomicExch := hk
    obtain ⟨hpc, htxn⟩ := abortHit_self s t e
    refine (h.abortHit t e).ownStore (hpc.trans hp) fun u x hu => ?_
    have hut : u ≠ t := by
      rintro rfl
      rw [htxn, hx] at hu
      cases hu
    exact not_conflicts_of_abortHit hut hu

/-! ## The lock and the transactions -/

/-- `global_mutex` changes hands. -/
theorem Inv.setMutex (h : Inv s) {w : Nat} {p : Pc n} (hspec : (s.pc t).speculates = false)
    (hp : p.speculates = false) (hloaded : p.loaded = none)
    (hflight : p.inFlight .atomicExch = (s.pc t).inFlight .atomicExch)
    (hheld : Held w fun u => (Function.update s.pc t p u).holds) :
    Inv (({ s with globalMutex := w } : Sys T n).setPc t p) := by
  have hnone := h.txn_none hspec
  refine ⟨hheld, fun u c b hu => ?_, fun u hu => ?_, fun u x hu => ?_, h.apart, ?_⟩
  · change Function.update s.pc t p u = _ at hu
    by_cases hut : u = t
    · rw [hut, Function.update_self] at hu
      rw [hu] at hloaded
      cases hloaded
    · rw [Function.update_of_ne hut] at hu
      exact h.loaded u c b hu
  · show (Function.update s.pc t p u).speculates = false
    by_cases hut : u = t
    · rw [hut, Function.update_self, hp]
    · rw [Function.update_of_ne hut]
      exact h.outside u hu
  · show View _ (Function.update s.pc t p u) x
    have hut : u ≠ t := fun heq => by cases (heq ▸ hnone).symm.trans hu
    rw [Function.update_of_ne hut]
    exact h.view u x hu
  · rw [← h.total]
    exact congrArg _ (Total.sum_update_of_eq hflight)

theorem Inv.exchange (h : Inv s) {o : Op n} (hp : s.pc t = .exchange o) :
    Inv (({ s with globalMutex := 1 } : Sys T n).setPc t
      (if s.globalMutex ≠ 0 then .wait o else .load .atomicExch o.first)) := by
  have hspec : (s.pc t).speculates = false := by rw [hp]; rfl
  have hhold : (s.pc t).holds = false := by rw [hp]; rfl
  split
  · rename_i hne
    have hone : s.globalMutex = 1 := h.held.binary.resolve_left hne
    refine h.setMutex hspec rfl rfl (by rw [hp]; rfl) ?_
    rw [← hone]
    refine h.held.congr fun u => ?_
    by_cases hu : u = t
    · rw [hu, Function.update_self, hhold]
      rfl
    · rw [Function.update_of_ne hu]
  · rename_i hz
    have hzero : s.globalMutex = 0 := not_not.mp hz
    have hheld := h.held
    rw [hzero] at hheld
    refine h.setMutex hspec rfl rfl (by rw [hp]; cases o <;> rfl)
      (Held.take (t := t) hheld (by simp [Pc.holds]) fun u hu => ?_)
    rw [Function.update_of_ne hu]

theorem Inv.unlock (h : Inv s) (hp : s.pc t = .unlock .atomicExch) :
    Inv (({ s with globalMutex := 0 } : Sys T n).setPc t .count) := by
  refine h.setMutex (by rw [hp]; rfl) rfl rfl (by rw [hp]; rfl) ?_
  refine h.held.reset (t := t) (by rw [hp]; rfl) (by simp [Pc.holds]) fun u hu => ?_
  rw [Function.update_of_ne hu]

theorem Inv.rollback (h : Inv s) {x : Txn n} (hx : s.txn t = some x) :
    Inv ((s.setTxn t none).setPc t (.xbegin x.op)) := by
  obtain ⟨hhold, hflight⟩ := Pc.of_speculates (h.view t x hx).speculates
  refine h.setThread hhold.symm ?_ hflight.symm (fun _ => rfl) (by simp) (by simp)
  intro c b hc
  cases hc

theorem Inv.begin (h : Inv s) {o : Op n} (hp : s.pc t = .xbegin o) :
    Inv ((s.setTxn t (some ⟨[], o⟩)).setPc t (.load .rtm o.first)) := by
  refine h.setThread (by rw [hp]; rfl) (by simp) (by rw [hp]; cases o <;> rfl) (by simp) ?_ ?_
  · intro y hy
    cases hy
    exact ⟨rfl, trivial, by simp, by cases o <;> exact add_zero _⟩
  · intro y hy u _ z _
    cases hy
    simp [written, touched]

/-- `_xend`, when the workers under the lock have nothing in hand that it changes. -/
theorem Inv.commit (h : Inv s) {x : Txn n} (hp : s.pc t = .unlock .rtm) (hx : s.txn t = some x)
    (hok : CommitsBeside s (.run t)) :
    Inv ((({ s with balance := publish s.balance x.trace } : Sys T n).setTxn t none).setPc t
      .count) := by
  have hother : ∀ u y, u ≠ t → s.txn u = some y →
      ∀ a ∈ touched y.trace, publish s.balance x.trace a = s.balance a := fun u y hu hy a ha =>
    publish_of_not_written fun hw => h.apart t u x y hu.symm hx hy a hw ha
  have hsum : ∑ a, publish s.balance x.trace a = ∑ a, s.balance a := by
    have htotal := (h.view t x hx).total
    rw [hp] at htotal
    exact (add_zero _).symm.trans htotal
  have hend := h.rollback hx
  have hpc : ∀ u p, u ≠ t → Function.update s.pc t p u = s.pc u :=
    fun u p hu => Function.update_of_ne hu _ _
  refine ⟨h.held.congr fun u => ?_, fun u c b hu => ?_, fun u hu => ?_, fun u y hu => ?_,
    hend.apart, ?_⟩
  · show (Function.update s.pc t .count u).holds = _
    by_cases hut : u = t
    · rw [hut, Function.update_self, hp]
      rfl
    · rw [hpc u _ hut]
  · change Function.update s.pc t .count u = _ at hu
    show b = publish s.balance x.trace c.account
    by_cases hut : u = t
    · rw [hut, Function.update_self] at hu
      cases hu
    · rw [hpc u _ hut] at hu
      rw [hok x hx hp u c.account (by rw [hu]; rfl)]
      exact h.loaded u c b hu
  · show (Function.update s.pc t .count u).speculates = false
    change Function.update s.txn t none u = none at hu
    by_cases hut : u = t
    · rw [hut, Function.update_self]
      rfl
    · rw [hpc u _ hut]
      rw [Function.update_of_ne hut] at hu
      exact h.outside u hu
  · show View _ (Function.update s.pc t .count u) y
    change Function.update s.txn t none u = some y at hu
    by_cases hut : u = t
    · rw [hut, Function.update_self] at hu
      cases hu
    · rw [Function.update_of_ne hut] at hu
      rw [hpc u _ hut]
      exact (h.view u y hu).frame (hother u y hut hu)
  · have hflight : ∑ u, (Function.update s.pc t .count u).inFlight .atomicExch =
        ∑ u, (s.pc u).inFlight .atomicExch :=
      Total.sum_update_of_eq (by rw [hp]; rfl)
    show ∑ a, publish s.balance x.trace a +
      ∑ u, (Function.update s.pc t .count u).inFlight .atomicExch = expected n
    rw [hsum, hflight]
    exact h.total

/-! ## Runs -/

theorem Inv.run (h : Inv s) (hok : CommitsBeside s (.run t)) (hs : s.run t = some s') :
    Inv s' := by
  unfold Sys.run at hs
  split at hs
  case h_1 hp =>
    cases hs
    split <;> exact h.setPc (by rw [hp]; rfl) rfl (by rw [hp]; rfl) (by simp) (by rw [hp]; rfl)
  case h_2 | h_3 | h_4 => cases hs
  case h_5 o hp =>
    cases hs
    exact h.exchange hp
  case h_6 o hp =>
    cases hs
    split <;> exact h.setPc (congrArg Pc.speculates hp) rfl (congrArg Pc.holds hp).symm (by simp)
      (congrArg (Pc.inFlight .atomicExch) hp).symm
  case h_7 k c hp =>
    cases hs
    exact h.load hp
  case h_8 k c b hp =>
    cases hs
    exact h.store hp
  case h_9 hp =>
    cases hs
    exact h.unlock hp
  case h_10 hp =>
    obtain ⟨x, hx, rfl⟩ := Option.map_eq_some_iff.mp hs
    exact h.commit hp hx hok
  case h_11 hp =>
    cases hs
    have hmove : Inv (s.setPc t .loop) :=
      h.setPc (by rw [hp]; rfl) rfl (by rw [hp]; rfl) (by simp) (by rw [hp]; rfl)
    exact ⟨hmove.held, hmove.loaded, hmove.outside, hmove.view, hmove.apart, hmove.total⟩
  case h_12 hp =>
    cases hs
    have hmove : Inv (s.setPc t .done) :=
      h.setPc (by rw [hp]; rfl) rfl (by rw [hp]; rfl) (by simp) (by rw [hp]; rfl)
    exact ⟨hmove.held, hmove.loaded, hmove.outside, hmove.view, hmove.apart, hmove.total⟩

theorem Inv.step {a : Act T n} (h : Inv s) (hok : CommitsBeside s a) (hs : step s a = some s') :
    Inv s' := by
  cases a with
  | choose t k o =>
    simp only [MixRtm.step, Option.ite_none_right_eq_some, Option.some.injEq] at hs
    obtain ⟨hp, rfl⟩ := hs
    refine h.setPc (by rw [hp]; rfl) ?_ ?_ ?_ ?_
    · cases k <;> rfl
    · rw [hp]
      cases k <;> rfl
    · cases k <;> simp [enter]
    · rw [hp]
      cases k <;> rfl
  | xbegin t started =>
    simp only [MixRtm.step] at hs
    split at hs
    · rename_i o hp
      cases hs
      split
      · exact h.begin hp
      · exact h
    · cases hs
  | run t => exact h.run hok hs
  | abort t =>
    obtain ⟨x, hx, rfl⟩ := Option.map_eq_some_iff.mp hs
    exact h.rollback hx
  | stop =>
    cases hs
    exact ⟨h.held, h.loaded, h.outside, h.view, h.apart, h.total⟩

theorem reach_inv (h : Reach step (· = init n) CommitsBeside s) : Inv s := by
  refine h.invariant ?_ fun s a s' hi hok hs => hi.step hok hs
  rintro _ rfl
  refine ⟨Innodb.held_free fun _ => rfl, ?_, fun _ _ => rfl, ?_, ?_, ?_⟩ <;>
    simp [init, Pc.inFlight, expected]

theorem Pc.loaded_eq_some {p : Pc n} {a : Fin n} (h : p.loaded = some a) :
    ∃ c b, p = .store .atomicExch c b ∧ c.account = a := by
  cases p with
  | store k c b =>
    cases k with
    | atomicExch => exact ⟨c, b, rfl, Option.some.inj h⟩
    | rtm => cases h
  | _ => cases h

/-- A commit of the other kind leaves a worker about to store on top of an old balance. -/
theorem Inv.lost_of_not_commitsBeside (h : Inv s) {a : Act T n} (hs : MixRtm.step s a = some s')
    (hok : ¬ CommitsBeside s a) :
    ∃ u c b, s'.pc u = .store .atomicExch c b ∧ b ≠ s'.balance c.account := by
  cases a with
  | run t =>
    simp only [CommitsBeside, not_forall] at hok
    obtain ⟨x, hx, hp, u, a, hu, hne⟩ := hok
    obtain ⟨c, b, hpu, rfl⟩ := Pc.loaded_eq_some hu
    have hut : u ≠ t := by
      rintro rfl
      rw [hp] at hpu
      cases hpu
    simp only [MixRtm.step, Sys.run, hp, show s.txn t = some x from hx, Option.map_some,
      Option.some.injEq] at hs
    subst hs
    refine ⟨u, c, b, (Function.update_of_ne hut _ _).trans hpu, fun heq => hne ?_⟩
    rw [← h.loaded u c b hpu, heq]
    rfl
  | _ => exact (hok trivial).elim

/-- Where no commit comes between the load and the store of a worker under the lock and changes
that account, no update is lost: each worker stores on top of the balance that is there, and each
open transaction has read what is there. When all workers have returned, `checkResult` finds what
it expects. The first commit of the other kind loses an update. -/
theorem mixRtm_conserves (h : Reach step (· = init n) CommitsBeside s) :
    (∀ t c b, s.pc t = .store .atomicExch c b → b = s.balance c.account) ∧
      (∀ t x, s.txn t = some x → Legal s.balance x.trace) ∧
      ((∀ t, s.pc t = .done) →
        ∑ a, s.balance a = expected n ∧ actual s.balance = expected n) ∧
      ∀ a s', step s a = some s' → ¬ CommitsBeside s a →
        ∃ u c b, s'.pc u = .store .atomicExch c b ∧ b ≠ s'.balance c.account := by
  have hinv := reach_inv h
  refine ⟨hinv.loaded, fun t x hx => (hinv.view t x hx).legal, fun hdone => ?_,
    fun _ _ => hinv.lost_of_not_commitsBeside⟩
  have htotal := hinv.total
  have hnone : ∑ t, (s.pc t).inFlight .atomicExch = 0 := Finset.sum_eq_zero fun t _ => by
    rw [hdone t]
    rfl
  rw [hnone, add_zero] at htotal
  exact ⟨htotal, (actual_eq _).trans htotal⟩

/-- A transfer under the lock, then one in a transaction. -/
def oneByOne : List (Act Bool 2) :=
  [.run true, .run false, .stop, .choose true .atomicExch (.transfer 0 1 100), .run true,
    .run true, .run true, .run true, .run true, .run true, .run true, .run true, .run true,
    .choose false .rtm (.transfer 0 1 50), .xbegin false true, .run false, .run false,
    .run false, .run false, .run false, .run false, .run false, .run false]

theorem mixRtm_conserves_oneByOne :
    ∃ s, exec (guarded step CommitsBeside) (init 2) oneByOne = some s ∧
      (s.balance 0, s.balance 1) = (850, 1150) ∧ actual s.balance = 2000 := by
  obtain ⟨s, hs, hst⟩ := exec_result (guarded step CommitsBeside) (init 2) oneByOne
    (fun s => ((s.balance 0, s.balance 1), s.pc)) ((850, 1150), fun _ => .done) (by decide)
  obtain ⟨hb, hdone⟩ := Prod.mk.inj hst
  refine ⟨s, hs, hb, ?_⟩
  exact ((mixRtm_conserves (.exec_guarded (.init rfl) hs)).2.2.1 (congrFun hdone)).2

/-- The transaction commits while the other worker has the balance of account 0 in hand. -/
def lostUpdate : List (Act Bool 2) :=
  [.run true, .run false, .stop, .choose true .atomicExch (.transfer 0 1 100), .run true,
    .run true, .choose false .rtm (.transfer 0 1 50), .xbegin false true, .run false, .run false,
    .run false, .run false, .run false, .run false, .run false, .run false,
    .run true, .run true, .run true, .run true, .run true, .run true, .run true]

/-- Both workers have returned, and 50 too many are in the pool. -/
theorem mixRtm_not_conserves :
    ∃ s, Reach step (· = init 2) (fun _ _ => True) s ∧ (∀ t : Bool, s.pc t = .done) ∧
      ∑ a, s.balance a = 2050 ∧ actual s.balance ≠ expected 2 := by
  obtain ⟨s, hs, hst⟩ := exec_result step (init 2) lostUpdate
    (fun s => (∑ a, s.balance a, s.pc)) (2050, fun _ => .done) (by decide)
  obtain ⟨hb, hdone⟩ := Prod.mk.inj hst
  refine ⟨s, .exec (.init rfl) hs, congrFun hdone, hb, ?_⟩
  rw [actual_eq, hb]
  decide

end Htmsql.Bank.MixRtm
