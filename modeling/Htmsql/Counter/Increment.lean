import Htmsql.Lib.Run
import Htmsql.Lib.Total
import Mathlib.Algebra.BigOperators.Fin

/-!
# The counter incremented in transactions

`RtmCounter::increment` of `src/hle/shared_counter/RtmCounter.cpp`, called by any number of
workers of `run` any number of times. The counter is an `int` of 32 bits that wraps around. The
hardware is taken as in the other models: a transaction publishes its write at `_xend`, it is
aborted as soon as another thread writes the counter it has read or written, or reads the counter
it has written, and it may be aborted at any other moment.

A call gives up when its transaction has been aborted more than `RTM_MAX_RETRIES` times, and then
returns like one that has incremented. Counting for each thread what it has committed and how
often it was aborted beyond the budget (`Thread.Ok`) gives the exact law.
-/

namespace Htmsql.Counter

open Run (Reach exec exec_result)

/-- `RTM_MAX_RETRIES` -/
def rtmMaxRetries : Nat := 1000000

/-- The points of a call of the increment. `failures` is the number of retries so far, `v` the
value that was loaded. -/
inductive Pc where
  /-- in the loop of `run`, before the call -/
  | idle
  | xbegin (failures : Nat)
  /-- in the transaction, before `counter[0]` is loaded -/
  | load (failures : Nat)
  | store (failures : Nat) (v : BitVec 32)
  /-- `v` has been loaded and its successor is buffered -/
  | xend (failures : Nat) (v : BitVec 32)
  /-- `_xbegin()` has returned an abort code -/
  | aborted (failures : Nat)
  /-- the call has returned; before `ops++` -/
  | ret
  deriving DecidableEq, Repr

namespace Pc

/-- What the open transaction has read. -/
def loaded : Pc → Option (BitVec 32)
  | store _ v | xend _ v => some v
  | _ => none

/-- The open transaction has written the counter. -/
def stored : Pc → Bool
  | xend _ _ => true
  | _ => false

end Pc

/-- A thread, the operations it has counted and the ghosts about its transactions. -/
structure Thread where
  pc : Pc
  ops : Nat
  /-- ghost: how often the transaction of the call has been aborted -/
  aborts : Nat
  /-- ghost: the aborts of calls that had been aborted `RTM_MAX_RETRIES` times already -/
  excess : Nat
  /-- ghost: the increments that have been committed -/
  committed : Nat
  deriving DecidableEq, Repr

/-- The shared counter, 32 bits wide, and the threads. -/
structure Sys (T : Type) where
  counter : BitVec 32
  thread : T → Thread

/-- What happens next: a thread calls or steps, or its hardware starts or aborts the transaction. -/
inductive Act (T : Type) where
  | call (t : T)
  /-- `_xbegin()`, which starts the transaction or returns an abort code -/
  | xbegin (t : T) (started : Bool)
  | run (t : T)
  /-- the hardware aborts the transaction -/
  | abort (t : T)

/-- The thread goes on to another point, its counts unchanged. -/
def Thread.goto (th : Thread) (p : Pc) : Thread := { th with pc := p }

@[simp] theorem Thread.goto_pc (th : Thread) (p : Pc) : (th.goto p).pc = p := rfl

@[simp] theorem Thread.goto_committed (th : Thread) (p : Pc) :
    (th.goto p).committed = th.committed := rfl

/-- The transaction of the thread commits. -/
def Thread.commit (th : Thread) : Thread := { th with pc := .ret, committed := th.committed + 1 }

/-- `ops++` in `run` -/
def Thread.count (th : Thread) : Thread := { th with pc := .idle, ops := th.ops + 1 }

/-- The thread continues after `_xbegin()` with an abort code. -/
def Thread.abort (th : Thread) (failures : Nat) : Thread :=
  { th with
    pc := .aborted failures
    aborts := th.aborts + 1
    excess := th.excess + if rtmMaxRetries ≤ th.aborts then 1 else 0 }

/-- The abort of an open transaction. -/
def Thread.rollback (th : Thread) : Option Thread :=
  match th.pc with
  | .load failures | .store failures _ | .xend failures _ => some (th.abort failures)
  | _ => none

variable {T : Type} [DecidableEq T]

/-- One thread is replaced, everything else stays. -/
def Sys.setThread (s : Sys T) (t : T) (th : Thread) : Sys T :=
  { s with thread := Function.update s.thread t th }

/-- Abort the transactions of other threads that `hit` says. -/
def Sys.abortOthers (s : Sys T) (t : T) (hit : Pc → Bool) : Sys T :=
  { s with
    thread := fun u =>
      if u ≠ t ∧ hit (s.thread u).pc then (s.thread u).rollback.getD (s.thread u)
      else s.thread u }

/-- One step of a thread by its own code. An access aborts the transactions of the others that it
conflicts with. -/
def Sys.run (s : Sys T) (t : T) : Option (Sys T) :=
  match (s.thread t).pc with
  | .idle | .xbegin _ => none
  | .load failures =>
    some ((s.abortOthers t Pc.stored).setThread t ((s.thread t).goto (.store failures s.counter)))
  | .store failures v =>
    some ((s.abortOthers t fun p => p.loaded.isSome).setThread t
      ((s.thread t).goto (.xend failures v)))
  | .xend _ v => some (({ s with counter := v + 1 } : Sys T).setThread t (s.thread t).commit)
  | .aborted failures =>
    -- `if (failures++ < RTM_MAX_RETRIES) goto retry;`
    some (s.setThread t
      ((s.thread t).goto (if failures < rtmMaxRetries then .xbegin (failures + 1) else .ret)))
  | .ret => some (s.setThread t (s.thread t).count)

/-- One step of the machine, `none` where the action is not possible. -/
def step (s : Sys T) : Act T → Option (Sys T)
  | .call t =>
    if (s.thread t).pc = .idle then
      some (s.setThread t { s.thread t with pc := .xbegin 0, aborts := 0 })
    else none
  | .xbegin t started =>
    match (s.thread t).pc with
    | .xbegin failures =>
      some (s.setThread t
        (if started then (s.thread t).goto (.load failures) else (s.thread t).abort failures))
    | _ => none
  | .run t => s.run t
  | .abort t => (s.thread t).rollback.map (s.setThread t)

/-- The counter is 0, and every thread is before its first call. -/
def init : Sys T := ⟨0, fun _ => ⟨.idle, 0, 0, 0, 0⟩⟩

/-! ## The invariant -/

/-- The calls of a thread that have returned have committed an increment or given up; the latter
is what an abort beyond the budget leads to. -/
def Thread.Ok (th : Thread) : Prop :=
  match th.pc with
  | .idle => th.committed + th.excess = th.ops
  | .xbegin failures | .load failures | .store failures _ | .xend failures _ =>
    failures = th.aborts ∧ failures ≤ rtmMaxRetries ∧ th.committed + th.excess = th.ops
  | .aborted failures =>
    th.aborts = failures + 1 ∧ failures ≤ rtmMaxRetries ∧
      th.committed + th.excess = th.ops + if rtmMaxRetries ≤ failures then 1 else 0
  | .ret => th.committed + th.excess = th.ops + 1

/-- The counter is the number of commits modulo 2^32, and a transaction that has stored is alone
with the counter. -/
structure Inv [Fintype T] (s : Sys T) : Prop where
  counter : s.counter = BitVec.ofNat 32 (∑ t, (s.thread t).committed)
  ok : ∀ t, (s.thread t).Ok
  loaded : ∀ t v, (s.thread t).pc.loaded = some v → v = s.counter
  alone : ∀ t u, (s.thread t).pc.stored = true → u ≠ t → (s.thread u).pc.loaded = none

theorem Thread.Ok.rollback {th th' : Thread} (h : th.Ok) (hr : th.rollback = some th') :
    th'.Ok ∧ th'.committed = th.committed ∧ th'.pc.loaded = none := by
  unfold Thread.rollback at hr
  split at hr
  case h_4 => cases hr
  all_goals
    rename_i failures _ hp
    cases hr
    simp only [Thread.Ok, hp] at h
    obtain ⟨rfl, hle, hc⟩ := h
    refine ⟨⟨rfl, hle, ?_⟩, rfl, rfl⟩
    simp only [Thread.abort]
    omega

variable [Fintype T] {s s' : Sys T} {t : T}

/-- A thread moves and commits nothing. -/
theorem Inv.setThread (h : Inv s) {th : Thread} (hok : th.Ok)
    (hc : th.committed = (s.thread t).committed) (hv : ∀ v, th.pc.loaded = some v → v = s.counter)
    (ha : th.pc.stored = true → ∀ u, u ≠ t → (s.thread u).pc.loaded = none)
    (ha' : th.pc.loaded ≠ none → ∀ u, u ≠ t → (s.thread u).pc.stored = false) :
    Inv (s.setThread t th) := by
  refine ⟨?_, fun u => ?_, fun u v hu => ?_, fun u w hu hw => ?_⟩
  · rw [Sys.setThread, h.counter]
    exact congrArg _ (Total.sum_update_of_eq hc).symm
  · show (Function.update s.thread t th u).Ok
    by_cases hut : u = t
    · rw [hut, Function.update_self]
      exact hok
    · rw [Function.update_of_ne hut]
      exact h.ok u
  · change (Function.update s.thread t th u).pc.loaded = some v at hu
    by_cases hut : u = t
    · rw [hut, Function.update_self] at hu
      exact hv v hu
    · rw [Function.update_of_ne hut] at hu
      exact h.loaded u v hu
  · change (Function.update s.thread t th u).pc.stored = true at hu
    show (Function.update s.thread t th w).pc.loaded = none
    by_cases hut : u = t
    · have hwt : w ≠ t := hut ▸ hw
      rw [hut, Function.update_self] at hu
      rw [Function.update_of_ne hwt]
      exact ha hu w hwt
    · rw [Function.update_of_ne hut] at hu
      by_cases hwt : w = t
      · rw [hwt, Function.update_self]
        by_contra hne
        rw [ha' hne u hut] at hu
        cases hu
      · rw [Function.update_of_ne hwt]
        exact h.alone u w hu hw

theorem Pc.stored_of_loaded {p : Pc} (h : p.loaded = none) : p.stored = false := by
  cases p <;> first | rfl | cases h

/-- A thread moves outside a transaction, or rolls its own one back. -/
theorem Inv.setOutside (h : Inv s) {th : Thread} (hok : th.Ok)
    (hc : th.committed = (s.thread t).committed) (hn : th.pc.loaded = none) :
    Inv (s.setThread t th) := by
  refine h.setThread hok hc (by simp [hn]) (fun hs => ?_) fun hne => (hne hn).elim
  rw [Pc.stored_of_loaded hn] at hs
  cases hs

omit [Fintype T] in
theorem abortOthers_self (s : Sys T) (t : T) (hit : Pc → Bool) :
    (s.abortOthers t hit).thread t = s.thread t := by
  simp [Sys.abortOthers]

omit [Fintype T] in
/-- A thread that is hit has read or written the counter, and is rolled back. -/
theorem abortOthers_cases (s : Sys T) (t : T) {hit : Pc → Bool}
    (hhit : ∀ p, hit p = true → p.loaded ≠ none) (u : T) :
    (s.abortOthers t hit).thread u = s.thread u ∧ (u ≠ t → hit (s.thread u).pc = false) ∨
      (s.thread u).rollback = some ((s.abortOthers t hit).thread u) := by
  by_cases hu : u ≠ t ∧ hit (s.thread u).pc = true
  · refine Or.inr ?_
    have hl := hhit _ hu.2
    obtain ⟨th, hth⟩ : ∃ th, (s.thread u).rollback = some th := by
      cases hp : (s.thread u).pc with
      | store failures v => exact ⟨(s.thread u).abort failures, by simp [Thread.rollback, hp]⟩
      | xend failures v => exact ⟨(s.thread u).abort failures, by simp [Thread.rollback, hp]⟩
      | _ => exact (hl (by rw [hp]; rfl)).elim
    simp only [Sys.abortOthers, if_pos hu, hth, Option.getD_some]
  · refine Or.inl ⟨by simp only [Sys.abortOthers, if_neg hu], fun hne => ?_⟩
    simpa [hne] using hu

theorem Inv.abortOthers (h : Inv s) (t : T) {hit : Pc → Bool}
    (hhit : ∀ p, hit p = true → p.loaded ≠ none) : Inv (s.abortOthers t hit) := by
  have hcases := abortOthers_cases s t hhit
  have hold : ∀ u v, ((s.abortOthers t hit).thread u).pc.loaded = some v →
      (s.abortOthers t hit).thread u = s.thread u := by
    intro u v hu
    rcases hcases u with ⟨heq, -⟩ | hr
    · exact heq
    · rw [((h.ok u).rollback hr).2.2] at hu
      cases hu
  refine ⟨?_, fun u => ?_, fun u v hu => ?_, fun u w hu hw => ?_⟩
  · have hsum : ∑ u, ((s.abortOthers t hit).thread u).committed =
        ∑ u, (s.thread u).committed := by
      refine Finset.sum_congr rfl fun u _ => ?_
      rcases hcases u with ⟨heq, -⟩ | hr
      · rw [heq]
      · exact ((h.ok u).rollback hr).2.1
    rw [hsum]
    exact h.counter
  · rcases hcases u with ⟨heq, -⟩ | hr
    · rw [heq]
      exact h.ok u
    · exact ((h.ok u).rollback hr).1
  · exact h.loaded u v (hold u v hu ▸ hu)
  · have hstored : (s.thread u).pc.stored = true := by
      rcases hcases u with ⟨heq, -⟩ | hr
      · rwa [heq] at hu
      · have hnone := ((h.ok u).rollback hr).2.2
        cases hp : ((s.abortOthers t hit).thread u).pc <;> rw [hp] at hu hnone <;>
          simp [Pc.stored, Pc.loaded] at hu hnone
    rcases hcases w with ⟨heq, -⟩ | hr
    · rw [heq]
      exact h.alone u w hstored hw
    · exact ((h.ok w).rollback hr).2.2

/-- `_xend` -/
theorem Inv.commit (h : Inv s) {failures : Nat} {v : BitVec 32}
    (hp : (s.thread t).pc = .xend failures v) :
    Inv (({ s with counter := v + 1 } : Sys T).setThread t (s.thread t).commit) := by
  have hv : v = s.counter := h.loaded t v (by rw [hp]; rfl)
  have halone : ∀ u, u ≠ t → (s.thread u).pc.loaded = none := fun u hu =>
    h.alone t u (by rw [hp]; rfl) hu
  have hok := h.ok t
  simp only [Thread.Ok, hp] at hok
  refine ⟨?_, fun u => ?_, fun u v' hu => ?_, fun u w hu hw => ?_⟩
  · have hsum := Total.sum_update s.thread Thread.committed t (s.thread t).commit
    have hone : ∑ u, (Function.update s.thread t (s.thread t).commit u).committed =
        ∑ u, (s.thread u).committed + 1 := by
      have hcommit : (s.thread t).commit.committed = (s.thread t).committed + 1 := rfl
      omega
    show v + 1 = BitVec.ofNat 32 (∑ u, (Function.update s.thread t (s.thread t).commit u).committed)
    rw [hone, hv, h.counter, BitVec.ofNat_add]
    rfl
  · show (Function.update s.thread t _ u).Ok
    by_cases hut : u = t
    · rw [hut, Function.update_self]
      simp only [Thread.Ok, Thread.commit]
      omega
    · rw [Function.update_of_ne hut]
      exact h.ok u
  · change (Function.update s.thread t _ u).pc.loaded = some v' at hu
    by_cases hut : u = t
    · rw [hut, Function.update_self] at hu
      cases hu
    · rw [Function.update_of_ne hut, halone u hut] at hu
      cases hu
  · show (Function.update s.thread t _ w).pc.loaded = none
    by_cases hwt : w = t
    · rw [hwt, Function.update_self]
      rfl
    · rw [Function.update_of_ne hwt]
      exact halone w hwt

/-- Before `counter[0]` is loaded, the transactions that have written it are gone. -/
theorem Inv.load (h : Inv s) {failures : Nat} (hp : (s.thread t).pc = .load failures) :
    Inv ((s.abortOthers t Pc.stored).setThread t
      ((s.thread t).goto (.store failures s.counter))) := by
  have hhit : ∀ p : Pc, p.stored = true → p.loaded ≠ none := by
    intro p hs hn
    rw [Pc.stored_of_loaded hn] at hs
    cases hs
  have hok := h.ok t
  simp only [Thread.Ok, hp] at hok
  refine (h.abortOthers t hhit).setThread hok ?_ ?_ (by simp [Pc.stored]) fun _ u hu => ?_
  · rw [abortOthers_self]
    rfl
  · intro v hv
    exact (Option.some.inj hv).symm
  · rcases abortOthers_cases s t hhit u with ⟨heq, hnot⟩ | hr
    · rw [heq]
      exact hnot hu
    · exact Pc.stored_of_loaded ((h.ok u).rollback hr).2.2

/-- Before the counter is written, the transactions that have read it are gone. -/
theorem Inv.store (h : Inv s) {failures : Nat} {v : BitVec 32}
    (hp : (s.thread t).pc = .store failures v) :
    Inv ((s.abortOthers t fun p => p.loaded.isSome).setThread t
      ((s.thread t).goto (.xend failures v))) := by
  have hhit : ∀ p : Pc, p.loaded.isSome = true → p.loaded ≠ none := by
    intro p hs hn
    rw [hn] at hs
    cases hs
  have hnone : ∀ u, u ≠ t →
      ((s.abortOthers t fun p => p.loaded.isSome).thread u).pc.loaded = none := by
    intro u hu
    rcases abortOthers_cases s t hhit u with ⟨heq, hnot⟩ | hr
    · rw [heq]
      exact Option.isSome_eq_false_iff.mp (hnot hu) |> Option.isNone_iff_eq_none.mp
    · exact ((h.ok u).rollback hr).2.2
  have hok := h.ok t
  simp only [Thread.Ok, hp] at hok
  refine (h.abortOthers t hhit).setThread hok ?_ ?_ (fun _ => hnone)
    fun _ u hu => Pc.stored_of_loaded (hnone u hu)
  · rw [abortOthers_self]
    rfl
  · intro v' hv'
    obtain rfl := Option.some.inj hv'
    exact h.loaded t v (by rw [hp]; rfl)

theorem Inv.run (h : Inv s) (hs : s.run t = some s') : Inv s' := by
  have hok := h.ok t
  unfold Sys.run at hs
  split at hs
  case h_1 | h_2 => cases hs
  case h_3 failures hp =>
    cases hs
    exact h.load hp
  case h_4 failures v hp =>
    cases hs
    exact h.store hp
  case h_5 failures v hp =>
    cases hs
    exact h.commit hp
  case h_6 failures hp =>
    cases hs
    simp only [Thread.Ok, hp] at hok
    obtain ⟨ha, hle, hc⟩ := hok
    split
    · rename_i hlt
      rw [if_neg (Nat.not_le_of_lt hlt)] at hc
      exact h.setOutside ⟨ha.symm, hlt, hc⟩ rfl rfl
    · rename_i hge
      rw [if_pos (Nat.le_of_not_lt hge)] at hc
      exact h.setOutside hc rfl rfl
  case h_7 hp =>
    cases hs
    simp only [Thread.Ok, hp] at hok
    exact h.setOutside hok rfl rfl

theorem Inv.step {a : Act T} (h : Inv s) (hs : step s a = some s') : Inv s' := by
  cases a with
  | call t =>
    have hok := h.ok t
    simp only [Counter.step, Option.ite_none_right_eq_some, Option.some.injEq] at hs
    obtain ⟨hp, rfl⟩ := hs
    simp only [Thread.Ok, hp] at hok
    exact h.setOutside ⟨rfl, Nat.zero_le _, hok⟩ rfl rfl
  | xbegin t started =>
    have hok := h.ok t
    simp only [Counter.step] at hs
    split at hs
    · rename_i failures hp
      cases hs
      simp only [Thread.Ok, hp] at hok
      obtain ⟨rfl, hle, hc⟩ := hok
      split
      · exact h.setOutside ⟨rfl, hle, hc⟩ rfl rfl
      · refine h.setOutside ⟨rfl, hle, ?_⟩ rfl rfl
        simp only [Thread.abort]
        omega
    · cases hs
  | run t => exact h.run hs
  | abort t =>
    obtain ⟨th, hr, rfl⟩ := Option.map_eq_some_iff.mp hs
    obtain ⟨hok, hc, hnone⟩ := (h.ok t).rollback hr
    exact h.setOutside hok hc hnone

theorem reach_inv (h : Reach step (· = init) (fun _ _ => True) s) : Inv s := by
  refine h.invariant ?_ fun s a s' hi _ hs => hi.step hs
  rintro _ rfl
  refine ⟨?_, fun _ => rfl, ?_, ?_⟩ <;> simp [init, Pc.loaded]

/-! ## The law of the counter -/

/-- A 32-bit counter shows the number it stands for while that is below 2³¹. -/
theorem toInt_ofNat_eq_iff (c e : Nat) :
    (BitVec.ofNat 32 c).toInt = ((c + e : Nat) : Int) ↔ e = 0 ∧ c + e < 2 ^ 31 := by
  rw [BitVec.toInt_ofNat', Int.bmod_def]
  push_cast
  split <;> omega

/-- When no call is open, the counter is the number of calls that have returned exactly if no
call was aborted more than `RTM_MAX_RETRIES` times and the number fits into an `int`. -/
theorem counter_eq_returned_iff (h : Reach step (· = init) (fun _ _ => True) s)
    (hidle : ∀ t, (s.thread t).pc = .idle) :
    s.counter.toInt = ((∑ t, (s.thread t).ops : Nat) : Int) ↔
      (∀ t, (s.thread t).excess = 0) ∧ ∑ t, (s.thread t).ops < 2 ^ 31 := by
  have hinv := reach_inv h
  have hsum : ∑ t, (s.thread t).ops = ∑ t, (s.thread t).committed + ∑ t, (s.thread t).excess := by
    rw [← Finset.sum_add_distrib]
    refine Finset.sum_congr rfl fun t _ => ?_
    have hok := hinv.ok t
    simp only [Thread.Ok, hidle t] at hok
    exact hok.symm
  have hzero : ∑ t, (s.thread t).excess = 0 ↔ ∀ t, (s.thread t).excess = 0 := by
    simp
  rw [hinv.counter, hsum, toInt_ofNat_eq_iff, hzero]

/-- Two workers, one of which is aborted by the other's store. -/
def oneAbort : List (Act Bool) :=
  [.call true, .xbegin true true, .run true, .call false, .xbegin false true, .run false,
    .run true, .run true, .run true, .run false, .xbegin false true, .run false, .run false,
    .run false, .run false]

theorem counter_eq_returned_iff_oneAbort :
    ∃ s, exec step init oneAbort = some s ∧ (s.thread false).aborts = 1 ∧ s.counter.toInt = 2 := by
  obtain ⟨s, hs, hst⟩ := exec_result step init oneAbort (fun s => s.thread)
    (fun t => ⟨.idle, 1, if t then 0 else 1, 0, 1⟩) (by decide)
  have hthread := congrFun hst
  have hcounter := (counter_eq_returned_iff (.exec (.init rfl) hs)
    fun t => by rw [hthread]).mpr ⟨fun t => by rw [hthread], by simp [hthread]⟩
  refine ⟨s, hs, by rw [hthread]; rfl, ?_⟩
  rw [hcounter]
  simp [hthread]

/-! ### A call that gives up -/

theorem update_unit (f : Unit → Thread) (th : Thread) : Function.update f () th = fun _ => th := by
  funext u
  exact Function.update_self () th f

/-- Within the budget every `_xbegin()` may return an abort code. -/
theorem reach_xbegin {n : Nat} (hn : n ≤ rtmMaxRetries) :
    Reach step (· = init) (fun _ _ => True)
      (⟨0, fun _ => ⟨.xbegin n, 0, n, 0, 0⟩⟩ : Sys Unit) := by
  induction n with
  | zero =>
    have hs : exec step (init : Sys Unit) [.call ()] =
        some ⟨0, fun _ => ⟨.xbegin 0, 0, 0, 0, 0⟩⟩ := rfl
    exact .exec (.init rfl) hs
  | succ n ih =>
    have hlt : n < rtmMaxRetries := hn
    have hs : exec step (⟨0, fun _ => ⟨.xbegin n, 0, n, 0, 0⟩⟩ : Sys Unit)
        [.xbegin () false, .run ()] = some ⟨0, fun _ => ⟨.xbegin (n + 1), 0, n + 1, 0, 0⟩⟩ := by
      simp only [exec, step, Sys.run, Sys.setThread, Thread.abort, Thread.goto, hlt,
        Nat.not_le_of_lt hlt, update_unit, Option.bind_some, if_true, if_false, Bool.false_eq_true]
    exact .exec (ih (Nat.le_of_lt hn)) hs

/-- One call, whose transaction never starts: it returns, and the counter is still 0. -/
theorem counter_lost :
    ∃ s : Sys Unit, Reach step (· = init) (fun _ _ => True) s ∧ (∀ t, (s.thread t).pc = .idle) ∧
      ∑ t, (s.thread t).ops = 1 ∧ s.counter.toInt = 0 := by
  have hs : exec step (⟨0, fun _ => ⟨.xbegin rtmMaxRetries, 0, rtmMaxRetries, 0, 0⟩⟩ : Sys Unit)
      [.xbegin () false, .run (), .run ()] =
      some ⟨0, fun _ => ⟨.idle, 1, rtmMaxRetries + 1, 1, 0⟩⟩ := by
    simp only [exec, step, Sys.run, Sys.setThread, Thread.abort, Thread.goto, Thread.count,
      Nat.le_refl, Nat.lt_irrefl, update_unit, Option.bind_some, if_true, if_false,
      Bool.false_eq_true]
  exact ⟨_, .exec (reach_xbegin (Nat.le_refl _)) hs, fun _ => rfl, rfl, rfl⟩

end Htmsql.Counter
