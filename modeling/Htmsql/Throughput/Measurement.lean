import Htmsql.Lib.Run
import Mathlib.Algebra.BigOperators.Fin

/-!
# What the throughput counts

The measurement that `src/hle/hashmap/time_cmp.cpp`, `src/hle/shared_counter/time_cmp.cpp` and
`src/hle/bank/time_cmp.cpp` share: `main` starts the workers, lets them warm up, resets their
entries of `operations_count`, measures, stops and joins them, and adds the entries up. A worker
counts its iterations in a local variable and writes its entry once, at its end; what an iteration
does is left open. The counts are `int`s of 32 bits that wrap around, and `new int[num_threads]`
holds anything.

The ghosts `warm` and `measured` count the iterations of a worker that were completed before and
after the reset of its entry. They are exact.
-/

namespace Htmsql.Throughput

open Run (Reach exec exec_result)

/-- Where `main` is. -/
inductive Main where
  /-- before `threads[i] = std::thread(run, ...)`, or past the loop -/
  | start (i : Nat)
  /-- `usleep(warmup)` -/
  | warmup
  /-- before `operations_count[i] = 0`, or past the loop -/
  | reset (i : Nat)
  /-- `usleep(duration)` -/
  | measure
  /-- before `stop_run = 1` -/
  | stop
  | join
  /-- before the loop that adds the entries up -/
  | sum
  | done
  deriving DecidableEq, Repr

namespace Main

/-- The entry of worker `i` has been reset. -/
def hasReset (i : Nat) : Main → Bool
  | start _ | warmup => false
  | reset j => decide (i < j)
  | measure | stop | join | sum | done => true

/-- `main` is past the point where it tells the workers to stop. -/
def hasStopped : Main → Bool
  | join | sum | done => true
  | _ => false

end Main

/-- Where a worker is. -/
inductive Pc where
  | notStarted
  /-- at `while (!stop_run)` -/
  | loop
  /-- before the operation -/
  | body
  /-- before `ops++` -/
  | count
  /-- before `operations_count[tid] = ops` -/
  | write
  | done
  deriving DecidableEq, Repr

/-- A thread in `run`, with its local count. -/
structure Worker where
  pc : Pc
  ops : BitVec 32
  /-- ghost -/
  warm : Nat
  /-- ghost -/
  measured : Nat
  deriving DecidableEq, Repr

/-- `main` with its globals, and the workers. -/
structure Sys (n : Nat) where
  main : Main
  stopRun : Bool
  operationsCount : Fin n → BitVec 32
  totalOperations : BitVec 32
  worker : Fin n → Worker

/-- `main` or a worker takes its next step. -/
inductive Act (n : Nat) where
  | main
  | run (t : Fin n)

variable {n : Nat}

/-- One worker is replaced, everything else stays. -/
def Sys.setWorker (s : Sys n) (t : Fin n) (w : Worker) : Sys n :=
  { s with worker := Function.update s.worker t w }

/-- `operations_count[t] = k` -/
def Sys.setCount (s : Sys n) (t : Fin n) (k : BitVec 32) : Sys n :=
  { s with operationsCount := Function.update s.operationsCount t k }

/-- `total_operations += operations_count[i]` for every `i` -/
def sumOperations (operationsCount : Fin n → BitVec 32) : BitVec 32 :=
  (List.ofFn operationsCount).foldl (fun total count => total + count) 0

/-- The next step of `main`; it waits in `join` for the workers. -/
def Sys.mainStep (s : Sys n) : Option (Sys n) :=
  match s.main with
  | .start i =>
    if h : i < n then
      some { s.setWorker ⟨i, h⟩ { s.worker ⟨i, h⟩ with pc := .loop } with main := .start (i + 1) }
    else some { s with main := .warmup }
  | .warmup => some { s with main := .reset 0 }
  | .reset i =>
    if h : i < n then some { s.setCount ⟨i, h⟩ 0 with main := .reset (i + 1) }
    else some { s with main := .measure }
  | .measure => some { s with main := .stop }
  | .stop => some { s with stopRun := true, main := .join }
  | .join => if ∀ t, (s.worker t).pc = .done then some { s with main := .sum } else none
  | .sum => some { s with totalOperations := sumOperations s.operationsCount, main := .done }
  | .done => none

/-- `ops++`; the iteration is completed. -/
def Worker.count (w : Worker) (reset : Bool) : Worker :=
  { pc := .loop
    ops := w.ops + 1
    warm := w.warm + if reset then 0 else 1
    measured := w.measured + if reset then 1 else 0 }

/-- The next step of worker `t`. -/
def Sys.workerStep (s : Sys n) (t : Fin n) : Option (Sys n) :=
  match (s.worker t).pc with
  | .notStarted | .done => none
  | .loop => some (s.setWorker t { s.worker t with pc := if s.stopRun then .write else .body })
  | .body => some (s.setWorker t { s.worker t with pc := .count })
  | .count => some (s.setWorker t ((s.worker t).count (s.main.hasReset t)))
  | .write =>
    some ((s.setCount t (s.worker t).ops).setWorker t { s.worker t with pc := .done })

/-- One step of the machine, `none` where that thread cannot go on. -/
def step (s : Sys n) : Act n → Option (Sys n)
  | .main => s.mainStep
  | .run t => s.workerStep t

/-- `main` is about to start the workers. -/
def Init (s : Sys n) : Prop :=
  s.main = .start 0 ∧ s.stopRun = false ∧ ∀ t, s.worker t = ⟨.notStarted, 0, 0, 0⟩

/-! ## The invariant -/

/-- The iterations that the worker has completed. -/
def Worker.iterations (w : Worker) : Nat := w.warm + w.measured

/-- What the counts are, modulo `2 ^ 32`, and how far the workers are while `main` goes on. -/
structure Inv (s : Sys n) : Prop where
  stopRun : s.stopRun = s.main.hasStopped
  counted : ∀ t, (s.worker t).ops = BitVec.ofNat 32 (s.worker t).iterations
  /-- nobody leaves the loop before `main` has stopped the workers -/
  left : ∀ t, (s.worker t).pc = .write ∨ (s.worker t).pc = .done → s.main.hasStopped = true
  written : ∀ t, (s.worker t).pc = .done → s.operationsCount t = (s.worker t).ops
  joined : s.main = .sum ∨ s.main = .done → ∀ t, (s.worker t).pc = .done
  total : s.main = .done → s.totalOperations = BitVec.ofNat 32 (∑ t, (s.worker t).iterations)

theorem foldl_ofNat (l : List Nat) (k : Nat) :
    (l.map (BitVec.ofNat 32)).foldl (fun total count => total + count) (BitVec.ofNat 32 k) =
      BitVec.ofNat 32 (k + l.sum) := by
  induction l generalizing k with
  | nil => simp
  | cons m l ih => rw [List.map_cons, List.foldl_cons, ← BitVec.ofNat_add, ih, List.sum_cons,
      Nat.add_assoc]

theorem sumOperations_ofNat (f : Fin n → Nat) :
    (sumOperations fun t => BitVec.ofNat 32 (f t)) = BitVec.ofNat 32 (∑ t, f t) := by
  have hmap : (List.ofFn fun t => BitVec.ofNat 32 (f t)) =
      (List.ofFn f).map (BitVec.ofNat 32) := by
    rw [List.map_ofFn]
    rfl
  rw [sumOperations, hmap, ← List.sum_ofFn]
  have hfold := foldl_ofNat (List.ofFn f) 0
  rw [Nat.zero_add] at hfold
  exact hfold

variable {s s' : Sys n} {t : Fin n}

/-- A worker moves that has not returned and does not write its entry. -/
theorem Inv.setWorker (h : Inv s) {w : Worker} (hnot : (s.worker t).pc ≠ .done)
    (hc : w.ops = BitVec.ofNat 32 w.iterations) (hw : w.pc = .write → s.stopRun = true)
    (hd : w.pc ≠ .done) : Inv (s.setWorker t w) := by
  have hmain : ¬ (s.main = .sum ∨ s.main = .done) := fun hm => hnot (h.joined hm t)
  have hother : ∀ u, u ≠ t → (s.setWorker t w).worker u = s.worker u :=
    fun u hu => Function.update_of_ne hu _ _
  have hself : (s.setWorker t w).worker t = w := Function.update_self _ _ _
  refine ⟨h.stopRun, fun u => ?_, fun u hu => ?_, fun u hu => ?_, fun hm => (hmain hm).elim,
    fun hm => (hmain (Or.inr hm)).elim⟩
  · by_cases hut : u = t
    · rw [hut, hself]
      exact hc
    · rw [hother u hut]
      exact h.counted u
  · by_cases hut : u = t
    · rw [hut, hself] at hu
      show s.main.hasStopped = true
      rw [← h.stopRun]
      exact hw (hu.resolve_right hd)
    · rw [hother u hut] at hu
      exact h.left u hu
  · by_cases hut : u = t
    · rw [hut, hself] at hu
      exact (hd hu).elim
    · rw [hother u hut] at hu ⊢
      exact h.written u hu

theorem Inv.workerStep (h : Inv s) (hs : s.workerStep t = some s') : Inv s' := by
  unfold Sys.workerStep at hs
  split at hs
  case h_1 | h_2 => cases hs
  case h_3 hp =>
    cases hs
    refine h.setWorker (by simp [hp]) (h.counted t) (fun hw => ?_) ?_
    · by_contra hstop
      simp [hstop] at hw
    · show (if s.stopRun = true then Pc.write else Pc.body) ≠ .done
      split <;> simp
  case h_4 hp =>
    cases hs
    exact h.setWorker (by simp [hp]) (h.counted t) (by simp) (by simp)
  case h_5 hp =>
    cases hs
    refine h.setWorker (by simp [hp]) ?_ (by simp [Worker.count]) (by simp [Worker.count])
    have hnext : ((s.worker t).count (s.main.hasReset t)).iterations =
        (s.worker t).iterations + 1 := by
      simp only [Worker.iterations, Worker.count]
      split <;> omega
    rw [hnext, BitVec.ofNat_add, ← h.counted t]
    rfl
  case h_6 hp =>
    cases hs
    have hstop := h.left t (Or.inl hp)
    have hmain : ¬ (s.main = .sum ∨ s.main = .done) := by
      intro hm
      have := h.joined hm t
      rw [hp] at this
      cases this
    refine ⟨h.stopRun, fun u => ?_, fun _ _ => hstop, fun u hu => ?_, fun hm => (hmain hm).elim,
      fun hm => (hmain (Or.inr hm)).elim⟩
    · by_cases hut : u = t
      · rw [hut]
        simpa [Sys.setWorker, Sys.setCount, Worker.iterations] using h.counted t
      · simpa [Sys.setWorker, Sys.setCount, Worker.iterations, hut] using h.counted u
    · by_cases hut : u = t
      · rw [hut]
        simp [Sys.setWorker, Sys.setCount]
      · simp only [Sys.setWorker, Sys.setCount, Function.update_of_ne hut] at hu ⊢
        exact h.written u hu

theorem Inv.mainStep (h : Inv s) (hs : s.mainStep = some s') : Inv s' := by
  unfold Sys.mainStep at hs
  -- before the workers are stopped, none has left its loop
  have hrunning : s.main.hasStopped = false →
      ∀ t, (s.worker t).pc ≠ .write ∧ (s.worker t).pc ≠ .done := by
    intro hm t
    refine ⟨fun hp => ?_, fun hp => ?_⟩
    · rw [h.left t (Or.inl hp)] at hm
      cases hm
    · rw [h.left t (Or.inr hp)] at hm
      cases hm
  split at hs
  case h_1 i hm =>
    have hrun := hrunning (by rw [hm]; rfl)
    have hstop : s.stopRun = false := h.stopRun.trans (by rw [hm]; rfl)
    split at hs
    · rename_i hi
      cases hs
      have hw : Inv (s.setWorker ⟨i, hi⟩ { s.worker ⟨i, hi⟩ with pc := .loop }) :=
        h.setWorker (hrun _).2 (h.counted _) (by simp) (by simp)
      refine ⟨hstop, hw.counted, fun t ht => ?_, hw.written, by simp, by simp⟩
      have := hw.left t ht
      simp [Sys.setWorker, hm, Main.hasStopped] at this
    · cases hs
      exact ⟨hstop, h.counted, fun t ht => (ht.elim (hrun t).1 (hrun t).2).elim, h.written,
        by simp, by simp⟩
  case h_2 hm =>
    have hrun := hrunning (by rw [hm]; rfl)
    cases hs
    exact ⟨h.stopRun.trans (by rw [hm]; rfl), h.counted,
      fun t ht => (ht.elim (hrun t).1 (hrun t).2).elim, h.written, by simp, by simp⟩
  case h_3 i hm =>
    have hrun := hrunning (by rw [hm]; rfl)
    have hstop : s.stopRun = false := h.stopRun.trans (by rw [hm]; rfl)
    split at hs
    · cases hs
      exact ⟨hstop, h.counted, fun t ht => (ht.elim (hrun t).1 (hrun t).2).elim,
        fun t ht => ((hrun t).2 ht).elim, by simp, by simp⟩
    · cases hs
      exact ⟨hstop, h.counted, fun t ht => (ht.elim (hrun t).1 (hrun t).2).elim, h.written,
        by simp, by simp⟩
  case h_4 hm =>
    have hrun := hrunning (by rw [hm]; rfl)
    cases hs
    exact ⟨h.stopRun.trans (by rw [hm]; rfl), h.counted,
      fun t ht => (ht.elim (hrun t).1 (hrun t).2).elim, h.written, by simp, by simp⟩
  case h_5 hm =>
    cases hs
    exact ⟨rfl, h.counted, fun _ _ => rfl, h.written, by simp, by simp⟩
  case h_6 hm =>
    split at hs
    · rename_i hall
      cases hs
      exact ⟨h.stopRun.trans (by rw [hm]; rfl), h.counted, fun _ _ => rfl, h.written,
        fun _ => hall, by simp⟩
    · cases hs
  case h_7 hm =>
    cases hs
    have hdone := h.joined (Or.inl hm)
    refine ⟨h.stopRun.trans (by rw [hm]; rfl), h.counted, fun _ _ => rfl, h.written,
      fun _ => hdone, fun _ => ?_⟩
    have hcounts : s.operationsCount = fun t => BitVec.ofNat 32 (s.worker t).iterations := by
      ext t : 1
      rw [h.written t (hdone t), h.counted t]
    show sumOperations s.operationsCount = _
    rw [hcounts, sumOperations_ofNat]
  case h_8 => cases hs

theorem reach_inv (h : Reach step Init (fun _ _ => True) s) : Inv s := by
  refine h.invariant ?_ ?_
  · rintro s ⟨hm, hr, hw⟩
    refine ⟨?_, ?_, ?_, ?_, ?_, ?_⟩ <;> simp [hm, hr, hw, Main.hasStopped, Worker.iterations]
  · intro s a s' hi _ hs
    cases a with
    | main => exact hi.mainStep hs
    | run t => exact hi.workerStep hs

/-! ## The total -/

/-- A total of 32 bits that has `w` too many is right exactly if these wrap around. -/
theorem toInt_ofNat_eq_iff (w m : Nat) :
    (BitVec.ofNat 32 (w + m)).toInt = (m : Int) ↔ 2 ^ 32 ∣ w ∧ m < 2 ^ 31 := by
  rw [BitVec.toInt_ofNat', Int.bmod_def]
  push_cast
  split <;> omega

/-- The total is the number of iterations completed after the reset exactly if the number of those
completed before it wraps around to 0 and the total does not; so, if there are fewer than `2 ^ 31`
iterations in all, exactly if none was completed before it: the reset of the entries has no
effect. -/
theorem totalOperations_eq_measured_iff (h : Reach step Init (fun _ _ => True) s)
    (hdone : s.main = .done) :
    (s.totalOperations.toInt = ((∑ t, (s.worker t).measured : Nat) : Int) ↔
        2 ^ 32 ∣ ∑ t, (s.worker t).warm ∧ ∑ t, (s.worker t).measured < 2 ^ 31) ∧
      (∑ t, (s.worker t).warm + ∑ t, (s.worker t).measured < 2 ^ 31 →
        (s.totalOperations.toInt = ((∑ t, (s.worker t).measured : Nat) : Int) ↔
          ∀ t, (s.worker t).warm = 0)) := by
  have hinv := reach_inv h
  have hsum : ∑ t, (s.worker t).iterations =
      ∑ t, (s.worker t).warm + ∑ t, (s.worker t).measured := Finset.sum_add_distrib
  have hiff : s.totalOperations.toInt = ((∑ t, (s.worker t).measured : Nat) : Int) ↔
      2 ^ 32 ∣ ∑ t, (s.worker t).warm ∧ ∑ t, (s.worker t).measured < 2 ^ 31 := by
    rw [hinv.total hdone, hsum]
    exact toInt_ofNat_eq_iff _ _
  refine ⟨hiff, fun hfew => ?_⟩
  have hzero : ∑ t, (s.worker t).warm = 0 ↔ ∀ t, (s.worker t).warm = 0 := by simp
  rw [hiff, ← hzero]
  omega

/-- `main` before it starts one worker. -/
def one : Sys 1 := ⟨.start 0, false, fun _ => 0, 0, fun _ => ⟨.notStarted, 0, 0, 0⟩⟩

/-- The worker completes one iteration in the measurement. -/
def lateRun : List (Act 1) :=
  [.main, .main, .main, .main, .main, .run 0, .run 0, .run 0, .main, .main, .run 0, .run 0,
    .main, .main]

theorem totalOperations_eq_measured_iff_lateRun :
    ∃ s, exec step one lateRun = some s ∧ s.totalOperations = 1 ∧
      s.totalOperations.toInt = ((∑ t, (s.worker t).measured : Nat) : Int) := by
  obtain ⟨s, hs, hst⟩ := exec_result step one lateRun
    (fun s => (s.main, s.totalOperations, s.worker)) (.done, 1, fun _ => ⟨.done, 1, 0, 1⟩)
    (by decide)
  obtain ⟨hm, hst⟩ := Prod.mk.inj hst
  obtain ⟨htotal, hw⟩ := Prod.mk.inj hst
  have hreach : Reach step Init (fun _ _ => True) s :=
    .exec (.init ⟨rfl, rfl, fun _ => rfl⟩) hs
  have hfew : ∑ t, (s.worker t).warm + ∑ t, (s.worker t).measured < 2 ^ 31 := by
    simp [hw]
  refine ⟨s, hs, htotal, ((totalOperations_eq_measured_iff hreach hm).2 hfew).mpr fun t => ?_⟩
  rw [congrFun hw t]

/-- The worker completes one iteration during the warm-up and none afterwards. -/
def warmRun : List (Act 1) :=
  [.main, .run 0, .run 0, .run 0, .main, .main, .main, .main, .main, .main, .run 0, .run 0,
    .main, .main]

theorem totalOperations_counts_warmup :
    ∃ s : Sys 1, Reach step Init (fun _ _ => True) s ∧ s.main = .done ∧
      s.totalOperations.toInt = 1 ∧ ∑ t, (s.worker t).measured = 0 := by
  obtain ⟨s, hs, hst⟩ := exec_result step one warmRun
    (fun s => (s.main, s.totalOperations, ∑ t, (s.worker t).measured)) (.done, 1, 0) (by decide)
  obtain ⟨hm, hst⟩ := Prod.mk.inj hst
  obtain ⟨htotal, hw⟩ := Prod.mk.inj hst
  refine ⟨s, .exec (.init ⟨rfl, rfl, fun _ => rfl⟩) hs, hm, ?_, hw⟩
  rw [htotal]
  decide

end Htmsql.Throughput
