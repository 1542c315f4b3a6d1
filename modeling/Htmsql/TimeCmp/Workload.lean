import Htmsql.TimeCmp.Steps

/-!
# The workload never removes what is not there

In every state the multiset of the values in the list is what the queues hold and what is on its way
between them and the list. So a removal that a worker has called finds an item with its value, whoever
has inserted that item.
-/

namespace Htmsql.TimeCmp

open Linearizable (SpecRun Status)
open ThreadsafeList (IsSequence Op Ptr Ret Reachable listSpec)

variable {n : Nat} {s s' : Sys n} {L F B : List (Ptr × Int)} {t : Fin n} {c : Client n} {op : Op}

theorem Inv.within (h : Inv s L F B) {s₁ : Sys n} (hs : s.within c s₁ = some s')
    (hreturn : s.list.pc c = .idle → Inv s₁ L F B) : ∃ L' F' B', Inv s' L' F' B' := by
  unfold Sys.within at hs
  split at hs
  · rename_i hidle
    cases hs
    exact ⟨L, F, B, hreturn hidle⟩
  · obtain ⟨l, hl, rfl⟩ := Option.map_eq_some_iff.mp hs
    exact h.runList hl

theorem Inv.mainStep {p : Params n} {v : Int} (h : Inv s L F B) (hs : s.mainStep p v = some s') :
    ∃ L' F' B', Inv s' L' F' B' := by
  unfold Sys.mainStep at hs
  have hquiet : s.main.call = none → s.list.pc none = .idle := fun hc => h.idle hc
  cases hm : s.main <;> rw [hm] at hs hquiet
  case draw i =>
    simp only at hs
    split at hs <;> cases hs
    · exact ⟨L, F, B, h.setMain rfl rfl rfl (hquiet rfl) (fun t => by rw [hm]; rfl)
        (fun i hi => by cases hi) (by rw [hm]; rfl)⟩
    · refine ⟨L, F, B, h.setMain rfl rfl rfl (hquiet rfl) (fun t => ?_) (fun i hi => ?_)
        (by rw [hm]; rfl)⟩
      · rw [hm]
        exact ⟨fun hlt => Nat.not_lt_zero _ hlt, False.elim⟩
      · cases hi
        rfl
  case callInsert i v =>
    obtain ⟨l, hl, rfl⟩ := Option.map_eq_some_iff.mp hs
    exact ⟨L, F, B, h.callMain hm hl⟩
  case insert i v =>
    exact h.within hs fun hidle => h.setMain rfl rfl rfl hidle (fun t => by rw [hm]; rfl)
      (fun i hi => by cases hi) (by rw [hm]; rfl)
  case push i v =>
    simp only at hs
    split at hs <;> cases hs
    exact ⟨L, F, B, h.push hm _ _⟩
  case start i =>
    simp only at hs
    split at hs <;> cases hs
    · exact ⟨L, F, B, h.start hm _ _ rfl⟩
    · rename_i hi
      refine ⟨L, F, B, h.setMain rfl rfl rfl (hquiet rfl) (fun t => ?_) (fun i hi => by cases hi)
        (by rw [hm]; rfl)⟩
      rw [hm]
      have := t.isLt
      exact ⟨fun _ => show t.val < i by omega, fun _ => trivial⟩
  case stop i =>
    simp only at hs
    split at hs <;> cases hs
    · exact ⟨L, F, B, h.setMain rfl rfl rfl (hquiet rfl) (fun t => by rw [hm]; rfl)
        (fun i hi => by cases hi) (by rw [hm]; rfl)⟩
    · exact ⟨L, F, B, h.setMain rfl rfl rfl (hquiet rfl) (fun t => by rw [hm]; rfl)
        (fun i hi => by cases hi) (by rw [hm]; rfl)⟩
  case join =>
    simp only [Option.ite_none_right_eq_some, Option.some.injEq] at hs
    obtain ⟨-, rfl⟩ := hs
    exact ⟨L, F, B, h.setMain rfl rfl rfl (hquiet rfl) (fun t => by rw [hm]; rfl)
      (fun i hi => by cases hi) (by rw [hm]; rfl)⟩
  case done => cases hs

theorem choice_quiet (p : Params n) (rndOp rndVal : Int) (w : Worker) :
    (w.goto (choice p rndOp rndVal w.queue)).Ready ∧
      choice p rndOp rndVal w.queue ≠ .notStarted ∧
      (choice p rndOp rndVal w.queue).inserted .idle = 0 ∧
      (choice p rndOp rndVal w.queue).popped .idle = 0 := by
  unfold choice
  split
  · exact ⟨trivial, Pc.noConfusion, rfl, rfl⟩
  · split
    · rename_i hq
      exact ⟨hq.2, Pc.noConfusion, rfl, rfl⟩
    · exact ⟨trivial, Pc.noConfusion, rfl, rfl⟩

theorem Inv.workerStep {p : Params n} {v : Int} (h : Inv s L F B)
    (hs : s.workerStep p t v = some s') : ∃ L' F' B', Inv s' L' F' B' := by
  unfold Sys.workerStep at hs
  have hquiet : (s.worker t).pc.call = none → s.list.pc (some t) = .idle := fun hc => h.idle hc
  have hready := h.ready t
  unfold Worker.Ready at hready
  cases hw : (s.worker t).pc <;> simp only [hw] at hs <;> rw [hw] at hquiet hready
  case notStarted | done => cases hs
  case loop =>
    cases hs
    refine ⟨L, F, B, h.setWorker (hquiet rfl) (by simp [hw]) ?_ ?_ ?_⟩ <;> split <;>
      simp [hw, Worker.goto, Worker.Ready, Pc.inserted, Pc.popped]
  case drawOp | drawVal =>
    cases hs
    exact ⟨L, F, B, h.setWorker (hquiet rfl) (by simp [hw]) Pc.noConfusion trivial
      (by rw [hw]; rfl)⟩
  case choose rndOp rndVal =>
    cases hs
    obtain ⟨hr, hstarted, hinserted, hpopped⟩ := choice_quiet p rndOp rndVal (s.worker t)
    refine ⟨L, F, B, h.setWorker (hquiet rfl) (by simp [hw]) hstarted hr ?_⟩
    rw [Worker.goto, hinserted, hpopped, hw]
    rfl
  case callInsert v =>
    obtain ⟨l, hl, rfl⟩ := Option.map_eq_some_iff.mp hs
    exact ⟨L, F, B, h.callWorker hl rfl (by simp [hw]) (by rw [hw]; rfl)⟩
  case callRemove v =>
    obtain ⟨l, hl, rfl⟩ := Option.map_eq_some_iff.mp hs
    exact ⟨L, F, B, h.callWorker hl rfl (by simp [hw]) (by rw [hw]; rfl)⟩
  case callContains v =>
    obtain ⟨l, hl, rfl⟩ := Option.map_eq_some_iff.mp hs
    exact ⟨L, F, B, h.callWorker hl rfl (by simp [hw]) (by rw [hw]; rfl)⟩
  case insert | remove | contains =>
    exact h.within hs fun hidle => h.setWorker hidle (by simp [hw]) Pc.noConfusion trivial
      (by rw [hw]; rfl)
  case push v =>
    cases hs
    refine ⟨L, F, B, h.setWorker (hquiet rfl) (by simp [hw]) Pc.noConfusion trivial ?_⟩
    rw [hw, ← Multiset.coe_add]
    simp [Pc.inserted, Pc.popped]
  case front =>
    obtain ⟨val, hval, rfl⟩ := Option.map_eq_some_iff.mp hs
    exact ⟨L, F, B, h.setWorker (hquiet rfl) (by simp [hw]) Pc.noConfusion hval (by rw [hw]; rfl)⟩
  case pop val =>
    cases hs
    refine ⟨L, F, B, h.setWorker (hquiet rfl) (by simp [hw]) Pc.noConfusion trivial ?_⟩
    rw [hw]
    obtain ⟨rest, hrest⟩ := List.head?_eq_some_iff.mp hready
    rw [hrest, List.tail_cons, ← Multiset.cons_coe, ← Multiset.singleton_add]
    simp [Pc.inserted, Pc.popped, add_comm]
  case count =>
    cases hs
    exact ⟨L, F, B, h.setWorker (hquiet rfl) (by simp [hw]) Pc.noConfusion trivial
      (by rw [hw]; rfl)⟩

theorem reach_inv {p : Params n}
    (hr : Run.Reach (step p) (· = (init : Sys n)) (fun _ _ => True) s) :
    ∃ L F B, Inv s L F B := by
  refine hr.invariant (I := fun s => ∃ L F B, Inv s L F B) ?_ ?_
  · rintro s rfl
    exact ⟨[], [], [], inv_init⟩
  · rintro s a s' ⟨L, F, B, h⟩ - hs
    cases a with
    | main v => exact h.mainStep hs
    | worker t v => exact h.workerStep hs

/-- Every removal that a worker has called finds an item with its value. -/
structure Finds (s : Sys n) (t : Fin n) (val : Int) : Prop where
  never_missed : s.list.pc (some t) ≠ .missed
  found : ∀ d item, s.list.pc (some t) = .readPrev d item →
    d = val ∧ ∃ k, s.list.heap item = some k ∧ k.data = val

theorem Inv.finds (h : Inv s L F B) {val : Int} (hw : (s.worker t).pc = .remove val) :
    Finds s t val := by
  refine ⟨h.missed (some t), fun d item hpc => ?_⟩
  have hin := h.calls (some t)
  rw [Sys.call?, hw, Sys.status, hpc] at hin
  obtain rfl : val = d := by
    have hop : Op.remove val = .remove d := Option.some.inj hin
    injection hop
  obtain ⟨-, hF, hB, l₁, l₂, hat⟩ := h.list.at hpc
  obtain ⟨k, hk, hd⟩ := h.list.shape.alive (item, val) (by rw [hat.split]; simp)
  exact ⟨rfl, k, hk, hd⟩

theorem workload_owes (p : Params n)
    (hr : Run.Reach (step p) (· = (init : Sys n)) (fun _ _ => True) s) :
    ∃ items : List (Ptr × Int), SpecRun listSpec [] s.list.log.effects (items.map Prod.snd) ∧
      (s.list.holder = none → IsSequence s.list items) ∧
      (∀ p, Reachable s.list p → p ∈ items.map Prod.fst) ∧
      ((items.map Prod.snd : List Int) : Multiset Int) =
        ∑ t, (s.queue t : Multiset Int) + ∑ c, s.inserted c + ∑ t, s.popped t ∧
      ∀ t val, (s.worker t).pc = .remove val → Finds s t val ∧
        (s.status (some t) = .pending (.remove val) → val ∈ items.map Prod.snd) := by
  obtain ⟨L, F, B, h⟩ := reach_inv hr
  refine ⟨L, h.list.clients.log.run, fun hfree => ?_, fun p hp => h.list.shape.reachable_mem hp, ?_,
    fun t val hw => ⟨h.finds hw, fun hpending => h.owed_mem (c := some t) ?_⟩⟩
  · obtain ⟨hF, hB⟩ := h.list.free hfree
    subst hF hB
    exact h.list.shape.isSequence
  · rw [h.total, Fintype.sum_option, Fintype.sum_option]
    simp only [Sys.owed, Finset.sum_add_distrib]
    rw [add_left_comm, ← add_assoc (s.inserted none), ← add_assoc]
  · rw [Sys.owed, Sys.popped, hw, hpending]
    exact Multiset.mem_add.mpr (.inr (Multiset.mem_add.mpr (.inr (Multiset.mem_singleton_self val))))

/-- Two base values and two workers that only remove. -/
def removals : Params 2 := ⟨2, 0, 1, fun _ => .runInfinite⟩

/-- `main` inserts 5 twice, once for each worker; worker 1 removes its 5 and finds the other item. -/
def removeOther : List (Act 2) :=
  [.main 5, .main 0, .main 0, .main 0, .main 0, .main 0, .main 0, .main 0, .main 0, .main 0, .main 0,
    .main 0, .main 5, .main 0, .main 0, .main 0, .main 0, .main 0, .main 0, .main 0, .main 0, .main 0,
    .main 0, .main 0, .main 0, .main 0, .main 0] ++
  [0, 0, 7, 0, 0, 0, 0, 0, 0, 0].map (.worker (Fin.last 1))

theorem workload_owes_removeOther :
    ∃ s, Run.exec (step removals) init removeOther = some s ∧ s.list.pc (some 1) = .readPrev 5 0 ∧
      (s.queue 0, s.queue 1) = ([5], []) ∧ Finds s 1 5 := by
  obtain ⟨s, hs, hres⟩ := Run.exec_result (step removals) init removeOther
    (fun s => ((s.worker 1).pc, s.list.pc (some 1), s.queue 0, s.queue 1))
    (.remove 5, .readPrev 5 0, [5], []) (by decide)
  simp only [Prod.mk.injEq] at hres
  obtain ⟨hw, hpc, hqueue⟩ := hres
  obtain ⟨items, -, -, -, -, hfinds⟩ := workload_owes removals (.exec (.init rfl) hs)
  exact ⟨s, hs, hpc, Prod.ext hqueue.1 hqueue.2, (hfinds 1 5 hw).1⟩

end Htmsql.TimeCmp
