import Htmsql.TimeCmp.Owed

/-!
# The steps of `main` and of the workers

A client pays at once for what it takes: it pushes what it has inserted, and a value that it pops is one
that it will remove. `main` gives the queues away, each to one worker.
-/

namespace Htmsql.TimeCmp

open Linearizable (SpecRun Status)
open ThreadsafeList (IsSequence Op Ptr Ret Reachable listSpec)

variable {n : Nat} {s s' : Sys n} {L F B : List (Ptr × Int)} {t : Fin n} {c : Client n} {op : Op}

/-! ## Steps of the clients -/

theorem Inv.started_update (h : Inv s L F B) {w : Worker} (hold : (s.worker t).pc ≠ .notStarted)
    (hw : w.pc ≠ .notStarted) (u : Fin n) :
    (Function.update s.worker t w u).pc ≠ .notStarted ↔ s.main.started u :=
  (Function.forall_update_iff s.worker fun u w => w.pc ≠ .notStarted ↔ s.main.started u).mpr
    ⟨⟨fun _ => (h.started t).mp hold, fun _ => hw⟩, fun u _ => h.started u⟩ u

theorem Inv.ready_update (h : Inv s L F B) {w : Worker} (hw : w.Ready) (u : Fin n) :
    (Function.update s.worker t w u).Ready :=
  (Function.forall_update_iff s.worker fun _ w => w.Ready).mpr ⟨hw, fun u _ => h.ready u⟩ u

/-- A worker that is in no call moves on. -/
theorem Inv.setWorker (h : Inv s L F B) {w : Worker} (hidle : s.list.pc (some t) = .idle)
    (hold : (s.worker t).pc ≠ .notStarted) (hw : w.pc ≠ .notStarted) (hready : w.Ready)
    (howed : (w.queue : Multiset Int) + (w.pc.inserted .idle + w.pc.popped .idle) =
      ((s.worker t).queue : Multiset Int) +
        ((s.worker t).pc.inserted .idle + (s.worker t).pc.popped .idle)) :
    Inv (s.setWorker t w) L F B := by
  have hself : (s.setWorker t w).worker t = w := Function.update_self _ _ _
  have hother : ∀ u, u ≠ t → (s.setWorker t w).worker u = s.worker u :=
    fun u hu => Function.update_of_ne hu _ _
  have hstatus : s.status (some t) = .idle := congrArg ThreadsafeList.Pc.status hidle
  refine ⟨h.list, fun c => ?_, h.missed, h.started_update hold hw, h.rotation,
    h.ready_update hready, ?_⟩
  · cases c with
    | none => exact h.calls none
    | some u =>
      by_cases hu : u = t
      · subst hu
        show InCall _ (s.status (some u))
        rw [hstatus]
        trivial
      · have := h.calls (some u)
        rw [Sys.call?, hother u hu]
        exact this
  · refine h.balance (c := some t) (fun u hu => ?_) (congrArg _ ?_)
    · cases u with
      | none => rfl
      | some u =>
        exact Sys.owed_some (hother u fun heq => hu (congrArg some heq)) rfl rfl
    · simp only [Sys.owed, Sys.queue, Sys.inserted, Sys.popped, hself, hstatus, hold, hw, if_false]
      show _ = _ + (w.pc.inserted (s.status (some t)) + w.pc.popped (s.status (some t)))
      rw [hstatus]
      exact howed.symm

/-- `main` moves on, and neither a queue nor a worker changes. -/
theorem Inv.setMain (h : Inv s L F B) (hlist : s'.list = s.list) (hworker : s'.worker = s.worker)
    (hqueues : s'.queues = s.queues) (hidle : s.list.pc none = .idle)
    (hstarted : ∀ t : Fin n, s'.main.started t ↔ s.main.started t)
    (hrotation : ∀ i, s'.main = .start i → s'.rotation = i)
    (howed : s'.main.inserted .idle = s.main.inserted .idle) : Inv s' L F B := by
  have hstatus : ∀ c, s'.status c = s.status c := fun c => by rw [Sys.status, hlist]; rfl
  have hnone : s.status none = .idle := congrArg ThreadsafeList.Pc.status hidle
  refine ⟨hlist ▸ h.list, fun c => ?_, hlist ▸ h.missed, fun t => ?_, hrotation, hworker ▸ h.ready,
    ?_⟩
  · rw [hstatus c]
    cases c with
    | none =>
      rw [hnone]
      trivial
    | some t =>
      have := h.calls (some t)
      rw [Sys.call?, hworker]
      exact this
  · rw [hworker, hstarted]
    exact h.started t
  · rw [h.total]
    refine Finset.sum_congr rfl fun c _ => ?_
    cases c with
    | none =>
      simp only [Sys.owed, Sys.inserted, hstatus, hnone]
      exact howed.symm
    | some t =>
      exact (Sys.owed_some (congrFun hworker t) (congrFun hqueues t) (hstatus (some t))).symm

/-- A client calls a method of the list. -/
theorem Inv.call (h : Inv s L F B)
    (hs : ThreadsafeList.step s.list (.call c op) = some s'.list)
    (hcall : s'.call? c = some op) (hother : ∀ u, u ≠ c → s'.call? u = s.call? u)
    (hstarted : ∀ t, (s'.worker t).pc ≠ .notStarted ↔ s'.main.started t)
    (hrotation : ∀ i, s'.main = .start i → s'.rotation = i) (hready : ∀ t, (s'.worker t).Ready)
    (howed : s'.status c = .pending op → s.status c = .idle → s'.owed c = s.owed c)
    (howedOther : ∀ u, u ≠ c → s'.status u = s.status u → s'.owed u = s.owed u) :
    Inv s' L F B := by
  simp only [ThreadsafeList.step, Option.ite_none_right_eq_some, Option.some.injEq] at hs
  obtain ⟨hidle, hlist⟩ := hs
  have hself : s'.list.pc c = op.entry := by
    rw [← hlist, ThreadsafeList.pc_goto_self]
  have hpc : ∀ u, u ≠ c → s'.list.pc u = s.list.pc u := by
    intro u hu
    rw [← hlist, ThreadsafeList.pc_goto_of_ne hu]
  have hpending : s'.status c = .pending op := by
    rw [Sys.status, hself]
    cases op <;> rfl
  have hstatus : ∀ u, u ≠ c → s'.status u = s.status u :=
    fun u hu => congrArg ThreadsafeList.Pc.status (hpc u hu)
  refine ⟨hlist ▸ h.list.call hidle op, fun u => ?_, fun u => ?_, hstarted, hrotation, hready, ?_⟩
  · by_cases hu : u = c
    · rw [hu, hcall, hpending]
      rfl
    · rw [hother u hu, hstatus u hu]
      exact h.calls u
  · by_cases hu : u = c
    · rw [hu, hself]
      cases op <;> simp [Op.entry, ThreadsafeList.Pc.missed]
    · rw [hpc u hu]
      exact h.missed u
  · rw [h.total]
    refine Finset.sum_congr rfl fun u _ => Eq.symm ?_
    by_cases hu : u = c
    · subst hu
      exact howed hpending (congrArg ThreadsafeList.Pc.status hidle)
    · exact howedOther u hu (hstatus u hu)

theorem Inv.callWorker (h : Inv s L F B) {p : Pc} {l : ThreadsafeList.Sys (Client n)}
    (hs : ThreadsafeList.step s.list (.call (some t) op) = some l) (hp : p.call = some op)
    (hold : (s.worker t).pc ≠ .notStarted)
    (howed : p.inserted (.pending op) + p.popped (.pending op) =
      (s.worker t).pc.inserted .idle + (s.worker t).pc.popped .idle) :
    Inv ((s.setWorker t ((s.worker t).goto p)).setList l) L F B := by
  set s₁ := (s.setWorker t ((s.worker t).goto p)).setList l with hs₁
  have hself : s₁.worker t = (s.worker t).goto p := Function.update_self _ _ _
  have hother : ∀ u, u ≠ t → s₁.worker u = s.worker u := fun u hu => Function.update_of_ne hu _ _
  have hstarted : p ≠ .notStarted := by
    rintro rfl
    cases hp
  have hready : ((s.worker t).goto p).Ready := by
    cases p <;> trivial
  refine h.call (c := some t) hs ?_ (fun u hu => ?_) (h.started_update hold hstarted) h.rotation
    (h.ready_update hready) (fun hpending hidle => ?_) (fun u hu hstatus => ?_)
  · rw [Sys.call?, hself]
    exact hp
  · cases u with
    | none => rfl
    | some u => rw [Sys.call?, hother u fun heq => hu (congrArg some heq), Sys.call?]
  · simp only [Sys.owed, Sys.queue, Sys.inserted, Sys.popped, hself, hpending, hidle, if_neg hold,
      Worker.goto, if_neg hstarted, howed]
  · cases u with
    | none => exact Sys.owed_none rfl hstatus
    | some u => exact Sys.owed_some (hother u fun heq => hu (congrArg some heq)) rfl hstatus

theorem Inv.callMain (h : Inv s L F B) {i : Nat} {v : Int} {l : ThreadsafeList.Sys (Client n)}
    (hm : s.main = .callInsert i v)
    (hs : ThreadsafeList.step s.list (.call none (.insert v)) = some l) :
    Inv ((s.setMain (.insert i v)).setList l) L F B := by
  refine h.call (c := none) hs rfl (fun u hu => ?_) (fun t => ?_) (fun i hi => by cases hi) h.ready
    (fun hpending _ => ?_) (fun u hu hstatus => ?_)
  · cases u with
    | none => exact (hu rfl).elim
    | some u => rfl
  · have := h.started t
    rw [hm] at this
    exact this
  · rw [Sys.owed, Sys.inserted, hpending, Sys.owed, Sys.inserted, hm]
    rfl
  · cases u with
    | none => exact (hu rfl).elim
    | some u => exact Sys.owed_some rfl rfl hstatus

/-! ## The queues of `main` -/

/-- The base value goes from `main` to the queue of a worker. -/
theorem Inv.push (h : Inv s L F B) {i : Nat} {v : Int} (hm : s.main = .push i v) (q : Fin n)
    (r : Nat) : Inv (((s.setQueue q (s.queues q ++ [v])).setRotation r).setMain (.draw (i + 1)))
      L F B := by
  set s₁ := ((s.setQueue q (s.queues q ++ [v])).setRotation r).setMain (.draw (i + 1)) with hs₁
  have hself : s₁.queues q = s.queues q ++ [v] := Function.update_self _ _ _
  have hnot : (s.worker q).pc = .notStarted := by
    by_contra hne
    have := (h.started q).mp hne
    rw [hm] at this
    exact this
  have hq : s₁.owed (some q) = s.owed (some q) + {v} := by
    have hqueue : s₁.queue q = s.queue q ++ [v] := by
      show (if (s.worker q).pc = .notStarted then s₁.queues q else _) = _
      rw [Sys.queue, hself, if_pos hnot, if_pos hnot]
    show ((s₁.queue q : List Int) : Multiset Int) + _ = ↑(s.queue q) + _ + {v}
    rw [hqueue, ← Multiset.coe_add, add_right_comm]
    rfl
  have hother : ∀ u, u ≠ q → s₁.owed (some u) = s.owed (some u) :=
    fun u hu => Sys.owed_some rfl (Function.update_of_ne hu _ _) rfl
  have hmain : s₁.owed none = 0 ∧ s.owed none = {v} := by
    refine ⟨rfl, ?_⟩
    rw [Sys.owed, Sys.inserted, hm]
    rfl
  refine ⟨h.list, fun c => ?_, h.missed, fun t => ?_, fun i hi => (by cases hi), h.ready, ?_⟩
  · have hc := h.calls c
    cases c with
    | none =>
      rw [Sys.call?, hm] at hc
      exact hc
    | some t => exact hc
  · have := h.started t
    rw [hm] at this
    exact this
  · have hsum := Total.sum_of_ne hother
    rw [hq, ← add_assoc, add_right_comm] at hsum
    rw [h.total, Fintype.sum_option, Fintype.sum_option, hmain.1, hmain.2, zero_add,
      add_right_cancel hsum, add_comm]

/-- A worker starts with a copy of its queue. -/
theorem Inv.start (h : Inv s L F B) {i : Nat} (hm : s.main = .start i) (hi : i < n) (q : Fin n)
    (hq : q.val = s.rotation % n) :
    Inv (((s.setWorker ⟨i, hi⟩ ⟨.loop, s.queues q, 0⟩).setRotation (s.rotation + 1)).setMain
      (.start (i + 1))) L F B := by
  have hrotation := h.rotation i hm
  obtain rfl : q = ⟨i, hi⟩ := by
    apply Fin.ext
    rw [hq, hrotation, Nat.mod_eq_of_lt hi]
  set t : Fin n := ⟨i, hi⟩ with ht
  set s₁ := ((s.setWorker t ⟨.loop, s.queues t, 0⟩).setRotation (s.rotation + 1)).setMain
    (.start (i + 1)) with hs₁
  have hself : s₁.worker t = ⟨.loop, s.queues t, 0⟩ := Function.update_self _ _ _
  have hother : ∀ u, u ≠ t → s₁.worker u = s.worker u := fun u hu => Function.update_of_ne hu _ _
  have hnot : (s.worker t).pc = .notStarted := by
    by_contra hne
    have := (h.started t).mp hne
    rw [hm] at this
    exact Nat.lt_irrefl i this
  have hidle : s.list.pc (some t) = .idle := h.idle (by rw [Sys.call?, hnot]; rfl)
  refine ⟨h.list, fun c => ?_, h.missed, fun u => ?_, fun j hj => ?_, h.ready_update trivial, ?_⟩
  · have hc := h.calls c
    cases c with
    | none =>
      rw [Sys.call?, hm] at hc
      exact hc
    | some u =>
      by_cases hu : u = t
      · rw [hu]
        show InCall _ (s.list.pc (some t)).status
        rw [hidle]
        trivial
      · rw [Sys.call?, hother u hu]
        exact hc
  · show (s₁.worker u).pc ≠ .notStarted ↔ u.val < i + 1
    by_cases hu : u = t
    · rw [hu, hself]
      exact ⟨fun _ => Nat.lt_succ_self i, fun _ => Pc.noConfusion⟩
    · have hold := h.started u
      rw [hm] at hold
      have hne : u.val ≠ i := fun heq => hu (Fin.ext heq)
      rw [hother u hu, hold]
      show u.val < i ↔ u.val < i + 1
      omega
  · cases hj
    show s.rotation + 1 = i + 1
    rw [hrotation]
  · rw [h.total]
    refine Finset.sum_congr rfl fun c _ => Eq.symm ?_
    cases c with
    | none =>
      rw [Sys.owed, Sys.inserted, Sys.owed, Sys.inserted, hm]
      rfl
    | some u =>
      by_cases hu : u = t
      · subst hu
        simp only [Sys.owed, Sys.queue, Sys.inserted, Sys.popped, hself, hnot]
        rfl
      · exact Sys.owed_some (hother u hu) rfl rfl

end Htmsql.TimeCmp
