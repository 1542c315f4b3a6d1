import Htmsql.Smartall.Machine

/-!
# The invariant of nested elision

As long as no transaction commits that should not (`CommitsInOrder`), a lock word is 1 exactly
while one thread is in a section of the mutex that no transaction has made invisible, and this
thread has set it (`Inv`). A transaction that has read only lock words that were 0 runs while
nobody is in a section of the mutexes it has entered: whoever wants to set one of these words
aborts it, and nobody gets into such a section in any other way.
-/

namespace Htmsql.Smartall

variable {T M : Type}

/-- No word was set when the transaction tested it. -/
def Txn.AllFree (x : Txn M) : Prop := ∀ r ∈ x.reads, r.2 = 0

/-- The words that the transaction has read from memory. -/
def Txn.readSet (x : Txn M) : List M := x.reads.map Prod.fst

/-- The transaction `x` of thread `t`, which is now in the sections `inside`. -/
structure Txn.Ok (s : Sys T M) (t : T) (inside : Finset M) (x : Txn M) : Prop where
  elided : x.elided ∈ inside ∧ x.elided ∉ x.outer
  known : ∀ m ∈ inside, m ∈ x.outer ∨ m ∈ x.readSet
  left : ∀ m ∈ x.outer, m ∉ inside → x.buffer m = some 0
  buffer : ∀ m v, x.buffer m = some v → v = 0 ∧ m ≠ x.elided ∧ (m ∈ x.outer ∨ m ∈ x.readSet)
  alone : x.AllFree → ∀ m ∈ x.readSet, ∀ u, u ≠ t → m ∉ (s.thread u).committed

/-- The invariant of the runs that meet the condition: each word is 1 exactly for the thread whose
store set it, and a transaction has read what is still in memory. -/
structure Inv (s : Sys T M) : Prop where
  setter : ∀ m t, s.setter m = some t ↔ m ∈ (s.thread t).committed
  lockWord : ∀ m, s.lockWord m = if (s.setter m).isSome then 1 else 0
  entering : ∀ t m, (s.thread t).entering = some m → m ∉ (s.thread t).inside
  txn : ∀ t x, (s.thread t).txn = some x → x.Ok s t (s.thread t).inside

theorem inv_init : Inv (init : Sys T M) := by
  refine ⟨?_, fun _ => rfl, ?_, ?_⟩ <;> simp [init, Thread.committed]

variable {s s' : Sys T M}

/-! ## Threads -/

theorem Thread.committed_rollback (th : Thread M) : th.rollback.committed = th.committed := by
  cases h : th.txn <;> simp [Thread.rollback, Thread.committed, h]

theorem Thread.txn_rollback (th : Thread M) : th.rollback.txn = none := by
  unfold Thread.rollback
  cases h : th.txn with
  | none => exact h
  | some x => rfl

/-- A thread whose transaction is aborted is again about to enter the mutex it has elided. -/
theorem Inv.entering_rollback (h : Inv s) {t : T} {m : M}
    (hm : (s.thread t).rollback.entering = some m) : m ∉ (s.thread t).rollback.inside := by
  unfold Thread.rollback at hm ⊢
  cases hx : (s.thread t).txn with
  | none =>
    rw [hx] at hm
    exact h.entering t m hm
  | some x =>
    rw [hx] at hm
    obtain rfl : x.elided = m := Option.some.inj hm
    exact (h.txn t x hx).elided.2

/-! ## Words -/

theorem Inv.free_iff (h : Inv s) (m : M) :
    s.lockWord m = 0 ↔ ∀ t, m ∉ (s.thread t).committed := by
  rw [h.lockWord m]
  cases hm : s.setter m with
  | none =>
    refine ⟨fun _ t ht => ?_, fun _ => rfl⟩
    rw [(h.setter m t).mpr ht] at hm
    cases hm
  | some t =>
    constructor
    · intro hone
      cases hone
    · intro hall
      exact (hall t ((h.setter m t).mp hm)).elim

theorem Inv.unique (h : Inv s) {m : M} {t u : T} (ht : m ∈ (s.thread t).committed)
    (hu : m ∈ (s.thread u).committed) : t = u := by
  have hset := (h.setter m t).mpr ht
  rw [(h.setter m u).mpr hu, Option.some.injEq] at hset
  exact hset.symm

/-! ## What a step of another thread leaves as it is -/

/-- A thread whose step it is not goes on, or its transaction is aborted. -/
def Stays (th th' : Thread M) : Prop := th' = th ∨ th' = th.rollback

theorem Stays.committed {th th' : Thread M} (h : Stays th th') : th'.committed = th.committed := by
  rcases h with rfl | rfl
  · rfl
  · exact th.committed_rollback

/-- The frame of a step of thread `t`. A transaction that goes on has read no word of a mutex that
`t` gets into. -/
theorem Inv.update (h : Inv s) (t : T) (hother : ∀ u, u ≠ t → Stays (s.thread u) (s'.thread u))
    (hsetter : ∀ m u, u ≠ t → (s'.setter m = some u ↔ s.setter m = some u))
    (hself : ∀ m, s'.setter m = some t ↔ m ∈ (s'.thread t).committed)
    (hword : ∀ m, s'.lockWord m = if (s'.setter m).isSome then 1 else 0)
    (hentering : ∀ m, (s'.thread t).entering = some m → m ∉ (s'.thread t).inside)
    (htxn : ∀ x, (s'.thread t).txn = some x → x.Ok s' t (s'.thread t).inside)
    (hnew : ∀ m, m ∈ (s'.thread t).committed → m ∉ (s.thread t).committed → ∀ u x, u ≠ t →
      (s'.thread u).txn = some x → m ∉ x.readSet) : Inv s' := by
  refine ⟨fun m u => ?_, hword, fun u m hm => ?_, fun u x hx => ?_⟩
  · by_cases hu : u = t
    · rw [hu]
      exact hself m
    · rw [hsetter m u hu, h.setter m u, (hother u hu).committed]
  · by_cases hu : u = t
    · rw [hu] at hm ⊢
      exact hentering m hm
    · rcases hother u hu with heq | heq
      · rw [heq] at hm ⊢
        exact h.entering u m hm
      · rw [heq] at hm ⊢
        exact h.entering_rollback hm
  · by_cases hu : u = t
    · rw [hu] at hx ⊢
      exact htxn x hx
    · have heq : s'.thread u = s.thread u := by
        rcases hother u hu with heq | heq
        · exact heq
        · rw [heq, Thread.txn_rollback] at hx
          cases hx
      have hx' := hx
      rw [heq] at hx'
      have hok := h.txn u x hx'
      rw [heq]
      refine ⟨hok.elided, hok.known, hok.left, hok.buffer, fun hfree m hm w hw hmem => ?_⟩
      have hold := hok.alone hfree m hm
      by_cases hwt : w = t
      · subst hwt
        exact hnew m hmem (hold w hw) u x hu hx hm
      · rw [(hother w hwt).committed] at hmem
        exact hold w hw hmem

theorem Txn.Ok.congr {x : Txn M} {t : T} {inside : Finset M} (h : x.Ok s t inside)
    (hc : ∀ u, u ≠ t → (s'.thread u).committed = (s.thread u).committed) : x.Ok s' t inside := by
  refine ⟨h.elided, h.known, h.left, h.buffer, fun hfree m hm u hu => ?_⟩
  rw [hc u hu]
  exact h.alone hfree m hm u hu

/-- What a thread sees of a lock word in a transaction is never the value it is compared with. -/
theorem Inv.view_ne (h : Inv s) {t : T} {x : Txn M} (hx : (s.thread t).txn = some x) (m : M) :
    (x.buffer m).getD (s.lockWord m) ≠ 98789347 := by
  cases hb : x.buffer m with
  | some v =>
    rw [Option.getD_some, ((h.txn t x hx).buffer m v hb).1]
    omega
  | none =>
    rw [Option.getD_none, h.lockWord m]
    split <;> omega

/-! ## The threads after a step -/

variable [DecidableEq T] {t u : T}

theorem thread_setThread_self (s : Sys T M) (t : T) (th : Thread M) :
    (s.setThread t th).thread t = th := Function.update_self _ _ _

theorem thread_setThread_of_ne (hu : u ≠ t) (s : Sys T M) (th : Thread M) :
    (s.setThread t th).thread u = s.thread u := Function.update_of_ne hu _ _

theorem abortOthers_none (s : Sys T M) (t : T) : s.abortOthers t (fun _ => false) = s := by
  simp [Sys.abortOthers]

theorem stays_abortOthers (hu : u ≠ t) (conflict : Txn M → Bool) (th : Thread M) :
    Stays (s.thread u) (((s.abortOthers t conflict).setThread t th).thread u) := by
  rw [thread_setThread_of_ne hu]
  simp only [Sys.abortOthers]
  split
  · exact Or.inr rfl
  · exact Or.inl rfl

/-- A transaction that goes on is not in conflict. -/
theorem no_conflict (hu : u ≠ t) {conflict : Txn M → Bool} {th : Thread M} {x : Txn M}
    (hx : (((s.abortOthers t conflict).setThread t th).thread u).txn = some x) :
    conflict x = false := by
  rw [thread_setThread_of_ne hu] at hx
  simp only [Sys.abortOthers] at hx
  split at hx
  · rw [Thread.txn_rollback] at hx
    cases hx
  · rename_i hno
    simp only [hx, Option.any_some, not_and, Bool.not_eq_true] at hno
    exact hno hu

/-- Memory stays, and the others see the thread in the same sections as before. -/
theorem Inv.invisible (h : Inv s) (conflict : Txn M → Bool) {th : Thread M}
    (hcommitted : th.committed = (s.thread t).committed)
    (hentering : ∀ m, th.entering = some m → m ∉ th.inside)
    (htxn : ∀ x, th.txn = some x → x.Ok s t th.inside) :
    Inv ((s.abortOthers t conflict).setThread t th) := by
  have hself := thread_setThread_self (s.abortOthers t conflict) t th
  have hstays := fun u (hu : u ≠ t) => stays_abortOthers (s := s) hu conflict th
  refine h.update t hstays (fun _ _ _ => Iff.rfl) ?_ h.lockWord ?_ ?_ ?_
  · intro m
    rw [hself, hcommitted]
    exact h.setter m t
  · rw [hself]
    exact hentering
  · rw [hself]
    exact fun x hx => (htxn x hx).congr fun u hu => (hstays u hu).committed
  · intro m hm hnot
    rw [hself, hcommitted] at hm
    exact (hnot hm).elim

theorem Inv.setThread (h : Inv s) {th : Thread M}
    (hcommitted : th.committed = (s.thread t).committed)
    (hentering : ∀ m, th.entering = some m → m ∉ th.inside)
    (htxn : ∀ x, th.txn = some x → x.Ok s t th.inside) : Inv (s.setThread t th) := by
  have hinv := h.invisible (fun _ => false) hcommitted hentering htxn
  rwa [abortOthers_none] at hinv

theorem Inv.enter (h : Inv s) {m : M} (hm : m ∉ (s.thread t).inside) :
    Inv (s.setThread t { s.thread t with entering := some m }) := by
  refine h.setThread rfl ?_ fun x hx => h.txn t x hx
  rintro _ ⟨⟩
  exact hm

theorem Inv.abort (h : Inv s) (t : T) : Inv (s.setThread t (s.thread t).rollback) := by
  refine h.setThread (Thread.committed_rollback _) (fun m hm => h.entering_rollback hm) ?_
  intro x hx
  rw [Thread.txn_rollback] at hx
  cases hx

end Htmsql.Smartall
