import Htmsql.Smartall.Invariant

/-!
# Every step that commits in order keeps the invariant

A store to a lock word in memory comes from the one thread that is in a section of the mutex or
gets into it (`Inv.store`); everything that happens inside a transaction is invisible to the
others (`Inv.invisible`); the commit publishes only resets of mutexes that nobody else is in
(`Inv.commit`).
-/

namespace Htmsql.Smartall

open Run

variable {T M : Type} [DecidableEq M]

/-- A thread leaves the mutex it has elided only if no word was set that its transaction has
tested, and after every section it has entered in the transaction. -/
def CommitsInOrder (s : Sys T M) : Act T M → Prop
  | .exit t m => ∀ x ∈ (s.thread t).txn, m = x.elided →
      (∀ r ∈ x.reads, r.2 = 0) ∧
        ∀ n ∈ (s.thread t).inside.erase m, n ∈ x.outer ∧ x.buffer n = none
  | .enter _ _ | .testAndSet _ _ | .abort _ => True

instance (s : Sys T M) : (a : Act T M) → Decidable (CommitsInOrder s a)
  | .exit t m => inferInstanceAs (Decidable (∀ x ∈ (s.thread t).txn, m = x.elided →
      (∀ r ∈ x.reads, r.2 = 0) ∧
        ∀ n ∈ (s.thread t).inside.erase m, n ∈ x.outer ∧ x.buffer n = none))
  | .enter _ _ | .testAndSet _ _ | .abort _ => inferInstanceAs (Decidable True)

variable {s s' : Sys T M} {t : T} {m : M}

theorem notMem_readSet {x : Txn M} (h : writeConflict m x = false) : m ∉ x.readSet := by
  simp only [writeConflict, Txn.hasRead, Bool.or_eq_false_iff, decide_eq_false_iff_not] at h
  exact h.1

variable [DecidableEq T]

/-! ## Steps -/

theorem Inv.testAndSetInside (h : Inv s) {x : Txn M} (hx : (s.thread t).txn = some x) :
    Inv (s.testAndSetInside t m x) := by
  have hok := h.txn t x hx
  simp only [Sys.testAndSetInside, if_pos (h.view_ne hx m)]
  refine h.invisible _ ?_ (fun _ hm => by cases hm) ?_
  · simp [Thread.committed, hx]
  rintro _ ⟨⟩
  refine ⟨⟨Finset.mem_insert_of_mem hok.elided.1, hok.elided.2⟩, ?_, ?_, ?_, ?_⟩
  · intro n hn
    rcases Finset.mem_insert.mp hn with rfl | hn
    · exact Or.inr List.mem_cons_self
    · exact (hok.known n hn).imp_right (List.mem_cons_of_mem _)
  · intro n hn hnot
    exact hok.left n hn fun hin => hnot (Finset.mem_insert_of_mem hin)
  · intro n v hb
    obtain ⟨hv, hne, hor⟩ := hok.buffer n v hb
    exact ⟨hv, hne, hor.imp_right (List.mem_cons_of_mem _)⟩
  · intro hfree
    have hzero : (x.buffer m).getD (s.lockWord m) = 0 := hfree _ List.mem_cons_self
    have hrest := hok.alone fun r hr => hfree r (List.mem_cons_of_mem _ hr)
    intro n hn
    rcases List.mem_cons.mp hn with rfl | hn
    · cases hb : x.buffer n with
      | none =>
        rw [hb, Option.getD_none] at hzero
        exact fun u _ => (h.free_iff n).mp hzero u
      | some v =>
        -- the thread has left this section in the same transaction
        rcases (hok.buffer n v hb).2.2 with hout | hread
        · intro u hu hin
          refine hu (h.unique hin ?_)
          simpa [Thread.committed, hx] using hout
        · exact hrest n hread
    · exact hrest n hn

theorem Inv.elide (h : Inv s) (hx : (s.thread t).txn = none) (hm : m ∉ (s.thread t).inside)
    (hfree : s.lockWord m = 0) :
    Inv ((s.abortOthers t (readConflict m)).setThread t
      { entering := none
        inside := insert m (s.thread t).inside
        txn := some ⟨m, (s.thread t).inside, [(m, 0)], fun _ => none⟩ }) := by
  refine h.invisible _ ?_ (fun _ hm => by cases hm) ?_
  · simp [Thread.committed, hx]
  rintro _ ⟨⟩
  refine ⟨⟨Finset.mem_insert_self _ _, hm⟩, ?_, ?_, ?_, ?_⟩
  · intro n hn
    rcases Finset.mem_insert.mp hn with rfl | hn
    · exact Or.inr List.mem_cons_self
    · exact Or.inl hn
  · intro n hn hnot
    exact (hnot (Finset.mem_insert_of_mem hn)).elim
  · intro n v hb
    cases hb
  · intro _ n hn u _
    rw [List.mem_singleton.mp hn]
    exact (h.free_iff m).mp hfree u

/-- A store to the lock word of a mutex that no other thread is in: the thread is in it afterwards
if it has stored 1. -/
theorem Inv.store (h : Inv s) {v : Nat} {th : Thread M} (hv : v = 0 ∨ v = 1)
    (hother : ∀ u, u ≠ t → m ∉ (s.thread u).committed) (htxn : th.txn = none)
    (hentering : th.entering = none) (hm : m ∈ th.inside ↔ v = 1)
    (hinside : ∀ n, n ≠ m → (n ∈ th.inside ↔ n ∈ (s.thread t).committed)) :
    Inv (((s.store t m v).abortOthers t (writeConflict m)).setThread t th) := by
  have hself := thread_setThread_self ((s.store t m v).abortOthers t (writeConflict m)) t th
  have hcommitted : th.committed = th.inside := by simp [Thread.committed, htxn]
  refine h.update t (fun u hu => stays_abortOthers (s := s.store t m v) hu _ th) ?_ ?_ ?_ ?_ ?_ ?_
  · intro n u hu
    show Function.update s.setter m (if v = 0 then none else some t) n = some u ↔ s.setter n = some u
    by_cases hn : n = m
    · rw [hn, Function.update_self, h.setter m u]
      rcases hv with rfl | rfl <;> simp [hu.symm, hother u hu]
    · rw [Function.update_of_ne hn]
  · intro n
    rw [hself, hcommitted]
    show Function.update s.setter m (if v = 0 then none else some t) n = some t ↔ _
    by_cases hn : n = m
    · rw [hn, Function.update_self, hm]
      rcases hv with rfl | rfl <;> simp
    · rw [Function.update_of_ne hn, h.setter n t]
      exact (hinside n hn).symm
  · intro n
    show Function.update s.lockWord m v n =
      if (Function.update s.setter m (if v = 0 then none else some t) n).isSome then 1 else 0
    by_cases hn : n = m
    · rw [hn, Function.update_self, Function.update_self]
      rcases hv with rfl | rfl <;> rfl
    · rw [Function.update_of_ne hn, Function.update_of_ne hn]
      exact h.lockWord n
  · rw [hself, hentering]
    rintro _ ⟨⟩
  · rw [hself, htxn]
    rintro _ ⟨⟩
  · intro n hn hnot u x hu hux
    have heq : n = m := by
      by_contra hne
      rw [hself, hcommitted] at hn
      exact hnot ((hinside n hne).mp hn)
    rw [heq]
    exact notMem_readSet (no_conflict hu hux)

/-- A test and set that writes. -/
theorem Inv.acquire (h : Inv s) (hx : (s.thread t).txn = none) (hfree : s.lockWord m = 0) :
    Inv (((s.store t m 1).abortOthers t (writeConflict m)).setThread t
      { s.thread t with entering := none, inside := insert m (s.thread t).inside }) := by
  refine h.store (Or.inr rfl) (fun u _ => (h.free_iff m).mp hfree u) hx rfl ?_ ?_
  · simp
  · intro n hn
    simp [Thread.committed, hx, hn]

/-- The reset of a lock word outside a transaction. -/
theorem Inv.release (h : Inv s) (hx : (s.thread t).txn = none) (hm : m ∈ (s.thread t).inside)
    (he : (s.thread t).entering = none) :
    Inv (((s.store t m 0).abortOthers t (writeConflict m)).setThread t
      { s.thread t with inside := (s.thread t).inside.erase m }) := by
  have hown : m ∈ (s.thread t).committed := by
    rw [Thread.committed, hx]
    exact hm
  refine h.store (Or.inl rfl) (fun u hu hin => hu (h.unique hin hown)) hx he ?_ ?_
  · simp
  · intro n hn
    simp [Thread.committed, hx, hn]

/-- The reset of a lock word inside a transaction that began with another mutex. -/
theorem Inv.resetInside (h : Inv s) {x : Txn M} (hx : (s.thread t).txn = some x)
    (hm : m ∈ (s.thread t).inside) (he : (s.thread t).entering = none) (hne : m ≠ x.elided) :
    Inv ((s.abortOthers t (writeConflict m)).setThread t
      { s.thread t with
        inside := (s.thread t).inside.erase m
        txn := some { x with buffer := Function.update x.buffer m (some 0) } }) := by
  have hok := h.txn t x hx
  refine h.invisible _ ?_ ?_ ?_
  · simp [Thread.committed, hx]
  · intro n hn
    change (s.thread t).entering = some n at hn
    rw [he] at hn
    cases hn
  rintro _ ⟨⟩
  refine ⟨⟨Finset.mem_erase.mpr ⟨hne.symm, hok.elided.1⟩, hok.elided.2⟩, ?_, ?_, ?_, hok.alone⟩
  · exact fun n hn => hok.known n (Finset.mem_of_mem_erase hn)
  · intro n hn hnot
    show Function.update x.buffer m (some 0) n = some 0
    by_cases hnm : n = m
    · rw [hnm, Function.update_self]
    · rw [Function.update_of_ne hnm]
      exact hok.left n hn fun hin => hnot (Finset.mem_erase.mpr ⟨hnm, hin⟩)
  · intro n v hb
    change Function.update x.buffer m (some 0) n = some v at hb
    by_cases hnm : n = m
    · rw [hnm, Function.update_self, Option.some.injEq] at hb
      subst hnm
      exact ⟨hb.symm, hne, hok.known n hm⟩
    · rw [Function.update_of_ne hnm] at hb
      exact hok.buffer n v hb

omit [DecidableEq M] [DecidableEq T] in
/-- A word that a transaction resets is the word of a mutex that nobody else is in. -/
theorem Inv.reset_unheld (h : Inv s) {x : Txn M} (hx : (s.thread t).txn = some x)
    (hfree : x.AllFree) {n : M} {v : Nat} (hb : x.buffer n = some v) {u : T} (hu : u ≠ t) :
    n ∉ (s.thread u).committed := by
  have hok := h.txn t x hx
  rcases (hok.buffer n v hb).2.2 with hout | hread
  · intro hin
    refine hu (h.unique hin ?_)
    rw [Thread.committed, hx]
    exact hout
  · exact hok.alone hfree n hread u hu

omit [DecidableEq M] [DecidableEq T] in
/-- The words that a transaction publishes are all 0. -/
theorem Inv.setter_publish (h : Inv s) {x : Txn M} (hx : (s.thread t).txn = some x) (n : M) :
    (s.publish t x).setter n = if x.buffer n = none then s.setter n else none := by
  simp only [Sys.publish]
  cases hb : x.buffer n with
  | none => rfl
  | some v => simp [((h.txn t x hx).buffer n v hb).1]

/-- The commit of a transaction. -/
theorem Inv.commit (h : Inv s) {x : Txn M} (hx : (s.thread t).txn = some x)
    (he : (s.thread t).entering = none) (hfree : x.AllFree)
    (hclosed : ∀ n ∈ (s.thread t).inside.erase x.elided, n ∈ x.outer ∧ x.buffer n = none) :
    Inv ((s.publish t x).setThread t
      { s.thread t with inside := (s.thread t).inside.erase x.elided, txn := none }) := by
  set th : Thread M :=
    { s.thread t with inside := (s.thread t).inside.erase x.elided, txn := none } with hth
  have hok := h.txn t x hx
  have hself := thread_setThread_self (s.publish t x) t th
  have hcommitted : (s.thread t).committed = x.outer := by simp [Thread.committed, hx]
  have hcommitted' : th.committed = (s.thread t).inside.erase x.elided := rfl
  refine h.update t (fun u hu => Or.inl (thread_setThread_of_ne hu _ _)) ?_ ?_ ?_ ?_ ?_ ?_
  · intro n u hu
    show (s.publish t x).setter n = some u ↔ _
    rw [h.setter_publish hx n]
    cases hb : x.buffer n with
    | none => rfl
    | some v =>
      rw [h.setter n u]
      simp [h.reset_unheld hx hfree hb hu]
  · intro n
    rw [hself, hcommitted']
    show (s.publish t x).setter n = some t ↔ _
    rw [h.setter_publish hx n]
    cases hb : x.buffer n with
    | none =>
      rw [if_pos rfl, h.setter n t, hcommitted]
      constructor
      · intro hn
        refine Finset.mem_erase.mpr ⟨?_, ?_⟩
        · rintro rfl
          exact hok.elided.2 hn
        · by_contra hnot
          rw [hok.left n hn hnot] at hb
          cases hb
      · exact fun hn => (hclosed n hn).1
    | some v =>
      constructor
      · intro hs
        cases hs
      · intro hn
        rw [(hclosed n hn).2] at hb
        cases hb
  · intro n
    show (x.buffer n).getD (s.lockWord n) = if ((s.publish t x).setter n).isSome then 1 else 0
    rw [h.setter_publish hx n]
    cases hb : x.buffer n with
    | none => exact h.lockWord n
    | some v => exact (hok.buffer n v hb).1
  · rw [hself]
    intro n hn
    change (s.thread t).entering = some n at hn
    rw [he] at hn
    cases hn
  · rw [hself]
    rintro _ ⟨⟩
  · intro n hn hnot
    rw [hself, hcommitted'] at hn
    rw [hcommitted] at hnot
    exact (hnot (hclosed n hn).1).elim

theorem Inv.resetLockWord (h : Inv s) (he : (s.thread t).entering = none)
    (hm : m ∈ (s.thread t).inside) (hok : CommitsInOrder s (.exit t m)) :
    Inv (s.resetLockWord t m) := by
  simp only [Sys.resetLockWord]
  split
  · rename_i hx
    exact h.release hx hm he
  · rename_i x hx
    split
    · rename_i heq
      obtain ⟨hfree, hclosed⟩ := hok x hx heq
      subst heq
      exact h.commit hx he hfree hclosed
    · rename_i hne
      exact h.resetInside hx hm he hne

theorem Inv.testAndSetOutside (h : Inv s) (hx : (s.thread t).txn = none)
    (hm : (s.thread t).entering = some m) {elide : Bool}
    (hs : s.testAndSetOutside t m elide = some s') : Inv s' := by
  have hnot := h.entering t m hm
  unfold Sys.testAndSetOutside at hs
  split at hs
  · split at hs
    · rename_i hfree
      cases hs
      exact h.elide hx hnot hfree
    · cases hs
  · cases hs
    by_cases hset : s.lockWord m = 1
    · simp only [if_pos hset, Thread.afterExchange]
      exact h.invisible _ rfl (h.entering t) (h.txn t)
    · have hfree : s.lockWord m = 0 := by
        have hw := h.lockWord m
        split at hw
        · exact (hset hw).elim
        · exact hw
      simp only [if_neg hset, Thread.afterExchange]
      exact h.acquire hx hfree

theorem Inv.step (h : Inv s) {a : Act T M} (hok : CommitsInOrder s a) (hs : step s a = some s') :
    Inv s' := by
  cases a with
  | enter t m =>
    simp only [Smartall.step, Option.ite_none_right_eq_some, Option.some.injEq] at hs
    obtain ⟨⟨-, hm⟩, rfl⟩ := hs
    exact h.enter hm
  | testAndSet t elide =>
    simp only [Smartall.step, Option.bind_eq_some_iff] at hs
    obtain ⟨m, hm, hs⟩ := hs
    cases hx : (s.thread t).txn with
    | none =>
      rw [hx] at hs
      exact h.testAndSetOutside hx hm hs
    | some x =>
      rw [hx] at hs
      cases hs
      exact h.testAndSetInside hx
  | exit t m =>
    simp only [Smartall.step, Option.ite_none_right_eq_some, Option.some.injEq] at hs
    obtain ⟨⟨he, hm⟩, rfl⟩ := hs
    exact h.resetLockWord he hm hok
  | abort t =>
    simp only [Smartall.step, Option.ite_none_right_eq_some, Option.some.injEq] at hs
    obtain ⟨-, rfl⟩ := hs
    exact h.abort t

theorem reach_inv (hr : Reach step (· = (init : Sys T M)) CommitsInOrder s) : Inv s := by
  refine hr.invariant ?_ fun s a s' h hok hs => h.step hok hs
  rintro _ rfl
  exact inv_init

end Htmsql.Smartall
