import Htmsql.HashMap.Preservation

/-!
# The hash map with one caller

A single thread never waits for a bucket. Each call goes down the list of its bucket and returns
(`sequential_returns`), and the calls determine the run, so the states between two calls depend on
the sequence of the calls only (`sequential_unique`).
-/

namespace Htmsql.HashMap

open Chain (Node Seg firstOr)
open Linearizable (Event)
open Run (Reach exec)

variable {size : Nat} {s s' : Sys Unit}

/-- A state that one thread alone can bring the map to. -/
def Sequential (size : Nat) (s : Sys Unit) : Prop :=
  Reach (step size) (· = init) (fun _ _ => True) s

/-! ## Every call returns -/

/-- The call that is in progress returns. -/
def Returns (size : Nat) (s : Sys Unit) : Prop :=
  ∃ n s', exec (step size) s (List.replicate n (.run ())) = some s' ∧ s'.pc () = .idle

theorem Returns.of_run (h : s.run size () = some s') (hr : Returns size s') : Returns size s := by
  obtain ⟨n, s'', hexec, hidle⟩ := hr
  refine ⟨n + 1, s'', ?_, hidle⟩
  rw [List.replicate_succ, exec, step, h]
  exact hexec

theorem returns_ret {r : Ret} (h : s.pc () = .ret r) : Returns size s := by
  refine .of_run (by rw [Sys.run, h]) ⟨0, _, rfl, ?_⟩
  exact pc_setPc_self _ _ _

theorem returns_unlock {v : Nat} {item : Option Ptr} {r : Ret} (h : s.pc () = .unlock v item r) :
    Returns size s := by
  refine .of_run (by rw [Sys.run, h]) ?_
  cases item with
  | none => exact returns_ret (pc_setPc_self _ _ _)
  | some p =>
    refine .of_run (by rw [Sys.run, pc_setPc_self, afterUnlock]) ?_
    exact returns_ret (pc_setPc_self _ _ _)

theorem returns_link {v : Nat} {insertItem : Ptr} {prev : Option Ptr}
    (h : s.pc () = .link v insertItem prev) : Returns size s := by
  refine .of_run (by rw [Sys.run, h]) ?_
  exact returns_unlock (pc_setPc_self _ _ _)

theorem returns_unlink {v : Nat} {item : Ptr} {prev successor : Option Ptr}
    (h : s.pc () = .unlink v prev item successor) : Returns size s := by
  refine .of_run (by rw [Sys.run, h]) ?_
  exact returns_unlock (pc_setPc_self _ _ _)

theorem access_some {p : Ptr} {n : Node Ptr Nat} (h : s.heap p = some n)
    (k : Node Ptr Nat → Sys Unit) : s.access p k = k n := by
  rw [Sys.access, h]

theorem returns_succ {v : Nat} {item : Ptr} {prev : Option Ptr} {n : Node Ptr Nat}
    (h : s.pc () = .succ v prev item) (hn : s.heap item = some n) : Returns size s := by
  refine .of_run (by rw [Sys.run, h]) ?_
  rw [access_some hn]
  exact returns_unlink (pc_setPc_self _ _ _)

theorem returns_atEnd (q : Req) (prev : Option Ptr) : Returns size (s.atEnd () prev q) := by
  cases q with
  | insert v insertItem => exact returns_link (pc_setPc_self _ _ _)
  | remove v | contains v => exact returns_unlock (pc_setPc_self _ _ _)

theorem returns_found {q : Req} {prev : Option Ptr} {item : Ptr} {n : Node Ptr Nat}
    (hn : s.heap item = some n) : Returns size (s.found () prev item q) := by
  cases q with
  | remove v => exact returns_succ (pc_setPc_self _ _ _) hn
  | insert v insertItem | contains v => exact returns_unlock (pc_setPc_self _ _ _)

theorem returns_test {q : Req} {prev : Option Ptr} {item : Ptr} {n : Node Ptr Nat}
    (h : s.pc () = .test q prev item) (hn : s.heap item = some n)
    (hnext : Returns size (s.setPc () (.next q item))) : Returns size s := by
  have hrun : s.run size () = some (if n.data = q.value then s.found () prev item q
      else s.setPc () (.next q item)) := by
    rw [Sys.run, h]
    exact congrArg some (access_some hn _)
  refine .of_run hrun ?_
  split
  · exact returns_found hn
  · exact hnext

theorem returns_next {q : Req} {item : Ptr} {n : Node Ptr Nat} (h : s.pc () = .next q item)
    (hn : s.heap item = some n) (hnext : Returns size (s.goTo () q (some item) n.successor)) :
    Returns size s := by
  refine .of_run (by rw [Sys.run, h]) ?_
  rw [access_some hn]
  exact hnext

/-- The loop goes down a finite list. -/
theorem returns_goTo {l : List (Ptr × Nat)} (q : Req) (prev : Option Ptr)
    (h : Seg s.heap l none) : Returns size (s.goTo () q prev (firstOr l none)) := by
  induction l generalizing s prev with
  | nil => exact returns_atEnd q prev
  | cons x l ih =>
    obtain ⟨item, d⟩ := x
    refine returns_test (pc_setPc_self _ _ _) h.1 ?_
    exact returns_next (pc_setPc_self _ _ _) h.1 (ih (some item) h.2)

theorem returns_head {C : Nat → List (Ptr × Nat)} {q : Req} (hs : Shape size s C)
    (h : s.pc () = .head q) : Returns size s := by
  refine .of_run (by rw [Sys.run, h]) ?_
  rw [hs.first]
  exact returns_goTo q none (hs.seg _)

theorem returns_lock {C : Nat → List (Ptr × Nat)} {q : Req} (hs : Shape size s C)
    (h : s.pc () = .lock q) (hfree : ∀ b, s.holder b = none) : Returns size s := by
  refine .of_run (by rw [Sys.run, h]; exact if_pos (hfree _)) ?_
  exact returns_head (hs.congr rfl rfl rfl rfl) (pc_setPc_self _ _ _)

/-- A bucket that the thread has not locked is not locked. -/
theorem Inv.free {C : Nat → List (Ptr × Nat)} {m : Finset Nat} (h : Inv size s C m)
    (hb : (s.pc ()).bucket size = none) (b : Nat) : s.holder b = none := by
  cases hh : s.holder b with
  | none => rfl
  | some t =>
    have := (h.holder t b).mpr hh
    rw [hb] at this
    cases this

theorem sequential_inv (h : Sequential size s) : ∃ C m, Inv size s C m := reach_inv h

theorem sequential_returns (h : Sequential size s) : Returns size s := by
  obtain ⟨C, m, hinv⟩ := sequential_inv h
  have hpos := hinv.position ()
  cases hp : s.pc () with
  | idle => exact ⟨0, s, rfl, hp⟩
  | alloc v =>
    obtain ⟨s', hrun, hp'⟩ : ∃ s', step size s (.run ()) = some s' ∧
        s'.pc () = .lock (.insert v s.allocated) :=
      ⟨_, by rw [step, Sys.run, hp], pc_setPc_self _ _ _⟩
    obtain ⟨C', m', hinv'⟩ := sequential_inv (.step h trivial hrun)
    exact .of_run hrun (returns_lock hinv'.shape hp' (hinv'.free (by rw [hp']; rfl)))
  | lock q => exact returns_lock hinv.shape hp (hinv.free (by rw [hp]; rfl))
  | head q => exact returns_head hinv.shape hp
  | test q prev item =>
    rw [hp] at hpos
    obtain ⟨l₁, d, l₂, hC, -, -⟩ := hpos
    have hseg := hinv.shape.seg (hash size q.value)
    rw [hC] at hseg
    refine returns_test hp hseg.at (returns_next (pc_setPc_self _ _ _) hseg.at ?_)
    exact returns_goTo q (some item) (Chain.seg_append.mp hseg).2.2
  | next q item =>
    rw [hp] at hpos
    obtain ⟨l₁, d, l₂, hC, -⟩ := hpos
    have hseg := hinv.shape.seg (hash size q.value)
    rw [hC] at hseg
    refine returns_next hp hseg.at ?_
    exact returns_goTo q (some item) (Chain.seg_append.mp hseg).2.2
  | link v insertItem prev => exact returns_link hp
  | succ v prev item =>
    rw [hp] at hpos
    obtain ⟨l₁, l₂, hC, -⟩ := hpos
    have hseg := hinv.shape.seg (hash size v)
    rw [hC] at hseg
    exact returns_succ hp hseg.at
  | unlink v prev item successor => exact returns_unlink hp
  | unlock v item r => exact returns_unlock hp
  | delete item r =>
    refine .of_run (by rw [Sys.run, hp]) ?_
    exact returns_ret (pc_setPc_self _ _ _)
  | ret r => exact returns_ret hp

/-! ## The calls determine the run -/

/-- The operations of a history in the order of their calls. -/
def callsOf (hist : List (Event Op Ret)) : List Op :=
  hist.filterMap fun
    | .call _ op => some op
    | .ret _ _ => none

/-- The operation that the action calls, if it is a call. -/
def Act.op? : Act Unit → Option Op
  | .call _ op => some op
  | .run _ => none

theorem setSuccessor_log (s : Sys Unit) (h : Nat) (prev e : Option Ptr) :
    (s.setSuccessor h prev e).log = s.log := by
  cases prev with
  | none => rfl
  | some p =>
    rw [Sys.setSuccessor, Sys.access]
    split <;> rfl

theorem delete_log (s : Sys Unit) (p : Ptr) : (s.delete p).log = s.log := by
  rw [Sys.delete, Sys.access]
  split <;> rfl

theorem found_hist (s : Sys Unit) (q : Req) (prev : Option Ptr) (item : Ptr) :
    (s.found () prev item q).log.hist = s.log.hist := by
  cases q <;> rfl

theorem goTo_hist (s : Sys Unit) (q : Req) (prev p : Option Ptr) :
    (s.goTo () q prev p).log.hist = s.log.hist := by
  cases p with
  | some item => rfl
  | none => cases q <;> rfl

theorem access_hist {s : Sys Unit} {p : Ptr} {k : Node Ptr Nat → Sys Unit}
    (hk : ∀ n, (k n).log.hist = s.log.hist) : (s.access p k).log.hist = s.log.hist := by
  rw [Sys.access]
  split
  · exact hk _
  · rfl

/-- Inside a call only its return is recorded. -/
theorem run_hist (h : s.run size () = some s') :
    s'.log.hist = s.log.hist ∨ ∃ id r, s'.log.hist = s.log.hist ++ [.ret id r] := by
  cases hp : s.pc () <;>
    simp only [Sys.run, hp, reduceCtorEq, Option.ite_none_right_eq_some, Option.some.injEq] at h
  case lock q =>
    obtain ⟨-, rfl⟩ := h
    exact Or.inl rfl
  all_goals subst h
  case alloc v | unlock v item r => exact Or.inl rfl
  case head q => exact Or.inl (goTo_hist _ _ _ _)
  case test q prev item =>
    refine Or.inl (access_hist fun n => ?_)
    split
    · exact found_hist _ _ _ _
    · rfl
  case next q item => exact Or.inl (access_hist fun n => goTo_hist _ _ _ _)
  case succ v prev item => exact Or.inl (access_hist fun n => rfl)
  case link v insertItem prev | unlink v prev item successor =>
    exact Or.inl (by simp only [Sys.setPc, Sys.effect, Linearizable.Log.effect, setSuccessor_log])
  case delete item r => exact Or.inl (congrArg Linearizable.Log.hist (delete_log _ _))
  case ret r => exact Or.inr ⟨_, r, rfl⟩

theorem callsOf_run (h : s.run size () = some s') : callsOf s'.log.hist = callsOf s.log.hist := by
  rcases run_hist h with hh | ⟨id, r, hh⟩ <;> simp [hh, callsOf]

theorem callsOf_step {a : Act Unit} (h : step size s a = some s') :
    callsOf s'.log.hist = callsOf s.log.hist ++ a.op?.toList := by
  cases a with
  | run t =>
    rw [callsOf_run h, Act.op?, Option.toList_none, List.append_nil]
  | call t op =>
    simp only [step, Option.ite_none_right_eq_some, Option.some.injEq] at h
    obtain ⟨-, rfl⟩ := h
    exact List.filterMap_append

theorem callsOf_exec {as : List (Act Unit)} (h : exec (step size) s as = some s') :
    callsOf s'.log.hist = callsOf s.log.hist ++ as.filterMap Act.op? := by
  induction as generalizing s with
  | nil =>
    cases h
    simp
  | cons a as ih =>
    obtain ⟨s₁, h₁, h₂⟩ := Option.bind_eq_some_iff.mp h
    rw [ih h₂, callsOf_step h₁, List.append_assoc]
    cases ha : a.op? <;> simp [ha]

theorem idle_of_call {op : Op} (h : step size s (.call () op) = some s') : s.pc () = .idle := by
  simp only [step, Option.ite_none_right_eq_some] at h
  exact h.1

theorem not_idle_of_run (h : step size s (.run ()) = some s') : s.pc () ≠ .idle := by
  intro hp
  simp [step, Sys.run, hp] at h

/-- In each state one action is possible, up to the choice of the operation. -/
theorem acts_unique {as bs : List (Act Unit)} {a b : Sys Unit} (ha : exec (step size) s as = some a)
    (hb : exec (step size) s bs = some b) (hai : a.pc () = .idle) (hbi : b.pc () = .idle)
    (hops : as.filterMap Act.op? = bs.filterMap Act.op?) : as = bs := by
  induction as generalizing s bs with
  | nil =>
    cases ha
    cases bs with
    | nil => rfl
    | cons y bs =>
      obtain ⟨s₁, h₁, -⟩ := Option.bind_eq_some_iff.mp hb
      cases y with
      | call t op => simp [Act.op?] at hops
      | run t => exact (not_idle_of_run h₁ hai).elim
  | cons x as ih =>
    obtain ⟨s₁, h₁, ha⟩ := Option.bind_eq_some_iff.mp ha
    cases bs with
    | nil =>
      cases hb
      cases x with
      | call t op => simp [Act.op?] at hops
      | run t => exact (not_idle_of_run h₁ hbi).elim
    | cons y bs =>
      obtain ⟨s₂, h₂, hb⟩ := Option.bind_eq_some_iff.mp hb
      have hxy : x = y ∧ as.filterMap Act.op? = bs.filterMap Act.op? := by
        cases x with
        | call t op =>
          cases y with
          | call t' op' => simpa [Act.op?] using hops
          | run t' => exact (not_idle_of_run h₂ (idle_of_call h₁)).elim
        | run t =>
          cases y with
          | call t' op' => exact (not_idle_of_run h₁ (idle_of_call h₂)).elim
          | run t' => exact ⟨rfl, hops⟩
      obtain ⟨rfl, hrest⟩ := hxy
      obtain rfl := Option.some.inj (h₁.symm.trans h₂)
      rw [ih ha hb hrest]

/-- The state between two calls depends on the sequence of the calls only. -/
theorem sequential_unique (h : Sequential size s) (h' : Sequential size s') (hi : s.pc () = .idle)
    (hi' : s'.pc () = .idle) (hops : callsOf s.log.hist = callsOf s'.log.hist) : s = s' := by
  obtain ⟨_, rfl, as, ha⟩ := h.exists_exec
  obtain ⟨_, rfl, bs, hb⟩ := h'.exists_exec
  rw [callsOf_exec ha, callsOf_exec hb] at hops
  obtain rfl := acts_unique ha hb hi hi' (List.append_cancel_left hops)
  exact Option.some.inj (ha.symm.trans hb)

end Htmsql.HashMap
