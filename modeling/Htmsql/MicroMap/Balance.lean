import Htmsql.MicroMap.Machine

/-!
# Which calls are transactions of their own

`insert` ends its transaction on every path. `remove` does not when it comes to the end of the list
without having found the value: it returns 0 inside of its transaction, which then goes on through
all later calls, until an abort undoes them. Every run in which that does not happen, and in which
the values are in the range of the hash, is balanced, and the first step that is of another kind
leads to a state that is not.
-/

namespace Htmsql.MicroMap

open HashIndex
open Run

/-- The call under way comes to its end if it is not aborted. -/
def Ends (size : ℤ) (s : State) : Prop :=
  ∃ k s', exec (step size) s (List.replicate k .run) = some s' ∧ s'.pc = .idle ∧
    s'.done.length = s.done.length + 1

/-- Every call returns or throws, outside of any transaction, and does what it should; nothing else
changes the map. -/
structure Balanced (size : ℤ) (m₀ : Memory) (ops : List Op) (s : State) : Prop where
  outside : (s.pc = .idle ∨ ∃ op r, s.pc = .ret op r) → s.depth = 0
  right : ∀ c ∈ s.done, c.Right size
  connected : Connected m₀ s.done (if s.pc = .idle then s.mem else s.before)
  order : s.done.map Call.op ++ s.todo = ops
  ends : s.pc ≠ .idle → Ends size s

/-- The value of a call is not negative, or a multiple of the size, and `remove` does not come to
the end of the list, unless an abort takes it away from there. -/
def Meets (size : ℤ) (s : State) (a : Act) : Prop :=
  match s.pc, s.todo with
  | .idle, op :: _ => 0 ≤ op.value ∨ size ∣ op.value
  | .search _ _ none, _ => a = .abort
  | _, _ => True

instance (size : ℤ) (s : State) (a : Act) : Decidable (Meets size s a) := by
  unfold Meets
  split <;> infer_instance

variable {size : ℤ} {m₀ m m' : Memory} {ops : List Op} {s s' : State} {a : Act} {op : Op}
  {C : ℤ → List (Ptr × ℤ)} {n : ℕ} {pc pc' : Pc} {r : Ret}

theorem Meets.inRange (hsize : 0 < size) (h : Meets size s a) : s.InRange size := by
  intro hpc op hop
  cases htodo : s.todo with
  | nil =>
    rw [htodo] at hop
    cases hop
  | cons op' rest =>
    rw [htodo] at hop
    cases hop
    simp only [Meets, hpc, htodo] at h
    exact (inTable_hash_iff hsize).mpr h

/-! ## Every call ends -/

theorem Ends.of_run (hs : run size s = some s') (hdone : s'.done = s.done) (h : Ends size s') :
    Ends size s := by
  obtain ⟨k, s'', hk, hpc, hlen⟩ := h
  refine ⟨k + 1, s'', ?_, hpc, hdone ▸ hlen⟩
  rw [List.replicate_succ, exec]
  change (run size s).bind _ = _
  rw [hs]
  exact hk

theorem ends_ret (hpc : s.pc = .ret op r) : Ends size s := by
  refine ⟨1, { s with
    pc := .idle, todo := s.todo.tail, done := s.done ++ [⟨op, r, s.before, s.mem⟩] }, ?_, rfl,
    List.length_append⟩
  simp only [List.replicate_one, exec, step, run, hpc, Option.bind_some]

theorem ends_reread {p : Ptr} (hpc : s.pc = .reread op p)
    (hh : InTable size (hash size op.value)) : Ends size s := by
  have hrun : run size s =
      some { s with pc := .ret op (.item (s.mem.nodes.head (hash size op.value))) } := by
    simp only [run, hpc, Memory.head_some hh, Option.map_some]
  exact .of_run hrun rfl (ends_ret rfl)

theorem ends_xend {after : After} (hpc : s.pc = .xend op after) (hdepth : 0 < s.depth)
    (hh : InTable size (hash size op.value)) : Ends size s := by
  obtain ⟨mem, pc, todo, done, before, depth, saved⟩ := s
  cases hpc
  cases depth with
  | zero => exact absurd hdepth (lt_irrefl 0)
  | succ depth =>
    refine .of_run rfl rfl ?_
    cases after with
    | value r => exact ends_ret rfl
    | reread p => exact ends_reread rfl hh

theorem ends_finished {m₁ : Memory} (h : Finished size m₁ C op s.mem s.pc) (hdepth : 0 < s.depth)
    (hh : InTable size (hash size op.value)) : Ends size s := by
  obtain ⟨mem, pc, todo, done, before, depth, saved⟩ := s
  have h' : Finished size m₁ C op mem pc := h
  cases h' with
  | absent _ => exact ends_ret rfl
  | newHead _ _ | found _ | linked _ _ | removed _ _ => exact ends_xend rfl hdepth hh

theorem ends_body (h : At size C op n s.pc) (hm : Holds size s.mem C) (hdepth : 0 < s.depth)
    (hh : InTable size (hash size op.value)) : Ends size s := by
  induction n using Nat.strong_induction_on generalizing s with
  | _ n ih =>
    obtain ⟨m', pc', hstep, hend⟩ := h.progress hm hh
    have hrun : run size s = some { s with mem := m', pc := pc' } := by
      rw [h.run_eq, hstep]
      rfl
    refine .of_run hrun rfl ?_
    rcases hend with ⟨rfl, n', hlt, h'⟩ | hfinished
    · exact ih n' hlt h' hm hdepth
    · exact ends_finished hfinished hdepth hh

theorem Inv.ends (h : Inv size m₀ ops s) (hpc : s.pc ≠ .idle) : Ends size s := by
  obtain ⟨mem, pc, todo, done, before, depth, saved⟩ := s
  obtain ⟨hcurrent, hdeep, -, -⟩ := h
  cases hcurrent with
  | idle hidle _ => exact absurd hidle hpc
  | call hcalled hbefore hgoing =>
    rename_i op C
    have hgoing' : Going size before C op mem pc := hgoing
    cases hgoing' with
    | xbegin =>
      exact .of_run rfl rfl (ends_body (.test le_rfl) hbefore (Nat.succ_pos _) hcalled.inTable)
    | body hat => exact ends_body hat hbefore (hdeep hat.inside) hcalled.inTable
    | finished _ => exact ends_xend rfl (hdeep rfl) hcalled.inTable
    | reread _ => exact ends_reread rfl hcalled.inTable
    | ret _ _ => exact ends_ret rfl

/-! ## The depth -/

/-- A call has one transaction, and between two calls there is none. -/
def Shallow (s : State) : Prop := s.depth = if s.pc.inside then 1 else 0

/-- There is one step that leaves a transaction behind without its end. -/
theorem inside_of_bodyStep (h : bodyStep size m pc = some (m', pc')) :
    pc'.inside = true ∨ ∃ v prev, pc = .search v prev none := by
  unfold bodyStep at h
  split at h
  all_goals simp only [Option.bind_eq_bind, Option.bind_eq_some_iff, Option.pure_def,
    Option.some.injEq, Prod.mk.injEq, reduceCtorEq] at h
  all_goals grind [Pc.inside, Option.bind_eq_some_iff]

theorem Shallow.run (h : Shallow s) (hinv : Inv size m₀ ops s) (hmeets : Meets size s .run)
    (hs : run size s = some s') : Shallow s' := by
  obtain ⟨mem, pc, todo, done, before, depth, saved⟩ := s
  obtain ⟨hcurrent, -, -, -⟩ := hinv
  cases hcurrent with
  | idle hpc hready =>
    cases hpc
    cases todo with
    | nil => cases hs
    | cons op rest =>
      cases hs
      exact h
  | call hcalled hbefore hgoing =>
    rename_i op C
    have hgoing' : Going size before C op mem pc := hgoing
    cases hgoing' with
    | xbegin =>
      cases hs
      have hdepth : depth = 0 := h
      show depth + 1 = 1
      rw [hdepth]
    | body hat =>
      have hdepth : depth = 1 := h.trans (if_pos hat.inside)
      rw [At.run_eq (s := ⟨_, _, todo, done, _, depth, saved⟩) hat] at hs
      obtain ⟨⟨m', pc'⟩, hstep, rfl⟩ := Option.map_eq_some_iff.mp hs
      rcases inside_of_bodyStep hstep with hinside | ⟨v, prev, hpc⟩
      · exact hdepth.trans (if_pos hinside).symm
      · obtain rfl : pc = .search v prev none := hpc
        cases hmeets
    | finished hfinished =>
      obtain rfl : depth = 1 := h
      cases hs
      rename_i after
      cases after <;> rfl
    | reread hfinished =>
      obtain ⟨item, -, rfl⟩ := Option.map_eq_some_iff.mp hs
      exact h
    | ret hright hm =>
      cases hs
      exact h

theorem Shallow.step (h : Shallow s) (hinv : Inv size m₀ ops s) (hmeets : Meets size s a)
    (hs : step size s a = some s') : Shallow s' := by
  cases a with
  | run => exact h.run hinv hmeets hs
  | abort =>
    obtain ⟨sv, -, rfl⟩ := Option.map_eq_some_iff.mp hs
    rfl

/-! ## Runs -/

theorem Inv.balanced (h : Inv size m₀ ops s) (hshallow : Shallow s) :
    Balanced size m₀ ops s := by
  have houtside : (s.pc = .idle ∨ ∃ op r, s.pc = .ret op r) → s.depth = 0 := by
    rintro (hpc | ⟨op, r, hpc⟩) <;> rw [hshallow, hpc] <;> rfl
  cases h.current with
  | idle hpc hready =>
    refine ⟨houtside, hready.right, ?_, hready.order, fun hne => absurd hpc hne⟩
    rw [if_pos hpc]
    exact hready.connected
  | call hcalled hbefore hgoing =>
    have hne := hgoing.ne_idle
    refine ⟨houtside, hcalled.ready.right, ?_, hcalled.ready.order, h.ends⟩
    rw [if_neg hne]
    exact hcalled.ready.connected

theorem reach_inv (hsize : 0 < size) (hm₀ : Holds size m₀ C)
    (h : Reach (step size) (· = init m₀ ops) (Meets size) s) :
    Inv size m₀ ops s ∧ Shallow s := by
  refine h.invariant (I := fun s => Inv size m₀ ops s ∧ Shallow s) ?_ ?_
  · rintro s rfl
    exact ⟨inv_init hm₀ ops, rfl⟩
  · rintro s a s' ⟨hinv, hshallow⟩ hmeets hs
    exact ⟨hinv.step (hmeets.inRange hsize) hs, hshallow.step hinv hmeets hs⟩

/-- A call outside of the array does not end. -/
theorem not_ends_outside (hpc : s.pc = .xbegin op) (hh : ¬ InTable size (hash size op.value)) :
    ¬ Ends size s := by
  rintro ⟨k, s', hk, hidle, -⟩
  have hbegin : ∃ s₁, run size s = some s₁ ∧ s₁.pc = .test op := by
    simp only [run, hpc]
    exact ⟨_, rfl, rfl⟩
  obtain ⟨s₁, hs₁, hpc₁⟩ := hbegin
  have hstuck : run size s₁ = none := run_outside hpc₁ hh
  cases k with
  | zero =>
    cases hk
    rw [hpc] at hidle
    cases hidle
  | succ k =>
    change (run size s).bind _ = _ at hk
    rw [hs₁] at hk
    cases k with
    | zero =>
      cases hk
      rw [hpc₁] at hidle
      cases hidle
    | succ k =>
      change (run size s₁).bind _ = _ at hk
      rw [hstuck] at hk
      cases hk

/-- A step that does not meet the condition leads out of balance. -/
theorem not_balanced_of_not_meets (hsize : 0 < size) (hinv : Inv size m₀ ops s)
    (hshallow : Shallow s) (hmeets : ¬ Meets size s a) (hs : step size s a = some s') :
    ¬ Balanced size m₀ ops s' := by
  intro hbalanced
  obtain ⟨mem, pc, todo, done, before, depth, saved⟩ := s
  cases pc with
  | idle =>
    cases todo with
    | nil => exact hmeets trivial
    | cons op rest =>
      have hh : ¬ InTable size (hash size op.value) := fun hh =>
        hmeets ((inTable_hash_iff hsize).mp hh)
      cases a with
      | run =>
        cases hs
        exact not_ends_outside rfl hh (hbalanced.ends nofun)
      | abort =>
        have hdepth : depth = 0 := hshallow
        have hnone : saved = none := hinv.outermost.mpr hdepth
        subst hnone
        cases hs
  | search v prev item =>
    cases item with
    | some item => exact hmeets trivial
    | none =>
      cases a with
      | abort => exact hmeets rfl
      | run =>
        have hdepth : depth = 1 := hshallow
        cases hs
        have hzero : depth = 0 := hbalanced.outside (Or.inr ⟨_, _, rfl⟩)
        rw [hzero] at hdepth
        cases hdepth
  | _ => exact hmeets trivial

/-- `insert` and `remove` are balanced and atomic in every run whose steps meet the condition, and
no longer after a step that does not. -/
theorem calls_balanced_iff (hsize : 0 < size) (hm₀ : ∃ C, Holds size m₀ C)
    (h : Reach (step size) (· = init m₀ ops) (Meets size) s) :
    Balanced size m₀ ops s ∧
      ∀ a s', step size s a = some s' → (Balanced size m₀ ops s' ↔ Meets size s a) := by
  obtain ⟨C, hm₀⟩ := hm₀
  obtain ⟨hinv, hshallow⟩ := reach_inv hsize hm₀ h
  refine ⟨hinv.balanced hshallow, fun a s' hs => ⟨fun hbalanced => ?_, fun hmeets => ?_⟩⟩
  · by_contra hmeets
    exact not_balanced_of_not_meets hsize hinv hshallow hmeets hs hbalanced
  · exact (hinv.step (hmeets.inRange hsize) hs).balanced (hshallow.step hinv hmeets hs)

/-- A value is inserted, the insertion of another is aborted and made again, and one is removed. -/
theorem calls_balanced_iff_four :
    ∃ s, Reach (step 10) (· = init Memory.empty [.insert 5, .insert 15, .insert 15, .remove 5])
        (Meets 10) s ∧ s.pc = .idle ∧ s.todo = [] ∧
      Balanced 10 Memory.empty [.insert 5, .insert 15, .insert 15, .remove 5] s ∧
      ∀ a s', step 10 s a = some s' →
        (Balanced 10 Memory.empty [.insert 5, .insert 15, .insert 15, .remove 5] s' ↔
          Meets 10 s a) := by
  obtain ⟨s, hs, hend⟩ := exec_result (guarded (step 10) (Meets 10))
    (init Memory.empty [.insert 5, .insert 15, .insert 15, .remove 5])
    (List.replicate 11 .run ++ [.abort] ++ List.replicate 17 .run) (fun s => (s.pc, s.todo))
    (.idle, []) (by decide)
  have hreach : Reach (step 10)
      (· = init Memory.empty [.insert 5, .insert 15, .insert 15, .remove 5]) (Meets 10) s :=
    Reach.exec_guarded (.init rfl) hs
  obtain ⟨hpc, htodo⟩ := Prod.mk.inj hend
  exact ⟨s, hreach, hpc, htodo, calls_balanced_iff (by decide) ⟨_, holds_empty 10⟩ hreach⟩

/-- `remove` of a value that is not there returns inside of its transaction. Then 7 is inserted, and
the call returns; but an abort undoes both, and 7 is gone. -/
theorem remove_leaves_transaction :
    ∃ s s', Reach (step 10) (· = init Memory.empty [.remove 5, .insert 7]) (fun _ _ => True) s ∧
      s.pc = .idle ∧ s.done.map Call.ret = [.int 0, .item (some 0)] ∧ s.depth = 1 ∧
      s.mem.nodes.head 7 = some 0 ∧ step 10 s .abort = some s' ∧ s'.mem.nodes.head 7 = none ∧
      ¬ Balanced 10 Memory.empty [.remove 5, .insert 7] s := by
  obtain ⟨s, hs, hend⟩ := exec_result (step 10) (init Memory.empty [.remove 5, .insert 7])
    (List.replicate 12 .run)
    (fun s => (s.pc, s.done.map Call.ret, s.depth, s.mem.nodes.head 7))
    (.idle, [.int 0, .item (some 0)], 1, some 0) (by decide)
  simp only [Prod.mk.injEq] at hend
  obtain ⟨hpc, hdone, hdepth, hhead⟩ := hend
  have habort : ((exec (step 10) (init Memory.empty [.remove 5, .insert 7])
      (List.replicate 12 .run)).bind fun s => (abort s).map fun s' => s'.mem.nodes.head 7) =
      some none := by
    decide
  rw [hs, Option.bind_some] at habort
  obtain ⟨s', hs', hhead'⟩ := Option.map_eq_some_iff.mp habort
  refine ⟨s, s', Reach.exec (.init rfl) hs, hpc, hdone, hdepth, hhead, hs', hhead',
    fun hbalanced => ?_⟩
  rw [hbalanced.outside (Or.inl hpc)] at hdepth
  cases hdepth

end Htmsql.MicroMap
