import Htmsql.HashMapRtm.Attempt

/-!
# The hash map without locks agrees with the one with locks

Whatever is aborted, between two calls the map is what `HashMap` is after the same calls, and a call
that has failed fewer than `MAX_RETRIES` times returns. An aborted attempt leaves nothing behind but
its failure (`abort_restores`).
-/

namespace Htmsql.HashMapRtm

open HashMap (Ptr Op Ret Req Sequential callsOf)
open Run (Reach exec exec_append exec_result)

variable {size : Nat} {s s' : State}

/-! ## The invariant over runs -/

theorem inv_init : Inv size init := by
  have hg : Good size init := by
    refine ⟨⟨HashMap.init, .init rfl, ?_⟩, trivial, List.Perm.refl [], trivial⟩
    exact ⟨rfl, rfl, rfl, rfl, rfl, rfl, rfl, fun h => (h rfl).elim⟩
  refine ⟨fun _ => hg, ?_, rfl, Nat.zero_le _, ?_, rfl⟩ <;> simp [init, maxRetries]

theorem Inv.call (h : Inv size s) {op : Op} (hs : step size s (.call op) = some s') :
    Inv size s' := by
  simp only [step, Option.ite_none_right_eq_some, Option.some.injEq] at hs
  obtain ⟨hp, rfl⟩ := hs
  have he : s.pc ≠ .exit := by simp [hp]
  obtain ⟨⟨r, hr, hsim⟩, -, hnodes, -⟩ := h.good he
  have hidle : r.pc () = .idle := by rw [hsim.pc, hp]; rfl
  have hstep : HashMap.step size r (.call () op) = some _ := if_pos hidle
  have hentry : (entry op).inTransaction = false ∧ entry op ≠ .exit ∧ (entry op).Fresh ∧
      (entry op).insertItem = none ∧ (entry op).Result s.mem.heap := by
    cases op <;> exact ⟨rfl, by simp [entry], by simp [entry, Pc.Fresh], rfl, trivial⟩
  obtain ⟨htx, hexit, hfresh, hins, hresult⟩ := hentry
  have hnodes' : State.Nodes (({ s with
      failures := 0
      hist := s.hist ++ [.call s.calls op]
      calls := s.calls + 1 } : State).goto (entry op)) := by
    rw [State.Nodes, hp] at hnodes
    change (s.mem.linked ++ s.discarded ++ (entry op).insertItem.toList).Perm (List.range s.allocated)
    rw [hins]
    exact hnodes
  refine ⟨fun _ => ⟨⟨_, hr.step trivial hstep, hsim.call op⟩, hfresh, hnodes', hresult⟩,
    fun m p hm => ?_, ?_, Nat.zero_le _, ?_, h.fault⟩
  · rw [show _ = none from h.saved_none (by rw [hp]; rfl)] at hm
    cases hm
  · change s.saved.isSome = (entry op).inTransaction
    rw [h.saved_none (by rw [hp]; rfl), htx]
    rfl
  · exact ⟨fun he => (hexit he).elim, fun hm => by simp [State.goto, maxRetries] at hm⟩

theorem Inv.abort (h : Inv size s) (hs : s.abort = some s') : Inv size s' := by
  -- whatever the attempt has written, it goes back to a good state before `_xbegin`
  obtain ⟨m, q, hgood, hlt, rfl⟩ : ∃ m q, Good size ((s.setMem m).goto (.retry q none)) ∧
      s.failures < maxRetries ∧ s' = s.fail m (.retry q none) := by
    have hlt : s.pc ≠ .exit → s.failures < maxRetries := fun he =>
      lt_of_le_of_ne h.failures fun hm => he (h.exit.mpr hm)
    unfold State.abort at hs
    split at hs
    · rename_i m p hsaved
      cases hs
      obtain ⟨⟨q, rfl⟩, hgood⟩ := h.attempt m p hsaved
      refine ⟨m, q, hgood, hlt fun he => ?_, rfl⟩
      have := h.transaction
      rw [hsaved, he] at this
      cases this
    · rename_i q prev hsaved hp
      cases hs
      have he : s.pc ≠ .exit := by simp [hp]
      have hfresh := (h.good he).fresh
      rw [hp] at hfresh
      obtain rfl : prev = none := hfresh
      exact ⟨s.mem, q, (h.good he).congr rfl rfl rfl hp.symm rfl rfl rfl, hlt he, rfl⟩
    · cases hs
  unfold State.fail
  by_cases hmax : s.failures + 1 < maxRetries
  · simp only [if_pos hmax]
    refine ⟨fun _ => hgood.congr rfl rfl rfl rfl rfl rfl rfl, by simp, rfl, hlt, ?_, h.fault⟩
    simp only [reduceCtorEq, false_iff]
    omega
  · simp only [if_neg hmax]
    refine ⟨fun he => (he rfl).elim, by simp, rfl, hlt, ?_, h.fault⟩
    simp only [true_iff]
    omega

theorem Inv.step {a : Act} (h : Inv size s) (hs : step size s a = some s') : Inv size s' := by
  cases a with
  | call op => exact h.call hs
  | run => exact h.run hs
  | abort => exact h.abort hs

theorem reach_inv (h : Reach (step size) (· = init) (fun _ _ => True) s) : Inv size s := by
  refine h.invariant ?_ fun s a s' hi _ hs => hi.step hs
  rintro _ rfl
  exact inv_init

/-! ## A call returns -/

theorem run_failures (hs : s.run size = some s') : s'.failures = s.failures := by
  cases hp : s.pc <;> simp only [State.run, hp, reduceCtorEq, Option.some.injEq] at hs <;> subst hs
  case alloc v | retry q prev | xend q item r | ret q r => rfl
  case head q prev => exact (frame_goTo s _ _ _).failures
  case test q prev item =>
    refine (Frame.access fun n => ?_ : Frame s _).failures
    split
    · exact frame_found s prev item q
    · exact ⟨rfl, rfl, rfl, rfl, rfl, rfl⟩
  case next q item => exact (Frame.access fun n => frame_goTo s _ _ _ : Frame s _).failures
  case link v insertItem prev => exact (frame_setSuccessor s _ prev _).failures
  case succ v prev item =>
    refine (Frame.access fun n => ?_ : Frame s _).failures
    exact ⟨rfl, rfl, rfl, rfl, rfl, rfl⟩
  case unlink v prev item successor => exact (frame_setSuccessor s _ prev _).failures
  case delete q item r =>
    cases q <;> exact (frame_delete s item).failures

/-- Without a further abort the call returns. -/
theorem Inv.returns (h : Inv size s) (he : s.pc ≠ .exit) :
    ∃ n s', exec (HashMapRtm.step size) s (List.replicate n .run) = some s' ∧ s'.pc = .idle ∧
      s'.failures = s.failures := by
  obtain ⟨⟨r, hr, hsim⟩, -, -, -⟩ := h.good he
  obtain ⟨n, r', hexec, hidle⟩ := HashMap.sequential_returns hr
  induction n generalizing s r with
  | zero =>
    cases hexec
    refine ⟨0, s, rfl, ?_, rfl⟩
    rw [hsim.pc] at hidle
    cases hp : s.pc <;> rw [hp] at hidle he
    case exit => exact (he rfl).elim
    all_goals cases hidle
  | succ n ih =>
    obtain ⟨r₁, hr₁, hexec⟩ := Option.bind_eq_some_iff.mp hexec
    have hi : s.pc ≠ .idle := by
      intro hp
      have hri : r.pc () = .idle := by rw [hsim.pc, hp]; rfl
      exact HashMap.not_idle_of_run hr₁ hri
    obtain ⟨s₁, r₂, hs₁, hr₂, hsim₁⟩ := hsim.run hr (h.good he).fresh hi he
    obtain rfl : r₂ = r₁ := Option.some.inj (hr₂.symm.trans hr₁)
    have hinv₁ := h.run hs₁
    have hf₁ := run_failures hs₁
    have he₁ : s₁.pc ≠ .exit := fun hp => he (h.exit.mpr (hf₁ ▸ hinv₁.exit.mp hp))
    obtain ⟨k, s', hk, hp', hf⟩ := ih hinv₁ he₁ r₂ (hr.step trivial hr₁) hsim₁ hexec
    refine ⟨k + 1, s', ?_, hp', hf.trans hf₁⟩
    rw [List.replicate_succ, exec, HashMapRtm.step, hs₁]
    exact hk

/-! ## An aborted attempt -/

/-- After `_xend`. -/
def Pc.returning : Pc → Bool
  | .delete _ _ _ | .ret _ _ | .idle => true
  | _ => false

/-- A step inside the transaction, or the one that ends it. -/
theorem run_inside (hs : s.run size = some s') (ht : s.pc.inTransaction = true) :
    Frame s s' ∨ s'.saved = none ∧ s'.pc.returning = true := by
  cases hp : s.pc <;> rw [hp] at ht <;>
    simp only [State.run, hp, reduceCtorEq, Option.some.injEq] at hs <;>
    try cases ht
  all_goals subst hs
  case head q prev => exact Or.inl (frame_goTo s _ _ _)
  case test q prev item =>
    refine Or.inl (Frame.access fun n => ?_)
    split
    · exact frame_found s prev item q
    · exact ⟨rfl, rfl, rfl, rfl, rfl, rfl⟩
  case next q item => exact Or.inl (Frame.access fun n => frame_goTo s _ _ _)
  case link v insertItem prev =>
    have hf := frame_setSuccessor s (HashMap.hash size v) prev (some insertItem)
    exact Or.inl ⟨hf.allocated, hf.failures, hf.saved, hf.discarded, hf.hist, hf.calls⟩
  case succ v prev item =>
    exact Or.inl (Frame.access fun n => ⟨rfl, rfl, rfl, rfl, rfl, rfl⟩)
  case unlink v prev item successor =>
    have hf := frame_setSuccessor s (HashMap.hash size v) prev successor
    exact Or.inl ⟨hf.allocated, hf.failures, hf.saved, hf.discarded, hf.hist, hf.calls⟩
  case xend q item r =>
    refine Or.inr ⟨rfl, ?_⟩
    cases item <;> rfl

theorem run_returning (h : Inv size s) (hs : s.run size = some s') (hr : s.pc.returning = true) :
    s'.saved = none ∧ s'.pc.returning = true := by
  have hsaved : s.saved = none := by
    refine h.saved_none ?_
    cases hp : s.pc <;> rw [hp] at hr <;> first | rfl | cases hr
  cases hp : s.pc <;> rw [hp] at hr <;> try cases hr
  all_goals simp only [State.run, hp, reduceCtorEq, Option.some.injEq] at hs
  all_goals subst hs
  case delete q item r =>
    refine ⟨?_, rfl⟩
    cases q <;> exact (frame_delete s item).saved.trans hsaved
  case ret q r => exact ⟨hsaved, rfl⟩

/-- What has become of the attempt that began in `s`: it is under way, or it is over. -/
theorem exec_attempt (h : Inv size s) {q : Req} {prev : Option Ptr} (hp : s.pc = .retry q prev)
    {n : Nat} {s₁ : State} (hs : exec (step size) s (List.replicate n .run) = some s₁) :
    Inv size s₁ ∧ (s₁ = s ∨
      (s₁.saved = some (s.mem, s.pc) ∧ Frame { s with saved := s₁.saved } s₁) ∨
      s₁.saved = none ∧ s₁.pc.returning = true) := by
  induction n generalizing s₁ with
  | zero =>
    cases hs
    exact ⟨h, Or.inl rfl⟩
  | succ n ih =>
    rw [List.replicate_succ', exec_append, Option.bind_eq_some_iff] at hs
    obtain ⟨s₀, hs₀, hs⟩ := hs
    obtain ⟨s₂, hrun, hs⟩ := Option.bind_eq_some_iff.mp hs
    cases hs
    obtain ⟨h₀, hcases⟩ := ih hs₀
    refine ⟨h₀.run hrun, Or.inr ?_⟩
    rcases hcases with rfl | ⟨hsaved, hf⟩ | ⟨hsaved, hret⟩
    · have hrun' : s₀.run size = some s₁ := hrun
      simp only [State.run, hp, Option.some.injEq] at hrun'
      subst hrun'
      refine Or.inl ⟨by rw [hp]; rfl, rfl, rfl, rfl, rfl, rfl, rfl⟩
    · have ht : s₀.pc.inTransaction = true := by
        rw [← h₀.transaction, hsaved]
        rfl
      rcases run_inside hrun ht with hf' | hover
      · refine Or.inl ⟨hf'.saved.trans hsaved, ?_⟩
        exact ⟨hf'.allocated.trans hf.allocated, hf'.failures.trans hf.failures, rfl,
          hf'.discarded.trans hf.discarded, hf'.hist.trans hf.hist, hf'.calls.trans hf.calls⟩
      · exact Or.inr hover
    · exact Or.inr (run_returning h₀ hrun hret)

/-- An aborted attempt changes nothing but the failures of its call. -/
theorem abort_restores (h : Inv size s) {q : Req} {prev : Option Ptr} (hp : s.pc = .retry q prev)
    {n : Nat} {s₁ s₂ : State} (hs : exec (step size) s (List.replicate n .run) = some s₁)
    (ha : step size s₁ .abort = some s₂) :
    s₂ = { s with
      failures := s.failures + 1
      pc := if s.failures + 1 < maxRetries then s.pc else .exit } := by
  have hnone : s.saved = none := h.saved_none (by rw [hp]; rfl)
  obtain ⟨h₁, hcases⟩ := exec_attempt h hp hs
  have hfault : s₁.fault = s.fault := h₁.fault.trans h.fault.symm
  simp only [step, State.abort] at ha
  rcases hcases with rfl | ⟨hsaved, hf⟩ | ⟨hsaved, hret⟩
  · simp only [hnone, hp, Option.some.injEq] at ha
    subst ha
    simp only [State.fail, hp, hnone]
  · simp only [hsaved, Option.some.injEq] at ha
    subst ha
    simp only [State.fail, hf.allocated, hf.failures, hf.discarded, hf.hist, hf.calls, hfault, hnone]
  · exfalso
    rw [hsaved] at ha
    cases hp₁ : s₁.pc <;> rw [hp₁] at ha hret <;>
      first | (cases hret; done) | cases ha

/-! ## Agreement -/

/-- Between two calls the maps are the same, node for node, and so are all results so far. -/
structure Agrees (s : State) (r : HashMap.Sys Unit) : Prop where
  idle : r.pc () = .idle
  hist : r.log.hist = s.hist
  heap : r.heap = s.mem.heap
  item : r.item = s.mem.item

theorem Sim.agrees {r : HashMap.Sys Unit} (h : Sim s r) (hp : s.pc = .idle) : Agrees s r :=
  ⟨by rw [h.pc, hp]; rfl, h.hist, h.heap, h.item⟩

/-- A call returns unless it fails `MAX_RETRIES` times. Between two calls the map agrees with any
`HashMap` after the same calls, and there is one. What `insert` returns has the value; each
allocated node has been linked or been deleted by `insert`, once; an aborted attempt changes
nothing but the failures of its call. -/
theorem hashMapRtm_agrees (h : Reach (step size) (· = init) (fun _ _ => True) s) :
    (s.pc = .exit ↔ s.failures = maxRetries) ∧
      (s.pc ≠ .exit → ∃ n s', exec (step size) s (List.replicate n .run) = some s' ∧
        s'.pc = .idle ∧ s'.failures = s.failures) ∧
      (s.pc = .idle → (∃ r, Sequential size r ∧ Agrees s r) ∧
        (∀ r, Sequential size r → r.pc () = .idle → callsOf r.log.hist = callsOf s.hist →
          Agrees s r) ∧
        (s.mem.linked ++ s.discarded).Perm (List.range s.allocated)) ∧
      (∀ v i p, s.pc = .ret (.insert v i) (.item p) → ∃ succ, s.mem.heap p = some ⟨v, succ⟩) ∧
      s.fault = false ∧
      ∀ q prev n s₁ s₂, s.pc = .retry q prev →
        exec (step size) s (List.replicate n .run) = some s₁ → step size s₁ .abort = some s₂ →
          s₂ = { s with
            failures := s.failures + 1
            pc := if s.failures + 1 < maxRetries then s.pc else .exit } := by
  have hinv := reach_inv h
  refine ⟨hinv.exit, hinv.returns, fun hp => ?_, fun v i p hp => ?_, hinv.fault,
    fun q prev n s₁ s₂ hp hs ha => abort_restores hinv hp hs ha⟩
  · obtain ⟨⟨r, hr, hsim⟩, -, hnodes, -⟩ := hinv.good (by simp [hp])
    have hag := hsim.agrees hp
    refine ⟨⟨r, hr, hag⟩, fun r' hr' hp' hops => ?_, ?_⟩
    · have hops' : callsOf r'.log.hist = callsOf r.log.hist := by rw [hops, hag.hist]
      rw [HashMap.sequential_unique hr' hr hp' hag.idle hops']
      exact hag
    · simpa [State.Nodes, hp, Pc.insertItem] using hnodes
  · have hresult := (hinv.good (by simp [hp])).result
    rw [hp] at hresult
    exact hresult

/-- Two values in one bucket; an `insert` is aborted in the middle of the list, an `insert` finds its
value there, and a `remove` is aborted behind the first item. -/
def abortedCalls : List Act :=
  [.call (.insert 1), .run, .run, .run, .run, .run, .run,
    .call (.insert 3), .run, .run, .run, .run, .abort, .run, .run, .run, .run, .run, .run, .run,
    .call (.insert 1), .run, .run, .run, .run, .run, .run, .run,
    .call (.remove 3), .run, .run, .run, .run, .abort, .abort, .run, .run, .run, .run, .run, .run,
    .run, .run, .run, .run]

theorem hashMapRtm_agrees_abortedCalls :
    ∃ s, exec (step 2) init abortedCalls = some s ∧
      s.hist = [.call 0 (.insert 1), .ret 0 (.item 0), .call 1 (.insert 3), .ret 1 (.item 1),
        .call 2 (.insert 1), .ret 2 (.item 0), .call 3 (.remove 3), .ret 3 (.int 1)] ∧
      (∃ r, Sequential 2 r ∧ Agrees s r) ∧
      (s.mem.linked ++ s.discarded).Perm (List.range s.allocated) := by
  obtain ⟨s, hs, hres⟩ := exec_result (step 2) init abortedCalls (fun s => (s.pc, s.hist))
    (.idle, [.call 0 (.insert 1), .ret 0 (.item 0), .call 1 (.insert 3), .ret 1 (.item 1),
      .call 2 (.insert 1), .ret 2 (.item 0), .call 3 (.remove 3), .ret 3 (.int 1)]) (by decide)
  obtain ⟨hp, hh⟩ := Prod.mk.inj hres
  obtain ⟨-, -, hidle, -⟩ := hashMapRtm_agrees (.exec (.init rfl) hs)
  obtain ⟨hag, -, hperm⟩ := hidle hp
  exact ⟨s, hs, hh, hag, hperm⟩

end Htmsql.HashMapRtm
