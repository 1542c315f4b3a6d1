import Htmsql.Bank.Generators
import Mathlib.Logic.Function.Basic

/-!
# The numbers that `run_object` and `run_mix_rtm` draw

The loops of the workers, as far as they call `random_generator`; what they do with the numbers is
one step here. The state of the generator is shared between the workers without a lock. A call
loads it and stores the new state later, so that the stores of other calls in between are lost.

Each result is logged with the limit of its call. What a worker holds of its operation is in the
log, and the limits that the log keeps to are kept by the operations. The generator is not set up
again between the rounds of the benchmark: a round starts in the state that the rounds before it
have left, with other probabilities perhaps.
-/

namespace Htmsql.Bank.Random

open SignedInt Util
open Run (Reach)

/-- The numbers of an operation. -/
inductive Op where
  | transfer (a₁ a₂ money : ℤ)
  | read (a : ℤ)
  deriving DecidableEq, Repr

/-- Where a worker is. -/
inductive Pc where
  /-- before `rnd_op` -/
  | loop
  /-- before `rnd_lock`, in `run_mix_rtm` only -/
  | lock (rndOp : ℤ)
  /-- in a transfer, before `a1` -/
  | first
  /-- before `a2` -/
  | second (a₁ : ℤ)
  /-- before `money` -/
  | money (a₁ a₂ : ℤ)
  /-- in a read, before `a` -/
  | read
  /-- before the operation and `ops++` -/
  | operation (op : Op)
  deriving DecidableEq, Repr

/-- A result of `random_generator(limit)`. -/
structure Draw where
  limit : ℤ
  res : ℤ
  deriving DecidableEq, Repr

/-- The generator and the workers. -/
structure Sys (T : Type) where
  gen : Gen
  /-- the state that a call in progress has loaded -/
  seen : T → Option Gen
  pc : T → Pc
  /-- ghost: the results so far -/
  log : List Draw
  /-- ghost: the operations so far -/
  done : List Op

/-- The next step of a worker. -/
structure Act (T : Type) where
  thread : T
  /-- what `rand()` returns -/
  rand : ℕ

namespace Config

variable (c : Config)

/-- The limit of the next call; `main` passes `ACCOUNT_COUNT` as `account_pool_size`. -/
def drawLimit : Pc → Option ℤ
  | .loop => some (c.probabilityTransfer + c.probabilityRead)
  | .lock _ => some 10
  | .first | .second _ | .read => some accountCount
  | .money _ _ => some maximumMoney
  | .operation _ => none

/-- `if (rnd_op < probability_transfer)` -/
def branch (rndOp : ℤ) : Pc := if rndOp < c.probabilityTransfer then .first else .read

/-- After a call. Which lock `rnd_lock` chooses does not matter here. -/
def afterDraw (res : ℤ) : Pc → Pc
  | .loop => if c.mixRtm then .lock res else c.branch res
  | .lock rndOp => c.branch rndOp
  | .first => .second res
  | .second a₁ => .money a₁ res
  | .money a₁ a₂ => .operation (.transfer a₁ a₂ res)
  | .read => .operation (.read res)
  | .operation op => .operation op

/-- What a worker holds of its operation. -/
def held : Pc → List Draw
  | .loop | .first | .read => []
  | .lock rndOp => [⟨c.probabilityTransfer + c.probabilityRead, rndOp⟩]
  | .second a₁ => [⟨accountCount, a₁⟩]
  | .money a₁ a₂ => [⟨accountCount, a₁⟩, ⟨accountCount, a₂⟩]
  | .operation (.transfer a₁ a₂ money) =>
    [⟨accountCount, a₁⟩, ⟨accountCount, a₂⟩, ⟨maximumMoney, money⟩]
  | .operation (.read a) => [⟨accountCount, a⟩]

end Config

variable {T : Type} [DecidableEq T]

/-- What a worker has done that goes back to its loop. -/
def Pc.finished : Pc → List Op
  | operation op => [op]
  | _ => []

/-- A worker does its operation, or loads the state of the generator, or completes a call. -/
def step (c : Config) (s : Sys T) (x : Act T) : Option (Sys T) :=
  match c.drawLimit (s.pc x.thread) with
  | none =>
    some { s with
      pc := Function.update s.pc x.thread .loop
      done := s.done ++ (s.pc x.thread).finished }
  | some limit =>
    match s.seen x.thread with
    | none => some { s with seen := Function.update s.seen x.thread (some s.gen) }
    | some gen => do
      let r ← call c.randomGenerator x.rand limit gen
      return { s with
        gen := r.2
        seen := Function.update s.seen x.thread none
        pc := Function.update s.pc x.thread (c.afterDraw r.1 (s.pc x.thread))
        log := s.log ++ [{ limit := limit, res := r.1 }] }

/-- The workers are about to start. -/
def Sys.start (gen : Gen) : Sys T :=
  { gen := gen, seen := fun _ => none, pc := fun _ => .loop, log := [], done := [] }

/-- The runs of one round. -/
def Runs (c : Config) (gen : Gen) : Sys T → Prop :=
  Reach (step c) (· = Sys.start gen) fun _ x => x.rand ≤ randMax

/-- The same call of the program, in a round with perhaps other probabilities. -/
structure Config.SameSetup (c c' : Config) : Prop where
  numThreads : c'.numThreads = c.numThreads
  randomGenerator : c'.randomGenerator = c.randomGenerator
  mixRtm : c'.mixRtm = c.mixRtm
  rand : c'.rand = c.rand

/-- The states in which a round starts: that of the beginning of `main`, and those in which other
rounds end. -/
inductive Config.Left (c : Config) : Gen → Prop where
  | start : c.Left c.init
  | round {gen : Gen} {c' : Config} {s : Sys (Fin c.numThreads)} (h : c.Left gen)
      (hsetup : c.SameSetup c') (hs : Runs c' gen s)
      (hend : ∀ t, s.pc t = .loop ∧ s.seen t = none) : c.Left s.gen

/-- What the callers rely on: the number is at least 0 and below the limit it was asked for. -/
def Draw.Honoured (d : Draw) : Prop := 0 ≤ d.res ∧ d.res < d.limit

/-- The accounts of the operation are entries of `account_pool`. -/
def Op.InPool : Op → Prop
  | transfer a₁ a₂ _ => (0 ≤ a₁ ∧ a₁ < accountCount) ∧ 0 ≤ a₂ ∧ a₂ < accountCount
  | read a => 0 ≤ a ∧ a < accountCount

/-- The money of a transfer is at least 0 and below `MAXIMUM_MONEY`. -/
def Op.AmountInRange : Op → Prop
  | transfer _ _ money => 0 ≤ money ∧ money < maximumMoney
  | read _ => True

/-- The operation is a transfer and not a read. -/
def Op.isTransfer : Op → Bool
  | transfer _ _ _ => true
  | read _ => false

/-- The table does not break any of the limits that the workers use. That of the amounts is used
only if there are transfers. -/
def Config.KeepsToAll (c : Config) : Prop :=
  c.KeepsTo (c.probabilityTransfer + c.probabilityRead) ∧
    (c.mixRtm = true → c.KeepsTo 10) ∧
    ((∃ i < c.randsSize, c.entry i < c.probabilityTransfer) → c.KeepsTo maximumMoney)

/-! ## One step -/

variable {c : Config} {gen₀ : Gen} {s s' : Sys T} {x : Act T}

theorem isLimit_drawLimit {p : Pc} {limit : ℤ} (h : c.drawLimit p = some limit) :
    IsLimit limit := by
  cases p <;> cases h
  case loop => exact c.limit
  all_goals decide

theorem step_cases (h : step c s x = some s') :
    (∃ op, s.pc x.thread = .operation op ∧
      s' = { s with
        pc := Function.update s.pc x.thread .loop
        done := s.done ++ [op] }) ∨
    (∃ limit, c.drawLimit (s.pc x.thread) = some limit ∧ s.seen x.thread = none ∧
      s' = { s with seen := Function.update s.seen x.thread (some s.gen) }) ∨
    ∃ limit gen res gen', c.drawLimit (s.pc x.thread) = some limit ∧
      s.seen x.thread = some gen ∧
      call c.randomGenerator x.rand limit gen = some (res, gen') ∧
      s' = { s with
        gen := gen'
        seen := Function.update s.seen x.thread none
        pc := Function.update s.pc x.thread (c.afterDraw res (s.pc x.thread))
        log := s.log ++ [{ limit := limit, res := res }] } := by
  rw [step] at h
  split at h
  · rename_i hlimit
    left
    cases hp : s.pc x.thread with
    | operation op =>
      rw [hp] at h
      exact ⟨op, rfl, (Option.some.inj h).symm⟩
    | _ =>
      rw [hp] at hlimit
      cases hlimit
  · rename_i limit hlimit
    right
    split at h
    · rename_i hseen
      exact .inl ⟨limit, hlimit, hseen, (Option.some.inj h).symm⟩
    · rename_i gen hseen
      obtain ⟨⟨res, gen'⟩, hcall, h⟩ := Option.bind_eq_some_iff.mp h
      exact .inr ⟨limit, gen, res, gen', hlimit, hseen, hcall, (Option.some.inj h).symm⟩

/-- What is held after a call is its result, or was held before. -/
theorem held_afterDraw {p : Pc} {limit res : ℤ} (h : c.drawLimit p = some limit) {d : Draw}
    (hd : d ∈ c.held (c.afterDraw res p)) : d = ⟨limit, res⟩ ∨ d ∈ c.held p := by
  have hbranch : ∀ rndOp, c.held (c.branch rndOp) = [] := by
    intro rndOp
    rw [Config.branch]
    split <;> rfl
  cases p with
  | loop =>
    cases h
    rw [Config.afterDraw] at hd
    split at hd
    · exact .inl (List.mem_singleton.mp hd)
    · rw [hbranch] at hd
      cases hd
  | lock rndOp =>
    rw [Config.afterDraw, hbranch] at hd
    cases hd
  | first | read =>
    cases h
    exact .inl (List.mem_singleton.mp hd)
  | second a₁ | money a₁ a₂ =>
    cases h
    simp only [Config.afterDraw, Config.held, List.mem_cons, List.not_mem_nil, or_false] at hd ⊢
    tauto
  | operation op => exact .inr hd

/-! ## The invariant -/

/-- `rnd_op` has made the choice of the operation. -/
def Config.Chosen (c : Config) : Pc → Prop
  | .loop => True
  | .lock rndOp =>
    c.mixRtm = true ∧ c.Returns (c.probabilityTransfer + c.probabilityRead) rndOp
  | .first | .second _ | .money _ _ | .operation (.transfer _ _ _) =>
    ∃ v < c.probabilityTransfer, c.Returns (c.probabilityTransfer + c.probabilityRead) v
  | .read | .operation (.read _) =>
    ∃ v, c.probabilityTransfer ≤ v ∧ c.Returns (c.probabilityTransfer + c.probabilityRead) v

/-- The states of the generator are reachable ones, and what the workers hold has been drawn. -/
structure Inv (c : Config) (s : Sys T) : Prop where
  gen : c.Reachable s.gen
  seen : ∀ t gen, s.seen t = some gen → c.Reachable gen
  held : ∀ t, ∀ d ∈ c.held (s.pc t), d ∈ s.log
  chosen : ∀ t, c.Chosen (s.pc t)
  log : ∀ d ∈ s.log, 0 ≤ d.res ∧ (d.limit = accountCount → d.res < accountCount)
  done : ∀ op ∈ s.done, (∀ d ∈ c.held (.operation op), d ∈ s.log) ∧ c.Chosen (.operation op)

omit [DecidableEq T] in
theorem inv_start (h : c.Reachable gen₀) : Inv c (Sys.start gen₀ : Sys T) := by
  refine ⟨h, ?_, ?_, fun _ => trivial, List.forall_mem_nil _, List.forall_mem_nil _⟩
  · intro t gen h
    cases h
  · intro t d hd
    cases hd

theorem chosen_branch {rndOp : ℤ}
    (h : c.Returns (c.probabilityTransfer + c.probabilityRead) rndOp) :
    c.Chosen (c.branch rndOp) := by
  rw [Config.branch]
  split
  · rename_i hlt
    exact ⟨rndOp, hlt, h⟩
  · rename_i hge
    exact ⟨rndOp, not_lt.mp hge, h⟩

theorem chosen_afterDraw {p : Pc} {limit res : ℤ} (hlimit : c.drawLimit p = some limit)
    (hp : c.Chosen p) (hres : c.Returns limit res) : c.Chosen (c.afterDraw res p) := by
  cases p with
  | loop =>
    cases hlimit
    rw [Config.afterDraw]
    split
    · rename_i hmix
      exact ⟨hmix, hres⟩
    · exact chosen_branch hres
  | lock rndOp => exact chosen_branch hp.2
  | first | second a₁ | money a₁ a₂ | read => exact hp
  | operation op => cases hlimit

theorem Inv.step (h : Inv c s) (hrand : x.rand ≤ randMax) (hs : step c s x = some s') :
    Inv c s' := by
  rcases step_cases hs with ⟨op, hop, rfl⟩ | ⟨limit, -, -, rfl⟩ |
    ⟨limit, gen, res, gen', hlimit, hseen, hcall, rfl⟩
  · refine ⟨h.gen, h.seen, ?_, ?_, h.log, ?_⟩
    · apply (Function.forall_update_iff s.pc (p := fun _ p => ∀ d ∈ c.held p, d ∈ s.log)).mpr
      exact ⟨List.forall_mem_nil _, fun t _ => h.held t⟩
    · apply (Function.forall_update_iff s.pc (p := fun _ p => c.Chosen p)).mpr
      exact ⟨trivial, fun t _ => h.chosen t⟩
    · intro o ho
      rcases List.mem_append.mp ho with hold | hnew
      · exact h.done o hold
      · obtain rfl := List.mem_singleton.mp hnew
        have hheld := h.held x.thread
        have hchosen := h.chosen x.thread
        rw [hop] at hheld hchosen
        exact ⟨hheld, hchosen⟩
  · refine ⟨h.gen, ?_, h.held, h.chosen, h.log, h.done⟩
    apply (Function.forall_update_iff s.seen
      (p := fun _ o => ∀ gen, o = some gen → c.Reachable gen)).mpr
    refine ⟨?_, fun t _ => h.seen t⟩
    intro gen hgen
    exact Option.some.inj hgen ▸ h.gen
  · have hreach := h.seen x.thread gen hseen
    have hIsLimit := isLimit_drawLimit hlimit
    obtain ⟨rfl, rfl⟩ := call_result hreach.valid hIsLimit hcall
    have hlog : ∀ e, ∀ d ∈ s.log, d ∈ s.log ++ [e] := fun e _ hd => List.mem_append_left [e] hd
    refine ⟨hreach.advance, ?_, ?_, ?_, ?_, ?_⟩
    · apply (Function.forall_update_iff s.seen
        (p := fun _ o => ∀ gen, o = some gen → c.Reachable gen)).mpr
      refine ⟨?_, fun t _ => h.seen t⟩
      intro gen hgen
      cases hgen
    · apply (Function.forall_update_iff s.pc (p := fun _ p => ∀ d ∈ c.held p, d ∈ s.log ++ _)).mpr
      refine ⟨?_, fun t _ d hd => hlog _ d (h.held t d hd)⟩
      intro d hd
      rcases held_afterDraw hlimit hd with rfl | hheld
      · exact List.mem_append_right _ (List.mem_singleton_self _)
      · exact hlog _ d (h.held x.thread d hheld)
    · apply (Function.forall_update_iff s.pc (p := fun _ p => c.Chosen p)).mpr
      exact ⟨chosen_afterDraw hlimit (h.chosen x.thread) ⟨gen, hreach, x.rand, hrand, rfl⟩,
        fun t _ => h.chosen t⟩
    · intro d hd
      rcases List.mem_append.mp hd with hold | hnew
      · exact h.log d hold
      · obtain rfl := List.mem_singleton.mp hnew
        refine ⟨value_nonneg hreach.valid _ hIsLimit, ?_⟩
        rintro rfl
        exact value_lt hreach.valid _ hIsLimit c.keepsTo_accountCount
    · intro op hop
      exact ⟨fun d hd => hlog _ d ((h.done op hop).1 d hd), (h.done op hop).2⟩

theorem Runs.inv (h : Runs c gen₀ s) (hgen : c.Reachable gen₀) : Inv c s := by
  refine Reach.invariant (fun s₀ h₀ => ?_) (fun _ _ _ hI hrand hs => hI.step hrand hs) h
  exact h₀ ▸ inv_start hgen

/-! ## The states in which a round starts -/

theorem Config.SameSetup.reachable_iff {c' : Config} (h : c.SameSetup c') (gen : Gen) :
    c'.Reachable gen ↔ c.Reachable gen := by
  have hinit : c'.init = c.init := by
    simp only [Config.init, Config.savedRands, Config.randsSize, h.numThreads, h.rand]
  rw [Config.Reachable, Config.Reachable, h.randomGenerator, hinit]

theorem Config.Left.reachable {gen : Gen} (h : c.Left gen) : c.Reachable gen := by
  induction h with
  | start => exact .init rfl
  | round _ hsetup hs _ ih =>
    rw [← hsetup.reachable_iff] at ih ⊢
    exact (hs.inv ih).gen

/-! ## The limits -/

omit [DecidableEq T] in
/-- The accounts are in the pool in any case. -/
theorem Inv.inPool (h : Inv c s) {op : Op} (hop : op ∈ s.done) : op.InPool := by
  have hheld := (h.done op hop).1
  have haccount : ∀ a : ℤ, ⟨accountCount, a⟩ ∈ s.log → 0 ≤ a ∧ a < accountCount := by
    intro a ha
    obtain ⟨hlo, hhi⟩ := h.log _ ha
    exact ⟨hlo, hhi rfl⟩
  cases op with
  | transfer a₁ a₂ money =>
    exact ⟨haccount a₁ (hheld _ (by simp [Config.held])),
      haccount a₂ (hheld _ (by simp [Config.held]))⟩
  | read a => exact haccount a (hheld _ (by simp [Config.held]))

omit [DecidableEq T] in
theorem Inv.amountInRange (h : Inv c s) (hlog : ∀ d ∈ s.log, d.Honoured) {op : Op}
    (hop : op ∈ s.done) : op.AmountInRange := by
  have hheld := (h.done op hop).1
  cases op with
  | transfer a₁ a₂ money => exact hlog _ (hheld ⟨maximumMoney, money⟩ (by simp [Config.held]))
  | read a => exact trivial

/-- The limit of a call is one of those that the table does not break. -/
theorem keepsTo_drawLimit (hall : c.KeepsToAll) {p : Pc} (hp : c.Chosen p) {limit : ℤ}
    (hlimit : c.drawLimit p = some limit) : c.KeepsTo limit := by
  obtain ⟨hsum, hlock, hmoney⟩ := hall
  cases p <;> cases hlimit
  case loop => exact hsum
  case lock => exact hlock hp.1
  case first | second | read => exact c.keepsTo_accountCount
  case money =>
    intro hg
    obtain ⟨v, hlt, hv⟩ := hp
    obtain ⟨i, hi, rfl⟩ := (returns_savedrand_iff hg _ v).mp hv
    exact hmoney ⟨i, hi, hlt⟩ hg

theorem Inv.honoured_step (h : Inv c s) (hall : c.KeepsToAll) (hlog : ∀ d ∈ s.log, d.Honoured)
    (hs : Random.step c s x = some s') : ∀ d ∈ s'.log, d.Honoured := by
  rcases step_cases hs with ⟨op, -, rfl⟩ | ⟨limit, -, -, rfl⟩ |
    ⟨limit, gen, res, gen', hlimit, hseen, hcall, rfl⟩
  · exact hlog
  · exact hlog
  · intro d hd
    rcases List.mem_append.mp hd with hold | hnew
    · exact hlog d hold
    · obtain rfl := List.mem_singleton.mp hnew
      have hvalid := (h.seen x.thread gen hseen).valid
      have hIsLimit := isLimit_drawLimit hlimit
      obtain ⟨rfl, -⟩ := call_result hvalid hIsLimit hcall
      exact ⟨value_nonneg hvalid _ hIsLimit,
        value_lt hvalid _ hIsLimit (keepsTo_drawLimit hall (h.chosen x.thread) hlimit)⟩

/-- If the table does not break the limits, all results are below them. -/
theorem Runs.honoured (h : Runs c gen₀ s) (hgen : c.Reachable gen₀) (hall : c.KeepsToAll) :
    ∀ d ∈ s.log, d.Honoured := by
  have hboth : Inv c s ∧ ∀ d ∈ s.log, d.Honoured := by
    refine Reach.invariant (I := fun s => Inv c s ∧ ∀ d ∈ s.log, d.Honoured) (fun s₀ h₀ => ?_)
      (fun s x s' hI hrand hs => ?_) h
    · obtain rfl := h₀
      exact ⟨inv_start hgen, List.forall_mem_nil _⟩
    · exact ⟨hI.1.step hrand hs, hI.1.honoured_step hall hI.2 hs⟩
  exact hboth.2

end Htmsql.Bank.Random
