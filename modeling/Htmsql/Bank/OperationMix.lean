import Htmsql.Bank.Drawing

/-!
# Which operations the workers do

Every call moves the generator on by one, whatever its limit. With two workers one of them may make
calls until the generator is where the other one needs it, so that every number may become every
draw. A single worker has no such choice, unless the numbers are those of `rand()`: it meets the
number for `rnd_op` in strides, and the stride depends on the operation.
-/

namespace Htmsql.Bank.Random

open SignedInt Util
open Run (Reach)

/-! ## A walk whose stride depends on what it finds -/

section Walk

variable {d : Bool → ℕ} {k : ℕ → Bool} {b : Bool} {j : ℕ}

/-- The positions of a walk that goes on from `i` by `d (k i)`. -/
def walk (d : Bool → ℕ) (k : ℕ → Bool) : ℕ → ℕ
  | 0 => 0
  | j + 1 => walk d k j + d (k (walk d k j))

theorem walk_of_forall (h : ∀ i < j, k (walk d k i) = b) : walk d k j = j * d b := by
  induction j with
  | zero => rw [walk, Nat.zero_mul]
  | succ j ih =>
    rw [walk, h j (Nat.lt_succ_self j), ih fun i hi => h i (Nat.lt_succ_of_lt hi), Nat.succ_mul]

theorem walk_of_forall_mul (h : ∀ i < j, k (i * d b) = b) : walk d k j = j * d b := by
  induction j with
  | zero => rw [walk, Nat.zero_mul]
  | succ j ih =>
    rw [walk, ih fun i hi => h i (Nat.lt_succ_of_lt hi), h j (Nat.lt_succ_self j), Nat.succ_mul]

/-- Until it finds something else, the walk has one stride. -/
theorem exists_walk_ne_iff :
    (∃ i, k (walk d k i) ≠ k 0) ↔ ∃ i, k (i * d (k 0)) ≠ k 0 := by
  constructor
  · intro hex
    have hspec := Nat.find_spec hex
    have hsame : ∀ i < Nat.find hex, k (walk d k i) = k 0 := by
      intro i hi
      simpa using Nat.find_min hex hi
    rw [walk_of_forall hsame] at hspec
    exact ⟨_, hspec⟩
  · intro hex
    have hspec := Nat.find_spec hex
    have hsame : ∀ i < Nat.find hex, k (i * d (k 0)) = k 0 := by
      intro i hi
      simpa using Nat.find_min hex hi
    rw [← walk_of_forall_mul hsame] at hspec
    exact ⟨_, hspec⟩

end Walk

/-! ## The calls of an operation -/

namespace Config

variable (c : Config)

/-- The calls before an operation is chosen. -/
def choosing : ℕ := if c.mixRtm then 2 else 1

/-- The calls for an operation. -/
def stride (isTransfer : Bool) : ℕ := c.choosing + if isTransfer then 3 else 1

/-- The test `rnd_op < PROBABILITY_TRANSFER` of the loop. -/
def isTransfer (rndOp : ℤ) : Bool := decide (rndOp < c.probabilityTransfer)

/-- Of the numbers that a single worker meets, one is for the other operation than the first. -/
def Alternates (f : ℕ → ℤ) : Prop :=
  (f 0 < c.probabilityTransfer ∧ ∃ i, c.probabilityTransfer ≤ f (i * c.stride true)) ∨
    (c.probabilityTransfer ≤ f 0 ∧ ∃ i, f (i * c.stride false) < c.probabilityTransfer)

/-- There are numbers below the transfer probability and others, where the workers meet them. -/
def Mixes (gen : Gen) : Prop :=
  match c.randomGenerator with
  | .sysrand => True
  | .customrand =>
    if 1 < c.numThreads then
      c.probabilityTransfer ≤ 32748 ∧ ¬(c.probabilityTransfer = 27467 ∧ c.probabilityRead = 1)
    else
      c.Alternates fun k =>
        nextState^[k + 1] gen.a % (c.probabilityTransfer + c.probabilityRead)
  | .savedrand =>
    if 1 < c.numThreads then
      (∃ i < c.randsSize, c.entry i < c.probabilityTransfer) ∧
        ∃ i < c.randsSize, c.probabilityTransfer ≤ c.entry i
    else
      c.Alternates fun k => c.entry ((gen.randsCounter.toNat + k + 1) % c.randsSize)

theorem alternates_iff (f : ℕ → ℤ) :
    c.Alternates f ↔
      ∃ i, c.isTransfer (f (i * c.stride (c.isTransfer (f 0)))) ≠ c.isTransfer (f 0) := by
  by_cases h₀ : f 0 < c.probabilityTransfer
  · simp [Alternates, isTransfer, h₀, not_le.mpr h₀]
  · simp [Alternates, isTransfer, h₀, not_lt.mp h₀]

end Config

/-- Some run does a transfer and a read. -/
def BothOccur (c : Config) (gen : Gen) : Prop :=
  ∃ s : Sys (Fin c.numThreads), Runs c gen s ∧ (∃ op ∈ s.done, op.isTransfer = true) ∧
    ∃ op ∈ s.done, op.isTransfer = false

variable {T : Type} [DecidableEq T] {c : Config} {gen₀ : Gen} {s s' : Sys T} {t u : T}

/-! ## Undisturbed calls -/

/-- No call is in progress. -/
def Sys.Quiet (s : Sys T) : Prop := ∀ t, s.seen t = none

/-- A worker has made a call. -/
def Sys.afterCall (c : Config) (s : Sys T) (t : T) (limit res : ℤ) : Sys T :=
  { s with
    gen := c.advance s.gen
    pc := Function.update s.pc t (c.afterDraw res (s.pc t))
    log := s.log ++ [{ limit := limit, res := res }] }

theorem Runs.draw (h : Runs c gen₀ s) (hgen : c.Reachable gen₀) (hquiet : s.Quiet) {limit : ℤ}
    (hlimit : c.drawLimit (s.pc t) = some limit) {r : ℕ} (hr : r ≤ randMax) :
    Runs c gen₀ (s.afterCall c t limit (value c.randomGenerator r limit s.gen)) := by
  have hcall := call_eq (h.inv hgen).gen.valid r (isLimit_drawLimit hlimit)
  let s₁ : Sys T := { s with seen := Function.update s.seen t (some s.gen) }
  have hload : step c s { thread := t, rand := r } = some s₁ := by
    rw [step, hlimit]
    simp only [hquiet t]
    rfl
  have hstore : step c s₁ { thread := t, rand := r } =
      some (s.afterCall c t limit (value c.randomGenerator r limit s.gen)) := by
    have hseen : Function.update (Function.update s.seen t (some s.gen)) t none = s.seen := by
      rw [Function.update_idem, ← hquiet t, Function.update_eq_self]
    rw [step]
    simp only [s₁, hlimit, Function.update_self, hcall, Option.bind_eq_bind, Option.bind_some, hseen]
    rfl
  exact .step (.step h hr hload) hr hstore

theorem Runs.finish (h : Runs c gen₀ s) {op : Op} (hop : s.pc t = .operation op) :
    Runs c gen₀ { s with pc := Function.update s.pc t .loop, done := s.done ++ [op] } := by
  refine .step (a := { thread := t, rand := 0 }) h (Nat.zero_le _) ?_
  rw [step, hop]
  rfl

@[simp] theorem afterCall_pc_self (limit res : ℤ) :
    (s.afterCall c t limit res).pc t = c.afterDraw res (s.pc t) :=
  Function.update_self _ _ _

/-- The rest of an operation after it has been chosen. -/
theorem Runs.perform (h : Runs c gen₀ s) (hgen : c.Reachable gen₀) (hquiet : s.Quiet) {v : ℤ}
    (hpc : s.pc t = c.branch v) :
    ∃ s' op, Runs c gen₀ s' ∧ s'.Quiet ∧ s'.pc t = .loop ∧ s'.done = s.done ++ [op] ∧
      op.isTransfer = c.isTransfer v ∧
      s'.gen = c.advance^[if c.isTransfer v then 3 else 1] s.gen := by
  by_cases hlt : v < c.probabilityTransfer
  · have hkind : c.isTransfer v = true := decide_eq_true hlt
    rw [Config.branch, if_pos hlt] at hpc
    have h₁ := h.draw hgen hquiet (t := t) (by rw [hpc]; rfl) (Nat.zero_le _)
    have h₂ := h₁.draw hgen hquiet (t := t) (by rw [afterCall_pc_self, hpc]; rfl) (Nat.zero_le _)
    have h₃ := h₂.draw hgen hquiet (t := t)
      (by rw [afterCall_pc_self, afterCall_pc_self, hpc]; rfl) (Nat.zero_le _)
    have h₄ := h₃.finish (t := t)
      (by rw [afterCall_pc_self, afterCall_pc_self, afterCall_pc_self, hpc]; rfl)
    refine ⟨_, _, h₄, hquiet, Function.update_self _ _ _, rfl, hkind.symm, ?_⟩
    rw [hkind]
    rfl
  · have hkind : c.isTransfer v = false := decide_eq_false hlt
    rw [Config.branch, if_neg hlt] at hpc
    have h₁ := h.draw hgen hquiet (t := t) (by rw [hpc]; rfl) (Nat.zero_le _)
    have h₂ := h₁.finish (t := t) (by rw [afterCall_pc_self, hpc]; rfl)
    refine ⟨_, _, h₂, hquiet, Function.update_self _ _ _, rfl, hkind.symm, ?_⟩
    rw [hkind]
    rfl

/-- From the loop to the choice of the operation. -/
theorem Runs.choose (h : Runs c gen₀ s) (hgen : c.Reachable gen₀) (hquiet : s.Quiet)
    (hloop : s.pc t = .loop) {r : ℕ} (hr : r ≤ randMax) {v : ℤ}
    (hv : value c.randomGenerator r (c.probabilityTransfer + c.probabilityRead) s.gen = v) :
    ∃ s', Runs c gen₀ s' ∧ s'.Quiet ∧ s'.pc t = c.branch v ∧ s'.done = s.done ∧
      s'.gen = c.advance^[c.choosing] s.gen := by
  have h₁ := h.draw hgen hquiet (t := t) (by rw [hloop]; rfl) hr
  rw [hv] at h₁
  by_cases hmix : c.mixRtm = true
  · have hlock : (s.afterCall c t (c.probabilityTransfer + c.probabilityRead) v).pc t =
        .lock v := by
      rw [afterCall_pc_self, hloop, Config.afterDraw, if_pos hmix]
    have h₂ := h₁.draw hgen hquiet (t := t) (by rw [hlock]; rfl) (Nat.zero_le _)
    refine ⟨_, h₂, hquiet, ?_, rfl, ?_⟩
    · rw [afterCall_pc_self, hlock]
      rfl
    · rw [Config.choosing, if_pos hmix]
      rfl
  · refine ⟨_, h₁, hquiet, ?_, rfl, ?_⟩
    · rw [afterCall_pc_self, hloop, Config.afterDraw, if_neg hmix]
    · rw [Config.choosing, if_neg hmix]
      rfl

/-- A whole operation. -/
theorem Runs.operate (h : Runs c gen₀ s) (hgen : c.Reachable gen₀) (hquiet : s.Quiet)
    (hloop : s.pc t = .loop) {r : ℕ} (hr : r ≤ randMax) {v : ℤ}
    (hv : value c.randomGenerator r (c.probabilityTransfer + c.probabilityRead) s.gen = v) :
    ∃ s' op, Runs c gen₀ s' ∧ s'.Quiet ∧ s'.pc t = .loop ∧ s'.done = s.done ++ [op] ∧
      op.isTransfer = c.isTransfer v ∧
      s'.gen = c.advance^[c.stride (c.isTransfer v)] s.gen := by
  obtain ⟨s₁, h₁, hquiet₁, hpc₁, hdone₁, hgen₁⟩ := h.choose hgen hquiet hloop hr hv
  obtain ⟨s₂, op, h₂, hquiet₂, hpc₂, hdone₂, hkind, hgen₂⟩ := h₁.perform hgen hquiet₁ hpc₁
  refine ⟨s₂, op, h₂, hquiet₂, hpc₂, ?_, hkind, ?_⟩
  · rw [hdone₂, hdone₁]
  · rw [hgen₂, hgen₁, ← Function.iterate_add_apply, Config.stride, Nat.add_comm]

/-! ## Two workers -/

theorem drawLimit_of_ne {p : Pc} (h : ∀ op, p ≠ .operation op) :
    ∃ limit, c.drawLimit p = some limit := by
  cases p with
  | operation op => exact (h op rfl).elim
  | _ => exact ⟨_, rfl⟩

/-- A worker makes calls until the generator is where another one needs it. -/
theorem Runs.burn (h : Runs c gen₀ s) (hgen : c.Reachable gen₀) (hquiet : s.Quiet) (hne : u ≠ t)
    (k : ℕ) :
    ∃ s', Runs c gen₀ s' ∧ s'.Quiet ∧ s'.gen = c.advance^[k] s.gen ∧ s'.pc t = s.pc t ∧
      ∀ op ∈ s.done, op ∈ s'.done := by
  induction k with
  | zero => exact ⟨s, h, hquiet, rfl, rfl, fun _ hop => hop⟩
  | succ k ih =>
    obtain ⟨s₁, h₁, hquiet₁, hgen₁, hpc₁, hdone₁⟩ := ih
    -- a worker that has all its numbers finishes its operation first
    obtain ⟨s₂, h₂, hquiet₂, hgen₂, hpc₂, hdone₂, hnot⟩ :
        ∃ s₂, Runs c gen₀ s₂ ∧ s₂.Quiet ∧ s₂.gen = s₁.gen ∧ s₂.pc t = s₁.pc t ∧
          (∀ op ∈ s₁.done, op ∈ s₂.done) ∧ ∀ op, s₂.pc u ≠ .operation op := by
      by_cases hop : ∃ op, s₁.pc u = .operation op
      · obtain ⟨op, hop⟩ := hop
        refine ⟨_, h₁.finish hop, hquiet₁, rfl, Function.update_of_ne hne.symm _ _,
          fun _ hmem => List.mem_append_left _ hmem, fun op' => ?_⟩
        change Function.update s₁.pc u .loop u ≠ _
        rw [Function.update_self]
        simp
      · exact ⟨s₁, h₁, hquiet₁, rfl, rfl, fun _ hmem => hmem, fun op hp => hop ⟨op, hp⟩⟩
    obtain ⟨limit, hlimit⟩ := drawLimit_of_ne (c := c) hnot
    refine ⟨_, h₂.draw hgen hquiet₂ hlimit (Nat.zero_le _), hquiet₂, ?_, ?_,
      fun op hop => hdone₂ op (hdone₁ op hop)⟩
    · rw [Function.iterate_succ_apply', ← hgen₁, ← hgen₂]
      rfl
    · rw [← hpc₁, ← hpc₂]
      exact Function.update_of_ne hne.symm _ _

/-- With another worker, or `rand()`, each number that the generator returns at all may be the next
result of a call. -/
theorem Runs.prepare (h : Runs c gen₀ s) (hgen : c.Reachable gen₀) (hquiet : s.Quiet)
    (hfree : c.randomGenerator = .sysrand ∨ u ≠ t) {limit v : ℤ} (hv : c.Returns limit v) :
    ∃ s', Runs c gen₀ s' ∧ s'.Quiet ∧ s'.pc t = s.pc t ∧ (∀ op ∈ s.done, op ∈ s'.done) ∧
      ∃ r ≤ randMax, value c.randomGenerator r limit s'.gen = v := by
  rcases hfree with hg | hne
  · obtain ⟨gen, -, r, hr, hres⟩ := hv
    rw [hg] at hres
    refine ⟨s, h, hquiet, rfl, fun _ hop => hop, r, hr, ?_⟩
    rw [hg]
    exact hres
  · obtain ⟨k, r, hr, hres⟩ := hv.exists_iterate (h.inv hgen).gen
    obtain ⟨s', h', hquiet', hgen', hpc', hdone'⟩ := h.burn hgen hquiet hne k
    exact ⟨s', h', hquiet', hpc', hdone', r, hr, by rw [hgen', hres]⟩

/-- Each number may become each draw. -/
theorem Runs.drawReturned (h : Runs c gen₀ s) (hgen : c.Reachable gen₀) (hquiet : s.Quiet)
    (hne : u ≠ t) {limit v : ℤ} (hlimit : c.drawLimit (s.pc t) = some limit)
    (hv : c.Returns limit v) :
    ∃ s', Runs c gen₀ s' ∧ s'.Quiet ∧ s'.pc t = c.afterDraw v (s.pc t) ∧
      ⟨limit, v⟩ ∈ s'.log := by
  obtain ⟨s₁, h₁, hquiet₁, hpc₁, -, r, hr, hres⟩ := h.prepare hgen hquiet (Or.inr hne) hv
  have h₂ := h₁.draw hgen hquiet₁ (t := t) (by rw [hpc₁]; exact hlimit) hr
  rw [hres] at h₂
  refine ⟨_, h₂, hquiet₁, ?_, ?_⟩
  · rw [afterCall_pc_self, hpc₁]
  · exact List.mem_append_right _ (List.mem_singleton_self _)

omit [DecidableEq T] in
theorem quiet_start (gen₀ : Gen) : (Sys.start gen₀ : Sys T).Quiet := fun _ => rfl

/-- With two workers the limits are also broken wherever the table breaks them. -/
theorem keepsToAll_of_honoured (hgen : c.Reachable gen₀) (hne : u ≠ t)
    (h : ∀ s : Sys T, Runs c gen₀ s → ∀ d ∈ s.log, d.Honoured) : c.KeepsToAll := by
  have hstart : Runs c gen₀ (Sys.start gen₀ : Sys T) := .init rfl
  have hentry : c.randomGenerator = .savedrand → ∀ i < c.randsSize, ∀ limit,
      c.Returns limit (c.entry i) :=
    fun hg i hi limit => (returns_savedrand_iff hg limit _).mpr ⟨i, hi, rfl⟩
  refine ⟨fun hg i hi => ?_, fun hmix hg i hi => ?_, fun ⟨j, hj, hlt⟩ hg i hi => ?_⟩
  · obtain ⟨s, hs, -, -, hlog⟩ := hstart.drawReturned hgen (quiet_start gen₀) hne (t := t) rfl
      (hentry hg i hi _)
    exact (h s hs _ hlog).2
  · have h₁ := hstart.draw hgen (quiet_start gen₀) (t := t) rfl (Nat.zero_le _)
    have hlock : ∀ res, c.drawLimit (c.afterDraw res ((Sys.start gen₀ : Sys T).pc t)) = some 10 := by
      intro res
      simp only [Sys.start, Config.afterDraw, if_pos hmix]
      rfl
    obtain ⟨s, hs, -, -, hlog⟩ := h₁.drawReturned hgen (quiet_start gen₀) hne (t := t)
      (by rw [afterCall_pc_self]; exact hlock _) (hentry hg i hi _)
    exact (h s hs _ hlog).2
  · obtain ⟨s₁, h₁, hquiet₁, hpc₁, -, r, hr, hres⟩ := hstart.prepare hgen (quiet_start gen₀)
      (Or.inr hne) (t := t) (hentry hg j hj (c.probabilityTransfer + c.probabilityRead))
    obtain ⟨s₂, h₂, hquiet₂, hpc₂, -⟩ := h₁.choose hgen hquiet₁ hpc₁ hr hres
    rw [Config.branch, if_pos hlt] at hpc₂
    have h₃ := h₂.draw hgen hquiet₂ (t := t) (by rw [hpc₂]; rfl) (Nat.zero_le _)
    have h₄ := h₃.draw hgen hquiet₂ (t := t) (by rw [afterCall_pc_self, hpc₂]; rfl)
      (Nat.zero_le _)
    obtain ⟨s, hs, -, -, hlog⟩ := h₄.drawReturned hgen hquiet₂ hne (t := t)
      (by rw [afterCall_pc_self, afterCall_pc_self, hpc₂]; rfl) (hentry hg i hi maximumMoney)
    exact (h s hs _ hlog).2

/-- An operation for a number that the generator returns at all. -/
theorem Runs.operateReturned (h : Runs c gen₀ s) (hgen : c.Reachable gen₀) (hquiet : s.Quiet)
    (hfree : c.randomGenerator = .sysrand ∨ u ≠ t) (hloop : s.pc t = .loop) {v : ℤ}
    (hv : c.Returns (c.probabilityTransfer + c.probabilityRead) v) :
    ∃ s', Runs c gen₀ s' ∧ s'.Quiet ∧ s'.pc t = .loop ∧ (∀ op ∈ s.done, op ∈ s'.done) ∧
      ∃ op ∈ s'.done, op.isTransfer = c.isTransfer v := by
  obtain ⟨s₁, h₁, hquiet₁, hpc₁, hdone₁, r, hr, hres⟩ := h.prepare hgen hquiet hfree hv
  obtain ⟨s₂, op, h₂, hquiet₂, hpc₂, hdone₂, hkind, -⟩ :=
    h₁.operate hgen hquiet₁ (hpc₁.trans hloop) hr hres
  refine ⟨s₂, h₂, hquiet₂, hpc₂, fun o ho => ?_, op, ?_, hkind⟩
  · rw [hdone₂]
    exact List.mem_append_left _ (hdone₁ o ho)
  · rw [hdone₂]
    exact List.mem_append_right _ (List.mem_singleton_self _)

theorem exists_both_of_returned (hgen : c.Reachable gen₀)
    (hfree : c.randomGenerator = .sysrand ∨ u ≠ t) (h : c.BothReturned) :
    ∃ s : Sys T, Runs c gen₀ s ∧ (∃ op ∈ s.done, op.isTransfer = true) ∧
      ∃ op ∈ s.done, op.isTransfer = false := by
  obtain ⟨⟨v, hlt, hv⟩, w, hle, hw⟩ := h
  have hstart : Runs c gen₀ (Sys.start gen₀ : Sys T) := .init rfl
  obtain ⟨s₁, h₁, hquiet₁, hpc₁, -, op₁, hop₁, hkind₁⟩ :=
    hstart.operateReturned hgen (quiet_start gen₀) hfree rfl hv
  obtain ⟨s₂, h₂, -, -, hdone₂, op₂, hop₂, hkind₂⟩ :=
    h₁.operateReturned hgen hquiet₁ hfree hpc₁ hw
  refine ⟨s₂, h₂, ⟨op₁, hdone₂ op₁ hop₁, ?_⟩, op₂, hop₂, ?_⟩
  · rw [hkind₁]
    exact decide_eq_true hlt
  · rw [hkind₂]
    exact decide_eq_false (not_lt.mpr hle)

theorem returned_of_both (hgen : c.Reachable gen₀) (hs : Runs c gen₀ s)
    (htransfer : ∃ op ∈ s.done, op.isTransfer = true)
    (hread : ∃ op ∈ s.done, op.isTransfer = false) : c.BothReturned := by
  obtain ⟨op, hop, hkind⟩ := htransfer
  obtain ⟨op', hop', hkind'⟩ := hread
  have hchosen := ((hs.inv hgen).done op hop).2
  have hchosen' := ((hs.inv hgen).done op' hop').2
  cases op with
  | read a => cases hkind
  | transfer a₁ a₂ money =>
    cases op' with
    | transfer a₁' a₂' money' => cases hkind'
    | read a => exact ⟨hchosen, hchosen'⟩

/-! ## One worker -/

namespace Config

variable (c : Config)

/-- The numbers that `rnd_op` may become, after each number of calls. -/
def rndOps (gen : Gen) (k : ℕ) : ℤ :=
  value c.randomGenerator 0 (c.probabilityTransfer + c.probabilityRead) (c.advance^[k] gen)

/-- Where a single worker draws `rnd_op`. -/
def position (gen : Gen) : ℕ → ℕ := walk c.stride fun k => c.isTransfer (c.rndOps gen k)

/-- How many calls a worker has made for its operation. -/
def drawn : Pc → ℕ
  | .loop => 0
  | .lock _ => 1
  | .first | .read => c.choosing
  | .second _ | .operation (.read _) => c.choosing + 1
  | .money _ _ => c.choosing + 2
  | .operation (.transfer _ _ _) => c.choosing + 3

end Config

/-- Whether a worker does a transfer, once that is chosen. -/
def Pc.isTransfer : Pc → Option Bool
  | loop | lock _ => none
  | first | second _ | money _ _ => some true
  | read => some false
  | operation op => some op.isTransfer

/-- After `n` calls a single worker is in its operation with index `j`. -/
structure Config.At (c : Config) (gen : Gen) (j n : ℕ) (p : Pc) : Prop where
  calls : n = c.position gen j + c.drawn p
  kind : ∀ b, p.isTransfer = some b → b = c.isTransfer (c.rndOps gen (c.position gen j))
  lock : ∀ v, p = .lock v → v = c.rndOps gen (c.position gen j) ∧ c.mixRtm = true

/-- Where a single worker and the generator are. -/
structure Alone (c : Config) (gen₀ : Gen) (t : T) (s : Sys T) : Prop where
  gen : s.gen = c.advance^[s.log.length] gen₀
  seen : ∀ gen, s.seen t = some gen → gen = s.gen
  pos : ∃ j, c.At gen₀ j s.log.length (s.pc t)
  done : ∀ op ∈ s.done, ∃ j, op.isTransfer = c.isTransfer (c.rndOps gen₀ (c.position gen₀ j))

theorem value_eq_of_ne (hg : c.randomGenerator ≠ .sysrand) (r : ℕ) (limit : ℤ) (gen : Gen) :
    value c.randomGenerator r limit gen = value c.randomGenerator 0 limit gen := by
  cases h : c.randomGenerator with
  | sysrand => exact (hg h).elim
  | customrand | savedrand => rfl

/-- The operation is chosen as its number says. -/
theorem at_branch {gen : Gen} {j n : ℕ} {v : ℤ} (hn : n = c.position gen j + c.choosing)
    (hv : v = c.rndOps gen (c.position gen j)) : c.At gen j n (c.branch v) := by
  by_cases hlt : v < c.probabilityTransfer
  · have hkind : c.isTransfer v = true := decide_eq_true hlt
    rw [Config.branch, if_pos hlt]
    refine ⟨hn, fun b hb => ?_, fun w hw => (by cases hw)⟩
    rw [← hv, hkind]
    exact (Option.some.inj hb).symm
  · have hkind : c.isTransfer v = false := decide_eq_false hlt
    rw [Config.branch, if_neg hlt]
    refine ⟨hn, fun b hb => ?_, fun w hw => (by cases hw)⟩
    rw [← hv, hkind]
    exact (Option.some.inj hb).symm

theorem Config.At.afterDraw {gen : Gen} {j n : ℕ} {p : Pc} {limit res : ℤ}
    (h : c.At gen j n p) (hlimit : c.drawLimit p = some limit)
    (hres : limit = c.probabilityTransfer + c.probabilityRead → res = c.rndOps gen n) :
    c.At gen j (n + 1) (c.afterDraw res p) := by
  obtain ⟨hcalls, hkind, hlock⟩ := h
  cases p with
  | loop =>
    cases hlimit
    have hn : n = c.position gen j := hcalls
    rw [hn] at hres
    rw [Config.afterDraw]
    by_cases hmix : c.mixRtm = true
    · rw [if_pos hmix]
      refine ⟨by rw [hn]; rfl, fun b hb => (by cases hb), fun v hv => ?_⟩
      obtain rfl := Pc.lock.inj hv
      exact ⟨hres rfl, hmix⟩
    · rw [if_neg hmix]
      refine at_branch ?_ (hres rfl)
      rw [hn, Config.choosing, if_neg hmix]
  | lock rndOp =>
    obtain ⟨hv, hmix⟩ := hlock rndOp rfl
    refine at_branch ?_ hv
    rw [hcalls, Config.choosing, if_pos hmix]
    rfl
  | first | second a₁ | money a₁ a₂ | read =>
    refine ⟨?_, fun b hb => hkind b hb, fun v hv => (by cases hv)⟩
    rw [hcalls]
    rfl
  | operation op => cases hlimit

/-- At the end of an operation the next one begins. -/
theorem Config.At.finish {gen : Gen} {j n : ℕ} {op : Op} (h : c.At gen j n (.operation op)) :
    c.At gen (j + 1) n .loop := by
  refine ⟨?_, fun b hb => (by cases hb), fun v hv => (by cases hv)⟩
  have hkind := h.kind _ rfl
  have hnext : c.position gen (j + 1) = c.position gen j + c.stride op.isTransfer := by
    rw [hkind]
    rfl
  rw [h.calls, hnext]
  cases op <;> rfl

theorem Alone.step (h : Alone c gen₀ t s) (hvalid : c.Valid gen₀)
    (hg : c.randomGenerator ≠ .sysrand) {x : Act T} (ht : x.thread = t)
    (hs : step c s x = some s') : Alone c gen₀ t s' := by
  subst ht
  obtain ⟨j, hat⟩ := h.pos
  rcases step_cases hs with ⟨op, hop, rfl⟩ | ⟨limit, -, -, rfl⟩ |
    ⟨limit, gen, res, gen', hlimit, hseen, hcall, rfl⟩
  · rw [hop] at hat
    refine ⟨h.gen, h.seen, ⟨j + 1, ?_⟩, fun o ho => ?_⟩
    · simp only [Function.update_self]
      exact hat.finish
    · rcases List.mem_append.mp ho with hold | hnew
      · exact h.done o hold
      · obtain rfl := List.mem_singleton.mp hnew
        exact ⟨j, hat.kind _ rfl⟩
  · refine ⟨h.gen, fun gen hgen => ?_, ⟨j, hat⟩, h.done⟩
    simp only [Function.update_self, Option.some.injEq] at hgen
    exact hgen.symm
  · obtain rfl := h.seen gen hseen
    have hvalid' : c.Valid s.gen := h.gen ▸ hvalid.iterate _
    obtain ⟨rfl, rfl⟩ := call_result hvalid' (isLimit_drawLimit hlimit) hcall
    refine ⟨?_, fun gen hgen => ?_, ⟨j, ?_⟩, h.done⟩
    · simp only [List.length_append, List.length_singleton]
      rw [Function.iterate_succ_apply', ← h.gen]
    · simp only [Function.update_self, reduceCtorEq] at hgen
    · simp only [Function.update_self, List.length_append, List.length_singleton]
      refine hat.afterDraw hlimit fun hsum => ?_
      rw [value_eq_of_ne hg, hsum, Config.rndOps, ← h.gen]

omit [DecidableEq T] in
theorem alone_start (gen₀ : Gen) : Alone c gen₀ t (Sys.start gen₀) := by
  have hat : c.At gen₀ 0 0 .loop :=
    ⟨rfl, fun b hb => (by cases hb), fun v hv => (by cases hv)⟩
  refine ⟨rfl, fun gen hgen => ?_, ⟨0, hat⟩, List.forall_mem_nil _⟩
  cases hgen

theorem Runs.alone (h : Runs c gen₀ s) (hvalid : c.Valid gen₀)
    (hg : c.randomGenerator ≠ .sysrand) (hone : ∀ u : T, u = t) : Alone c gen₀ t s := by
  refine Reach.invariant (I := Alone c gen₀ t) (fun s₀ h₀ => ?_)
    (fun s x s' hI _ hs => hI.step hvalid hg (hone _) hs) h
  exact h₀ ▸ alone_start gen₀

/-- A single worker does one operation after the other where it is. -/
theorem exists_run_position (hgen : c.Reachable gen₀) (j : ℕ) :
    ∃ s : Sys T, Runs c gen₀ s ∧ s.Quiet ∧ s.pc t = .loop ∧
      s.gen = c.advance^[c.position gen₀ j] gen₀ ∧
      ∀ i < j, ∃ op ∈ s.done,
        op.isTransfer = c.isTransfer (c.rndOps gen₀ (c.position gen₀ i)) := by
  induction j with
  | zero =>
    exact ⟨Sys.start gen₀, .init rfl, quiet_start gen₀, rfl, rfl, fun i hi => (by cases hi)⟩
  | succ j ih =>
    obtain ⟨s, hs, hquiet, hloop, hpos, hdone⟩ := ih
    have hv : value c.randomGenerator 0 (c.probabilityTransfer + c.probabilityRead) s.gen =
        c.rndOps gen₀ (c.position gen₀ j) := by
      rw [hpos, Config.rndOps]
    obtain ⟨s', op, hs', hquiet', hloop', hdone', hkind, hgen'⟩ :=
      hs.operate hgen hquiet hloop (Nat.zero_le _) hv
    refine ⟨s', hs', hquiet', hloop', ?_, fun i hi => ?_⟩
    · rw [hgen', hpos, ← Function.iterate_add_apply, Nat.add_comm]
      rfl
    · rw [hdone']
      rcases Nat.lt_succ_iff_lt_or_eq.mp hi with hlt | rfl
      · obtain ⟨o, ho, hkind⟩ := hdone i hlt
        exact ⟨o, List.mem_append_left _ ho, hkind⟩
      · exact ⟨op, List.mem_append_right _ (List.mem_singleton_self _), hkind⟩

/-- A single worker does both exactly if it meets a number for the other operation. -/
theorem exists_both_iff_alternates (hgen : c.Reachable gen₀)
    (hg : c.randomGenerator ≠ .sysrand) (hone : ∀ u : T, u = t) :
    (∃ s : Sys T, Runs c gen₀ s ∧ (∃ op ∈ s.done, op.isTransfer = true) ∧
      ∃ op ∈ s.done, op.isTransfer = false) ↔ c.Alternates (c.rndOps gen₀) := by
  rw [c.alternates_iff]
  refine Iff.trans ?_ (exists_walk_ne_iff (d := c.stride)
    (k := fun k => c.isTransfer (c.rndOps gen₀ k)))
  constructor
  · rintro ⟨s, hs, ⟨op, hop, hkind⟩, op', hop', hkind'⟩
    have halone := hs.alone hgen.valid hg hone
    obtain ⟨i, hi⟩ := halone.done op hop
    obtain ⟨j, hj⟩ := halone.done op' hop'
    rw [hkind] at hi
    rw [hkind'] at hj
    -- one of the two is not what the first number says
    cases hfirst : c.isTransfer (c.rndOps gen₀ 0) with
    | true =>
      refine ⟨j, ?_⟩
      change c.isTransfer (c.rndOps gen₀ (c.position gen₀ j)) ≠ true
      rw [← hj]
      simp
    | false =>
      refine ⟨i, ?_⟩
      change c.isTransfer (c.rndOps gen₀ (c.position gen₀ i)) ≠ false
      rw [← hi]
      simp
  · rintro ⟨i, hi⟩
    change c.isTransfer (c.rndOps gen₀ (c.position gen₀ i)) ≠ c.isTransfer (c.rndOps gen₀ 0) at hi
    obtain ⟨s, hs, -, -, -, hdone⟩ := exists_run_position (T := T) (t := t) hgen (i + 1)
    obtain ⟨op, hop, hkind⟩ := hdone 0 (Nat.succ_pos i)
    obtain ⟨op', hop', hkind'⟩ := hdone i (Nat.lt_succ_self i)
    rw [← hkind'] at hi
    change op.isTransfer = c.isTransfer (c.rndOps gen₀ 0) at hkind
    rw [← hkind] at hi
    refine ⟨s, hs, ?_⟩
    cases h : op.isTransfer with
    | true =>
      rw [h] at hi
      exact ⟨⟨op, hop, h⟩, op', hop', by simpa using hi⟩
    | false =>
      rw [h] at hi
      exact ⟨⟨op', hop', by simpa using hi⟩, op, hop, h⟩

/-! ## The benchmark -/

theorem bothOccur_iff_mixes (hgen : c.Reachable gen₀) (htransfer : 0 < c.probabilityTransfer)
    (hread : 0 < c.probabilityRead) : BothOccur c gen₀ ↔ c.Mixes gen₀ := by
  let first : Fin c.numThreads := ⟨0, c.threads_pos⟩
  -- with a free choice of the numbers it is enough that the generator returns both kinds
  have hfree : (c.randomGenerator = .sysrand ∨ ∃ u : Fin c.numThreads, u ≠ first) →
      (BothOccur c gen₀ ↔ c.BothReturned) := by
    intro hfree
    constructor
    · rintro ⟨s, hs, hboth, hboth'⟩
      exact returned_of_both hgen hs hboth hboth'
    · intro hboth
      rcases hfree with hg | ⟨u, hu⟩
      · exact exists_both_of_returned hgen (u := first) (t := first) (Or.inl hg) hboth
      · exact exists_both_of_returned hgen (Or.inr hu) hboth
  have htwo : 1 < c.numThreads → ∃ u : Fin c.numThreads, u ≠ first := by
    intro h
    refine ⟨⟨1, h⟩, fun heq => ?_⟩
    cases congrArg Fin.val heq
  have hone : ¬ 1 < c.numThreads → ∀ u : Fin c.numThreads, u = first := by
    intro h u
    apply Fin.ext
    have := u.isLt
    change (u : ℕ) = 0
    omega
  cases hg : c.randomGenerator with
  | sysrand =>
    simp only [Config.Mixes, hg, iff_true]
    exact (hfree (Or.inl hg)).mpr (bothReturned_sysrand hg htransfer hread)
  | customrand =>
    simp only [Config.Mixes, hg]
    by_cases hn : 1 < c.numThreads
    · rw [if_pos hn, hfree (Or.inr (htwo hn)), bothReturned_customrand_iff hg htransfer hread]
    · have hrndOps : c.rndOps gen₀ = fun k =>
          nextState^[k + 1] gen₀.a % (c.probabilityTransfer + c.probabilityRead) := by
        funext k
        rw [Config.rndOps, hg, value, iterate_state hg, Function.iterate_succ_apply']
      rw [if_neg hn, ← hrndOps]
      exact exists_both_iff_alternates hgen (by simp [hg]) (hone hn)
  | savedrand =>
    simp only [Config.Mixes, hg]
    by_cases hn : 1 < c.numThreads
    · rw [if_pos hn, hfree (Or.inr (htwo hn)), bothReturned_savedrand_iff hg]
    · have hrndOps : c.rndOps gen₀ = fun k =>
          c.entry ((gen₀.randsCounter.toNat + k + 1) % c.randsSize) := by
        funext k
        rw [Config.rndOps, hg, value, iterate_nextSaved hg hgen.valid]
      rw [if_neg hn, ← hrndOps]
      exact exists_both_iff_alternates hgen (by simp [hg]) (hone hn)

/-- The calls with a limit keep to it exactly if the table does. In the rounds of the benchmark the
accounts are in the pool in any case; if the table keeps to the limits that the workers use, all
results are below them and the amounts are in range, and with two workers only then. Both kinds of
operations occur exactly if there are numbers for both where the workers meet them. -/
theorem random_generator_honours_limits (c : Config) :
    (∀ limit, IsLimit limit →
      ((∀ gen, c.Reachable gen → ∀ r ≤ randMax, ∃ res gen',
        call c.randomGenerator r limit gen = some (res, gen') ∧ 0 ≤ res ∧ res < limit) ↔
      c.KeepsTo limit)) ∧
    ∀ gen, c.Left gen →
      (∀ s : Sys (Fin c.numThreads), Runs c gen s →
        (∀ op ∈ s.done, op.InPool) ∧
        (c.KeepsToAll → (∀ d ∈ s.log, d.Honoured) ∧ ∀ op ∈ s.done, op.AmountInRange)) ∧
      (1 < c.numThreads →
        (∀ s : Sys (Fin c.numThreads), Runs c gen s → ∀ d ∈ s.log, d.Honoured) →
        c.KeepsToAll) ∧
      (0 < c.probabilityTransfer → 0 < c.probabilityRead → (BothOccur c gen ↔ c.Mixes gen)) := by
  refine ⟨fun limit hlimit => honours_iff_keepsTo hlimit, fun gen hleft => ?_⟩
  have hgen := hleft.reachable
  refine ⟨fun s hs => ⟨fun op hop => (hs.inv hgen).inPool hop, fun hall => ?_⟩,
    fun hn hruns => ?_, fun htransfer hread => bothOccur_iff_mixes hgen htransfer hread⟩
  · have hlog := hs.honoured hgen hall
    exact ⟨hlog, fun op hop => (hs.inv hgen).amountInRange hlog hop⟩
  · have hne : (⟨1, hn⟩ : Fin c.numThreads) ≠ ⟨0, c.threads_pos⟩ := by
      intro heq
      cases congrArg Fin.val heq
    exact keepsToAll_of_honoured hgen hne hruns

/-- The default settings, with equal probabilities. -/
def Config.defaults (rand : ℕ → ℕ) : Config where
  numThreads := 4
  randomGenerator := .savedrand
  mixRtm := false
  probabilityTransfer := 50
  probabilityRead := 50
  rand := rand
  threads_pos := by decide
  fits := by decide
  transfer_nonneg := by decide
  read_nonneg := by decide
  limit := by decide

/-- The first `rnd_op`, where the second value of `rand()` in the setup has been 5001. -/
theorem savedrand_not_honoured :
    let c := Config.defaults fun i => i + 5000
    c.Left c.init ∧ c.Reachable c.init ∧ IsLimit 100 ∧
      ¬∃ res gen', call c.randomGenerator 0 100 c.init = some (res, gen') ∧
        0 ≤ res ∧ res < 100 := by
  intro c
  refine ⟨.start, .init rfl, by decide, ?_⟩
  intro ⟨res, gen', hcall, _, hlt⟩
  have hnext : c.init.nextSaved = 5001 := by
    have hcounter : c.nextCounter c.init = 1 := by decide
    rw [nextSaved_eq c.valid_init, hcounter]
    rfl
  have hsaved : call c.randomGenerator 0 100 c.init = some (c.init.nextSaved, _) :=
    savedrand_eq c.valid_init 100
  rw [hsaved, hnext] at hcall
  cases hcall
  omega

end Htmsql.Bank.Random
