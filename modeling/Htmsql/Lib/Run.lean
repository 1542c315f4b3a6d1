import Mathlib.Logic.Relation

/-!
# Runs of a machine

A machine is a partial step function `step : σ → α → Option σ`: action `a` is enabled in
state `s` when `step s a` is a state. A run starts in an initial state and takes enabled
actions. `Reach` records in addition a condition `ok` that every step of the run meets, a
condition on the state before the step and on the action; `fun _ _ => True` gives all runs.
-/

namespace Htmsql.Run

variable {σ α : Type}

/-- The states at the end of a run whose steps all satisfy `ok`. -/
inductive Reach (step : σ → α → Option σ) (start : σ → Prop) (ok : σ → α → Prop) : σ → Prop where
  | init {s : σ} (h : start s) : Reach step start ok s
  | step {s s' : σ} {a : α} (h : Reach step start ok s) (hok : ok s a)
      (hs : step s a = some s') : Reach step start ok s'

variable {step : σ → α → Option σ} {start : σ → Prop} {ok : σ → α → Prop}

/-- What holds initially and is kept by every admitted step holds in every state reached. -/
theorem Reach.invariant {I : σ → Prop} (h0 : ∀ s, start s → I s)
    (hstep : ∀ s a s', I s → ok s a → step s a = some s' → I s') {s : σ}
    (h : Reach step start ok s) : I s := by
  induction h with
  | init h => exact h0 _ h
  | step _ hok hs ih => exact hstep _ _ _ ih hok hs

/-- An invariant may be used in the condition under which a second one is kept. -/
theorem Reach.strengthen {I : σ → Prop} (hI : ∀ s, Reach step start ok s → I s) {s : σ}
    (h : Reach step start ok s) : Reach step start (fun s a => ok s a ∧ I s) s := by
  induction h with
  | init h => exact .init h
  | step h hok hs ih => exact .step ih ⟨hok, hI _ h⟩ hs

/-- Take the actions of a list in order. -/
def exec (step : σ → α → Option σ) : σ → List α → Option σ
  | s, [] => some s
  | s, a :: as => (step s a).bind (exec step · as)

theorem exec_append (s : σ) (as bs : List α) :
    exec step s (as ++ bs) = (exec step s as).bind (exec step · bs) := by
  induction as generalizing s with
  | nil => rfl
  | cons a as ih =>
    simp only [List.cons_append, exec]
    cases step s a with
    | none => rfl
    | some s' => exact ih s'

/-- A state is reached by a list of actions. -/
theorem Reach.exists_exec {s : σ} (h : Reach step start ok s) :
    ∃ s₀, start s₀ ∧ ∃ as, exec step s₀ as = some s := by
  induction h with
  | init h => exact ⟨_, h, [], rfl⟩
  | @step s s' a _ _ hs ih =>
    obtain ⟨s₀, h₀, as, has⟩ := ih
    refine ⟨s₀, h₀, as ++ [a], ?_⟩
    rw [exec_append, has, Option.bind_some, exec, hs]
    rfl

/-- The state that an execution ends in, given something that can be computed from it. -/
theorem exec_result {β : Type} (step : σ → α → Option σ) (s : σ) (as : List α) (f : σ → β)
    (b : β) (h : (exec step s as).map f = some b) :
    ∃ s', exec step s as = some s' ∧ f s' = b :=
  Option.map_eq_some_iff.mp h

/-- Only the steps that `ok` admits. -/
def guarded (step : σ → α → Option σ) (ok : σ → α → Prop) [∀ s a, Decidable (ok s a)] (s : σ)
    (a : α) : Option σ :=
  if ok s a then step s a else none

/-- A list of admitted actions that executes from a reached state leads to a reached state. -/
theorem Reach.exec_guarded [∀ s a, Decidable (ok s a)] {s s' : σ} {as : List α}
    (h : Reach step start ok s) (hs : exec (guarded step ok) s as = some s') :
    Reach step start ok s' := by
  induction as generalizing s with
  | nil =>
    simp only [exec, Option.some.injEq] at hs
    exact hs ▸ h
  | cons a as ih =>
    simp only [exec, Option.bind_eq_some_iff] at hs
    obtain ⟨s₁, h₁, h₂⟩ := hs
    unfold guarded at h₁
    split at h₁
    · rename_i hok
      exact ih (.step h hok h₁) h₂
    · cases h₁

theorem Reach.exec {s s' : σ} {as : List α} (h : Reach step start (fun _ _ => True) s)
    (hs : exec step s as = some s') : Reach step start (fun _ _ => True) s' := by
  have hstep : guarded step (fun _ _ => True) = step := by
    funext s a
    exact if_pos trivial
  exact h.exec_guarded (hstep ▸ hs)

end Htmsql.Run
