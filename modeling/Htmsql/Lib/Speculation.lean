import Htmsql.Lib.Elision

/-!
# Executable moves of lock elision

`Htmsql.Elision.Step` as functions on the state, for machines that have it as their memory. An
access first rolls back the transactions of other threads that it conflicts with
(`State.rollback`), so that it then meets no conflict; each function is one step or two.
-/

namespace Htmsql.Elision

open Trace

variable {T D V : Type}

/-- The accesses of the open transaction of `t`. -/
def State.txn (s : State T D V) (t : T) : Option (List (Ev D V)) :=
  match s.status t with
  | .speculating tr _ => some tr
  | _ => none

/-- Roll back every open transaction that `hit` says. -/
def State.rollback (s : State T D V) (hit : T → List (Ev D V) → Bool) : State T D V :=
  { s with
    status := fun t =>
      match s.status t with
      | .speculating tr b => if hit t tr then .outside else .speculating tr b
      | st => st }

/-- The thread has the lock and does not speculate. -/
def State.Holds (s : State T D V) (t : T) : Prop := ∃ tr, s.status t = .holding tr

/-- The sections that are over ran one at a time from `m₀`, in the order of the log; a section that
holds the lock runs after them. -/
def State.SerialFrom [DecidableEq D] (s : State T D V) (m₀ : D → V) : Prop :=
  ∃ base, Serial m₀ (s.log.map Prod.snd) base ∧
    (∀ t tr, s.status t = .holding tr → Legal base tr ∧ publish base tr = s.data) ∧
    ((∀ t, ¬ s.Holds t) → base = s.data)

theorem rollback_cases (s : State T D V) (hit : T → List (Ev D V) → Bool) (t : T) :
    (s.rollback hit).status t = s.status t ∧
        (∀ tr b, s.status t = .speculating tr b → hit t tr = false) ∨
      (s.rollback hit).status t = .outside ∧
        ∃ tr b, s.status t = .speculating tr b ∧ hit t tr = true := by
  cases hs : s.status t with
  | outside => exact Or.inl ⟨by simp [State.rollback, hs], by simp⟩
  | holding tr => exact Or.inl ⟨by simp [State.rollback, hs], by simp⟩
  | speculating tr b =>
    cases hh : hit t tr with
    | true => exact Or.inr ⟨by simp [State.rollback, hs, hh], tr, b, rfl, hh⟩
    | false =>
      refine Or.inl ⟨by simp [State.rollback, hs, hh], fun tr' b' heq => ?_⟩
      cases heq
      exact hh

theorem rollback_of_not_speculating {s : State T D V} {hit : T → List (Ev D V) → Bool} {t : T}
    (h : ∀ tr b, s.status t ≠ .speculating tr b) : (s.rollback hit).status t = s.status t := by
  rcases rollback_cases s hit t with ⟨heq, -⟩ | ⟨-, tr, b, hs, -⟩
  · exact heq
  · exact (h tr b hs).elim

theorem holds_rollback {s : State T D V} (hit : T → List (Ev D V) → Bool) (t : T) :
    (s.rollback hit).Holds t ↔ s.Holds t := by
  rcases rollback_cases s hit t with ⟨heq, -⟩ | ⟨heq, tr, b, hs, -⟩
  · simp only [State.Holds, heq]
  · simp [State.Holds, heq, hs]

theorem free_iff {s : State T D V} : s.Free ↔ ∀ t, ¬ s.Holds t := by
  simp [State.Free, State.Holds]

variable [DecidableEq T] [DecidableEq D]

theorem step_rollback (s : State T D V) (hit : T → List (Ev D V) → Bool) :
    Step s (s.rollback hit) := by
  refine .abort s (s.rollback hit).status fun t => ?_
  rcases rollback_cases s hit t with ⟨heq, -⟩ | ⟨heq, tr, b, hs, -⟩
  · exact Or.inl heq
  · exact Or.inr ⟨heq, tr, b, hs⟩

/-- The transactions of other threads that an access of `t` conflicts with. -/
def conflicting (t : T) (e : Ev D V) (u : T) (tr : List (Ev D V)) : Bool :=
  decide (u ≠ t ∧ e.Conflicts tr)

theorem unopposed_rollback (s : State T D V) (t : T) (e : Ev D V) :
    (s.rollback (conflicting t e)).Unopposed t e := by
  intro u tr b hu hst
  rcases rollback_cases s (conflicting t e) u with ⟨heq, hmiss⟩ | ⟨heq, -⟩
  · rw [heq] at hst
    simpa [conflicting, hu] using hmiss tr b hst
  · rw [heq] at hst
    cases hst

/-- An access inside a section. -/
def State.access (s : State T D V) (t : T) (e : (D → V) → Ev D V) : Option (State T D V) :=
  match s.status t with
  | .outside => none
  | .speculating tr b =>
    let e := e (publish s.data tr)
    some ((s.rollback (conflicting t e)).setStatus t (.speculating (tr ++ [e]) b))
  | .holding tr =>
    let e := e s.data
    some { (s.rollback (conflicting t e)).setStatus t (.holding (tr ++ [e])) with
      data := publish s.data [e] }

theorem steps_access {s s' : State T D V} {t : T} {e : (D → V) → Ev D V}
    (he : ∀ m, Reads m (e m)) (hs : s.access t e = some s') : Steps s s' := by
  unfold State.access at hs
  split at hs
  · cases hs
  · rename_i tr b hst
    cases hs
    set ev := e (publish s.data tr) with hev
    have hst' : (s.rollback (conflicting t ev)).status t = .speculating tr b := by
      rcases rollback_cases s (conflicting t ev) t with ⟨heq, -⟩ | ⟨-, tr', b', -, hh⟩
      · rw [heq, hst]
      · simp [conflicting] at hh
    exact .tail (.single (step_rollback s _))
      (.specAccess _ t tr b ev hst' (he _) (unopposed_rollback s t ev))
  · rename_i tr hst
    cases hs
    set ev := e s.data with hev
    have hst' : (s.rollback (conflicting t ev)).status t = .holding tr := by
      rw [rollback_of_not_speculating (by simp [hst]), hst]
    exact .tail (.single (step_rollback s _))
      (.ownAccess _ t tr ev hst' (he _) (unopposed_rollback s t ev))

/-- What an access changes: the trace of its own section, and the transactions rolled back. -/
theorem access_cases {s s' : State T D V} {t : T} {e : (D → V) → Ev D V}
    (hs : s.access t e = some s') {ev : Ev D V}
    (hev : ev = e (publish s.data ((s.txn t).getD []))) :
    (∀ u, u ≠ t → s'.status u = (s.rollback (conflicting t ev)).status u) ∧
      ((∃ tr b, s.status t = .speculating tr b ∧ s'.status t = .speculating (tr ++ [ev]) b) ∨
        ∃ tr, s.status t = .holding tr ∧ s'.status t = .holding (tr ++ [ev])) := by
  unfold State.access at hs
  split at hs
  · cases hs
  · rename_i tr b hst
    have hev' : ev = e (publish s.data tr) := by simpa [State.txn, hst] using hev
    cases hs
    subst hev'
    exact ⟨fun u hu => Function.update_of_ne hu _ _,
      Or.inl ⟨tr, b, hst, Function.update_self _ _ _⟩⟩
  · rename_i tr hst
    have hev' : ev = e s.data := by simpa [State.txn, hst] using hev
    cases hs
    subst hev'
    exact ⟨fun u hu => Function.update_of_ne hu _ _,
      Or.inr ⟨tr, hst, Function.update_self _ _ _⟩⟩

/-- The lock is taken while no other transaction is open. -/
theorem step_take {s : State T D V} {t : T} (hf : s.Free) (ht : s.status t = .outside)
    (hu : ∀ u tr b, s.status u ≠ .speculating tr b) : Step s (s.setStatus t (.holding [])) := by
  refine .acquire s t _ hf ht (by simp) fun u hne => ?_
  rw [Function.update_of_ne hne]
  cases hs : s.status u with
  | speculating tr b => exact (hu u tr b hs).elim
  | outside | holding tr => rfl

omit [DecidableEq T] in
theorem Safe.serialFrom {m₀ : D → V} {s : State T D V} (h : Safe m₀ s) : s.SerialFrom m₀ := by
  obtain ⟨base, h₁, h₂, h₃⟩ := h.serial
  exact ⟨base, h₁, h₂, fun hf => h₃ (free_iff.mpr hf)⟩

end Htmsql.Elision
