import Mathlib.Logic.Function.Basic
import Mathlib.Logic.Relation

/-!
# Waiting for a lock with a waiters flag and an event

An abstract account of a lock whose waiters suspend themselves. A waiter raises a flag, tries
the lock once more and suspends itself when that fails. A thread that frees the lock looks at
the flag afterwards; if it is raised, it lowers the flag and then sets the event, which wakes
every thread that was waiting at that moment. Any other thread may also lower the flag and set
the event, as long as it does both in this order.

The two facts that make this sound are invariants of the whole system (`Safe`):

* while somebody waits unsignalled, the flag is raised or somebody is between lowering the
  flag and setting the event;
* while somebody is committed to suspension, the lock is taken or somebody still has to look
  at the flag or to set the event.

Freeing the lock is two steps, `release` (from here on the thread owes a look at the flag) and
`unlock` (the lock is seen free); lowering the flag is `clear` and `lower` in the same way.
Between the two halves the store may be anywhere on its way to memory.
-/

namespace Htmsql.Wakeup

variable {T : Type}

/-- What a thread has to do with the waiting protocol. -/
inductive Role where
  | other
  | announced
  | suspended
  | released
  | clearing
  | setting
  deriving DecidableEq, Repr

/-- An unsignalled waiter. -/
def Role.waits : Role → Prop
  | announced => True
  | suspended => True
  | _ => False

/-- A thread that still has to look at the flag, or is on its way to set the event. -/
def Role.obliged : Role → Prop
  | released => True
  | clearing => True
  | setting => True
  | _ => False

/-- A lock with a flag for its waiters, and the role that each thread plays. -/
structure State (T : Type) where
  locked : Bool
  flag : Bool
  role : T → Role

/-- The invariant of the protocol. -/
structure Safe (a : State T) : Prop where
  flagged : ∀ w, (a.role w).waits → a.flag = true ∨ ∃ u, a.role u = .setting
  owed : ∀ w, a.role w = .suspended → a.locked = true ∨ ∃ u, (a.role u).obliged

/-- Nobody waits for ever: with the lock free, a suspended thread has somebody who still has to
look at the flag or is on its way to set the event. -/
theorem Safe.not_stuck {a : State T} (h : Safe a) {w : T} (hw : a.role w = .suspended)
    (hl : a.locked = false) : ∃ u, (a.role u).obliged := by
  rcases h.owed w hw with hlock | ho
  · rw [hl] at hlock
    cases hlock
  · exact ho

variable [DecidableEq T]

namespace State

/-- The role of one thread changes. -/
def setRole (a : State T) (t : T) (r : Role) : State T :=
  { a with role := Function.update a.role t r }

theorem setRole_role (a : State T) (t u : T) (r : Role) :
    (a.setRole t r).role u = if u = t then r else a.role u := by
  simp [setRole, Function.update_apply]

end State

/-- What a thread may do to the lock and the flag, and what it owes the others from then on. -/
inductive Step : State T → State T → Prop where
  /-- The lock is taken by a thread that is not obliged to anything. -/
  | lock (a : State T) (t : T) (h : ¬ (a.role t).obliged) :
      Step a { a.setRole t .other with locked := true }
  /-- A waiter raises the flag. -/
  | announce (a : State T) (t : T) (h : a.role t = .other) :
      Step a { a.setRole t .announced with flag := true }
  /-- The flag is raised on behalf of a waiter that has been signalled already. -/
  | raise (a : State T) : Step a { a with flag := true }
  /-- The last try of a waiter finds the lock taken. -/
  | suspend (a : State T) (t : T) (h : a.role t = .announced) (hl : a.locked = true) :
      Step a (a.setRole t .suspended)
  | release (a : State T) (t : T) (h : a.role t = .other) : Step a (a.setRole t .released)
  | unlock (a : State T) (t : T) (h : a.role t = .released) : Step a { a with locked := false }
  /-- A thread that freed the lock finds the flag down. -/
  | pass (a : State T) (t : T) (h : a.role t = .released) (hf : a.flag = false) :
      Step a (a.setRole t .other)
  | oblige (a : State T) (t : T) (h : a.role t = .released ∨ a.role t = .other) :
      Step a (a.setRole t .clearing)
  | clear (a : State T) (t : T) (h : a.role t = .clearing) : Step a (a.setRole t .setting)
  | lower (a : State T) (t : T) (h : a.role t = .setting) : Step a { a with flag := false }
  /-- Setting the event wakes everybody who waits. -/
  | signal (a : State T) (t : T) (h : a.role t = .setting) (r : T → Role)
      (hr : ∀ u, u = t ∨ (a.role u).waits → r u = .other)
      (hkeep : ∀ u, u ≠ t → ¬ (a.role u).waits → r u = a.role u) :
      Step a { a with role := r }

/-! ## Changing the role of one thread -/

theorem exists_setRole {a : State T} {t : T} {r : Role} {P : Role → Prop}
    (ht : P (a.role t) → P r) (h : ∃ u, P (a.role u)) : ∃ u, P ((a.setRole t r).role u) := by
  obtain ⟨u, hu⟩ := h
  refine ⟨u, ?_⟩
  rw [State.setRole_role]
  split
  · rename_i he
    exact ht (he ▸ hu)
  · exact hu

/-- A change of role that makes nobody wait anew and gives up no obligation is safe. -/
theorem Safe.setRole {a : State T} (h : Safe a) {t : T} {r : Role}
    (hw : r.waits → (a.role t).waits) (hs : r = .suspended → a.locked = true)
    (hset : a.role t = .setting → r = .setting) (ho : (a.role t).obliged → r.obliged) :
    Safe (a.setRole t r) := by
  refine ⟨?_, ?_⟩
  · intro w hwait
    have hold : (a.role w).waits := by
      rw [State.setRole_role] at hwait
      split at hwait
      · rename_i he
        exact he ▸ hw hwait
      · exact hwait
    exact (h.flagged w hold).imp_right (exists_setRole (P := (· = .setting)) hset)
  · intro w hsus
    rw [State.setRole_role] at hsus
    split at hsus
    · exact Or.inl (hs hsus)
    · exact (h.owed w hsus).imp_right (exists_setRole ho)

theorem Safe.step {a b : State T} (h : Safe a) (hs : Step a b) : Safe b := by
  cases hs with
  | lock t hn =>
    have hr : Safe (a.setRole t .other) := by
      refine h.setRole (fun hw => hw.elim) (fun hr => by cases hr) ?_ (fun ho => (hn ho).elim)
      intro hset
      rw [hset] at hn
      exact (hn trivial).elim
    exact ⟨hr.flagged, fun _ _ => Or.inl rfl⟩
  | announce t ht =>
    refine ⟨fun _ _ => Or.inl rfl, ?_⟩
    intro w hw
    replace hw : (a.setRole t .announced).role w = .suspended := hw
    rw [State.setRole_role] at hw
    split at hw
    · cases hw
    · refine (h.owed w hw).imp_right (exists_setRole ?_)
      rw [ht]
      exact fun ho => ho.elim
  | raise => exact ⟨fun _ _ => Or.inl rfl, h.owed⟩
  | suspend t ht hl =>
    refine h.setRole (fun _ => ?_) (fun _ => hl) (fun hr => ?_) (fun ho => ?_)
    · rw [ht]
      trivial
    · rw [ht] at hr
      cases hr
    · rw [ht] at ho
      exact ho.elim
  | release t ht =>
    refine h.setRole (fun hw => hw.elim) (fun hr => by cases hr) (fun hr => ?_) (fun _ => trivial)
    rw [ht] at hr
    cases hr
  | unlock t ht =>
    refine ⟨h.flagged, fun _ _ => Or.inr ⟨t, ?_⟩⟩
    change (a.role t).obliged
    rw [ht]
    trivial
  | pass t ht hf =>
    -- the thread leaves although others may wait: somebody else is about to set the event
    have hother : ∀ w, (a.role w).waits → ∃ u, (a.setRole t .other).role u = .setting := by
      intro w hw
      rcases h.flagged w hw with hflag | hset
      · rw [hf] at hflag
        cases hflag
      · refine exists_setRole (P := (· = .setting)) (fun hr => ?_) hset
        rw [ht] at hr
        cases hr
    have hold : ∀ w, ((a.setRole t .other).role w).waits → (a.role w).waits := by
      intro w hw
      rw [State.setRole_role] at hw
      split at hw
      · exact hw.elim
      · exact hw
    refine ⟨fun w hw => Or.inr (hother w (hold w hw)), fun w hw => Or.inr ?_⟩
    have hwait : ((a.setRole t .other).role w).waits := by
      rw [hw]
      trivial
    obtain ⟨u, hu⟩ := hother w (hold w hwait)
    refine ⟨u, ?_⟩
    rw [hu]
    trivial
  | oblige t ht =>
    refine h.setRole (fun hw => hw.elim) (fun hr => by cases hr) (fun hr => ?_) (fun _ => trivial)
    rcases ht with ht | ht <;> rw [ht] at hr <;> cases hr
  | clear t ht =>
    exact h.setRole (fun hw => hw.elim) (fun hr => by cases hr) (fun _ => rfl) (fun _ => trivial)
  | lower t ht => exact ⟨fun _ _ => Or.inr ⟨t, ht⟩, h.owed⟩
  | signal t ht r hr hkeep =>
    have hnone : ∀ w, ¬ (r w).waits := by
      intro w hw
      by_cases hout : w = t ∨ (a.role w).waits
      · rw [hr w hout] at hw
        exact hw
      · rw [not_or] at hout
        rw [hkeep w hout.1 hout.2] at hw
        exact hout.2 hw
    refine ⟨fun w hw => (hnone w hw).elim, fun w hw => (hnone w ?_).elim⟩
    change r w = .suspended at hw
    rw [hw]
    trivial

/-- Several steps of the protocol. -/
def Steps : State T → State T → Prop := Relation.ReflTransGen Step

theorem Safe.steps {a b : State T} (h : Safe a) (hs : Steps a b) : Safe b := by
  induction hs with
  | refl => exact h
  | tail _ hs ih => exact ih.step hs

end Htmsql.Wakeup
