import Htmsql.Lib.Linearizable

/-!
# The clients of a linearizable object

Each thread has one call in progress at most, and an implementation says of each thread whether its
operation is still to take effect. `Clients` ties this to the log: every call in progress has a number
of its own, under which the log has it as called, and has its effect if it has had one. The moves are
those of the log, for one thread among others that stay where they are.
-/

namespace Htmsql.Linearizable

variable {T O R σ : Type}

/-- How far the call of a thread has come. -/
inductive Status (O R : Type) where
  | idle
  | pending (op : O)
  | effective (r : R)
  deriving DecidableEq, Repr

/-- The log has the call as its status says: called, or called and effective. -/
def Status.Logged (log : Log O R) (id : Nat) : Status O R → Prop
  | idle => True
  | pending op => log.Pending id op
  | effective r => log.Effective id r

/-- What a step of its thread may do within a call, and to the abstract state. -/
inductive Status.Step (spec : σ → O → R → σ → Prop) : Status O R → σ → Status O R → σ → Prop where
  | keep (status : Status O R) (s : σ) : Step spec status s status s
  | effect {op : O} {r : R} {s s' : σ} (h : spec s op r s') :
      Step spec (.pending op) s (.effective r) s'
  | ret (r : R) (s : σ) : Step spec (.effective r) s .idle s

/-- `s` is the abstract state after the effects. -/
structure Clients (spec : σ → O → R → σ → Prop) (s₀ : σ) (log : Log O R) (id : T → Nat)
    (status : T → Status O R) (s : σ) : Prop where
  logged : ∀ t, (status t).Logged log (id t)
  numbered : ∀ t, status t ≠ .idle → id t < log.calls
  distinct : ∀ t u, status t ≠ .idle → status u ≠ .idle → id t = id u → t = u
  log : LogInv spec s₀ log s

variable {spec : σ → O → R → σ → Prop} {s₀ s s' : σ} {log : Log O R} {id : T → Nat}
  {status status' : T → Status O R} {t : T} {op : O} {r : R}

theorem clients_init : Clients spec s₀ (Log.empty : Log O R) id (fun _ : T => .idle) s₀ :=
  ⟨fun _ => trivial, fun _ h => (h rfl).elim, fun _ _ h => (h rfl).elim, logInv_empty⟩

/-- The log moves under the threads that are not `t`. -/
theorem Clients.move (h : Clients spec s₀ log id status s) {log' : Log O R} {id' : T → Nat}
    (hid : ∀ u, u ≠ t → id' u = id u) (hother : ∀ u, u ≠ t → status' u = status u)
    (hlogged : (status' t).Logged log' (id' t))
    (hpending : ∀ u op, u ≠ t → status u = .pending op → log'.Pending (id u) op)
    (heffective : ∀ n r, log.Effective n r → log'.Effective n r)
    (hcalls : log.calls ≤ log'.calls)
    (hnumber : status' t ≠ .idle → id' t < log'.calls ∧
      ∀ u, u ≠ t → status u ≠ .idle → id' t ≠ id u)
    (hlog : LogInv spec s₀ log' s') : Clients spec s₀ log' id' status' s' := by
  refine ⟨fun u => ?_, fun u hu => ?_, fun u v hu hv heq => ?_, hlog⟩
  · by_cases hut : u = t
    · exact hut ▸ hlogged
    · rw [hother u hut, hid u hut]
      have hu := h.logged u
      cases hst : status u with
      | idle => trivial
      | pending op => exact hpending u op hut hst
      | effective r =>
        rw [hst] at hu
        exact heffective _ r hu
  · by_cases hut : u = t
    · subst hut
      exact (hnumber hu).1
    · rw [hother u hut] at hu
      rw [hid u hut]
      exact Nat.lt_of_lt_of_le (h.numbered u hu) hcalls
  · by_cases hut : u = t <;> by_cases hvt : v = t
    · rw [hut, hvt]
    · rw [hother v hvt] at hv
      rw [hid v hvt] at heq
      subst hut
      exact ((hnumber hu).2 v hvt hv heq).elim
    · rw [hother u hut] at hu
      rw [hid u hut] at heq
      subst hvt
      exact ((hnumber hv).2 u hut hu heq.symm).elim
    · rw [hother u hut] at hu
      rw [hother v hvt] at hv
      rw [hid u hut, hid v hvt] at heq
      exact h.distinct u v hu hv heq

/-- A step that is none of the three moves of the log. -/
theorem Clients.keep (h : Clients spec s₀ log id status s) (hst : ∀ u, status' u = status u) :
    Clients spec s₀ log id status' s := by
  have : status' = status := funext hst
  exact this ▸ h

/-- The number of a call in progress belongs to its thread. -/
theorem Clients.number (h : Clients spec s₀ log id status s) (ht : status t ≠ .idle) :
    id t < log.calls ∧ ∀ u, u ≠ t → status u ≠ .idle → id t ≠ id u :=
  ⟨h.numbered t ht, fun u hu hne heq => hu (h.distinct u t hne ht heq.symm)⟩

theorem Clients.call [DecidableEq T] (h : Clients spec s₀ log id status s) (op : O)
    (ht : status' t = .pending op) (hother : ∀ u, u ≠ t → status' u = status u) :
    Clients spec s₀ (log.call op) (Function.update id t log.calls) status' s := by
  refine h.move (fun u hu => Function.update_of_ne hu _ _) hother ?_
    (fun u op' hu hp => ?_) (fun _ _ he => he) (Nat.le_succ _) (fun _ => ?_) (h.log.call op)
  · rw [ht, Function.update_self]
    exact h.log.pending_call op
  · have hl := h.logged u
    rw [hp] at hl
    exact hl.call op
  · rw [Function.update_self]
    refine ⟨Nat.lt_succ_self _, fun u _ hne heq => ?_⟩
    have := h.numbered u hne
    omega

theorem Clients.effect (h : Clients spec s₀ log id status s) (hp : status t = .pending op)
    (hs : spec s op r s') (ht : status' t = .effective r)
    (hother : ∀ u, u ≠ t → status' u = status u) :
    Clients spec s₀ (log.effect (id t) op r) id status' s' := by
  have hl := h.logged t
  rw [hp] at hl
  have hidle : status t ≠ .idle := by simp [hp]
  refine h.move (fun _ _ => rfl) hother ?_ (fun u op' hu hpu => ?_) (fun _ _ he => he.effect _ _ _)
    (Nat.le_refl _) (fun _ => h.number hidle) (h.log.effect hl hs)
  · rw [ht]
    exact effective_effect log (id t) op r
  · have hlu := h.logged u
    rw [hpu] at hlu
    exact hlu.effect (fun heq => (h.number hidle).2 u hu (by simp [hpu]) heq.symm) _ _

theorem Clients.ret (h : Clients spec s₀ log id status s) (he : status t = .effective r)
    (ht : status' t = .idle) (hother : ∀ u, u ≠ t → status' u = status u) :
    Clients spec s₀ (log.ret (id t) r) id status' s := by
  have hl := h.logged t
  rw [he] at hl
  refine h.move (fun _ _ => rfl) hother (by rw [ht]; trivial) (fun u op' hu hpu => ?_)
    (fun _ _ he => he) (Nat.le_refl _) (fun hne => (hne ht).elim) (h.log.ret hl)
  have hlu := h.logged u
  rw [hpu] at hlu
  exact hlu.ret _ _

end Htmsql.Linearizable
