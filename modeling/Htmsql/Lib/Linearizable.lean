import Mathlib.Data.List.Nodup

/-!
# Linearizability

A history is the sequence of calls and returns that the clients of a concurrent object observe.
It is linearizable when the operations that have returned, with perhaps some that have not, can
be put into one order that a sequential specification admits and that keeps the order of
operations of which one had returned before the other was called.

An implementation proves this by saying, for every operation, at which step it takes effect. The
record of these effects is the order (`Log.effects`). Three moves of the log keep the
linearization: a call, the effect of an operation that has been called, and the return of an
operation with the result that its effect had. Real time takes care of itself, because an
operation called after another one has returned takes effect later.
-/

namespace Htmsql.Linearizable

open List (Sublist)

variable {O R σ : Type}

/-- What the clients see of the operation with the given number. -/
inductive Event (O R : Type) where
  | call (id : Nat) (op : O)
  | ret (id : Nat) (r : R)
  deriving DecidableEq, Repr

/-- The effect of an operation. -/
structure Effect (O R : Type) where
  id : Nat
  op : O
  res : R

/-- The effects, one after the other, are what the specification admits. -/
inductive SpecRun (spec : σ → O → R → σ → Prop) (s₀ : σ) : List (Effect O R) → σ → Prop where
  | nil : SpecRun spec s₀ [] s₀
  | snoc {effects : List (Effect O R)} {s s' : σ} {e : Effect O R}
      (h : SpecRun spec s₀ effects s) (hs : spec s e.op e.res s') :
      SpecRun spec s₀ (effects ++ [e]) s'

/-- `effects` is a linearization of `hist`. -/
structure Linearizes (spec : σ → O → R → σ → Prop) (s₀ : σ) (hist : List (Event O R))
    (effects : List (Effect O R)) : Prop where
  legal : ∃ s, SpecRun spec s₀ effects s
  once : (effects.map Effect.id).Nodup
  called : ∀ e ∈ effects, Event.call e.id e.op ∈ hist
  returned : ∀ id r, .ret id r ∈ hist → ∃ op, ⟨id, op, r⟩ ∈ effects
  /-- the order of real time -/
  order : ∀ e ∈ effects, ∀ f ∈ effects,
    Sublist [.ret e.id e.res, .call f.id f.op] hist → Sublist [e, f] effects

/-- The history of a run with the operations in the order in which they took effect. -/
structure Log (O R : Type) where
  hist : List (Event O R)
  effects : List (Effect O R)
  /-- the number of calls -/
  calls : Nat

namespace Log

/-- Nothing has been called. -/
def empty : Log O R := ⟨[], [], 0⟩

/-- A call, which gets the next number. -/
def call (log : Log O R) (op : O) : Log O R :=
  { log with hist := log.hist ++ [.call log.calls op], calls := log.calls + 1 }

/-- The call with that number takes effect and has its result. -/
def effect (log : Log O R) (id : Nat) (op : O) (r : R) : Log O R :=
  { log with effects := log.effects ++ [⟨id, op, r⟩] }

/-- The call with that number returns. -/
def ret (log : Log O R) (id : Nat) (r : R) : Log O R :=
  { log with hist := log.hist ++ [.ret id r] }

/-- The operation has been called and has had no effect. -/
def Pending (log : Log O R) (id : Nat) (op : O) : Prop :=
  .call id op ∈ log.hist ∧ id ∉ log.effects.map Effect.id

/-- The call with that number has taken effect, with that result. -/
def Effective (log : Log O R) (id : Nat) (r : R) : Prop := ∃ op, ⟨id, op, r⟩ ∈ log.effects

end Log

/-- The invariant of the log; `s` is the abstract state after the effects. -/
structure LogInv (spec : σ → O → R → σ → Prop) (s₀ : σ) (log : Log O R) (s : σ) : Prop where
  run : SpecRun spec s₀ log.effects s
  linearizes : Linearizes spec s₀ log.hist log.effects
  numbered : ∀ id op, .call id op ∈ log.hist → id < log.calls

variable {spec : σ → O → R → σ → Prop} {s₀ s s' : σ} {log : Log O R} {id : Nat} {op : O} {r : R}

theorem logInv_empty : LogInv spec s₀ (Log.empty : Log O R) s₀ := by
  refine ⟨.nil, ⟨⟨s₀, .nil⟩, List.nodup_nil, ?_, ?_, ?_⟩, ?_⟩ <;> simp [Log.empty]

/-- The last element of a list comes after an earlier one. -/
theorem pair_sublist_concat {α : Type} {l : List α} {a b : α} (h : a ∈ l) :
    Sublist [a, b] (l ++ [b]) :=
  (List.singleton_sublist.mpr h).append (List.Sublist.refl [b])

/-- A pair that was not there before the last element was added ends with it. -/
theorem pair_sublist_of_concat {α : Type} {l : List α} {a b x : α}
    (h : Sublist [a, b] (l ++ [x])) (hx : b ≠ x) : Sublist [a, b] l := by
  obtain ⟨l₁, l₂, heq, h₁, h₂⟩ := List.sublist_append_iff.mp h
  rcases List.sublist_singleton.mp h₂ with rfl | rfl
  · rw [List.append_nil] at heq
    exact heq ▸ h₁
  · have hlast := congrArg List.getLast? heq
    simp only [List.getLast?_concat, List.getLast?_cons_cons, List.getLast?_singleton,
      Option.some.injEq] at hlast
    exact (hx hlast).elim

theorem LogInv.called_lt (h : LogInv spec s₀ log s) {e : Effect O R} (he : e ∈ log.effects) :
    e.id < log.calls := h.numbered e.id e.op (h.linearizes.called e he)

theorem LogInv.call (h : LogInv spec s₀ log s) (op : O) : LogInv spec s₀ (log.call op) s := by
  obtain ⟨hrun, hlin, hnum⟩ := h
  refine ⟨hrun, ⟨hlin.legal, hlin.once, fun e he => ?_, fun id r hr => ?_, ?_⟩, ?_⟩
  · exact List.mem_append_left _ (hlin.called e he)
  · rcases List.mem_append.mp hr with hr | hr
    · exact hlin.returned id r hr
    · simp at hr
  · intro e he f hf hpair
    apply hlin.order e he f hf
    apply pair_sublist_of_concat hpair
    -- the operation just called has had no effect
    intro heq
    have hlt := hnum f.id f.op (hlin.called f hf)
    injection heq with hid
    omega
  · intro id op' hc
    show id < log.calls + 1
    rcases List.mem_append.mp hc with hc | hc
    · have := hnum id op' hc
      omega
    · simp only [List.mem_singleton, Event.call.injEq] at hc
      omega

theorem LogInv.effect (h : LogInv spec s₀ log s) (hp : log.Pending id op)
    (hs : spec s op r s') : LogInv spec s₀ (log.effect id op r) s' := by
  obtain ⟨hrun, hlin, hnum⟩ := h
  have hrun' : SpecRun spec s₀ (log.effects ++ [⟨id, op, r⟩]) s' := .snoc hrun hs
  refine ⟨hrun', ⟨⟨s', hrun'⟩, ?_, ?_, fun id' r' hr => ?_, ?_⟩, hnum⟩
  · show ((log.effects ++ [_]).map Effect.id).Nodup
    rw [List.map_append, List.map_singleton]
    refine List.nodup_append.mpr ⟨hlin.once, List.nodup_singleton _, fun a ha b hb heq => ?_⟩
    have hid : a = id := heq.trans (List.mem_singleton.mp hb)
    exact hp.2 (hid ▸ ha)
  · intro e he
    rcases List.mem_append.mp he with he | he
    · exact hlin.called e he
    · rw [List.mem_singleton.mp he]
      exact hp.1
  · obtain ⟨op', hop⟩ := hlin.returned id' r' hr
    exact ⟨op', List.mem_append_left _ hop⟩
  · intro e he f hf hpair
    have hne : e.id ≠ id := by
      intro heq
      -- an operation that has returned has had its effect before
      obtain ⟨op', hop⟩ := hlin.returned e.id e.res (hpair.subset (by simp))
      have hmem : e.id ∈ log.effects.map Effect.id := List.mem_map.mpr ⟨_, hop, rfl⟩
      exact hp.2 (heq ▸ hmem)
    have he' : e ∈ log.effects := by
      rcases List.mem_append.mp he with he | he
      · exact he
      · rw [List.mem_singleton.mp he] at hne
        exact (hne rfl).elim
    rcases List.mem_append.mp hf with hf | hf
    · exact (hlin.order e he' f hf hpair).trans (List.sublist_append_left _ _)
    · rw [List.mem_singleton.mp hf]
      exact pair_sublist_concat he'

theorem LogInv.ret (h : LogInv spec s₀ log s) (he : log.Effective id r) :
    LogInv spec s₀ (log.ret id r) s := by
  obtain ⟨hrun, hlin, hnum⟩ := h
  refine ⟨hrun, ⟨hlin.legal, hlin.once, fun e he => ?_, fun id' r' hr => ?_, ?_⟩, ?_⟩
  · exact List.mem_append_left _ (hlin.called e he)
  · rcases List.mem_append.mp hr with hr | hr
    · exact hlin.returned id' r' hr
    · simp only [List.mem_singleton, Event.ret.injEq] at hr
      obtain ⟨rfl, rfl⟩ := hr
      exact he
  · intro e he f hf hpair
    exact hlin.order e he f hf (pair_sublist_of_concat hpair (by simp))
  · intro id' op' hc
    rcases List.mem_append.mp hc with hc | hc
    · exact hnum id' op' hc
    · simp at hc

/-! ## What the moves do to the operations of others -/

theorem LogInv.pending_call (h : LogInv spec s₀ log s) (op : O) :
    (log.call op).Pending log.calls op := by
  refine ⟨List.mem_append_right _ (List.mem_singleton.mpr rfl), fun hmem => ?_⟩
  obtain ⟨e, he, hid⟩ := List.mem_map.mp hmem
  have := h.called_lt he
  omega

theorem Log.Pending.call (h : log.Pending id op) (op' : O) : (log.call op').Pending id op :=
  ⟨List.mem_append_left _ h.1, h.2⟩

theorem Log.Pending.ret (h : log.Pending id op) (id' : Nat) (r : R) :
    (log.ret id' r).Pending id op := ⟨List.mem_append_left _ h.1, h.2⟩

theorem Log.Pending.effect (h : log.Pending id op) {id' : Nat} (hne : id ≠ id') (op' : O) (r : R) :
    (log.effect id' op' r).Pending id op := by
  refine ⟨h.1, fun hmem => ?_⟩
  change id ∈ (log.effects ++ [_]).map Effect.id at hmem
  rw [List.map_append, List.mem_append] at hmem
  rcases hmem with hmem | hmem
  · exact h.2 hmem
  · exact hne (by simpa using hmem)

theorem Log.Effective.effect (h : log.Effective id r) (id' : Nat) (op' : O) (r' : R) :
    (log.effect id' op' r').Effective id r := by
  obtain ⟨op, hop⟩ := h
  exact ⟨op, List.mem_append_left _ hop⟩

theorem effective_effect (log : Log O R) (id : Nat) (op : O) (r : R) :
    (log.effect id op r).Effective id r := ⟨op, List.mem_append_right _ (List.mem_singleton.mpr rfl)⟩

end Htmsql.Linearizable
