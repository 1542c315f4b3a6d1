import Htmsql.Innodb.MutexCode
import Mathlib.Logic.Function.Basic

/-!
# The lock word has one holder

The invariant of the mutex functions on their own: the lock word is 1 exactly while one thread is
at a point where it has set it and has not reset it. It is kept by every operation of the code
(`Held.exec`), by a test-and-set outside it (`Held.take`) and by any move after which the same
threads hold the mutex (`Held.congr`).
-/

namespace Htmsql.Innodb

variable {T : Type}

/-- The lock word `word` belongs to the thread for which `holds` is true. -/
structure Held (word : Nat) (holds : T → Bool) : Prop where
  binary : word = 0 ∨ word = 1
  set : ∀ t, holds t = true → word = 1
  owned : word ≠ 0 → ∃ t, holds t = true
  unique : ∀ t u, holds t = true → holds u = true → t = u

variable {word : Nat} {holds holds' : T → Bool}

theorem held_free (h : ∀ t, holds t = false) : Held 0 holds := by
  refine ⟨Or.inl rfl, fun t ht => ?_, fun hne => (hne rfl).elim, fun t u ht => ?_⟩ <;>
    rw [h t] at ht <;> cases ht

theorem Held.free_iff (h : Held word holds) : word = 0 ↔ ∀ t, holds t = false := by
  constructor
  · intro hw t
    cases ht : holds t with
    | false => rfl
    | true =>
      have := h.set t ht
      omega
  · intro hall
    by_contra hne
    obtain ⟨t, ht⟩ := h.owned hne
    rw [hall t] at ht
    cases ht

theorem Held.congr (h : Held word holds) (hh : ∀ t, holds' t = holds t) : Held word holds' := by
  have : holds' = holds := by
    ext t
    rw [hh t]
  exact this ▸ h

theorem Held.take {t : T} (h : Held 0 holds) (ht : holds' t = true)
    (hother : ∀ u, u ≠ t → holds' u = holds u) : Held 1 holds' := by
  have hnone := h.free_iff.mp rfl
  have hself : ∀ u, holds' u = true → u = t := by
    intro u hu
    by_contra hne
    rw [hother u hne, hnone u] at hu
    cases hu
  refine ⟨Or.inr rfl, fun _ _ => rfl, fun _ => ⟨t, ht⟩, fun u v hu hv => ?_⟩
  rw [hself u hu, hself v hv]

theorem Held.reset {t : T} (h : Held word holds) (hold : holds t = true) (ht : holds' t = false)
    (hother : ∀ u, u ≠ t → holds' u = holds u) : Held 0 holds' := by
  refine held_free fun u => ?_
  by_cases hu : u = t
  · rw [hu, ht]
  · rw [hother u hu]
    cases hhu : holds u with
    | false => rfl
    | true => exact (hu (h.unique u t hhu hold)).elim

/-- One operation of the mutex code by thread `t`. -/
theorem Held.exec {debug : Bool} {rounds : Nat} {m m' : IbMutex} {t : T} {p p' : MutexPc}
    {i : Instr MutexPc} (h : Held m.lockWord holds) (hp : holds t = p.holds)
    (hp' : holds' t = p'.holds) (hother : ∀ u, u ≠ t → holds' u = holds u)
    (hi : code debug rounds p = some i) (he : m.exec i = some (m', p')) :
    Held m'.lockWord holds' := by
  rcases exec_word h.binary hi he with ⟨hw, hh, -⟩ | ⟨h₀, h₁, -, -, rfl, -⟩ | ⟨rfl, h₀, rfl⟩
  · rw [hw]
    refine h.congr fun u => ?_
    by_cases hu : u = t
    · rw [hu, hp', hh, hp]
    · exact hother u hu
  · rw [h₁]
    refine Held.take (h₀ ▸ h) ?_ hother
    rw [hp', MutexPc.holds_afterTestAndSet]
  · rw [h₀]
    exact h.reset hp hp' hother

end Htmsql.Innodb
