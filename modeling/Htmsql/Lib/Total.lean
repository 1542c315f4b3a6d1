import Mathlib.Algebra.BigOperators.Group.Finset.Piecewise
import Mathlib.Data.Fintype.Basic

/-!
# Totals over the threads

Each thread contributes to a total, according to what it is doing. A step of one thread changes
the total by the change of that thread's contribution. The amounts may be numbers, or multisets of
values; nothing is subtracted.
-/

namespace Htmsql.Total

variable {T A M : Type} [Fintype T] [DecidableEq T] [AddCommMonoid M]

/-- The new total and the old contribution of the thread make the old total and the new
contribution. -/
theorem sum_update (g : T → A) (c : A → M) (t : T) (a : A) :
    ∑ u, c (Function.update g t a u) + c (g t) = ∑ u, c (g u) + c a := by
  have hupdate : (fun u => c (Function.update g t a u)) =
      Function.update (fun u => c (g u)) t (c a) := by
    funext u
    exact Function.apply_update (fun _ => c) g t a u
  rw [hupdate, Finset.sum_update_of_mem (Finset.mem_univ t), Finset.sdiff_singleton_eq_erase,
    add_assoc, Finset.sum_erase_add _ _ (Finset.mem_univ t), add_comm]

/-- The contributions of all others stay. -/
theorem sum_of_ne {f f' : T → M} {t : T} (h : ∀ u, u ≠ t → f' u = f u) :
    ∑ u, f' u + f t = ∑ u, f u + f' t := by
  have hf : f' = Function.update f t (f' t) := by
    funext u
    by_cases hu : u = t
    · rw [hu, Function.update_self]
    · rw [Function.update_of_ne hu, h u hu]
  have := sum_update f id t (f' t)
  rw [hf, Function.update_self]
  exact this

/-- A step that keeps the contribution keeps the total. -/
theorem sum_update_of_eq {g : T → A} {c : A → M} {t : T} {a : A} (h : c a = c (g t)) :
    ∑ u, c (Function.update g t a u) = ∑ u, c (g u) := by
  refine Finset.sum_congr rfl fun u _ => ?_
  by_cases hu : u = t
  · rw [hu, Function.update_self, h]
  · rw [Function.update_of_ne hu]

end Htmsql.Total
