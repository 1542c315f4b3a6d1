import Mathlib.Algebra.BigOperators.Group.List.Basic
import Mathlib.Algebra.BigOperators.Ring.List
import Mathlib.Algebra.Order.BigOperators.Group.List
import Mathlib.Algebra.Order.Field.Basic
import Mathlib.Tactic.FieldSimp
import Mathlib.Tactic.Ring
import Mathlib.Tactic.Positivity

/-!
# Mean and variance of a list

The variance is that of the whole population, the mean of the squared distances from the mean. It
is also the mean of the squares without the square of the mean, which needs only running sums.
-/

namespace Htmsql.Moments

section Field

variable {K : Type} [Field K]

/-- The arithmetic mean; 0 for no values. -/
def mean (xs : List K) : K := xs.sum / xs.length

/-- The mean of the squared distances from the mean. -/
def variance (xs : List K) : K := mean (xs.map fun x => (x - mean xs) ^ 2)

theorem mean_map (xs : List K) (f : K → K) : mean (xs.map f) = (xs.map f).sum / xs.length := by
  rw [mean, List.length_map]

theorem mean_perm {xs ys : List K} (h : xs.Perm ys) : mean xs = mean ys := by
  rw [mean, mean, h.sum_eq, h.length_eq]

theorem variance_perm {xs ys : List K} (h : xs.Perm ys) : variance xs = variance ys := by
  rw [variance, variance, mean_perm h]
  exact mean_perm (h.map _)

/-- The squared distances from any point. -/
theorem sum_map_sub_sq (xs : List K) (c : K) :
    (xs.map fun x => (x - c) ^ 2).sum =
      (xs.map fun x => x * x).sum - 2 * c * xs.sum + xs.length * c ^ 2 := by
  induction xs with
  | nil => simp
  | cons x xs ih =>
    simp only [List.map_cons, List.sum_cons, List.length_cons, ih]
    push_cast
    ring

theorem length_ne_zero [CharZero K] {xs : List K} (hne : xs ≠ []) : (xs.length : K) ≠ 0 :=
  Nat.cast_ne_zero.mpr (List.length_pos_iff.mpr hne).ne'

/-- The one-pass formula. -/
theorem variance_eq [CharZero K] {xs : List K} (hne : xs ≠ []) :
    variance xs = mean (xs.map fun x => x * x) - mean xs * mean xs := by
  have hlength := length_ne_zero hne
  have hsum : xs.sum = xs.length * mean xs := (mul_div_cancel₀ _ hlength).symm
  rw [variance, mean_map, mean_map, sum_map_sub_sq, hsum]
  field_simp
  ring

end Field

section Order

variable {K : Type} [Field K] [LinearOrder K] [IsStrictOrderedRing K]

theorem sum_sq_nonneg (xs : List K) (c : K) : 0 ≤ (xs.map fun x => (x - c) ^ 2).sum := by
  apply List.sum_nonneg
  intro y hy
  obtain ⟨x, -, rfl⟩ := List.mem_map.mp hy
  exact sq_nonneg _

theorem variance_nonneg (xs : List K) : 0 ≤ variance xs :=
  div_nonneg (sum_sq_nonneg xs _) (Nat.cast_nonneg _)

/-- The squared distances from `c` vanish together. -/
theorem sum_sq_eq_zero_iff (xs : List K) (c : K) :
    (xs.map fun x => (x - c) ^ 2).sum = 0 ↔ ∀ x ∈ xs, x = c := by
  induction xs with
  | nil => simp
  | cons x xs ih =>
    rw [List.map_cons, List.sum_cons, List.forall_mem_cons,
      add_eq_zero_iff_of_nonneg (sq_nonneg _) (sum_sq_nonneg xs c), ih,
      pow_eq_zero_iff two_ne_zero, sub_eq_zero]

/-- The mean of equal values is their common value. -/
theorem mean_eq_of_forall_eq {xs : List K} {c : K} (hne : xs ≠ []) (h : ∀ x ∈ xs, x = c) :
    mean xs = c := by
  rw [mean, List.eq_replicate_of_mem h, List.sum_replicate, List.length_replicate, nsmul_eq_mul]
  exact mul_div_cancel_left₀ c (length_ne_zero hne)

theorem variance_eq_zero_iff {xs : List K} (hne : xs ≠ []) :
    variance xs = 0 ↔ ∀ x ∈ xs, ∀ y ∈ xs, x = y := by
  rw [variance, mean_map, div_eq_zero_iff, or_iff_left (length_ne_zero hne), sum_sq_eq_zero_iff]
  constructor
  · intro h x hx y hy
    rw [h x hx, h y hy]
  · intro h x hx
    exact (mean_eq_of_forall_eq hne fun y hy => h y hy x hx).symm

end Order

end Htmsql.Moments
