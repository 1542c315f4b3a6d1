import Htmsql.Lib.Moments

/-!
# `Stats`

The class keeps a counter and two running sums, of the values and of their squares, and computes
the mean and the variance from these three alone. Doubles are rationals here, so that nothing is
rounded, and the counter is a number without bound, for fewer than 2^31 values; `sqrt` is a
parameter, and has no value below 0.
-/

namespace Htmsql.Util

open Moments

/-- The counter and the two sums, of the values and of their squares. -/
structure Stats where
  count : ℕ
  expectedValueSum : ℚ
  varianceSum : ℚ
deriving DecidableEq, Repr

namespace Stats

/-- The constructor. -/
def init : Stats := { count := 0, expectedValueSum := 0, varianceSum := 0 }

/-- One value is added to the three sums. -/
def addValue (s : Stats) (val : ℚ) : Stats :=
  { count := s.count + 1
    expectedValueSum := s.expectedValueSum + val
    varianceSum := s.varianceSum + val * val }

/-- The mean of the values so far. -/
def getExpectedValue (s : Stats) : ℚ := s.expectedValueSum / s.count

/-- The mean of the squares less the square of the mean. -/
def getVariance (s : Stats) : ℚ :=
  let expectedValue := s.getExpectedValue
  1 / s.count * s.varianceSum - expectedValue * expectedValue

/-- `sqrt`, given by `root` where it is defined; `none` stands for not a number. -/
def sqrt (root : ℚ → ℚ) (x : ℚ) : Option ℚ := if x < 0 then none else some (root x)

/-- The square root of the variance; `none` where that is negative, for which `sqrt` gives no
number. -/
def getStandardDeviation (root : ℚ → ℚ) (s : Stats) : Option ℚ :=
  let variance := s.getVariance
  sqrt root variance

/-- A sequence of calls of `addValue`, from a new object on. -/
def addValues (xs : List ℚ) : Stats := xs.foldl addValue init

/-- What one call adds to each of the sums, a sequence of calls adds up. -/
theorem foldl_addValue (xs : List ℚ) (s : Stats) :
    xs.foldl addValue s =
      { count := s.count + xs.length
        expectedValueSum := s.expectedValueSum + xs.sum
        varianceSum := s.varianceSum + (xs.map fun x => x * x).sum } := by
  induction xs generalizing s with
  | nil => simp
  | cons x xs ih =>
    rw [List.foldl_cons, ih, addValue, Stats.mk.injEq]
    simp only [List.length_cons, List.sum_cons, List.map_cons]
    refine ⟨?_, ?_, ?_⟩
    · omega
    · exact add_assoc _ _ _
    · exact add_assoc _ _ _

theorem addValues_eq (xs : List ℚ) :
    addValues xs =
      { count := xs.length
        expectedValueSum := xs.sum
        varianceSum := (xs.map fun x => x * x).sum } := by
  rw [addValues, foldl_addValue]
  simp [init]

theorem getExpectedValue_addValues (xs : List ℚ) : (addValues xs).getExpectedValue = mean xs := by
  rw [addValues_eq]
  rfl

theorem getVariance_addValues {xs : List ℚ} (hne : xs ≠ []) :
    (addValues xs).getVariance = variance xs := by
  have hmean := getExpectedValue_addValues xs
  rw [variance_eq hne, mean_map, ← hmean, getVariance, addValues_eq]
  ring

theorem sqrt_eq {root : ℚ → ℚ} {x : ℚ} (hx : 0 ≤ x) : sqrt root x = some (root x) :=
  if_neg (not_lt.mpr hx)

theorem getStandardDeviation_addValues (root : ℚ → ℚ) {xs : List ℚ} (hne : xs ≠ []) :
    (addValues xs).getStandardDeviation root = some (root (variance xs)) := by
  rw [getStandardDeviation, getVariance_addValues hne]
  exact sqrt_eq (variance_nonneg xs)

/-- Mean and population variance, whatever the order of the calls. -/
theorem stats_of_addValues (root : ℚ → ℚ) (xs : List ℚ) (hne : xs ≠ []) :
    (addValues xs).getExpectedValue = xs.sum / xs.length ∧
      (addValues xs).getVariance =
        1 / xs.length * (xs.map fun x => (x - xs.sum / xs.length) ^ 2).sum ∧
      0 ≤ (addValues xs).getVariance ∧
      (addValues xs).getStandardDeviation root = some (root (addValues xs).getVariance) ∧
      ((addValues xs).getVariance = 0 ↔ ∀ x ∈ xs, ∀ y ∈ xs, x = y) ∧
      ∀ ys, ys.Perm xs →
        (addValues ys).getExpectedValue = (addValues xs).getExpectedValue ∧
          (addValues ys).getVariance = (addValues xs).getVariance := by
  have hvariance := getVariance_addValues hne
  refine ⟨getExpectedValue_addValues xs, ?_, ?_, ?_, ?_, ?_⟩
  · rw [hvariance, variance, mean_map, one_div_mul_eq_div]
    rfl
  · rw [hvariance]
    exact variance_nonneg xs
  · rw [hvariance]
    exact getStandardDeviation_addValues root hne
  · rw [hvariance]
    exact variance_eq_zero_iff hne
  · intro ys hperm
    have hys : ys ≠ [] := fun h => hne (List.nil_perm.mp (h ▸ hperm))
    constructor
    · rw [getExpectedValue_addValues, getExpectedValue_addValues, mean_perm hperm]
    · rw [hvariance, getVariance_addValues hys, variance_perm hperm]

theorem stats_of_addValues_witness :
    (addValues [1, 3]).getExpectedValue = 2 ∧ (addValues [1, 3]).getVariance = 1 := by
  have h := stats_of_addValues id [1, 3] (List.cons_ne_nil _ _)
  refine ⟨h.1.trans ?_, h.2.1.trans ?_⟩ <;> norm_num

end Stats

end Htmsql.Util
