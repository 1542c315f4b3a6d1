import Mathlib.Data.ZMod.QuotientGroup
import Mathlib.FieldTheory.Finite.Basic

/-!
# Orbits of an affine step

The step `x ↦ a * x + c` multiplies the distance from its fixed point by `a`. In a finite field,
if the powers of `a` are all elements except 0, then the orbit of any other point is everything
except the fixed point.
-/

namespace Htmsql.Affine

section Ring

variable {R : Type} [CommRing R]

/-- One step of the generator, from one state to the next. -/
def step (a c x : R) : R := a * x + c

theorem step_sub {a c fix : R} (hfix : step a c fix = fix) (x : R) :
    step a c x - fix = a * (x - fix) := by
  calc step a c x - fix = step a c x - step a c fix := by rw [hfix]
    _ = a * (x - fix) := by
      rw [step, step]
      ring

theorem iterate_step_sub {a c fix : R} (hfix : step a c fix = fix) (n : ℕ) (x : R) :
    (step a c)^[n] x - fix = a ^ n * (x - fix) := by
  induction n with
  | zero => rw [Function.iterate_zero_apply, pow_zero, one_mul]
  | succ n ih => rw [Function.iterate_succ_apply', step_sub hfix, ih, pow_succ', mul_assoc]

end Ring

section Field

variable {F : Type} [Field F]

theorem iterate_step_ne {a c fix x : F} (ha : a ≠ 0) (hfix : step a c fix = fix) (hx : x ≠ fix)
    (n : ℕ) : (step a c)^[n] x ≠ fix := by
  rw [← sub_ne_zero, iterate_step_sub hfix]
  exact mul_ne_zero (pow_ne_zero n ha) (sub_ne_zero.mpr hx)

variable [Finite F]

/-- The powers of an element of full order. -/
theorem exists_pow_eq {a u : F} (ha : a ≠ 0) (horder : orderOf a = Nat.card F - 1) (hu : u ≠ 0) :
    ∃ n, a ^ n = u := by
  let a' : Fˣ := Units.mk0 a ha
  have htop : Subgroup.zpowers a' = ⊤ := by
    apply Subgroup.eq_top_of_card_eq
    rw [Nat.card_zpowers, Nat.card_units, ← horder]
    exact (orderOf_units (y := a')).symm
  have hmem : Units.mk0 u hu ∈ Submonoid.powers a' := by
    rw [mem_powers_iff_mem_zpowers, htop]
    exact Subgroup.mem_top _
  obtain ⟨n, hn⟩ := hmem
  refine ⟨n, ?_⟩
  have := congrArg Units.val hn
  simpa [a'] using this

/-- All but the fixed point is reached, in at least one step. -/
theorem exists_iterate_step_eq {a c fix x y : F} (ha : a ≠ 0)
    (horder : orderOf a = Nat.card F - 1) (hfix : step a c fix = fix) (hx : x ≠ fix)
    (hy : y ≠ fix) : ∃ n, (step a c)^[n + 1] x = y := by
  have hx' : step a c x - fix ≠ 0 := by
    rw [step_sub hfix]
    exact mul_ne_zero ha (sub_ne_zero.mpr hx)
  obtain ⟨n, hn⟩ := exists_pow_eq ha horder (div_ne_zero (sub_ne_zero.mpr hy) hx')
  refine ⟨n, ?_⟩
  apply sub_left_injective (b := fix)
  change (step a c)^[n + 1] x - fix = y - fix
  rw [Function.iterate_succ_apply, iterate_step_sub hfix, hn, div_mul_cancel₀ _ hx']

end Field

end Htmsql.Affine
