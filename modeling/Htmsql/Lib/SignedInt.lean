import Mathlib.Algebra.Order.Ring.Int

/-!
# Signed machine integers

A signed integer of `w` bits holds the values from `-2 ^ (w - 1)` to `2 ^ (w - 1) - 1`. Arithmetic
that overflows is undefined, or wraps around; both are functions of the exact result.
-/

namespace Htmsql.SignedInt

/-- The value can be held in `w` bits. -/
def Fits (w : ℕ) (x : ℤ) : Prop := -2 ^ (w - 1) ≤ x ∧ x < 2 ^ (w - 1)

instance (w : ℕ) (x : ℤ) : Decidable (Fits w x) := inferInstanceAs (Decidable (_ ∧ _))

/-- The value where it fits; `none` stands for an overflow without a defined result. -/
def checked (w : ℕ) (x : ℤ) : Option ℤ := if Fits w x then some x else none

/-- The low `w` bits, as a signed integer. -/
def wrap (w : ℕ) (x : ℤ) : ℤ := x.bmod (2 ^ w)

/-- The remainder `x % y`, which takes its sign from `x`. There is none by 0, nor by -1 where the
quotient overflows. -/
def rem (w : ℕ) (x y : ℤ) : Option ℤ :=
  if y = 0 ∨ y = -1 ∧ ¬Fits w (-x) then none else some (x.tmod y)

theorem checked_eq {w : ℕ} {x : ℤ} (h : Fits w x) : checked w x = some x := if_pos h

theorem rem_eq {w : ℕ} {x y : ℤ} (hy : 0 < y) : rem w x y = some (x.tmod y) := by
  apply if_neg
  omega

theorem fits_int_iff {x : ℤ} : Fits 32 x ↔ -2147483648 ≤ x ∧ x < 2147483648 := Iff.rfl

theorem checked_int {x : ℤ} (hlo : -2147483648 ≤ x) (hhi : x < 2147483648) :
    checked 32 x = some x :=
  checked_eq (fits_int_iff.mpr ⟨hlo, hhi⟩)

theorem fits_long_iff {x : ℤ} :
    Fits 64 x ↔ -9223372036854775808 ≤ x ∧ x < 9223372036854775808 := Iff.rfl

theorem two_pow_eq {w : ℕ} (hw : 0 < w) : (2 : ℤ) ^ w = 2 * 2 ^ (w - 1) := by
  obtain ⟨k, rfl⟩ := Nat.exists_eq_succ_of_ne_zero hw.ne'
  exact pow_succ' 2 k

theorem wrap_fits {w : ℕ} (hw : 0 < w) (x : ℤ) : Fits w (wrap w x) := by
  have hpos : 0 < 2 ^ w := Nat.two_pow_pos w
  have hle := Int.le_bmod (x := x) hpos
  have hlt := Int.bmod_lt (x := x) hpos
  have htwo := two_pow_eq hw
  rw [Fits, wrap]
  push_cast at hle hlt
  omega

/-- A value that fits is not changed. -/
theorem wrap_eq {w : ℕ} (hw : 0 < w) {x : ℤ} (h : Fits w x) : wrap w x = x := by
  have htwo := two_pow_eq hw
  obtain ⟨hlo, hhi⟩ := h
  apply Int.bmod_eq_of_le <;> push_cast <;> omega

/-- The remainder by a positive number is smaller, on both sides of 0. -/
theorem tmod_bounds (x : ℤ) {y : ℤ} (hy : 0 < y) : -y < x.tmod y ∧ x.tmod y < y :=
  ⟨Int.lt_tmod_of_pos x hy, Int.tmod_lt_of_pos x hy⟩

/-- So does the remainder by a number that fits. -/
theorem fits_tmod {w : ℕ} (x : ℤ) {y : ℤ} (hy : 0 < y) (h : Fits w y) : Fits w (x.tmod y) := by
  have := tmod_bounds x hy
  obtain ⟨hlo, hhi⟩ := h
  constructor <;> omega

/-- Its negation cannot overflow either. -/
theorem fits_neg_tmod {w : ℕ} (x : ℤ) {y : ℤ} (hy : 0 < y) (h : Fits w y) :
    Fits w (-x.tmod y) := by
  have := tmod_bounds x hy
  obtain ⟨hlo, hhi⟩ := h
  constructor <;> omega

end Htmsql.SignedInt
