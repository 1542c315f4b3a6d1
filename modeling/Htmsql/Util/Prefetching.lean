import Htmsql.ArraySize.Shuffle
import Htmsql.Lib.SignedInt
import Mathlib.RingTheory.Coprime.Lemmas
import Mathlib.Tactic.Linarith
import Mathlib.Tactic.Ring

/-!
# `fill_prefetching_unfriendly`

Entry `i` is `256 * i + offset`, modulo the size, and the offset grows by one whenever that sum
has gone once more around the array. From the third entry on the offset has a closed form, and
entry `i` is `258 + 256 * (i - 1) % (size - 1)`, modulo the size.

Consecutive entries are a stride of 256 or 257 apart, or this less than the size. But the remainders
of the multiples of 256 by `size - 1` do not make up for the entries that are left out: if the size
is even then none of them is 0, and if it is odd then none of them is odd.
-/

namespace Htmsql.Util

open ArraySize SignedInt

/-- `cache_line_size`. -/
def cacheLineSize : ℤ := 64

/-- One iteration: the offset and the array after it. -/
def fillStep (size : ℤ) (i : ℕ) (offset : ℤ) (a : Array ℤ) : Option (ℤ × Array ℤ) := do
  let val ← checked 32 ((← checked 32 (i * (cacheLineSize * 4))) + offset)
  let bound ← checked 32 ((← checked 32 (offset - 1)) * size)
  let offset ← if val > bound then checked 32 (offset + 1) else some offset
  let a ← store a i (← rem 32 val size)
  return (offset, a)

/-- The loop from `i` on, with `n` iterations to go. -/
def fillLoop (size : ℤ) : ℕ → ℕ → ℤ → Array ℤ → Option (Array ℤ)
  | 0, _, _, a => some a
  | n + 1, i, offset, a => do
    let (offset, a) ← fillStep size i offset a
    fillLoop size n (i + 1) offset a

/-- `fill_prefetching_unfriendly`, one entry after the other; `none` where the arithmetic
overflows or an access is outside of the array. -/
def fillPrefetchingUnfriendly (a : Array ℤ) (size : ℤ) : Option (Array ℤ) :=
  fillLoop size size.toNat 0 0 a

/-- Guarantee (1): all values in the array are reached. -/
def AllReached (a : Array ℤ) (size : ℤ) : Prop :=
  ∀ v, 0 ≤ v → v < size → ∃ i : ℕ, i < size ∧ a[i]! = v

/-- Guarantee (2): the distance of two consecutive values. -/
def FarApart (a : Array ℤ) (size : ℤ) : Prop :=
  ∀ i : ℕ, i + 1 < size → cacheLineSize + 1 ≤ |a[i + 1]! - a[i]!|

/-- The sizes for which no value of the loop overflows. -/
structure Sizes (size : ℤ) : Prop where
  lower : 512 ≤ size
  fits : Fits 32 (size * (4 * cacheLineSize + 1))

/-! ## The offset -/

/-- The offset before iteration `i`. -/
def offsetAt (size : ℤ) : ℕ → ℤ
  | 0 => 0
  | 1 => 1
  | i + 2 => 2 + 256 * (i + 1) / (size - 1)

/-- What the loop writes at `i`. -/
def entry (size : ℤ) (i : ℕ) : ℤ := (256 * i + offsetAt size i) % size

/-- The quotients of consecutive multiples of the stride. -/
theorem ediv_add_stride {n x : ℤ} (hn : 256 ≤ n) :
    (x + 256) / n = if (x / n + 1) * n ≤ x + 256 then x / n + 1 else x / n := by
  have hpos : 0 < n := by omega
  have hlo := Int.ediv_mul_le x hpos.ne'
  have hhi := Int.lt_ediv_add_one_mul_self x hpos
  split
  · rename_i h
    apply le_antisymm
    · apply Int.lt_add_one_iff.mp
      rw [Int.ediv_lt_iff_lt_mul hpos]
      linarith
    · exact (Int.le_ediv_iff_mul_le hpos).mpr h
  · rename_i h
    apply le_antisymm
    · apply Int.lt_add_one_iff.mp
      rw [Int.ediv_lt_iff_lt_mul hpos]
      omega
    · rw [Int.le_ediv_iff_mul_le hpos]
      omega

/-- The offset is bumped where the sum exceeds the bound. -/
theorem offsetAt_succ {size : ℤ} (hsize : 512 ≤ size) (i : ℕ) :
    offsetAt size (i + 1) =
      if 256 * i + offsetAt size i > (offsetAt size i - 1) * size
        then offsetAt size i + 1 else offsetAt size i := by
  rcases i with _ | _ | i
  · rw [if_pos]
    · rfl
    · simp only [offsetAt]
      omega
  · have hzero : (256 : ℤ) / (size - 1) = 0 := by
      apply Int.ediv_eq_zero_of_lt <;> omega
    rw [if_pos]
    · simp only [offsetAt]
      push_cast
      rw [hzero]
      rfl
    · simp only [offsetAt]
      omega
  · have hdiv := ediv_add_stride (n := size - 1) (x := 256 * (i + 1)) (by omega)
    have hnext : (256 : ℤ) * ((i + 1 : ℕ) + 1) = 256 * (i + 1) + 256 := by
      push_cast
      ring
    have hcond : 256 * ((i + 2 : ℕ) : ℤ) + offsetAt size (i + 2) >
        (offsetAt size (i + 2) - 1) * size ↔
        (256 * (i + 1) / (size - 1) + 1) * (size - 1) ≤ 256 * (i + 1 : ℤ) + 256 := by
      simp only [offsetAt]
      push_cast
      constructor <;> intro h <;> linarith
    change 2 + 256 * ((i + 1 : ℕ) + 1) / (size - 1) = _
    rw [hnext, hdiv]
    split
    · rename_i h
      rw [if_pos (hcond.mpr h)]
      exact (add_assoc _ _ _).symm
    · rename_i h
      rw [if_neg (mt hcond.mp h)]
      rfl

theorem offsetAt_succ_eq_or {size : ℤ} (hsize : 512 ≤ size) (i : ℕ) :
    offsetAt size (i + 1) = offsetAt size i ∨ offsetAt size (i + 1) = offsetAt size i + 1 := by
  rw [offsetAt_succ hsize]
  split
  · exact Or.inr rfl
  · exact Or.inl rfl

theorem offsetAt_bounds {size : ℤ} (hsize : 512 ≤ size) {i : ℕ} (hi : i < size) :
    0 ≤ offsetAt size i ∧ offsetAt size i ≤ 257 := by
  rcases i with _ | _ | i
  · simp [offsetAt]
  · simp [offsetAt]
  · have hpos : 0 < size - 1 := by omega
    have hnonneg : 0 ≤ 256 * ((i : ℤ) + 1) / (size - 1) := by
      apply Int.ediv_nonneg <;> omega
    have hlt : 256 * ((i : ℤ) + 1) / (size - 1) < 256 := by
      rw [Int.ediv_lt_iff_lt_mul hpos]
      push_cast at hi
      omega
    simp only [offsetAt]
    omega

/-! ## The loop -/

theorem stride_eq : cacheLineSize * 4 = 256 := rfl

theorem fillStep_eq {size : ℤ} (h : Sizes size) {i : ℕ} (hi : i < size) {a : Array ℤ}
    (ha : i < a.size) :
    fillStep size i (offsetAt size i) a =
      some (offsetAt size (i + 1), a.setIfInBounds i (entry size i)) := by
  obtain ⟨hsize, -, hmax⟩ := h
  have hmax : size * 257 < 2147483648 := hmax
  obtain ⟨hlo, hhi⟩ := offsetAt_bounds hsize hi
  have hsucc := offsetAt_succ hsize i
  have hentry : entry size i = (256 * i + offsetAt size i) % size := rfl
  generalize offsetAt size i = offset at hlo hhi hsucc hentry
  have hproduct : checked 32 (i * (cacheLineSize * 4)) = some (256 * (i : ℤ)) := by
    rw [stride_eq, mul_comm]
    exact checked_int (by omega) (by omega)
  have hsum : checked 32 (256 * i + offset) = some (256 * i + offset) :=
    checked_int (by omega) (by omega)
  have hpred : checked 32 (offset - 1) = some (offset - 1) := checked_int (by omega) (by omega)
  have hbound : checked 32 ((offset - 1) * size) = some ((offset - 1) * size) :=
    checked_int (by nlinarith) (by nlinarith)
  have hbump : checked 32 (offset + 1) = some (offset + 1) := checked_int (by omega) (by omega)
  have hrem : rem 32 (256 * i + offset) size = some (entry size i) := by
    rw [rem_eq (by omega), Int.tmod_eq_emod_of_nonneg (by omega), hentry]
  simp only [fillStep, hproduct, hsum, hpred, hbound, hbump, hrem, store_eq ha, hsucc,
    Option.bind_eq_bind, Option.bind_some]
  split <;> rfl

/-- The loop writes the entries from `i` on and leaves the others as they are. -/
theorem fillLoop_eq {size : ℤ} (h : Sizes size) {n i : ℕ} (hn : i + n = size) {a : Array ℤ}
    (ha : size ≤ a.size) :
    ∃ b, fillLoop size n i (offsetAt size i) a = some b ∧ b.size = a.size ∧
      (∀ j < i, b[j]! = a[j]!) ∧ ∀ j : ℕ, i ≤ j → j < size → b[j]! = entry size j := by
  induction n generalizing i a with
  | zero =>
    refine ⟨a, rfl, rfl, fun _ _ => rfl, ?_⟩
    intro j hij hj
    omega
  | succ n ih =>
    push_cast at hn
    have hi : (i : ℤ) < size := by omega
    have hia : i < a.size := by omega
    obtain ⟨b, hb, hsize, hbefore, hafter⟩ := ih (i := i + 1)
      (a := a.setIfInBounds i (entry size i)) (by push_cast; omega)
      (by rwa [Array.size_setIfInBounds])
    have hcopy : ∀ j ≤ i, b[j]! = if i = j then entry size i else a[j]! := by
      intro j hj
      rw [hbefore j (by omega), getElem!_setIfInBounds (by omega)]
    refine ⟨b, ?_, ?_, ?_, ?_⟩
    · simp only [fillLoop, fillStep_eq h hi hia, Option.bind_eq_bind, Option.bind_some, hb]
    · rw [hsize, Array.size_setIfInBounds]
    · intro j hj
      rw [hcopy j (by omega), if_neg (by omega)]
    · intro j hij hj
      rcases Nat.eq_or_lt_of_le hij with rfl | hlt
      · rw [hcopy i (Nat.le_refl i), if_pos rfl]
      · exact hafter j hlt hj

theorem fillPrefetchingUnfriendly_eq {size : ℤ} (h : Sizes size) {a : Array ℤ}
    (ha : size ≤ a.size) :
    ∃ b, fillPrefetchingUnfriendly a size = some b ∧ b.size = a.size ∧
      ∀ i : ℕ, i < size → b[i]! = entry size i := by
  have hpos := h.lower
  obtain ⟨b, hb, hsize, -, hentries⟩ := fillLoop_eq h (n := size.toNat) (i := 0) (by omega) ha
  exact ⟨b, hb, hsize, fun i hi => hentries i (Nat.zero_le i) hi⟩

/-! ## The values -/

/-- From the third on, the entries are remainders by `size - 1`. -/
theorem entry_add_two (size : ℤ) (i : ℕ) :
    entry size (i + 2) = (258 + 256 * (i + 1) % (size - 1)) % size := by
  have hdiv := Int.emod_add_mul_ediv (256 * (i + 1)) (size - 1)
  have hval : (256 : ℤ) * (i + 2 : ℕ) + offsetAt size (i + 2) =
      258 + 256 * (i + 1) % (size - 1) + 256 * (i + 1) / (size - 1) * size := by
    simp only [offsetAt]
    push_cast
    linarith
  rw [entry, hval, Int.add_mul_emod_self_right]

/-- The remainder by an odd number of a multiple of 256 is 0 only for its own multiples. -/
theorem stride_emod_ne_zero {n j : ℤ} (hodd : n % 2 = 1) (hj : 0 < j) (hlt : j < n) :
    256 * j % n ≠ 0 := by
  intro h
  have hcoprime : IsCoprime n 256 := by
    have htwo : IsCoprime n 2 := by
      refine ⟨1, -(n / 2), ?_⟩
      omega
    exact htwo.pow_right (n := 8)
  have hdvd : n ∣ j := hcoprime.dvd_of_dvd_mul_left (Int.dvd_of_emod_eq_zero h)
  have := Int.le_of_dvd hj hdvd
  omega

/-- Once around the array. -/
theorem emod_eq_sub {size x : ℤ} (hle : size ≤ x) (hlt : x - size < size) :
    x % size = x - size := by
  rw [← Int.sub_emod_right]
  exact Int.emod_eq_of_lt (by omega) hlt

/-- A value that is not reached. -/
def missing (size : ℤ) : ℤ := 258 + size % 2

theorem entry_ne_missing {size : ℤ} (hsize : 512 ≤ size) {i : ℕ} (hi : i < size) :
    entry size i ≠ missing size := by
  rcases i with _ | _ | i
  · rw [missing, entry, offsetAt]
    simp only [Nat.cast_zero, mul_zero, add_zero, Int.zero_emod]
    omega
  · have hone : entry size 1 = 257 := by
      change (257 : ℤ) % size = 257
      exact Int.emod_eq_of_lt (by omega) (by omega)
    rw [missing, zero_add, hone]
    omega
  · rw [entry_add_two, missing]
    push_cast at hi
    have hlo := Int.emod_nonneg (256 * ((i : ℤ) + 1)) (show size - 1 ≠ 0 by omega)
    have hhi := Int.emod_lt_of_pos (256 * ((i : ℤ) + 1)) (show 0 < size - 1 by omega)
    intro h
    -- the sum goes around at most once, and then stays below 258
    have hrem : 256 * ((i : ℤ) + 1) % (size - 1) = size % 2 := by
      by_cases hwrap : 258 + 256 * ((i : ℤ) + 1) % (size - 1) < size
      · rw [Int.emod_eq_of_lt (by omega) hwrap] at h
        omega
      · rw [emod_eq_sub (by omega) (by omega)] at h
        omega
    rcases Int.emod_two_eq_zero_or_one size with heven | hodd
    · rw [heven] at hrem
      exact stride_emod_ne_zero (by omega) (by omega) (by omega) hrem
    · have hdvd : (2 : ℤ) ∣ size - 1 := by omega
      have := Int.emod_emod_of_dvd (256 * ((i : ℤ) + 1)) hdvd
      omega

/-- A step of `d`, around the array or not. -/
theorem add_emod_sub_emod {size x d : ℤ} (hd : 0 ≤ d) (hlt : d < size) :
    (x + d) % size - x % size = d ∨ (x + d) % size - x % size = d - size := by
  have hlo := Int.emod_nonneg x (show size ≠ 0 by omega)
  have hhi := Int.emod_lt_of_pos x (show 0 < size by omega)
  rw [← Int.emod_add_emod]
  by_cases hwrap : x % size + d < size
  · left
    rw [Int.emod_eq_of_lt (by omega) hwrap]
    omega
  · right
    rw [emod_eq_sub (by omega) (by omega)]
    omega

theorem entry_farApart {size : ℤ} (hsize : 512 ≤ size) (i : ℕ) :
    cacheLineSize + 1 ≤ |entry size (i + 1) - entry size i| := by
  have hoffset := offsetAt_succ_eq_or hsize i
  have hdiff : entry size (i + 1) =
      (256 * i + offsetAt size i + (256 + offsetAt size (i + 1) - offsetAt size i)) % size := by
    rw [entry]
    congr 1
    push_cast
    ring
  have hstep := add_emod_sub_emod (x := 256 * i + offsetAt size i)
    (d := 256 + offsetAt size (i + 1) - offsetAt size i) (by omega)
    (show _ < size by omega)
  rw [← hdiff] at hstep
  change entry size (i + 1) - entry size i = _ ∨ entry size (i + 1) - entry size i = _ at hstep
  change 65 ≤ |entry size (i + 1) - entry size i|
  rw [le_abs]
  omega

/-! ## The guarantees -/

/-- The second guarantee holds for all sizes, the first for none. -/
theorem fill_guarantees (a : Array ℤ) (size : ℤ) (h : Sizes size) (ha : size ≤ a.size) :
    ∃ b, fillPrefetchingUnfriendly a size = some b ∧ FarApart b size ∧ ¬AllReached b size := by
  have hsize := h.lower
  obtain ⟨b, hb, -, hentries⟩ := fillPrefetchingUnfriendly_eq h ha
  refine ⟨b, hb, ?_, ?_⟩
  · intro i hi
    rw [hentries i (by omega), hentries (i + 1) (by exact_mod_cast hi)]
    exact entry_farApart hsize i
  · intro hall
    have hmissing : 0 ≤ missing size ∧ missing size < size := by
      rw [missing]
      omega
    obtain ⟨i, hi, hmem⟩ := hall (missing size) hmissing.1 hmissing.2
    rw [hentries i hi] at hmem
    exact entry_ne_missing hsize hi hmem

theorem fill_guarantees_witness :
    ∃ b, fillPrefetchingUnfriendly (Array.replicate 512 0) 512 = some b ∧ FarApart b 512 ∧
      ¬AllReached b 512 :=
  fill_guarantees _ 512 ⟨by decide, by decide⟩ (by rw [Array.size_replicate]; rfl)

/-- In an array of 512 entries 258 is missing. -/
theorem fill_not_guaranteed :
    ¬∃ b, fillPrefetchingUnfriendly (Array.replicate 512 0) 512 = some b ∧ AllReached b 512 ∧
      FarApart b 512 := by
  intro ⟨b, hb, hall, _⟩
  obtain ⟨b', hb', -, hentries⟩ := fillPrefetchingUnfriendly_eq (h := ⟨by decide, by decide⟩)
    (show (512 : ℤ) ≤ (Array.replicate 512 (0 : ℤ)).size by rw [Array.size_replicate]; rfl)
  rw [hb, Option.some.injEq] at hb'
  subst hb'
  obtain ⟨i, hi, hmem⟩ := hall 258 (by decide) (by decide)
  rw [hentries i hi] at hmem
  exact entry_ne_missing (by decide) hi hmem

end Htmsql.Util
