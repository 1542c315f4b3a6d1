import Mathlib.Data.Int.ModEq
import Mathlib.Data.Nat.Find

/-!
# Circular search

A next-fit allocator goes round an array of slots from a cursor on and takes the first free slot.
The loop tests its condition at the end: it moves the cursor one slot on, looks at the slot, and
stops without a result when the cursor is back where it began. A cursor of -1 stands before the
first slot, as long as nothing has been taken; the search does not come back to it.
-/

namespace Htmsql.NextFit

/-- How a search ends: with a slot, or with all of them seen. -/
inductive Outcome where
  | found (slot : ℕ)
  | exhausted
  deriving DecidableEq, Repr

/-- The search that has begun at `start` goes on from `cursor`, for at most so many probes. -/
def search (free : ℕ → Bool) (size : ℕ) (start : ℤ) : ℕ → ℤ → Option Outcome
  | 0, _ => none
  | probes + 1, cursor =>
    let cursor := (cursor + 1) % size
    if free cursor.toNat then some (.found cursor.toNat)
    else if cursor ≠ start then search free size start probes cursor
    else some .exhausted

/-- The slot of probe `k`. -/
def probe (size : ℕ) (start : ℤ) (k : ℕ) : ℕ := ((start + 1 + k) % size).toNat

variable {free : ℕ → Bool} {size k i n : ℕ} {start cursor : ℤ}

theorem probe_cast (hsize : 0 < size) (start : ℤ) (k : ℕ) :
    (probe size start k : ℤ) = (start + 1 + k) % size :=
  Int.toNat_of_nonneg (Int.emod_nonneg _ (by omega))

theorem probe_lt (hsize : 0 < size) (start : ℤ) (k : ℕ) : probe size start k < size := by
  have hcast := probe_cast hsize start k
  have hlt := Int.emod_lt_of_pos (start + 1 + k) (show (0 : ℤ) < size by omega)
  omega

/-- Every slot is probed in one round. -/
theorem exists_probe (start : ℤ) {slot : ℕ} (hslot : slot < size) :
    ∃ k < size, probe size start k = slot := by
  have hsize : (0 : ℤ) < size := by omega
  have hnonneg := Int.emod_nonneg (slot - start - 1) hsize.ne'
  have hlt := Int.emod_lt_of_pos (slot - start - 1) hsize
  refine ⟨((slot - start - 1) % size).toNat, by omega, ?_⟩
  rw [probe, Int.toNat_of_nonneg hnonneg, Int.add_emod_emod]
  have heq : start + 1 + (slot - start - 1) = slot := by omega
  rw [heq, Int.emod_eq_of_lt (by omega) (by omega), Int.toNat_natCast]

/-- The cursor has come back after one round. -/
theorem probe_eq_start_iff (hhigh : start < size) (hk : k < size) :
    (probe size start k : ℤ) = start ↔ 0 ≤ start ∧ k + 1 = size := by
  have hsize : 0 < size := by omega
  rw [probe_cast hsize]
  constructor
  · intro h
    have hnonneg : 0 ≤ start := h ▸ Int.emod_nonneg _ (by omega)
    refine ⟨hnonneg, ?_⟩
    by_cases hwrap : start + 1 + k < size
    · rw [Int.emod_eq_of_lt (by omega) hwrap] at h
      omega
    · have hsub : (start + 1 + k) % size = start + 1 + k - size := by
        rw [← Int.sub_emod_right, Int.emod_eq_of_lt (by omega) (by omega)]
      omega
  · rintro ⟨hnonneg, hk⟩
    have heq : start + 1 + k = start + size := by omega
    rw [heq, Int.add_emod_right, Int.emod_eq_of_lt hnonneg hhigh]

/-- One probe of the search. -/
theorem search_succ (hcursor : (cursor + 1) % size = probe size start i) (n : ℕ) :
    search free size start (n + 1) cursor =
      if free (probe size start i) then some (.found (probe size start i))
      else if (probe size start i : ℤ) ≠ start then
        search free size start n (probe size start i)
      else some .exhausted := by
  rw [search, hcursor, Int.toNat_natCast]

theorem next_probe (hsize : 0 < size) (start : ℤ) (i : ℕ) :
    ((probe size start i : ℤ) + 1) % size = probe size start (i + 1) := by
  rw [probe_cast hsize, probe_cast hsize, Int.emod_add_emod]
  congr 1
  omega

/-- The search that goes on at probe `i` comes to the first free slot. -/
theorem search_from (hhigh : start < size) (hk : k < size)
    (hfree : free (probe size start k) = true) (hbefore : ∀ j < k, free (probe size start j) = false)
    (hi : i ≤ k) (hn : k < i + n) (hcursor : (cursor + 1) % size = probe size start i) :
    search free size start n cursor = some (.found (probe size start k)) := by
  induction n generalizing i cursor with
  | zero => omega
  | succ n ih =>
    rw [search_succ hcursor]
    obtain rfl | hlt := Nat.eq_or_lt_of_le hi
    · rw [if_pos hfree]
    · have hne : (probe size start i : ℤ) ≠ start := by
        rw [Ne, probe_eq_start_iff hhigh (by omega)]
        omega
      rw [hbefore i hlt, if_neg (by decide), if_pos hne]
      exact ih hlt (by omega) (next_probe (by omega) start i)

/-- The search takes the first free slot that it comes to. -/
theorem search_eq_found (hhigh : start < size) (hk : k < size)
    (hfree : free (probe size start k) = true) (hbefore : ∀ j < k, free (probe size start j) = false)
    (hn : k < n) : search free size start n start = some (.found (probe size start k)) := by
  refine search_from hhigh hk hfree hbefore (Nat.zero_le k) (by omega) ?_
  rw [probe_cast (by omega)]
  congr 1
  omega

/-- If a slot is free then one round finds one. -/
theorem exists_search_eq_found (hhigh : start < size) {slot : ℕ}
    (hslot : slot < size) (hfree : free slot = true) :
    ∃ found < size, free found = true ∧
      ∀ n, size ≤ n → search free size start n start = some (.found found) := by
  obtain ⟨m, hm, hprobe⟩ := exists_probe start hslot
  have hexists : ∃ k, free (probe size start k) = true := ⟨m, hprobe ▸ hfree⟩
  have hle : Nat.find hexists ≤ m := Nat.find_min' hexists (hprobe ▸ hfree)
  refine ⟨_, probe_lt (by omega) start _, Nat.find_spec hexists, fun n hn => ?_⟩
  exact search_eq_found hhigh (by omega) (Nat.find_spec hexists)
    (fun j hj => by simpa using Nat.find_min hexists hj) (by omega)

/-- If no slot is free then one round comes back to its begin. -/
theorem search_from_eq_exhausted (hnonneg : 0 ≤ start) (hhigh : start < size)
    (hfree : ∀ slot < size, free slot = false) (hi : i < size) (hn : size ≤ i + n)
    (hcursor : (cursor + 1) % size = probe size start i) :
    search free size start n cursor = some .exhausted := by
  have hsize : 0 < size := by omega
  induction n generalizing i cursor with
  | zero => omega
  | succ n ih =>
    rw [search_succ hcursor, hfree _ (probe_lt hsize start i), if_neg (by decide)]
    have hiff := probe_eq_start_iff hhigh hi
    by_cases hend : i + 1 = size
    · rw [if_neg (not_not.mpr (hiff.mpr ⟨hnonneg, hend⟩))]
    · rw [if_pos fun h => hend (hiff.mp h).2]
      exact ih (by omega) (by omega) (next_probe hsize start i)

theorem search_eq_exhausted (hnonneg : 0 ≤ start) (hhigh : start < size)
    (hfree : ∀ slot < size, free slot = false) (hn : size ≤ n) :
    search free size start n start = some .exhausted := by
  refine search_from_eq_exhausted hnonneg hhigh hfree (i := 0) (by omega) (by omega) ?_
  rw [probe_cast (by omega)]
  congr 1
  omega

end Htmsql.NextFit
