import Mathlib.Data.List.Perm.Basic
import Mathlib.NumberTheory.LucasLehmer

/-!
# Unique random ids

`get_unique_random_id` of `src/mysql/bench/sysbench-0.4.12/sysbench/tests/oltp/sb_oltp.c`, which the
delete test asks for the row to delete. The calls hold `rnd_mutex`, so that those of all threads
come one after the other. The ids of one round through the table are unique unless the number of rows
is a multiple of the prime that is added to the seed.
-/

namespace Htmsql.Sysbench.UniqueIds

/-- `LARGE_PRIME` -/
def largePrime : Nat := 2147483647

/-- The id and the next seed, an `unsigned long long`. -/
def getUniqueRandomId (tableSize rndSeed : Nat) : Nat × Nat :=
  ((rndSeed % tableSize + 1) % 4294967296, (rndSeed + largePrime) % 18446744073709551616)

/-- The ids of a number of calls from a seed on; `oltp_init` sets the seed to `LARGE_PRIME`. -/
def ids (tableSize : Nat) : Nat → Nat → List Nat
  | 0, _ => []
  | calls + 1, rndSeed =>
    let (id, rndSeed) := getUniqueRandomId tableSize rndSeed
    id :: ids tableSize calls rndSeed

theorem prime_largePrime : Nat.Prime largePrime :=
  lucas_lehmer_sufficiency 31 (by decide) (by norm_num)

variable {tableSize : Nat}

theorem ids_eq (h0 : 0 < tableSize) (hsize : tableSize < 4294967296) {calls rndSeed : Nat}
    (h : rndSeed + calls * largePrime < 18446744073709551616 + largePrime) :
    ids tableSize calls rndSeed =
      (List.range calls).map fun i => (rndSeed + i * largePrime) % tableSize + 1 := by
  induction calls generalizing rndSeed with
  | zero => rfl
  | succ calls ih =>
    have hid : (rndSeed % tableSize + 1) % 4294967296 = rndSeed % tableSize + 1 := by
      have := Nat.mod_lt rndSeed h0
      exact Nat.mod_eq_of_lt (by omega)
    have hrest : ids tableSize calls ((rndSeed + largePrime) % 18446744073709551616) =
        (List.range calls).map fun i => (rndSeed + (i + 1) * largePrime) % tableSize + 1 := by
      cases calls with
      | zero => rfl
      | succ calls =>
        rw [Nat.succ_mul, Nat.succ_mul] at h
        rw [Nat.mod_eq_of_lt (by omega), ih (by rw [Nat.succ_mul]; omega)]
        refine List.map_congr_left fun i _ => ?_
        rw [Nat.succ_mul, Nat.add_assoc, Nat.add_comm largePrime]
    rw [List.range_succ_eq_map, List.map_cons, List.map_map, Nat.zero_mul, Nat.add_zero]
    change (rndSeed % tableSize + 1) % 4294967296 :: ids tableSize calls _ = _
    rw [hid, hrest]
    rfl

/-- Steps of a size without a common divisor go through all residues. -/
theorem perm_of_coprime {n a d : Nat} (hn : 0 < n) (hcoprime : Nat.Coprime n d) :
    ((List.range n).map fun i => (a + i * d) % n + 1).Perm ((List.range n).map (· + 1)) := by
  have hinjective : ∀ i ∈ List.range n, ∀ j ∈ List.range n,
      (a + i * d) % n + 1 = (a + j * d) % n + 1 → i = j := by
    intro i hi j hj hij
    have hmod : a + i * d ≡ a + j * d [MOD n] := Nat.succ.inj hij
    have hcancel := Nat.ModEq.cancel_right_of_coprime hcoprime (Nat.ModEq.add_left_cancel' a hmod)
    exact Nat.ModEq.eq_of_lt_of_lt hcancel (List.mem_range.mp hi) (List.mem_range.mp hj)
  have hnodup := List.Nodup.map_on hinjective List.nodup_range
  refine (List.subperm_of_subset hnodup fun x hx => ?_).perm_of_length_le (by simp)
  obtain ⟨i, -, rfl⟩ := List.mem_map.mp hx
  exact List.mem_map_of_mem (List.mem_range.mpr (Nat.mod_lt _ hn))

/-- After any number of calls, as many as there are rows return the id of each row once, exactly if
the number of rows is not a multiple of the prime. -/
theorem uniqueIds_perm (h0 : 0 < tableSize) (hsize : tableSize < 4294967296) {earlier : Nat}
    (h : (earlier + tableSize) * largePrime < 18446744073709551616) :
    ((ids tableSize (earlier + tableSize) largePrime).drop earlier).Perm
        ((List.range tableSize).map (· + 1)) ↔
      ¬ largePrime ∣ tableSize := by
  have hdrop : (ids tableSize (earlier + tableSize) largePrime).drop earlier =
      (List.range tableSize).map fun i =>
        ((earlier + 1) * largePrime + i * largePrime) % tableSize + 1 := by
    rw [ids_eq h0 hsize (by omega), List.range_add, List.map_append, List.drop_left']
    · rw [List.map_map]
      refine List.map_congr_left fun i _ => ?_
      rw [Function.comp_apply, Nat.succ_mul, Nat.add_mul]
      congr 2
      omega
    · rw [List.length_map, List.length_range]
  rw [hdrop]
  constructor
  · rintro hperm ⟨c, rfl⟩
    -- the id 2 would have to come from a seed that leaves 1
    have hmem : 2 ∈ (List.range (largePrime * c)).map (· + 1) := by
      refine List.mem_map.mpr ⟨1, List.mem_range.mpr ?_, rfl⟩
      have hc : 0 < c := Nat.pos_of_mul_pos_left h0
      exact Nat.lt_of_lt_of_le (by decide) (Nat.le_mul_of_pos_right largePrime hc)
    obtain ⟨i, -, hi⟩ := List.mem_map.mp (hperm.mem_iff.mpr hmem)
    have hdvd : largePrime ∣ ((earlier + 1) * largePrime + i * largePrime) % (largePrime * c) := by
      rw [Nat.dvd_mod_iff (dvd_mul_right _ _)]
      exact dvd_add (dvd_mul_left _ _) (dvd_mul_left _ _)
    rw [Nat.succ.inj hi] at hdvd
    exact absurd (Nat.le_of_dvd Nat.one_pos hdvd) (by decide)
  · intro hdvd
    exact perm_of_coprime h0 ((Nat.Prime.coprime_iff_not_dvd prime_largePrime).mpr hdvd).symm

/-- The third round through a table of four rows. -/
theorem uniqueIds_perm_fourRows :
    ((ids 4 (8 + 4) largePrime).drop 8).Perm ((List.range 4).map (· + 1)) :=
  (uniqueIds_perm (by decide) (by decide) (by decide)).mpr (by decide)

end Htmsql.Sysbench.UniqueIds
