import Htmsql.Lib.Affine
import Htmsql.Util.Random
import Mathlib.Tactic.NormNum.Prime

/-!
# What `rand_gerhard` returns

The modulus 32749 is a prime and the multiplier 32719 generates all nonzero residues, so that
from the initial state 1 on every state comes up except 27467, which is its own successor. The
result is the remainder of a state by the limit. A limit beyond the number of states is not
reached, and 27467 is missing already where it is not the remainder of another state.
-/

namespace Htmsql.Util

open SignedInt

instance prime_modulus : Fact (Nat.Prime 32749) := ⟨by norm_num⟩

/-- The state that is its own successor. -/
def fixState : ℤ := 27467

/-- `v` is returned by one of some successive calls with this limit, from the initial state on. -/
def Returned (limit v : ℤ) : Prop :=
  ∃ n cs, calls randGerhard gerhardState (List.replicate n limit) = some cs ∧
    ∃ c ∈ cs, c.res = v

/-! ## The multiplier -/

theorem multiplier_pow_eq_one_iff (n : ℕ) :
    (32719 : ZMod 32749) ^ n = 1 ↔ 32719 ^ n % 32749 = 1 := by
  have := ZMod.natCast_eq_natCast_iff' (32719 ^ n) 1 32749
  push_cast at this
  exact this

theorem eq_of_prime_dvd {p : ℕ} (hp : p.Prime) (h : p ∣ 32748) : p = 2 ∨ p = 3 ∨ p = 2729 := by
  have hfactors : (32748 : ℕ) = 2 ^ 2 * (3 * 2729) := by norm_num
  rw [hfactors, hp.dvd_mul, hp.dvd_mul] at h
  rcases h with h | h | h
  · exact .inl ((Nat.prime_dvd_prime_iff_eq hp Nat.prime_two).mp (hp.dvd_of_dvd_pow h))
  · exact .inr (.inl ((Nat.prime_dvd_prime_iff_eq hp Nat.prime_three).mp h))
  · exact .inr (.inr ((Nat.prime_dvd_prime_iff_eq hp (by norm_num)).mp h))

theorem orderOf_multiplier : orderOf (32719 : ZMod 32749) = 32748 := by
  apply orderOf_eq_of_pow_and_pow_div_prime (by norm_num)
  · rw [multiplier_pow_eq_one_iff]
    decide +kernel
  · intro p hp hdvd
    rw [Ne, multiplier_pow_eq_one_iff]
    rcases eq_of_prime_dvd hp hdvd with rfl | rfl | rfl <;> decide +kernel

/-! ## The states -/

theorem cast_nextState (state : ℤ) :
    (nextState state : ZMod 32749) = Affine.step 32719 3 (state : ZMod 32749) := by
  rw [nextState, Affine.step]
  have := ZMod.intCast_mod (state * 32719 + 3) 32749
  push_cast at this ⊢
  rw [this, mul_comm]

theorem cast_iterate_nextState (n : ℕ) (state : ℤ) :
    (nextState^[n] state : ZMod 32749) = (Affine.step 32719 3)^[n] (state : ZMod 32749) := by
  induction n with
  | zero => rfl
  | succ n ih =>
    rw [Function.iterate_succ_apply', cast_nextState, ih, Function.iterate_succ_apply']

theorem step_fixState :
    Affine.step 32719 3 (fixState : ZMod 32749) = (fixState : ZMod 32749) := by
  rw [← cast_nextState]
  rfl

/-- A state is its own residue. -/
theorem cast_inj {s t : ℤ} (hs : InRange s) (ht : InRange t) :
    (s : ZMod 32749) = (t : ZMod 32749) ↔ s = t := by
  obtain ⟨hs₀, hs⟩ := hs
  obtain ⟨ht₀, ht⟩ := ht
  rw [ZMod.intCast_eq_intCast_iff']
  omega

theorem inRange_iterate {state : ℤ} (h : InRange state) (n : ℕ) :
    InRange (nextState^[n] state) := by
  cases n with
  | zero => exact h
  | succ n =>
    rw [Function.iterate_succ_apply']
    exact inRange_nextState _

theorem inRange_gerhardState : InRange gerhardState := by decide

theorem inRange_fixState : InRange fixState := by decide

theorem multiplier_ne_zero : (32719 : ZMod 32749) ≠ 0 := by
  intro h
  have horder := orderOf_multiplier
  rw [h, orderOf_zero] at horder
  omega

theorem gerhardState_ne_fixState : gerhardState ≠ fixState := by decide

theorem cast_ne_fixState {state : ℤ} (hstate : InRange state) (hne : state ≠ fixState) :
    (state : ZMod 32749) ≠ (fixState : ZMod 32749) := by
  rwa [Ne, cast_inj hstate inRange_fixState]

theorem iterate_ne_fixState {state : ℤ} (hstate : InRange state) (hne : state ≠ fixState) (n : ℕ) :
    nextState^[n] state ≠ fixState := by
  have hcast := Affine.iterate_step_ne multiplier_ne_zero step_fixState
    (cast_ne_fixState hstate hne) n
  rw [← cast_iterate_nextState] at hcast
  exact fun h => hcast (congrArg _ h)

/-- From each state but one all these states come up. -/
theorem exists_iterate_eq {state s : ℤ} (hstate : InRange state) (hne : state ≠ fixState)
    (hs : InRange s) (hne' : s ≠ fixState) : ∃ n, nextState^[n + 1] state = s := by
  have horder : orderOf (32719 : ZMod 32749) = Nat.card (ZMod 32749) - 1 := by
    rw [orderOf_multiplier, Nat.card_zmod]
  obtain ⟨n, hn⟩ := Affine.exists_iterate_step_eq multiplier_ne_zero horder step_fixState
    (cast_ne_fixState hstate hne) (cast_ne_fixState hs hne')
  refine ⟨n, ?_⟩
  rw [← cast_iterate_nextState, cast_inj (inRange_iterate hstate _) hs] at hn
  exact hn

/-! ## The results -/

/-- The calls with one limit are those on the successive states. -/
theorem calls_replicate {state limit : ℤ} (hstate : InRange state) (hlimit : IsLimit limit)
    (n : ℕ) :
    calls randGerhard state (List.replicate n limit) = some ((List.range n).map fun i =>
      { state := nextState^[i] state, limit := limit,
        res := nextState^[i + 1] state % limit, next := nextState^[i + 1] state }) := by
  induction n generalizing state with
  | zero => rfl
  | succ n ih =>
    rw [List.replicate_succ, List.range_succ_eq_map, List.map_cons, List.map_map]
    simp only [calls, randGerhard_eq hstate hlimit, Option.bind_eq_bind, Option.bind_some,
      ih (inRange_nextState state)]
    rfl

theorem returned_iff_iterate {limit v : ℤ} (hlimit : IsLimit limit) :
    Returned limit v ↔ ∃ n, nextState^[n + 1] gerhardState % limit = v := by
  constructor
  · intro ⟨n, cs, hcs, c, hc, hres⟩
    rw [calls_replicate inRange_gerhardState hlimit, Option.some.injEq] at hcs
    subst hcs
    obtain ⟨i, -, rfl⟩ := List.mem_map.mp hc
    exact ⟨i, hres⟩
  · intro ⟨n, hn⟩
    refine ⟨n + 1, _, calls_replicate inRange_gerhardState hlimit (n + 1), ?_⟩
    exact ⟨_, List.mem_map_of_mem (List.mem_range.mpr (Nat.lt_succ_self n)), hn⟩

/-- The results are the remainders of all states but one. -/
theorem returned_iff {limit v : ℤ} (hlimit : IsLimit limit) :
    Returned limit v ↔ ∃ s, InRange s ∧ s ≠ fixState ∧ s % limit = v := by
  rw [returned_iff_iterate hlimit]
  constructor
  · intro ⟨n, hn⟩
    exact ⟨_, inRange_iterate inRange_gerhardState (n + 1),
      iterate_ne_fixState inRange_gerhardState gerhardState_ne_fixState (n + 1), hn⟩
  · intro ⟨s, hs, hne, hres⟩
    obtain ⟨n, rfl⟩ := exists_iterate_eq inRange_gerhardState gerhardState_ne_fixState hs hne
    exact ⟨n, hres⟩

/-- Up to 27467 each value is a state; beyond, 27467 is no other state's remainder. -/
theorem returned_all_iff (limit : ℤ) (hlimit : IsLimit limit) :
    (∀ v, 0 ≤ v → v < limit → Returned limit v) ↔ limit ≤ 27467 := by
  constructor
  · intro h
    by_contra hlarge
    obtain ⟨s, ⟨hs₀, hs⟩, hne, hres⟩ :=
      (returned_iff hlimit).mp (h 27467 (by omega) (by omega))
    rw [fixState] at hne
    have hdiv := Int.emod_add_mul_ediv s limit
    have hquot : s / limit = 0 ∨ 1 ≤ s / limit := by
      have := Int.ediv_nonneg hs₀ (show 0 ≤ limit by omega)
      omega
    rcases hquot with hq | hq
    · rw [hq, mul_zero] at hdiv
      omega
    · have : limit ≤ limit * (s / limit) := le_mul_of_one_le_right (by omega) hq
      omega
  · intro hle v hv hlt
    apply (returned_iff hlimit).mpr
    refine ⟨v, ⟨hv, ?_⟩, ?_, Int.emod_eq_of_lt hv hlt⟩
    · omega
    · rw [fixState]
      omega

theorem returned_all_iff_witness : Returned 10 7 :=
  (returned_all_iff 10 (by decide)).mpr (by decide) 7 (by decide) (by decide)

/-- An index of the largest array that is never drawn. -/
theorem not_returned_array_index :
    IsLimit 1000000 ∧ (0 : ℤ) ≤ 32749 ∧ (32749 : ℤ) < 1000000 ∧ ¬Returned 1000000 32749 := by
  refine ⟨by decide, by decide, by decide, ?_⟩
  intro h
  obtain ⟨s, ⟨hs₀, hs⟩, -, hres⟩ := (returned_iff (by decide)).mp h
  omega

end Htmsql.Util
