import Htmsql.Lib.SignedInt
import Mathlib.Data.List.Basic
import Mathlib.Data.List.Forall2

/-!
# `rand_lcg` and `rand_gerhard`

Both generators keep a `long` that the caller passes by reference; a call returns the result and
the new state. `rand_gerhard(int limit)` does this with a static state of its own.

A run is a sequence of calls on one state variable, with a limit of its own for each call.
-/

namespace Htmsql.Util

open SignedInt

/-- `rand_lcg(long& state, int limit)`, where `long` wraps around. -/
def randLcg (state limit : ℤ) : Option (ℤ × ℤ) := do
  let state := wrap 64 (wrap 64 (state * 1664525) + 1013904223)
  let res := wrap 32 (← rem 64 (state >>> (24 : ℕ)) limit)
  if 0 ≤ res then
    return (res, state)
  else
    return (← checked 32 (-res), state)

/-- `a` of `rand_gerhard(int limit)`. -/
def gerhardState : ℤ := 1

/-- `rand_gerhard(long& state, int limit)`. -/
def randGerhard (state limit : ℤ) : Option (ℤ × ℤ) := do
  let product ← checked 64 (state * 32719)
  let sum ← checked 64 (product + 3)
  let state ← rem 64 sum 32749
  let res := wrap 32 (← rem 64 state limit)
  return (res, state)

/-- A limit that the generators are called with: an `int` that is at least 1. -/
def IsLimit (limit : ℤ) : Prop := 1 ≤ limit ∧ Fits 32 limit

instance (limit : ℤ) : Decidable (IsLimit limit) := inferInstanceAs (Decidable (_ ∧ _))

/-- One call, with the state before and after it. -/
structure Call where
  state : ℤ
  limit : ℤ
  res : ℤ
  next : ℤ
deriving DecidableEq, Repr

/-- The calls on one state variable, one for each limit. -/
def calls (rand : ℤ → ℤ → Option (ℤ × ℤ)) : ℤ → List ℤ → Option (List Call)
  | _, [] => some []
  | state, limit :: limits => do
    let (res, next) ← rand state limit
    let rest ← calls rand next limits
    return { state := state, limit := limit, res := res, next := next } :: rest

/-! ## Runs -/

/-- What each call guarantees and preserves holds of all calls of a run. -/
theorem calls_of_step {rand : ℤ → ℤ → Option (ℤ × ℤ)} {Inv Ok : ℤ → Prop} {P : Call → Prop}
    (hstep : ∀ state limit, Inv state → Ok limit → ∃ res next,
      rand state limit = some (res, next) ∧ Inv next ∧
        P { state := state, limit := limit, res := res, next := next })
    {state : ℤ} {limits : List ℤ} (hstate : Inv state) (hlimits : ∀ limit ∈ limits, Ok limit) :
    ∃ cs, calls rand state limits = some cs ∧ cs.map Call.limit = limits ∧ ∀ c ∈ cs, P c := by
  induction limits generalizing state with
  | nil => exact ⟨[], rfl, rfl, List.forall_mem_nil _⟩
  | cons limit limits ih =>
    obtain ⟨hlimit, hrest⟩ := List.forall_mem_cons.mp hlimits
    obtain ⟨res, next, hrand, hnext, hcall⟩ := hstep state limit hstate hlimit
    obtain ⟨cs, hcs, hmap, hall⟩ := ih hnext hrest
    refine ⟨{ state := state, limit := limit, res := res, next := next } :: cs, ?_, ?_, ?_⟩
    · simp only [calls, hrand, Option.bind_eq_bind, Option.bind_some, hcs]
      rfl
    · rw [List.map_cons, hmap]
    · exact List.forall_mem_cons.mpr ⟨hcall, hall⟩

/-! ## `rand_gerhard` -/

/-- The states of `rand_gerhard`. -/
def InRange (state : ℤ) : Prop := 0 ≤ state ∧ state ≤ 32748

instance (state : ℤ) : Decidable (InRange state) := inferInstanceAs (Decidable (_ ∧ _))

/-- The state after a call. -/
def nextState (state : ℤ) : ℤ := (state * 32719 + 3) % 32749

theorem inRange_nextState (state : ℤ) : InRange (nextState state) := by
  rw [InRange, nextState]
  omega

theorem fits_product {state : ℤ} (h : InRange state) : Fits 64 (state * 32719) := by
  obtain ⟨hlo, hhi⟩ := h
  rw [fits_long_iff]
  omega

theorem fits_product_add {state : ℤ} (h : InRange state) : Fits 64 (state * 32719 + 3) := by
  obtain ⟨hlo, hhi⟩ := h
  rw [fits_long_iff]
  omega

/-- Both remainders are those of numbers that are not negative. -/
theorem randGerhard_eq {state limit : ℤ} (hstate : InRange state) (hlimit : IsLimit limit) :
    randGerhard state limit = some (nextState state % limit, nextState state) := by
  have hpos : 0 < limit := hlimit.1
  have hnext : (state * 32719 + 3).tmod 32749 = nextState state := by
    apply Int.tmod_eq_emod_of_nonneg
    have := hstate.1
    omega
  have hres : wrap 32 ((nextState state).tmod limit) = nextState state % limit := by
    rw [wrap_eq (by omega) (fits_tmod _ hpos hlimit.2),
      Int.tmod_eq_emod_of_nonneg (inRange_nextState state).1]
  have hmodulus : (0 : ℤ) < 32749 := by omega
  simp only [randGerhard, checked_eq (fits_product hstate), checked_eq (fits_product_add hstate),
    Option.bind_eq_bind, Option.bind_some, rem_eq hmodulus, hnext, rem_eq hpos, hres]
  rfl

theorem nextState_emod_bounds (state : ℤ) {limit : ℤ} (hlimit : IsLimit limit) :
    0 ≤ nextState state % limit ∧ nextState state % limit < limit :=
  have hpos : 0 < limit := hlimit.1
  ⟨Int.emod_nonneg _ hpos.ne', Int.emod_lt_of_pos _ hpos⟩

/-! ## `rand_lcg` -/

/-- The state after a call. -/
def nextLcgState (state : ℤ) : ℤ := wrap 64 (wrap 64 (state * 1664525) + 1013904223)

theorem fits_nextLcgState (state : ℤ) : Fits 64 (nextLcgState state) :=
  wrap_fits (by omega) _

/-- The result is the absolute value of the remainder. -/
theorem randLcg_eq (state : ℤ) {limit : ℤ} (hlimit : IsLimit limit) :
    randLcg state limit =
      some (|(nextLcgState state >>> (24 : ℕ)).tmod limit|, nextLcgState state) := by
  have hpos : 0 < limit := hlimit.1
  let r := (nextLcgState state >>> (24 : ℕ)).tmod limit
  have hwrap : wrap 32 r = r := wrap_eq (by omega) (fits_tmod _ hpos hlimit.2)
  have hneg : checked 32 (-r) = some (-r) := checked_eq (fits_neg_tmod _ hpos hlimit.2)
  change (rem 64 (nextLcgState state >>> (24 : ℕ)) limit).bind _ = _
  rw [rem_eq hpos, Option.bind_some]
  change (if 0 ≤ wrap 32 r then some (wrap 32 r, nextLcgState state)
    else (checked 32 (-wrap 32 r)).bind fun res => some (res, nextLcgState state)) =
      some (|r|, nextLcgState state)
  rw [hwrap, hneg, Option.bind_some]
  split
  · rename_i h
    rw [abs_of_nonneg h]
  · rename_i h
    rw [abs_of_neg (not_le.mp h)]

/-! ## All values stay in the range of their types -/

theorem generators_in_range :
    (∀ state limits, 0 ≤ state → state ≤ 32748 → (∀ limit ∈ limits, IsLimit limit) →
      ∃ cs, calls randGerhard state limits = some cs ∧ cs.map Call.limit = limits ∧
        ∀ c ∈ cs, Fits 64 (c.state * 32719 + 3) ∧ (0 ≤ c.state ∧ c.state ≤ 32748) ∧
          (0 ≤ c.next ∧ c.next ≤ 32748) ∧ 0 ≤ c.res ∧ c.res < c.limit) ∧
    ∀ state limit, Fits 64 state → IsLimit limit →
      ∃ res next, randLcg state limit = some (res, next) ∧ Fits 64 next ∧
        wrap 32 ((next >>> (24 : ℕ)).tmod limit) = (next >>> (24 : ℕ)).tmod limit ∧
        Fits 32 (-(next >>> (24 : ℕ)).tmod limit) ∧
        res = |(next >>> (24 : ℕ)).tmod limit| ∧ 0 ≤ res ∧ res < limit := by
  constructor
  · intro state limits hlo hhi hlimits
    refine calls_of_step (fun state limit (hstate : InRange state) hlimit => ?_) ⟨hlo, hhi⟩ hlimits
    exact ⟨_, _, randGerhard_eq hstate hlimit, inRange_nextState state, fits_product_add hstate,
      hstate, inRange_nextState state, nextState_emod_bounds state hlimit⟩
  · intro state limit _ hlimit
    have hpos : 0 < limit := hlimit.1
    have hbounds := tmod_bounds (nextLcgState state >>> (24 : ℕ)) hpos
    exact ⟨_, _, randLcg_eq state hlimit, fits_nextLcgState state,
      wrap_eq (by omega) (fits_tmod _ hpos hlimit.2), fits_neg_tmod _ hpos hlimit.2,
      rfl, abs_nonneg _, abs_lt.mpr hbounds⟩

theorem generators_in_range_witness :
    (∃ cs, calls randGerhard 32748 [10000, 2147483647] = some cs ∧
      ∀ c ∈ cs, 0 ≤ c.res ∧ c.res < c.limit) ∧
    ∃ res next, randLcg (-1) 10 = some (res, next) ∧ 0 ≤ res ∧ res < 10 := by
  obtain ⟨cs, hcs, -, hall⟩ :=
    generators_in_range.1 32748 [10000, 2147483647] (by decide) (by decide) (by decide)
  obtain ⟨res, next, hrand, -, -, -, -, hres⟩ :=
    generators_in_range.2 (-1) 10 (by decide) (by decide)
  exact ⟨⟨cs, hcs, fun c hc => (hall c hc).2.2.2⟩, res, next, hrand, hres⟩

end Htmsql.Util
