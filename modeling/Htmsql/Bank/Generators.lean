import Htmsql.ArraySize.Shuffle
import Htmsql.Lib.Run
import Htmsql.Util.Orbit
import Mathlib.Tactic.Linarith

/-!
# The random generators of the bank benchmark

`sysrand`, `customrand` and `savedrand` of `src/hle/bank/time_cmp.cpp`, and the table that `main`
fills for the last one. A call of `rand()` may return anything up to `RAND_MAX`.

`savedrand` returns the next entry of the table, whatever the limit. All entries are numbers of
accounts, so that this is no different where an account is to be chosen; a smaller limit is kept
only by the entries that happen to be below it.
-/

namespace Htmsql.Bank.Random

open ArraySize SignedInt Util
open Run (Reach)

/-- `ACCOUNT_COUNT` -/
def accountCount : ℕ := 10000

/-- `MAXIMUM_MONEY` -/
def maximumMoney : ℤ := 1000

/-- `RAND_MAX` -/
def randMax : ℕ := 2147483647

/-- `rgen` -/
inductive RandomGenerator where
  | sysrand
  | customrand
  | savedrand
  deriving DecidableEq, Repr

/-- What `main` has set up when the threads start. -/
structure Config where
  numThreads : ℕ
  randomGenerator : RandomGenerator
  mixRtm : Bool
  probabilityTransfer : ℤ
  probabilityRead : ℤ
  /-- what `rand()` returns for the entries of the table -/
  rand : ℕ → ℕ
  threads_pos : 0 < numThreads
  fits : Fits 32 (accountCount * numThreads)
  transfer_nonneg : 0 ≤ probabilityTransfer
  read_nonneg : 0 ≤ probabilityRead
  limit : IsLimit (probabilityTransfer + probabilityRead)

namespace Config

/-- `rands_size` -/
def randsSize (c : Config) : ℕ := accountCount * c.numThreads

/-- `saved_rands` -/
def savedRands (c : Config) : Array ℤ :=
  ((List.range c.randsSize).map fun i => ((c.rand i % accountCount : ℕ) : ℤ)).toArray

end Config

/-- What the generators keep between the calls. -/
structure Gen where
  /-- the state of `rand_gerhard(int limit)` -/
  a : ℤ
  savedRands : Array ℤ
  randsCounter : ℤ
  deriving DecidableEq, Repr

/-- The variables of the generators once `main` has filled the table, before the first call. -/
def Config.init (c : Config) : Gen where
  a := gerhardState
  savedRands := c.savedRands
  randsCounter := 0

/-- `rand() % limit`, where `rand()` returns `r`. -/
def sysrand (r : ℕ) (limit : ℤ) (gen : Gen) : Option (ℤ × Gen) := do
  let res ← rem 32 r limit
  return (res, gen)

/-- `customrand` is `rand_gerhard` on the state that all threads share. -/
def customrand (limit : ℤ) (gen : Gen) : Option (ℤ × Gen) := do
  let call ← randGerhard gen.a limit
  return (call.1, { gen with a := call.2 })

/-- The limit is not used. -/
def savedrand (_limit : ℤ) (gen : Gen) : Option (ℤ × Gen) := do
  let randsCounter ← rem 32 (← checked 32 (gen.randsCounter + 1)) gen.savedRands.size
  let res ← if 0 ≤ randsCounter then load gen.savedRands randsCounter.toNat else none
  return (res, { gen with randsCounter := randsCounter })

/-- `random_generator(limit)` -/
def call (g : RandomGenerator) (r : ℕ) (limit : ℤ) (gen : Gen) : Option (ℤ × Gen) :=
  match g with
  | .sysrand => sysrand r limit gen
  | .customrand => customrand limit gen
  | .savedrand => savedrand limit gen

/-- The states that calls with any limits lead to, and so any `rands_counter`. -/
def Config.Reachable (c : Config) : Gen → Prop :=
  Reach (fun gen (x : ℕ × ℤ) => (call c.randomGenerator x.1 x.2 gen).map Prod.snd) (· = c.init)
    fun _ x => x.1 ≤ randMax ∧ IsLimit x.2

/-- The entry that `savedrand` returns next. -/
def Gen.nextSaved (gen : Gen) : ℤ :=
  gen.savedRands[((gen.randsCounter + 1) % gen.savedRands.size).toNat]!

/-- The entry of the table at `i`. -/
def Config.entry (c : Config) (i : ℕ) : ℤ := (c.rand i % accountCount : ℕ)

/-- The table does not break this limit. -/
def Config.KeepsTo (c : Config) (limit : ℤ) : Prop :=
  c.randomGenerator = .savedrand → ∀ i < c.randsSize, c.entry i < limit

/-! ## The table -/

namespace Config

variable (c : Config)

theorem size_savedRands : c.savedRands.size = c.randsSize := by
  rw [savedRands, List.size_toArray, List.length_map, List.length_range]

theorem randsSize_pos : 0 < c.randsSize := Nat.mul_pos (by decide) c.threads_pos

theorem randsSize_fits : (c.randsSize : ℤ) < 2147483648 := by
  have := c.fits.2
  rw [randsSize]
  push_cast
  exact this

theorem savedRands_getElem {i : ℕ} (hi : i < c.randsSize) :
    c.savedRands[i]! = c.entry i := by
  rw [getElem!_pos c.savedRands i (by rwa [size_savedRands])]
  simp [savedRands, entry]

/-- The entries are numbers of accounts. -/
theorem entry_bounds (i : ℕ) : 0 ≤ c.entry i ∧ c.entry i < accountCount := by
  have := Nat.mod_lt (c.rand i) (show 0 < accountCount by decide)
  rw [entry]
  omega

theorem keepsTo_accountCount : c.KeepsTo accountCount := fun _ i _ => (c.entry_bounds i).2

end Config

/-! ## One call -/

/-- What all reachable states have in common. -/
structure Config.Valid (c : Config) (gen : Gen) : Prop where
  state : InRange gen.a
  table : gen.savedRands = c.savedRands
  counter_nonneg : 0 ≤ gen.randsCounter
  counter_lt : gen.randsCounter < c.randsSize

theorem Config.valid_init (c : Config) : c.Valid c.init where
  state := inRange_gerhardState
  table := rfl
  counter_nonneg := Int.le_refl 0
  counter_lt := Int.natCast_pos.mpr c.randsSize_pos

variable {c : Config} {gen : Gen}

theorem sysrand_eq (r : ℕ) {limit : ℤ} (hlimit : IsLimit limit) :
    sysrand r limit gen = some (r % limit, gen) := by
  have hpos : 0 < limit := hlimit.1
  rw [sysrand, rem_eq hpos, Int.tmod_eq_emod_of_nonneg (Int.natCast_nonneg r)]
  rfl

theorem customrand_eq (h : c.Valid gen) {limit : ℤ} (hlimit : IsLimit limit) :
    customrand limit gen =
      some (nextState gen.a % limit, { gen with a := nextState gen.a }) := by
  rw [customrand, randGerhard_eq h.state hlimit]
  rfl

/-- `rands_counter` after a call. -/
def Config.nextCounter (c : Config) (gen : Gen) : ℤ := (gen.randsCounter + 1) % c.randsSize

theorem nextCounter_bounds (c : Config) (gen : Gen) :
    0 ≤ c.nextCounter gen ∧ c.nextCounter gen < c.randsSize := by
  have hpos : (0 : ℤ) < c.randsSize := Int.natCast_pos.mpr c.randsSize_pos
  exact ⟨Int.emod_nonneg _ hpos.ne', Int.emod_lt_of_pos _ hpos⟩

theorem nextSaved_eq (h : c.Valid gen) : gen.nextSaved = c.entry (c.nextCounter gen).toNat := by
  have := nextCounter_bounds c gen
  rw [Gen.nextSaved, h.table, c.size_savedRands, ← Config.nextCounter,
    c.savedRands_getElem (by omega)]

theorem savedrand_eq (h : c.Valid gen) (limit : ℤ) :
    savedrand limit gen =
      some (gen.nextSaved, { gen with randsCounter := c.nextCounter gen }) := by
  obtain ⟨hlo, hhi⟩ := nextCounter_bounds c gen
  have hsize : gen.savedRands.size = c.randsSize := by
    rw [h.table, c.size_savedRands]
  have hfits := c.randsSize_fits
  have hsum : checked 32 (gen.randsCounter + 1) = some (gen.randsCounter + 1) := by
    have := h.counter_nonneg
    have := h.counter_lt
    exact checked_int (by omega) (by omega)
  have hrem : rem 32 (gen.randsCounter + 1) gen.savedRands.size = some (c.nextCounter gen) := by
    have := h.counter_nonneg
    rw [hsize, rem_eq (by omega), Int.tmod_eq_emod_of_nonneg (by omega), Config.nextCounter]
  have hload : load gen.savedRands (c.nextCounter gen).toNat = some gen.nextSaved := by
    rw [load_eq (by omega), Gen.nextSaved, hsize, ← Config.nextCounter]
  simp only [savedrand, hsum, hrem, Option.bind_eq_bind, Option.bind_some, if_pos hlo, hload]
  rfl

/-- What a call returns. -/
def value (g : RandomGenerator) (r : ℕ) (limit : ℤ) (gen : Gen) : ℤ :=
  match g with
  | .sysrand => r % limit
  | .customrand => nextState gen.a % limit
  | .savedrand => gen.nextSaved

/-- The state after a call. It does not depend on the limit. -/
def Config.advance (c : Config) (gen : Gen) : Gen :=
  match c.randomGenerator with
  | .sysrand => gen
  | .customrand => { gen with a := nextState gen.a }
  | .savedrand => { gen with randsCounter := c.nextCounter gen }

theorem call_eq (h : c.Valid gen) (r : ℕ) {limit : ℤ} (hlimit : IsLimit limit) :
    call c.randomGenerator r limit gen =
      some (value c.randomGenerator r limit gen, c.advance gen) := by
  cases hg : c.randomGenerator with
  | sysrand => simpa only [call, value, Config.advance, hg] using sysrand_eq r hlimit
  | customrand => simpa only [call, value, Config.advance, hg] using customrand_eq h hlimit
  | savedrand => simpa only [call, value, Config.advance, hg] using savedrand_eq h limit

theorem Config.Valid.advance (h : c.Valid gen) : c.Valid (c.advance gen) := by
  obtain ⟨hlo, hhi⟩ := nextCounter_bounds c gen
  cases hg : c.randomGenerator <;> simp only [Config.advance, hg]
  case sysrand => exact h
  case customrand =>
    exact ⟨inRange_nextState gen.a, h.table, h.counter_nonneg, h.counter_lt⟩
  case savedrand => exact ⟨h.state, h.table, hlo, hhi⟩

theorem value_nonneg (h : c.Valid gen) (r : ℕ) {limit : ℤ} (hlimit : IsLimit limit) :
    0 ≤ value c.randomGenerator r limit gen := by
  have hpos : 0 < limit := hlimit.1
  cases hg : c.randomGenerator with
  | sysrand => exact Int.emod_nonneg _ hpos.ne'
  | customrand => exact (nextState_emod_bounds gen.a hlimit).1
  | savedrand =>
    rw [value, nextSaved_eq h]
    exact (c.entry_bounds _).1

/-- The result is below its limit if the table does not break it. -/
theorem value_lt (h : c.Valid gen) (r : ℕ) {limit : ℤ} (hlimit : IsLimit limit)
    (hkeeps : c.KeepsTo limit) : value c.randomGenerator r limit gen < limit := by
  have hpos : 0 < limit := hlimit.1
  cases hg : c.randomGenerator with
  | sysrand => exact Int.emod_lt_of_pos _ hpos
  | customrand => exact (nextState_emod_bounds gen.a hlimit).2
  | savedrand =>
    have := nextCounter_bounds c gen
    rw [value, nextSaved_eq h]
    exact hkeeps hg _ (by omega)

/-- The same about a call that has returned. -/
theorem call_result (h : c.Valid gen) {r : ℕ} {limit res : ℤ} {gen' : Gen}
    (hlimit : IsLimit limit) (hcall : call c.randomGenerator r limit gen = some (res, gen')) :
    res = value c.randomGenerator r limit gen ∧ gen' = c.advance gen := by
  rw [call_eq h r hlimit] at hcall
  obtain ⟨rfl, rfl⟩ := Prod.mk.inj (Option.some.inj hcall)
  exact ⟨rfl, rfl⟩

/-! ## The reachable states -/

theorem Config.Reachable.valid (h : c.Reachable gen) : c.Valid gen := by
  refine Reach.invariant (I := c.Valid) ?_ ?_ h
  · intro gen hgen
    exact hgen ▸ c.valid_init
  · intro gen x gen' hvalid hok hcall
    obtain ⟨⟨res, next⟩, hnext, rfl⟩ := Option.map_eq_some_iff.mp hcall
    rw [(call_result hvalid hok.2 hnext).2]
    exact hvalid.advance

theorem Config.Reachable.advance (h : c.Reachable gen) : c.Reachable (c.advance gen) := by
  have hcall := call_eq h.valid 0 (show IsLimit 1 by decide)
  exact .step (a := (0, 1)) h ⟨Nat.zero_le _, by decide⟩ (congrArg (Option.map Prod.snd) hcall)

theorem Config.Reachable.iterate (h : c.Reachable gen) (k : ℕ) : c.Reachable (c.advance^[k] gen) := by
  induction k with
  | zero => exact h
  | succ k ih =>
    rw [Function.iterate_succ_apply']
    exact ih.advance

/-- `rand_gerhard` does not come into the state that is its own successor. -/
theorem Config.Reachable.state_ne (h : c.Reachable gen) : gen.a ≠ fixState := by
  have hboth : c.Valid gen ∧ gen.a ≠ fixState := by
    refine Reach.invariant (I := fun gen => c.Valid gen ∧ gen.a ≠ fixState) ?_ ?_ h
    · intro gen hgen
      exact hgen ▸ ⟨c.valid_init, gerhardState_ne_fixState⟩
    · intro gen x gen' ⟨hvalid, hne⟩ hok hcall
      obtain ⟨⟨res, next⟩, hnext, rfl⟩ := Option.map_eq_some_iff.mp hcall
      rw [(call_result hvalid hok.2 hnext).2]
      refine ⟨hvalid.advance, ?_⟩
      cases hg : c.randomGenerator <;> simp only [Config.advance, hg]
      case sysrand | savedrand => exact hne
      case customrand => exact iterate_ne_fixState hvalid.state hne 1
  exact hboth.2

/-! ## Some calls after each other -/

theorem Config.Valid.iterate (h : c.Valid gen) (k : ℕ) : c.Valid (c.advance^[k] gen) := by
  induction k with
  | zero => exact h
  | succ k ih =>
    rw [Function.iterate_succ_apply']
    exact ih.advance

theorem iterate_state (hg : c.randomGenerator = .customrand) (gen : Gen) (k : ℕ) :
    (c.advance^[k] gen).a = nextState^[k] gen.a := by
  induction k with
  | zero => rfl
  | succ k ih =>
    rw [Function.iterate_succ_apply', Function.iterate_succ_apply', ← ih, Config.advance, hg]

theorem iterate_counter (hg : c.randomGenerator = .savedrand) (h : c.Valid gen) (k : ℕ) :
    (c.advance^[k] gen).randsCounter = (gen.randsCounter + k) % c.randsSize := by
  induction k with
  | zero =>
    rw [Function.iterate_zero_apply, Nat.cast_zero, Int.add_zero,
      Int.emod_eq_of_lt h.counter_nonneg h.counter_lt]
  | succ k ih =>
    rw [Function.iterate_succ_apply', Config.advance, hg]
    simp only
    rw [Config.nextCounter, ih]
    push_cast
    rw [Int.emod_add_emod, Int.add_assoc]

/-- The entries come up in their order. -/
theorem iterate_nextSaved (hg : c.randomGenerator = .savedrand) (h : c.Valid gen) (k : ℕ) :
    (c.advance^[k] gen).nextSaved =
      c.entry ((gen.randsCounter.toNat + k + 1) % c.randsSize) := by
  have hcounter : c.nextCounter (c.advance^[k] gen) =
      ((gen.randsCounter.toNat + k + 1 : ℕ) : ℤ) % c.randsSize := by
    rw [Config.nextCounter, iterate_counter hg h, Int.emod_add_emod]
    push_cast
    rw [Int.toNat_of_nonneg h.counter_nonneg]
  rw [nextSaved_eq (h.iterate k), hcounter, ← Int.natCast_mod, Int.toNat_natCast]

/-- From each state on all of them come up. -/
theorem exists_iterate_nextSaved (hg : c.randomGenerator = .savedrand) (h : c.Valid gen) {i : ℕ}
    (hi : i < c.randsSize) : ∃ k, (c.advance^[k] gen).nextSaved = c.entry i := by
  have hlo := h.counter_nonneg
  have hhi := h.counter_lt
  have hsum : gen.randsCounter.toNat + (i + (c.randsSize - 1 - gen.randsCounter.toNat)) + 1 =
      i + c.randsSize := by omega
  refine ⟨i + (c.randsSize - 1 - gen.randsCounter.toNat), ?_⟩
  rw [iterate_nextSaved hg h, hsum, Nat.add_mod_right, Nat.mod_eq_of_lt hi]

theorem exists_iterate_state (hg : c.randomGenerator = .customrand) (h : c.Reachable gen) {s : ℤ}
    (hs : InRange s) (hne : s ≠ fixState) : ∃ k, nextState (c.advance^[k] gen).a = s := by
  obtain ⟨k, hk⟩ := exists_iterate_eq h.valid.state h.state_ne hs hne
  refine ⟨k, ?_⟩
  rw [iterate_state hg, ← hk, Function.iterate_succ_apply']

/-- All results are below a limit exactly if the table does not break it. -/
theorem honours_iff_keepsTo {limit : ℤ} (hlimit : IsLimit limit) :
    (∀ gen, c.Reachable gen → ∀ r ≤ randMax, ∃ res gen',
      call c.randomGenerator r limit gen = some (res, gen') ∧ 0 ≤ res ∧ res < limit) ↔
    c.KeepsTo limit := by
  constructor
  · intro h hg i hi
    have hinit : c.Reachable c.init := .init rfl
    obtain ⟨k, hk⟩ := exists_iterate_nextSaved hg hinit.valid hi
    obtain ⟨res, gen', hcall, -, hlt⟩ := h _ (hinit.iterate k) 0 (Nat.zero_le _)
    rw [(call_result (hinit.iterate k).valid hlimit hcall).1, hg, value, hk] at hlt
    exact hlt
  · intro hkeeps gen hgen r _
    exact ⟨_, _, call_eq hgen.valid r hlimit, value_nonneg hgen.valid r hlimit,
      value_lt hgen.valid r hlimit hkeeps⟩

/-! ## Both kinds of operations -/

/-- Some call with this limit returns `v`. -/
def Config.Returns (c : Config) (limit v : ℤ) : Prop :=
  ∃ gen, c.Reachable gen ∧ ∃ r ≤ randMax, value c.randomGenerator r limit gen = v

/-- It does so after some other calls, from each state on. -/
theorem Config.Returns.exists_iterate {limit v : ℤ} (hv : c.Returns limit v)
    (h : c.Reachable gen) :
    ∃ k, ∃ r ≤ randMax, value c.randomGenerator r limit (c.advance^[k] gen) = v := by
  obtain ⟨from', hfrom, r, hr, rfl⟩ := hv
  cases hg : c.randomGenerator with
  | sysrand => exact ⟨0, r, hr, rfl⟩
  | customrand =>
    have hnext := iterate_ne_fixState hfrom.valid.state hfrom.state_ne 1
    obtain ⟨k, hk⟩ := exists_iterate_state hg h (inRange_nextState from'.a) hnext
    exact ⟨k, r, hr, by rw [value, value, hk]⟩
  | savedrand =>
    have := nextCounter_bounds c from'
    obtain ⟨k, hk⟩ := exists_iterate_nextSaved hg h.valid
      (show (c.nextCounter from').toNat < c.randsSize by omega)
    exact ⟨k, r, hr, by rw [value, value, hk, nextSaved_eq hfrom.valid]⟩

theorem returns_sysrand (hg : c.randomGenerator = .sysrand) (limit : ℤ) (r : ℕ)
    (hr : r ≤ randMax) : c.Returns limit (r % limit) := by
  refine ⟨c.init, .init rfl, r, hr, ?_⟩
  rw [hg, value]

theorem returns_customrand_iff (hg : c.randomGenerator = .customrand) (limit v : ℤ) :
    c.Returns limit v ↔ ∃ s, InRange s ∧ s ≠ fixState ∧ s % limit = v := by
  rw [Config.Returns, hg]
  constructor
  · intro ⟨gen, hgen, r, _, hv⟩
    exact ⟨nextState gen.a, inRange_nextState gen.a,
      iterate_ne_fixState hgen.valid.state hgen.state_ne 1, hv⟩
  · intro ⟨s, hs, hne, hv⟩
    have hinit : c.Reachable c.init := .init rfl
    obtain ⟨k, hk⟩ := exists_iterate_state hg hinit hs hne
    refine ⟨_, hinit.iterate k, 0, Nat.zero_le _, ?_⟩
    rw [value, hk, hv]

theorem returns_savedrand_iff (hg : c.randomGenerator = .savedrand) (limit v : ℤ) :
    c.Returns limit v ↔ ∃ i < c.randsSize, c.entry i = v := by
  rw [Config.Returns, hg]
  constructor
  · intro ⟨gen, hgen, r, _, hv⟩
    have := nextCounter_bounds c gen
    refine ⟨(c.nextCounter gen).toNat, by omega, ?_⟩
    rw [← hv, value, nextSaved_eq hgen.valid]
  · intro ⟨i, hi, hv⟩
    have hinit : c.Reachable c.init := .init rfl
    obtain ⟨k, hk⟩ := exists_iterate_nextSaved hg hinit.valid hi
    refine ⟨_, hinit.iterate k, 0, Nat.zero_le _, ?_⟩
    rw [value, hk, hv]

/-- Some call for `rnd_op` returns a number for a transfer, and some call one for a read. -/
def Config.BothReturned (c : Config) : Prop :=
  (∃ v < c.probabilityTransfer, c.Returns (c.probabilityTransfer + c.probabilityRead) v) ∧
    ∃ v, c.probabilityTransfer ≤ v ∧ c.Returns (c.probabilityTransfer + c.probabilityRead) v

theorem bothReturned_sysrand (hg : c.randomGenerator = .sysrand)
    (htransfer : 0 < c.probabilityTransfer) (hread : 0 < c.probabilityRead) : c.BothReturned := by
  have hmax := c.limit.2.2
  constructor
  · exact ⟨0, htransfer, returns_sysrand hg _ 0 (Nat.zero_le _)⟩
  · have hle : c.probabilityTransfer.toNat ≤ randMax := by
      rw [randMax]
      omega
    refine ⟨_, ?_, returns_sysrand hg _ _ hle⟩
    rw [Int.toNat_of_nonneg c.transfer_nonneg, Int.emod_eq_of_lt c.transfer_nonneg (by omega)]

theorem bothReturned_customrand_iff (hg : c.randomGenerator = .customrand)
    (htransfer : 0 < c.probabilityTransfer) (hread : 0 < c.probabilityRead) :
    c.BothReturned ↔ c.probabilityTransfer ≤ 32748 ∧
      ¬(c.probabilityTransfer = 27467 ∧ c.probabilityRead = 1) := by
  simp only [Config.BothReturned, returns_customrand_iff hg]
  constructor
  · rintro ⟨-, v, hv, s, ⟨hs₀, hs⟩, hne, hmod⟩
    have hle : s % (c.probabilityTransfer + c.probabilityRead) ≤ s := by
      have := Int.ediv_nonneg hs₀ (show 0 ≤ c.probabilityTransfer + c.probabilityRead by omega)
      have := Int.emod_add_mul_ediv s (c.probabilityTransfer + c.probabilityRead)
      nlinarith
    refine ⟨by omega, ?_⟩
    rintro ⟨h₁, h₂⟩
    rw [fixState] at hne
    rw [h₁, h₂] at hmod
    omega
  · rintro ⟨hle, hexcept⟩
    constructor
    · refine ⟨0, htransfer, 0, by decide, by decide, Int.zero_emod _⟩
    · rw [fixState]
      by_cases hfix : c.probabilityTransfer = 27467
      · refine ⟨27468, by omega, 27468, by decide, by decide, ?_⟩
        exact Int.emod_eq_of_lt (by omega) (by omega)
      · refine ⟨c.probabilityTransfer, Int.le_refl _, c.probabilityTransfer,
          ⟨by omega, hle⟩, hfix, ?_⟩
        exact Int.emod_eq_of_lt (by omega) (by omega)

theorem bothReturned_savedrand_iff (hg : c.randomGenerator = .savedrand) :
    c.BothReturned ↔ (∃ i < c.randsSize, c.entry i < c.probabilityTransfer) ∧
      ∃ i < c.randsSize, c.probabilityTransfer ≤ c.entry i := by
  simp only [Config.BothReturned, returns_savedrand_iff hg]
  constructor
  · rintro ⟨⟨v, hv, i, hi, rfl⟩, w, hw, j, hj, rfl⟩
    exact ⟨⟨i, hi, hv⟩, j, hj, hw⟩
  · rintro ⟨⟨i, hi, hv⟩, j, hj, hw⟩
    exact ⟨⟨_, hv, i, hi, rfl⟩, _, hw, j, hj, rfl⟩

end Htmsql.Bank.Random
