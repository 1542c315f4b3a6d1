import Htmsql.Lib.SignedInt

/-!
# The deadline of a timed wait

`os_event_wait_time_low` computes from the time of day the moment at which `os_cond_wait_timed`
gives up. The seconds of the timeout and its microseconds are added apart: when the microseconds
of the two add up to a second or more, that second is dropped. So the deadline is either exact or a
second early, and for a timeout of less than a second it is then in the past. The sum of the
microseconds has 64 bits: a timeout so long that it wraps around gives a deadline in the past, too.

`ulint` has 64 bits, `time_t` and `long` too. `OS_SYNC_INFINITE_TIME` is `ULINT_UNDEFINED`
(`os0sync.h`); the values of `ULINT_UNDEFINED` and `ULINT_MAX` are in `univ.i`, which is not among
the sources, so they are parameters.
-/

namespace Htmsql.OsEvent

open SignedInt

/-- `struct timespec` -/
structure Timespec where
  sec : ℤ
  nsec : ℤ
  deriving DecidableEq, Repr

/-- `MICROSECS_IN_A_SECOND` -/
def microsecsInASecond : ℕ := 1000000

/-- The computation of `abstime`, at `sec` seconds and `usec` microseconds. -/
def abstime (infiniteTime ulintMax sec usec timeInUsec : ℕ) : Timespec :=
  if timeInUsec ≠ infiniteTime then
    let tvUsec := (usec + timeInUsec) % 2 ^ 64
    if microsecsInASecond ≤ tvUsec then
      ⟨wrap 64 (sec + timeInUsec / microsecsInASecond : ℕ),
        wrap 64 (tvUsec % microsecsInASecond * 1000 : ℕ)⟩
    else ⟨wrap 64 sec, wrap 64 (tvUsec * 1000 : ℕ)⟩
  else ⟨wrap 64 ulintMax, 999999999⟩

/-- The moment in microseconds. -/
def Timespec.micros (d : Timespec) : ℤ := d.sec * 1000000 + d.nsec / 1000

theorem wrap_of_lt {n : ℤ} (hlo : 0 ≤ n) (hhi : n < 9223372036854775808) : wrap 64 n = n :=
  wrap_eq (by decide) (fits_long_iff.mpr ⟨by omega, hhi⟩)

variable {infiniteTime ulintMax sec usec timeInUsec : ℕ}

/-- The two branches in one: the seconds are added as they are, the microseconds modulo a second. -/
theorem abstime_eq (hsec : sec < 2 ^ 62) (husec : usec < 1000000)
    (htime : usec + timeInUsec < 2 ^ 64) (hfinite : timeInUsec ≠ infiniteTime) :
    abstime infiniteTime ulintMax sec usec timeInUsec =
      ⟨sec + timeInUsec / 1000000, (usec + timeInUsec) % 1000000 * 1000⟩ := by
  unfold abstime
  rw [if_pos hfinite, Nat.mod_eq_of_lt htime]
  by_cases hcarry : microsecsInASecond ≤ usec + timeInUsec
  · rw [if_pos hcarry]
    simp only [microsecsInASecond, Timespec.mk.injEq]
    constructor
    · rw [wrap_of_lt (by omega) (by omega)]
      omega
    · rw [wrap_of_lt (by omega) (by omega)]
      omega
  · rw [if_neg hcarry]
    simp only [microsecsInASecond] at hcarry
    simp only [Timespec.mk.injEq]
    constructor
    · rw [wrap_of_lt (by omega) (by omega)]
      omega
    · rw [wrap_of_lt (by omega) (by omega)]
      omega

/-- A sum that wraps around is less than a second, and less than the microseconds of the present. -/
theorem abstime_wrapped (hsec : sec < 2 ^ 62) (husec : usec < 1000000) (htime : timeInUsec < 2 ^ 64)
    (hwraps : 2 ^ 64 ≤ usec + timeInUsec) (hfinite : timeInUsec ≠ infiniteTime) :
    abstime infiniteTime ulintMax sec usec timeInUsec =
      ⟨sec, (usec + timeInUsec - 2 ^ 64) * 1000⟩ := by
  have hmod : (usec + timeInUsec) % 2 ^ 64 = usec + timeInUsec - 2 ^ 64 := by
    rw [Nat.mod_eq_sub_mod hwraps]
    apply Nat.mod_eq_of_lt
    omega
  have hcarry : ¬ microsecsInASecond ≤ usec + timeInUsec - 2 ^ 64 := by
    simp only [microsecsInASecond]
    omega
  unfold abstime
  rw [if_pos hfinite, hmod, if_neg hcarry]
  simp only [Timespec.mk.injEq]
  constructor
  · rw [wrap_of_lt (by omega) (by omega)]
  · rw [wrap_of_lt (by omega) (by omega)]
    omega

/-- `ULINT_MAX` has the sign bit of `time_t`. -/
theorem wrap_ulintMax (hmax : 2 ^ 63 ≤ ulintMax ∧ ulintMax < 2 ^ 64) :
    wrap 64 (ulintMax : ℤ) < 0 := by
  have hcongr : wrap 64 (ulintMax : ℤ) = wrap 64 ((ulintMax : ℤ) - 2 ^ 64) := by
    unfold wrap
    rw [Int.bmod_eq_bmod_iff_bmod_sub_eq_zero]
    simp
  rw [hcongr, wrap_eq (by decide) (fits_long_iff.mpr ⟨by omega, by omega⟩)]
  omega

/-- The deadline passes the check before the wait. For a timeout whose microseconds do not wrap
around with those of the present it is the present plus the timeout, or a second earlier if the
microseconds of both add up to a second; it lies before the present exactly if such a timeout is
shorter than a second. Where they wrap around it lies before the present. So does the deadline of a
wait without a timeout. -/
theorem abstime_deadline (hsec : sec < 2 ^ 62) (husec : usec < 1000000) (htime : timeInUsec < 2 ^ 64)
    (hmax : 2 ^ 63 ≤ ulintMax ∧ ulintMax < 2 ^ 64) :
    (abstime infiniteTime ulintMax sec usec timeInUsec).nsec ≤ 999999999 ∧
      (timeInUsec ≠ infiniteTime → usec + timeInUsec < 2 ^ 64 →
        (abstime infiniteTime ulintMax sec usec timeInUsec).micros =
            sec * 1000000 + usec + timeInUsec -
              (if 1000000 ≤ usec + timeInUsec % 1000000 then 1000000 else 0) ∧
          ((abstime infiniteTime ulintMax sec usec timeInUsec).micros < sec * 1000000 + usec ↔
            timeInUsec < 1000000 ∧ 1000000 ≤ usec + timeInUsec)) ∧
      (timeInUsec ≠ infiniteTime → 2 ^ 64 ≤ usec + timeInUsec →
        (abstime infiniteTime ulintMax sec usec timeInUsec).micros < sec * 1000000 + usec) ∧
      (timeInUsec = infiniteTime →
        (abstime infiniteTime ulintMax sec usec timeInUsec).micros < 0) := by
  by_cases hfinite : timeInUsec = infiniteTime
  · have heq : abstime infiniteTime ulintMax sec usec timeInUsec =
        ⟨wrap 64 ulintMax, 999999999⟩ := if_neg (not_not.mpr hfinite)
    have hneg := wrap_ulintMax hmax
    refine ⟨?_, fun hne => (hne hfinite).elim, fun hne => (hne hfinite).elim, fun _ => ?_⟩
    · rw [heq]
    · rw [heq, Timespec.micros]
      simp only
      omega
  · refine ⟨?_, fun _ hsum => ?_, fun _ hwraps => ?_, fun hinf => (hfinite hinf).elim⟩
    · by_cases hsum : usec + timeInUsec < 2 ^ 64
      · rw [abstime_eq hsec husec hsum hfinite]
        simp only
        omega
      · rw [abstime_wrapped hsec husec htime (by omega) hfinite]
        simp only
        omega
    · have hmicros : Timespec.micros
          ⟨sec + timeInUsec / 1000000, (usec + timeInUsec) % 1000000 * 1000⟩ =
          sec * 1000000 + usec + timeInUsec -
            (if 1000000 ≤ usec + timeInUsec % 1000000 then 1000000 else 0) := by
        rw [Timespec.micros]
        simp only
        split <;> omega
      rw [abstime_eq hsec husec hsum hfinite]
      refine ⟨hmicros, ?_⟩
      rw [hmicros]
      split <;> omega
    · rw [abstime_wrapped hsec husec htime hwraps hfinite, Timespec.micros]
      simp only
      omega

/-- Half a second, asked for in the second half of a second. -/
theorem abstime_deadline_half :
    (abstime (2 ^ 64 - 1) (2 ^ 64 - 2) 100 600000 500000).nsec ≤ 999999999 ∧
      (abstime (2 ^ 64 - 1) (2 ^ 64 - 2) 100 600000 500000).micros < 100 * 1000000 + 600000 := by
  have h := @abstime_deadline (2 ^ 64 - 1) (2 ^ 64 - 2) 100 600000 500000 (by decide) (by decide)
    (by decide) (by decide)
  exact ⟨h.1, (h.2.1 (by decide) (by decide)).2.mpr ⟨by decide, by decide⟩⟩

end Htmsql.OsEvent
