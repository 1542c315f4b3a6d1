import Mathlib.Data.Int.Notation
import Mathlib.Data.List.Count
import Mathlib.Logic.Function.Basic

/-!
# The nesting drivers of `hle/nesting`

`nest_hle`, `nest_double` and `nest_triple` lock their mutexes, call themselves while the nesting
level allows it, and unlock; `nest_iterative` has one loop for the locks and one for the unlocks.
`hle_lock` tries once: it returns 1 if the test-and-set has found a 1 in the word, and the drivers
then return 1 at once. Since a driver holds its first mutex when it calls itself, the inner call is
always refused.

The events of a call are its successful and refused `hle_lock`s and its `hle_unlock`s. Two of the
mutexes passed may be the same.
-/

namespace Htmsql.Nesting

variable {M : Type} [DecidableEq M]

/-- What a driver does to a mutex: it locks it, finds it locked, or unlocks it. -/
inductive Event (M : Type) where
  | locked (m : M)
  | refused (m : M)
  | unlocked (m : M)
  deriving DecidableEq, Repr

/-- The lock words, the counter that the sections increment, and what has happened to the mutexes.
-/
structure State (M : Type) where
  word : M → ℕ
  /-- the global counter -/
  i : ℤ
  events : List (Event M)

/-- Any words and any counter to begin with, and nothing has happened. -/
def start (word : M → ℕ) (i : ℤ) : State M := ⟨word, i, []⟩

/-- A successful `hle_lock`. -/
def State.lock (s : State M) (m : M) : State M :=
  { s with word := Function.update s.word m 1, events := s.events ++ [.locked m] }

/-- A `hle_lock` that has found the word set. -/
def State.refuse (s : State M) (m : M) : State M :=
  { s with word := Function.update s.word m 1, events := s.events ++ [.refused m] }

/-- `__hle_acquire_test_and_set4` stores a 1 and compares the old value with 1. -/
def hleLock (m : M) (s : State M) : ℤ × State M :=
  if s.word m = 1 then (1, s.refuse m) else (0, s.lock m)

/-- `hle_unlock` resets the word, whoever has set it. -/
def hleUnlock (m : M) (s : State M) : State M :=
  { s with word := Function.update s.word m 0, events := s.events ++ [.unlocked m] }

/-- `i++` -/
def State.count (s : State M) : State M := { s with i := s.i + 1 }

/-- `nest_hle` locks the mutex, calls itself one level deeper and unlocks it. `nesting_count` and
the global counter are `int` in the source, here without bound: there are fewer than 2^31 levels
and sections. -/
def nestHle (nestingCount maxNesting : ℤ) (mutex : M) (s : State M) : ℤ × State M :=
  let (r, s) := hleLock mutex s
  if r ≠ 0 then (1, s)
  else
    let s := s.count
    let (failures, s) :=
      if nestingCount + 1 ≤ maxNesting then nestHle (nestingCount + 1) maxNesting mutex s
      else (0, s)
    (failures, hleUnlock mutex s)
termination_by (maxNesting - nestingCount).toNat

/-- `nest_double` with an outer and an inner mutex, which it unlocks in the reverse order. -/
def nestDouble (nestingCount maxNesting : ℤ) (outer inner : M) (s : State M) : ℤ × State M :=
  let (r, s) := hleLock outer s
  if r ≠ 0 then (1, s)
  else
    let (r, s) := hleLock inner s
    if r ≠ 0 then (1, s)
    else
      let s := s.count
      let (failures, s) :=
        if nestingCount + 1 ≤ maxNesting then
          nestDouble (nestingCount + 1) maxNesting outer inner s
        else (0, s)
      (failures, hleUnlock outer (hleUnlock inner s))
termination_by (maxNesting - nestingCount).toNat

/-- `nest_triple` with three mutexes, which it unlocks in the order in which it locked them. -/
def nestTriple (nestingCount maxNesting : ℤ) (mutex₁ mutex₂ mutex₃ : M) (s : State M) :
    ℤ × State M :=
  let (r, s) := hleLock mutex₁ s
  if r ≠ 0 then (1, s)
  else
    let (r, s) := hleLock mutex₂ s
    if r ≠ 0 then (1, s)
    else
      let (r, s) := hleLock mutex₃ s
      if r ≠ 0 then (1, s)
      else
        let s := s.count
        let (failures, s) :=
          if nestingCount + 1 ≤ maxNesting then
            nestTriple (nestingCount + 1) maxNesting mutex₁ mutex₂ mutex₃ s
          else (0, s)
        (failures, hleUnlock mutex₃ (hleUnlock mutex₂ (hleUnlock mutex₁ s)))
termination_by (maxNesting - nestingCount).toNat

/-- The first loop of `nest_iterative`: whether it returns 1, and the count it ends with. -/
def lockLoop (nestingCount maxNesting : ℤ) (mutex : M) (s : State M) : Bool × ℤ × State M :=
  if nestingCount ≤ maxNesting then
    let (r, s) := hleLock mutex s
    if r ≠ 0 then (true, nestingCount, s) else lockLoop (nestingCount + 1) maxNesting mutex s
  else (false, nestingCount, s)
termination_by (maxNesting + 1 - nestingCount).toNat

/-- The second loop of `nest_iterative`. -/
def unlockLoop (nestingCount : ℤ) (mutex : M) (s : State M) : State M :=
  if 0 ≤ nestingCount then unlockLoop (nestingCount - 1) mutex (hleUnlock mutex s) else s
termination_by (nestingCount + 1).toNat

/-- `nest_iterative` locks the mutex in a loop and unlocks it as often. -/
def nestIterative (nestingCount maxNesting : ℤ) (mutex : M) (s : State M) : ℤ × State M :=
  let (failed, nestingCount, s) := lockLoop nestingCount maxNesting mutex s
  if failed then (1, s) else (0, unlockLoop nestingCount mutex s.count)

/-- A call that starts with these words and ends in `s` has unlocked each mutex as often as it has
locked it, has not unlocked one that was held before, and leaves none that it has locked held. -/
structure ReleasesOwn (word : M → ℕ) (s : State M) : Prop where
  balanced : ∀ m, s.events.count (.unlocked m) = s.events.count (.locked m)
  spared : ∀ m, word m = 1 → .unlocked m ∉ s.events
  released : ∀ m, .locked m ∈ s.events → s.word m ≠ 1

/-! ## One call -/

variable {m m₁ m₂ m₃ outer inner : M} {s : State M} {nestingCount maxNesting : ℤ}

theorem hleLock_of_held (h : s.word m = 1) : hleLock m s = (1, s.refuse m) := if_pos h

theorem hleLock_of_free (h : s.word m ≠ 1) : hleLock m s = (0, s.lock m) := if_neg h

@[simp] theorem State.lock_word (s : State M) (m : M) :
    (s.lock m).word = Function.update s.word m 1 := rfl

theorem nestHle_of_held (h : s.word m = 1) :
    nestHle nestingCount maxNesting m s = (1, s.refuse m) := by
  rw [nestHle, hleLock_of_held h]
  rfl

theorem nestDouble_of_held (h : s.word outer = 1) :
    nestDouble nestingCount maxNesting outer inner s = (1, s.refuse outer) := by
  rw [nestDouble, hleLock_of_held h]
  rfl

theorem nestTriple_of_held (h : s.word m₁ = 1) :
    nestTriple nestingCount maxNesting m₁ m₂ m₃ s = (1, s.refuse m₁) := by
  rw [nestTriple, hleLock_of_held h]
  rfl

/-- The inner call of a driver that holds its first mutex `m`. -/
def State.nested (s : State M) (m : M) (again : Prop) [Decidable again] : State M :=
  if again then s.count.refuse m else s.count

theorem nestHle_of_free (h : s.word m ≠ 1) :
    (nestHle nestingCount maxNesting m s).2 =
      hleUnlock m ((s.lock m).nested m (nestingCount + 1 ≤ maxNesting)) := by
  have hheld : (s.lock m).count.word m = 1 := by simp [State.count]
  rw [nestHle, hleLock_of_free h]
  simp only [ne_eq, not_true_eq_false, if_false, nestHle_of_held hheld, State.nested]
  split <;> rfl

theorem nestDouble_of_inner_held (ho : s.word outer ≠ 1) (hi : (s.lock outer).word inner = 1) :
    (nestDouble nestingCount maxNesting outer inner s).2 = (s.lock outer).refuse inner := by
  rw [nestDouble, hleLock_of_free ho]
  simp [hleLock_of_held hi]

theorem nestDouble_of_free (ho : s.word outer ≠ 1) (hi : (s.lock outer).word inner ≠ 1) :
    (nestDouble nestingCount maxNesting outer inner s).2 =
      hleUnlock outer (hleUnlock inner
        (((s.lock outer).lock inner).nested outer (nestingCount + 1 ≤ maxNesting))) := by
  have hheld : ((s.lock outer).lock inner).count.word outer = 1 := by
    simp [State.count, Function.update_apply]
  rw [nestDouble, hleLock_of_free ho]
  simp only [ne_eq, not_true_eq_false, if_false, hleLock_of_free hi, nestDouble_of_held hheld,
    State.nested]
  split <;> rfl

theorem nestTriple_of_second_held (h₁ : s.word m₁ ≠ 1) (h₂ : (s.lock m₁).word m₂ = 1) :
    (nestTriple nestingCount maxNesting m₁ m₂ m₃ s).2 = (s.lock m₁).refuse m₂ := by
  rw [nestTriple, hleLock_of_free h₁]
  simp [hleLock_of_held h₂]

theorem nestTriple_of_third_held (h₁ : s.word m₁ ≠ 1) (h₂ : (s.lock m₁).word m₂ ≠ 1)
    (h₃ : ((s.lock m₁).lock m₂).word m₃ = 1) :
    (nestTriple nestingCount maxNesting m₁ m₂ m₃ s).2 = ((s.lock m₁).lock m₂).refuse m₃ := by
  rw [nestTriple, hleLock_of_free h₁]
  simp [hleLock_of_free h₂, hleLock_of_held h₃]

theorem nestTriple_of_free (h₁ : s.word m₁ ≠ 1) (h₂ : (s.lock m₁).word m₂ ≠ 1)
    (h₃ : ((s.lock m₁).lock m₂).word m₃ ≠ 1) :
    (nestTriple nestingCount maxNesting m₁ m₂ m₃ s).2 =
      hleUnlock m₃ (hleUnlock m₂ (hleUnlock m₁
        ((((s.lock m₁).lock m₂).lock m₃).nested m₁ (nestingCount + 1 ≤ maxNesting)))) := by
  have hheld : (((s.lock m₁).lock m₂).lock m₃).count.word m₁ = 1 := by
    simp [State.count, Function.update_apply]
  rw [nestTriple, hleLock_of_free h₁]
  simp only [ne_eq, not_true_eq_false, if_false, hleLock_of_free h₂, hleLock_of_free h₃,
    nestTriple_of_held hheld, State.nested]
  split <;> rfl

/-- The second `hle_lock` of the first loop finds the word that the first one has set. -/
theorem lockLoop_eq (nestingCount maxNesting : ℤ) (m : M) (s : State M) :
    lockLoop nestingCount maxNesting m s =
      if maxNesting < nestingCount then (false, nestingCount, s)
      else if s.word m = 1 then (true, nestingCount, s.refuse m)
      else if nestingCount < maxNesting then (true, nestingCount + 1, (s.lock m).refuse m)
      else (false, nestingCount + 1, s.lock m) := by
  have hheld : (s.lock m).word m = 1 := by simp
  rw [lockLoop]
  by_cases hmax : maxNesting < nestingCount
  · rw [if_neg (by omega), if_pos hmax]
  · rw [if_pos (by omega), if_neg hmax]
    by_cases hm : s.word m = 1
    · simp [hleLock_of_held hm, hm]
    · simp only [hleLock_of_free hm, if_neg hm, ne_eq, not_true_eq_false, if_false]
      rw [lockLoop]
      by_cases hlt : nestingCount < maxNesting
      · rw [if_pos (by omega), if_pos hlt]
        simp [hleLock_of_held hheld]
      · rw [if_neg (by omega), if_neg hlt]

theorem unlockLoop_events (n : ℕ) (m : M) (s : State M) :
    (unlockLoop (n - 1) m s).events = s.events ++ List.replicate n (.unlocked m) := by
  induction n generalizing s with
  | zero =>
    rw [unlockLoop, if_neg (by omega)]
    simp
  | succ n ih =>
    have hn : ((n + 1 : ℕ) : ℤ) - 1 - 1 = n - 1 := by omega
    rw [unlockLoop, if_pos (by omega), hn, ih, List.replicate_succ]
    simp [hleUnlock]

/-! ## What is released -/

variable {word : M → ℕ}

theorem not_releasesOwn_of_leak (hl : .locked m ∈ s.events) (hu : .unlocked m ∉ s.events) :
    ¬ ReleasesOwn word s := by
  intro h
  have hzero := h.balanced m
  rw [List.count_eq_zero_of_not_mem hu] at hzero
  have hpos := List.count_pos_iff.mpr hl
  omega

theorem not_releasesOwn_refuse (m : M) (hl : .locked m ∈ s.events)
    (hu : .unlocked m ∉ s.events) : ¬ ReleasesOwn word (s.refuse m₁) := by
  apply not_releasesOwn_of_leak
  · exact List.mem_append_left _ hl
  · simp [State.refuse, hu]

omit [DecidableEq M] in
theorem locked_injective : Function.Injective (Event.locked : M → Event M) := fun _ _ h => by
  injection h

omit [DecidableEq M] in
theorem unlocked_injective : Function.Injective (Event.unlocked : M → Event M) := fun _ _ h => by
  injection h

/-- A call that locks some free mutexes, is refused others, and unlocks those it has locked. -/
theorem releasesOwn_of_events (locks refused unlocks : List M)
    (h : s.events = locks.map .locked ++ refused.map .refused ++ unlocks.map .unlocked)
    (hperm : unlocks.Perm locks) (hfree : ∀ m ∈ locks, word m ≠ 1)
    (hword : ∀ m ∈ locks, s.word m ≠ 1) : ReleasesOwn word s := by
  have hmem : ∀ m, .locked m ∈ s.events → m ∈ locks := by
    intro m hm
    simpa [h] using hm
  refine ⟨fun m => ?_, fun m hm hu => ?_, fun m hm => hword m (hmem m hm)⟩
  · have hu : s.events.count (.unlocked m) = unlocks.count m := by
      rw [h, List.count_append, List.count_append,
        List.count_map_of_injective _ _ unlocked_injective]
      simp [List.count_eq_zero_of_not_mem]
    have hl : s.events.count (.locked m) = locks.count m := by
      rw [h, List.count_append, List.count_append,
        List.count_map_of_injective _ _ locked_injective]
      simp [List.count_eq_zero_of_not_mem]
    rw [hu, hl, hperm.count_eq]
  · have hm' : m ∈ unlocks := by simpa [h] using hu
    exact hfree m (hperm.mem_iff.mp hm') hm

theorem releasesOwn_refuse (word : M → ℕ) (i : ℤ) (m : M) :
    ReleasesOwn word ((start word i).refuse m) :=
  releasesOwn_of_events [] [m] [] rfl .rfl
    (fun _ h => absurd h List.not_mem_nil) (fun _ h => absurd h List.not_mem_nil)

theorem nested_events (s : State M) (m : M) (again : Prop) [Decidable again] :
    (s.nested m again).events =
      s.events ++ (if again then [m] else []).map Event.refused := by
  unfold State.nested
  split
  · rfl
  · exact (List.append_nil _).symm

theorem nestHle_releasesOwn (word : M → ℕ) (i : ℤ) (nestingCount maxNesting : ℤ) (m : M) :
    ReleasesOwn word (nestHle nestingCount maxNesting m (start word i)).2 := by
  by_cases hm : word m = 1
  · rw [nestHle_of_held hm]
    exact releasesOwn_refuse word i m
  · rw [nestHle_of_free hm]
    have hevents := nested_events ((start word i).lock m) m (nestingCount + 1 ≤ maxNesting)
    apply releasesOwn_of_events [m] _ [m] (congrArg (· ++ [.unlocked m]) hevents) .rfl
    · intro k hk
      rwa [List.mem_singleton.mp hk]
    · intro k hk
      rw [List.mem_singleton.mp hk]
      simp [hleUnlock]

/-- `nest_double` leaks the outer mutex if it cannot lock the inner one, and this is so for the
same mutex too. -/
theorem nestDouble_releasesOwn_iff (word : M → ℕ) (i : ℤ) (nestingCount maxNesting : ℤ)
    (outer inner : M) :
    ReleasesOwn word (nestDouble nestingCount maxNesting outer inner (start word i)).2 ↔
      word outer = 1 ∨ inner ≠ outer ∧ word inner ≠ 1 := by
  by_cases ho : word outer = 1
  · rw [nestDouble_of_held ho]
    exact iff_of_true (releasesOwn_refuse word i outer) (.inl ho)
  have hword : ((start word i).lock outer).word inner ≠ 1 ↔ inner ≠ outer ∧ word inner ≠ 1 := by
    rw [State.lock_word, Function.update_apply]
    split
    · simp [*]
    · simp [*, start]
  rw [or_iff_right ho, ← hword]
  by_cases hi : ((start word i).lock outer).word inner = 1
  · rw [nestDouble_of_inner_held ho hi]
    refine iff_of_false (not_releasesOwn_refuse outer ?_ ?_) (not_not.mpr hi)
    · simp [State.lock]
    · simp [State.lock, start]
  · rw [nestDouble_of_free ho hi]
    let refused := if nestingCount + 1 ≤ maxNesting then [outer] else []
    refine iff_of_true
      (releasesOwn_of_events [outer, inner] refused [inner, outer] ?_ (.swap ..) ?_ ?_) hi
    · change _ ++ [_] ++ [_] = _
      rw [nested_events, List.append_assoc]
      rfl
    · simp [ho, (hword.mp hi).2]
    · simp [hleUnlock, Function.update_apply]

/-- `nest_triple` leaks the mutexes before the first that it cannot lock. -/
theorem nestTriple_releasesOwn_iff (word : M → ℕ) (i : ℤ) (nestingCount maxNesting : ℤ)
    (m₁ m₂ m₃ : M) :
    ReleasesOwn word (nestTriple nestingCount maxNesting m₁ m₂ m₃ (start word i)).2 ↔
      word m₁ = 1 ∨ (m₂ ≠ m₁ ∧ word m₂ ≠ 1) ∧ m₃ ≠ m₁ ∧ m₃ ≠ m₂ ∧ word m₃ ≠ 1 := by
  by_cases h₁ : word m₁ = 1
  · rw [nestTriple_of_held h₁]
    exact iff_of_true (releasesOwn_refuse word i m₁) (.inl h₁)
  have hword₂ : ((start word i).lock m₁).word m₂ ≠ 1 ↔ m₂ ≠ m₁ ∧ word m₂ ≠ 1 := by
    rw [State.lock_word, Function.update_apply]
    split
    · simp [*]
    · simp [*, start]
  have hword₃ : (((start word i).lock m₁).lock m₂).word m₃ ≠ 1 ↔
      m₃ ≠ m₁ ∧ m₃ ≠ m₂ ∧ word m₃ ≠ 1 := by
    rw [State.lock_word, State.lock_word, Function.update_apply, Function.update_apply]
    split
    · simp [*]
    · split
      · simp [*]
      · simp [*, start]
  rw [or_iff_right h₁, ← hword₂, ← hword₃]
  by_cases h₂ : ((start word i).lock m₁).word m₂ = 1
  · rw [nestTriple_of_second_held h₁ h₂]
    refine iff_of_false (not_releasesOwn_refuse m₁ ?_ ?_) fun h => h.1 h₂
    · simp [State.lock]
    · simp [State.lock, start]
  by_cases h₃ : (((start word i).lock m₁).lock m₂).word m₃ = 1
  · rw [nestTriple_of_third_held h₁ h₂ h₃]
    refine iff_of_false (not_releasesOwn_refuse m₁ ?_ ?_) fun h => h.2 h₃
    · simp [State.lock]
    · simp [State.lock, start]
  · rw [nestTriple_of_free h₁ h₂ h₃]
    let refused := if nestingCount + 1 ≤ maxNesting then [m₁] else []
    refine iff_of_true
      (releasesOwn_of_events [m₁, m₂, m₃] refused [m₁, m₂, m₃] ?_ .rfl ?_ ?_) ⟨h₂, h₃⟩
    · change _ ++ [_] ++ [_] ++ [_] = _
      rw [nested_events, List.append_assoc, List.append_assoc]
      rfl
    · simp [h₁, (hword₂.mp h₂).2, (hword₃.mp h₃).2.2]
    · simp [hleUnlock, Function.update_apply]

/-- The second loop unlocks once more than the count says. -/
theorem not_releasesOwn_unlockLoop {n : ℤ} (hn : 0 ≤ n)
    (hl : s.events.count (.locked m) ≤ n) (hu : .unlocked m ∉ s.events) :
    ¬ ReleasesOwn word (unlockLoop n m s.count) := by
  obtain ⟨k, rfl⟩ : ∃ k : ℕ, n = k - 1 := ⟨(n + 1).toNat, by omega⟩
  intro h
  have hb := h.balanced m
  have hother : (List.replicate k (Event.unlocked m)).count (.locked m) = 0 := by
    rw [List.count_eq_zero]
    simp
  rw [unlockLoop_events, List.count_append, List.count_append, List.count_replicate_self, hother]
    at hb
  have hzero : s.count.events.count (.unlocked m) = 0 := List.count_eq_zero_of_not_mem hu
  have hsame : s.count.events.count (.locked m) = s.events.count (.locked m) := rfl
  omega

/-- `nest_iterative` releases what it has acquired only if it acquires nothing and does not reach
the second loop. -/
theorem nestIterative_releasesOwn_iff (word : M → ℕ) (i : ℤ) {nestingCount maxNesting : ℤ}
    (hmax : 0 ≤ maxNesting) (m : M) :
    ReleasesOwn word (nestIterative nestingCount maxNesting m (start word i)).2 ↔
      word m = 1 ∧ nestingCount ≤ maxNesting := by
  rw [nestIterative, lockLoop_eq]
  by_cases hlt : maxNesting < nestingCount
  · rw [if_pos hlt]
    refine iff_of_false (not_releasesOwn_unlockLoop (by omega) ?_ List.not_mem_nil) (by omega)
    exact Int.le_trans (Int.le_of_eq rfl) (by omega : (0 : ℤ) ≤ nestingCount)
  rw [if_neg hlt]
  by_cases hm : word m = 1
  · rw [if_pos (show (start word i).word m = 1 from hm)]
    exact iff_of_true (releasesOwn_refuse word i m) ⟨hm, by omega⟩
  rw [if_neg (show (start word i).word m ≠ 1 from hm)]
  refine iff_of_false ?_ fun h => hm h.1
  by_cases hle : nestingCount < maxNesting
  · rw [if_pos hle]
    apply not_releasesOwn_refuse m
    · simp [State.lock]
    · simp [State.lock, start]
  · rw [if_neg hle]
    apply not_releasesOwn_unlockLoop
    · omega
    · simp [State.lock, start]
      omega
    · simp [State.lock, start]

/-- Only `nest_hle` always releases what it has acquired; the exact conditions of the others. -/
theorem drivers_releasesOwn_iff (word : M → ℕ) (i : ℤ) (nestingCount maxNesting : ℤ)
    (hmax : 0 ≤ maxNesting) (m outer inner m₁ m₂ m₃ : M) :
    ReleasesOwn word (nestHle nestingCount maxNesting m (start word i)).2 ∧
      (ReleasesOwn word (nestDouble nestingCount maxNesting outer inner (start word i)).2 ↔
        word outer = 1 ∨ inner ≠ outer ∧ word inner ≠ 1) ∧
      (ReleasesOwn word (nestTriple nestingCount maxNesting m₁ m₂ m₃ (start word i)).2 ↔
        word m₁ = 1 ∨ (m₂ ≠ m₁ ∧ word m₂ ≠ 1) ∧ m₃ ≠ m₁ ∧ m₃ ≠ m₂ ∧ word m₃ ≠ 1) ∧
      (ReleasesOwn word (nestIterative nestingCount maxNesting m (start word i)).2 ↔
        word m = 1 ∧ nestingCount ≤ maxNesting) :=
  ⟨nestHle_releasesOwn word i nestingCount maxNesting m,
    nestDouble_releasesOwn_iff word i nestingCount maxNesting outer inner,
    nestTriple_releasesOwn_iff word i nestingCount maxNesting m₁ m₂ m₃,
    nestIterative_releasesOwn_iff word i hmax m⟩

/-- Three free mutexes and a held one. -/
theorem drivers_releasesOwn_iff_four :
    let word : ℕ → ℕ := fun m => if m = 3 then 1 else 0
    ReleasesOwn word (nestHle 0 2 0 (start word 0)).2 ∧
      (ReleasesOwn word (nestDouble 0 2 0 3 (start word 0)).2 ↔ False) ∧
      (ReleasesOwn word (nestTriple 0 2 0 1 2 (start word 0)).2 ↔ True) ∧
      (ReleasesOwn word (nestIterative 0 2 3 (start word 0)).2 ↔ True) := by
  have h := drivers_releasesOwn_iff (fun m : ℕ => if m = 3 then 1 else 0) 0 0 2 (by decide)
  exact ⟨(h 0 0 0 0 0 0).1, (h 0 0 3 0 0 0).2.1.trans (by decide),
    (h 0 0 0 0 1 2).2.2.1.trans (by decide), (h 3 0 0 0 0 0).2.2.2.trans (by decide)⟩

/-- The outer mutex is free and the inner one is held: `nest_double` returns with the outer one
locked. -/
theorem nestDouble_leaks : ¬ ∀ (word : Bool → ℕ) (nestingCount maxNesting : ℤ),
    ReleasesOwn word (nestDouble nestingCount maxNesting true false (start word 0)).2 := by
  intro h
  have hw := h (fun m => if m then 0 else 1) 0 0
  rw [nestDouble_of_inner_held (by decide) (by decide)] at hw
  exact absurd (hw.balanced true) (by decide)

end Htmsql.Nesting
