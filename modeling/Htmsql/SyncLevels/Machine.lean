import Htmsql.SyncLevels.Order

/-!
# The latches of all threads

`sync_thread_add_level` and `sync_thread_reset_level` over the slots of all threads
(`sync_thread_level_arrays`), and threads that enter and exit mutexes. A thread gets a slot with its
first latch and keeps it. `mutex_enter_func` adds the mutex after its test-and-set has succeeded, so
a thread that waits has passed no check for the mutex it waits for; `mutex_exit_func` removes the
mutex before it resets the lock word. `step` takes each pair as one.

In every state reached the array of a thread has exactly the mutexes that the thread owns, each one
once and with its level (`Sys.Inv`). The functions that ask what a thread owns answer accordingly
(`queries_correct`).
-/

namespace Htmsql.SyncLevels

open Run

variable {T L : Type}

/-- The latches of the program and what the checks know about them. -/
structure Config (L : Type) where
  server : Server
  /-- `OS_THREAD_MAX_N` -/
  threadMax : Nat
  /-- what the latch was created with -/
  level : L → Level
  /-- `sync_thread_mutex`, `mutex_list_mutex`, `rw_lock_debug_mutex` and `rw_lock_list_mutex` -/
  exempt : L → Bool
  /-- an rw-lock with `SYNC_LEVEL_VARYING` -/
  varyingRwLock : L → Bool
  /-- `sync_init` creates these four with `SYNC_NO_ORDER_CHECK`. -/
  exempt_level : ∀ l, exempt l = true → level l = .noOrderCheck

/-- `sync_thread_level_arrays`: the thread and the array of each slot in use. -/
abbrev LevelArrays (T L : Type) := Nat → Option (T × SyncArr L)

variable [DecidableEq T]

/-- `sync_thread_level_arrays_find_slot` -/
def findSlot (cfg : Config L) (arrays : LevelArrays T L) (t : T) : Option Nat :=
  (List.range cfg.threadMax).find? fun i => (arrays i).any fun slot => slot.1 == t

/-- `sync_thread_level_arrays_find_free` -/
def findFree (cfg : Config L) (arrays : LevelArrays T L) : Option Nat :=
  (List.range cfg.threadMax).find? fun i => (arrays i).isNone

/-- The level array of a thread; a thread without one owns nothing. -/
def arrayOf (cfg : Config L) (arrays : LevelArrays T L) (t : T) : SyncArr L :=
  ((findSlot cfg arrays t).bind arrays).elim .new Prod.snd

/-- The slot of the thread, or a free one. -/
def threadSlot (cfg : Config L) (arrays : LevelArrays T L) (t : T) : Option Nat :=
  (findSlot cfg arrays t).or (findFree cfg arrays)

/-- `sync_thread_add_level`; `none` where an assertion fails or no slot is left. -/
def addLevel (cfg : Config L) (arrays : LevelArrays T L) (t : T) (latch : L) (level : Level)
    (relock : Bool) : Option (LevelArrays T L) :=
  if cfg.exempt latch then some arrays
  else if level = .levelVarying then some arrays
  else
    (threadSlot cfg arrays t).bind fun i =>
      let array := arrayOf cfg arrays t
      if relock || array.levelsOk cfg.server level then
        (array.add latch level.toNat).map fun array' => Function.update arrays i (some (t, array'))
      else none

variable [DecidableEq L]

/-- `sync_thread_reset_level`; `none` where an assertion fails. -/
def resetLevel (cfg : Config L) (arrays : LevelArrays T L) (t : T) (latch : L) :
    Option (Bool × LevelArrays T L) :=
  if cfg.exempt latch then some (false, arrays)
  else
    (findSlot cfg arrays t).bind fun i =>
      match (arrayOf cfg arrays t).reset latch with
      | some array' => some (true, Function.update arrays i (some (t, array')))
      | none => if cfg.varyingRwLock latch then some (true, arrays) else none

/-! ## The queries -/

/-- `sync_thread_levels_contains` -/
def levelsContains (cfg : Config L) (arrays : LevelArrays T L) (t : T) (level : Level) :
    Option L :=
  ((arrayOf cfg arrays t).levelsContain level.toNat).bind SyncLevel.latch

/-- `sync_thread_levels_nonempty_gen` returns NULL; otherwise an assertion fails. -/
def levelsEmptyGen (cfg : Config L) (arrays : LevelArrays T L) (t : T) (dictMutexAllowed : Bool) :
    Bool :=
  (arrayOf cfg arrays t).slots.all fun slot =>
    slot.latch.isNone || (dictMutexAllowed && (slot.level == Level.toNat .dict ||
      slot.level == Level.toNat .dictOperation || slot.level == Level.toNat .ftsCache))

/-- `sync_thread_levels_nonempty_trx` returns NULL; otherwise an assertion fails. -/
def levelsEmptyTrx (cfg : Config L) (arrays : LevelArrays T L) (t : T) (hasSearchLatch : Bool) :
    Bool :=
  (!hasSearchLatch || (levelsContains cfg arrays t .searchSys).isSome) &&
    (arrayOf cfg arrays t).slots.all fun slot =>
      slot.latch.isNone || (hasSearchLatch && slot.level == Level.toNat .searchSys)

/-! ## The threads -/

/-- The arrays of the threads, and for each mutex the thread that has set its word or wants to. -/
structure Sys (T L : Type) where
  arrays : LevelArrays T L
  /-- who has set the lock word -/
  owner : L → Option T
  /-- the mutex that a call of `mutex_enter_func` has not got yet -/
  wants : T → Option L

/-- What a thread does: it calls the enter function, gets the mutex, or leaves it. -/
inductive Act (T L : Type) where
  | enter (t : T) (l : L)
  | acquire (t : T)
  | exit (t : T) (l : L)

/-- One step of the machine, `none` where the debug checks crash or the mutex is taken. -/
def step (cfg : Config L) (s : Sys T L) : Act T L → Option (Sys T L)
  | .enter t l =>
    -- `ut_ad(!mutex_own(mutex))`
    if s.wants t = none ∧ s.owner l ≠ some t then
      some { s with wants := Function.update s.wants t (some l) }
    else none
  | .acquire t =>
    (s.wants t).bind fun l =>
      if s.owner l = none then
        (addLevel cfg s.arrays t l (cfg.level l) false).map fun arrays =>
          { arrays := arrays
            owner := Function.update s.owner l (some t)
            wants := Function.update s.wants t none }
      else none
  | .exit t l =>
    -- `ut_ad(mutex_own(mutex))`
    if s.wants t = none ∧ s.owner l = some t then
      (resetLevel cfg s.arrays t l).map fun (_, arrays) =>
        { s with arrays := arrays, owner := Function.update s.owner l none }
    else none

/-- No thread has an array, and all mutexes are free. -/
def init : Sys T L where
  arrays := fun _ => none
  owner := fun _ => none
  wants := fun _ => none

/-- The latches that appear in the arrays. -/
def Config.tracked (cfg : Config L) (l : L) : Prop :=
  cfg.exempt l = false ∧ cfg.level l ≠ .levelVarying

/-- Each thread has one array at most, within `thread_max`, and its entries are the mutexes it has
set that the checks track, each once and with its level. -/
structure Sys.Inv (cfg : Config L) (s : Sys T L) : Prop where
  one : ∀ i j t a b, s.arrays i = some (t, a) → s.arrays j = some (t, b) → i = j
  inRange : ∀ i, cfg.threadMax ≤ i → s.arrays i = none
  array : ∀ t, (arrayOf cfg s.arrays t).Inv
  held : ∀ t l n, (l, n) ∈ (arrayOf cfg s.arrays t).held ↔
    s.owner l = some t ∧ cfg.tracked l ∧ n = (cfg.level l).toNat
  once : ∀ t, ((arrayOf cfg s.arrays t).held.map Prod.fst).Nodup
  waits : ∀ t l, s.wants t = some l → s.owner l ≠ some t

variable {cfg : Config L} {arrays arrays' : LevelArrays T L} {s s' : Sys T L} {t u : T} {l : L}
  {i : Nat}

/-! ## The slots -/

section Slots

omit [DecidableEq L]

/-- No two slots belong to one thread, and only the first `OS_THREAD_MAX_N` are used. -/
structure SlotsOk (cfg : Config L) (arrays : LevelArrays T L) : Prop where
  one : ∀ i j t a b, arrays i = some (t, a) → arrays j = some (t, b) → i = j
  inRange : ∀ i, cfg.threadMax ≤ i → arrays i = none

theorem findSlot_some (h : findSlot cfg arrays t = some i) :
    i < cfg.threadMax ∧ ∃ a, arrays i = some (t, a) := by
  have hmem := List.mem_range.mp (List.mem_of_find?_eq_some h)
  have hany := List.find?_some h
  rw [Option.any_eq_true] at hany
  obtain ⟨⟨id, a⟩, hslot, hid⟩ := hany
  obtain rfl : id = t := by simpa using hid
  exact ⟨hmem, a, hslot⟩

theorem findSlot_none (h : findSlot cfg arrays t = none) (hi : i < cfg.threadMax)
    (a : SyncArr L) : arrays i ≠ some (t, a) := by
  intro hslot
  have hnot := List.find?_eq_none.mp h i (List.mem_range.mpr hi)
  rw [hslot] at hnot
  simp at hnot

theorem SlotsOk.findSlot_eq (h : SlotsOk cfg arrays) {a : SyncArr L}
    (ha : arrays i = some (t, a)) : findSlot cfg arrays t = some i := by
  have hi : i < cfg.threadMax := by
    by_contra hge
    rw [h.inRange i (by omega)] at ha
    cases ha
  cases hf : findSlot cfg arrays t with
  | none => exact (findSlot_none hf hi a ha).elim
  | some j =>
    obtain ⟨-, b, hb⟩ := findSlot_some hf
    rw [h.one j i t b a hb ha]

theorem SlotsOk.arrayOf_eq (h : SlotsOk cfg arrays) {a : SyncArr L}
    (ha : arrays i = some (t, a)) : arrayOf cfg arrays t = a := by
  rw [arrayOf, h.findSlot_eq ha, Option.bind_some, ha]
  rfl

theorem arrayOf_of_forall_ne (h : ∀ i a, arrays i ≠ some (t, a)) :
    arrayOf cfg arrays t = .new := by
  cases hf : findSlot cfg arrays t with
  | none =>
    rw [arrayOf, hf]
    rfl
  | some i =>
    obtain ⟨-, a, ha⟩ := findSlot_some hf
    exact (h i a ha).elim

omit [DecidableEq T] in
theorem findFree_some (h : findFree cfg arrays = some i) :
    i < cfg.threadMax ∧ arrays i = none := by
  have hmem := List.mem_range.mp (List.mem_of_find?_eq_some h)
  have hnone := List.find?_some h
  exact ⟨hmem, Option.isNone_iff_eq_none.mp hnone⟩

/-- The slot that a thread writes to is its own, or it is free and the thread has none. -/
theorem SlotsOk.threadSlot (h : SlotsOk cfg arrays) (hi : threadSlot cfg arrays t = some i) :
    i < cfg.threadMax ∧ (∀ u a, arrays i = some (u, a) → u = t) ∧
      ∀ j a, arrays j = some (t, a) → j = i := by
  unfold SyncLevels.threadSlot at hi
  cases hf : findSlot cfg arrays t with
  | some j =>
    rw [hf, Option.some_or] at hi
    obtain rfl := Option.some.inj hi
    obtain ⟨hlt, a, ha⟩ := findSlot_some hf
    refine ⟨hlt, fun u b hb => ?_, fun k b hb => h.one k j t b a hb ha⟩
    rw [ha] at hb
    cases hb
    rfl
  | none =>
    rw [hf, Option.none_or] at hi
    obtain ⟨hlt, hfree⟩ := findFree_some hi
    refine ⟨hlt, fun u a ha => ?_, fun j a ha => ?_⟩
    · rw [hfree] at ha
      cases ha
    · have hj : j < cfg.threadMax := by
        by_contra hge
        rw [h.inRange j (by omega)] at ha
        cases ha
      exact (findSlot_none hf hj a ha).elim

/-- Writing the slot of a thread changes the array of that thread. -/
theorem SlotsOk.update (h : SlotsOk cfg arrays) (hi : SyncLevels.threadSlot cfg arrays t = some i)
    (a : SyncArr L) :
    SlotsOk cfg (Function.update arrays i (some (t, a))) ∧
      arrayOf cfg (Function.update arrays i (some (t, a))) t = a ∧
      ∀ u, u ≠ t → arrayOf cfg (Function.update arrays i (some (t, a))) u = arrayOf cfg arrays u := by
  obtain ⟨hlt, hself, hother⟩ := h.threadSlot hi
  have hok : SlotsOk cfg (Function.update arrays i (some (t, a))) := by
    refine ⟨fun j k u b c hb hc => ?_, fun j hj => ?_⟩
    · simp only [Function.update_apply] at hb hc
      split at hb <;> split at hc
      · rename_i hji hki
        rw [hji, hki]
      · rename_i hji hki
        cases hb
        exact (hki (hother k c hc)).elim
      · rename_i hji hki
        cases hc
        exact (hji (hother j b hb)).elim
      · exact h.one j k u b c hb hc
    · rw [Function.update_of_ne (by omega)]
      exact h.inRange j hj
  refine ⟨hok, hok.arrayOf_eq (Function.update_self _ _ _), fun u hu => ?_⟩
  by_cases hslot : ∃ j b, arrays j = some (u, b)
  · obtain ⟨j, b, hb⟩ := hslot
    have hne : j ≠ i := by
      rintro rfl
      exact hu (hself u b hb)
    rw [h.arrayOf_eq hb]
    apply hok.arrayOf_eq (i := j)
    rw [Function.update_of_ne hne]
    exact hb
  · simp only [not_exists] at hslot
    rw [arrayOf_of_forall_ne hslot]
    apply arrayOf_of_forall_ne
    intro j b hb
    rw [Function.update_apply] at hb
    split at hb
    · cases hb
      exact hu rfl
    · exact hslot j b hb

/-! ## The invariant -/

omit [DecidableEq T] in
theorem Config.not_tracked_of_exempt (h : cfg.exempt l = true) : ¬ cfg.tracked l := by
  rintro ⟨hno, -⟩
  rw [h] at hno
  cases hno

theorem inv_init (cfg : Config L) : (init : Sys T L).Inv cfg := by
  have harray : ∀ t : T, arrayOf cfg (init : Sys T L).arrays t = .new := by
    intro t
    apply arrayOf_of_forall_ne
    intro i a ha
    cases ha
  refine ⟨?_, fun _ _ => rfl, fun t => ?_, fun t l n => ?_, fun t => ?_, ?_⟩
  · intro i j t a b ha
    cases ha
  · rw [harray]
    exact SyncArr.inv_new
  · rw [harray]
    refine iff_of_false ?_ ?_
    · intro hmem
      cases hmem
    · rintro ⟨howner, -⟩
      cases howner
  · rw [harray]
    exact List.nodup_nil
  · intro t l hw
    cases hw

theorem Sys.Inv.slots (h : s.Inv cfg) : SlotsOk cfg s.arrays := ⟨h.one, h.inRange⟩

end Slots

/-- A latch that is not tracked changes its owner without a trace. -/
theorem Sys.Inv.untracked (h : s.Inv cfg) (hl : ¬ cfg.tracked l) (o : Option T)
    {wants : T → Option L} (hw : ∀ t k, wants t = some k → Function.update s.owner l o k ≠ some t) :
    ({ s with owner := Function.update s.owner l o, wants := wants } : Sys T L).Inv cfg := by
  refine ⟨h.one, h.inRange, h.array, fun t k n => (h.held t k n).trans ?_, h.once, hw⟩
  by_cases hk : k = l
  · subst hk
    exact iff_of_false (fun hk => hl hk.2.1) fun hk => hl hk.2.1
  · change _ ↔ Function.update s.owner l o k = some t ∧ _
    rw [Function.update_of_ne hk]

theorem Sys.Inv.acquire (h : s.Inv cfg) (hs : step cfg s (.acquire t) = some s') :
    s'.Inv cfg := by
  simp only [step, Option.bind_eq_some_iff] at hs
  obtain ⟨l, hl, hs⟩ := hs
  split at hs
  case isFalse => cases hs
  rename_i hfree
  rw [Option.map_eq_some_iff] at hs
  obtain ⟨arrays, hadd, rfl⟩ := hs
  have hwaits : ∀ u k, Function.update s.wants t none u = some k →
      Function.update s.owner l (some t) k ≠ some u := by
    intro u k hu
    rw [Function.update_apply] at hu
    split at hu
    · cases hu
    · rename_i hut
      rw [Function.update_apply]
      split
      · exact fun heq => hut (Option.some.inj heq).symm
      · exact h.waits u k hu
  unfold addLevel at hadd
  split at hadd
  · rename_i hexempt
    obtain rfl := Option.some.inj hadd
    exact h.untracked (Config.not_tracked_of_exempt hexempt) _ hwaits
  split at hadd
  · rename_i hvarying
    obtain rfl := Option.some.inj hadd
    exact h.untracked (fun htr => htr.2 hvarying) _ hwaits
  rename_i hexempt hvarying
  rw [Option.bind_eq_some_iff] at hadd
  obtain ⟨i, hi, hadd⟩ := hadd
  simp only [Bool.false_or] at hadd
  split at hadd
  case isFalse => cases hadd
  rw [Option.map_eq_some_iff] at hadd
  obtain ⟨array, harray, rfl⟩ := hadd
  obtain ⟨hslots, hself, hother⟩ := h.slots.update hi array
  have htracked : cfg.tracked l := ⟨by simpa using hexempt, hvarying⟩
  rcases (h.array t).add l (cfg.level l).toNat with ⟨-, hnone⟩ | ⟨array', hsome, hinv, hperm, -⟩
  · rw [hnone] at harray
    cases harray
  obtain rfl : array' = array := Option.some.inj (hsome.symm.trans harray)
  have hnotmem : ∀ n, (l, n) ∉ (arrayOf cfg s.arrays t).held := by
    intro n hmem
    have howner := ((h.held t l n).mp hmem).1
    rw [hfree] at howner
    cases howner
  refine ⟨hslots.one, hslots.inRange, fun u => ?_, fun u k n => ?_, fun u => ?_, hwaits⟩
  · by_cases hu : u = t
    · subst hu
      rw [hself]
      exact hinv
    · rw [hother u hu]
      exact h.array u
  · by_cases hu : u = t
    · subst hu
      rw [hself, hperm.mem_iff, List.mem_cons, Prod.mk.injEq, h.held]
      by_cases hk : k = l
      · subst hk
        simp [Function.update_self, hfree, htracked]
      · simp [hk]
    · rw [hother u hu, h.held]
      by_cases hk : k = l
      · subst hk
        simp [Function.update_self, hfree, Ne.symm hu]
      · simp [hk]
  · by_cases hu : u = t
    · subst hu
      rw [hself]
      refine ((hperm.map Prod.fst).nodup_iff).mpr ?_
      rw [List.map_cons, List.nodup_cons]
      refine ⟨fun hmem => ?_, h.once u⟩
      obtain ⟨⟨k, n⟩, hkn, hk⟩ := List.mem_map.mp hmem
      obtain rfl : k = l := hk
      exact hnotmem n hkn
    · rw [hother u hu]
      exact h.once u

theorem Sys.Inv.exit (h : s.Inv cfg) (hs : step cfg s (.exit t l) = some s') : s'.Inv cfg := by
  simp only [step] at hs
  split at hs
  case isFalse => cases hs
  rename_i hown
  rw [Option.map_eq_some_iff] at hs
  obtain ⟨⟨found, arrays⟩, hreset, rfl⟩ := hs
  have hwaits : ∀ u k, s.wants u = some k → Function.update s.owner l none k ≠ some u := by
    intro u k hu
    rw [Function.update_apply]
    split
    · exact (Option.some_ne_none u).symm
    · exact h.waits u k hu
  unfold resetLevel at hreset
  split at hreset
  · rename_i hexempt
    cases hreset
    exact h.untracked (Config.not_tracked_of_exempt hexempt) _ hwaits
  rename_i hexempt
  rw [Option.bind_eq_some_iff] at hreset
  obtain ⟨i, hi, hreset⟩ := hreset
  rcases (h.array t).reset l with ⟨hnot, hnone⟩ | ⟨array, level, hsome, hinv, hperm, -⟩
  · rw [hnone] at hreset
    simp only at hreset
    split at hreset
    case isFalse => cases hreset
    cases hreset
    refine h.untracked (fun htr => ?_) _ hwaits
    exact hnot _ ((h.held t l _).mpr ⟨hown.2, htr, rfl⟩)
  rw [hsome] at hreset
  cases hreset
  have hslot : threadSlot cfg s.arrays t = some i := by
    rw [threadSlot, hi]
    rfl
  obtain ⟨hslots, hself, hother⟩ := h.slots.update hslot array
  have hnodup := ((hperm.map Prod.fst).nodup_iff).mpr (h.once t)
  rw [List.map_cons, List.nodup_cons] at hnodup
  have hgone : ∀ n, (l, n) ∉ array.held := fun n hmem =>
    hnodup.1 (List.mem_map.mpr ⟨(l, n), hmem, rfl⟩)
  refine ⟨hslots.one, hslots.inRange, fun u => ?_, fun u k n => ?_, fun u => ?_, hwaits⟩
  · by_cases hu : u = t
    · subst hu
      rw [hself]
      exact hinv
    · rw [hother u hu]
      exact h.array u
  · change _ ↔ Function.update s.owner l none k = some u ∧ _
    by_cases hu : u = t
    · subst hu
      rw [hself]
      by_cases hk : k = l
      · subst hk
        rw [Function.update_self]
        exact iff_of_false (hgone n) fun hno => Option.some_ne_none u hno.1.symm
      · rw [Function.update_of_ne hk, ← h.held, ← hperm.mem_iff, List.mem_cons]
        refine (or_iff_right fun heq => ?_).symm
        rw [Prod.mk.injEq] at heq
        exact hk heq.1
    · rw [hother u hu, h.held]
      by_cases hk : k = l
      · subst hk
        simp [Function.update_self, hown.2, Ne.symm hu]
      · simp [hk]
  · by_cases hu : u = t
    · subst hu
      rw [hself]
      exact hnodup.2
    · rw [hother u hu]
      exact h.once u

theorem Sys.Inv.step {a : Act T L} (h : s.Inv cfg) (hs : step cfg s a = some s') : s'.Inv cfg := by
  cases a with
  | enter t l =>
    simp only [SyncLevels.step] at hs
    split at hs
    case isFalse => cases hs
    rename_i hok
    obtain rfl := Option.some.inj hs
    refine ⟨h.one, h.inRange, h.array, h.held, h.once, fun u k hu => ?_⟩
    replace hu : Function.update s.wants t (some l) u = some k := hu
    rw [Function.update_apply] at hu
    split at hu
    · rename_i hut
      rw [Option.some.injEq] at hu
      rw [hut, ← hu]
      exact hok.2
    · exact h.waits u k hu
  | acquire t => exact h.acquire hs
  | exit t l => exact h.exit hs

/-- In every state reached. -/
theorem reach_inv (h : Reach (step cfg) (· = init) (fun _ _ => True) s) : s.Inv cfg := by
  refine h.invariant (I := Sys.Inv cfg) ?_ fun s a s' hs _ hstep => hs.step hstep
  rintro _ rfl
  exact inv_init cfg

/-! ## What the queries answer -/

omit [DecidableEq L] in
theorem Sys.Inv.levelsContains_some (h : s.Inv cfg) {level : Level}
    (hl : levelsContains cfg s.arrays t level = some l) :
    s.owner l = some t ∧ cfg.tracked l ∧ cfg.level l = level := by
  rw [levelsContains, Option.bind_eq_some_iff] at hl
  obtain ⟨slot, hfind, hlatch⟩ := hl
  have hmem := List.mem_of_find?_eq_some hfind
  have hslot := List.find?_some hfind
  rw [SyncArr.slots, List.mem_map] at hmem
  obtain ⟨i, hi, rfl⟩ := hmem
  rw [Bool.and_eq_true, beq_iff_eq] at hslot
  have hheld : (l, level.toNat) ∈ (arrayOf cfg s.arrays t).held := by
    refine FreeSlots.mem_contents.mpr ⟨i, List.mem_range.mp hi, ?_⟩
    rw [SyncLevel.entry, hlatch, ← hslot.2]
    rfl
  obtain ⟨howner, htracked, hlevel⟩ := (h.held t l _).mp hheld
  exact ⟨howner, htracked, Level.toNat_injective hlevel.symm⟩

omit [DecidableEq L] in
theorem Sys.Inv.levelsContains_isSome (h : s.Inv cfg) {level : Level} :
    (levelsContains cfg s.arrays t level).isSome = true ↔
      ∃ l, s.owner l = some t ∧ cfg.tracked l ∧ cfg.level l = level := by
  constructor
  · intro hsome
    obtain ⟨l, hl⟩ := Option.isSome_iff_exists.mp hsome
    exact ⟨l, h.levelsContains_some hl⟩
  · rintro ⟨l, howner, htracked, hlevel⟩
    have hheld := (h.held t l level.toNat).mpr ⟨howner, htracked, by rw [hlevel]⟩
    have hcontain := SyncArr.levelsContain_iff.mpr ⟨l, hheld⟩
    obtain ⟨slot, hslot⟩ := Option.isSome_iff_exists.mp hcontain
    have hlatch := List.find?_some hslot
    rw [Bool.and_eq_true] at hlatch
    rw [levelsContains, hslot]
    exact hlatch.1

omit [DecidableEq L] in
/-- A scan over all slots is one over the mutexes of the thread. -/
theorem Sys.Inv.all_slots (h : s.Inv cfg) {P : Nat → Bool} :
    ((arrayOf cfg s.arrays t).slots.all fun slot => slot.latch.isNone || P slot.level) = true ↔
      ∀ l, s.owner l = some t → cfg.tracked l → P (cfg.level l).toNat = true := by
  simp only [SyncArr.slots, List.all_map, List.all_eq_true, List.mem_range]
  constructor
  · intro hall l howner htracked
    obtain ⟨i, hi, hentry⟩ :=
      FreeSlots.mem_contents.mp ((h.held t l _).mpr ⟨howner, htracked, rfl⟩)
    rw [SyncLevel.entry, Option.map_eq_some_iff] at hentry
    obtain ⟨latch, hlatch, heq⟩ := hentry
    rw [Prod.mk.injEq] at heq
    have hslot := hall i hi
    simpa [hlatch, heq.2] using hslot
  · intro hall i hi
    cases hlatch : ((arrayOf cfg s.arrays t).elems i).latch with
    | none => simp [hlatch]
    | some l =>
      have hheld : (l, ((arrayOf cfg s.arrays t).elems i).level) ∈
          (arrayOf cfg s.arrays t).held :=
        FreeSlots.mem_contents.mpr ⟨i, hi, by rw [SyncLevel.entry, hlatch]; rfl⟩
      obtain ⟨howner, htracked, hlevel⟩ := (h.held t l _).mp hheld
      have hP := hall l howner htracked
      rw [← hlevel] at hP
      simp [hP]

/-- In every state reached the queries tell what the calling thread owns: a latch of the level
asked for, whether it owns nothing but dictionary latches, whether it owns nothing but the search
latch. -/
theorem queries_correct (h : Reach (step cfg) (· = init) (fun _ _ => True) s) (t : T)
    (level : Level) (allowed : Bool) :
    (∀ l, levelsContains cfg s.arrays t level = some l →
        s.owner l = some t ∧ cfg.tracked l ∧ cfg.level l = level) ∧
      ((levelsContains cfg s.arrays t level).isSome = true ↔
        ∃ l, s.owner l = some t ∧ cfg.tracked l ∧ cfg.level l = level) ∧
      (levelsEmptyGen cfg s.arrays t allowed = true ↔
        ∀ l, s.owner l = some t → cfg.tracked l →
          allowed = true ∧ cfg.level l ∈ [Level.dict, .dictOperation, .ftsCache]) ∧
      (levelsEmptyTrx cfg s.arrays t allowed = true ↔
        (allowed = true → ∃ l, s.owner l = some t ∧ cfg.tracked l ∧
          cfg.level l = .searchSys) ∧
        ∀ l, s.owner l = some t → cfg.tracked l →
          allowed = true ∧ cfg.level l = .searchSys) := by
  have hinv := reach_inv h
  refine ⟨fun l hl => hinv.levelsContains_some hl, hinv.levelsContains_isSome, ?_, ?_⟩
  · rw [levelsEmptyGen, hinv.all_slots (P := fun n => allowed && (n == Level.toNat .dict ||
      n == Level.toNat .dictOperation || n == Level.toNat .ftsCache))]
    simp [or_assoc, Level.toNat_injective.eq_iff]
  · rw [levelsEmptyTrx, Bool.and_eq_true,
      hinv.all_slots (P := fun n => allowed && n == Level.toNat .searchSys), Bool.or_eq_true,
      hinv.levelsContains_isSome]
    refine and_congr ?_ (by simp [Level.toNat_injective.eq_iff])
    cases allowed <;> simp

/-- Latches 0 and 1 are of two transactions, 2 is `lock_sys->mutex`, 3 is that of the log. -/
def fourLatches : Config Nat where
  server := ⟨false, false⟩
  threadMax := 2
  level
    | 2 => .lockSys
    | 3 => .log
    | _ => .trx
  exempt _ := false
  varyingRwLock _ := false
  exempt_level _ h := by cases h

/-- A thread that owns `lock_sys->mutex` and a transaction, and has given back the log. -/
theorem queries_correct_threeLatches :
    ∃ s : Sys Unit Nat, exec (step fourLatches) init [.enter () 2, .acquire (), .enter () 0,
        .acquire (), .enter () 3, .acquire (), .exit () 3] = some s ∧
      levelsContains fourLatches s.arrays () .trx = some 0 ∧ s.owner 0 = some () ∧
      levelsContains fourLatches s.arrays () .log = none ∧
      ¬ ∃ l, s.owner l = some () ∧ fourLatches.tracked l ∧ fourLatches.level l = .log := by
  obtain ⟨s, hs, hres⟩ := exec_result (step fourLatches) (init : Sys Unit Nat)
    [.enter () 2, .acquire (), .enter () 0, .acquire (), .enter () 3, .acquire (), .exit () 3]
    (fun s => (levelsContains fourLatches s.arrays () .trx,
      levelsContains fourLatches s.arrays () .log)) (some 0, none) (by decide)
  simp only [Prod.mk.injEq] at hres
  obtain ⟨htrx, hlog⟩ := hres
  have hreach : Reach (step fourLatches) (· = init) (fun _ _ => True) s := .exec (.init rfl) hs
  refine ⟨s, hs, htrx, ((queries_correct hreach () .trx true).1 0 htrx).1, hlog, fun hl => ?_⟩
  have hsome := (queries_correct hreach () .log true).2.1.mpr hl
  rw [hlog] at hsome
  cases hsome

end Htmsql.SyncLevels
