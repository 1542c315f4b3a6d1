import Htmsql.Innodb.MutexCode
import Htmsql.OsEvent.Machine

/-!
# No signal is lost

The second lemma in the comment of `sync0sync.cc`: a call of `os_event_set` after `os_event_reset`
returned and before the thread starts to wait is not lost to it, whoever resets the event in the
meantime. In every state reached, and for every count that a reset has returned, the condition of
the loop says exactly whether the event has been set since that reset (`Sys.Inv.blocked_iff`). So
a thread with that count sleeps only while no set has come (`no_lost_signal`), and it returns
without a timeout only after one.

The mutex functions are modelled with an event that is nothing but a count of the sets. This is
that event: section by section its steps are the operations of that model (`step_simulates`).
-/

namespace Htmsql.OsEvent

open Run Innodb

variable {T : Type}

/-- The points at which a thread has the mutex. -/
def Pc.locked : Pc → Bool
  | set | reset | waitCount _ _ | waitTest _ _ | unlock _ => true
  | _ => false

/-- The invariant of the machine: the mutex is held by the thread in its section, and the count of
the event tells for every reset whether a set has come since. -/
structure Sys.Inv (s : Sys T) : Prop where
  mutex : ∀ t, (s.pc t).locked = true ↔ s.osMutex = some t
  /-- A thread sleeps only while the condition of its loop holds. -/
  asleep : ∀ t timed count, s.pc t = .asleep timed count →
    s.isSet = false ∧ s.signalCount = count
  positive : 0 < s.signalCount
  counted : ∀ e ∈ s.resets, 0 < e.1
  le : ∀ e ∈ s.resets, e.1 ≤ s.signalCount ∧ e.2 ≤ s.sets
  /-- The count has moved on exactly if the event was set. -/
  moved : ∀ e ∈ s.resets, e.1 < s.signalCount ↔ e.2 < s.sets
  set : s.isSet = true → ∀ e ∈ s.resets, e.1 < s.signalCount
  /-- A wait that is over, or was not timed out, has seen a set. -/
  returned : ∀ t count, s.pc t = .unlock (.waited count false) →
    ∀ e ∈ s.resets, e.1 = count → e.2 < s.sets

variable {s s' : Sys T} {t u : T} {p : Pc}

theorem inv_init : (init : Sys T).Inv := by
  refine ⟨fun t => ?_, ?_, Nat.one_pos, ?_, ?_, ?_, ?_, ?_⟩
  · simp [init, Pc.locked]
  all_goals simp [init]

/-- The condition of the loop, for a count that a reset has returned. -/
theorem Sys.Inv.blocked_iff (h : s.Inv) {e : Nat × Nat} (he : e ∈ s.resets) :
    (s.isSet = false ∧ s.signalCount = e.1) ↔ s.sets = e.2 := by
  have hle := h.le e he
  have hmoved := h.moved e he
  constructor
  · rintro ⟨-, hcount⟩
    omega
  · intro hsets
    refine ⟨?_, by omega⟩
    by_contra hset
    have hlt := h.set (by simpa using hset) e he
    omega

theorem Sys.Inv.owner_unique (h : s.Inv) (ht : (s.pc t).locked = true)
    (hu : (s.pc u).locked = true) : t = u :=
  Option.some.inj (((h.mutex t).mp ht).symm.trans ((h.mutex u).mp hu))

theorem Pc.locked_broadcast (p : Pc) : p.broadcast.locked = p.locked := by
  cases p <;> rfl

theorem Pc.broadcast_eq_unlock {r : Ret} (h : p.broadcast = .unlock r) : p = .unlock r := by
  cases p <;> first | exact h | cases h

theorem Pc.broadcast_ne_asleep (p : Pc) (timed : Bool) (count : Nat) :
    p.broadcast ≠ .asleep timed count := by
  cases p <;> simp [broadcast]

/-- A set keeps the invariant and is the end of all sleep. -/
theorem Sys.Inv.signal (h : s.Inv) : s.signal.Inv := by
  unfold Sys.signal
  split
  · rename_i hset
    refine ⟨h.mutex, h.asleep, h.positive, h.counted, fun e he => ?_, fun e he => ?_, h.set,
      fun t count ht e he hcount => ?_⟩
    · have hle := h.le e he
      simp only
      omega
    · have hlt := h.set hset e he
      have hle := h.le e he
      simp only
      omega
    · have hlt := h.returned t count ht e he hcount
      simp only
      omega
  · refine ⟨fun t => ?_, fun t timed count ht => ?_, Nat.succ_pos _, h.counted, fun e he => ?_,
      fun e he => ?_, fun _ e he => ?_, fun t count ht e he hcount => ?_⟩
    · rw [← h.mutex t]
      simp only [Pc.locked_broadcast]
    · exact (Pc.broadcast_ne_asleep _ _ _ ht).elim
    · have hle := h.le e he
      simp only
      omega
    · have hle := h.le e he
      simp only
      omega
    · have hle := h.le e he
      simp only
      omega
    · have hlt := h.returned t count (Pc.broadcast_eq_unlock ht) e he hcount
      simp only
      omega

/-- The count of a wait that is over is not the current one while the event is not set. -/
theorem Sys.Inv.clear (h : s.Inv) (hnone : ∀ t count, s.pc t ≠ .unlock (.waited count false)) :
    s.clear.Inv := by
  refine ⟨h.mutex, fun t timed count ht => ?_, h.positive, ?_, ?_, ?_, ?_, fun t count ht => ?_⟩
  · exact ⟨rfl, (h.asleep t timed count ht).2⟩
  · intro e he
    rcases List.mem_cons.mp he with rfl | he
    · exact h.positive
    · exact h.counted e he
  · intro e he
    rcases List.mem_cons.mp he with rfl | he
    · exact ⟨Nat.le_refl _, Nat.le_refl _⟩
    · exact h.le e he
  · intro e he
    rcases List.mem_cons.mp he with rfl | he
    · exact iff_of_false (Nat.lt_irrefl _) (Nat.lt_irrefl _)
    · exact h.moved e he
  · intro hset
    cases hset
  · exact (hnone t count ht).elim

theorem signal_pc (h : (s.pc t).locked = true) : s.signal.pc t = s.pc t := by
  unfold Sys.signal
  split
  · rfl
  · simp only
    cases hp : s.pc t <;> first | rfl | (rw [hp] at h; cases h)

variable [DecidableEq T]

theorem lock_eq (hs : s.lock t p = some s') :
    s.osMutex = none ∧ s' = ({ s with osMutex := some t } : Sys T).goto t p := by
  unfold Sys.lock at hs
  split at hs
  · rename_i hfree
    exact ⟨hfree, (Option.some.inj hs).symm⟩
  · cases hs

/-- A thread goes on to a point at which it has the mutex if and only if it had it before. -/
theorem Sys.Inv.goto (h : s.Inv) (hlocked : p.locked = (s.pc t).locked)
    (hasleep : ∀ timed count, p = .asleep timed count → s.isSet = false ∧ s.signalCount = count)
    (hret : ∀ count, p = .unlock (.waited count false) →
      ∀ e ∈ s.resets, e.1 = count → e.2 < s.sets) : (s.goto t p).Inv := by
  refine ⟨fun u => ?_, fun u timed count hu => ?_, h.positive, h.counted, h.le, h.moved,
    h.set, fun u count hu => ?_⟩
  · by_cases hut : u = t
    · subst hut
      rw [goto_pc_self, hlocked]
      exact h.mutex u
    · rw [goto_pc_of_ne hut]
      exact h.mutex u
  · by_cases hut : u = t
    · subst hut
      rw [goto_pc_self] at hu
      exact hasleep timed count hu
    · rw [goto_pc_of_ne hut] at hu
      exact h.asleep u timed count hu
  · by_cases hut : u = t
    · subst hut
      rw [goto_pc_self] at hu
      exact hret count hu
    · rw [goto_pc_of_ne hut] at hu
      exact h.returned u count hu

/-- The mutex is taken or given back by thread `t`. -/
theorem Sys.Inv.setMutex (h : s.Inv) {owner : Option T} (hlocked : p.locked = owner.isSome)
    (howner : ∀ u, owner = some u → u = t) (hfree : ∀ u, s.osMutex = some u → u = t)
    (hasleep : ∀ timed count, p = .asleep timed count → s.isSet = false ∧ s.signalCount = count)
    (hret : ∀ count, p = .unlock (.waited count false) →
      ∀ e ∈ s.resets, e.1 = count → e.2 < s.sets) :
    (({ s with osMutex := owner } : Sys T).goto t p).Inv := by
  refine ⟨fun u => ?_, fun u timed count hu => ?_, h.positive, h.counted, h.le, h.moved,
    h.set, fun u count hu => ?_⟩
  · by_cases hut : u = t
    · subst hut
      rw [goto_pc_self, hlocked, Option.isSome_iff_exists]
      refine ⟨fun ⟨v, hv⟩ => ?_, fun hu => ⟨u, hu⟩⟩
      rw [howner v hv] at hv
      exact hv
    · rw [goto_pc_of_ne hut]
      refine iff_of_false (fun hu => hut (hfree u ((h.mutex u).mp hu))) fun hu => hut (howner u hu)
  · by_cases hut : u = t
    · subst hut
      rw [goto_pc_self] at hu
      exact hasleep timed count hu
    · rw [goto_pc_of_ne hut] at hu
      exact h.asleep u timed count hu
  · by_cases hut : u = t
    · subst hut
      rw [goto_pc_self] at hu
      exact hret count hu
    · rw [goto_pc_of_ne hut] at hu
      exact h.returned u count hu

theorem Sys.Inv.lock (h : s.Inv) (hs : s.lock t p = some s') (hlocked : p.locked = true)
    (hret : ∀ count, p ≠ .unlock (.waited count false)) : s'.Inv := by
  obtain ⟨hfree, rfl⟩ := lock_eq hs
  refine h.setMutex hlocked ?_ ?_ ?_ fun count hp => (hret count hp).elim
  · rintro u ⟨⟩
    rfl
  · intro u hu
    rw [hfree] at hu
    cases hu
  · rintro timed count rfl
    cases hlocked

theorem Sys.Inv.run (h : s.Inv) (hs : s.run t = some s') : s'.Inv := by
  have howner : (s.pc t).locked = true → ∀ u, s.osMutex = some u → u = t := by
    intro hlocked u hu
    exact h.owner_unique ((h.mutex u).mpr hu) hlocked
  unfold Sys.run at hs
  cases hp : s.pc t <;> rw [hp] at hs howner <;> simp only at hs
  case idle | asleep timed count => cases hs
  case setLock | resetLock | waitLock timed count => exact h.lock hs rfl (by simp)
  case set =>
    obtain rfl := Option.some.inj hs
    have hlocked : (s.pc t).locked = true := by
      rw [hp]
      rfl
    refine h.signal.goto ?_ (by simp) (by simp)
    rw [signal_pc hlocked, hp]
    rfl
  case reset =>
    obtain rfl := Option.some.inj hs
    have hlocked : (s.pc t).locked = true := by
      rw [hp]
      rfl
    refine (h.clear fun u count hu => ?_).goto ?_ (by simp) (by simp)
    · have hut := h.owner_unique (t := u) (u := t) (by rw [hu]; rfl) hlocked
      rw [hut, hp] at hu
      cases hu
    · change _ = (s.pc t).locked
      rw [hp]
      rfl
  case waitCount timed count =>
    obtain rfl := Option.some.inj hs
    exact h.goto (by rw [hp]; rfl) (by simp) (by simp)
  case waitTest timed count =>
    split at hs
    · rename_i hblocked
      obtain rfl := Option.some.inj hs
      refine h.setMutex rfl (by simp) (howner rfl) (fun timed' count' heq => ?_) (by simp)
      cases heq
      exact hblocked
    · rename_i hblocked
      obtain rfl := Option.some.inj hs
      refine h.goto (by rw [hp]; rfl) (by simp) fun count' heq e he hcount => ?_
      cases heq
      have hiff := h.blocked_iff he
      have hle := (h.le e he).2
      rw [hcount] at hiff
      have hne : s.sets ≠ e.2 := fun hsets => hblocked (hiff.mpr hsets)
      omega
  case awake timed count timedOut =>
    cases timedOut
    · exact h.lock hs rfl (by simp)
    · exact h.lock hs rfl (by simp)
  case unlock r =>
    obtain rfl := Option.some.inj hs
    exact h.setMutex rfl (by simp) (howner rfl) (by simp) (by simp)

theorem Sys.Inv.wake (h : s.Inv) {timedOut : Bool} (hs : s.wake t timedOut = some s') :
    s'.Inv := by
  unfold Sys.wake at hs
  split at hs
  · rename_i timed count hp
    split at hs
    · obtain rfl := Option.some.inj hs
      exact h.goto (by rw [hp]; rfl) (by simp) (by simp)
    · cases hs
  · cases hs

theorem Sys.Inv.step {a : Act T} (h : s.Inv) (hs : step s a = some s') : s'.Inv := by
  cases a with
  | call t c =>
    simp only [OsEvent.step] at hs
    split at hs
    · rename_i hidle
      obtain rfl := Option.some.inj hs
      refine h.goto ?_ ?_ ?_
      · rw [hidle]
        cases c <;> rfl
      all_goals cases c <;> simp [Call.entry]
    · cases hs
  | run t => exact h.run hs
  | spurious t => exact h.wake hs
  | timeout t => exact h.wake hs

theorem reach_inv (h : Reach step (· = init) (fun _ _ => True) s) : s.Inv := by
  refine h.invariant (I := Sys.Inv) ?_ fun s a s' hs _ hstep => hs.step hstep
  rintro _ rfl
  exact inv_init

/-! ## A signalled thread returns -/

/-- The count that a thread in one of the wait functions waits for. -/
def Pc.waits : Pc → Option Nat
  | waitLock _ count | waitCount _ count | waitTest _ count | asleep _ count
  | awake _ count _ => some count
  | _ => none

/-- The thread, running alone, gets to the end of its function. -/
def Returns (s : Sys T) (t : T) (n : Nat) : Prop :=
  ∃ m ≤ n, ∃ s', exec step s (List.replicate m (.run t)) = some s' ∧ s'.pc t = .idle

theorem Returns.run (hs : s.run t = some s') {n : Nat} (h : Returns s' t n) :
    Returns s t (n + 1) := by
  obtain ⟨m, hm, s'', hexec, hidle⟩ := h
  refine ⟨m + 1, by omega, s'', ?_, hidle⟩
  rw [List.replicate_succ, exec]
  change (s.run t).bind _ = _
  rw [hs]
  exact hexec

theorem returns_unlock {r : Ret} (hp : s.pc t = .unlock r) : Returns s t 1 := by
  refine ⟨1, Nat.le_refl _, ({ s with osMutex := none } : Sys T).goto t .idle, ?_,
    goto_pc_self _ _ _⟩
  simp [exec, step, Sys.run, hp]

theorem returns_waitTest {timed : Bool} {count : Nat} (hp : s.pc t = .waitTest timed count)
    (hopen : ¬ (s.isSet = false ∧ s.signalCount = count)) : Returns s t 2 := by
  have hrun : s.run t = some (s.goto t (.unlock (.waited count false))) := by
    simp [Sys.run, hp, hopen]
  exact Returns.run hrun (returns_unlock (goto_pc_self _ _ _))

theorem returns_waitCount {timed : Bool} {count : Nat} (hp : s.pc t = .waitCount timed count)
    (hcount : count ≠ 0) (hopen : ¬ (s.isSet = false ∧ s.signalCount = count)) :
    Returns s t 3 := by
  have hrun : s.run t = some (s.goto t (.waitTest timed count)) := by
    simp [Sys.run, hp, hcount]
  exact Returns.run hrun (returns_waitTest (goto_pc_self _ _ _) hopen)

/-- With the mutex free, or its own. -/
theorem returns_waits {count : Nat} (hw : (s.pc t).waits = some count)
    (hfree : s.osMutex = none ∨ (s.pc t).locked = true) (hcount : count ≠ 0)
    (hopen : ¬ (s.isSet = false ∧ s.signalCount = count))
    (hawake : ∀ timed, s.pc t ≠ .asleep timed count) : Returns s t 4 := by
  have hmono : ∀ {n}, n ≤ 4 → Returns s t n → Returns s t 4 := by
    rintro n hn ⟨m, hm, hrest⟩
    exact ⟨m, by omega, hrest⟩
  cases hp : s.pc t <;> rw [hp] at hw hfree <;>
    simp only [Pc.waits, Option.some.injEq, reduceCtorEq] at hw <;> subst hw
  case waitLock timed count =>
    have hnone := hfree.resolve_right (by simp [Pc.locked])
    have hrun : s.run t =
        some (({ s with osMutex := some t } : Sys T).goto t (.waitCount timed count)) := by
      simp [Sys.run, hp, Sys.lock, hnone]
    exact Returns.run hrun (returns_waitCount (goto_pc_self _ _ _) hcount hopen)
  case waitCount timed count => exact hmono (by omega) (returns_waitCount hp hcount hopen)
  case waitTest timed count => exact hmono (by omega) (returns_waitTest hp hopen)
  case asleep timed count => exact (hawake timed hp).elim
  case awake timed count timedOut =>
    have hnone := hfree.resolve_right (by simp [Pc.locked])
    cases timedOut with
    | false =>
      have hrun : s.run t =
          some (({ s with osMutex := some t } : Sys T).goto t (.waitTest timed count)) := by
        simp [Sys.run, hp, Sys.lock, hnone]
      exact hmono (by omega) (Returns.run hrun (returns_waitTest (goto_pc_self _ _ _) hopen))
    | true =>
      have hrun : s.run t =
          some (({ s with osMutex := some t } : Sys T).goto t (.unlock (.waited count true))) := by
        simp [Sys.run, hp, Sys.lock, hnone]
      exact hmono (by omega) (Returns.run hrun (returns_unlock (goto_pc_self _ _ _)))

/-- The thread that has the mutex, running alone, gives it back. -/
def Releases (s : Sys T) (u : T) (n : Nat) : Prop :=
  ∃ m ≤ n, ∃ s', exec step s (List.replicate m (.run u)) = some s' ∧ s'.osMutex = none

theorem Releases.run (hs : s.run u = some s') {n : Nat} (h : Releases s' u n) :
    Releases s u (n + 1) := by
  obtain ⟨m, hm, s'', hexec, hfree⟩ := h
  refine ⟨m + 1, by omega, s'', ?_, hfree⟩
  rw [List.replicate_succ, exec]
  change (s.run u).bind _ = _
  rw [hs]
  exact hexec

theorem releases_unlock {r : Ret} (hp : s.pc u = .unlock r) : Releases s u 1 := by
  refine ⟨1, Nat.le_refl _, ({ s with osMutex := none } : Sys T).goto u .idle, ?_, rfl⟩
  simp [exec, step, Sys.run, hp]

theorem releases_waitTest {timed : Bool} {count : Nat} (hp : s.pc u = .waitTest timed count) :
    Releases s u 2 := by
  by_cases hblocked : s.isSet = false ∧ s.signalCount = count
  · refine ⟨1, by omega, ({ s with osMutex := none } : Sys T).goto u (.asleep timed count), ?_, rfl⟩
    simp [exec, step, Sys.run, hp, hblocked]
  · have hrun : s.run u = some (s.goto u (.unlock (.waited count false))) := by
      simp [Sys.run, hp, hblocked]
    exact Releases.run hrun (releases_unlock (goto_pc_self _ _ _))

theorem releases_locked (hu : (s.pc u).locked = true) : Releases s u 3 := by
  have hmono : ∀ {n}, n ≤ 3 → Releases s u n → Releases s u 3 := by
    rintro n hn ⟨m, hm, hrest⟩
    exact ⟨m, by omega, hrest⟩
  cases hp : s.pc u <;> rw [hp] at hu <;> simp only [Pc.locked, Bool.false_eq_true] at hu
  case set =>
    have hrun : s.run u = some (s.signal.goto u (.unlock .unit)) := by simp [Sys.run, hp]
    exact hmono (by omega) (Releases.run hrun (releases_unlock (goto_pc_self _ _ _)))
  case reset =>
    have hrun : s.run u = some (s.clear.goto u (.unlock (.count s.signalCount))) := by
      simp [Sys.run, hp]
    exact hmono (by omega) (Releases.run hrun (releases_unlock (goto_pc_self _ _ _)))
  case waitCount timed count =>
    have hrun : s.run u =
        some (s.goto u (.waitTest timed (if count = 0 then s.signalCount else count))) := by
      simp [Sys.run, hp]
    exact Releases.run hrun (releases_waitTest (goto_pc_self _ _ _))
  case waitTest timed count => exact hmono (by omega) (releases_waitTest hp)
  case unlock r => exact hmono (by omega) (releases_unlock hp)

/-! ## The section of another thread -/

theorem Pc.waits_broadcast (p : Pc) : p.broadcast.waits = p.waits := by
  cases p <;> rfl

/-- A wait that is owed its end: the event was set after the count had been returned. -/
structure Owed (s : Sys T) (t : T) (count : Nat) : Prop where
  inv : s.Inv
  waits : (s.pc t).waits = some count
  signalled : ∃ e ∈ s.resets, e.1 = count ∧ e.2 < s.sets

omit [DecidableEq T] in
/-- Its condition is over, and it does not sleep. -/
theorem Owed.open {count : Nat} (h : Owed s t count) :
    ¬ (s.isSet = false ∧ s.signalCount = count) := by
  obtain ⟨e, he, rfl, hlt⟩ := h.signalled
  rw [h.inv.blocked_iff he]
  omega

omit [DecidableEq T] in
theorem Owed.ne_asleep {count : Nat} (h : Owed s t count) (timed : Bool) :
    s.pc t ≠ .asleep timed count :=
  fun ht => h.open (h.inv.asleep t timed count ht)

omit [DecidableEq T] in
theorem Owed.count_ne_zero {count : Nat} (h : Owed s t count) : count ≠ 0 := by
  obtain ⟨e, he, rfl, -⟩ := h.signalled
  have hpos := h.inv.counted e he
  omega

/-- What a step of a thread leaves of the rest of the state. -/
theorem run_frame (hs : s.run u = some s') :
    (∀ t ≠ u, s'.pc t = s.pc t ∨ s'.pc t = (s.pc t).broadcast) ∧ s.sets ≤ s'.sets ∧
      ∀ e ∈ s.resets, e ∈ s'.resets := by
  have hlock : ∀ p, s.lock u p = some s' →
      (∀ t ≠ u, s'.pc t = s.pc t ∨ s'.pc t = (s.pc t).broadcast) ∧ s.sets ≤ s'.sets ∧
        ∀ e ∈ s.resets, e ∈ s'.resets := by
    intro p hp
    obtain ⟨-, rfl⟩ := lock_eq hp
    exact ⟨fun t ht => Or.inl (goto_pc_of_ne ht), Nat.le_refl _, fun e he => he⟩
  unfold Sys.run at hs
  cases hp : s.pc u <;> rw [hp] at hs <;> simp only at hs
  case idle | asleep timed count => cases hs
  case setLock | resetLock | waitLock timed count | awake timed count timedOut =>
    exact hlock _ hs
  case set =>
    obtain rfl := Option.some.inj hs
    unfold Sys.signal
    split
    · exact ⟨fun t ht => Or.inl (goto_pc_of_ne ht), Nat.le_succ _, fun e he => he⟩
    · exact ⟨fun t ht => Or.inr (goto_pc_of_ne ht), Nat.le_succ _, fun e he => he⟩
  case reset =>
    obtain rfl := Option.some.inj hs
    exact ⟨fun t ht => Or.inl (goto_pc_of_ne ht), Nat.le_refl _,
      fun e he => List.mem_cons_of_mem _ he⟩
  case waitCount timed count | unlock r =>
    obtain rfl := Option.some.inj hs
    exact ⟨fun t ht => Or.inl (goto_pc_of_ne ht), Nat.le_refl _, fun e he => he⟩
  case waitTest timed count =>
    split at hs
    all_goals
      obtain rfl := Option.some.inj hs
      exact ⟨fun t ht => Or.inl (goto_pc_of_ne ht), Nat.le_refl _, fun e he => he⟩

theorem Owed.run_other {count : Nat} (h : Owed s t count) (htu : t ≠ u)
    (hs : s.run u = some s') : Owed s' t count := by
  obtain ⟨hpc, hsets, hresets⟩ := run_frame hs
  obtain ⟨e, he, hcount, hlt⟩ := h.signalled
  refine ⟨h.inv.run hs, ?_, e, hresets e he, hcount, by omega⟩
  rcases hpc t htu with hsame | hwoken
  · rw [hsame]
    exact h.waits
  · rw [hwoken, Pc.waits_broadcast]
    exact h.waits

theorem Owed.exec_other {count n : Nat} (htu : t ≠ u) (h : Owed s t count)
    (hs : exec step s (List.replicate n (.run u)) = some s') : Owed s' t count := by
  induction n generalizing s with
  | zero =>
    obtain rfl := Option.some.inj hs
    exact h
  | succ n ih =>
    rw [List.replicate_succ, exec] at hs
    obtain ⟨s₁, hs₁, hrest⟩ := Option.bind_eq_some_iff.mp hs
    exact ih (h.run_other htu hs₁) hrest

theorem Owed.returns {count : Nat} (h : Owed s t count)
    (hfree : s.osMutex = none ∨ (s.pc t).locked = true) : Returns s t 4 :=
  returns_waits h.waits hfree h.count_ne_zero h.open h.ne_asleep

/-! ## The event as a count of the sets -/

/-- In every state reached and for every count that `os_event_reset` has returned: a thread sleeps
with it only while no set has come since; a wait for it that is not timed out ends only after a
set; and once a set has come, a thread that waits for it gets to the end of its function as soon
as the thread with the mutex has finished its section, in at most four steps of its own. -/
theorem no_lost_signal (h : Reach step (· = init) (fun _ _ => True) s) {count sets : Nat}
    (he : (count, sets) ∈ s.resets) (t : T) :
    (∀ timed, s.pc t = .asleep timed count → s.sets = sets) ∧
      (s.pc t = .unlock (.waited count false) → sets < s.sets) ∧
      ((s.pc t).waits = some count → sets < s.sets →
        ∃ u, ∃ n ≤ 3, ∃ m ≤ 4, ∃ s', s'.pc t = .idle ∧
          exec step s (List.replicate n (.run u) ++ List.replicate m (.run t)) = some s') := by
  have hinv := reach_inv h
  refine ⟨fun timed ht => ?_, fun ht => ?_, fun hwaits hset => ?_⟩
  · exact (hinv.blocked_iff he).mp (hinv.asleep t timed count ht)
  · exact hinv.returned t count ht (count, sets) he rfl
  · have howed : Owed s t count := ⟨hinv, hwaits, (count, sets), he, rfl, hset⟩
    -- the section that has to end first, if it is not the thread's own
    have hsection : ∃ u, ∃ n ≤ 3, ∃ s₁, exec step s (List.replicate n (.run u)) = some s₁ ∧
        Owed s₁ t count ∧ (s₁.osMutex = none ∨ (s₁.pc t).locked = true) := by
      cases howner : s.osMutex with
      | none => exact ⟨t, 0, by omega, s, rfl, howed, Or.inl howner⟩
      | some u =>
        have hlocked := (hinv.mutex u).mpr howner
        by_cases htu : t = u
        · exact ⟨t, 0, by omega, s, rfl, howed, Or.inr (htu ▸ hlocked)⟩
        · obtain ⟨n, hn, s₁, hexec, hfree⟩ := releases_locked hlocked
          exact ⟨u, n, hn, s₁, hexec, howed.exec_other htu hexec, Or.inl hfree⟩
    obtain ⟨u, n, hn, s₁, hexec, howed₁, hfree⟩ := hsection
    obtain ⟨m, hm, s₂, hexec₂, hidle⟩ := howed₁.returns hfree
    refine ⟨u, n, hn, m, hm, s₂, hidle, ?_⟩
    rw [exec_append, hexec]
    exact hexec₂

/-- Thread 0 resets the event and asks to wait; thread 1 sets and resets it before the wait. -/
theorem no_lost_signal_resetAgain :
    ∃ s : Sys (Fin 2), (1, 0) ∈ s.resets ∧ (s.pc 0).waits = some 1 ∧ s.isSet = false ∧
      ∃ u, ∃ n ≤ 3, ∃ m ≤ 4, ∃ s', s'.pc 0 = .idle ∧
        exec step s (List.replicate n (.run u) ++ List.replicate m (.run 0)) = some s' := by
  obtain ⟨s, hexec, hs⟩ := exec_result step (init : Sys (Fin 2))
    [.call 0 .reset, .run 0, .run 0, .run 0, .call 1 .set, .run 1, .run 1, .run 1,
      .call 1 .reset, .run 1, .run 1, .run 1, .call 0 (.wait false 1)]
    (fun s => (s.resets, s.sets, s.isSet, (s.pc 0).waits))
    ([(2, 1), (1, 0)], 1, false, some 1) rfl
  simp only [Prod.mk.injEq] at hs
  obtain ⟨hresets, hsets, hset, hwaits⟩ := hs
  have hmem : (1, 0) ∈ s.resets := by
    rw [hresets]
    simp
  refine ⟨s, hmem, hwaits, hset, ?_⟩
  have hinit : Reach step (· = init) (fun _ _ => True) (init : Sys (Fin 2)) := .init rfl
  have hreach := hinit.exec hexec
  exact (no_lost_signal hreach hmem 0).2.2 hwaits (by rw [hsets]; exact Nat.one_pos)

theorem Sys.Inv.waitTest_iff (h : s.Inv) (hs : s.run t = some s') {timed : Bool} {e : Nat × Nat}
    (he : e ∈ s.resets) (hp : s.pc t = .waitTest timed e.1) :
    s'.pc t = .asleep timed e.1 ↔ s.sets = e.2 := by
  rw [← h.blocked_iff he]
  simp only [Sys.run, hp] at hs
  split at hs
  all_goals
    rename_i hcond
    obtain rfl := Option.some.inj hs
    simp [hcond]

/-- Only the section of `os_event_set` counts as a set. -/
theorem run_sets (hs : s.run t = some s') (hp : s.pc t ≠ .set) : s'.sets = s.sets := by
  unfold Sys.run at hs
  cases hpc : s.pc t <;> rw [hpc] at hs hp <;> simp only at hs
  case idle | asleep timed count => cases hs
  case setLock | resetLock | waitLock timed count | awake timed count timedOut =>
    obtain ⟨-, rfl⟩ := lock_eq hs
    rfl
  case set => exact (hp rfl).elim
  case reset | waitCount timed count | unlock r =>
    obtain rfl := Option.some.inj hs
    rfl
  case waitTest timed count =>
    split at hs
    all_goals
      obtain rfl := Option.some.inj hs
      rfl

/-- In every state reached, each section of the event is an operation of the event of the mutex
functions, whose signal count is the number of sets; nothing else changes that number. -/
theorem run_refines_count (h : Reach step (· = init) (fun _ _ => True) s)
    (hs : s.run t = some s') {m : IbMutex} (hm : m.signalCount = s.sets) (p : MutexPc)
    (k : Nat → MutexPc) :
    (s.pc t = .set → m.exec (.eventSet p) = some ({ m with signalCount := s'.sets }, p)) ∧
      (s.pc t = .reset → ∃ count sets, s'.pc t = .unlock (.count count) ∧
        (count, sets) ∈ s'.resets ∧ m.exec (.reserveCell k) = some (m, k sets)) ∧
      (∀ timed e, s.pc t = .waitTest timed e.1 → e ∈ s.resets →
        (s'.pc t = .asleep timed e.1 ↔ m.exec (.waitEvent e.2 p) = none)) ∧
      (s.pc t ≠ .set → s'.sets = s.sets) := by
  refine ⟨fun hp => ?_, fun hp => ?_, fun timed e hp he => ?_, run_sets hs⟩
  · simp only [Sys.run, hp, Option.some.injEq] at hs
    subst hs
    have hsets : s.signal.sets = s.sets + 1 := by
      unfold Sys.signal
      split <;> rfl
    change _ = some ({ m with signalCount := s.signal.sets }, p)
    rw [hsets, ← hm]
    rfl
  · simp only [Sys.run, hp, Option.some.injEq] at hs
    subst hs
    refine ⟨s.signalCount, s.sets, goto_pc_self _ _ _, List.mem_cons_self, ?_⟩
    rw [← hm]
    rfl
  · have hexec : m.exec (.waitEvent e.2 p) = none ↔ s.sets = e.2 := by
      simp [IbMutex.exec, hm]
    rw [hexec]
    exact (reach_inv h).waitTest_iff hs he hp

/-- Thread 0 asks to wait with the count of its reset, and no set has come: both events block. -/
theorem run_refines_count_blocks :
    ∃ (s s' : Sys (Fin 2)) (m : IbMutex), s.run 0 = some s' ∧ m.signalCount = s.sets ∧
      s'.pc 0 = .asleep false 1 ∧ m.exec (.waitEvent 0 MutexPc.done) = none := by
  obtain ⟨s, hexec, hs⟩ := exec_result step (init : Sys (Fin 2))
    [.call 0 .reset, .run 0, .run 0, .run 0, .call 0 (.wait false 1), .run 0, .run 0]
    (fun s => (s.resets, s.sets, s.pc 0, (s.run 0).map fun s' => s'.pc 0))
    ([(1, 0)], 0, .waitTest false 1, some (.asleep false 1)) rfl
  simp only [Prod.mk.injEq, Option.map_eq_some_iff] at hs
  obtain ⟨hresets, hsets, hpc, s', hrun, hasleep⟩ := hs
  have hmem : (1, 0) ∈ s.resets := by
    rw [hresets]
    simp
  have hinit : Reach step (· = init) (fun _ _ => True) (init : Sys (Fin 2)) := .init rfl
  have hrefines := run_refines_count (hinit.exec hexec) hrun (m := ⟨1, 1, s.sets⟩) rfl
    MutexPc.done (fun _ => MutexPc.done)
  refine ⟨s, s', ⟨1, 1, s.sets⟩, hrun, rfl, hasleep, ?_⟩
  exact (hrefines.2.2.1 false (1, 0) hpc hmem).mp hasleep

end Htmsql.OsEvent
