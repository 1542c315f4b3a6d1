import Htmsql.TrxLock.Machine

/-!
# Both protocols exclude each other

Without `UNIV_DEBUG` a thread that enters by the second protocol is, to the others, one that enters
without waiting, and the release of either protocol is the same store: every state is one of the
mutex with atomic operations (`step_atomic`). So the two protocols exclude each other, a mutex that
passes the checks of `mutex_free_func` has no holder, and no waiter of the first protocol is
forgotten by an exit of the second.

This is about operations under sequential consistency and exchanges that are not elided. On x86 a
waiter may be forgotten by an exit of the second protocol: its store of `lock_word` may be buffered
while it reads `waiters`.

With `UNIV_DEBUG` the second protocol does not work at all: `hle_mutex_enter_func` does not write
`thread_id`, and `hle_mutex_exit_func` begins with `ut_ad(mutex_own(mutex))`. A thread in a section
of that protocol stops there and has the mutex for ever, unless its id was in the memory when the
mutex was created, as `mutex_create_func` does not write `thread_id` either.
-/

namespace Htmsql.TrxLock

open Innodb Run

variable {T : Type}

/-! ## Without assertions -/

/-- The point of the first protocol at which the thread is to the others. -/
def Pc.atomic : Pc → MutexPc
  | code p => p
  | hleOwner => .owner
  | hleDisown => .disown
  | hleReset => .reset
  | nowait | refused | hleEnter | hleSpin | failed _ => .done

/-- The atomic mutex that a state stands for. -/
def Sys.atomic (s : Sys T) : Atomic T := ⟨s.mutex.ib, fun t => (s.pc t).atomic⟩

theorem atomic_of_outside {p : Pc} (h : p.outside = true) : p.atomic = .done := by
  cases p
  case code p => cases p <;> first | rfl | cases h
  case refused => rfl
  all_goals cases h

theorem atomic_of_inside {p : Pc} (h : p.inside = true) : p.atomic = .owner := by
  cases p
  case code p => cases p <;> first | rfl | cases h
  case hleOwner => rfl
  all_goals cases h

theorem entry_cases {debug : Bool} {c : Call} {p q : Pc} (h : c.entry debug p = some q) :
    p.outside = true ∧ (q = .code .enter ∨ q = .nowait ∨ q = .hleEnter) ∨
      p.inside = true ∧ (q = .code (.exit debug) ∨
        q = if debug = true then .hleDisown else .hleReset) := by
  cases c <;> simp only [Call.entry] at h <;> split at h <;> simp_all

variable [DecidableEq T] {rounds : Nat} {s s' : Sys T} {t u : T}

theorem atomic_goto (s : Sys T) (t : T) (q : Pc) :
    (s.goto t q).atomic = s.atomic.goto t q.atomic := by
  have hpc : (fun u => (Function.update s.pc t q u).atomic) =
      Function.update (fun u => (s.pc u).atomic) t q.atomic := by
    funext u
    by_cases hu : u = t
    · subst hu
      simp
    · simp [Function.update_of_ne hu]
  exact congrArg (Atomic.mk s.mutex.ib) hpc

theorem atomic_goto_self {q : Pc} (h : q.atomic = (s.pc t).atomic) :
    (s.goto t q).atomic = s.atomic := by
  rw [atomic_goto, Atomic.goto, h]
  have hsame : Function.update s.atomic.pc t (s.pc t).atomic = s.atomic.pc :=
    Function.update_eq_self t s.atomic.pc
  rw [hsame]

/-- A test-and-set by a thread outside of the mutex that goes on in a section if it succeeds, and
outside if it does not. -/
theorem take_atomic (hbin : s.mutex.ib.lockWord = 0 ∨ s.mutex.ib.lockWord = 1)
    (hp : (s.pc t).atomic = .done) {q q' : Pc} (hq : q.atomic = .owner) (hq' : q'.atomic = .done)
    (hs : s' = ({ s with mutex := { s.mutex with ib := { s.mutex.ib with lockWord := 1 } } }).goto t
      (if s.mutex.ib.lockWord = 0 then q else q')) :
    s'.atomic = s.atomic ∨ ∃ b, Atomic.step false rounds s.atomic b = some s'.atomic := by
  subst hs
  rcases hbin with hzero | hone
  · refine Or.inr ⟨.enterNowait t, ?_⟩
    have hcond : s.atomic.pc t = .done ∧ s.atomic.ib.lockWord = 0 := ⟨hp, hzero⟩
    rw [if_pos hzero, atomic_goto, hq]
    exact if_pos hcond
  · have hib : ({ s.mutex.ib with lockWord := 1 } : IbMutex) = s.mutex.ib := by
      rw [← hone]
    refine Or.inl ?_
    rw [if_neg (by omega), hib]
    exact atomic_goto_self (hq'.trans hp.symm)

/-- Without assertions every step is a step of the atomic mutex, or not seen there. -/
theorem step_atomic {a : Act T} (hbin : s.mutex.ib.lockWord = 0 ∨ s.mutex.ib.lockWord = 1)
    (hs : step false rounds s a = some s') :
    s'.atomic = s.atomic ∨ ∃ b, Atomic.step false rounds s.atomic b = some s'.atomic := by
  cases a with
  | call t c =>
    obtain ⟨q, hq, rfl⟩ := Option.map_eq_some_iff.mp hs
    rw [if_neg (by simp)]
    rcases entry_cases hq with ⟨hout, rfl | rfl | rfl⟩ | ⟨hin, hq⟩
    · refine Or.inr ⟨.enter t, ?_⟩
      rw [atomic_goto]
      exact if_pos (atomic_of_outside hout)
    · exact Or.inl (atomic_goto_self (atomic_of_outside hout).symm)
    · exact Or.inl (atomic_goto_self (atomic_of_outside hout).symm)
    · refine Or.inr ⟨.exit t, ?_⟩
      have hreset : q.atomic = .reset := by rcases hq with rfl | rfl <;> rfl
      rw [atomic_goto, hreset]
      exact if_pos (atomic_of_inside hin)
  | run t =>
    obtain ⟨⟨m, q⟩, hop, rfl⟩ := Option.map_eq_some_iff.mp hs
    cases hp : s.pc t <;> rw [hp] at hop
    case code p =>
      simp only [operation, Option.bind_eq_some_iff, Option.map_eq_some_iff, Prod.mk.injEq] at hop
      obtain ⟨i, hi, ⟨m', p'⟩, he, rfl, rfl⟩ := hop
      have hpc : s.atomic.pc t = p := by
        change (s.pc t).atomic = p
        rw [hp]
        rfl
      refine Or.inr ⟨.run t, ?_⟩
      rw [Atomic.step_run (by rw [hpc]; exact hi) (DebugMutex.exec_ib he), atomic_goto]
      rfl
    all_goals simp only [operation, Option.some.injEq, Prod.mk.injEq, reduceCtorEq] at hop
    all_goals obtain ⟨rfl, rfl⟩ := hop
    case nowait => exact take_atomic hbin (by rw [hp]; rfl) rfl rfl rfl
    case hleEnter => exact take_atomic hbin (by rw [hp]; rfl) rfl rfl rfl
    case hleSpin =>
      refine Or.inl (atomic_goto_self ?_)
      rw [hp]
      split <;> rfl
    case hleDisown | hleReset =>
      refine Or.inr ⟨.run t, ?_⟩
      rw [Atomic.step_run (by change code _ _ (s.pc t).atomic = _; rw [hp]; rfl) rfl, atomic_goto]
      rfl

theorem reach_atomic {threadId : Option T}
    (h : Reach (step false rounds) (· = init threadId) (fun _ _ => True) s) :
    Reach (Atomic.step false rounds) (· = Atomic.init) (fun _ _ => True) s.atomic := by
  refine h.invariant (I := fun s =>
    Reach (Atomic.step false rounds) (· = Atomic.init) (fun _ _ => True) s.atomic) ?_ ?_
  · rintro _ rfl
    exact .init rfl
  · rintro s a s' hr - hstep
    rcases step_atomic (Atomic.reach_inv hr).held.binary hstep with heq | ⟨b, hb⟩
    · rw [heq]
      exact hr
    · exact hr.step trivial hb

/-- The thread has reset `lock_word` and has still to read `waiters` or to signal. -/
def Pc.obliged : Pc → Prop
  | .code .released | .code .clear | .code .signal => True
  | _ => False

theorem obliged_of_role {signals : Nat} {q : Pc} (h : (q.atomic.role signals).obliged) :
    q.obliged := by
  have hpoints := MutexPc.of_obliged h
  cases q with
  | code p => rcases hpoints with rfl | rfl | rfl <;> trivial
  | nowait | refused | hleEnter | hleSpin | hleOwner | hleDisown | hleReset | failed p =>
    rcases hpoints with h | h | h <;> cases h

/-- In every state that any mixture of the two protocols reaches: at most one thread is in a
section, and none while `lock_word` is 0, so that the checks of `mutex_free_func` pass for a mutex
without a holder only; and a thread that sleeps unsignalled while `lock_word` is 0 is owed a signal
by a thread that has just left, by whichever protocol. -/
theorem trxLock_safe {threadId : Option T}
    (h : Reach (step false rounds) (· = init threadId) (fun _ _ => True) s) :
    (∀ t u, (s.pc t).inside = true → (s.pc u).inside = true → t = u) ∧
      (s.mutex.ib.lockWord = 0 → ∀ t, (s.pc t).inside = false) ∧
      ∀ t, s.pc t = .code (.wait s.mutex.ib.signalCount) → s.mutex.ib.lockWord = 0 →
        ∃ u, (s.pc u).obliged := by
  have hinv := Atomic.reach_inv (reach_atomic h)
  have hholds : ∀ t, (s.pc t).inside = true → (s.atomic.pc t).holds = true := by
    intro t ht
    change (s.pc t).atomic.holds = true
    rw [atomic_of_inside ht]
    rfl
  refine ⟨fun t u ht hu => hinv.held.unique t u (hholds t ht) (hholds u hu), fun hzero t => ?_,
    fun t ht hzero => ?_⟩
  · by_contra hin
    have hnone := hinv.held.free_iff.mp hzero t
    rw [hholds t (by simpa using hin)] at hnone
    cases hnone
  · have hsuspended : (view s.atomic.ib s.atomic.pc).role t = .suspended := by
      change (s.pc t).atomic.role s.mutex.ib.signalCount = _
      rw [ht]
      exact if_pos rfl
    have hlocked : (view s.atomic.ib s.atomic.pc).locked = false := by
      simp [view, Sys.atomic, hzero]
    obtain ⟨u, hu⟩ := hinv.safe.not_stuck hsuspended hlocked
    exact ⟨u, obliged_of_role hu⟩

/-- Thread `true` goes to sleep by the first protocol while thread `false` is in a section of the
second, which then ends. -/
theorem trxLock_safe_waiter :
    ∃ s : Sys Bool, s.pc true = .code (.wait s.mutex.ib.signalCount) ∧ s.mutex.ib.lockWord = 0 ∧
      ∃ u, (s.pc u).obliged := by
  obtain ⟨s, hs, hres⟩ := exec_result (step false 1) (init none : Sys Bool)
    ([.call false .hleEnter, .run false, .call true .enter] ++ List.replicate 10 (.run true) ++
      [.call false .hleExit, .run false])
    (fun s => (s.pc true, s.mutex.ib.signalCount, s.mutex.ib.lockWord)) (.code (.wait 1), 1, 0)
    (by decide)
  simp only [Prod.mk.injEq] at hres
  obtain ⟨hwait, hcount, hzero⟩ := hres
  rw [← hcount] at hwait
  have hinit : Reach (step false 1) (· = init none) (fun _ _ => True) (init none : Sys Bool) :=
    .init rfl
  exact ⟨s, hwait, hzero, (trxLock_safe (hinit.exec hs)).2.2 true hwait hzero⟩

/-! ## With `UNIV_DEBUG` -/

/-- The points at which the thread has set the lock word and not reset it. -/
def Pc.holds : Pc → Bool
  | code p => p.holds
  | hleOwner | hleDisown | hleReset => true
  | failed p => p.holds
  | _ => false

/-- The points at which `thread_id` may be the thread's own. -/
def Pc.ownsId : Pc → Bool
  | code p => p.ownsId
  | hleDisown => true
  | failed p => p.ownsId
  | _ => false

theorem Pc.of_outside {p : Pc} (h : p.outside = true) : p.holds = false ∧ p.ownsId = false := by
  cases p
  case code p => cases p <;> first | exact ⟨rfl, rfl⟩ | cases h
  case refused => exact ⟨rfl, rfl⟩
  all_goals cases h

theorem Pc.holds_of_inside {p : Pc} (h : p.inside = true) : p.holds = true := by
  cases p
  case code p => cases p <;> first | rfl | cases h
  case hleOwner => rfl
  all_goals cases h

/-- `lock_word` has one holder, and `thread_id` is the id of `t` only while `t` is in a section
that it has entered by the first protocol. -/
structure DebugInv (t : T) (s : Sys T) : Prop where
  held : Held s.mutex.ib.lockWord fun u => (s.pc u).holds
  id : s.mutex.threadId = some t → (s.pc t).ownsId = true

omit [DecidableEq T] in
theorem debugInv_init {threadId : Option T} (hid : threadId ≠ some t) :
    DebugInv t (init threadId) :=
  ⟨held_free fun _ => rfl, fun ht => (hid ht).elim⟩

/-- Thread `u` goes on. -/
theorem DebugInv.goto (h : DebugInv t s) {m : DebugMutex T} {q : Pc}
    (hheld : Held m.ib.lockWord fun v => ((s.goto u q).pc v).holds)
    (hself : u = t → m.threadId = some t → q.ownsId = true)
    (hother : u ≠ t → m.threadId = some t → s.mutex.threadId = some t) :
    DebugInv t (({ s with mutex := m } : Sys T).goto u q) := by
  refine ⟨hheld, fun ht => ?_⟩
  by_cases hut : u = t
  · subst hut
    rw [goto_pc_self]
    exact hself rfl ht
  · rw [goto_pc_of_ne (Ne.symm hut)]
    exact h.id (hother hut ht)

/-- Thread `u` goes on and does not write `thread_id`. -/
theorem DebugInv.stay (h : DebugInv t s) {m : DebugMutex T} {q : Pc}
    (hheld : Held m.ib.lockWord fun v => ((s.goto u q).pc v).holds)
    (hid : m.threadId = s.mutex.threadId)
    (hq : (s.pc u).ownsId = true → q.ownsId = true) :
    DebugInv t (({ s with mutex := m } : Sys T).goto u q) := by
  refine h.goto hheld (fun hut ht => ?_) fun _ ht => hid ▸ ht
  subst hut
  exact hq (h.id (hid ▸ ht))

theorem held_goto (h : Held s.mutex.ib.lockWord fun t => (s.pc t).holds) {q : Pc}
    (hq : q.holds = (s.pc u).holds) :
    Held s.mutex.ib.lockWord fun v => ((s.goto u q).pc v).holds := by
  refine h.congr fun v => ?_
  by_cases hvu : v = u
  · subst hvu
    rw [goto_pc_self, hq]
  · rw [goto_pc_of_ne hvu]

theorem held_take (h : Held s.mutex.ib.lockWord fun t => (s.pc t).holds) {q q' : Pc}
    (hp : (s.pc u).holds = false) (hq : q.holds = true) (hq' : q'.holds = false) :
    Held 1 fun v =>
      ((s.goto u (if s.mutex.ib.lockWord = 0 then q else q')).pc v).holds := by
  by_cases hzero : s.mutex.ib.lockWord = 0
  · rw [if_pos hzero]
    rw [hzero] at h
    refine h.take (t := u) ?_ fun v hv => ?_
    · rw [goto_pc_self]
      exact hq
    · rw [goto_pc_of_ne hv]
  · rw [if_neg hzero]
    have hone : s.mutex.ib.lockWord = 1 := h.binary.resolve_left hzero
    rw [← hone]
    exact held_goto h (hq'.trans hp.symm)

theorem DebugInv.call (h : DebugInv t s) {c : Call} {q : Pc}
    (hq : c.entry true (s.pc u) = some q) :
    DebugInv t (s.goto u (if ¬ c.asserts s.mutex u then .failed (s.pc u) else q)) := by
  by_cases hassert : c.asserts s.mutex u
  · rw [if_neg (not_not.mpr hassert)]
    rcases entry_cases hq with ⟨hout, hq⟩ | ⟨hin, hq⟩
    · obtain ⟨hholds, hownsId⟩ := Pc.of_outside hout
      refine h.stay (held_goto h.held ?_) rfl fun howns => ?_
      · rw [hholds]
        rcases hq with rfl | rfl | rfl <;> rfl
      · rw [hownsId] at howns
        cases howns
    · have hholds := Pc.holds_of_inside hin
      refine h.stay (held_goto h.held ?_) rfl fun _ => ?_
      · rw [hholds]
        rcases hq with rfl | rfl <;> rfl
      · rcases hq with rfl | rfl <;> rfl
  · rw [if_pos hassert]
    exact h.stay (held_goto h.held rfl) rfl fun howns => howns

theorem DebugInv.run (h : DebugInv t s) {m : DebugMutex T} {q : Pc}
    (hop : operation true rounds s.mutex u (s.pc u) = some (m, q)) :
    DebugInv t (({ s with mutex := m } : Sys T).goto u q) := by
  cases hp : s.pc u <;> rw [hp] at hop
  case code p =>
    simp only [operation, Option.bind_eq_some_iff, Option.map_eq_some_iff, Prod.mk.injEq] at hop
    obtain ⟨i, hi, ⟨m', p'⟩, he, rfl, rfl⟩ := hop
    have hheld : Held m'.ib.lockWord fun v => ((s.goto u (.code p')).pc v).holds := by
      refine h.held.exec (t := u) ?_ ?_ (fun v hv => ?_) hi (DebugMutex.exec_ib he)
      · rw [hp]
        rfl
      · rw [goto_pc_self]
        rfl
      · rw [goto_pc_of_ne hv]
    rcases DebugMutex.exec_threadId hi he with
      ⟨-, rfl, hown⟩ | ⟨-, -, hnone⟩ | ⟨hsame, howns, -⟩
    · refine h.goto hheld (fun _ _ => rfl) fun hut ht => ?_
      rw [hown] at ht
      exact (hut (Option.some.inj ht)).elim
    · refine h.goto hheld (fun _ ht => ?_) fun _ ht => ?_ <;> rw [hnone] at ht <;> cases ht
    · refine h.stay hheld hsame fun hold => ?_
      rw [hp] at hold
      rw [show p.ownsId = true from hold] at howns
      cases howns
  all_goals simp only [operation, Option.some.injEq, Prod.mk.injEq, reduceCtorEq] at hop
  all_goals obtain ⟨rfl, rfl⟩ := hop
  case nowait =>
    refine h.stay (held_take h.held (by rw [hp]; rfl) rfl rfl) rfl fun hold => ?_
    rw [hp] at hold
    cases hold
  case hleEnter =>
    refine h.stay (held_take h.held (by rw [hp]; rfl) rfl rfl) rfl fun hold => ?_
    rw [hp] at hold
    cases hold
  case hleSpin =>
    refine h.stay (held_goto h.held ?_) rfl fun hold => ?_
    · rw [hp]
      split <;> rfl
    · rw [hp] at hold
      cases hold
  case hleDisown =>
    refine h.goto (held_goto h.held ?_) (fun _ ht => ?_) fun _ ht => ?_
    · rw [hp]
      rfl
    · cases ht
    · cases ht
  case hleReset =>
    refine h.stay (h.held.reset (t := u) ?_ ?_ fun v hv => ?_) rfl fun hold => ?_
    · rw [hp]
      rfl
    · rw [goto_pc_self]
      rfl
    · rw [goto_pc_of_ne hv]
    · rw [hp] at hold
      cases hold

theorem DebugInv.step {a : Act T} (h : DebugInv t s) (hs : step true rounds s a = some s') :
    DebugInv t s' := by
  cases a with
  | call u c =>
    obtain ⟨q, hq, rfl⟩ := Option.map_eq_some_iff.mp hs
    simp only [true_and]
    exact h.call hq
  | run u =>
    obtain ⟨⟨m, q⟩, hop, rfl⟩ := Option.map_eq_some_iff.mp hs
    exact h.run hop

/-- The thread is in a section of the second protocol, or was stopped there by an assertion. -/
def Sys.Stuck (s : Sys T) (t : T) : Prop := s.pc t = .hleOwner ∨ s.pc t = .failed .hleOwner

theorem Sys.Stuck.step {a : Act T} (hinv : DebugInv t s) (h : s.Stuck t)
    (hs : step true rounds s a = some s') : s'.Stuck t := by
  cases a with
  | call u c =>
    obtain ⟨q, hq, rfl⟩ := Option.map_eq_some_iff.mp hs
    by_cases htu : t = u
    · subst htu
      have hnot : ¬ own s.mutex t := by
        rintro ⟨-, hid⟩
        have howns := hinv.id hid
        rcases h with h | h <;> rw [h] at howns <;> cases howns
      rcases h with h | h <;> rw [h] at hq
      · have hfails : ¬ c.asserts s.mutex t := by
          cases c <;> first | exact hnot | cases hq
        rw [if_pos ⟨rfl, hfails⟩, h]
        exact Or.inr (goto_pc_self _ _ _)
      · cases c <;> cases hq
    · unfold Sys.Stuck
      rw [goto_pc_of_ne htu]
      exact h
  | run u =>
    obtain ⟨⟨m, q⟩, hop, rfl⟩ := Option.map_eq_some_iff.mp hs
    by_cases htu : t = u
    · subst htu
      rcases h with h | h <;> rw [h] at hop <;> cases hop
    · unfold Sys.Stuck
      rw [goto_pc_of_ne htu]
      exact h

/-- With `UNIV_DEBUG` a thread that is in a section of the second protocol never leaves it, if its
id was not what `thread_id` happened to be when the mutex was created: whatever happens afterwards,
it is there or was stopped by the assertion of an exit function, `lock_word` is 1, and no other
thread gets the mutex by either protocol. -/
theorem trxLock_debug_stuck {threadId : Option T} (hid : threadId ≠ some t)
    (h : Reach (step true rounds) (· = init threadId) (fun _ _ => True) s)
    (ht : s.pc t = .hleOwner) {as : List (Act T)} (hs : exec (step true rounds) s as = some s') :
    (s'.pc t = .hleOwner ∨ s'.pc t = .failed .hleOwner) ∧ s'.mutex.ib.lockWord = 1 ∧
      ∀ u ≠ t, (s'.pc u).holds = false := by
  have hinv : DebugInv t s := by
    refine h.invariant (I := DebugInv t) ?_ fun s a s' hs _ hstep => hs.step hstep
    rintro _ rfl
    exact debugInv_init hid
  have hrun : DebugInv t s' ∧ s'.Stuck t := by
    have hstuck : s.Stuck t := Or.inl ht
    clear ht h
    induction as generalizing s with
    | nil =>
      obtain rfl := Option.some.inj hs
      exact ⟨hinv, hstuck⟩
    | cons a as ih =>
      obtain ⟨s₁, hs₁, hrest⟩ := Option.bind_eq_some_iff.mp hs
      exact ih hrest (hinv.step hs₁) (hstuck.step hinv hs₁)
  obtain ⟨hinv', hstuck⟩ := hrun
  have hholds : (s'.pc t).holds = true := by
    rcases hstuck with hp | hp <;> rw [hp] <;> rfl
  refine ⟨hstuck, hinv'.held.set t hholds, fun u hu => ?_⟩
  by_contra hother
  exact hu (hinv'.held.unique u t (by simpa using hother) hholds)

/-- Thread `false` enters and wants to leave by the second protocol; `thread_id` was the id of the
other thread. -/
theorem trxLock_debug_stuck_exit :
    ∃ s s' : Sys Bool, s.pc false = .hleOwner ∧
      exec (step true 30) s [.call false .hleExit] = some s' ∧
      (s'.pc false = .hleOwner ∨ s'.pc false = .failed .hleOwner) ∧ s'.mutex.ib.lockWord = 1 := by
  obtain ⟨s, hs, howner⟩ := exec_result (step true 30) (init (some true) : Sys Bool)
    [.call false .hleEnter, .run false] (fun s => s.pc false) .hleOwner (by decide)
  have hinit : Reach (step true 30) (· = init (some true)) (fun _ _ => True)
      (init (some true) : Sys Bool) := .init rfl
  have hcall : exec (step true 30) s [.call false .hleExit] =
      some (s.goto false (if true = true ∧ ¬ Call.hleExit.asserts s.mutex false
        then .failed (s.pc false) else .hleDisown)) := by
    simp [exec, step, howner, Call.entry, Pc.inside]
  obtain ⟨hstuck, hword, -⟩ := trxLock_debug_stuck (by decide) (hinit.exec hs) howner hcall
  exact ⟨s, _, howner, hcall, hstuck, hword⟩

end Htmsql.TrxLock
