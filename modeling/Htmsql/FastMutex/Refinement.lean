import Htmsql.FastMutex.Machine
import Htmsql.Innodb.Atomic

/-!
# The mutex without atomic operations is the atomic one

Read "somebody has locked `os_fast_mutex`" for `lock_word`: then `os_fast_mutex_trylock` is the test
and set and `os_fast_mutex_unlock` the reset, and the plain stores to the field change nothing. What
is left of the field is that the `spin_loop` may read 0 while the mutex is locked and end early. So
every state is one of the atomic mutex whose spin loops may end at any time (`step_atomic`), and the
check "that os_fast_mutex_trylock does not leak and allow race conditions" never fails.
-/

namespace Htmsql.FastMutex

open Innodb Run

variable {T : Type}

/-- The thread has locked `os_fast_mutex`. -/
def Pc.hasFast : Pc → Bool
  | code p => p.holds
  | tried _ | checked _ | unlocking _ => true
  | _ => false

/-- The thread has set `lock_word`. -/
def Pc.sets : Pc → Bool
  | code p => p.holds
  | _ => false

/-- Where the thread goes on after each of the two operations on the lock word. -/
def Pc.Continues (debug : Bool) : Pc → Prop
  | tried next | checked next => next = .afterTestAndSet debug
  | unlocking next => next = .released
  | crashed => False
  | _ => True

/-- The fast mutex is held by the thread in its section, and `lock_word` is 1 there from the store
of 1 to the store of 0. While nobody has the fast mutex the word is 0. -/
structure Inv (debug : Bool) (s : Sys T) : Prop where
  owner : ∀ t, (s.pc t).hasFast = true ↔ s.osFastMutex = some t
  word : ∀ t, (s.pc t).hasFast = true → s.ib.lockWord = if (s.pc t).sets = true then 1 else 0
  free : s.osFastMutex = none → s.ib.lockWord = 0
  next : ∀ t, (s.pc t).Continues debug

theorem inv_init (debug : Bool) : Inv debug (init : Sys T) := by
  refine ⟨fun t => ?_, fun t ht => ?_, fun _ => rfl, fun t => trivial⟩
  · simp [init, Pc.hasFast, MutexPc.holds]
  · cases ht

/-! ## The points of the code -/

variable {debug : Bool} {rounds : Nat} {p p' : MutexPc} {i : Instr MutexPc} {m m' : IbMutex}

/-- A test-and-set is made by a thread that does not hold the mutex; whatever it returns but 0 is
the same to it. -/
theorem code_testAndSet {k : Nat → MutexPc} (h : code debug rounds p = some (.testAndSet k)) :
    p.holds = false ∧ k 0 = .afterTestAndSet debug ∧ ∀ n ≠ 0, k n = k 1 ∧ (k n).holds = false := by
  cases p <;> simp only [code, Option.some.injEq, reduceCtorEq, Instr.testAndSet.injEq] at h <;>
    subst h
  case enter => exact ⟨rfl, if_pos rfl, fun n hn => by simp [hn, MutexPc.holds]⟩
  case spinTry i =>
    refine ⟨rfl, if_pos rfl, fun n hn => ?_⟩
    simp only [hn, Nat.one_ne_zero, if_false, true_and]
    split <;> rfl
  case late count i =>
    refine ⟨rfl, if_pos rfl, fun n hn => ?_⟩
    simp only [hn, Nat.one_ne_zero, if_false, true_and]
    split <;> rfl

theorem code_resetLockWord {next : MutexPc}
    (h : code debug rounds p = some (.resetLockWord next)) : p = .reset ∧ next = .released := by
  cases p <;> simp only [code, Option.some.injEq, reduceCtorEq, Instr.resetLockWord.injEq] at h
  exact ⟨rfl, h.symm⟩

/-- Any other operation leaves the lock word alone, and does not depend on it either except in the
spin loop, which ends early where it reads 0. -/
theorem code_exec (h : code debug rounds p = some i) (hi : i.writesLockWord = false)
    (he : m.exec i = some (m', p')) :
    m'.lockWord = m.lockWord ∧ p'.holds = p.holds ∧ ∀ w,
      ({ m with lockWord := w } : IbMutex).exec i = some ({ m' with lockWord := w }, p') ∨
        m.lockWord ≠ w ∧ m' = m ∧ ∃ n, p = .spin n ∧ (m.lockWord = 0 → p' = .spinTry n) := by
  cases p <;> simp only [code, Option.some.injEq, reduceCtorEq] at h <;> subst h <;>
    simp only [Instr.writesLockWord, Bool.true_eq_false] at hi
  case wait count =>
    simp only [IbMutex.exec] at he ⊢
    split at he
    · cases he
    · rename_i hne
      cases he
      exact ⟨rfl, rfl, fun w => Or.inl (if_neg hne)⟩
  all_goals
    simp only [IbMutex.exec, Option.some.injEq, Prod.mk.injEq] at he
    obtain ⟨rfl, rfl⟩ := he
  case spin n =>
    refine ⟨rfl, ?_, fun w => ?_⟩
    · split <;> rfl
    · by_cases hw : m.lockWord = w
      · subst hw
        exact Or.inl rfl
      · exact Or.inr ⟨hw, rfl, n, rfl, fun hzero => by simp [hzero]⟩
  case released =>
    refine ⟨rfl, ?_, fun w => Or.inl rfl⟩
    split <;> rfl
  all_goals exact ⟨rfl, rfl, fun w => Or.inl rfl⟩

variable [DecidableEq T] {s s' : Sys T} {t u : T}

/-- What an operation of the mutex code is in this tree. -/
theorem run_code (hp : s.pc t = .code p) (hs : s.run debug rounds t = some s') :
    ∃ i, code debug rounds p = some i ∧
      ((∃ k, i = .testAndSet k ∧ s' = s.trylock t (.tried (k 0)) (.code (k ebusy))) ∨
        (∃ next, i = .resetLockWord next ∧
          s' = { s with ib := { s.ib with lockWord := 0 } }.goto t (.unlocking next)) ∨
        i.writesLockWord = false ∧ ∃ m' p', s.ib.exec i = some (m', p') ∧
          s' = { s with ib := m' }.goto t (.code p')) := by
  simp only [Sys.run, hp, Option.bind_eq_some_iff] at hs
  obtain ⟨i, hi, hs⟩ := hs
  refine ⟨i, hi, ?_⟩
  cases i
  case testAndSet k => exact Or.inl ⟨k, rfl, (Option.some.inj hs).symm⟩
  case resetLockWord next => exact Or.inr (Or.inl ⟨next, rfl, (Option.some.inj hs).symm⟩)
  all_goals
    obtain ⟨⟨m', p'⟩, he, hs⟩ := Option.map_eq_some_iff.mp hs
    exact Or.inr (Or.inr ⟨rfl, m', p', he, hs.symm⟩)

/-! ## One step keeps the invariant -/

omit [DecidableEq T] in
theorem Inv.owner_unique (h : Inv debug s) (ht : (s.pc t).hasFast = true)
    (hu : (s.pc u).hasFast = true) : t = u :=
  Option.some.inj (((h.owner t).mp ht).symm.trans ((h.owner u).mp hu))

/-- A thread goes on to `q`; what it does to the two locks shows at its own points only. -/
theorem Inv.move (h : Inv debug s) {fast : Option T} {q : Pc}
    (hfast : q.hasFast = true ↔ fast = some t)
    (hother : ∀ u ≠ t, fast = some u ↔ s.osFastMutex = some u)
    (hself : q.hasFast = true → m.lockWord = if q.sets = true then 1 else 0)
    (hkeep : q.hasFast = false → (s.pc t).hasFast = false → m.lockWord = s.ib.lockWord)
    (hfree : fast = none → m.lockWord = 0) (hnext : q.Continues debug) :
    Inv debug (({ s with ib := m, osFastMutex := fast } : Sys T).goto t q) := by
  refine ⟨fun u => ?_, fun u hu => ?_, hfree, fun u => ?_⟩
  · by_cases hut : u = t
    · subst hut
      rw [goto_pc_self]
      exact hfast
    · rw [goto_pc_of_ne hut]
      exact (h.owner u).trans (hother u hut).symm
  · by_cases hut : u = t
    · subst hut
      rw [goto_pc_self] at hu ⊢
      exact hself hu
    · rw [goto_pc_of_ne hut] at hu ⊢
      have hnot : (s.pc t).hasFast = false := by
        by_contra ht
        exact hut (h.owner_unique hu (by simpa using ht))
      have hq : q.hasFast = false := by
        by_contra hq
        have ht := hfast.mp (by simpa using hq)
        have hu' := (hother u hut).mpr ((h.owner u).mp hu)
        rw [ht] at hu'
        exact hut (Option.some.inj hu').symm
      change m.lockWord = _
      rw [hkeep hq hnot]
      exact h.word u hu
  · by_cases hut : u = t
    · subst hut
      rw [goto_pc_self]
      exact hnext
    · rw [goto_pc_of_ne hut]
      exact h.next u

/-- A thread goes on without touching the two locks. -/
theorem Inv.stay (h : Inv debug s) {q : Pc} (hword : m.lockWord = s.ib.lockWord)
    (hfast : q.hasFast = (s.pc t).hasFast) (hsets : q.sets = (s.pc t).sets)
    (hnext : q.Continues debug) : Inv debug (({ s with ib := m } : Sys T).goto t q) := by
  refine h.move ?_ (fun _ _ => Iff.rfl) (fun hq => ?_) (fun _ _ => hword) (fun hf => ?_) hnext
  · rw [hfast]
    exact h.owner t
  · rw [hword, hsets]
    exact h.word t (hfast ▸ hq)
  · rw [hword]
    exact h.free hf

theorem Inv.trylock (h : Inv debug s) {q : Pc} (hp : (s.pc t).hasFast = false)
    (hq : q.hasFast = false) (hnext : q.Continues debug) :
    Inv debug (s.trylock t (.tried (.afterTestAndSet debug)) q) := by
  unfold Sys.trylock
  split
  · rename_i hnone
    refine h.move (iff_of_true rfl rfl) (fun u hu => ?_) (fun _ => h.free hnone) ?_ ?_ rfl
    · rw [hnone]
      exact iff_of_false (fun heq => hu (Option.some.inj heq).symm) (by simp)
    · intro hfalse
      cases hfalse
    · intro hfalse
      cases hfalse
  · refine h.move ?_ (fun _ _ => Iff.rfl) ?_ (fun _ _ => rfl) h.free hnext
    · rw [← h.owner t, hp, hq]
    · intro htrue
      rw [hq] at htrue
      cases htrue

theorem Inv.run (h : Inv debug s) (hs : s.run debug rounds t = some s') : Inv debug s' := by
  have hown := h.owner t
  have hword := h.word t
  have hnext := h.next t
  cases hp : s.pc t <;> rw [hp] at hown hword hnext
  case code p =>
    obtain ⟨i, hi, hcase⟩ := run_code hp hs
    rcases hcase with ⟨k, rfl, rfl⟩ | ⟨next, rfl, rfl⟩ | ⟨hw, m', p', he, rfl⟩
    · obtain ⟨hholds, hzero, hbusy⟩ := code_testAndSet hi
      rw [hzero]
      refine h.trylock ?_ (hbusy ebusy (by decide)).2 trivial
      rw [hp]
      exact hholds
    · obtain ⟨rfl, rfl⟩ := code_resetLockWord hi
      exact h.move (iff_of_true rfl (hown.mp rfl)) (fun _ _ => Iff.rfl) (fun _ => rfl)
        (fun hfalse => by cases hfalse) (fun _ => rfl) rfl
    · obtain ⟨hsame, hholds, -⟩ := code_exec hi hw he
      exact h.stay hsame (by rw [hp]; exact hholds) (by rw [hp]; exact hholds) trivial
  all_goals simp only [Sys.run, hp, Option.some.injEq, reduceCtorEq] at hs
  case nowait =>
    subst hs
    exact h.trylock (by rw [hp]; rfl) rfl trivial
  case tried next =>
    subst hs
    have hzero : s.ib.lockWord = 0 := hword rfl
    rw [if_pos hzero]
    exact h.stay rfl (by rw [hp]; rfl) (by rw [hp]; rfl) hnext
  case checked next =>
    subst hs
    obtain rfl : next = .afterTestAndSet debug := hnext
    have hholds := MutexPc.holds_afterTestAndSet debug
    refine h.move (iff_of_true hholds (hown.mp rfl)) (fun _ _ => Iff.rfl) (fun _ => ?_) ?_ ?_ trivial
    · exact (if_pos hholds).symm
    · intro hfalse
      rw [Pc.hasFast, hholds] at hfalse
      cases hfalse
    · intro hnone
      rw [hown.mp rfl] at hnone
      cases hnone
  case unlocking next =>
    subst hs
    obtain rfl : next = .released := hnext
    refine h.move (iff_of_false (by simp [Pc.hasFast, MutexPc.holds]) (by simp)) (fun u hu => ?_)
      (fun hfalse => by cases hfalse) (fun _ _ => rfl) (fun _ => hword rfl) trivial
    rw [hown.mp rfl]
    exact iff_of_false (by simp) fun heq => hu (Option.some.inj heq).symm

theorem entry_cases {c : Call} {q q' : Pc} (h : c.entry debug q = some q') :
    c = .enter ∧ (q = .code .done ∨ q = .refused) ∧ q' = .code .enter ∨
      c = .enterNowait ∧ (q = .code .done ∨ q = .refused) ∧ q' = .nowait ∨
      c = .exit ∧ q = .code .owner ∧ q' = .code (.exit debug) := by
  unfold Call.entry at h
  split at h <;> simp_all

theorem Inv.step {a : Act T} (h : Inv debug s) (hs : step debug rounds s a = some s') :
    Inv debug s' := by
  cases a with
  | run t => exact h.run hs
  | call t c =>
    obtain ⟨q, hq, rfl⟩ := Option.map_eq_some_iff.mp hs
    obtain ⟨-, hp, rfl⟩ | ⟨-, hp, rfl⟩ | ⟨-, hp, rfl⟩ := entry_cases hq
    · exact h.stay rfl (by rcases hp with hp | hp <;> rw [hp] <;> rfl)
        (by rcases hp with hp | hp <;> rw [hp] <;> rfl) trivial
    · exact h.stay rfl (by rcases hp with hp | hp <;> rw [hp] <;> rfl)
        (by rcases hp with hp | hp <;> rw [hp] <;> rfl) trivial
    · exact h.stay rfl (by rw [hp]; cases debug <;> rfl) (by rw [hp]; cases debug <;> rfl) trivial

theorem reach_inv (h : Reach (step debug rounds) (· = init) (fun _ _ => True) s) : Inv debug s := by
  refine h.invariant (I := Inv debug) ?_ fun s a s' hs _ hstep => hs.step hstep
  rintro _ rfl
  exact inv_init debug

/-! ## The atomic mutex of a state -/

/-- The point of the atomic mutex that a point stands for: the exchange counts as done when the
fast mutex is taken, the reset when it is given back. -/
def Pc.atomic : Pc → MutexPc
  | code p => p
  | tried next | checked next => next
  | unlocking _ => .reset
  | nowait | refused | crashed => .done

/-- The atomic mutex that a state stands for: its word says whether the fast mutex is taken. -/
def Sys.atomic (s : Sys T) : Atomic T :=
  ⟨{ s.ib with lockWord := if s.osFastMutex = none then 0 else 1 }, fun t => (s.pc t).atomic⟩

theorem atomic_goto (s : Sys T) (t : T) (q : Pc) :
    (s.goto t q).atomic = s.atomic.goto t q.atomic := by
  simp only [Sys.atomic, Sys.goto, Atomic.goto, Atomic.mk.injEq]
  refine ⟨rfl, funext fun u => ?_⟩
  by_cases hu : u = t
  · subst hu
    simp
  · simp [Function.update_of_ne hu]

theorem atomic_goto_self {q : Pc} (h : q.atomic = (s.pc t).atomic) :
    (s.goto t q).atomic = s.atomic := by
  rw [atomic_goto, Atomic.goto, h]
  have hsame : Function.update s.atomic.pc t (s.pc t).atomic = s.atomic.pc :=
    Function.update_eq_self t s.atomic.pc
  rw [hsame]

omit [DecidableEq T] in
/-- The store to `lock_word` is not seen. -/
theorem atomic_lockWord (s : Sys T) (w : Nat) :
    ({ s with ib := { s.ib with lockWord := w } } : Sys T).atomic = s.atomic := rfl

theorem trylock_atomic {k : Nat → MutexPc} (hp : s.pc t = .code p)
    (hi : code debug rounds p = some (.testAndSet k)) :
    Atomic.step debug rounds s.atomic (.run t) =
      some (s.trylock t (.tried (k 0)) (.code (k ebusy))).atomic := by
  have hpc : s.atomic.pc t = p := by
    change (s.pc t).atomic = p
    rw [hp]
    rfl
  rw [Atomic.step_run (by rw [hpc]; exact hi) rfl]
  unfold Sys.trylock
  split
  · rename_i hfree
    rw [atomic_goto]
    simp [Sys.atomic, Pc.atomic, hfree]
  · rename_i htaken
    have hbusy := ((code_testAndSet hi).2.2 ebusy (by decide)).1
    rw [atomic_goto]
    simp [Sys.atomic, Pc.atomic, htaken, hbusy]

/-- Every step is a step of the atomic mutex, or not seen there. -/
theorem step_atomic {a : Act T} (h : Inv debug s) (hs : step debug rounds s a = some s') :
    s'.atomic = s.atomic ∨ ∃ b, Atomic.step debug rounds s.atomic b = some s'.atomic := by
  cases a with
  | call t c =>
    obtain ⟨q, hq, rfl⟩ := Option.map_eq_some_iff.mp hs
    have hdone : s.pc t = .code .done ∨ s.pc t = .refused → (s.pc t).atomic = .done := by
      rintro (hp | hp) <;> rw [hp] <;> rfl
    obtain ⟨-, hp, rfl⟩ | ⟨-, hp, rfl⟩ | ⟨-, hp, rfl⟩ := entry_cases hq
    · refine Or.inr ⟨.enter t, ?_⟩
      rw [atomic_goto]
      exact if_pos (hdone hp)
    · exact Or.inl (atomic_goto_self (hdone hp).symm)
    · refine Or.inr ⟨.exit t, ?_⟩
      rw [atomic_goto]
      apply if_pos
      change (s.pc t).atomic = .owner
      rw [hp]
      rfl
  | run t =>
    replace hs : s.run debug rounds t = some s' := hs
    have hnext := h.next t
    cases hp : s.pc t <;> rw [hp] at hnext
    case code p =>
      have hpc : s.atomic.pc t = p := by
        change (s.pc t).atomic = p
        rw [hp]
        rfl
      obtain ⟨i, hi, hcase⟩ := run_code hp hs
      rcases hcase with ⟨k, rfl, rfl⟩ | ⟨next, rfl, rfl⟩ | ⟨hw, m', p', he, rfl⟩
      · exact Or.inr ⟨.run t, trylock_atomic hp hi⟩
      · obtain ⟨rfl, -⟩ := code_resetLockWord hi
        refine Or.inl ?_
        rw [atomic_goto_self, atomic_lockWord]
        change MutexPc.reset = (s.pc t).atomic
        rw [hp]
        rfl
      · obtain ⟨-, -, hword⟩ := code_exec hi hw he
        rcases hword (if s.osFastMutex = none then 0 else 1) with hexec | ⟨hne, rfl, n, rfl, hend⟩
        · refine Or.inr ⟨.run t, ?_⟩
          rw [Atomic.step_run (by rw [hpc]; exact hi) hexec, atomic_goto]
          rfl
        · -- the loop reads a lock word that is not set yet, or not any more
          have hzero : s.ib.lockWord = 0 := by
            by_contra hset
            cases hf : s.osFastMutex with
            | none => exact hset (h.free hf)
            | some u =>
              have hu := h.word u ((h.owner u).mpr hf)
              rw [hf, if_neg (by simp)] at hne
              split at hu <;> omega
          refine Or.inr ⟨.endSpin t, ?_⟩
          simp only [Atomic.step, hpc, hend hzero]
          rw [atomic_goto]
          rfl
    all_goals simp only [Sys.run, hp, Option.some.injEq, reduceCtorEq] at hs
    case nowait =>
      subst hs
      unfold Sys.trylock
      split
      · rename_i hfree
        refine Or.inr ⟨.enterNowait t, ?_⟩
        have hcond : s.atomic.pc t = .done ∧ s.atomic.ib.lockWord = 0 := by
          refine ⟨?_, if_pos hfree⟩
          change (s.pc t).atomic = .done
          rw [hp]
          rfl
        rw [atomic_goto]
        simp only [Atomic.step, if_pos hcond]
        simp [Sys.atomic, Pc.atomic, Atomic.goto]
      · refine Or.inl (atomic_goto_self ?_)
        rw [hp]
        rfl
    case tried next =>
      subst hs
      have hzero : s.ib.lockWord = 0 := by
        have hword := h.word t
        rw [hp] at hword
        exact hword rfl
      rw [if_pos hzero]
      refine Or.inl (atomic_goto_self ?_)
      rw [hp]
      rfl
    case checked next =>
      subst hs
      refine Or.inl ?_
      rw [atomic_goto_self, atomic_lockWord]
      change next = (s.pc t).atomic
      rw [hp]
      rfl
    case unlocking next =>
      subst hs
      obtain rfl : next = .released := hnext
      have hpc : s.atomic.pc t = .reset := by
        change (s.pc t).atomic = .reset
        rw [hp]
        rfl
      refine Or.inr ⟨.run t, ?_⟩
      rw [Atomic.step_run (by rw [hpc]; rfl) rfl, atomic_goto]
      rfl

/-- Every state that any run reaches is a state of the atomic mutex, and no check has failed; the
threads in a section and those on their way are the same there. -/
theorem fastMutex_refines (h : Reach (step debug rounds) (· = init) (fun _ _ => True) s) :
    Reach (Atomic.step debug rounds) (· = Atomic.init) (fun _ _ => True) s.atomic ∧
      (∀ t, s.pc t ≠ .crashed) ∧ ∀ t p, s.pc t = .code p → s.atomic.pc t = p := by
  have hatomic : Inv debug s ∧
      Reach (Atomic.step debug rounds) (· = Atomic.init) (fun _ _ => True) s.atomic := by
    refine h.invariant (I := fun s => Inv debug s ∧
      Reach (Atomic.step debug rounds) (· = Atomic.init) (fun _ _ => True) s.atomic) ?_ ?_
    · rintro _ rfl
      exact ⟨inv_init debug, .init rfl⟩
    · rintro s a s' ⟨hinv, hr⟩ - hstep
      refine ⟨hinv.step hstep, ?_⟩
      rcases step_atomic hinv hstep with heq | ⟨b, hb⟩
      · rw [heq]
        exact hr
      · exact hr.step trivial hb
  refine ⟨hatomic.2, fun t ht => ?_, fun t p ht => ?_⟩
  · have hnext := hatomic.1.next t
    rw [ht] at hnext
    exact hnext
  · change (s.pc t).atomic = p
    rw [ht]
    rfl

/-- Thread `true` reads `lock_word` before thread `false`, which has locked `os_fast_mutex`, has set
it. -/
theorem fastMutex_refines_hastySpin :
    ∃ s : Sys Bool, s.pc false = .tried .owner ∧ s.pc true = .code (.spinTry 0) ∧
      Reach (Atomic.step false 30) (· = Atomic.init) (fun _ _ => True) s.atomic ∧
      s.atomic.ib.lockWord = 1 := by
  obtain ⟨s, hs, hres⟩ := exec_result (step false 30) (init : Sys Bool)
    [.call false .enter, .run false, .call true .enter, .run true, .run true]
    (fun s => (s.pc false, s.pc true, s.osFastMutex)) (.tried .owner, .code (.spinTry 0), some false)
    (by decide)
  simp only [Prod.mk.injEq] at hres
  obtain ⟨hfalse, htrue, hfast⟩ := hres
  have hinit : Reach (step false 30) (· = init) (fun _ _ => True) (init : Sys Bool) := .init rfl
  refine ⟨s, hfalse, htrue, (fastMutex_refines (hinit.exec hs)).1, ?_⟩
  simp [Sys.atomic, hfast]

end Htmsql.FastMutex
