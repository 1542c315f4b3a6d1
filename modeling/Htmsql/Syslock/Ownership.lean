import Htmsql.Innodb.Holder
import Htmsql.Innodb.ThreadId
import Htmsql.Syslock.Machine

/-!
# Who owns the mutex, by `mutex_own`

`mutex_own` combines `lock_word` and `thread_id`. The functions of the first protocol keep both,
so that it is right about every thread that is not inside one of them (`OwnInv`).
`hle_mutex_enter` writes neither of the two, and `hle_mutex_enter_nowait` only `thread_id`: a
thread that has entered through `hle_mutex` does not own the mutex by `mutex_own`, and the
assertion of `hle_mutex_exit` fails.
-/

namespace Htmsql.Syslock

open Innodb Run

variable {T : Type}

/-- The fields of the first protocol. -/
def HleMutex.debug (m : HleMutex T) : DebugMutex T := ⟨m.ib, m.threadId⟩

/-- An operation of the first protocol works on its fields only. -/
theorem exec_debug {m m' : HleMutex T} {t : T} {i : Instr MutexPc} {p : MutexPc}
    (h : m.exec t i = some (m', p)) :
    m.debug.exec t i = some (m'.debug, p) ∧ m'.hleMutex = m.hleMutex := by
  cases i
  case setThreadId own next =>
    cases h
    exact ⟨rfl, rfl⟩
  all_goals
    simp only [HleMutex.exec, Option.map_eq_some_iff] at h
    obtain ⟨⟨ib, q⟩, hx, hq⟩ := h
    cases hq
    refine ⟨?_, rfl⟩
    simp only [HleMutex.debug, DebugMutex.exec, hx, Option.map_some]

theorem exec_ib {m m' : HleMutex T} {t : T} {i : Instr MutexPc} {p : MutexPc}
    (h : m.exec t i = some (m', p)) : m.ib.exec i = some (m'.ib, p) :=
  DebugMutex.exec_ib (exec_debug h).1

/-- The lock word has one holder. -/
def Sys.LockInv (s : Sys T) : Prop := Held s.mutex.ib.lockWord fun t => (s.pc t).holds

theorem lockInv_init (memory : HleMutex T) : (init memory).LockInv := held_free fun _ => rfl

theorem holds_afterMutex (p : MutexPc) : (afterMutex p).holds = p.holds := by
  cases p <;> rfl

theorem holds_entry {debug : Bool} {c : Call} {p q : Pc} (h : c.entry debug p = some q) :
    q.holds = p.holds := by
  cases c <;> cases p <;> simp only [Call.entry, Option.some.injEq, reduceCtorEq] at h
  case exit.plain p =>
    cases p <;> simp only [Option.some.injEq, reduceCtorEq] at h
    subst h
    cases debug <;> rfl
  case hleExit.hleOwner =>
    subst h
    cases debug <;> rfl
  all_goals
    subst h
    rfl

variable {debug : Bool} {rounds : Nat} {s s' : Sys T}

/-! ## `thread_id` in the debug build -/

/-- The points at which `thread_id` is the thread's own. -/
def Pc.ownsId : Pc → Bool
  | .plain .owner => true
  | .plain .disown => true
  | _ => false

/-- Between two calls: outside the mutex, or inside its section. -/
def Pc.betweenCalls : Pc → Bool
  | .idle => true
  | .refused => true
  | .plain .owner => true
  | .hleOwner => true
  | _ => false

/-- The thread is in a section of the mutex. -/
def Pc.inside : Pc → Bool
  | .plain .owner => true
  | .hleOwner => true
  | _ => false

/-- `mutex_own` is right about every thread that is between two calls, and no assertion has
failed. -/
structure Sys.Tracked (s : Sys T) : Prop where
  own : ∀ t, (s.pc t).betweenCalls = true → (s.mutex.own t ↔ (s.pc t).inside = true)
  asserted : ∀ t p, s.pc t ≠ .failed p

/-- The step does not acquire `hle_mutex`. -/
def NoHleAcquire (s : Sys T) : Act T → Prop
  | .run t =>
    ¬ (s.pc t = .hleEnter ∧ s.mutex.hleMutex = 0) ∧ ¬ (s.pc t = .hleNowait ∧ s.mutex.hleMutex ≠ 1)
  | .call _ _ => True

instance (s : Sys T) (a : Act T) : Decidable (NoHleAcquire s a) :=
  match a with
  | .run _ => inferInstanceAs (Decidable (¬ (_ ∧ _) ∧ ¬ (_ ∧ _)))
  | .call _ _ => isTrue trivial

/-- The lock is sound, `thread_id` is the id of the thread inside, nobody is in a section of the
other protocol, and no assertion has failed. -/
structure OwnInv (s : Sys T) : Prop where
  lock : s.LockInv
  id : ∀ t, s.mutex.threadId = some t ↔ (s.pc t).ownsId = true
  plain : ∀ t, (s.pc t).hleHolds = false
  asserted : ∀ t p, s.pc t ≠ .failed p

theorem OwnInv.tracked (h : OwnInv s) : s.Tracked := by
  refine ⟨fun t ht => ⟨fun ho => ?_, fun hi => ?_⟩, h.asserted⟩
  · have hid := (h.id t).mp ho.2
    cases hp : s.pc t <;> rw [hp] at ht hid <;> simp only [Pc.ownsId, reduceCtorEq] at hid
    rename_i p
    cases p <;> simp only [Pc.betweenCalls, reduceCtorEq] at ht
    rfl
  · have hplain := h.plain t
    cases hp : s.pc t <;> rw [hp] at hi hplain <;>
      simp only [Pc.inside, Pc.hleHolds, reduceCtorEq] at hi hplain
    rename_i p
    cases p <;> simp only [reduceCtorEq] at hi
    refine ⟨h.lock.set t ?_, (h.id t).mpr ?_⟩ <;> rw [hp] <;> rfl

theorem ownsId_plain (p : MutexPc) : (Pc.plain p).ownsId = p.ownsId := by
  cases p <;> rfl

theorem ownsId_afterMutex (p : MutexPc) : (afterMutex p).ownsId = p.ownsId := by
  cases p <;> rfl

theorem Pc.holds_of_ownsId {p : Pc} (h : p.ownsId = true) : p.holds = true := by
  cases p <;> simp only [ownsId, reduceCtorEq] at h
  rename_i p
  cases p <;> simp only [reduceCtorEq] at h <;> rfl

theorem OwnInv.call (h : OwnInv s) {t : T} {c : Call} {p : Pc}
    (hp : c.entry true (s.pc t) = some p) :
    c.asserts s.mutex t ∧ p.ownsId = (s.pc t).ownsId ∧ p.hleHolds = false ∧ ∀ q, p ≠ .failed q := by
  have htrack := h.tracked.own t
  have hplain := h.plain t
  cases c <;> cases hpc : s.pc t <;> rw [hpc] at hp htrack hplain <;>
    simp only [Call.entry, Option.some.injEq, reduceCtorEq] at hp
  case exit.plain q =>
    cases q <;> simp only [Option.some.injEq, reduceCtorEq] at hp
    subst hp
    exact ⟨(htrack rfl).mpr rfl, rfl, rfl, by simp⟩
  case hleExit.hleOwner => cases hplain
  case enter.idle | enter.refused | hleEnter.idle | hleEnter.refused =>
    subst hp
    refine ⟨fun ho => ?_, rfl, rfl, by simp⟩
    cases (htrack rfl).mp ho
  all_goals
    subst hp
    exact ⟨trivial, rfl, rfl, by simp⟩

/-! ## The step lemmas -/

variable [DecidableEq T]

theorem pc_setPc_self (s : Sys T) (t : T) (p : Pc) : (s.setPc t p).pc t = p := by
  simp [Sys.setPc]

theorem pc_setPc_of_ne {t u : T} (h : u ≠ t) (s : Sys T) (p : Pc) :
    (s.setPc t p).pc u = s.pc u := by
  simp [Sys.setPc, h]

/-- A thread that does not hold the lock word moves on, and it is not written. -/
theorem Sys.LockInv.move (h : s.LockInv) {t : T} {m : HleMutex T} {p : Pc}
    (hw : m.ib.lockWord = s.mutex.ib.lockWord) (hp : p.holds = (s.pc t).holds) :
    (({ s with mutex := m }).setPc t p).LockInv := by
  have hm : (({ s with mutex := m }).setPc t p).mutex = m := rfl
  unfold Sys.LockInv
  rw [hm, hw]
  refine h.congr fun u => ?_
  by_cases hu : u = t
  · rw [hu, pc_setPc_self, hp]
  · rw [pc_setPc_of_ne hu]

theorem Sys.LockInv.operation (h : s.LockInv) {t : T} {m : HleMutex T} {p : Pc}
    (ho : operation debug rounds s.mutex t (s.pc t) = some (m, p)) :
    (({ s with mutex := m }).setPc t p).LockInv := by
  cases hp : s.pc t <;> rw [hp] at ho <;> simp only [Syslock.operation, reduceCtorEq] at ho
  case plain q =>
    simp only [Option.bind_eq_some_iff, Option.map_eq_some_iff] at ho
    obtain ⟨i, hi, ⟨m', p'⟩, hx, hq⟩ := ho
    cases hq
    refine Held.exec (t := t) h ?_ ?_ (fun u hu => ?_) hi (exec_ib hx)
    · show (s.pc t).holds = q.holds
      rw [hp]
      rfl
    · show ((Sys.setPc _ t _).pc t).holds = p'.holds
      rw [pc_setPc_self, holds_afterMutex]
    · show ((Sys.setPc _ t _).pc u).holds = (s.pc u).holds
      rw [pc_setPc_of_ne hu]
  case nowait =>
    cases ho
    by_cases hw : s.mutex.ib.lockWord = 0
    · have hfree : Held 0 fun u => (s.pc u).holds := hw ▸ h
      refine hfree.take (t := t) ?_ fun u hu => ?_
      · show ((Sys.setPc _ t _).pc t).holds = true
        rw [pc_setPc_self, if_pos hw]
        exact MutexPc.holds_afterTestAndSet debug
      · show ((Sys.setPc _ t _).pc u).holds = (s.pc u).holds
        rw [pc_setPc_of_ne hu]
    · rw [if_neg hw]
      refine h.move ?_ (by rw [hp]; rfl)
      show 1 = s.mutex.ib.lockWord
      have := h.binary
      omega
  case hleReset =>
    cases ho
    exact h.move rfl (by rw [hp]; rfl)
  all_goals
    simp only [Option.some.injEq, Prod.mk.injEq] at ho
    obtain ⟨rfl, rfl⟩ := ho
    apply h.move rfl
    rw [hp]
    first | rfl | (repeat' split) <;> rfl

theorem Sys.LockInv.step (h : s.LockInv) {a : Act T} (hs : step debug rounds s a = some s') :
    s'.LockInv := by
  cases a with
  | call t c =>
    simp only [Syslock.step, Option.map_eq_some_iff] at hs
    obtain ⟨p, hp, rfl⟩ := hs
    apply h.move (m := s.mutex) rfl
    split
    · rfl
    · exact holds_entry hp
  | run t =>
    simp only [Syslock.step, Option.map_eq_some_iff] at hs
    obtain ⟨⟨m, p⟩, ho, rfl⟩ := hs
    exact h.operation ho

/-- One thread moves on: `thread_id` stays, becomes its own, or was its own and is given up. -/
theorem OwnInv.move (h : OwnInv s) {t : T} {m : HleMutex T} {p : Pc}
    (hl : (({ s with mutex := m }).setPc t p).LockInv)
    (hid : m.threadId = s.mutex.threadId ∧ p.ownsId = (s.pc t).ownsId ∨
      m.threadId = some t ∧ p.ownsId = true ∧ (s.pc t).holds = true ∨
      m.threadId = none ∧ p.ownsId = false ∧ (s.pc t).holds = true)
    (hh : p.hleHolds = false) (hf : ∀ q, p ≠ .failed q) :
    OwnInv (({ s with mutex := m }).setPc t p) := by
  refine ⟨hl, fun u => ?_, fun u => ?_, fun u q => ?_⟩
  · show m.threadId = some u ↔ _
    -- while `t` holds the lock word, `thread_id` is nobody else's
    have hother : (s.pc t).holds = true → u ≠ t → (s.pc u).ownsId = false := by
      intro ht hu
      cases hown : (s.pc u).ownsId with
      | false => rfl
      | true => exact (hu (h.lock.unique u t (Pc.holds_of_ownsId hown) ht)).elim
    by_cases hu : u = t
    · subst hu
      rw [pc_setPc_self]
      rcases hid with ⟨hm, hp⟩ | ⟨hm, hp, -⟩ | ⟨hm, hp, -⟩
      · rw [hm, hp]
        exact h.id u
      · simp [hm, hp]
      · simp [hm, hp]
    · rw [pc_setPc_of_ne hu]
      rcases hid with ⟨hm, -⟩ | ⟨hm, -, ht⟩ | ⟨hm, -, ht⟩
      · rw [hm]
        exact h.id u
      · simp [hm, hother ht hu, Ne.symm hu]
      · simp [hm, hother ht hu]
  · by_cases hu : u = t
    · rw [hu, pc_setPc_self, hh]
    · rw [pc_setPc_of_ne hu]
      exact h.plain u
  · by_cases hu : u = t
    · rw [hu, pc_setPc_self]
      exact hf q
    · rw [pc_setPc_of_ne hu]
      exact h.asserted u q

theorem OwnInv.step (h : OwnInv s) {a : Act T} (hok : NoHleAcquire s a)
    (hs : step true rounds s a = some s') : OwnInv s' := by
  have hlock := h.lock.step hs
  cases a with
  | call t c =>
    simp only [Syslock.step, Option.map_eq_some_iff] at hs
    obtain ⟨p, hp, rfl⟩ := hs
    obtain ⟨hass, hid, hh, hf⟩ := h.call hp
    rw [if_neg (by simp [hass])] at hlock ⊢
    exact h.move (m := s.mutex) hlock (Or.inl ⟨rfl, hid⟩) hh hf
  | run t =>
    simp only [Syslock.step, Option.map_eq_some_iff] at hs
    obtain ⟨⟨m, p⟩, ho, rfl⟩ := hs
    have hplain := h.plain t
    cases hpc : s.pc t <;> rw [hpc] at ho hplain <;>
      simp only [operation, Pc.hleHolds, reduceCtorEq] at ho hplain
    case plain q =>
      simp only [Option.bind_eq_some_iff, Option.map_eq_some_iff] at ho
      obtain ⟨i, hi, ⟨m', p'⟩, hx, hq⟩ := ho
      cases hq
      have hafter : (afterMutex p').hleHolds = false ∧ ∀ q, afterMutex p' ≠ .failed q := by
        cases p' <;> simp [afterMutex, Pc.hleHolds]
      refine h.move hlock ?_ hafter.1 hafter.2
      rcases DebugMutex.exec_threadId hi (exec_debug hx).1 with
        ⟨rfl, rfl, hm⟩ | ⟨rfl, rfl, hm⟩ | ⟨hm, hold, hnew⟩
      · exact Or.inr (Or.inl ⟨hm, rfl, by rw [hpc]; rfl⟩)
      · exact Or.inr (Or.inr ⟨hm, rfl, by rw [hpc]; rfl⟩)
      · exact Or.inl ⟨hm, by rw [ownsId_afterMutex, hnew, hpc, ownsId_plain, hold]⟩
    case nowait =>
      cases ho
      refine h.move hlock (Or.inl ⟨rfl, ?_⟩) ?_ ?_
      · rw [hpc]
        split <;> rfl
      · split <;> rfl
      · split <;> simp
    case hleEnter =>
      cases ho
      have hbusy : s.mutex.hleMutex ≠ 0 := fun hz => hok.1 ⟨hpc, hz⟩
      rw [if_pos hbusy] at hlock ⊢
      exact h.move hlock (Or.inl ⟨rfl, by rw [hpc]; rfl⟩) rfl (by simp)
    case hleSpin =>
      cases ho
      refine h.move hlock (Or.inl ⟨rfl, ?_⟩) ?_ ?_
      · rw [hpc]
        split <;> rfl
      · split <;> rfl
      · split <;> simp
    case hleNowait =>
      cases ho
      have hbusy : s.mutex.hleMutex = 1 := by
        by_contra hz
        exact hok.2 ⟨hpc, hz⟩
      rw [if_pos hbusy] at hlock ⊢
      exact h.move hlock (Or.inl ⟨rfl, by rw [hpc]; rfl⟩) rfl (by simp)

/-- Where nobody acquires `hle_mutex`, and `thread_id` was no thread's id when the mutex was
created, `mutex_own` is right and no assertion fails. A thread enters only while it is in no section
of the mutex (`Call.entry`): for one that is, the assertion of the enter functions is there. -/
theorem syslock_tracked {memory : HleMutex T} (hid : memory.threadId = none)
    (h : Reach (step true rounds) (· = init memory) NoHleAcquire s) : s.Tracked := by
  have hinv : OwnInv s := by
    refine h.invariant (I := OwnInv) ?_ fun s a s' hs hok hstep => hs.step hok hstep
    rintro _ rfl
    refine ⟨lockInv_init memory, fun t => ?_, fun t => rfl, fun t p => by simp [init]⟩
    simp [init, mutexCreate, hid, Pc.ownsId]
  exact hinv.tracked

/-- One thread enters and leaves by the first protocol while another one tries. -/
def plainRun : List (Act Bool) :=
  [.call false .enter, .run false, .run false, .call true .enterNowait, .run true,
    .call false .exit, .run false, .run false]

theorem syslock_tracked_plainRun :
    ∃ s, exec (guarded (step true 30) NoHleAcquire) (init ⟨⟨7, 7, 7⟩, 7, none⟩) plainRun = some s ∧
      s.pc true = .refused ∧ s.Tracked := by
  obtain ⟨s, hs, hp⟩ := exec_result (guarded (step true 30) NoHleAcquire)
    (init ⟨⟨7, 7, 7⟩, 7, none⟩) plainRun (fun s => s.pc true) .refused (by decide)
  exact ⟨s, hs, hp, syslock_tracked rfl (.exec_guarded (.init rfl) hs)⟩

/-- A thread enters by `hle_mutex_enter`. It does not own the mutex, and the assertion of its
`hle_mutex_exit` fails. -/
theorem syslock_not_tracked :
    ∃ s, Reach (step true 30) (· = init ⟨⟨0, 0, 0⟩, 0, none⟩) (fun _ _ => True) s ∧
      s.pc () = .hleOwner ∧ ¬ s.mutex.own () ∧ ¬ s.Tracked ∧
      step true 30 s (.call () .hleExit) = some (s.setPc () (.failed .hleOwner)) := by
  obtain ⟨s, hs, hb⟩ := exec_result (step true 30) (init ⟨⟨0, 0, 0⟩, 0, none⟩)
    [.call () .hleEnter, .run ()] (fun s => (s.pc (), s.mutex.threadId)) (.hleOwner, none)
    (by decide)
  simp only [Prod.mk.injEq] at hb
  obtain ⟨hp, hid⟩ := hb
  have hown : ¬ s.mutex.own () := by simp [HleMutex.own, hid]
  refine ⟨s, .exec (.init rfl) hs, hp, hown, fun ht => ?_, ?_⟩
  · exact hown ((ht.own () (by rw [hp]; rfl)).mpr (by rw [hp]; rfl))
  · simp [step, hp, Call.entry, Call.asserts, hown]

end Htmsql.Syslock
