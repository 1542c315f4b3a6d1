import Htmsql.Lib.Run
import Htmsql.Rtm.Machine

/-!
# The lock word and its holder

The invariant of `Rtm.step` that speaks of control only: who holds the lock word, and what an
open transaction knows of it. `Local` is the part about one thread; what a step does to the
threads it does not belong to is abort their transactions (`LockInv.abortAll`).
-/

namespace Htmsql.Rtm

open Innodb Trace

variable {T D V : Type}

/-- What holds of one thread when the lock word is `w`. -/
structure Local (v : Variant) (w : Nat) (p : Pc) (x : Option (Txn D V)) (tr : List (Ev D V)) :
    Prop where
  txn_pc : ∀ y, x = some y → p = .started ∨ p = .speculative
  holds : p.holds = true → w = 1
  no_trace : p.holds = false → tr = []
  overlap : ∀ y, x = some y → w ≠ 0 → y.overlap = true
  /-- a transaction that has the lock word in its read set has never seen it set -/
  reads : ∀ y, x = some y → y.readsLockWord = true → y.overlap = false
  tail : ∀ q, p = .exitTail q → q.inTail = true
  checked : v.readsLockWord = true → p = .speculative → ∀ y, x = some y → y.readsLockWord = true

/-- The word is 0 or 1, it is 1 only while one thread holds the mutex, and what each thread has
seen of it fits its point and its transaction. -/
structure LockInv (v : Variant) (s : Sys T D V) : Prop where
  word : s.mutex.lockWord = 0 ∨ s.mutex.lockWord = 1
  thread : ∀ t, Local v s.mutex.lockWord (s.pc t) (s.txn t) (s.trace t)
  held : s.mutex.lockWord ≠ 0 → ∃ t, (s.pc t).holds = true
  unique : ∀ t u, (s.pc t).holds = true → (s.pc u).holds = true → t = u

/-- A thread outside transactions and sections. -/
theorem Local.quiet {v : Variant} {w : Nat} {p : Pc} (hp : p.holds = false)
    (ht : ∀ q, p = .exitTail q → q.inTail = true) :
    Local v w p (none : Option (Txn D V)) [] :=
  ⟨by simp, by simp [hp], by simp, by simp, by simp, ht, by simp⟩

theorem Local.no_hold {v : Variant} {w : Nat} {p : Pc} {x : Txn D V} {tr : List (Ev D V)}
    (h : Local v w p (some x) tr) : p.holds = false := by
  rcases h.txn_pc x rfl with rfl | rfl <;> rfl

variable {v : Variant} {s s' : Sys T D V}

theorem lockInv_init (v : Variant) (data : D → V) : LockInv v (init data : Sys T D V) :=
  ⟨Or.inl rfl, fun _ => .quiet rfl (by simp [init]), fun hne => (hne rfl).elim,
    fun _ _ h => by cases h⟩

/-- One thread moves and stays a holder or stays none; the lock word stays. -/
theorem LockInv.move (h : LockInv v s) (t : T) (hw : s'.mutex.lockWord = s.mutex.lockWord)
    (hpc : ∀ u, u ≠ t → s'.pc u = s.pc u) (htxn : ∀ u, u ≠ t → s'.txn u = s.txn u)
    (htr : ∀ u, u ≠ t → s'.trace u = s.trace u)
    (hl : Local v s.mutex.lockWord (s'.pc t) (s'.txn t) (s'.trace t))
    (hh : (s'.pc t).holds = (s.pc t).holds) : LockInv v s' := by
  have hholds : ∀ u, (s'.pc u).holds = (s.pc u).holds := by
    intro u
    by_cases hu : u = t
    · rw [hu, hh]
    · rw [hpc u hu]
  refine ⟨hw ▸ h.word, ?_, ?_, ?_⟩
  · intro u
    rw [hw]
    by_cases hu : u = t
    · rw [hu]
      exact hl
    · rw [hpc u hu, htxn u hu, htr u hu]
      exact h.thread u
  · intro hne
    obtain ⟨u, hu⟩ := h.held (hw ▸ hne)
    exact ⟨u, by rw [hholds, hu]⟩
  · intro u₁ u₂ h₁ h₂
    exact h.unique u₁ u₂ (hholds u₁ ▸ h₁) (hholds u₂ ▸ h₂)

/-! ## Aborting transactions -/

/-- A thread either keeps its transaction, or continues after `_xbegin` without one. -/
theorem abortAll_cases (s : Sys T D V) (hit : T → Txn D V → Bool) (t : T) :
    ((s.abortAll hit).pc t = s.pc t ∧ (s.abortAll hit).txn t = s.txn t ∧
        ∀ x, s.txn t = some x → hit t x = false) ∨
      ∃ x, s.txn t = some x ∧ hit t x = true ∧ (s.abortAll hit).txn t = none ∧
        (s.abortAll hit).pc t = .aborted x.failures := by
  simp only [Sys.abortAll]
  cases hx : s.txn t with
  | none => simp
  | some x => cases hh : hit t x <;> simp [hh]

theorem abortAll_holds (h : LockInv v s) (hit : T → Txn D V → Bool) (t : T) :
    ((s.abortAll hit).pc t).holds = (s.pc t).holds := by
  rcases abortAll_cases s hit t with ⟨hp, -, -⟩ | ⟨x, hx, -, -, hp⟩
  · rw [hp]
  · rw [hp]
    exact ((hx ▸ h.thread t : Local v _ (s.pc t) (some x) _).no_hold).symm

theorem LockInv.abortAll (h : LockInv v s) (hit : T → Txn D V → Bool) :
    LockInv v (s.abortAll hit) := by
  refine ⟨h.word, ?_, ?_, ?_⟩
  · intro t
    have hl := h.thread t
    change Local v s.mutex.lockWord ((s.abortAll hit).pc t) ((s.abortAll hit).txn t) (s.trace t)
    rcases abortAll_cases s hit t with ⟨hp, hx, -⟩ | ⟨x, hx, -, hn, hp⟩
    · rw [hp, hx]
      exact hl
    · rw [hx] at hl
      rw [hp, hn, hl.no_trace hl.no_hold]
      exact .quiet rfl (by simp)
  · intro hne
    obtain ⟨t, ht⟩ := h.held hne
    exact ⟨t, by rw [abortAll_holds h, ht]⟩
  · intro t u ht hu
    rw [abortAll_holds h] at ht hu
    exact h.unique t u ht hu

/-- While the holder is known to the open transactions, noting it again changes nothing. -/
theorem LockInv.noteOverlap (h : LockInv v s) : s.noteOverlap = s := by
  have htxn : (fun u => (s.txn u).map fun x =>
      { x with overlap := x.overlap || s.mutex.lockWord != 0 }) = s.txn := by
    funext u
    cases hx : s.txn u with
    | none => rfl
    | some x =>
      have ho := (h.thread u).overlap x hx
      by_cases hw : s.mutex.lockWord = 0
      · simp [hw]
      · have := ho hw
        simp only [Option.map_some, Option.some.injEq]
        rw [this, Bool.true_or, ← this]
  simp only [Sys.noteOverlap, htxn]

theorem LockInv.txn_none (h : LockInv v s) {t : T} (h₁ : s.pc t ≠ .started)
    (h₂ : s.pc t ≠ .speculative) : s.txn t = none := by
  cases hx : s.txn t with
  | none => rfl
  | some x =>
    rcases (h.thread t).txn_pc x hx with hp | hp
    · exact (h₁ hp).elim
    · exact (h₂ hp).elim

theorem noteOverlap_free (hw : s.mutex.lockWord = 0) : s.noteOverlap = s := by
  have htxn : (fun u => (s.txn u).map fun x =>
      { x with overlap := x.overlap || s.mutex.lockWord != 0 }) = s.txn := by
    funext u
    cases s.txn u <;> simp [hw]
  simp only [Sys.noteOverlap, htxn]

theorem LockInv.setMutex (h : LockInv v s) {m : IbMutex} (hw : m.lockWord = s.mutex.lockWord) :
    LockInv v { s with mutex := m } :=
  ⟨hw ▸ h.word, hw ▸ h.thread, hw ▸ h.held, h.unique⟩

theorem LockInv.runInstr_eq (h : LockInv v s) {m : IbMutex} (hit : T → Txn D V → Bool)
    (hw : m.lockWord = s.mutex.lockWord) :
    ({ s with mutex := m }.abortAll hit).noteOverlap = { s with mutex := m }.abortAll hit :=
  ((h.setMutex hw).abortAll hit).noteOverlap

/-- The state between an operation and the move of its thread: the lock word is as before. -/
theorem LockInv.runInstr (h : LockInv v s) {t : T} {m : IbMutex} (hit : T → Txn D V → Bool)
    (hw : m.lockWord = s.mutex.lockWord) (hx : s.txn t = none) :
    LockInv v (({ s with mutex := m }.abortAll hit).noteOverlap) ∧
      (({ s with mutex := m }.abortAll hit).noteOverlap).txn t = none ∧
      (({ s with mutex := m }.abortAll hit).noteOverlap).pc t = s.pc t := by
  rw [h.runInstr_eq hit hw]
  refine ⟨(h.setMutex hw).abortAll hit, ?_, ?_⟩ <;> simp [Sys.abortAll, hx]

/-- Another thread, when the lock word has just been written by `t`. -/
theorem noteOverlap_cases (s : Sys T D V) (hit : T → Txn D V → Bool) (u : T) :
    ((s.abortAll hit).noteOverlap.pc u = s.pc u ∧ s.txn u = none ∧
        (s.abortAll hit).noteOverlap.txn u = none) ∨
      (∃ x, s.txn u = some x ∧ hit u x = false ∧ (s.abortAll hit).noteOverlap.pc u = s.pc u ∧
        (s.abortAll hit).noteOverlap.txn u =
          some { x with overlap := x.overlap || s.mutex.lockWord != 0 }) ∨
      ∃ n, (s.abortAll hit).noteOverlap.pc u = .aborted n ∧
        (s.abortAll hit).noteOverlap.txn u = none := by
  have hpc : (s.abortAll hit).noteOverlap.pc u = (s.abortAll hit).pc u := rfl
  have htxn : (s.abortAll hit).noteOverlap.txn u = ((s.abortAll hit).txn u).map fun x =>
      { x with overlap := x.overlap || s.mutex.lockWord != 0 } := rfl
  rw [hpc, htxn]
  rcases abortAll_cases s hit u with ⟨hp, hx, hmiss⟩ | ⟨x, -, -, hx, hp⟩
  · rw [hp, hx]
    cases hxu : s.txn u with
    | none => exact Or.inl ⟨rfl, rfl, rfl⟩
    | some x => exact Or.inr (Or.inl ⟨x, rfl, hmiss x hxu, rfl, rfl⟩)
  · rw [hp, hx]
    exact Or.inr (Or.inr ⟨_, rfl, rfl⟩)

/-! ## The step lemma, action by action -/

variable [DecidableEq T]

/-- A thread outside transactions moves to another point of the code. -/
theorem LockInv.setPc (h : LockInv v s) {t : T} {p : Pc} (hx : s.txn t = none)
    (hp : p.holds = (s.pc t).holds) (ht : ∀ q, p = .exitTail q → q.inTail = true) :
    LockInv v (s.setPc t p) := by
  have hl := h.thread t
  have hpc : (s.setPc t p).pc t = p := by simp [Sys.setPc]
  rw [hx] at hl
  refine h.move t rfl (fun u hu => by simp [Sys.setPc, hu]) (fun _ _ => rfl) (fun _ _ => rfl) ?_
    (by rw [hpc, hp])
  change Local v s.mutex.lockWord ((s.setPc t p).pc t) (s.txn t) (s.trace t)
  rw [hpc, hx]
  exact ⟨by simp, fun hh => hl.holds (hp ▸ hh), fun hh => hl.no_trace (hp ▸ hh), by simp,
    by simp, ht, by simp⟩

/-- A thread with a transaction, or with none before and after, moves outside the sections. -/
theorem LockInv.setPc_setTxn (h : LockInv v s) {t : T} {p : Pc} {x : Option (Txn D V)}
    (hold : (s.pc t).holds = false) (hp : p.holds = false)
    (hl : Local v s.mutex.lockWord p x []) : LockInv v ((s.setPc t p).setTxn t x) := by
  have hpc : ((s.setPc t p).setTxn t x).pc t = p := by simp [Sys.setPc, Sys.setTxn]
  have hx : ((s.setPc t p).setTxn t x).txn t = x := by simp [Sys.setTxn]
  refine h.move t rfl (fun u hu => by simp [Sys.setPc, Sys.setTxn, hu])
    (fun u hu => by simp [Sys.setPc, Sys.setTxn, hu]) (fun _ _ => rfl) ?_ (by rw [hpc, hp, hold])
  rw [hpc, hx]
  change Local v s.mutex.lockWord p x (s.trace t)
  rw [(h.thread t).no_trace hold]
  exact hl

theorem LockInv.begin (h : LockInv v s) {t : T} {n : Nat} (hp : s.pc t = .xbegin n) :
    LockInv v (s.begin v t n) := by
  have hout : (s.pc t).holds = false := by rw [hp]; rfl
  unfold Sys.begin
  split
  · rename_i hv
    refine h.setPc_setTxn hout rfl ⟨by simp, by simp [Pc.holds], by simp, ?_, by simp, by simp, ?_⟩
    · rintro y ⟨⟩ hw
      simpa using hw
    · simp
  · rename_i hv
    refine h.setPc_setTxn hout rfl ⟨by simp, by simp [Pc.holds], by simp, ?_, by simp, by simp, ?_⟩
    · rintro y ⟨⟩ hw
      simpa using hw
    · exact fun hv' => (hv hv').elim

theorem LockInv.checkLockWord (h : LockInv v s) {t : T} {x : Txn D V} (hp : s.pc t = .started)
    (hw : s.mutex.lockWord = 0) :
    LockInv v ((s.setPc t .speculative).setTxn t
      (some { x with readsLockWord := true, overlap := false })) := by
  refine h.setPc_setTxn (by rw [hp]; rfl) rfl
    ⟨by simp, by simp [Pc.holds], by simp, ?_, ?_, by simp, ?_⟩
  · exact fun _ _ hne => (hne hw).elim
  · rintro y ⟨⟩ _
    rfl
  · rintro _ _ y ⟨⟩
    rfl

/-- The thread whose transaction is rolled back continues after `_xbegin`. -/
theorem LockInv.rollback (h : LockInv v s) {t : T} {x : Txn D V} (hx : s.txn t = some x) :
    LockInv v ((s.setPc t (.aborted x.failures)).setTxn t none) := by
  have hl := h.thread t
  rw [hx] at hl
  exact h.setPc_setTxn hl.no_hold rfl (.quiet rfl (by simp))

/-! ### An operation of the mutex code -/

omit [DecidableEq T] in
/-- Another thread, outside the section, when an operation has left the mutex as `m`: if the mutex
is set then, no transaction that goes on has read the lock word. -/
theorem LockInv.bystander (h : LockInv v s) {m : IbMutex} {hit : T → Txn D V → Bool} {u : T}
    (hout : (s.pc u).holds = false)
    (hmiss : ∀ x, hit u x = false → m.lockWord ≠ 0 → x.readsLockWord = false) :
    ((({ s with mutex := m }.abortAll hit).noteOverlap).pc u).holds = false ∧
      Local v m.lockWord ((({ s with mutex := m }.abortAll hit).noteOverlap).pc u)
        ((({ s with mutex := m }.abortAll hit).noteOverlap).txn u) (s.trace u) := by
  have hl := h.thread u
  rcases noteOverlap_cases { s with mutex := m } hit u with
    ⟨hp, hxu, hx'⟩ | ⟨x, hxu, hno, hp, hx'⟩ | ⟨n, hp, hx'⟩
  · rw [hp, hx', hl.no_trace hout]
    exact ⟨hout, .quiet hout hl.tail⟩
  · change s.txn u = some x at hxu
    rw [hp, hx', hl.no_trace hout]
    rw [hxu] at hl
    refine ⟨hout, fun _ _ => hl.txn_pc x rfl, by simp [hout], by simp, ?_, ?_, hl.tail, ?_⟩
    · rintro y ⟨⟩ hw
      simp [hw]
    · rintro y ⟨⟩ hy
      have hw : m.lockWord = 0 := by
        by_contra hne
        have hread : x.readsLockWord = true := hy
        rw [hmiss x hno hne] at hread
        cases hread
      simpa [hw] using hl.reads x rfl hy
    · rintro hv hs y ⟨⟩
      exact hl.checked hv hs x rfl
  · rw [hp, hx', hl.no_trace hout]
    exact ⟨rfl, .quiet rfl (by simp)⟩

/-- Thread `t` takes the mutex: what survives has not read the lock word and knows the holder. -/
theorem LockInv.acquire (h : LockInv v s) {t : T} {m : IbMutex} {i : Instr MutexPc}
    {call : Call} (hx : s.txn t = none) (hout : (s.pc t).holds = false)
    (h₀ : s.mutex.lockWord = 0) (h₁ : m.lockWord = 1) (hi : i.writesLockWord = true) :
    LockInv v ((({ s with mutex := m }.abortAll (runHit t i)).noteOverlap).setPc t
      (.mutex call .owner)) := by
  set s₁ := ({ s with mutex := m }.abortAll (runHit t i)).noteOverlap with hs₁
  have hword : s₁.mutex.lockWord = m.lockWord := rfl
  have hnone : ∀ u, (s.pc u).holds = false := by
    intro u
    cases hu : (s.pc u).holds with
    | false => rfl
    | true =>
      have := (h.thread u).holds hu
      omega
  have hother : ∀ u, u ≠ t → (s₁.pc u).holds = false ∧
      Local v m.lockWord (s₁.pc u) (s₁.txn u) (s.trace u) := by
    intro u hu
    apply h.bystander (hnone u)
    intro x hno _
    simpa [runHit, hu, hi] using hno
  have hpc : ∀ u, u ≠ t → (s₁.setPc t (.mutex call .owner)).pc u = s₁.pc u := by
    intro u hu
    simp [Sys.setPc, hu]
  have hpct : (s₁.setPc t (.mutex call .owner)).pc t = .mutex call .owner := by simp [Sys.setPc]
  have htxn : s₁.txn t = none := by simp [hs₁, Sys.noteOverlap, Sys.abortAll, hx]
  refine ⟨Or.inr h₁, ?_, fun _ => ⟨t, by rw [hpct]; rfl⟩, ?_⟩
  · intro u
    change Local v s₁.mutex.lockWord _ (s₁.txn u) (s.trace u)
    rw [hword]
    by_cases hu : u = t
    · subst hu
      rw [hpct, htxn, (h.thread u).no_trace hout]
      exact ⟨by simp, fun _ => h₁, fun _ => rfl, by simp, by simp, by simp, by simp⟩
    · rw [hpc u hu]
      exact (hother u hu).2
  · have honly : ∀ u, ((s₁.setPc t (.mutex call .owner)).pc u).holds = true → u = t := by
      intro u hu
      by_contra hne
      rw [hpc u hne, (hother u hne).1] at hu
      cases hu
    exact fun u₁ u₂ hu₁ hu₂ => (honly u₁ hu₁).trans (honly u₂ hu₂).symm

/-- The holder resets the lock word. -/
theorem LockInv.release (h : LockInv v s) {t : T} {m : IbMutex} {call : Call} {s₁ : Sys T D V}
    (hit : T → Txn D V → Bool) (hp : s.pc t = .mutex call .reset) (hm : m.lockWord = 0)
    (hs₁ : s₁ = ({ s with mutex := m }.abortAll hit).noteOverlap)
    (log : List (T × List (Ev D V))) :
    LockInv v { s₁.setPc t (.mutex call .released) with
      trace := Function.update s.trace t []
      log := log } := by
  have hword : s₁.mutex.lockWord = m.lockWord := by rw [hs₁]; rfl
  have hhold : (s.pc t).holds = true := by rw [hp]; rfl
  have hx : s.txn t = none := h.txn_none (by simp [hp]) (by simp [hp])
  have htxn : s₁.txn t = none := by simp [hs₁, Sys.noteOverlap, Sys.abortAll, hx]
  have hother : ∀ u, u ≠ t → (s₁.pc u).holds = false ∧
      Local v m.lockWord (s₁.pc u) (s₁.txn u) (s.trace u) := by
    intro u hu
    rw [hs₁]
    apply h.bystander
    · cases hh : (s.pc u).holds with
      | false => rfl
      | true => exact (hu (h.unique u t hh hhold)).elim
    · exact fun _ _ hne => (hne hm).elim
  have hpc : ∀ u, u ≠ t → (s₁.setPc t (.mutex call .released)).pc u = s₁.pc u := by
    intro u hu
    simp [Sys.setPc, hu]
  have hpct : (s₁.setPc t (.mutex call .released)).pc t = .mutex call .released := by
    simp [Sys.setPc]
  have hnone : ∀ u, ((s₁.setPc t (.mutex call .released)).pc u).holds = false := by
    intro u
    by_cases hu : u = t
    · rw [hu, hpct]
      rfl
    · rw [hpc u hu]
      exact (hother u hu).1
  refine ⟨Or.inl (hword.trans hm), ?_, fun hne => (hne (hword.trans hm)).elim, ?_⟩
  · intro u
    change Local v s₁.mutex.lockWord ((s₁.setPc t (.mutex call .released)).pc u) (s₁.txn u)
      (Function.update s.trace t [] u)
    rw [hword]
    by_cases hu : u = t
    · rw [hu, hpct, htxn, Function.update_self]
      exact .quiet rfl (by simp)
    · rw [hpc u hu, Function.update_of_ne hu]
      exact (hother u hu).2
  · intro u₁ u₂ hu₁
    have := hnone u₁
    change ((s₁.setPc t (.mutex call .released)).pc u₁).holds = true at hu₁
    rw [this] at hu₁
    cases hu₁

/-- What an operation of the mutex code comes to. -/
theorem run_cases {rounds : Nat} {t : T} (hs : s.run rounds t = some s') :
    (∃ call p i m p', s.pc t = .mutex call p ∧ code false rounds p = some i ∧
        s.mutex.exec i = some (m, p') ∧
        s' = if p = .reset then
            { (({ s with mutex := m }.abortAll (runHit t i)).noteOverlap).setPc t
                (afterMutex call p') with
              trace := Function.update s.trace t []
              log := s.log ++ [(t, s.trace t)] }
          else (({ s with mutex := m }.abortAll (runHit t i)).noteOverlap).setPc t
            (afterMutex call p')) ∨
      ∃ p i m p', s.pc t = .exitTail p ∧ code false rounds p = some i ∧
        s.mutex.exec i = some (m, p') ∧
        s' = (({ s with mutex := m }.abortAll (runHit t i)).noteOverlap).setPc t (afterTail p') := by
  unfold Sys.run at hs
  split at hs
  · rename_i call p hp
    simp only [Option.bind_eq_some_iff, Option.map_eq_some_iff, Sys.runInstr] at hs
    obtain ⟨i, hi, -, ⟨⟨m, p'⟩, he, rfl⟩, rfl⟩ := hs
    exact Or.inl ⟨call, p, i, m, p', hp, hi, he, rfl⟩
  · rename_i p hp
    simp only [Option.bind_eq_some_iff, Option.map_eq_some_iff, Sys.runInstr] at hs
    obtain ⟨i, hi, -, ⟨⟨m, p'⟩, he, rfl⟩, rfl⟩ := hs
    exact Or.inr ⟨p, i, m, p', hp, hi, he, rfl⟩
  · cases hs

theorem holds_afterMutex (call : Call) (p : MutexPc) :
    (afterMutex call p).holds = p.holds := by
  cases call <;> cases p <;> rfl

theorem tail_afterMutex {call : Call} {p q : MutexPc} (h : afterMutex call p = .exitTail q) :
    q.inTail = true := by
  cases p <;> cases call
  all_goals first | (cases h; rfl) | cases h

theorem LockInv.run (h : LockInv v s) {rounds : Nat} {t : T} (hs : s.run rounds t = some s') :
    LockInv v s' := by
  rcases run_cases hs with ⟨call, p, i, m, p', hp, hi, he, rfl⟩ | ⟨p, i, m, p', hp, hi, he, rfl⟩
  · have hx : s.txn t = none := h.txn_none (by simp [hp]) (by simp [hp])
    have hhold : (s.pc t).holds = p.holds := by rw [hp]; rfl
    rcases exec_word h.word hi he with ⟨hw, hh, hne⟩ | ⟨h₀, h₁, hout, -, rfl, hwr⟩ | ⟨rfl, h₁, rfl⟩
    · obtain ⟨h', hx', hp'⟩ := h.runInstr (runHit t i) hw hx
      rw [if_neg hne]
      refine h'.setPc hx' ?_ fun q hq => tail_afterMutex hq
      rw [hp', hhold, holds_afterMutex, hh]
    · have hne : p ≠ .reset := by
        rintro rfl
        cases hout
      rw [if_neg hne]
      cases call <;> exact h.acquire hx (hhold.trans hout) h₀ h₁ hwr
    · rw [if_pos rfl]
      cases call <;> exact h.release (runHit t i) hp h₁ rfl _
  · have hx : s.txn t = none := h.txn_none (by simp [hp]) (by simp [hp])
    obtain ⟨hw, htail⟩ := exec_tail ((h.thread t).tail p hp) hi he
    obtain ⟨h', hx', hp'⟩ := h.runInstr (runHit t i) hw hx
    refine h'.setPc hx' ?_ ?_
    · rw [hp', hp]
      cases p' <;> rfl
    · intro q hq
      cases p' <;> cases hq <;> exact htail

variable [DecidableEq D]

theorem LockInv.access (h : LockInv v s) {t : T} {e : (D → V) → Ev D V}
    (hs : s.access t e = some s') : LockInv v s' := by
  unfold Sys.access at hs
  split at hs
  · rename_i x hp hx
    cases hs
    set hit := hitBy t (e (publish s.data x.trace))
    have hl := h.thread t
    have hpc : (s.abortAll hit).pc t = s.pc t := by
      simp [Sys.abortAll, hx, hit, hitBy]
    refine (h.abortAll hit).move t rfl (fun _ _ => rfl) (fun u hu => by simp [Sys.setTxn, hu])
      (fun _ _ => rfl) ?_ rfl
    simp only [Sys.setTxn, Function.update_self]
    change Local v s.mutex.lockWord ((s.abortAll hit).pc t) _ (s.trace t)
    rw [hpc]
    rw [hx] at hl
    refine ⟨fun _ _ => hl.txn_pc x rfl, hl.holds, hl.no_trace, ?_, ?_, hl.tail, ?_⟩
    · rintro y ⟨⟩
      exact hl.overlap x rfl
    · rintro y ⟨⟩
      exact hl.reads x rfl
    · rintro hv hp' y ⟨⟩
      exact hl.checked hv hp' x rfl
  · rename_i call hp hx
    cases hs
    set hit := hitBy t (e s.data)
    have hl := h.thread t
    have hpc : (s.abortAll hit).pc t = s.pc t := by simp [Sys.abortAll, hx]
    have hxn : (s.abortAll hit).txn t = none := by simp [Sys.abortAll, hx]
    refine (h.abortAll hit).move t rfl (fun _ _ => rfl) (fun _ _ => rfl)
      (fun u hu => by simp [Sys.abortAll, hu]) ?_ rfl
    change Local v s.mutex.lockWord ((s.abortAll hit).pc t) ((s.abortAll hit).txn t) _
    rw [hpc, hxn]
    rw [hx] at hl
    refine ⟨by simp, hl.holds, ?_, by simp, by simp, hl.tail, by simp⟩
    rw [hp]
    exact fun hh => (Bool.noConfusion hh)
  · cases hs

theorem LockInv.exit (h : LockInv v s) {t : T} (hs : s.exit t = some s') : LockInv v s' := by
  unfold Sys.exit at hs
  split at hs
  · rename_i x hp hx
    cases hs
    have hl : LockInv v ((s.setPc t (.exitTail .released)).setTxn t none) :=
      h.setPc_setTxn (by rw [hp]; rfl) rfl (.quiet rfl (by rintro q ⟨⟩; rfl))
    exact ⟨hl.word, hl.thread, hl.held, hl.unique⟩
  · rename_i call hp hx
    cases hs
    exact h.setPc hx (by rw [hp]; rfl) (by simp)
  · cases hs

theorem LockInv.step (h : LockInv v s) {rounds : Nat} {a : Act T D V}
    (hs : step v rounds s a = some s') : LockInv v s' := by
  cases a with
  | enter t call =>
    simp only [Rtm.step] at hs
    split at hs
    · rename_i hp
      cases hs
      refine h.setPc (h.txn_none (by simp [hp]) (by simp [hp])) ?_ ?_
      · rw [hp]
        cases call <;> rfl
      · cases call <;> simp
    · cases hs
  | xbegin t started =>
    simp only [Rtm.step] at hs
    split at hs
    · rename_i n hp
      cases hs
      split
      · exact h.begin hp
      · exact h.setPc (h.txn_none (by simp [hp]) (by simp [hp])) (by rw [hp]; rfl) (by simp)
    · cases hs
  | retry t =>
    simp only [Rtm.step] at hs
    split at hs
    · rename_i n hp
      cases hs
      refine h.setPc (h.txn_none (by simp [hp]) (by simp [hp])) ?_ ?_ <;> unfold retryRtmLock
      · rw [hp]
        split <;> rfl
      · split <;> simp
    · cases hs
  | checkLockWord t =>
    simp only [Rtm.step] at hs
    split at hs
    · rename_i x hp hx
      split at hs
      · cases hs
        exact h.rollback hx
      · rename_i hw
        cases hs
        exact h.checkLockWord hp (not_not.mp hw)
    · cases hs
  | load t d | store t d w =>
    simp only [Rtm.step] at hs
    exact h.access hs
  | exit t => exact h.exit hs
  | abort t =>
    simp only [Rtm.step, Option.map_eq_some_iff] at hs
    obtain ⟨x, hx, rfl⟩ := hs
    exact h.rollback hx
  | run t => exact h.run hs

theorem reach_lockInv {rounds : Nat} {data₀ : D → V} {ok : Sys T D V → Act T D V → Prop}
    (h : Run.Reach (Rtm.step v rounds) (· = init data₀) ok s) : LockInv v s := by
  refine h.invariant ?_ fun s a s' hs _ hstep => hs.step hstep
  rintro _ rfl
  exact lockInv_init v data₀

end Htmsql.Rtm
