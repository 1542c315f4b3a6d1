import Htmsql.Innodb.Holder
import Htmsql.Lib.Run
import Htmsql.Lib.Speculation

/-!
# An HLE lock that may be elided

Sections guarded by `hle_exch_lock_spec` and `hle_exch_unlock_spec`, or by the busy variant, on one
word, for any number of threads; `hle_lock` and `hle_unlock` of `mysql-5.6.10-syslock` are the same
code as the former. The hardware either executes the XACQUIRE exchange or elides it: the thread is
then inside a transaction that has the word in its read set, it goes on with the value that the
exchange would have given back, and the word stays as it is. Any write of the word aborts the
transaction, also one that does not change it. An aborted section starts again with an exchange
that is executed. `_mm_pause` aborts a transaction; the XRELEASE store commits it, provided it
restores the word, which is 0 then.

The memory and the open sections are a state of `Htmsql.Elision`. The flag of a transaction says
that its elided exchange has found the word set.
-/

namespace Htmsql.Hle.Elided

open Elision Trace
open Innodb (Held)
open Run (Reach exec exec_result)

/-- Which functions guard the section. -/
inductive Lock where
  | spec
  | busy
  deriving DecidableEq, Repr

/-- The points of the lock functions with the XACQUIRE prefix. -/
inductive Pc where
  | outside
  /-- before the exchange, which is not elided after an abort -/
  | exchange (k : Lock) (executed : Bool)
  /-- the exchange gave 1 back; before `_mm_pause()` -/
  | pause (k : Lock)
  /-- before `__atomic_load` -/
  | load
  | inside (k : Lock)
  deriving DecidableEq, Repr

/-- The lock word as it is in memory, the point of each thread, and the protected data with what
each thread does to it. -/
structure Sys (T D V : Type) where
  word : Nat
  pc : T → Pc
  shared : State T D V

/-- What happens next: a lock or unlock, a step of the loop, an access to the data, or an abort by
the hardware. -/
inductive Act (T D V : Type) where
  | lock (t : T) (k : Lock)
  | exchange (t : T) (elided : Bool)
  /-- the next step of the waiting loop -/
  | wait (t : T)
  | load (t : T) (d : D)
  | store (t : T) (d : D) (v : V)
  | unlock (t : T)
  /-- the hardware aborts the transaction -/
  | abort (t : T)

/-- Where a thread continues whose transaction is aborted. -/
def Pc.restart : Pc → Pc
  | pause k | inside k => .exchange k true
  | p => p

variable {T D V : Type}

/-- The thread that takes the step. -/
def Act.thread : Act T D V → T
  | .lock t _ | .exchange t _ | .wait t | .load t _ | .store t _ _ | .unlock t | .abort t => t

/-- The transactions that `hit` says are aborted. -/
def Sys.rollback (s : Sys T D V) (hit : T → List (Ev D V) → Bool) : Sys T D V :=
  { s with
    pc := fun t => if (s.shared.txn t).any (hit t) then (s.pc t).restart else s.pc t
    shared := s.shared.rollback hit }

section

variable [DecidableEq T] [DecidableEq D]

/-- The thread goes on to another point. -/
def Sys.setPc (s : Sys T D V) (t : T) (p : Pc) : Sys T D V :=
  { s with pc := Function.update s.pc t p }

/-- The word is in the read set of every transaction; a write of `t` aborts those of the others. -/
def Sys.setWord (s : Sys T D V) (t : T) (w : Nat) : Sys T D V :=
  { s.rollback (fun u _ => decide (u ≠ t)) with word := w }

/-- Where the exchange leads that gives `old` back. -/
def afterExchange (k : Lock) (old : Nat) : Pc := if old ≠ 0 then .pause k else .inside k

/-- The XACQUIRE exchange, elided. -/
def Sys.elide (s : Sys T D V) (t : T) (k : Lock) : Sys T D V :=
  { s.setPc t (afterExchange k s.word) with
    shared := s.shared.setStatus t (.speculating [] (decide (s.word ≠ 0))) }

/-- The XACQUIRE exchange, executed. -/
def Sys.take (s : Sys T D V) (t : T) (k : Lock) : Sys T D V :=
  let s₁ := (s.setWord t 1).setPc t (afterExchange k s.word)
  if s.word ≠ 0 then s₁ else { s₁ with shared := s₁.shared.setStatus t (.holding []) }

/-- A step of the waiting loop. A speculation that comes to `_mm_pause()` is aborted; otherwise
the busy version tries the exchange again, the other one once it has seen the word at 0. -/
def Sys.wait (s : Sys T D V) (t : T) : Option (Sys T D V) :=
  match s.pc t, s.shared.status t with
  | .pause k, .speculating _ _ =>
    -- "Abort speculation"
    some { s.setPc t (.exchange k true) with shared := s.shared.setStatus t .outside }
  | .pause .spec, _ => some (s.setPc t .load)
  | .pause .busy, _ => some (s.setPc t (.exchange .busy false))
  | .load, _ => some (s.setPc t (if s.word = 1 then .pause .spec else .exchange .spec false))
  | _, _ => none

/-- An access to shared data; the transactions that it conflicts with are aborted. -/
def Sys.access (s : Sys T D V) (t : T) (e : (D → V) → Ev D V) : Option (Sys T D V) :=
  match s.pc t, s.shared.access t e with
  | .inside _, some shared =>
    let e := e (publish s.shared.data ((s.shared.txn t).getD []))
    some { s.rollback (conflicting t e) with shared := shared }
  | _, _ => none

/-- `__hle_release_clear4` -/
def Sys.unlock (s : Sys T D V) (t : T) : Option (Sys T D V) :=
  match s.pc t, s.shared.status t with
  | .inside k, .speculating tr b =>
    if b then
      -- the store does not restore the word
      some { s.setPc t (.exchange k true) with shared := s.shared.setStatus t .outside }
    else
      some { s.setPc t .outside with
        shared := { s.shared.setStatus t .outside with
          data := publish s.shared.data tr
          log := s.shared.log ++ [(t, tr)] } }
  | .inside _, .holding tr =>
    let s₁ := (s.setWord t 0).setPc t .outside
    some { s₁ with
      shared := { s₁.shared.setStatus t .outside with log := s₁.shared.log ++ [(t, tr)] } }
  | _, _ => none

/-- One step of the machine, `none` where the action is not possible. An exchange that follows an
abort is executed. -/
def step (s : Sys T D V) : Act T D V → Option (Sys T D V)
  | .lock t k => if s.pc t = .outside then some (s.setPc t (.exchange k false)) else none
  | .exchange t elided =>
    match s.pc t with
    | .exchange k executed =>
      if elided then if executed then none else some (s.elide t k) else some (s.take t k)
    | _ => none
  | .wait t => s.wait t
  | .load t d => s.access t fun m => .rd d (m d)
  | .store t d v => s.access t fun _ => .wr d v
  | .unlock t => s.unlock t
  | .abort t =>
    (s.shared.txn t).map fun _ =>
      { s.setPc t (s.pc t).restart with shared := s.shared.setStatus t .outside }

/-- The lock is free, and no thread is in a section. -/
def init (data : D → V) : Sys T D V := ⟨0, fun _ => .outside, ⟨data, fun _ => .outside, []⟩⟩

end

/-! ## What the word says of the threads -/

/-- The status of a thread at a point of the code. -/
inductive Local (word : Nat) : Pc → Status D V → Prop where
  | outside : Local word .outside .outside
  | exchange (k : Lock) (executed : Bool) : Local word (.exchange k executed) .outside
  | pause (k : Lock) : Local word (.pause k) .outside
  | load : Local word .load .outside
  | holding (k : Lock) (tr : List (Ev D V)) : Local word (.inside k) (.holding tr)
  | elided (k : Lock) (tr : List (Ev D V)) (h : word = 0) :
      Local word (.inside k) (.speculating tr false)
  | sawSet (k : Lock) (tr : List (Ev D V)) : Local word (.pause k) (.speculating tr true)

/-- The thread has really taken the lock. -/
def holds (st : Status D V) : Bool :=
  match st with
  | .holding _ => true
  | _ => false

/-- The lock word is 1 exactly while a thread really has the lock, and the point of each thread
fits what it does. -/
structure LockInv (s : Sys T D V) : Prop where
  word : Held s.word fun t => holds (s.shared.status t)
  thread : ∀ t, Local s.word (s.pc t) (s.shared.status t)

/-- What the step of another thread does to `u`: nothing, or its transaction is rolled back, which
it must be when the word is written. -/
inductive Beside (s s' : Sys T D V) (u : T) : Prop where
  | kept (hp : s'.pc u = s.pc u) (hst : s'.shared.status u = s.shared.status u)
      (hw : s'.word = s.word ∨ ∀ tr b, s.shared.status u ≠ .speculating tr b)
  | rolledBack (tr : List (Ev D V)) (b : Bool) (h : s.shared.status u = .speculating tr b)
      (hp : s'.pc u = (s.pc u).restart) (hst : s'.shared.status u = .outside)

theorem holds_iff {st : Status D V} : holds st = true ↔ ∃ tr, st = .holding tr := by
  cases st <;> simp [holds]

theorem txn_eq_some {s : State T D V} {t : T} {tr : List (Ev D V)} :
    s.txn t = some tr ↔ ∃ b, s.status t = .speculating tr b := by
  unfold State.txn
  cases s.status t <;> simp

theorem Local.restart {word : Nat} {p : Pc} {tr : List (Ev D V)} {b : Bool}
    (h : Local word p (.speculating tr b)) (word' : Nat) :
    ∃ k, p.restart = .exchange k true ∧ Local word' p.restart (.outside : Status D V) := by
  cases h with
  | elided k tr h => exact ⟨k, rfl, .exchange k true⟩
  | sawSet k tr => exact ⟨k, rfl, .exchange k true⟩

theorem Local.of_not_speculating {word word' : Nat} {p : Pc} {st : Status D V}
    (h : Local word p st) (hst : ∀ tr b, st ≠ .speculating tr b) : Local word' p st := by
  cases h with
  | outside => exact .outside
  | exchange k e => exact .exchange k e
  | pause k => exact .pause k
  | load => exact .load
  | holding k tr => exact .holding k tr
  | elided k tr h => exact (hst tr false rfl).elim
  | sawSet k tr => exact (hst tr true rfl).elim

theorem Local.beside {s s' : Sys T D V} {u : T} (h : Local s.word (s.pc u) (s.shared.status u))
    (hb : Beside s s' u) : Local s'.word (s'.pc u) (s'.shared.status u) := by
  cases hb with
  | kept hp hst hw =>
    rw [hp, hst]
    rcases hw with hw | hw
    · exact hw ▸ h
    · exact h.of_not_speculating hw
  | rolledBack tr b hold hp hst =>
    rw [hold] at h
    obtain ⟨-, -, hl⟩ := h.restart s'.word
    rw [hp, hst]
    exact hl

theorem Beside.holds {s s' : Sys T D V} {u : T} (hb : Beside s s' u) :
    holds (s'.shared.status u) = holds (s.shared.status u) := by
  cases hb with
  | kept hp hst hw => rw [hst]
  | rolledBack tr b hold hp hst =>
    rw [hold, hst]
    rfl

/-- Rolling back, as each thread sees it. -/
theorem beside_rollback (s : Sys T D V) (hit : T → List (Ev D V) → Bool) (u : T) :
    Beside s (s.rollback hit) u := by
  rcases rollback_cases s.shared hit u with ⟨heq, hmiss⟩ | ⟨heq, tr, b, hold, hhit⟩
  · refine .kept ?_ heq (Or.inl rfl)
    refine if_neg fun hany => ?_
    obtain ⟨tr, htr, hhit⟩ := (Option.any_eq_true _ _).mp hany
    obtain ⟨b, hb⟩ := txn_eq_some.mp htr
    rw [hmiss tr b hb] at hhit
    cases hhit
  · refine .rolledBack tr b hold ?_ heq
    have htxn : s.shared.txn u = some tr := txn_eq_some.mpr ⟨b, hold⟩
    simp [Sys.rollback, htxn, hhit]

theorem Beside.congr {s s₁ s₂ : Sys T D V} {u : T} (h : Beside s s₁ u) (hp : s₂.pc u = s₁.pc u)
    (hst : s₂.shared.status u = s₁.shared.status u) (hw : s₂.word = s₁.word) :
    Beside s s₂ u := by
  cases h with
  | kept hp₁ hst₁ hw₁ => exact .kept (hp.trans hp₁) (hst.trans hst₁) (hw ▸ hw₁)
  | rolledBack tr b h hp₁ hst₁ => exact .rolledBack tr b h (hp.trans hp₁) (hst.trans hst₁)

/-- How a step of `t` changes the word. -/
inductive WordChange (s s' : Sys T D V) (t : T) : Prop where
  | kept (hw : s'.word = s.word) (hh : holds (s'.shared.status t) = holds (s.shared.status t))
  | taken (h₀ : s.word = 0) (h₁ : s'.word = 1) (hh : holds (s'.shared.status t) = true)
  | released (hold : holds (s.shared.status t) = true) (h₀ : s'.word = 0)
      (hh : holds (s'.shared.status t) = false)

variable [DecidableEq T] [DecidableEq D]

omit [DecidableEq D] in
theorem beside_setWord (s : Sys T D V) {t u : T} (hu : u ≠ t) (w : Nat) :
    Beside s (s.setWord t w) u := by
  cases beside_rollback s (fun v _ => decide (v ≠ t)) u with
  | kept hp hst hw =>
    refine .kept hp hst (Or.inr fun tr b hold => ?_)
    rw [hold] at hst
    simp [Sys.rollback, State.rollback, hold, hu] at hst
  | rolledBack tr b h hp hst => exact .rolledBack tr b h hp hst

/-- What a step of `t` does. -/
structure Move (s s' : Sys T D V) (t : T) : Prop where
  beside : ∀ u, u ≠ t → Beside s s' u
  self : Local s'.word (s'.pc t) (s'.shared.status t)
  word : WordChange s s' t
  steps : Steps s.shared s'.shared

/-- A step that changes the point of `t` only. -/
theorem move_setPc {s : Sys T D V} {t : T} {p : Pc} (h : Local s.word p (s.shared.status t)) :
    Move s (s.setPc t p) t where
  beside u hu := .kept (Function.update_of_ne hu _ _) rfl (Or.inl rfl)
  self := by
    change Local s.word (Function.update s.pc t p t) (s.shared.status t)
    rw [Function.update_self]
    exact h
  word := .kept rfl rfl
  steps := .refl

/-- A step that opens or ends a transaction of `t` beside the others. -/
theorem move_setStatus {s s' : Sys T D V} {t : T} {p : Pc} {st : Status D V}
    (hw : s'.word = s.word) (hp : s'.pc = Function.update s.pc t p)
    (hst : s'.shared.status = Function.update s.shared.status t st)
    (hl : Local s.word p st) (hh : holds st = holds (s.shared.status t))
    (hs : Steps s.shared s'.shared) : Move s s' t where
  beside u hu := by
    refine .kept ?_ ?_ (Or.inl hw)
    · rw [hp, Function.update_of_ne hu]
    · rw [hst, Function.update_of_ne hu]
  self := by
    rw [hw, hp, hst, Function.update_self, Function.update_self]
    exact hl
  word := by
    refine .kept hw ?_
    rw [hst, Function.update_self]
    exact hh
  steps := hs

/-- The transaction of `t` is rolled back. -/
theorem step_abort_self {s : State T D V} {t : T} {tr : List (Ev D V)} {b : Bool}
    (h : s.status t = .speculating tr b) : Step s (s.setStatus t .outside) := by
  refine .abort s _ fun u => ?_
  by_cases hu : u = t
  · subst hu
    exact Or.inr ⟨Function.update_self _ _ _, tr, b, h⟩
  · exact Or.inl (Function.update_of_ne hu _ _)

omit [DecidableEq T] [DecidableEq D] in
theorem LockInv.outside_of_exchange {s : Sys T D V} (h : LockInv s) {t : T} {k : Lock} {e : Bool}
    (hp : s.pc t = .exchange k e) : s.shared.status t = .outside := by
  have hl := h.thread t
  rw [hp] at hl
  generalize s.shared.status t = st at hl
  cases hl
  rfl

omit [DecidableEq T] [DecidableEq D] in
theorem LockInv.free {s : Sys T D V} (h : LockInv s) (hw : s.word = 0) : s.shared.Free := by
  intro t tr ht
  have := h.word.set t (holds_iff.mpr ⟨tr, ht⟩)
  omega

theorem move_elide {s : Sys T D V} (h : LockInv s) {t : T} {k : Lock} {e : Bool}
    (hp : s.pc t = .exchange k e) : Move s (s.elide t k) t := by
  have hout := h.outside_of_exchange hp
  refine move_setStatus rfl rfl rfl ?_ (by rw [hout]; rfl) (.single (.begin _ t _ hout ?_))
  · unfold afterExchange
    split
    · rename_i hw
      rw [decide_eq_true hw]
      exact .sawSet k []
    · rename_i hw
      rw [decide_eq_false hw]
      exact .elided k [] (not_not.mp hw)
  · intro hw
    exact h.free (not_not.mp (of_decide_eq_false hw))

omit [DecidableEq D] in
/-- The status of a thread that writes the word itself. -/
theorem status_setWord {s : Sys T D V} {t : T} (w : Nat) :
    (s.setWord t w).shared.status t = s.shared.status t := by
  rcases rollback_cases s.shared (fun u _ => decide (u ≠ t)) t with ⟨heq, -⟩ | ⟨-, tr, b, -, hh⟩
  · exact heq
  · simp at hh

omit [DecidableEq D] in
theorem not_speculating_setWord {s : Sys T D V} {t : T} {w : Nat}
    (ht : ∀ tr b, s.shared.status t ≠ .speculating tr b) (u : T) (tr : List (Ev D V)) (b : Bool) :
    (s.setWord t w).shared.status u ≠ .speculating tr b := by
  intro hu
  rcases rollback_cases s.shared (fun u _ => decide (u ≠ t)) u with
    ⟨heq, hmiss⟩ | ⟨heq, -⟩
  · have hold : s.shared.status u = .speculating tr b := heq.symm.trans hu
    have hut : u = t := by simpa using hmiss tr b hold
    exact ht tr b (hut ▸ hold)
  · cases heq.symm.trans hu

theorem move_take {s : Sys T D V} (h : LockInv s) {t : T} {k : Lock} {e : Bool}
    (hp : s.pc t = .exchange k e) : Move s (s.take t k) t := by
  have hout := h.outside_of_exchange hp
  have hroll : Step s.shared (s.setWord t 1).shared := step_rollback _ _
  unfold Sys.take
  dsimp only
  split
  · rename_i hw
    have h₁ : s.word = 1 := h.word.binary.resolve_left hw
    refine ⟨fun u hu => ?_, ?_, .kept h₁.symm ?_, .single hroll⟩
    · exact (beside_setWord s hu 1).congr (Function.update_of_ne hu _ _) rfl rfl
    · simp only [Sys.setPc, Function.update_self, status_setWord, hout, afterExchange, if_pos hw]
      exact .pause k
    · simp only [Sys.setPc, status_setWord]
  · rename_i hw
    have h₀ : s.word = 0 := not_not.mp hw
    refine ⟨fun u hu => ?_, ?_, .taken h₀ rfl ?_, .tail (.single hroll) (step_take ?_ ?_ ?_)⟩
    · exact (beside_setWord s hu 1).congr (Function.update_of_ne hu _ _)
        (Function.update_of_ne hu _ _) rfl
    · simp only [Sys.setPc, State.setStatus, Function.update_self, afterExchange, if_neg hw]
      exact .holding k []
    · simp only [Sys.setPc, State.setStatus, Function.update_self, holds]
    · refine free_iff.mpr fun u hu => ?_
      exact free_iff.mp (h.free h₀) u ((holds_rollback _ u).mp hu)
    · exact (status_setWord 1).trans hout
    · exact not_speculating_setWord (by simp [hout])

theorem move_wait {s s' : Sys T D V} (h : LockInv s) {t : T} (hs : s.wait t = some s') :
    Move s s' t := by
  have hl := h.thread t
  unfold Sys.wait at hs
  split at hs
  · rename_i k tr b hp hst
    cases hs
    refine move_setStatus rfl rfl rfl (.exchange k true) ?_ (.single (step_abort_self hst))
    rw [hst]
    rfl
  · rename_i hp hst
    cases hs
    refine move_setPc ?_
    rw [hp] at hl
    generalize s.shared.status t = st at hl hst
    cases hl with
    | pause => exact .load
    | sawSet k tr => exact (hst tr true rfl).elim
  · rename_i hp hst
    cases hs
    refine move_setPc ?_
    rw [hp] at hl
    generalize s.shared.status t = st at hl hst
    cases hl with
    | pause => exact .exchange _ _
    | sawSet k tr => exact (hst tr true rfl).elim
  · rename_i hp
    cases hs
    refine move_setPc ?_
    rw [hp] at hl
    generalize s.shared.status t = st at hl
    cases hl
    split
    · exact .pause _
    · exact .exchange _ _
  · cases hs

theorem move_access {s s' : Sys T D V} (h : LockInv s) {t : T} {e : (D → V) → Ev D V}
    (he : ∀ m, Reads m (e m)) (hs : s.access t e = some s') : Move s s' t := by
  have hl := h.thread t
  unfold Sys.access at hs
  split at hs
  · rename_i k shared hp hacc
    cases hs
    set ev := e (publish s.shared.data ((s.shared.txn t).getD [])) with hev
    obtain ⟨hother, hself⟩ := access_cases hacc hev
    have hpc : (s.rollback (conflicting t ev)).pc t = s.pc t := by
      refine if_neg fun hany => ?_
      obtain ⟨tr, -, hhit⟩ := (Option.any_eq_true _ _).mp hany
      simp [conflicting] at hhit
    refine ⟨fun u hu => ?_, ?_, .kept rfl ?_, steps_access he hacc⟩
    · exact (beside_rollback s (conflicting t ev) u).congr rfl (hother u hu) rfl
    · change Local s.word ((s.rollback (conflicting t ev)).pc t) (shared.status t)
      rw [hpc, hp]
      rw [hp] at hl
      rcases hself with ⟨tr, b, hst, hst'⟩ | ⟨tr, hst, hst'⟩
      · rw [hst] at hl
        rw [hst']
        cases hl with
        | elided k tr hw => exact .elided k _ hw
      · rw [hst']
        exact .holding k _
    · change holds (shared.status t) = _
      rcases hself with ⟨tr, b, hst, hst'⟩ | ⟨tr, hst, hst'⟩ <;> rw [hst, hst'] <;> rfl
  · cases hs

theorem move_unlock {s s' : Sys T D V} (h : LockInv s) {t : T} (hs : s.unlock t = some s') :
    Move s s' t := by
  have hl := h.thread t
  unfold Sys.unlock at hs
  split at hs
  · rename_i k tr b hp hst
    rw [hp, hst] at hl
    cases hl
    cases hs
    refine move_setStatus rfl rfl rfl .outside ?_ (.single (.commit _ t tr hst))
    rw [hst]
    rfl
  · rename_i k tr hp hst
    cases hs
    have hroll : Step s.shared (s.setWord t 0).shared := step_rollback _ _
    have hst₁ : (s.setWord t 0).shared.status t = .holding tr := (status_setWord 0).trans hst
    refine ⟨fun u hu => ?_, ?_, .released ?_ rfl ?_,
      .tail (.single hroll) (.release _ t tr hst₁)⟩
    · exact (beside_setWord s hu 0).congr (Function.update_of_ne hu _ _)
        (Function.update_of_ne hu _ _) rfl
    · simp only [Sys.setPc, State.setStatus, Function.update_self]
      exact .outside
    · rw [hst]
      rfl
    · simp only [Sys.setPc, State.setStatus, Function.update_self, holds]
  · cases hs

theorem move_step {s s' : Sys T D V} (h : LockInv s) {a : Act T D V} (hs : step s a = some s') :
    Move s s' a.thread := by
  cases a with
  | lock t k =>
    simp only [step] at hs
    split at hs
    · rename_i hp
      cases hs
      refine move_setPc ?_
      have hl := h.thread t
      rw [hp] at hl
      generalize s.shared.status t = st at hl
      cases hl
      exact .exchange k false
    · cases hs
  | exchange t elided =>
    simp only [step] at hs
    split at hs
    · rename_i k executed hp
      split at hs
      · split at hs
        · cases hs
        · cases hs
          exact move_elide h hp
      · cases hs
        exact move_take h hp
    · cases hs
  | wait t => exact move_wait h hs
  | load t d => exact move_access h (e := fun m => .rd d (m d)) (fun _ => rfl) hs
  | store t d v => exact move_access h (e := fun _ => .wr d v) (fun _ => trivial) hs
  | unlock t => exact move_unlock h hs
  | abort t =>
    simp only [step, Option.map_eq_some_iff] at hs
    obtain ⟨tr, htr, rfl⟩ := hs
    obtain ⟨b, hst⟩ := txn_eq_some.mp htr
    have hl := h.thread t
    rw [hst] at hl
    obtain ⟨-, -, hr⟩ := hl.restart s.word
    have hh : holds (.outside : Status D V) = holds (s.shared.status t) := by
      rw [hst]
      rfl
    exact move_setStatus rfl rfl rfl hr hh (.single (step_abort_self hst))

/-! ## Every run -/

omit [DecidableEq T] [DecidableEq D] in
theorem lockInv_init (data : D → V) : LockInv (init data : Sys T D V) :=
  ⟨Innodb.held_free fun _ => rfl, fun _ => .outside⟩

theorem LockInv.move {s s' : Sys T D V} (h : LockInv s) {t : T} (hm : Move s s' t) :
    LockInv s' := by
  have hother : ∀ u, u ≠ t → holds (s'.shared.status u) = holds (s.shared.status u) :=
    fun u hu => (hm.beside u hu).holds
  refine ⟨?_, fun u => ?_⟩
  · cases hm.word with
    | kept hw hh =>
      rw [hw]
      refine h.word.congr fun u => ?_
      by_cases hu : u = t
      · exact hu ▸ hh
      · exact hother u hu
    | taken h₀ h₁ hh =>
      rw [h₁]
      exact (h₀ ▸ h.word).take hh hother
    | released hold h₀ hh =>
      rw [h₀]
      exact h.word.reset hold hh hother
  · by_cases hu : u = t
    · exact hu ▸ hm.self
    · exact (h.thread u).beside (hm.beside u hu)

theorem reach_inv {data₀ : D → V} {s : Sys T D V}
    (h : Reach step (· = init data₀) (fun _ _ => True) s) :
    LockInv s ∧ Safe data₀ s.shared := by
  refine h.invariant (I := fun s => LockInv s ∧ Safe data₀ s.shared) ?_ ?_
  · rintro _ rfl
    exact ⟨lockInv_init data₀, safe_init data₀⟩
  · intro s a s' ⟨hl, hsafe⟩ _ hs
    have hm := move_step hl hs
    exact ⟨hl.move hm, hsafe.steps hm.steps⟩

omit [DecidableEq T] [DecidableEq D] in
/-- While a section runs in a transaction, the word is 0 and nobody holds the lock. -/
theorem LockInv.alone {s : Sys T D V} (h : LockInv s) {t : T} {k : Lock} {tr : List (Ev D V)}
    {b : Bool} (hp : s.pc t = .inside k) (hst : s.shared.status t = .speculating tr b) :
    s.word = 0 ∧ ∀ u, ¬ s.shared.Holds u := by
  have hl := h.thread t
  rw [hp, hst] at hl
  cases hl with
  | elided k tr hw => exact ⟨hw, free_iff.mp (h.free hw)⟩

/-! ## A transaction that has found the word set -/

omit [DecidableEq T] [DecidableEq D] in
theorem Local.at_pause {word : Nat} {p : Pc} {tr : List (Ev D V)}
    (h : Local word p (.speculating tr true)) : ∃ k, p = .pause k := by
  cases h with
  | sawSet k tr => exact ⟨k, rfl⟩

/-- A section is over where its thread unlocks. -/
theorem step_log {s s' : Sys T D V} {a : Act T D V} (hs : step s a = some s') :
    s'.shared.log = s.shared.log ∨
      ∃ k tr, s.pc a.thread = .inside k ∧ s'.shared.log = s.shared.log ++ [(a.thread, tr)] := by
  have hacc : ∀ t (e : (D → V) → Ev D V), s.access t e = some s' →
      s'.shared.log = s.shared.log := by
    intro t e hs
    simp only [Sys.access] at hs
    split at hs
    · rename_i k shared hp hacc
      cases hs
      change shared.log = s.shared.log
      simp only [State.access] at hacc
      split at hacc <;> cases hacc <;> rfl
    · cases hs
  cases a with
  | lock t k =>
    simp only [step] at hs
    split at hs <;> cases hs
    exact Or.inl rfl
  | exchange t elided =>
    simp only [step] at hs
    split at hs
    · split at hs
      · split at hs <;> cases hs
        exact Or.inl rfl
      · cases hs
        refine Or.inl ?_
        simp only [Sys.take]
        split <;> rfl
    · cases hs
  | wait t =>
    simp only [step, Sys.wait] at hs
    split at hs <;> cases hs <;> exact Or.inl rfl
  | load t d => exact Or.inl (hacc t _ hs)
  | store t d v => exact Or.inl (hacc t _ hs)
  | unlock t =>
    simp only [step, Sys.unlock] at hs
    split at hs
    · rename_i k tr b hp hst
      split at hs <;> cases hs
      · exact Or.inl rfl
      · exact Or.inr ⟨k, tr, hp, rfl⟩
    · rename_i k tr hp hst
      cases hs
      exact Or.inr ⟨k, tr, hp, rfl⟩
    · cases hs
  | abort t =>
    simp only [step, Option.map_eq_some_iff] at hs
    obtain ⟨tr, -, rfl⟩ := hs
    exact Or.inl rfl

/-- Such a transaction stays before `_mm_pause()` or is rolled back. -/
theorem LockInv.sawSet {s s' : Sys T D V} (h : LockInv s) {t : T} {tr : List (Ev D V)}
    (hst : s.shared.status t = .speculating tr true) {a : Act T D V} (hs : step s a = some s') :
    s'.shared.status t = .speculating tr true ∨
      s'.shared.status t = .outside ∧ ∃ k, s'.pc t = .exchange k true := by
  have hl := h.thread t
  rw [hst] at hl
  obtain ⟨k, hp⟩ := hl.at_pause
  by_cases ht : t = a.thread
  · right
    cases a <;> simp only [Act.thread] at ht <;> subst ht
    case wait =>
      simp only [step, Sys.wait, hp, hst, Option.some.injEq] at hs
      subst hs
      exact ⟨Function.update_self _ _ _, k, Function.update_self _ _ _⟩
    case abort =>
      simp only [step, State.txn, hst, hp, Option.map_some, Option.some.injEq] at hs
      subst hs
      exact ⟨Function.update_self _ _ _, k, Function.update_self _ _ _⟩
    all_goals simp [step, Sys.access, Sys.unlock, hp] at hs
  · cases (move_step h hs).beside t ht with
    | kept _ hst' _ => exact Or.inl (hst'.trans hst)
    | rolledBack tr b hold hp' hst' =>
      exact Or.inr ⟨hst', k, hp'.trans (by rw [hp]; rfl)⟩

/-- The sections that are over ran one at a time, in the order in which they ended. Whoever holds
the lock holds it alone; while a section runs in a transaction nobody does. A transaction that
has found the word set leaves no section in the log: it is rolled back first. -/
theorem elided_serial {data₀ : D → V} {s : Sys T D V}
    (h : Reach step (· = init data₀) (fun _ _ => True) s) :
    s.shared.SerialFrom data₀ ∧
      (s.word = 1 ↔ ∃ t, s.shared.Holds t) ∧
      (∀ t u, s.shared.Holds t → s.shared.Holds u → t = u) ∧
      (∀ t k tr b, s.pc t = .inside k → s.shared.status t = .speculating tr b →
        b = false ∧ s.word = 0 ∧ ∀ u, ¬ s.shared.Holds u) ∧
      (∀ t tr, s.shared.status t = .speculating tr true → (∃ k, s.pc t = .pause k) ∧
        ∀ a s', step s a = some s' →
          (s'.shared.status t = .speculating tr true ∨
            s'.shared.status t = .outside ∧ ∃ k, s'.pc t = .exchange k true) ∧
          (s'.shared.log = s.shared.log ∨
            ∃ u tr', u ≠ t ∧ s'.shared.log = s.shared.log ++ [(u, tr')])) := by
  obtain ⟨hinv, hsafe⟩ := reach_inv h
  refine ⟨hsafe.serialFrom, ⟨fun hw => ?_, ?_⟩, ?_, ?_, ?_⟩
  · obtain ⟨t, ht⟩ := hinv.word.owned (by omega)
    exact ⟨t, holds_iff.mp ht⟩
  · rintro ⟨t, ht⟩
    exact hinv.word.set t (holds_iff.mpr ht)
  · exact fun t u ht hu => hinv.word.unique t u (holds_iff.mpr ht) (holds_iff.mpr hu)
  · intro t k tr b hp hst
    refine ⟨?_, hinv.alone hp hst⟩
    have hl := hinv.thread t
    rw [hp, hst] at hl
    cases hl
    rfl
  · intro t tr hst
    have hl := hinv.thread t
    rw [hst] at hl
    obtain ⟨k, hp⟩ := hl.at_pause
    refine ⟨⟨k, hp⟩, fun a s' hs => ⟨hinv.sawSet hst hs, ?_⟩⟩
    rcases step_log hs with hlog | ⟨k', tr', hp', hlog⟩
    · exact Or.inl hlog
    · refine Or.inr ⟨a.thread, tr', fun heq => ?_, hlog⟩
      rw [heq, hp] at hp'
      cases hp'

/-- Three increments: an elided one, one that holds the lock, and one that finds the word set in
its transaction and holds the lock later. -/
def threeIncrements : List (Act (Fin 3) Unit Nat) :=
  [.lock 0 .spec, .exchange 0 true, .load 0 (), .store 0 () 1, .lock 1 .busy, .unlock 0,
    .exchange 1 false, .load 1 (), .lock 2 .spec, .exchange 2 true, .wait 2, .exchange 2 false,
    .wait 2, .wait 2, .store 1 () 2, .unlock 1, .wait 2, .wait 2, .exchange 2 true, .load 2 (),
    .store 2 () 3, .unlock 2]

theorem elided_serial_threeIncrements :
    ∃ s, exec step (init fun _ => 0) threeIncrements = some s ∧ s.shared.data () = 3 ∧
      s.shared.SerialFrom fun _ => 0 := by
  obtain ⟨s, hs, hd⟩ := exec_result step (init fun _ => 0) threeIncrements
    (fun s => s.shared.data ()) 3 (by decide)
  exact ⟨s, hs, hd, (elided_serial (.exec (.init rfl) hs)).1⟩

end Htmsql.Hle.Elided
