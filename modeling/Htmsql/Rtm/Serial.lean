import Htmsql.Lib.Elision
import Htmsql.Lib.Run
import Htmsql.Rtm.LockWord

/-!
# The transactional mutex refines lock elision

`abs` forgets the code and keeps, for each thread, whether it speculates, holds the mutex or
does neither. A step of the machine is then a step or two of `Htmsql.Elision`: first the
transactions that the access conflicts with are aborted, then the access is made. The one
proviso is the proviso of lock elision itself: a transaction that commits must not have
overlapped with a holder (`CommitsAlone`). Nothing in `Rtm.step` enforces it; whether it holds
depends on the version of `rtm_lock`.
-/

namespace Htmsql.Rtm

open Innodb Trace
open Elision (Status Step Steps)

variable {T D V : Type}

/-- What the thread does to the data: a transaction, a section that holds the mutex, or nothing. -/
def Sys.status (s : Sys T D V) (t : T) : Status D V :=
  match s.txn t with
  | some x => .speculating x.trace x.overlap
  | none => if (s.pc t).holds then .holding (s.trace t) else .outside

/-- The sections that a state stands for, apart from the code of the mutex. -/
def abs (s : Sys T D V) : Elision.State T D V := ⟨s.data, s.status, s.log⟩

/-- The step is not the `_xend` of a transaction that overlapped with a holder. -/
def CommitsAlone (s : Sys T D V) : Act T D V → Prop
  | .exit t => ∀ x, s.txn t = some x → x.overlap = false
  | _ => True

instance (s : Sys T D V) (a : Act T D V) : Decidable (CommitsAlone s a) :=
  match a with
  | .exit t => inferInstanceAs (Decidable (∀ x ∈ s.txn t, x.overlap = false))
  | .enter _ _ | .xbegin _ _ | .retry _ | .checkLockWord _ | .load _ _ | .store _ _ _ | .abort _
  | .run _ => isTrue trivial

variable {v : Variant} {s s' : Sys T D V}

/-! ## The status of a thread -/

theorem status_some {t : T} {x : Txn D V} (hx : s.txn t = some x) :
    s.status t = .speculating x.trace x.overlap := by
  simp [Sys.status, hx]

theorem status_none {t : T} (hx : s.txn t = none) :
    s.status t = if (s.pc t).holds then .holding (s.trace t) else .outside := by
  simp [Sys.status, hx]

theorem status_congr {u : T} (hp : (s'.pc u).holds = (s.pc u).holds) (hx : s'.txn u = s.txn u)
    (ht : s'.trace u = s.trace u) : s'.status u = s.status u := by
  simp only [Sys.status, hp, hx, ht]

/-- Nobody holds the mutex while the lock word is 0. -/
theorem LockInv.free (h : LockInv v s) (hw : s.mutex.lockWord = 0) : (abs s).Free := by
  intro t tr ht
  change s.status t = _ at ht
  unfold Sys.status at ht
  split at ht
  · cases ht
  · split at ht
    · rename_i hh
      have := (h.thread t).holds hh
      omega
    · cases ht

theorem abs_eq_setStatus [DecidableEq T] {t : T} {st : Status D V} (hst : s'.status t = st)
    (hother : ∀ u, u ≠ t → s'.status u = s.status u) (hd : s'.data = s.data)
    (hl : s'.log = s.log) : abs s' = (abs s).setStatus t st := by
  have hstatus : s'.status = Function.update s.status t st := by
    funext u
    by_cases hu : u = t
    · rw [hu, hst, Function.update_self]
    · rw [hother u hu, Function.update_of_ne hu]
  simp only [abs, Elision.State.setStatus, hstatus, hd, hl]

/-- A step that moves one thread and leaves its status leaves the abstract state. -/
theorem abs_eq_self (hstatus : ∀ u, s'.status u = s.status u) (hd : s'.data = s.data)
    (hl : s'.log = s.log) : abs s' = abs s := by
  have : s'.status = s.status := funext hstatus
  simp only [abs, this, hd, hl]

variable [DecidableEq T]

theorem status_setPc {t : T} {p : Pc} (hp : p.holds = (s.pc t).holds) (u : T) :
    (s.setPc t p).status u = s.status u := by
  refine status_congr ?_ rfl rfl
  by_cases hu : u = t
  · rw [hu]
    simp [Sys.setPc, hp]
  · simp [Sys.setPc, hu]

theorem abs_setPc {t : T} {p : Pc} (hp : p.holds = (s.pc t).holds) : abs (s.setPc t p) = abs s :=
  abs_eq_self (status_setPc hp) rfl rfl

theorem status_setPc_setTxn_of_ne {t u : T} (hu : u ≠ t) (p : Pc) (x : Option (Txn D V)) :
    ((s.setPc t p).setTxn t x).status u = s.status u := by
  refine status_congr ?_ ?_ rfl <;> simp [Sys.setPc, Sys.setTxn, hu]

/-! ## The steps of the machine -/

variable [DecidableEq D]

/-- The transactions that an operation conflicts with are rolled back. -/
theorem abs_abortAll (s : Sys T D V) (hit : T → Txn D V → Bool) :
    Step (abs s) (abs (s.abortAll hit)) := by
  refine .abort (abs s) (s.abortAll hit).status fun t => ?_
  change (s.abortAll hit).status t = s.status t ∨ _
  rcases abortAll_cases s hit t with ⟨hp, hx, -⟩ | ⟨x, hx, -, hx', hp⟩
  · exact Or.inl (status_congr (by rw [hp]) hx rfl)
  · refine Or.inr ⟨?_, x.trace, x.overlap, status_some hx⟩
    rw [status_none hx', hp]
    rfl

theorem abs_begin (h : LockInv v s) {t : T} {n : Nat} (hp : s.pc t = .xbegin n) :
    Step (abs s) (abs (s.begin v t n)) := by
  have hx : s.txn t = none := h.txn_none (by simp [hp]) (by simp [hp])
  have habs : abs (s.begin v t n) =
      (abs s).setStatus t (.speculating [] (s.mutex.lockWord != 0)) := by
    refine abs_eq_setStatus ?_ (fun u hu => status_setPc_setTxn_of_ne hu _ _) rfl rfl
    rw [status_some (x := ⟨[], false, n, s.mutex.lockWord != 0⟩)]
    simp [Sys.begin, Sys.setTxn]
  rw [habs]
  refine .begin (abs s) t _ ?_ fun hb => h.free (by simpa using hb)
  change s.status t = _
  rw [status_none hx, hp]
  rfl

theorem abs_rollback {t : T} {x : Txn D V} (hx : s.txn t = some x) :
    Step (abs s) (abs ((s.setPc t (.aborted x.failures)).setTxn t none)) := by
  refine .abort (abs s) _ fun u => ?_
  by_cases hu : u = t
  · subst hu
    refine Or.inr ⟨?_, x.trace, x.overlap, status_some hx⟩
    rw [status_none (by simp [Sys.setTxn])]
    simp [Sys.setPc, Sys.setTxn, Pc.holds]
  · exact Or.inl (status_setPc_setTxn_of_ne hu _ _)

theorem abs_checkLockWord (h : LockInv v s) {t : T} {x : Txn D V} (hx : s.txn t = some x)
    (hw : s.mutex.lockWord = 0) :
    Step (abs s) (abs ((s.setPc t .speculative).setTxn t
      (some { x with readsLockWord := true, overlap := false }))) := by
  have habs : abs ((s.setPc t .speculative).setTxn t
      (some { x with readsLockWord := true, overlap := false })) =
      (abs s).setStatus t (.speculating x.trace false) := by
    refine abs_eq_setStatus ?_ (fun u hu => status_setPc_setTxn_of_ne hu _ _) rfl rfl
    rw [status_some (x := { x with readsLockWord := true, overlap := false })]
    simp [Sys.setTxn]
  rw [habs]
  exact .watch (abs s) t x.trace x.overlap (status_some hx) (h.free hw)

/-- After the conflicting transactions are gone, the access meets no conflict. -/
theorem unopposed_abortAll (s : Sys T D V) (t : T) (e : Ev D V) :
    (abs (s.abortAll (hitBy t e))).Unopposed t e := by
  intro u tr b hu hst
  change (s.abortAll (hitBy t e)).status u = _ at hst
  rcases abortAll_cases s (hitBy t e) u with ⟨-, hx, hmiss⟩ | ⟨x, -, -, hx, hp⟩
  · cases hxu : s.txn u with
    | none =>
      rw [status_none (hx.trans hxu)] at hst
      split at hst <;> cases hst
    | some x =>
      rw [status_some (hx.trans hxu)] at hst
      cases hst
      simpa [hitBy, hu] using hmiss x hxu
  · rw [status_none hx, hp] at hst
    cases hst

theorem abs_access {t : T} {e : (D → V) → Ev D V}
    (he : ∀ m, Elision.Reads m (e m)) (hs : s.access t e = some s') :
    Steps (abs s) (abs s') := by
  unfold Sys.access at hs
  split at hs
  · rename_i x hp hx
    cases hs
    set ev := e (publish s.data x.trace) with hev
    have hx' : (s.abortAll (hitBy t ev)).txn t = some x := by
      simp [Sys.abortAll, hx, hitBy]
    have habs : abs ((s.abortAll (hitBy t ev)).setTxn t
        (some { x with trace := x.trace ++ [ev] })) =
        (abs (s.abortAll (hitBy t ev))).setStatus t
          (.speculating (x.trace ++ [ev]) x.overlap) := by
      refine abs_eq_setStatus ?_ (fun u hu => ?_) rfl rfl
      · rw [status_some (x := { x with trace := x.trace ++ [ev] })]
        simp [Sys.setTxn]
      · exact status_congr rfl (by simp [Sys.setTxn, hu]) rfl
    refine .tail (.single (abs_abortAll s (hitBy t ev))) ?_
    rw [habs]
    exact .specAccess _ t x.trace x.overlap ev (status_some hx') (he _)
      (unopposed_abortAll s t ev)
  · rename_i call hp hx
    cases hs
    set ev := e s.data with hev
    have hx' : (s.abortAll (hitBy t ev)).txn t = none := by simp [Sys.abortAll, hx]
    have hp' : (s.abortAll (hitBy t ev)).pc t = s.pc t := by simp [Sys.abortAll, hx]
    have hold : (s.abortAll (hitBy t ev)).status t = .holding (s.trace t) := by
      rw [status_none hx', hp', hp]
      rfl
    have hstatus : (Sys.status { s.abortAll (hitBy t ev) with
        data := publish s.data [ev]
        trace := Function.update s.trace t (s.trace t ++ [ev]) }) =
        Function.update (s.abortAll (hitBy t ev)).status t (.holding (s.trace t ++ [ev])) := by
      funext u
      by_cases hu : u = t
      · subst hu
        rw [Function.update_self, status_none (by exact hx')]
        change (if ((s.abortAll (hitBy u ev)).pc u).holds then _ else _) = _
        simp [hp', hp, Pc.holds, MutexPc.holds]
      · rw [Function.update_of_ne hu]
        exact status_congr rfl rfl (by simp [Sys.abortAll, hu])
    refine .tail (.single (abs_abortAll s (hitBy t ev))) ?_
    have hstep := Step.ownAccess (abs (s.abortAll (hitBy t ev))) t (s.trace t) ev hold (he _)
      (unopposed_abortAll s t ev)
    simp only [abs, hstatus]
    exact hstep
  · cases hs

theorem abs_exit {t : T} (hok : ∀ x, s.txn t = some x → x.overlap = false)
    (hs : s.exit t = some s') : Steps (abs s) (abs s') := by
  unfold Sys.exit at hs
  split at hs
  · rename_i x hp hx
    cases hs
    have habs : abs ((s.setPc t (.exitTail .released)).setTxn t none) =
        (abs s).setStatus t .outside := by
      refine abs_eq_setStatus ?_ (fun u hu => status_setPc_setTxn_of_ne hu _ _) rfl rfl
      rw [status_none (by simp [Sys.setTxn])]
      simp [Sys.setPc, Sys.setTxn, Pc.holds]
    have hst : (abs s).status t = .speculating x.trace false := by
      rw [← hok x hx]
      exact status_some hx
    refine .single ?_
    have hstep := Step.commit (abs s) t x.trace hst
    rw [← habs] at hstep
    exact hstep
  · rename_i call hp hx
    cases hs
    rw [abs_setPc (by rw [hp]; rfl)]
    exact .refl
  · cases hs

/-- An operation that leaves the lock word as it is at most rolls back transactions. -/
theorem abs_runInstr (h : LockInv v s) {t : T} {m : IbMutex} {p : Pc} (hit : T → Txn D V → Bool)
    (hw : m.lockWord = s.mutex.lockWord) (hx : s.txn t = none) (hp : p.holds = (s.pc t).holds) :
    Steps (abs s) (abs ((({ s with mutex := m }.abortAll hit).noteOverlap).setPc t p)) := by
  obtain ⟨-, -, hpc⟩ := h.runInstr hit hw hx
  rw [abs_setPc (by rw [hpc, hp]), h.runInstr_eq hit hw]
  exact .single (abs_abortAll { s with mutex := m } hit)

/-- Every open transaction that survives the acquisition has been marked. -/
theorem abs_acquire (h : LockInv v s) {t : T} {m : IbMutex} {call : Call}
    (hit : T → Txn D V → Bool) (hx : s.txn t = none) (hout : (s.pc t).holds = false)
    (h₀ : s.mutex.lockWord = 0) (h₁ : m.lockWord = 1) :
    Steps (abs s) (abs ((({ s with mutex := m }.abortAll hit).noteOverlap).setPc t
      (.mutex call .owner))) := by
  set s₀ : Sys T D V := { s with mutex := m }.abortAll hit with hs₀
  have hx₀ : s₀.txn t = none := by simp [hs₀, Sys.abortAll, hx]
  have hp₀ : s₀.pc t = s.pc t := by simp [hs₀, Sys.abortAll, hx]
  have hfree : (abs (s.abortAll hit)).Free := (h.abortAll hit).free h₀
  have habs : abs s₀ = abs (s.abortAll hit) := rfl
  refine .tail (.single (abs_abortAll s hit)) ?_
  rw [← habs] at hfree ⊢
  refine .acquire (abs s₀) t _ hfree ?_ ?_ fun u hu => ?_
  · change s₀.status t = _
    rw [status_none hx₀, hp₀, hout]
    rfl
  · have hx' : (s₀.noteOverlap.setPc t (.mutex call .owner)).txn t = none := by
      simp [Sys.setPc, Sys.noteOverlap, hx₀]
    have htr : (s₀.noteOverlap.setPc t (.mutex call .owner)).trace t = [] :=
      (h.thread t).no_trace hout
    rw [status_none hx', htr]
    simp [Sys.setPc, Pc.holds, MutexPc.holds]
  · change (s₀.noteOverlap.setPc t (.mutex call .owner)).status u = (s₀.status u).mark
    cases hxu : s₀.txn u with
    | none =>
      have hx' : (s₀.noteOverlap.setPc t (.mutex call .owner)).txn u = none := by
        simp [Sys.setPc, Sys.noteOverlap, hxu]
      have hp' : (s₀.noteOverlap.setPc t (.mutex call .owner)).pc u = s₀.pc u := by
        simp [Sys.setPc, Sys.noteOverlap, hu]
      rw [status_none hx', status_none hxu, hp']
      split <;> rfl
    | some x =>
      have hx' : (s₀.noteOverlap.setPc t (.mutex call .owner)).txn u =
          some { x with overlap := true } := by
        have hm : s₀.mutex.lockWord = 1 := h₁
        simp [Sys.setPc, Sys.noteOverlap, hxu, hm]
      rw [status_some hx', status_some hxu]
      rfl

theorem abs_release (h : LockInv v s) {t : T} {m : IbMutex} {call : Call}
    (hit : T → Txn D V → Bool) (hp : s.pc t = .mutex call .reset) (h₁ : m.lockWord = 0) :
    Steps (abs s) (abs { (({ s with mutex := m }.abortAll hit).noteOverlap).setPc t
      (.mutex call .released) with
        trace := Function.update s.trace t []
        log := s.log ++ [(t, s.trace t)] }) := by
  set s₀ : Sys T D V := { s with mutex := m }.abortAll hit with hs₀
  have hx : s.txn t = none := h.txn_none (by simp [hp]) (by simp [hp])
  have hx₀ : s₀.txn t = none := by simp [hs₀, Sys.abortAll, hx]
  have hp₀ : s₀.pc t = s.pc t := by simp [hs₀, Sys.abortAll, hx]
  have hnote : s₀.noteOverlap = s₀ := noteOverlap_free h₁
  have hold : (abs s₀).status t = .holding (s.trace t) := by
    change s₀.status t = _
    rw [status_none hx₀, hp₀, hp]
    rfl
  have hstatus : Sys.status { s₀.setPc t (.mutex call .released) with
      trace := Function.update s.trace t []
      log := s.log ++ [(t, s.trace t)] } = Function.update s₀.status t .outside := by
    funext u
    by_cases hu : u = t
    · subst hu
      rw [Function.update_self, status_none (by exact hx₀)]
      simp [Sys.setPc, Pc.holds, MutexPc.holds]
    · rw [Function.update_of_ne hu]
      refine status_congr ?_ rfl ?_
      · simp [Sys.setPc, hu]
      · simp [hs₀, Sys.abortAll, hu]
  refine .tail (.single (abs_abortAll s hit)) ?_
  have hstep := Step.release (abs s₀) t (s.trace t) hold
  rw [hnote]
  simp only [abs, hstatus]
  exact hstep

theorem abs_run (h : LockInv v s) {rounds : Nat} {t : T} (hs : s.run rounds t = some s') :
    Steps (abs s) (abs s') := by
  rcases run_cases hs with ⟨call, p, i, m, p', hp, hi, he, rfl⟩ | ⟨p, i, m, p', hp, hi, he, rfl⟩
  · have hx : s.txn t = none := h.txn_none (by simp [hp]) (by simp [hp])
    have hhold : (s.pc t).holds = p.holds := by rw [hp]; rfl
    rcases exec_word h.word hi he with ⟨hw, hh, hne⟩ | ⟨h₀, h₁, hout, -, rfl, -⟩ | ⟨rfl, h₁, rfl⟩
    · rw [if_neg hne]
      exact abs_runInstr h _ hw hx (by rw [hhold, holds_afterMutex, hh])
    · have hne : p ≠ .reset := by
        rintro rfl
        cases hout
      rw [if_neg hne]
      cases call <;> exact abs_acquire h _ hx (hhold.trans hout) h₀ h₁
    · rw [if_pos rfl]
      cases call <;> exact abs_release h _ hp h₁
  · have hx : s.txn t = none := h.txn_none (by simp [hp]) (by simp [hp])
    obtain ⟨hw, -⟩ := exec_tail ((h.thread t).tail p hp) hi he
    apply abs_runInstr h _ hw hx
    rw [hp]
    cases p' <;> rfl

/-- The refinement: one step of the machine is some steps of lock elision. -/
theorem abs_step (h : LockInv v s) {rounds : Nat} {a : Act T D V} (hok : CommitsAlone s a)
    (hs : step v rounds s a = some s') : Steps (abs s) (abs s') := by
  cases a with
  | enter t call =>
    simp only [step] at hs
    split at hs
    · rename_i hp
      cases hs
      rw [abs_setPc]
      · exact .refl
      · rw [hp]
        cases call <;> rfl
    · cases hs
  | xbegin t started =>
    simp only [step] at hs
    split at hs
    · rename_i n hp
      cases hs
      split
      · exact .single (abs_begin h hp)
      · rw [abs_setPc (by rw [hp]; rfl)]
        exact .refl
    · cases hs
  | retry t =>
    simp only [step] at hs
    split at hs
    · rename_i n hp
      cases hs
      rw [abs_setPc]
      · exact .refl
      · rw [hp]
        unfold retryRtmLock
        split <;> rfl
    · cases hs
  | checkLockWord t =>
    simp only [step] at hs
    split at hs
    · rename_i x hp hx
      split at hs
      · cases hs
        exact .single (abs_rollback hx)
      · rename_i hw
        cases hs
        exact .single (abs_checkLockWord h hx (not_not.mp hw))
    · cases hs
  | load t d =>
    simp only [step] at hs
    refine abs_access ?_ hs
    exact fun _ => rfl
  | store t d w =>
    simp only [step] at hs
    refine abs_access ?_ hs
    exact fun _ => trivial
  | exit t => exact abs_exit hok hs
  | abort t =>
    simp only [step, Option.map_eq_some_iff] at hs
    obtain ⟨x, hx, rfl⟩ := hs
    exact .single (abs_rollback hx)
  | run t => exact abs_run h hs

end Htmsql.Rtm
