import Mathlib.Data.List.Perm.Basic

/-!
# The latching order of one thread

The part of `sync_thread_add_level` and `sync_thread_reset_level` that concerns the two kinds of
mutexes that meet in `trx_mutex_enter`: `lock_sys->mutex` and the mutexes of the transactions. The
level array of the thread holds the latches it owns with their levels. A latch may be added
while all latches in the array have greater levels; several transaction mutexes may be owned
together while `lock_sys->mutex` is.
-/

namespace Htmsql.GlobalLatch

variable {X : Type}

/-- The mutexes; `X` are the transactions. -/
inductive Latch (X : Type) where
  | lockSys
  | trx (x : X)
  deriving DecidableEq, Repr

/-- One call by the thread. -/
inductive Op (X : Type) where
  | enter (l : Latch X)
  | exit (l : Latch X)
  deriving DecidableEq, Repr

/-- `SYNC_LOCK_SYS` of `sync0sync.h` -/
def syncLockSys : Nat := 299

/-- `SYNC_TRX` of `sync0sync.h` -/
def syncTrx : Nat := 297

/-- `SYNC_THREAD_N_LEVELS`, the size of the array -/
def syncThreadNLevels : Nat := 10000

/-- The level that the latch is created with. -/
def Latch.level : Latch X → Nat
  | lockSys => syncLockSys
  | trx _ => syncTrx

/-- A slot of the array of a thread: a latch it has and the level of that latch. -/
structure SyncLevel (X : Type) where
  latch : Latch X
  level : Nat

/-- All levels in the array are above the limit. -/
def syncThreadLevelsG (arr : List (SyncLevel X)) (limit : Nat) : Bool :=
  arr.all fun slot => limit < slot.level

/-- The thread has a latch of that level. -/
def syncThreadLevelsContain (arr : List (SyncLevel X)) (level : Nat) : Bool :=
  arr.any fun slot => slot.level == level

/-- The case of the `switch` for each latch. -/
def levelsOk (arr : List (SyncLevel X)) : Latch X → Bool
  | .lockSys => syncThreadLevelsG arr syncLockSys
  -- either the thread must own `lock_sys->mutex`, or it may own only one `trx->mutex`
  | .trx _ =>
    syncThreadLevelsG arr syncTrx ||
      (syncThreadLevelsG arr (syncTrx - 1) && syncThreadLevelsContain arr syncLockSys)

/-- `none` where an assertion fails. -/
def syncThreadAddLevel (arr : List (SyncLevel X)) (l : Latch X) : Option (List (SyncLevel X)) :=
  if levelsOk arr l ∧ arr.length < syncThreadNLevels then some (arr ++ [⟨l, l.level⟩]) else none

variable [DecidableEq X]

/-- Takes the latch out of the array; `none` is the `ut_error` for a latch that is not there. -/
def syncThreadResetLevel (arr : List (SyncLevel X)) (l : Latch X) : Option (List (SyncLevel X)) :=
  if l ∈ arr.map SyncLevel.latch then some (arr.eraseP fun slot => slot.latch == l) else none

/-- What the debug version does at a call: it adds the latch, or takes it out; `none` where that
crashes. -/
def orderCheck (arr : List (SyncLevel X)) : Op X → Option (List (SyncLevel X))
  | .enter l => syncThreadAddLevel arr l
  | .exit l => syncThreadResetLevel arr l

/-- The latches that the thread has entered and not left after these calls. -/
def openedBy (ops : List (Op X)) : List (Latch X) :=
  ops.foldl (fun opened op =>
    match op with
    | .enter l => l :: opened
    | .exit l => opened.erase l) []

@[simp] theorem openedBy_enter (ops : List (Op X)) (l : Latch X) :
    openedBy (ops ++ [.enter l]) = l :: openedBy ops := by
  simp [openedBy]

@[simp] theorem openedBy_exit (ops : List (Op X)) (l : Latch X) :
    openedBy (ops ++ [.exit l]) = (openedBy ops).erase l := by
  simp [openedBy]

theorem map_eraseP_latch (arr : List (SyncLevel X)) (l : Latch X) :
    (arr.eraseP fun slot => slot.latch == l).map SyncLevel.latch =
      (arr.map SyncLevel.latch).erase l := by
  induction arr with
  | nil => rfl
  | cons slot arr ih =>
    by_cases h : slot.latch = l
    · simp [h]
    · simp [h, ih]

/-- The level array holds what the thread has open. -/
theorem orderCheck_opened {arr arr' : List (SyncLevel X)} {opened : List (Latch X)} {op : Op X}
    (h : (arr.map SyncLevel.latch).Perm opened) (hs : orderCheck arr op = some arr') :
    (∀ l, op = .exit l → l ∈ opened) ∧
      (arr'.map SyncLevel.latch).Perm
        (match op with
        | .enter l => l :: opened
        | .exit l => opened.erase l) := by
  cases op with
  | enter l =>
    simp only [orderCheck, syncThreadAddLevel] at hs
    split at hs
    · cases hs
      refine ⟨by simp, ?_⟩
      simp only [List.map_append, List.map_cons, List.map_nil]
      exact (List.perm_append_singleton _ _).trans (h.cons l)
    · cases hs
  | exit l =>
    simp only [orderCheck, syncThreadResetLevel] at hs
    split at hs
    · rename_i hl
      cases hs
      refine ⟨?_, ?_⟩
      · rintro _ ⟨⟩
        exact h.mem_iff.mp hl
      · rw [map_eraseP_latch]
        exact h.erase l
    · cases hs

end Htmsql.GlobalLatch
