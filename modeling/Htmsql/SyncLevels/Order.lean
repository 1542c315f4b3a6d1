import Htmsql.SyncLevels.LevelArray

/-!
# The latching order

The levels of `sync0sync.h` and the `switch` of `sync_thread_add_level`, which decides whether a
thread may add a latch to what it has in its level array. For most levels it may if all levels in
the array are greater. At some a thread may own several latches of one level, perhaps only
while it owns the latch above them (`Level.guard`). The remaining ones ask for less, or for
nothing; `Level.ordered` leaves these out.
-/

namespace Htmsql.SyncLevels

/-- The constants `SYNC_...` -/
inductive Level where
  | userTrxLock
  | noOrderCheck
  | levelVarying
  | trxISRwlock
  | trxISLastRead
  | fileFormatTag
  | dictOperation
  | ftsCache
  | dict
  | dictAutoincMutex
  | statsAutoRecalc
  | dictHeader
  | ibufHeader
  | ibufPessInsertMutex
  | indexTree
  | treeNodeNew
  | treeNodeFromHash
  | treeNode
  | purgeLatch
  | trxUndo
  | rseg
  | rsegHeaderNew
  | rsegHeader
  | trxUndoPage
  | externStorage
  | fsp
  | fspPage
  | ibufMutex
  | ibufIndexTree
  | ibufTreeNodeNew
  | ibufTreeNode
  | ibufBitmapMutex
  | ibufBitmap
  | indexOnlineLog
  | lockWaitSys
  | lockSys
  | trxSys
  | trx
  | threads
  | recLock
  | trxSysHeader
  | purgeQueue
  | log
  | logFlushOrder
  | recv
  | ftsCacheInit
  | ftsBgThreads
  | ftsOptimize
  | workQueue
  | searchSys
  | bufPool
  | bufPageHash
  | bufBlock
  | bufFlushList
  | doublewrite
  | anyLatch
  | memHash
  | memPool
  deriving DecidableEq, Repr

namespace Level

/-- The values of `sync0sync.h`. -/
def toNat : Level → Nat
  | userTrxLock => 9999
  | noOrderCheck => 3000
  | levelVarying => 2000
  | trxISRwlock => 1910
  | trxISLastRead => 1900
  | fileFormatTag => 1200
  | dictOperation => 1010
  | ftsCache => 1005
  | dict => 1000
  | dictAutoincMutex => 999
  | statsAutoRecalc => 997
  | dictHeader => 995
  | ibufHeader => 914
  | ibufPessInsertMutex => 912
  | indexTree => 900
  | treeNodeNew => 892
  | treeNodeFromHash => 891
  | treeNode => 890
  | purgeLatch => 800
  | trxUndo => 700
  | rseg => 600
  | rsegHeaderNew => 591
  | rsegHeader => 590
  | trxUndoPage => 570
  | externStorage => 500
  | fsp => 400
  | fspPage => 395
  | ibufMutex => 370
  | ibufIndexTree => 360
  | ibufTreeNodeNew => 359
  | ibufTreeNode => 358
  | ibufBitmapMutex => 351
  | ibufBitmap => 350
  | indexOnlineLog => 340
  | lockWaitSys => 300
  | lockSys => 299
  | trxSys => 298
  | trx => 297
  | threads => 295
  | recLock => 294
  | trxSysHeader => 290
  | purgeQueue => 200
  | log => 170
  | logFlushOrder => 147
  | recv => 168
  | ftsCacheInit => 166
  | ftsBgThreads => 165
  | ftsOptimize => 164
  | workQueue => 162
  | searchSys => 160
  | bufPool => 150
  | bufPageHash => 149
  | bufBlock => 146
  | bufFlushList => 145
  | doublewrite => 140
  | anyLatch => 135
  | memHash => 131
  | memPool => 130

/-- No two levels are the same number. -/
theorem toNat_injective : Function.Injective toNat := by
  have hdistinct : ∀ i < 58, ∀ j < 58, (ofNat i).toNat = (ofNat j).toNat → i = j := by
    decide +kernel
  have hlt : ∀ a : Level, a.ctorIdx < 58 := by
    intro a
    cases a <;> decide
  intro a b hab
  have hidx := hdistinct a.ctorIdx (hlt a) b.ctorIdx (hlt b)
  rw [ofNat_ctorIdx, ofNat_ctorIdx] at hidx
  rw [← ofNat_ctorIdx a, hidx hab, ofNat_ctorIdx]

end Level

/-- The variables of other modules that the checks read; `bufDebugPrints` is false in a build
without `UNIV_DEBUG`. -/
structure Server where
  srvIsBeingStarted : Bool
  bufDebugPrints : Bool
  deriving DecidableEq, Repr

variable {L : Type}

/-- The `switch`; false where an assertion fails. -/
def SyncArr.levelsOk (array : SyncArr L) (server : Server) (level : Level) : Bool :=
  let g := fun limit => array.levelsG limit
  let contain := fun level : Level => (array.levelsContain level.toNat).isSome
  match level with
  | .noOrderCheck | .externStorage | .treeNodeFromHash => true
  | .trxSysHeader => server.srvIsBeingStarted || g level.toNat
  | .memPool | .memHash | .recv | .ftsBgThreads | .workQueue | .ftsOptimize | .ftsCache
  | .ftsCacheInit | .log | .logFlushOrder | .anyLatch | .fileFormatTag | .doublewrite | .searchSys
  | .threads | .lockSys | .lockWaitSys | .trxSys | .ibufBitmapMutex | .rseg | .trxUndo | .purgeLatch
  | .purgeQueue | .dictAutoincMutex | .dictOperation | .dictHeader | .trxISRwlock | .trxISLastRead
  | .ibufMutex | .indexOnlineLog | .statsAutoRecalc => g level.toNat
  -- either the thread owns `lock_sys->mutex`, or it may own only one `trx->mutex`
  | .trx => g level.toNat || (g (level.toNat - 1) && contain .lockSys)
  -- there can be several mutexes of this type
  | .bufFlushList | .bufPool => g (level.toNat - 1)
  -- either the thread owns the buffer pool mutex, or it may latch only one buffer block
  | .bufPageHash | .bufBlock => g level.toNat || (g (level.toNat - 1) && contain .bufPool)
  | .recLock =>
    if contain .lockSys then g (Level.toNat .recLock - 1) else g (Level.toNat .recLock)
  -- either the thread owns the master mutex, or it may latch only one bitmap page
  | .ibufBitmap =>
    if contain .ibufBitmapMutex then g (Level.toNat .ibufBitmap - 1)
    else server.srvIsBeingStarted || g (Level.toNat .ibufBitmap)
  | .fspPage => contain .fsp
  | .fsp => contain .fsp || g (Level.toNat .fsp)
  | .trxUndoPage => contain .trxUndo || contain .rseg || g (level.toNat - 1)
  | .rsegHeader => contain .rseg
  | .rsegHeaderNew => contain .fspPage
  | .treeNode =>
    contain .indexTree || contain .dictOperation || g (Level.toNat .treeNode - 1)
  | .treeNodeNew => contain .fspPage
  | .indexTree => g (Level.toNat .treeNode - 1)
  | .ibufTreeNode => contain .ibufIndexTree || g (Level.toNat .ibufTreeNode - 1)
  | .ibufTreeNodeNew => contain .ibufMutex || contain .fsp
  | .ibufIndexTree =>
    if contain .fsp then g (level.toNat - 1) else g (Level.toNat .ibufTreeNode - 1)
  | .ibufPessInsertMutex => g (Level.toNat .fsp - 1) && !contain .ibufMutex
  | .ibufHeader =>
    g (Level.toNat .fsp - 1) && !contain .ibufMutex && !contain .ibufPessInsertMutex
  | .dict => server.bufDebugPrints || g (Level.toNat .dict)
  -- `default`
  | .userTrxLock | .levelVarying => false

/-! ## The levels that are taken in order -/

/-- Taken only while all levels in the array are greater. -/
def Level.strict (server : Server) : Level → Bool
  | memPool | memHash | recv | ftsBgThreads | workQueue | ftsOptimize | ftsCache | ftsCacheInit
  | log | logFlushOrder | anyLatch | fileFormatTag | doublewrite | searchSys | threads | lockSys
  | lockWaitSys | trxSys | ibufBitmapMutex | rseg | trxUndo | purgeLatch | purgeQueue
  | dictAutoincMutex | dictOperation | dictHeader | trxISRwlock | trxISLastRead | ibufMutex
  | indexOnlineLog | statsAutoRecalc => true
  | trxSysHeader => !server.srvIsBeingStarted
  | dict => !server.bufDebugPrints
  | _ => false

/-- The level of the latch without which a thread may own one latch of this level only. -/
def Level.guard (server : Server) : Level → Option Level
  | trx | recLock => some lockSys
  | bufPageHash | bufBlock => some bufPool
  | ibufBitmap => if server.srvIsBeingStarted then none else some ibufBitmapMutex
  | _ => none

/-- The levels at which a thread goes down in the order, strictly or under a guard. -/
def Level.ordered (server : Server) (level : Level) : Bool :=
  level.strict server || (level.guard server).isSome

variable {array : SyncArr L} {server : Server} {level : Level}

theorem levelsOk_strict (hs : level.strict server = true)
    (h : array.levelsOk server level = true) : array.levelsG level.toNat = true := by
  cases level <;> first | exact h | cases hs | skip
  case trxSysHeader | dict =>
    simp only [Level.strict, Bool.not_eq_true'] at hs
    simpa [SyncArr.levelsOk, hs] using h

theorem levelsOk_guarded {guard : Level} (hg : level.guard server = some guard)
    (h : array.levelsOk server level = true) :
    array.levelsG level.toNat = true ∨
      array.levelsG (level.toNat - 1) = true ∧
        (array.levelsContain guard.toNat).isSome = true := by
  cases level <;> simp only [Level.guard, reduceCtorEq, Option.some.injEq] at hg
  case trx | bufPageHash | bufBlock =>
    subst hg
    simpa [SyncArr.levelsOk] using h
  case recLock =>
    subst hg
    simp only [SyncArr.levelsOk] at h
    split at h
    · rename_i hcontain
      exact Or.inr ⟨h, hcontain⟩
    · exact Or.inl h
  case ibufBitmap =>
    split at hg
    · cases hg
    · rename_i hstart
      obtain rfl := Option.some.inj hg
      simp only [SyncArr.levelsOk, Bool.not_eq_true] at h hstart
      split at h
      · rename_i hcontain
        exact Or.inr ⟨h, hcontain⟩
      · rw [hstart] at h
        exact Or.inl h

theorem Level.toNat_pos (level : Level) : 0 < level.toNat := by
  cases level <;> decide

/-- Where the checks pass at an ordered level, everything in the array is above it, or is of the
same level while the guard is in the array. -/
theorem levelsOk_ordered (ho : level.ordered server = true)
    (h : array.levelsOk server level = true) {latch : L} {held : Nat}
    (hmem : (latch, held) ∈ array.held) :
    level.toNat < held ∨
      level.toNat = held ∧ ∃ guard latch', level.guard server = some guard ∧
        (latch', guard.toNat) ∈ array.held := by
  rw [Level.ordered, Bool.or_eq_true, Option.isSome_iff_exists] at ho
  have hg : array.levelsG level.toNat = true ∨ ∃ guard, level.guard server = some guard ∧
      array.levelsG (level.toNat - 1) = true ∧
        (array.levelsContain guard.toNat).isSome = true := by
    rcases ho with hs | ⟨guard, hguard⟩
    · exact Or.inl (levelsOk_strict hs h)
    · exact (levelsOk_guarded hguard h).imp_right fun hok => ⟨guard, hguard, hok⟩
  rcases hg with hlt | ⟨guard, hguard, hle, hcontain⟩
  · exact Or.inl (SyncArr.levelsG_iff.mp hlt _ hmem)
  · have hheld := SyncArr.levelsG_iff.mp hle _ hmem
    have hpos := level.toNat_pos
    simp only at hheld
    rcases Nat.lt_or_ge level.toNat held with hlt | hge
    · exact Or.inl hlt
    · obtain ⟨latch', hlatch'⟩ := SyncArr.levelsContain_iff.mp hcontain
      exact Or.inr ⟨by omega, guard, latch', hguard, hlatch'⟩

end Htmsql.SyncLevels
