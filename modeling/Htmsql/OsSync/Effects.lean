import Htmsql.OsSync.Machine

/-!
# What the functions of `os0sync.cc` do

A section under `os_sync_mutex` leaves it as it was, so that only what it guards changes. With this
each function that creates or frees something has an equation with its effect.
-/

namespace Htmsql.OsSync

variable {Ptr : Type} [DecidableEq Ptr]

/-! ## Under `os_sync_mutex` -/

namespace State

/-- A slow mutex that is allocated and not locked. -/
def Free (s : State Ptr) (mutex : Ptr) : Prop :=
  (∃ event, s.mutexes mutex = some ⟨event, 0⟩) ∧ s.fastMutexes (.handle mutex) = some false

/-- The section may be entered if the flag says so. -/
def SyncFree (s : State Ptr) : Prop :=
  s.osSyncMutexInited = true → ∃ mutex, s.osSyncMutex = some mutex ∧ s.Free mutex

end State

/-- Between the entry and the exit only `os_sync_mutex` itself differs. -/
theorem osMutexEnter_exit {s : State Ptr} {mutex : Ptr} (hfree : s.Free mutex) :
    ∃ held, osMutexEnter mutex s = some held ∧ held.lists = s.lists ∧
      held.osSyncMutex = s.osSyncMutex ∧
      ∀ l, osMutexExit mutex { held with lists := l } = some { s with lists := l } := by
  obtain ⟨⟨event, hmutex⟩, hfast⟩ := hfree
  refine ⟨(s.setFastMutex (.handle mutex) (some true)).setMutex mutex (some ⟨event, 1⟩), ?_, rfl,
    rfl, ?_⟩
  · simp [osMutexEnter, osFastMutexLock, hmutex, hfast]
  · intro l
    simp [osMutexExit, osFastMutexUnlock, State.setFastMutex, State.setMutex, ← hmutex, ← hfast]

theorem underSync_eq {s : State Ptr} {mutex : Ptr} (hsync : s.osSyncMutex = some mutex)
    (hfree : s.Free mutex) (f : Lists Ptr → Option (Lists Ptr)) :
    underSync f s = s.modifyLists f := by
  obtain ⟨held, henter, hlists, hsame, hexit⟩ := osMutexEnter_exit hfree
  have henter' : (s.osSyncMutex.bind fun mutex => osMutexEnter mutex s) = some held := by
    rw [hsync, Option.bind_some, henter]
  rw [underSync, henter', Option.bind_eq_bind, Option.bind_some, State.modifyLists,
    State.modifyLists, hlists]
  cases f s.lists with
  | none => rfl
  | some l =>
    have hheld : held.osSyncMutex = some mutex := hsame.trans hsync
    exact (congrArg (·.bind fun mutex => osMutexExit mutex { held with lists := l }) hheld).trans
      (hexit l)

theorem underSyncIf_eq {s : State Ptr} {reserve : Bool}
    (h : reserve = true → ∃ mutex, s.osSyncMutex = some mutex ∧ s.Free mutex)
    (f : Lists Ptr → Option (Lists Ptr)) : underSyncIf reserve f s = s.modifyLists f := by
  cases reserve with
  | false => rfl
  | true =>
    obtain ⟨mutex, hsync, hfree⟩ := h rfl
    exact underSync_eq hsync hfree f

omit [DecidableEq Ptr] in
/-- What changes neither `os_sync_mutex` nor slow mutexes, and locks and destroys no mutex of
them, leaves the section open. -/
theorem State.SyncFree.congr {s s' : State Ptr} (h : s.SyncFree)
    (hinited : s'.osSyncMutexInited = s.osSyncMutexInited)
    (hsync : s'.osSyncMutex = s.osSyncMutex) (hmutexes : s'.mutexes = s.mutexes)
    (hfast : ∀ mutex, s.osSyncMutex = some mutex → s.fastMutexes (.handle mutex) = some false →
      s'.fastMutexes (.handle mutex) = some false) : s'.SyncFree := by
  intro hs'
  obtain ⟨mutex, hmutex, hfree, hfalse⟩ := h (hinited ▸ hs')
  exact ⟨mutex, hsync.trans hmutex, by rw [hmutexes]; exact hfree, hfast mutex hmutex hfalse⟩

theorem State.fastMutexes_setFastMutex_of_ne (s : State Ptr) {p q : Place Ptr} (h : q ≠ p)
    (v : Option Bool) : (s.setFastMutex p v).fastMutexes q = s.fastMutexes q := by
  simp [State.setFastMutex, h]

theorem State.SyncFree.init {s : State Ptr} (h : s.SyncFree) (p : Place Ptr) :
    (s.setFastMutex p (some false)).SyncFree := by
  refine h.congr rfl rfl rfl fun mutex _ hfalse => ?_
  by_cases hp : .handle mutex = p
  · rw [hp]
    exact Function.update_self ..
  · rw [State.fastMutexes_setFastMutex_of_ne s hp, hfalse]

/-- A fast mutex that is not that of a slow mutex. -/
theorem State.SyncFree.set {s : State Ptr} (h : s.SyncFree) {p : Place Ptr}
    (hp : ∀ mutex, s.osSyncMutex = some mutex → .handle mutex ≠ p) (v : Option Bool) :
    (s.setFastMutex p v).SyncFree := by
  refine h.congr rfl rfl rfl fun mutex hsync hfalse => ?_
  rw [State.fastMutexes_setFastMutex_of_ne s (hp mutex hsync), hfalse]

/-! ## The effect of each function -/

namespace State

/-- The state with one fast mutex more, unlocked and counted. -/
@[simp]
def newFastMutex (s : State Ptr) (p : Place Ptr) : State Ptr :=
  { s.setFastMutex p (some false) with
    lists := { s.lists with osFastMutexCount := s.lists.osFastMutexCount + 1 } }

/-- The state with one fast mutex less. -/
@[simp]
def dropFastMutex (s : State Ptr) (p : Place Ptr) : State Ptr :=
  { s.setFastMutex p none with
    lists := { s.lists with osFastMutexCount := s.lists.osFastMutexCount - 1 } }

/-- The state with one event more at the head of its list, with its fast mutex, not set and with
the count 1. -/
@[simp]
def newEvent (s : State Ptr) (event : Ptr) : State Ptr :=
  { (s.newFastMutex (.event event)).setEvent event (some ⟨true, false, 1⟩) with
    lists :=
      { (s.newFastMutex (.event event)).lists with
        osEventList := event :: s.lists.osEventList
        osEventCount := s.lists.osEventCount + 1 } }

/-- The state with one event less, its fast mutex gone with it. -/
@[simp]
def dropEvent (s : State Ptr) (event : Ptr) : State Ptr :=
  { (s.dropFastMutex (.event event)).setEvent event none with
    lists :=
      { (s.dropFastMutex (.event event)).lists with
        osEventList := s.lists.osEventList.erase event
        osEventCount := s.lists.osEventCount - 1 } }

/-- The event is there already. -/
@[simp]
def newMutex (s : State Ptr) (mutex event : Ptr) : State Ptr :=
  { (s.newFastMutex (.handle mutex)).setMutex mutex (some ⟨event, 0⟩) with
    lists :=
      { (s.newFastMutex (.handle mutex)).lists with
        osMutexList := mutex :: s.lists.osMutexList
        osMutexCount := s.lists.osMutexCount + 1 } }

/-- The event is left. -/
@[simp]
def dropMutex (s : State Ptr) (mutex : Ptr) : State Ptr :=
  { (s.dropFastMutex (.handle mutex)).setMutex mutex none with
    lists :=
      { (s.dropFastMutex (.handle mutex)).lists with
        osMutexList := s.lists.osMutexList.erase mutex
        osMutexCount := s.lists.osMutexCount - 1 } }

/-- An event that can be used: `os_event_reset` never returns 0 for it. -/
def EventOk (s : State Ptr) (event : Ptr) : Prop :=
  s.fastMutexes (.event event) = some false ∧
    ∃ isSet signalCount, s.events event = some ⟨true, isSet, signalCount + 1⟩

/-- `os_sync_mutex` is not this one, as long as it may be reserved. -/
def NotSync (s : State Ptr) (mutex : Ptr) : Prop :=
  s.osSyncMutexInited = true → s.osSyncMutex ≠ some mutex

end State

theorem osFastMutexInit_eq {s : State Ptr} (hs : s.SyncFree) (p : Place Ptr) :
    osFastMutexInit p s = some (s.newFastMutex p) :=
  underSyncIf_eq (hs.init p) _

theorem osFastMutexFree_eq {s : State Ptr} {p : Place Ptr} (hs : (s.setFastMutex p none).SyncFree)
    (hp : s.fastMutexes p = some false) (hcount : 0 < s.lists.osFastMutexCount) :
    osFastMutexFree p s = some (s.dropFastMutex p) := by
  have hdecrement : decrement s.lists.osFastMutexCount = some (s.lists.osFastMutexCount - 1) :=
    if_pos hcount
  rw [osFastMutexFree, if_pos hp]
  refine (underSyncIf_eq hs _).trans ?_
  simp only [State.modifyLists, State.setFastMutex, hdecrement, Option.map_some]
  rfl

theorem osEventCreate_eq {s : State Ptr} (hs : s.SyncFree)
    (hsync : s.osSyncMutex.isSome = s.osSyncMutexInited) (event : Ptr) :
    osEventCreate event s = some (s.newEvent event) := by
  have hs' : ((s.newFastMutex (.event event)).setEvent event (some ⟨true, false, 1⟩)).SyncFree :=
    (hs.init (.event event)).congr rfl rfl rfl fun _ _ h => h
  rw [osEventCreate, osFastMutexInit_eq hs, Option.bind_eq_bind, Option.bind_some]
  exact underSyncIf_eq (fun h => hs' (hsync.symm.trans h)) _

theorem osEventDestroy_eq {s : State Ptr} {event : Ptr} (hs : s.SyncFree) (hevent : s.EventOk event)
    (hcount : 0 < s.lists.osFastMutexCount) :
    ∃ e, osEventDestroy event s = some ((s.dropFastMutex (.event event)).setEvent event e) := by
  obtain ⟨hfast, isSet, signalCount, he⟩ := hevent
  have hs' : (s.setFastMutex (.event event) none).SyncFree := hs.set (by simp) none
  refine ⟨some ⟨false, isSet, signalCount + 1⟩, ?_⟩
  rw [osEventDestroy, osFastMutexFree_eq hs' hfast hcount]
  simp [he]

/-- The event leaves the list and is freed, with or without a section. -/
theorem unlinkEvent_eq {s : State Ptr} {event : Ptr} (hlist : event ∈ s.lists.osEventList)
    (hcount : 0 < s.lists.osEventCount) (e : Option Event) :
    ((((s.dropFastMutex (.event event)).setEvent event e).modifyLists (unlinkEvent event)).map
        fun s => s.setEvent event none) = some (s.dropEvent event) := by
  simp [State.modifyLists, unlinkEvent, remove, decrement, State.dropFastMutex, State.setFastMutex,
    State.setEvent, State.dropEvent, hlist, hcount]

theorem osEventFreeInternal_eq {s : State Ptr} {event : Ptr} (hs : s.SyncFree)
    (hevent : s.EventOk event) (hlist : event ∈ s.lists.osEventList)
    (hcount : 0 < s.lists.osEventCount) (hfast : 0 < s.lists.osFastMutexCount) :
    osEventFreeInternal event s = some (s.dropEvent event) := by
  obtain ⟨e, hdestroy⟩ := osEventDestroy_eq hs hevent hfast
  rw [osEventFreeInternal, hdestroy, Option.bind_eq_bind, Option.bind_some,
    ← unlinkEvent_eq hlist hcount e]
  cases ((s.dropFastMutex (.event event)).setEvent event e).modifyLists (unlinkEvent event) <;> rfl

theorem osEventFree_eq {s : State Ptr} {event : Ptr} (hs : s.SyncFree)
    (hinited : s.osSyncMutexInited = true) (hevent : s.EventOk event)
    (hlist : event ∈ s.lists.osEventList) (hcount : 0 < s.lists.osEventCount)
    (hfast : 0 < s.lists.osFastMutexCount) :
    osEventFree event s = some (s.dropEvent event) := by
  obtain ⟨e, hdestroy⟩ := osEventDestroy_eq hs hevent hfast
  have hs' : ((s.dropFastMutex (.event event)).setEvent event e).SyncFree :=
    (hs.set (by simp) none : (s.setFastMutex (.event event) none).SyncFree).congr rfl rfl rfl
      fun _ _ h => h
  obtain ⟨mutex, hsync, hfree⟩ := hs' hinited
  rw [osEventFree, hdestroy, Option.bind_eq_bind, Option.bind_some, underSync_eq hsync hfree,
    ← unlinkEvent_eq hlist hcount e]
  cases ((s.dropFastMutex (.event event)).setEvent event e).modifyLists (unlinkEvent event) <;> rfl

theorem State.SyncFree.setMutex {s : State Ptr} (h : s.SyncFree) (mutex event : Ptr) :
    (s.setMutex mutex (some ⟨event, 0⟩)).SyncFree := by
  intro hinited
  obtain ⟨m, hsync, ⟨e, hm⟩, hfast⟩ := h hinited
  refine ⟨m, hsync, ?_, hfast⟩
  by_cases hmutex : m = mutex
  · exact ⟨event, by simp [State.setMutex, hmutex]⟩
  · exact ⟨e, by simp [State.setMutex, hmutex, hm]⟩

theorem osMutexCreate_eq {s : State Ptr} (hs : s.SyncFree)
    (hsync : s.osSyncMutex.isSome = s.osSyncMutexInited) (mutex event : Ptr) :
    osMutexCreate mutex event s = some ((s.newEvent event).newMutex mutex event) := by
  have hs₁ : (s.newFastMutex (.handle mutex)).SyncFree := hs.init (.handle mutex)
  have hs₂ : ((s.newFastMutex (.handle mutex)).newEvent event).SyncFree := hs₁.init (.event event)
  have hplaces : Function.update (Function.update s.fastMutexes (.handle mutex) (some false))
      (.event event) (some false) = Function.update
        (Function.update s.fastMutexes (.event event) (some false)) (.handle mutex) (some false) :=
    Function.update_comm (by simp) _ _ _
  rw [osMutexCreate, osFastMutexInit_eq hs, Option.bind_eq_bind, Option.bind_some,
    osEventCreate_eq hs₁ hsync, Option.bind_some]
  refine (underSyncIf_eq (hs₂.setMutex mutex event) _).trans ?_
  simp only [State.modifyLists, State.newFastMutex, State.newEvent, State.newMutex,
    State.setFastMutex, State.setEvent, State.setMutex, Option.map_some, hplaces]

/-- The second half of `os_mutex_free`. -/
theorem unlinkMutex_eq {s : State Ptr} {mutex : Ptr} (hs : s.SyncFree) (hnot : s.NotSync mutex)
    (hlist : mutex ∈ s.lists.osMutexList) (hcount : 0 < s.lists.osMutexCount)
    (hfree : s.fastMutexes (.handle mutex) = some false) (hfast : 0 < s.lists.osFastMutexCount) :
    ((underSyncIf s.osSyncMutexInited (unlinkMutex mutex) s).bind fun s =>
      (osFastMutexFree (.handle mutex) s).bind fun s => some (s.setMutex mutex none)) =
        some (s.dropMutex mutex) := by
  obtain ⟨l, hl⟩ : ∃ l, l = { s.lists with
      osMutexList := s.lists.osMutexList.erase mutex
      osMutexCount := s.lists.osMutexCount - 1 } := ⟨_, rfl⟩
  have hunlink : s.modifyLists (unlinkMutex mutex) = some { s with lists := l } := by
    simp [State.modifyLists, unlinkMutex, remove, decrement, hlist, hcount, hl]
  have hs' : (s.setFastMutex (.handle mutex) none).SyncFree := by
    intro hinited
    refine hs.set (p := .handle mutex) (fun m hm h => hnot hinited ?_) none hinited
    rw [hm, Place.handle.inj h]
  have hfast' : 0 < l.osFastMutexCount := by rw [hl]; exact hfast
  have hdrop : osFastMutexFree (.handle mutex) { s with lists := l } =
      some (State.dropFastMutex { s with lists := l } (.handle mutex)) :=
    osFastMutexFree_eq hs' hfree hfast'
  rw [underSyncIf_eq hs, hunlink, Option.bind_some, hdrop, Option.bind_some, hl]
  rfl

/-- In `os_sync_free` the events are freed already. -/
theorem osMutexFree_closing {s : State Ptr} {mutex : Ptr} {m : OsMutex Ptr}
    (hcalled : s.osSyncFreeCalled = true) (hmutex : s.mutexes mutex = some m) (hs : s.SyncFree)
    (hnot : s.NotSync mutex) (hlist : mutex ∈ s.lists.osMutexList)
    (hcount : 0 < s.lists.osMutexCount) (hfree : s.fastMutexes (.handle mutex) = some false)
    (hfast : 0 < s.lists.osFastMutexCount) :
    osMutexFree mutex s = some (s.dropMutex mutex) := by
  rw [osMutexFree, hmutex, Option.bind_eq_bind, Option.bind_some, hcalled, if_pos rfl,
    Option.bind_eq_bind, Option.bind_some, ← unlinkMutex_eq hs hnot hlist hcount hfree hfast]
  rfl

theorem osMutexFree_eq {s : State Ptr} {mutex : Ptr} {m : OsMutex Ptr}
    (hcalled : s.osSyncFreeCalled = false) (hmutex : s.mutexes mutex = some m) (hs : s.SyncFree)
    (hevent : s.EventOk m.event) (helist : m.event ∈ s.lists.osEventList)
    (hecount : 0 < s.lists.osEventCount) (hnot : s.NotSync mutex)
    (hlist : mutex ∈ s.lists.osMutexList) (hcount : 0 < s.lists.osMutexCount)
    (hfree : s.fastMutexes (.handle mutex) = some false) (hfast : 1 < s.lists.osFastMutexCount) :
    osMutexFree mutex s = some ((s.dropEvent m.event).dropMutex mutex) := by
  have hs' : (s.dropEvent m.event).SyncFree :=
    (hs.set (by simp) none : (s.setFastMutex (.event m.event) none).SyncFree).congr rfl rfl rfl
      fun _ _ h => h
  have hfree' : (s.dropEvent m.event).fastMutexes (.handle mutex) = some false :=
    (s.fastMutexes_setFastMutex_of_ne (p := .event m.event) (by simp) none).trans hfree
  have hfast' : 0 < (s.dropEvent m.event).lists.osFastMutexCount := Nat.sub_pos_of_lt hfast
  rw [osMutexFree, hmutex, Option.bind_eq_bind, Option.bind_some, hcalled,
    if_neg Bool.false_ne_true, osEventFreeInternal_eq hs hevent helist hecount (by omega),
    Option.bind_eq_bind, Option.bind_some, ← unlinkMutex_eq hs' hnot hlist hcount hfree' hfast']
  rfl

end Htmsql.OsSync
