import Htmsql.OsSync.Effects

/-!
# From `os_sync_init` to `os_sync_free`

`Valid` holds between two calls, and every admitted call succeeds and keeps it. In the loops of
`os_sync_free` a part of it holds, `Counted`.
-/

namespace Htmsql.OsSync

variable {Ptr : Type} [DecidableEq Ptr]

/-! ## The invariant -/

/-- What holds in the loops of `os_sync_free`, too. -/
structure Counted (s : State Ptr) : Prop where
  events : s.lists.osEventList.Nodup
  mutexes : s.lists.osMutexList.Nodup
  eventOk : ∀ event ∈ s.lists.osEventList, s.EventOk event
  eventCount : s.lists.osEventCount = s.lost + s.lists.osEventList.length
  mutexCount : s.lists.osMutexCount = s.lists.osMutexList.length
  fastMutexCount : s.lists.osFastMutexCount =
    s.lists.osEventCount + s.lists.osMutexCount + s.others.length
  others : s.others.Nodup ∧ ∀ p, p ∈ s.others ↔ s.fastMutexes (.other p) ≠ none

/-- A slow mutex that is in the list, with its event. -/
def State.MutexOk (s : State Ptr) (mutex : Ptr) : Prop :=
  ∃ m, s.mutexes mutex = some m ∧ m.event ∈ s.lists.osEventList ∧
    (m.count = 0 ∧ s.fastMutexes (.handle mutex) = some false ∨
      m.count = 1 ∧ s.fastMutexes (.handle mutex) = some true)

/-- Between two calls. -/
structure Valid (s : State Ptr) : Prop extends Counted s where
  notCalled : s.osSyncFreeCalled = false
  mutexOk : ∀ mutex ∈ s.lists.osMutexList, s.MutexOk mutex
  eventOf : ∀ mutex ∈ s.lists.osMutexList, ∀ mutex' ∈ s.lists.osMutexList,
    s.eventOf mutex = s.eventOf mutex' → mutex = mutex'
  /-- `os_sync_mutex` is the last that `os_sync_free` comes to. -/
  sync : s.osSyncMutexInited = true → ∃ mutexes mutex, s.lists.osMutexList = mutexes ++ [mutex] ∧
    s.osSyncMutex = some mutex ∧ s.fastMutexes (.handle mutex) = some false
  notInited : s.osSyncMutexInited = false → s.lists.osMutexList = []

namespace Counted

variable {s : State Ptr}

omit [DecidableEq Ptr] in
theorem eventOk_of_eq (h : Counted s) {s' : State Ptr} {event : Ptr}
    (hevents : s'.events event = s.events event)
    (hfast : s'.fastMutexes (.event event) = s.fastMutexes (.event event))
    (hmem : event ∈ s.lists.osEventList) : s'.EventOk event := by
  obtain ⟨hfree, hevent⟩ := h.eventOk event hmem
  exact ⟨hfast.trans hfree, by rw [hevents]; exact hevent⟩

omit [DecidableEq Ptr] in
theorem not_mem_events (h : Counted s) {event : Ptr} (hevent : s.events event = none) :
    event ∉ s.lists.osEventList := by
  intro hmem
  obtain ⟨-, isSet, signalCount, he⟩ := h.eventOk event hmem
  rw [hevent] at he
  exact absurd he (by simp)

theorem newEvent (h : Counted s) {event : Ptr} (hevent : s.events event = none) :
    Counted (s.newEvent event) where
  events := List.nodup_cons.mpr ⟨h.not_mem_events hevent, h.events⟩
  mutexes := h.mutexes
  eventOk := by
    intro e he
    by_cases hnew : e = event
    · exact ⟨by simp [hnew], false, 0, by simp [hnew]⟩
    · have hmem : e ∈ s.lists.osEventList := (List.mem_cons.mp he).resolve_left hnew
      exact h.eventOk_of_eq (by simp [hnew]) (by simp [hnew]) hmem
  eventCount := by
    simp only [State.newEvent, State.setEvent, State.newFastMutex, State.setFastMutex,
      List.length_cons, h.eventCount]
    omega
  mutexCount := h.mutexCount
  fastMutexCount := by
    simp only [State.newEvent, State.setEvent, State.newFastMutex, State.setFastMutex,
      h.fastMutexCount]
    omega
  others := by simpa using h.others

theorem dropEvent (h : Counted s) {event : Ptr} (hmem : event ∈ s.lists.osEventList) :
    Counted (s.dropEvent event) where
  events := h.events.erase event
  mutexes := h.mutexes
  eventOk := by
    intro e he
    obtain ⟨hne, he⟩ := h.events.mem_erase_iff.mp he
    exact h.eventOk_of_eq (by simp [hne]) (by simp [hne]) he
  eventCount := by
    have hpos := List.length_pos_of_mem hmem
    simp only [State.dropEvent, State.setEvent, State.dropFastMutex, State.setFastMutex,
      List.length_erase_of_mem hmem, h.eventCount]
    omega
  mutexCount := h.mutexCount
  fastMutexCount := by
    have hpos := List.length_pos_of_mem hmem
    simp only [State.dropEvent, State.setEvent, State.dropFastMutex, State.setFastMutex,
      h.fastMutexCount, h.eventCount]
    omega
  others := by simpa using h.others

theorem newMutex (h : Counted s) {mutex : Ptr} (hmem : mutex ∉ s.lists.osMutexList) (event : Ptr) :
    Counted (s.newMutex mutex event) where
  events := h.events
  mutexes := List.nodup_cons.mpr ⟨hmem, h.mutexes⟩
  eventOk := fun e he => h.eventOk_of_eq rfl (by simp) he
  eventCount := h.eventCount
  mutexCount := congrArg (· + 1) h.mutexCount
  fastMutexCount := by
    simp only [State.newMutex, State.setMutex, State.newFastMutex, State.setFastMutex,
      h.fastMutexCount]
    omega
  others := by simpa using h.others

theorem dropMutex (h : Counted s) {mutex : Ptr} (hmem : mutex ∈ s.lists.osMutexList) :
    Counted (s.dropMutex mutex) where
  events := h.events
  mutexes := h.mutexes.erase mutex
  eventOk := fun e he => h.eventOk_of_eq rfl (by simp) he
  eventCount := h.eventCount
  mutexCount := by
    simp only [State.dropMutex, State.setMutex, State.dropFastMutex, State.setFastMutex,
      List.length_erase_of_mem hmem, h.mutexCount]
  fastMutexCount := by
    have hpos := List.length_pos_of_mem hmem
    simp only [State.dropMutex, State.setMutex, State.dropFastMutex, State.setFastMutex,
      h.fastMutexCount, h.mutexCount]
    omega
  others := by simpa using h.others

end Counted

/-! ## The loops of `os_sync_free` -/

/-- What the first loop does. -/
structure EventsFreed (s s' : State Ptr) : Prop where
  eventList : s'.lists.osEventList = []
  mutexList : s'.lists.osMutexList = s.lists.osMutexList
  events : ∀ event,
    s'.events event = if event ∈ s.lists.osEventList then none else s.events event
  mutexes : s'.mutexes = s.mutexes
  handles : ∀ mutex, s'.fastMutexes (.handle mutex) = s.fastMutexes (.handle mutex)
  sync : s'.osSyncMutex = s.osSyncMutex
  inited : s'.osSyncMutexInited = s.osSyncMutexInited
  called : s'.osSyncFreeCalled = s.osSyncFreeCalled
  lost : s'.lost = s.lost
  others : s'.others = s.others

theorem freeEvents_succ {s : State Ptr} {event : Ptr} {events : List Ptr}
    (hlist : s.lists.osEventList = event :: events) (n : Nat) :
    freeEvents (n + 1) s = (osEventFree event s).bind (freeEvents n) := by
  simp only [freeEvents, hlist]

theorem freeEvents_spec {s : State Ptr} (h : Counted s) (hs : s.SyncFree)
    (hinited : s.osSyncMutexInited = true) {n : Nat} (hn : s.lists.osEventList.length = n) :
    ∃ s', freeEvents n s = some s' ∧ Counted s' ∧ EventsFreed s s' := by
  induction n generalizing s with
  | zero =>
    have hnil : s.lists.osEventList = [] := List.length_eq_zero_iff.mp hn
    refine ⟨s, if_pos hnil, h, ⟨hnil, rfl, ?_, rfl, fun _ => rfl, rfl, rfl, rfl, rfl, rfl⟩⟩
    intro event
    rw [hnil, if_neg (List.not_mem_nil)]
  | succ n ih =>
    obtain ⟨event, events, hlist⟩ := List.exists_cons_of_length_eq_add_one hn
    have hmem : event ∈ s.lists.osEventList := by rw [hlist]; exact List.mem_cons_self
    have hcount : 0 < s.lists.osEventCount := by
      rw [h.eventCount, hn]
      omega
    have hfast : 0 < s.lists.osFastMutexCount := by
      rw [h.fastMutexCount]
      omega
    have hs' : (s.dropEvent event).SyncFree :=
      (hs.set (by simp) none : (s.setFastMutex (.event event) none).SyncFree).congr rfl rfl rfl
        fun _ _ h => h
    have hlength : (s.dropEvent event).lists.osEventList.length = n := by
      simp only [State.dropEvent, List.length_erase_of_mem hmem, hn]
      omega
    obtain ⟨s', hfree, hcounted, heffect⟩ := ih (h.dropEvent hmem) hs' hinited hlength
    refine ⟨s', ?_, hcounted, ⟨heffect.eventList, heffect.mutexList, ?_, heffect.mutexes, ?_,
      heffect.sync, heffect.inited, heffect.called, heffect.lost, heffect.others⟩⟩
    · rw [freeEvents_succ hlist, osEventFree_eq hs hinited (h.eventOk event hmem) hmem hcount hfast,
        Option.bind_some, hfree]
    · intro e
      rw [heffect.events]
      by_cases he : e = event
      · simp [he, hmem]
      · simp [he, h.events.mem_erase_iff]
    · intro mutex
      rw [heffect.handles]
      simp

/-- What the second loop does. -/
structure MutexesFreed (s s' : State Ptr) : Prop where
  mutexList : s'.lists.osMutexList = []
  eventList : s'.lists.osEventList = s.lists.osEventList
  mutexes : ∀ mutex,
    s'.mutexes mutex = if mutex ∈ s.lists.osMutexList then none else s.mutexes mutex
  events : s'.events = s.events
  sync : s'.osSyncMutex = s.osSyncMutex
  inited : s'.osSyncMutexInited = false
  lost : s'.lost = s.lost
  others : s'.others = s.others

theorem freeMutexes_succ {s : State Ptr} {mutex : Ptr} {mutexes : List Ptr}
    (hlist : s.lists.osMutexList = mutex :: mutexes) (n : Nat) :
    freeMutexes (n + 1) s = (osMutexFree mutex
      (if some mutex = s.osSyncMutex then { s with osSyncMutexInited := false } else s)).bind
        (freeMutexes n) := by
  simp only [freeMutexes, hlist]

theorem freeMutexes_spec {s : State Ptr} {mutexes : List Ptr} {sync : Ptr} (h : Counted s)
    (hlist : s.lists.osMutexList = mutexes ++ [sync]) (hsync : s.osSyncMutex = some sync)
    (hinited : s.osSyncMutexInited = true) (hcalled : s.osSyncFreeCalled = true)
    (hfree : ∀ mutex ∈ s.lists.osMutexList, s.Free mutex) :
    ∃ s', freeMutexes (mutexes.length + 1) s = some s' ∧ Counted s' ∧ MutexesFreed s s' := by
  induction mutexes generalizing s with
  | nil =>
    rw [List.nil_append] at hlist
    have hmem : sync ∈ s.lists.osMutexList := by rw [hlist]; exact List.mem_singleton_self sync
    obtain ⟨⟨event, hmutex⟩, hfast⟩ := hfree sync hmem
    have hmcount : 0 < s.lists.osMutexCount := by
      rw [h.mutexCount, hlist]
      exact Nat.one_pos
    have hfcount : 0 < s.lists.osFastMutexCount := by
      rw [h.fastMutexCount]
      omega
    obtain ⟨s₀, hs₀⟩ : ∃ s₀, s₀ = { s with osSyncMutexInited := false } := ⟨_, rfl⟩
    have hcounted : Counted s₀ := by
      rw [hs₀]
      exact ⟨h.events, h.mutexes, h.eventOk, h.eventCount, h.mutexCount, h.fastMutexCount, h.others⟩
    have hdrop : osMutexFree sync s₀ = some (s₀.dropMutex sync) := by
      rw [hs₀]
      exact osMutexFree_closing hcalled hmutex (by simp [State.SyncFree]) (by simp [State.NotSync])
        hmem hmcount hfast hfcount
    have hempty : (s₀.dropMutex sync).lists.osMutexList = [] := by simp [hs₀, hlist]
    refine ⟨s₀.dropMutex sync, ?_, hcounted.dropMutex (by rw [hs₀]; exact hmem), ?_⟩
    · rw [freeMutexes_succ hlist, if_pos hsync.symm, ← hs₀, hdrop, Option.bind_some]
      exact if_pos hempty
    · refine ⟨hempty, by simp [hs₀], ?_, by simp [hs₀], by simp [hs₀], by simp [hs₀], by simp [hs₀],
        by simp [hs₀]⟩
      intro mutex
      by_cases hm : mutex = sync
      · simp [hm, hlist]
      · simp [hm, hlist, hs₀]
  | cons m mutexes ih =>
    have hmem : m ∈ s.lists.osMutexList := by rw [hlist]; exact List.mem_cons_self
    have hsyncMem : sync ∈ s.lists.osMutexList := by rw [hlist]; simp
    have hnodup := h.mutexes
    rw [hlist, List.cons_append] at hnodup
    have hne : m ≠ sync := by
      intro heq
      exact (List.nodup_cons.mp hnodup).1 (by simp [heq])
    obtain ⟨⟨event, hmutex⟩, hfast⟩ := hfree m hmem
    have hmcount : 0 < s.lists.osMutexCount := by
      rw [h.mutexCount]
      exact List.length_pos_of_mem hmem
    have hfcount : 0 < s.lists.osFastMutexCount := by
      rw [h.fastMutexCount]
      omega
    have hs : s.SyncFree := fun _ => ⟨sync, hsync, hfree sync hsyncMem⟩
    have hnot : s.NotSync m := by
      intro _ hm
      exact hne (Option.some.inj (hm.symm.trans hsync))
    have hdrop := osMutexFree_closing hcalled hmutex hs hnot hmem hmcount hfast hfcount
    have hlist' : (s.dropMutex m).lists.osMutexList = mutexes ++ [sync] := by
      simp [hlist]
    have hfree' : ∀ mutex ∈ (s.dropMutex m).lists.osMutexList, (s.dropMutex m).Free mutex := by
      intro mutex hmutex'
      rw [hlist'] at hmutex'
      have hne' : mutex ≠ m := by
        intro heq
        exact (List.nodup_cons.mp hnodup).1 (heq ▸ hmutex')
      obtain ⟨⟨e, he⟩, hf⟩ := hfree mutex (by rw [hlist]; exact List.mem_cons_of_mem m hmutex')
      exact ⟨⟨e, by simp [hne', he]⟩, by simp [hne', hf]⟩
    obtain ⟨s', hloop, hcounted, heffect⟩ :=
      ih (h.dropMutex hmem) hlist' hsync hinited hcalled hfree'
    refine ⟨s', ?_, hcounted, ⟨heffect.mutexList, heffect.eventList, ?_, heffect.events,
      heffect.sync, heffect.inited, heffect.lost, heffect.others⟩⟩
    · have hcond : some m ≠ s.osSyncMutex := by
        rw [hsync]
        exact fun heq => hne (Option.some.inj heq)
      rw [freeMutexes_succ hlist, if_neg hcond, hdrop, Option.bind_some]
      exact hloop
    · intro mutex
      rw [heffect.mutexes, hlist']
      by_cases hm : mutex = m
      · simp [hm, hlist]
      · simp [hm, hlist]

/-! ## The calls -/

namespace Valid

variable {s : State Ptr}

omit [DecidableEq Ptr] in
theorem free_of_unlocked (h : Valid s) {mutex : Ptr} (hmem : mutex ∈ s.lists.osMutexList)
    (hfast : s.fastMutexes (.handle mutex) = some false) : s.Free mutex := by
  obtain ⟨⟨event, count⟩, hmutex, -, hcount | hcount⟩ := h.mutexOk mutex hmem
  · exact ⟨⟨event, by rw [hmutex, ← hcount.1]⟩, hfast⟩
  · rw [hfast] at hcount
    exact absurd hcount.2 (by simp)

omit [DecidableEq Ptr] in
theorem syncFree (h : Valid s) : s.SyncFree := by
  intro hinited
  obtain ⟨mutexes, mutex, hlist, hsync, hfast⟩ := h.sync hinited
  exact ⟨mutex, hsync, h.free_of_unlocked (by rw [hlist]; simp) hfast⟩

omit [DecidableEq Ptr] in
theorem inited_of_mem (h : Valid s) {mutex : Ptr} (hmem : mutex ∈ s.lists.osMutexList) :
    s.osSyncMutexInited = true := by
  cases hinited : s.osSyncMutexInited with
  | true => rfl
  | false =>
    rw [h.notInited hinited] at hmem
    exact absurd hmem List.not_mem_nil

omit [DecidableEq Ptr] in
theorem not_mem_mutexes (h : Valid s) {mutex : Ptr} (hmutex : s.mutexes mutex = none) :
    mutex ∉ s.lists.osMutexList := by
  intro hmem
  obtain ⟨m, hm, -⟩ := h.mutexOk mutex hmem
  rw [hmutex] at hm
  exact absurd hm (by simp)

omit [DecidableEq Ptr] in
theorem eventOf_mem (h : Valid s) {mutex event : Ptr} (hmem : mutex ∈ s.lists.osMutexList)
    (hevent : s.eventOf mutex = some event) : event ∈ s.lists.osEventList := by
  obtain ⟨m, hm, hlist, -⟩ := h.mutexOk mutex hmem
  rw [State.eventOf, hm, Option.map_some] at hevent
  rwa [← Option.some.inj hevent]

theorem newEvent (h : Valid s) {event : Ptr} (hevent : s.events event = none) :
    Valid (s.newEvent event) where
  toCounted := h.toCounted.newEvent hevent
  notCalled := h.notCalled
  mutexOk := by
    intro mutex hmutex
    obtain ⟨m, hm, hlist, hcount⟩ := h.mutexOk mutex hmutex
    exact ⟨m, hm, List.mem_cons_of_mem event hlist, by simpa using hcount⟩
  eventOf := h.eventOf
  sync := by
    intro hinited
    obtain ⟨mutexes, mutex, hlist, hsync, hfast⟩ := h.sync hinited
    exact ⟨mutexes, mutex, hlist, hsync, by simpa using hfast⟩
  notInited := h.notInited

theorem dropEvent (h : Valid s) {event : Ptr} (hmem : event ∈ s.lists.osEventList)
    (howner : ∀ mutex ∈ s.lists.osMutexList, s.eventOf mutex ≠ some event) :
    Valid (s.dropEvent event) where
  toCounted := h.toCounted.dropEvent hmem
  notCalled := h.notCalled
  mutexOk := by
    intro mutex hmutex
    obtain ⟨m, hm, hlist, hcount⟩ := h.mutexOk mutex hmutex
    refine ⟨m, hm, h.events.mem_erase_iff.mpr ⟨?_, hlist⟩, by simpa using hcount⟩
    intro heq
    exact howner mutex hmutex (by rw [State.eventOf, hm, Option.map_some, heq])
  eventOf := h.eventOf
  sync := by
    intro hinited
    obtain ⟨mutexes, mutex, hlist, hsync, hfast⟩ := h.sync hinited
    exact ⟨mutexes, mutex, hlist, hsync, by simpa using hfast⟩
  notInited := h.notInited

/-- `os_mutex_create` in a valid state, where `os_sync_mutex` is there. -/
theorem newMutex (h : Valid s) (hinited : s.osSyncMutexInited = true) {mutex event : Ptr}
    (hmutex : s.mutexes mutex = none) (hevent : s.events event = none) :
    Valid ((s.newEvent event).newMutex mutex event) where
  toCounted := (h.toCounted.newEvent hevent).newMutex (h.not_mem_mutexes hmutex) event
  notCalled := h.notCalled
  mutexOk := by
    intro m hm
    by_cases hnew : m = mutex
    · exact ⟨⟨event, 0⟩, by simp [hnew], List.mem_cons_self, .inl ⟨rfl, by simp [hnew]⟩⟩
    · obtain ⟨x, hx, hlist, hcount⟩ := h.mutexOk m ((List.mem_cons.mp hm).resolve_left hnew)
      exact ⟨x, by simp [hnew, hx], List.mem_cons_of_mem event hlist, by simpa [hnew] using hcount⟩
  eventOf := by
    -- the event is in no other mutex, since it has just been allocated
    have hother : ∀ m ∈ s.lists.osMutexList, s.eventOf m ≠ some event := fun m hm heq =>
      h.not_mem_events hevent (h.eventOf_mem hm heq)
    have hnew : ((s.newEvent event).newMutex mutex event).eventOf mutex = some event := by
      simp [State.eventOf]
    have hold : ∀ m, m ≠ mutex →
        ((s.newEvent event).newMutex mutex event).eventOf m = s.eventOf m := by
      intro m hm
      simp [State.eventOf, hm]
    intro m hm m' hm' heq
    by_cases hm₁ : m = mutex
    · by_cases hm₂ : m' = mutex
      · rw [hm₁, hm₂]
      · rw [hm₁, hnew, hold m' hm₂] at heq
        exact absurd heq.symm (hother m' ((List.mem_cons.mp hm').resolve_left hm₂))
    · by_cases hm₂ : m' = mutex
      · rw [hm₂, hnew, hold m hm₁] at heq
        exact absurd heq (hother m ((List.mem_cons.mp hm).resolve_left hm₁))
      · rw [hold m hm₁, hold m' hm₂] at heq
        exact h.eventOf m ((List.mem_cons.mp hm).resolve_left hm₁) m'
          ((List.mem_cons.mp hm').resolve_left hm₂) heq
  sync := by
    intro _
    obtain ⟨mutexes, m, hlist, hsync, hfast⟩ := h.sync hinited
    have hne : m ≠ mutex := by
      intro heq
      exact h.not_mem_mutexes hmutex (by rw [hlist, heq]; simp)
    exact ⟨mutex :: mutexes, m, by simp [hlist], hsync, by simp [hne, hfast]⟩
  notInited := by
    intro hnot
    exact absurd (hinited.symm.trans hnot) (by simp)

/-- `os_mutex_free` of a mutex other than `os_sync_mutex`. -/
theorem dropMutex (h : Valid s) {mutex : Ptr} {x : OsMutex Ptr} (howned : s.Owned mutex)
    (hx : s.mutexes mutex = some x) (hlist : x.event ∈ s.lists.osEventList) :
    Valid ((s.dropEvent x.event).dropMutex mutex) where
  toCounted := (h.toCounted.dropEvent hlist).dropMutex howned.1
  notCalled := h.notCalled
  mutexOk := by
    intro m hm
    obtain ⟨hne, hm⟩ := h.mutexes.mem_erase_iff.mp hm
    obtain ⟨y, hy, hylist, hcount⟩ := h.mutexOk m hm
    refine ⟨y, by simp [hne, hy], h.events.mem_erase_iff.mpr ⟨?_, hylist⟩,
      by simpa [hne] using hcount⟩
    intro heq
    refine hne (h.eventOf m hm mutex howned.1 ?_)
    rw [State.eventOf, State.eventOf, hy, hx, Option.map_some, Option.map_some, heq]
  eventOf := by
    intro m hm m' hm' heq
    obtain ⟨hne, hm⟩ := h.mutexes.mem_erase_iff.mp hm
    obtain ⟨hne', hm'⟩ := h.mutexes.mem_erase_iff.mp hm'
    exact h.eventOf m hm m' hm' (by simpa [State.eventOf, hne, hne'] using heq)
  sync := by
    intro hinited
    obtain ⟨mutexes, m, hmutexes, hsync, hfast⟩ := h.sync hinited
    have hne : m ≠ mutex := by
      intro heq
      exact howned.2 (by rw [hsync, heq])
    have hmem : mutex ∈ mutexes := by
      have hmem := howned.1
      rw [hmutexes, List.mem_append, List.mem_singleton] at hmem
      exact hmem.resolve_right fun heq => hne heq.symm
    refine ⟨mutexes.erase mutex, m, ?_, hsync, by simp [hne, hfast]⟩
    exact (congrArg (·.erase mutex) hmutexes).trans (List.erase_append_left [m] hmem)
  notInited := by
    intro hnot
    exact absurd ((h.inited_of_mem howned.1).symm.trans hnot) (by simp)

theorem setEvent (h : Valid s) (event : Ptr) (isSet : Bool) (signalCount : Nat) :
    Valid (s.setEvent event (some ⟨true, isSet, signalCount + 1⟩)) where
  toCounted := by
    refine ⟨h.events, h.mutexes, ?_, h.eventCount, h.mutexCount, h.fastMutexCount, h.others⟩
    intro e he
    by_cases heq : e = event
    · exact ⟨(h.eventOk e he).1, isSet, signalCount, by simp [heq]⟩
    · exact h.eventOk_of_eq (by simp [heq]) rfl he
  notCalled := h.notCalled
  mutexOk := h.mutexOk
  eventOf := h.eventOf
  sync := h.sync
  notInited := h.notInited

/-- `os_mutex_enter` and `os_mutex_exit`. -/
theorem setLocked (h : Valid s) {mutex : Ptr} {x : OsMutex Ptr} (howned : s.Owned mutex)
    (hx : s.mutexes mutex = some x) (locked : Bool) :
    Valid ((s.setFastMutex (.handle mutex) (some locked)).setMutex mutex
      (some ⟨x.event, locked.toNat⟩)) where
  toCounted := by
    refine ⟨h.events, h.mutexes, ?_, h.eventCount, h.mutexCount, h.fastMutexCount,
      by simpa using h.others⟩
    exact fun e he => h.eventOk_of_eq rfl (by simp) he
  notCalled := h.notCalled
  mutexOk := by
    intro m hm
    obtain ⟨y, hy, hlist, hcount⟩ := h.mutexOk m hm
    by_cases heq : m = mutex
    · rw [heq, hx] at hy
      rw [← Option.some.inj hy] at hlist
      refine ⟨⟨x.event, locked.toNat⟩, by simp [heq], hlist, ?_⟩
      cases locked with
      | false => exact .inl ⟨rfl, by simp [heq]⟩
      | true => exact .inr ⟨rfl, by simp [heq]⟩
    · exact ⟨y, by simp [heq, hy], hlist, by simpa [heq] using hcount⟩
  eventOf := by
    have hsame : ∀ m, ((s.setFastMutex (.handle mutex) (some locked)).setMutex mutex
        (some ⟨x.event, locked.toNat⟩)).eventOf m = s.eventOf m := by
      intro m
      by_cases heq : m = mutex
      · simp [State.eventOf, heq, hx]
      · simp [State.eventOf, heq]
    intro m hm m' hm' heq
    rw [hsame, hsame] at heq
    exact h.eventOf m hm m' hm' heq
  sync := by
    intro hinited
    obtain ⟨mutexes, m, hlist, hsync, hfast⟩ := h.sync hinited
    have hne : m ≠ mutex := by
      intro heq
      exact howned.2 (by rw [hsync, heq])
    exact ⟨mutexes, m, hlist, hsync, by simp [hne, hfast]⟩
  notInited := h.notInited

/-- A fast mutex in other memory. -/
theorem setOther (h : Valid s) {p : Ptr} {v : Option Bool} {others : List Ptr} {n : Nat}
    (hothers : others.Nodup ∧
      ∀ q, q ∈ others ↔ (s.setFastMutex (.other p) v).fastMutexes (.other q) ≠ none)
    (hn : n = s.lists.osEventCount + s.lists.osMutexCount + others.length) :
    Valid { s.setFastMutex (.other p) v with
      lists := { s.lists with osFastMutexCount := n }
      others := others } where
  toCounted := by
    refine ⟨h.events, h.mutexes, ?_, h.eventCount, h.mutexCount, hn, hothers⟩
    exact fun e he => h.eventOk_of_eq rfl (by simp) he
  notCalled := h.notCalled
  mutexOk := by
    intro m hm
    obtain ⟨x, hx, hlist, hcount⟩ := h.mutexOk m hm
    exact ⟨x, hx, hlist, by simpa using hcount⟩
  eventOf := h.eventOf
  sync := by
    intro hinited
    obtain ⟨mutexes, m, hlist, hsync, hfast⟩ := h.sync hinited
    exact ⟨mutexes, m, hlist, hsync, by simpa using hfast⟩
  notInited := h.notInited

end Valid

/-! ### One lemma for each call -/

section Calls

variable {s : State Ptr}

theorem osEventSet_valid (h : Valid s) {event : Ptr} (hmem : event ∈ s.lists.osEventList) :
    ∃ s', osEventSet event s = some s' ∧ Valid s' := by
  obtain ⟨hfast, isSet, signalCount, he⟩ := h.eventOk event hmem
  have hsame : Function.update s.fastMutexes (.event event) (some false) = s.fastMutexes := by
    rw [← hfast, Function.update_eq_self]
  cases isSet with
  | false =>
    refine ⟨_, ?_, h.setEvent event true (signalCount + 1)⟩
    simp [osEventSet, osFastMutexLock, osFastMutexUnlock, hfast, he, hsame]
  | true =>
    refine ⟨s, ?_, h⟩
    simp [osEventSet, osFastMutexLock, osFastMutexUnlock, hfast, he, hsame]

theorem osEventReset_valid (h : Valid s) {event : Ptr} (hmem : event ∈ s.lists.osEventList) :
    ∃ s' n, osEventReset event s = some (s', n + 1) ∧ Valid s' := by
  obtain ⟨hfast, isSet, signalCount, he⟩ := h.eventOk event hmem
  have hsame : Function.update s.fastMutexes (.event event) (some false) = s.fastMutexes := by
    rw [← hfast, Function.update_eq_self]
  cases isSet with
  | false =>
    refine ⟨s, signalCount, ?_, h⟩
    simp [osEventReset, osFastMutexLock, osFastMutexUnlock, hfast, he, hsame]
  | true =>
    refine ⟨_, signalCount, ?_, h.setEvent event false signalCount⟩
    simp [osEventReset, osFastMutexLock, osFastMutexUnlock, hfast, he, hsame]

theorem osMutexEnter_valid (h : Valid s) {mutex : Ptr} (howned : s.Owned mutex)
    (hfast : s.fastMutexes (.handle mutex) = some false) :
    ∃ s', osMutexEnter mutex s = some s' ∧ Valid s' := by
  obtain ⟨⟨event, hx⟩, -⟩ := h.free_of_unlocked howned.1 hfast
  refine ⟨_, ?_, h.setLocked howned hx true⟩
  simp [osMutexEnter, osFastMutexLock, hx, hfast]

theorem osMutexExit_valid (h : Valid s) {mutex : Ptr} (howned : s.Owned mutex)
    (hfast : s.fastMutexes (.handle mutex) = some true) :
    ∃ s', osMutexExit mutex s = some s' ∧ Valid s' := by
  obtain ⟨⟨event, count⟩, hx, -, hcount | hcount⟩ := h.mutexOk mutex howned.1
  · rw [hfast] at hcount
    exact absurd hcount.2 (by simp)
  · have hone : count = 1 := hcount.1
    refine ⟨_, ?_, h.setLocked howned hx false⟩
    simp [osMutexExit, osFastMutexUnlock, hx, hfast, hone]

theorem osMutexFree_valid (h : Valid s) {mutex : Ptr} (howned : s.Owned mutex)
    (hfast : s.fastMutexes (.handle mutex) = some false) :
    ∃ s', osMutexFree mutex s = some s' ∧ Valid s' := by
  obtain ⟨x, hx, hlist, -⟩ := h.mutexOk mutex howned.1
  have helength := List.length_pos_of_mem hlist
  have hmlength := List.length_pos_of_mem howned.1
  have hecount : 0 < s.lists.osEventCount := by
    rw [h.eventCount]
    omega
  have hmcount : 0 < s.lists.osMutexCount := by rwa [h.mutexCount]
  have hfcount : 1 < s.lists.osFastMutexCount := by
    rw [h.fastMutexCount]
    omega
  refine ⟨_, ?_, h.dropMutex howned hx hlist⟩
  exact osMutexFree_eq h.notCalled hx h.syncFree (h.eventOk x.event hlist) hlist hecount
    (fun _ => howned.2) howned.1 hmcount hfast hfcount

theorem osEventFree_valid (h : Valid s) (hinited : s.osSyncMutexInited = true) {event : Ptr}
    (hmem : event ∈ s.lists.osEventList)
    (howner : ∀ mutex ∈ s.lists.osMutexList, s.eventOf mutex ≠ some event) :
    ∃ s', osEventFree event s = some s' ∧ Valid s' := by
  have hlength := List.length_pos_of_mem hmem
  have hecount : 0 < s.lists.osEventCount := by
    rw [h.eventCount]
    omega
  have hfcount : 0 < s.lists.osFastMutexCount := by
    rw [h.fastMutexCount]
    omega
  refine ⟨_, ?_, h.dropEvent hmem howner⟩
  exact osEventFree_eq h.syncFree hinited (h.eventOk event hmem) hmem hecount hfcount

theorem osMutexCreate_valid (h : Valid s) (hinited : s.osSyncMutexInited = true) {mutex event : Ptr}
    (hmutex : s.mutexes mutex = none) (hevent : s.events event = none) :
    ∃ s', osMutexCreate mutex event s = some s' ∧ Valid s' := by
  obtain ⟨_, _, -, hsync, -⟩ := h.sync hinited
  refine ⟨_, ?_, h.newMutex hinited hmutex hevent⟩
  exact osMutexCreate_eq h.syncFree (by rw [hsync, hinited]; rfl) mutex event

theorem fastMutexInit_valid (h : Valid s) {p : Ptr} (hp : s.fastMutexes (.other p) = none) :
    ∃ s', call s (.fastMutexInit p) = some s' ∧ Valid s' := by
  have hnot : p ∉ s.others := fun hmem => (h.others.2 p).mp hmem hp
  have hothers : (p :: s.others).Nodup ∧ ∀ q, q ∈ p :: s.others ↔
      (s.setFastMutex (.other p) (some false)).fastMutexes (.other q) ≠ none := by
    refine ⟨List.nodup_cons.mpr ⟨hnot, h.others.1⟩, fun q => ?_⟩
    by_cases hq : q = p
    · simp [hq]
    · simpa [hq] using h.others.2 q
  refine ⟨_, ?_, h.setOther hothers (n := s.lists.osFastMutexCount + 1) ?_⟩
  · rw [call, osFastMutexInit_eq h.syncFree, Option.map_some]
    rfl
  · rw [h.fastMutexCount, List.length_cons, Nat.add_assoc]

theorem fastMutexFree_valid (h : Valid s) {p : Ptr} (hp : s.fastMutexes (.other p) = some false) :
    ∃ s', call s (.fastMutexFree p) = some s' ∧ Valid s' := by
  have hmem : p ∈ s.others := (h.others.2 p).mpr (by simp [hp])
  have hlength := List.length_pos_of_mem hmem
  have hcount : 0 < s.lists.osFastMutexCount := by
    rw [h.fastMutexCount]
    omega
  have hothers : (s.others.erase p).Nodup ∧ ∀ q, q ∈ s.others.erase p ↔
      (s.setFastMutex (.other p) none).fastMutexes (.other q) ≠ none := by
    refine ⟨h.others.1.erase p, fun q => ?_⟩
    rw [h.others.1.mem_erase_iff, h.others.2 q]
    by_cases hq : q = p
    · simp [hq]
    · simp [hq]
  refine ⟨_, ?_, h.setOther hothers (n := s.lists.osFastMutexCount - 1) ?_⟩
  · rw [call, osFastMutexFree_eq (h.syncFree.set (by simp) none) hp hcount, Option.map_some]
    rfl
  · rw [h.fastMutexCount, List.length_erase_of_mem hmem]
    omega

/-- `os_fast_mutex_lock` and `os_fast_mutex_unlock` of a fast mutex in other memory. -/
theorem fastMutex_valid (h : Valid s) {p : Ptr} {locked : Bool}
    (hp : s.fastMutexes (.other p) = some locked) (locked' : Bool) :
    Valid (s.setFastMutex (.other p) (some locked')) := by
  refine h.setOther ⟨h.others.1, fun q => ?_⟩ h.fastMutexCount
  rw [h.others.2 q]
  by_cases hq : q = p
  · simp [hq, hp]
  · simp [hq]

theorem syncInit_valid (h : Valid s) (hinited : s.osSyncMutexInited = false) {mutex event : Ptr} :
    ∃ s', call s (.syncInit mutex event) = some s' ∧ Valid s' := by
  obtain ⟨s₀, hs₀⟩ : ∃ s₀, s₀ = { s with
      lists := { s.lists with osEventList := [], osMutexList := [] }
      osSyncMutex := none
      osSyncMutexInited := false } := ⟨_, rfl⟩
  have hcreate : osMutexCreate mutex event s₀ = some ((s₀.newEvent event).newMutex mutex event) :=
    osMutexCreate_eq (by simp [State.SyncFree, hs₀]) (by simp [hs₀]) mutex event
  have hnil := h.notInited hinited
  refine ⟨{ (s₀.newEvent event).newMutex mutex event with
      osSyncMutex := some mutex
      osSyncMutexInited := true
      lost := s.lost + s.lists.osEventList.length }, ?_, ?_⟩
  · rw [call, osSyncInit, ← hs₀, hcreate]
    rfl
  · refine ⟨⟨by simp [hs₀], by simp [hs₀], ?_, ?_, ?_, ?_, by simpa [hs₀] using h.others⟩, ?_, ?_,
      ?_, fun _ => ⟨[], mutex, by simp [hs₀], rfl, by simp⟩, by simp⟩
    · intro e he
      have heq : e = event := by simpa [hs₀] using he
      exact ⟨by simp [heq], false, 0, by simp [heq]⟩
    · simp [hs₀, h.eventCount]
    · simp [hs₀, h.mutexCount, hnil]
    · have hcount := h.fastMutexCount
      simp [hs₀]
      omega
    · simp [hs₀, h.notCalled]
    · intro m hm
      have heq : m = mutex := by simpa [hs₀] using hm
      exact ⟨⟨event, 0⟩, by simp [heq], by simp, .inl ⟨rfl, by simp [heq]⟩⟩
    · intro m hm m' hm' _
      have heq : m = mutex := by simpa [hs₀] using hm
      have heq' : m' = mutex := by simpa [hs₀] using hm'
      rw [heq, heq']

/-- What `os_sync_free` leaves. -/
structure Closed (s s' : State Ptr) : Prop where
  lists : s'.lists = ⟨[], [], s.lost, 0, s.lost + s.others.length⟩
  events : ∀ event ∈ s.lists.osEventList, s'.events event = none
  mutexes : ∀ mutex ∈ s.lists.osMutexList, s'.mutexes mutex = none
  /-- It still points to the mutex that is freed. -/
  sync : s'.osSyncMutex = s.osSyncMutex
  inited : s'.osSyncMutexInited = false

theorem osSyncFree_valid (h : Valid s) (hinited : s.osSyncMutexInited = true)
    (hfree : ∀ mutex ∈ s.lists.osMutexList, s.fastMutexes (.handle mutex) = some false) :
    ∃ s', osSyncFree s = some s' ∧ Valid s' ∧ Closed s s' := by
  obtain ⟨s₀, hs₀⟩ : ∃ s₀, s₀ = { s with osSyncFreeCalled := true } := ⟨_, rfl⟩
  have hcounted : Counted s₀ := by
    rw [hs₀]
    exact ⟨h.events, h.mutexes, h.eventOk, h.eventCount, h.mutexCount, h.fastMutexCount, h.others⟩
  have hsyncFree : s₀.SyncFree := by
    rw [hs₀]
    exact h.syncFree
  obtain ⟨mutexes, sync, hlist, hsync, -⟩ := h.sync hinited
  obtain ⟨s₁, hloop₁, hcounted₁, he⟩ :=
    freeEvents_spec hcounted hsyncFree (by rw [hs₀]; exact hinited) rfl
  have hlist₁ : s₁.lists.osMutexList = mutexes ++ [sync] := by rw [he.mutexList, hs₀, hlist]
  have hfree₁ : ∀ mutex ∈ s₁.lists.osMutexList, s₁.Free mutex := by
    intro mutex hmem
    rw [he.mutexList, hs₀] at hmem
    obtain ⟨hmutex, hfast⟩ := h.free_of_unlocked hmem (hfree mutex hmem)
    refine ⟨?_, ?_⟩
    · rw [he.mutexes, hs₀]
      exact hmutex
    · rw [he.handles, hs₀]
      exact hfast
  obtain ⟨s₂, hloop₂, hcounted₂, hm⟩ := freeMutexes_spec hcounted₁ hlist₁
    (by rw [he.sync, hs₀, hsync]) (by rw [he.inited, hs₀, hinited]) (by rw [he.called, hs₀]) hfree₁
  have hlength : s₁.lists.osMutexList.length = mutexes.length + 1 := by simp [hlist₁]
  have heventNil : s₂.lists.osEventList = [] := by rw [hm.eventList, he.eventList]
  have hlost : s₂.lost = s.lost := by rw [hm.lost, he.lost, hs₀]
  have hothers : s₂.others = s.others := by rw [hm.others, he.others, hs₀]
  have hlists : s₂.lists = ⟨[], [], s.lost, 0, s.lost + s.others.length⟩ := by
    have hecount := hcounted₂.eventCount
    have hmcount := hcounted₂.mutexCount
    have hfcount := hcounted₂.fastMutexCount
    rw [heventNil, hlost] at hecount
    rw [hm.mutexList] at hmcount
    rw [hecount, hmcount, hothers] at hfcount
    exact Lists.ext heventNil hm.mutexList hecount hmcount hfcount
  obtain ⟨s', hs'⟩ : ∃ s', s' = { s₂ with osSyncFreeCalled := false } := ⟨_, rfl⟩
  refine ⟨s', ?_, ?_, ?_⟩
  · rw [osSyncFree, ← hs₀, hloop₁, Option.bind_eq_bind, Option.bind_some, hlength, hloop₂, hs']
    rfl
  · rw [hs']
    have hnone : ∀ mutex, mutex ∉ s₂.lists.osMutexList := by
      rw [hm.mutexList]
      exact fun _ => List.not_mem_nil
    exact ⟨⟨hcounted₂.events, hcounted₂.mutexes, hcounted₂.eventOk, hcounted₂.eventCount,
        hcounted₂.mutexCount, hcounted₂.fastMutexCount, hcounted₂.others⟩, rfl,
      fun mutex hmem => absurd hmem (hnone mutex), fun mutex hmem => absurd hmem (hnone mutex),
      fun hnot => absurd (hm.inited.symm.trans hnot) (by simp), fun _ => hm.mutexList⟩
  · rw [hs']
    refine ⟨hlists, ?_, ?_, by rw [hm.sync, he.sync, hs₀], hm.inited⟩
    · intro event hmem
      rw [hm.events, he.events, hs₀, if_pos hmem]
    · intro mutex hmem
      rw [hm.mutexes, if_pos]
      rw [he.mutexList, hs₀]
      exact hmem

/-- The next event cannot be created before `os_sync_init`: the section is in a mutex that is
freed. -/
theorem osEventCreate_closed (h : Valid s) (hinited : s.osSyncMutexInited = true) {s' : State Ptr}
    (hs' : Closed s s') (event : Ptr) : osEventCreate event s' = none := by
  obtain ⟨mutexes, sync, hlist, hsync, -⟩ := h.sync hinited
  have hfreed : s'.mutexes sync = none := hs'.mutexes sync (by rw [hlist]; simp)
  have hpointer : s'.osSyncMutex = some sync := hs'.sync.trans hsync
  have hsyncFree : s'.SyncFree := fun hnot => absurd (hs'.inited.symm.trans hnot) (by simp)
  rw [osEventCreate, osFastMutexInit_eq hsyncFree]
  simp [underSyncIf, underSync, osMutexEnter, hpointer, hfreed]

theorem call_valid (h : Valid s) {c : Call Ptr} (hadm : Admitted s c) :
    ∃ s', call s c = some s' ∧ Valid s' := by
  cases c with
  | syncInit mutex event => exact syncInit_valid h hadm.1
  | syncFree =>
    obtain ⟨s', hs', hvalid, -⟩ := osSyncFree_valid h hadm.1 hadm.2
    exact ⟨s', hs', hvalid⟩
  | eventCreate event =>
    exact ⟨_, osEventCreate_eq h.syncFree hadm.2 event, h.newEvent hadm.1⟩
  | eventSet event => exact osEventSet_valid h hadm
  | eventReset event =>
    obtain ⟨s', n, hs', hvalid⟩ := osEventReset_valid h hadm
    exact ⟨s', by rw [call, hs', Option.map_some], hvalid⟩
  | eventFree event => exact osEventFree_valid h hadm.1 hadm.2.1 hadm.2.2
  | mutexCreate mutex event => exact osMutexCreate_valid h hadm.1 hadm.2.1 hadm.2.2
  | mutexEnter mutex => exact osMutexEnter_valid h hadm.1 hadm.2
  | mutexExit mutex => exact osMutexExit_valid h hadm.1 hadm.2
  | mutexFree mutex => exact osMutexFree_valid h hadm.1 hadm.2
  | fastMutexInit p => exact fastMutexInit_valid h hadm
  | fastMutexLock p => exact ⟨_, if_pos hadm, fastMutex_valid h hadm true⟩
  | fastMutexUnlock p => exact ⟨_, if_pos hadm, fastMutex_valid h hadm false⟩
  | fastMutexFree p => exact fastMutexFree_valid h hadm

end Calls

omit [DecidableEq Ptr] in
theorem valid_initial : Valid (State.initial : State Ptr) where
  toCounted := by constructor <;> simp [State.initial]
  notCalled := rfl
  mutexOk := by simp [State.initial]
  eventOf := by simp [State.initial]
  sync := by simp [State.initial]
  notInited := fun _ => rfl

theorem valid_reachable {s : State Ptr} (h : Reachable s) : Valid s := by
  refine Run.Reach.invariant ?_ ?_ h
  · rintro _ rfl
    exact valid_initial
  · intro s c s' hs hadm hcall
    obtain ⟨s'', hs'', hvalid⟩ := call_valid hs hadm
    rw [hcall] at hs''
    rwa [Option.some.inj hs'']

/-- In every run of admitted calls: the counts are right, `os_sync_mutex` is the last in its list,
every admitted call succeeds, no event is reset at the count 0, and `os_sync_free` frees all that is
in the lists, after which no event can be created until `os_sync_init`. -/
theorem osSync_lifeCycle {s : State Ptr} (h : Reachable s) :
    (s.lists.osEventCount = s.lost + s.lists.osEventList.length ∧
      s.lists.osMutexCount = s.lists.osMutexList.length ∧
      s.lists.osFastMutexCount = s.lists.osEventCount + s.lists.osMutexCount + s.others.length) ∧
    (s.osSyncMutexInited = true → s.lists.osMutexList.getLast? = s.osSyncMutex) ∧
    (∀ c, Admitted s c → ∃ s', call s c = some s') ∧
    (∀ event ∈ s.lists.osEventList, ∃ s' n, osEventReset event s = some (s', n + 1)) ∧
    (Admitted s .syncFree → ∃ s', osSyncFree s = some s' ∧ Closed s s' ∧
      ∀ event, osEventCreate event s' = none) := by
  have hs := valid_reachable h
  refine ⟨⟨hs.eventCount, hs.mutexCount, hs.fastMutexCount⟩, ?_, ?_, ?_, ?_⟩
  · intro hinited
    obtain ⟨mutexes, mutex, hlist, hsync, -⟩ := hs.sync hinited
    rw [hlist, hsync, List.getLast?_concat]
  · intro c hadm
    obtain ⟨s', hs', -⟩ := call_valid hs hadm
    exact ⟨s', hs'⟩
  · intro event hmem
    obtain ⟨s', n, hs', -⟩ := osEventReset_valid hs hmem
    exact ⟨s', n, hs'⟩
  · intro hadm
    obtain ⟨s', hs', -, hclosed⟩ := osSyncFree_valid hs hadm.1 hadm.2
    exact ⟨s', hs', hclosed, osEventCreate_closed hs hadm.1 hclosed⟩

/-- An event is created before `os_sync_init`, and a fast mutex is still there at the end. -/
def startAndStop : List (Call Nat) :=
  [.eventCreate 0, .syncInit 1 10, .eventCreate 11, .mutexCreate 2 12, .fastMutexInit 5,
    .mutexEnter 2, .mutexExit 2, .eventSet 11, .eventReset 11]

theorem osSync_lifeCycle_startAndStop :
    ∃ s s' : State Nat, Reachable s ∧ s.lists = ⟨[12, 11, 10], [2, 1], 4, 2, 7⟩ ∧
      osSyncFree s = some s' ∧ s'.lists = ⟨[], [], 1, 0, 2⟩ ∧ osEventCreate 20 s' = none := by
  obtain ⟨s, hs, hst⟩ := Run.exec_result (Run.guarded call Admitted) State.initial startAndStop
    (fun s => (s.lists, s.lost, s.others, decide (Admitted s .syncFree)))
    (⟨[12, 11, 10], [2, 1], 4, 2, 7⟩, 1, [5], true) (by decide)
  obtain ⟨hlists, hlost, hothers, hadm⟩ : _ ∧ _ ∧ _ ∧ _ := by
    simpa only [Prod.mk.injEq, decide_eq_true_eq] using hst
  have hs : Reachable s := .exec_guarded (.init rfl) hs
  obtain ⟨s', hs', hclosed, hcreate⟩ := (osSync_lifeCycle hs).2.2.2.2 hadm
  refine ⟨s, s', hs, hlists, hs', ?_, hcreate 20⟩
  rw [hclosed.lists, hlost, hothers]
  rfl

end Htmsql.OsSync
