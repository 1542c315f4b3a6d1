import Htmsql.GlobalLock.Machine
import Mathlib.Data.Fintype.Basic

/-!
# Exclusion under the global lock

The sections exclude each other in every run in which a constructor leaves alone what the calls of
the other threads still need, and in which nobody calls `lock` through pointers that are not those
of one lock (`Ok`). The calls that are in progress then all go through the same member function, and
the word and the mutex each belong to the thread that has acquired them (`Inv`). Without the
condition a constructor that runs while somebody is inside opens the section to a second thread.
-/

namespace Htmsql.GlobalLock

open Innodb (Held held_free)
open LockType (EnumType Word Local Code Effect lockChecked unlockChecked)
open Run (Reach exec exec_result guarded)

variable {T : Type}

/-! ## The condition -/

/-- A call that went through the member function `m` finds what it needs to get out again. -/
def Object.Serves (o : Object T) (m : Member) : Prop :=
  m ≠ .no ∧ o.unlock = some m ∧
    (m = .type → (o.typeLockFunction.bind spinOf).isSome ∧ (o.typeUnlockFunction.bind spinOf).isSome)

instance (o : Object T) (m : Member) : Decidable (o.Serves m) := by
  unfold Object.Serves
  infer_instance

/-- The lock object after the next assignment of the constructor that `t` is in. -/
def Sys.assigned (s : Sys T) (t : T) : Object T :=
  match s.thread t with
  | .constructing k (f :: _) => s.locker.assign (.fresh k) f
  | _ => s.locker

/-- An assignment keeps the mutex and the word as they are and leaves every call that is in
progress what it needs; a call goes through pointers that belong together. -/
def Ok (s : Sys T) : Act T → Prop
  | .assign t =>
    (s.assigned t).pMutex = s.locker.pMutex ∧ (s.assigned t).typeMutex = s.locker.typeMutex ∧
      ∀ u, ∀ m ∈ (s.thread u).calls, (s.assigned t).Serves m
  | .call _ => ∀ m ∈ s.locker.lock, s.locker.Serves m
  | _ => True

instance [DecidableEq T] [Fintype T] (s : Sys T) (a : Act T) : Decidable (Ok s a) := by
  cases a <;> unfold Ok <;> infer_instance

/-! ## The invariant -/

/-- What is known of the point of a thread: inside the lock and unlock functions it is a point of
a function that passed the check, and an unlock is for the member that it belongs to. -/
def Thread.Ok : Thread → Prop
  | locking k l => ∃ code, ∃ h : k.typeLockFunction = some code, (lockChecked h).At l
  | pthreadUnlock m => m = .pthread
  | typeUnlock m => m = .type
  | unlocking m k l =>
    m = .type ∧ ∃ code, ∃ h : k.typeUnlockFunction = some code, (unlockChecked h).At l
  | _ => True

/-- The thread has acquired the word. -/
def Thread.holdsWord (p : Thread) : Bool := decide (p.acquired = some .type)

/-- The invariant of the runs that meet the condition: the two mutexes are held by the threads
that have acquired them, and all calls go through the members that the locker serves. -/
structure Inv (s : Sys T) : Prop where
  word : Held s.locker.typeMutex.toNat fun t => (s.thread t).holdsWord
  mutex : ∀ t, (s.thread t).acquired = some .pthread ↔ s.locker.pMutex = some t
  serves : ∀ t, ∀ m ∈ (s.thread t).calls, s.locker.Serves m
  ok : ∀ t, (s.thread t).Ok

/-- What a step of `t` acquires and releases. -/
inductive Change (s s' : Sys T) (t : T) : Prop where
  | keep (ha : (s'.thread t).acquired = (s.thread t).acquired)
      (hw : s'.locker.typeMutex = s.locker.typeMutex) (hm : s'.locker.pMutex = s.locker.pMutex)
  | takeWord (ha : (s.thread t).acquired = none) (ha' : (s'.thread t).acquired = some .type)
      (hw : s.locker.typeMutex = 0) (hw' : s'.locker.typeMutex = 1)
      (hm : s'.locker.pMutex = s.locker.pMutex)
  | releaseWord (ha : (s.thread t).acquired = some .type) (ha' : (s'.thread t).acquired = none)
      (hw' : s'.locker.typeMutex = 0) (hm : s'.locker.pMutex = s.locker.pMutex)
  | takeMutex (ha : (s.thread t).acquired = none) (ha' : (s'.thread t).acquired = some .pthread)
      (hm : s.locker.pMutex = none) (hm' : s'.locker.pMutex = some t)
      (hw : s'.locker.typeMutex = s.locker.typeMutex)
  | releaseMutex (ha : (s.thread t).acquired = some .pthread) (ha' : (s'.thread t).acquired = none)
      (hm' : s'.locker.pMutex = none) (hw : s'.locker.typeMutex = s.locker.typeMutex)

/-- A step of `t`. -/
structure Move (s s' : Sys T) (t : T) : Prop where
  frame : ∀ u, u ≠ t → s'.thread u = s.thread u
  change : Change s s' t
  serves : ∀ u, ∀ m ∈ (s'.thread u).calls, s'.locker.Serves m
  ok : (s'.thread t).Ok

theorem Inv.binary {s : Sys T} (h : Inv s) :
    s.locker.typeMutex = 0 ∨ s.locker.typeMutex = 1 := by
  rcases h.word.binary with hw | hw
  · exact Or.inl (BitVec.eq_of_toNat_eq hw)
  · exact Or.inr (BitVec.eq_of_toNat_eq hw)

theorem Thread.holdsWord_iff {p : Thread} : p.holdsWord = true ↔ p.acquired = some .type := by
  simp [Thread.holdsWord]

theorem Thread.holdsWord_of_ne {p : Thread} (h : p.acquired ≠ some .type) :
    p.holdsWord = false := by
  simp [Thread.holdsWord, h]

variable [DecidableEq T]

theorem Inv.move {s s' : Sys T} (h : Inv s) {t : T} (hm : Move s s' t) : Inv s' := by
  have hother : ∀ u, u ≠ t → (s'.thread u).holdsWord = (s.thread u).holdsWord := by
    intro u hu
    rw [hm.frame u hu]
  refine ⟨?_, ?_, hm.serves, fun u => ?_⟩
  · have hcongr : (s'.thread t).holdsWord = (s.thread t).holdsWord →
        s'.locker.typeMutex = s.locker.typeMutex →
        Held s'.locker.typeMutex.toNat fun t => (s'.thread t).holdsWord := by
      intro hself hw
      rw [hw]
      refine h.word.congr fun u => ?_
      by_cases hu : u = t
      · exact hu ▸ hself
      · exact hother u hu
    cases hm.change with
    | keep ha hw _ => exact hcongr (by rw [Thread.holdsWord, Thread.holdsWord, ha]) hw
    | takeWord _ ha' hw hw' _ =>
      have hfree := h.word
      rw [hw] at hfree
      rw [hw']
      exact Held.take hfree (Thread.holdsWord_iff.mpr ha') hother
    | releaseWord ha ha' hw' _ =>
      rw [hw']
      exact h.word.reset (Thread.holdsWord_iff.mpr ha)
        (Thread.holdsWord_of_ne (by simp [ha'])) hother
    | takeMutex ha ha' _ _ hw => exact hcongr (by simp [Thread.holdsWord, ha, ha']) hw
    | releaseMutex ha ha' _ hw => exact hcongr (by simp [Thread.holdsWord, ha, ha']) hw
  · intro u
    by_cases hu : u = t
    · subst hu
      cases hm.change with
      | keep ha _ hm => rw [ha, hm, h.mutex u]
      | takeWord ha ha' _ _ hm =>
        rw [ha', hm, ← h.mutex u, ha]
        simp
      | releaseWord ha ha' _ hm =>
        rw [ha', hm, ← h.mutex u, ha]
        simp
      | takeMutex _ ha' _ hm' _ => rw [ha', hm']; simp
      | releaseMutex _ ha' hm' _ => rw [ha', hm']; simp
    · rw [hm.frame u hu, h.mutex u]
      cases hm.change with
      | keep _ _ hm | takeWord _ _ _ _ hm | releaseWord _ _ _ hm => rw [hm]
      | takeMutex _ _ hm hm' _ =>
        rw [hm, hm']
        simp [Ne.symm hu]
      | releaseMutex ha _ hm' _ =>
        rw [hm', (h.mutex t).mp ha]
        simp [Ne.symm hu]
  · by_cases hu : u = t
    · exact hu ▸ hm.ok
    · rw [hm.frame u hu]
      exact h.ok u

/-! ## One step -/

variable {s s' : Sys T} {t : T}

theorem goto_self (s : Sys T) (t : T) (p : Thread) : (s.goto t p).thread t = p :=
  Function.update_self _ _ _

theorem goto_of_ne (s : Sys T) {t u : T} (hu : u ≠ t) (p : Thread) :
    (s.goto t p).thread u = s.thread u :=
  Function.update_of_ne hu _ _

/-- The calls that are in progress after `t` has moved. -/
theorem serves_goto {o : Object T} {p : Thread}
    (hother : ∀ u, u ≠ t → ∀ m ∈ (s.thread u).calls, o.Serves m)
    (hself : ∀ m ∈ p.calls, o.Serves m) :
    ∀ u, ∀ m ∈ (((s.setLocker o).goto t p).thread u).calls, o.Serves m := by
  intro u
  by_cases hu : u = t
  · rw [hu, goto_self]
    exact hself
  · rw [goto_of_ne _ hu]
    exact hother u hu

/-- A step that moves `t` and changes no lock. -/
theorem Inv.goto (h : Inv s) {p : Thread} (ha : p.acquired = (s.thread t).acquired)
    (hc : ∀ m ∈ p.calls, s.locker.Serves m) (hok : p.Ok) : Move s (s.goto t p) t where
  frame _ hu := goto_of_ne s hu p
  change := .keep (by rw [goto_self, ha]) rfl rfl
  serves := serves_goto (s := s) (fun u _ => h.serves u) hc
  ok := by rwa [goto_self]

/-- The two outcomes of a step of a function. -/
theorem runCode_cases {code : Code} {l : Local} {cont : Local → Thread} {done : Thread}
    (hs : s.runCode t code l cont done = some s') :
    code[l.pc]? = some .ret ∧ s' = s.goto t done ∨
      ∃ i w l', code[l.pc]? = some i ∧ i.exec s.locker.typeMutex l = some (w, l') ∧
        s' = (s.setLocker { s.locker with typeMutex := w }).goto t (cont l') := by
  unfold Sys.runCode at hs
  exact Code.step_cases hs

/-- A step of a checked function, of a thread that is inside exactly if it has acquired the word. -/
theorem Inv.effect (h : Inv s) {w : Word} {l l' : Local} {p : Thread}
    (ha : (s.thread t).acquired = if l.acquired then some .type else none)
    (ha' : p.acquired = if l'.acquired then some .type else none)
    (hc : ∀ m ∈ p.calls, s.locker.Serves m) (hok : p.Ok)
    (he : Effect s.locker.typeMutex w l l') :
    Move s ((s.setLocker { s.locker with typeMutex := w }).goto t p) t where
  frame _ hu := goto_of_ne _ hu p
  serves := serves_goto (s := s) (fun u _ => h.serves u) hc
  ok := by rwa [goto_self]
  change := by
    have hself : (((s.setLocker { s.locker with typeMutex := w }).goto t p).thread t).acquired =
        if l'.acquired then some .type else none := by
      rw [goto_self, ha']
    cases he with
    | keep hw hl => exact .keep (by rw [hself, hl, ha]) hw rfl
    | acquire hw hw' hl hl' =>
      exact .takeWord (by simp [ha, hl]) (by simp [hself, hl']) hw hw' rfl
    | release hw' hl hl' => exact .releaseWord (by simp [ha, hl]) (by simp [hself, hl']) hw' rfl

theorem spinOf_cases {k k' : EnumType} (h : spinOf k = some k') :
    ∃ code code', k'.typeLockFunction = some code ∧ k'.typeUnlockFunction = some code' := by
  have hk : k'.typeLockFunction.isSome := by
    unfold spinOf at h
    split at h
    · cases h
      rfl
    · split at h
      · rename_i hk
        cases h
        exact hk
      · cases h
  obtain ⟨code, hcode⟩ := Option.isSome_iff_exists.mp hk
  obtain ⟨code', hcode'⟩ := Option.isSome_iff_exists.mp
    ((LockType.typeUnlockFunction_isSome k').trans hk)
  exact ⟨code, code', hcode, hcode'⟩

/-- The first step of an unlock function releases; after it comes the return. -/
theorem unlock_acquired {k : EnumType} {code : Code} (h : k.typeUnlockFunction = some code)
    {l l' : Local} {w w' : Word} {i : LockType.Instr} (hat : (unlockChecked h).At l)
    (hi : code[l.pc]? = some i) (he : i.exec w l = some (w', l')) : l.acquired = true := by
  obtain ⟨f, hf, hl⟩ := hat
  have hret : code[1]? = some .ret := by
    cases k <;> cases h <;> rfl
  obtain ⟨hlt, hget⟩ := List.getElem?_eq_some_iff.mp hf
  have hpc : l.pc = 0 ∨ l.pc = 1 := by
    change l.pc < 2 at hlt
    omega
  rcases hpc with hpc | hpc
  · simp only [hpc] at hf
    cases hf
    exact hl
  · rw [hpc, hret] at hi
    cases hi
    cases he

theorem locking_ok {k : EnumType} {code : Code} (h : k.typeLockFunction = some code) :
    (Thread.locking k ⟨0, 0, 0, false⟩).Ok :=
  ⟨code, h, (lockChecked h).at_start rfl ⟨rfl, by simp⟩⟩

theorem Inv.run (h : Inv s) (hs : s.run t = some s') : Move s s' t := by
  have hok := h.ok t
  have hserves := h.serves t
  unfold Sys.run at hs
  split at hs
  · rename_i hp
    split at hs
    · rename_i hfree
      cases hs
      rw [hp] at hserves
      exact {
        frame := fun _ hu => goto_of_ne _ hu _
        change := .takeMutex (by rw [hp]; rfl) (by rw [goto_self]; rfl) hfree rfl rfl
        serves := serves_goto (s := s) (fun u _ => h.serves u) hserves
        ok := by rw [goto_self]; trivial }
    · cases hs
  · rename_i hp
    obtain ⟨k, -, hs⟩ := Option.bind_eq_some_iff.mp hs
    rw [hp] at hserves
    split at hs
    · cases hs
      exact h.goto (by rw [hp]; rfl) hserves trivial
    · split at hs
      · rename_i hk
        cases hs
        obtain ⟨code, hcode⟩ := Option.isSome_iff_exists.mp hk
        exact h.goto (by rw [hp]; rfl) hserves (locking_ok hcode)
      · cases hs
  · rename_i k l hp
    obtain ⟨code, hcode, hs⟩ := Option.bind_eq_some_iff.mp hs
    rw [hp] at hok hserves
    obtain ⟨_, hcode', hat⟩ := hok
    obtain rfl := Option.some.inj (hcode.symm.trans hcode')
    rcases runCode_cases hs with ⟨hret, rfl⟩ | ⟨i, w, l', hi, he, rfl⟩
    · have hent : l.acquired = true := (lockChecked hcode).ret hat hret
      exact h.goto (by rw [hp]; simp [Thread.acquired, hent]) hserves trivial
    · obtain ⟨hat', heff⟩ := (lockChecked hcode).exec hat hi h.binary he
      exact h.effect (by rw [hp]; rfl) rfl hserves ⟨code, hcode, hat'⟩ heff
  · rename_i m hp
    cases hs
    rw [hp] at hok
    cases hok
    exact {
      frame := fun _ hu => goto_of_ne _ hu _
      change := .releaseMutex (by rw [hp]; rfl) (by rw [goto_self]; rfl) rfl rfl
      serves := serves_goto (s := s) (fun u _ => h.serves u) (by simp [Thread.calls])
      ok := by rw [goto_self]; trivial }
  · rename_i m hp
    obtain ⟨k, hk, rfl⟩ := Option.map_eq_some_iff.mp hs
    obtain ⟨k₀, -, hspin⟩ := Option.bind_eq_some_iff.mp hk
    obtain ⟨-, code, -, hcode⟩ := spinOf_cases hspin
    rw [hp] at hok hserves
    exact h.goto (by rw [hp]; rfl) hserves
      ⟨hok, code, hcode, (unlockChecked hcode).at_start rfl rfl⟩
  · rename_i m k l hp
    obtain ⟨code, hcode, hs⟩ := Option.bind_eq_some_iff.mp hs
    rw [hp] at hok hserves
    obtain ⟨rfl, _, hcode', hat⟩ := hok
    obtain rfl := Option.some.inj (hcode.symm.trans hcode')
    rcases runCode_cases hs with ⟨hret, rfl⟩ | ⟨i, w, l', hi, he, rfl⟩
    · have hout := ((unlockChecked hcode).ret hat hret).not_acquired rfl
      exact h.goto (by rw [hp]; simp [Thread.acquired, hout]) (by simp [Thread.calls]) trivial
    · obtain ⟨hat', heff⟩ := (unlockChecked hcode).exec hat hi h.binary he
      have hacq := unlock_acquired hcode hat hi he
      refine h.effect (by rw [hp]; rfl) rfl (fun m hm => ?_) ⟨rfl, code, hcode, hat'⟩ heff
      simp only [Thread.calls, Option.mem_def, Option.ite_none_right_eq_some] at hm
      exact hserves m (by simp [Thread.calls, hacq, hm.2])
  · cases hs

/-- The thread that takes the step. -/
def Act.thread : Act T → T
  | .construct t _ | .assign t | .call t | .run t | .attempt t _ | .unlock t => t

theorem Inv.assign (h : Inv s) (hok : Ok s (.assign t)) (hs : step s (.assign t) = some s') :
    Move s s' t := by
  obtain ⟨hmutex, hword, hserves⟩ := hok
  simp only [step] at hs
  split at hs
  · rename_i k f todo hp
    cases hs
    have ho : s.assigned t = s.locker.assign (.fresh k) f := by rw [Sys.assigned, hp]
    rw [ho] at hmutex hword hserves
    exact {
      frame := fun _ hu => goto_of_ne _ hu _
      change := .keep (by rw [goto_self, hp]; rfl) hword hmutex
      serves := serves_goto (s := s) (fun u _ => hserves u) (by simp [Thread.calls])
      ok := by rw [goto_self]; trivial }
  · rename_i k hp
    cases hs
    have hm : Move s (s.goto t .outside) t :=
      h.goto (by rw [hp]; rfl) (by simp [Thread.calls]) trivial
    refine ⟨hm.frame, ?_, hm.serves, hm.ok⟩
    have hout := congrArg Thread.acquired (goto_self s t .outside)
    exact .keep (hout.trans (by rw [hp]; rfl)) rfl rfl
  · cases hs

theorem Inv.step {a : Act T} (h : Inv s) (hok : Ok s a) (hs : step s a = some s') :
    Move s s' a.thread := by
  cases a with
  | construct t k =>
    simp only [GlobalLock.step, Option.ite_none_right_eq_some, Option.some.injEq] at hs
    obtain ⟨⟨hp, -⟩, rfl⟩ := hs
    exact h.goto (by rw [hp]; rfl) (by simp [Thread.calls]) trivial
  | assign t => exact h.assign hok hs
  | call t =>
    simp only [GlobalLock.step, Option.ite_none_right_eq_some, Option.map_eq_some_iff] at hs
    obtain ⟨⟨hp, -⟩, m, hm, rfl⟩ := hs
    have hserves := hok m hm
    cases m with
    | no => exact (hserves.1 rfl).elim
    | pthread => exact h.goto (by rw [hp]; rfl) (by simpa [enterMember, Thread.calls]) trivial
    | type => exact h.goto (by rw [hp]; rfl) (by simpa [enterMember, Thread.calls]) trivial
  | run t => exact h.run hs
  | attempt t retry =>
    simp only [GlobalLock.step] at hs
    split at hs
    · rename_i failures hp
      have hserves := h.serves t
      rw [hp] at hserves
      split at hs <;> cases hs
      · exact h.goto (by rw [hp]; rfl) hserves trivial
      · exact h.goto (by rw [hp]; rfl) hserves (locking_ok rfl)
    · cases hs
  | unlock t =>
    simp only [GlobalLock.step] at hs
    split at hs
    · rename_i m hp
      obtain ⟨m', hm', rfl⟩ := Option.map_eq_some_iff.mp hs
      have hserves := h.serves t
      rw [hp] at hserves
      obtain ⟨hne, hun, -⟩ := hserves m rfl
      obtain rfl := Option.some.inj (hm'.symm.trans hun)
      cases m' with
      | no => exact (hne rfl).elim
      | pthread => exact h.goto (by rw [hp]; rfl) hserves rfl
      | type => exact h.goto (by rw [hp]; rfl) hserves rfl
    · cases hs

omit [DecidableEq T] in
theorem inv_init : Inv (init : Sys T) where
  word := held_free fun _ => rfl
  mutex t := by simp [init, Thread.acquired]
  serves t m hm := by simp [init, Thread.calls] at hm
  ok _ := trivial

theorem reach_inv (h : Reach GlobalLock.step (· = init) Ok s) : Inv s := by
  refine h.invariant ?_ fun s a s' hi hok hs => hi.move (hi.step hok hs)
  rintro _ rfl
  exact inv_init

/-! ## Exclusion -/

/-- The thread is between its lock and its unlock. -/
def Sys.Inside (s : Sys T) (t : T) : Prop := (s.thread t).acquired ≠ none

/-- Between the two states, `t` gives back the word, or the mutex, that it has acquired. -/
def ReleasesOwn (s s' : Sys T) (t : T) : Prop :=
  (s.thread t).acquired = some .type ∧ s.locker.typeMutex = 1 ∧ s'.locker.typeMutex = 0 ∧
      s'.locker.pMutex = s.locker.pMutex ∨
    (s.thread t).acquired = some .pthread ∧ s.locker.pMutex = some t ∧ s'.locker.pMutex = none ∧
      s'.locker.typeMutex = s.locker.typeMutex

omit [DecidableEq T] in
theorem calls_of_acquired {p : Thread} {m : Member} (h : p.acquired = some m) :
    m ∈ p.calls := by
  cases p with
  | locking k l =>
    simp only [Thread.acquired, Option.ite_none_right_eq_some] at h
    exact h.2
  | inside m' | pthreadUnlock m' | typeUnlock m' | unlocking m' k l => exact h
  | _ => cases h

omit [DecidableEq T] in
theorem Inv.unique (h : Inv s) {u : T} (ht : s.Inside t) (hu : s.Inside u) : t = u := by
  obtain ⟨m, hm⟩ := Option.ne_none_iff_exists'.mp ht
  obtain ⟨m', hm'⟩ := Option.ne_none_iff_exists'.mp hu
  obtain ⟨hne, hun, -⟩ := h.serves t m (calls_of_acquired hm)
  obtain ⟨-, hun', -⟩ := h.serves u m' (calls_of_acquired hm')
  obtain rfl := Option.some.inj (hun.symm.trans hun')
  cases m with
  | no => exact (hne rfl).elim
  | type => exact h.word.unique t u (Thread.holdsWord_iff.mpr hm) (Thread.holdsWord_iff.mpr hm')
  | pthread =>
    have := ((h.mutex t).mp hm).symm.trans ((h.mutex u).mp hm')
    exact Option.some.inj this

theorem Inv.releasesOwn (h : Inv s) {a : Act T} (hok : Ok s a) (hs : GlobalLock.step s a = some s')
    (ht : s.Inside t) (ht' : ¬ s'.Inside t) : ReleasesOwn s s' t := by
  have hm := h.step hok hs
  have hnone : (s'.thread t).acquired = none := not_not.mp ht'
  have hta : t = a.thread := by
    by_contra hne
    rw [hm.frame t hne] at hnone
    exact ht hnone
  subst hta
  cases hm.change with
  | keep ha _ _ => exact (ht (ha.symm.trans hnone)).elim
  | takeWord ha | takeMutex ha => exact (ht ha).elim
  | releaseWord ha _ hw' hmu =>
    have hone : s.locker.typeMutex = 1 :=
      BitVec.eq_of_toNat_eq (h.word.set _ (Thread.holdsWord_iff.mpr ha))
    exact Or.inl ⟨ha, hone, hw', hmu⟩
  | releaseMutex ha _ hm' hw => exact Or.inr ⟨ha, (h.mutex _).mp ha, hm', hw⟩

/-- As long as every step meets the condition, one thread at most is inside, and a thread that
leaves gives back what it has acquired itself. -/
theorem globalLock_exclusive (h : Reach GlobalLock.step (· = init) Ok s) :
    (∀ t u, s.Inside t → s.Inside u → t = u) ∧
      ∀ a s', Ok s a → GlobalLock.step s a = some s' →
        ∀ t, s.Inside t → ¬ s'.Inside t → ReleasesOwn s s' t := by
  have hinv := reach_inv h
  exact ⟨fun _ _ => hinv.unique, fun _ _ hok hs _ => hinv.releasesOwn hok hs⟩

/-- A map is constructed from beginning to end. -/
def build (t : Bool) (k : EnumType) : List (Act Bool) :=
  .construct t k :: List.replicate 7 (.assign t)

/-- A call of `atomic_exch_lock_spec` that finds the word 0. -/
def enter (t : Bool) : List (Act Bool) :=
  .call t :: List.replicate 4 (.run t)

/-- A second map is constructed while a thread is in `type_lock` of the first one. -/
def secondMapBefore : List (Act Bool) :=
  build false .atomicExchSpec ++ .call true :: build false .atomicExchSpec ++
    List.replicate 4 (.run true)

theorem globalLock_exclusive_secondMapBefore :
    ∃ s, exec (guarded step Ok) init secondMapBefore = some s ∧ s.Inside true ∧
      ∀ t u, s.Inside t → s.Inside u → t = u := by
  obtain ⟨s, hs, ht⟩ := exec_result (guarded step Ok) init secondMapBefore
    (fun s => s.thread true) (.inside .type) (by decide)
  refine ⟨s, hs, ?_, (globalLock_exclusive (.exec_guarded (.init rfl) hs)).1⟩
  rw [Sys.Inside, ht]
  simp [Thread.acquired]

/-- A second map is constructed while a thread is inside. -/
def secondMap : List (Act Bool) :=
  build false .atomicExchSpec ++ enter false ++ build true .atomicExchSpec ++ enter true

theorem globalLock_not_exclusive :
    ∃ s : Sys Bool, Reach step (· = init) (fun _ _ => True) s ∧ s.Inside false ∧
      s.Inside true := by
  obtain ⟨s, hs, hst⟩ := exec_result step init secondMap
    (fun s => (s.thread false, s.thread true)) (.inside .type, .inside .type) (by decide)
  obtain ⟨hf, ht⟩ := Prod.mk.inj hst
  refine ⟨s, .exec (.init rfl) hs, ?_, ?_⟩
  · rw [Sys.Inside, hf]
    simp [Thread.acquired]
  · rw [Sys.Inside, ht]
    simp [Thread.acquired]

end Htmsql.GlobalLock
