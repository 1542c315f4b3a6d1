import Htmsql.Innodb.Holder
import Htmsql.Lib.Run
import Htmsql.LockType.Discipline

/-!
# The spin locks exclude each other on one word

Any number of threads run sections on one word, each section guarded by a lock function and its
unlock function, chosen afresh each time. The functions pass the discipline (`lockFacts_check`,
`unlockFacts_check`); the word then belongs to the one thread that has acquired it (`Inv`), whatever
functions the threads use.
-/

namespace Htmsql.LockType

open Innodb (Held)
open Run (Reach exec exec_result)

/-- Where a thread is, with the local state of the function it is in. -/
inductive Thread where
  | outside
  /-- inside `type_lock_function` -/
  | locking (k : EnumType) (l : Local)
  | inside (k : EnumType)
  /-- inside `type_unlock_function` -/
  | unlocking (k : EnumType) (l : Local)
  deriving DecidableEq, Repr

/-- The thread is inside the critical section, from the exchange that acquires the word to the
store that resets it. -/
def Thread.holds : Thread → Bool
  | outside => false
  | locking _ l | unlocking _ l => l.acquired
  | inside _ => true

/-- The lock word and the threads. -/
structure Sys (T : Type) where
  word : Word
  thread : T → Thread

/-- A thread calls one of the functions or takes the next step in it. -/
inductive Act (T : Type) where
  | lock (t : T) (k : EnumType)
  /-- the next step of a lock or unlock function -/
  | run (t : T)
  | unlock (t : T)

variable {T : Type} [DecidableEq T]

/-- One step of a function; after the last one the thread is where `done` says. -/
def Sys.runCode (s : Sys T) (t : T) (code : Code) (l : Local) (cont : Local → Thread)
    (done : Thread) : Option (Sys T) :=
  code[l.pc]?.bind fun i =>
    if i = .ret then some { s with thread := Function.update s.thread t done }
    else (i.exec s.word l).map fun x => ⟨x.1, Function.update s.thread t (cont x.2)⟩

/-- One step of the machine, `none` where the call is not admitted or the function has no such
step. -/
def step (s : Sys T) : Act T → Option (Sys T)
  | .lock t k =>
    if s.thread t = .outside ∧ k.typeLockFunction.isSome then
      some { s with thread := Function.update s.thread t (.locking k ⟨0, 0, 0, false⟩) }
    else none
  | .run t =>
    match s.thread t with
    | .locking k l =>
      k.typeLockFunction.bind fun code => s.runCode t code l (.locking k) (.inside k)
    | .unlocking k l =>
      k.typeUnlockFunction.bind fun code => s.runCode t code l (.unlocking k) .outside
    | .outside | .inside _ => none
  | .unlock t =>
    match s.thread t with
    | .inside k =>
      some { s with thread := Function.update s.thread t (.unlocking k ⟨0, 0, 0, true⟩) }
    | _ => none

/-- The word is 0, and all threads are outside. -/
def init : Sys T := ⟨0, fun _ => .outside⟩

/-! ## The functions pass the discipline -/

/-- The facts at the points of a busy loop: waiting up to the exchange, decided after it. -/
def busyFacts : List Fact :=
  [.waiting none, .tried, .waiting none, .waiting none, .entered]

/-- The facts at the points of a loop that reads the word until it is free. -/
def specFacts : List Fact :=
  [.waiting none, .tried, .waiting none, .waiting none, .waiting none, .waiting none, .entered]

/-- The facts at the points of each lock function. -/
def lockFacts : EnumType → List Fact
  | .atomicExchBusy | .atomicExchHleBusy | .atomicTasBusy | .atomicTasHleBusy | .hleTasBusy
  | .hleExchBusy => busyFacts
  | .atomicExchSpec | .atomicExchHleSpec | .atomicTasSpec | .atomicTasHleSpec | .hleTasSpec
  | .hleExchSpec => specFacts
  | .hleExchSpecChecked =>
    [.waiting none, .waiting none, .waiting none, .waiting none, .tried, .waiting none,
      .waiting none, .waiting none, .waiting none, .entered]
  | .hleAsmExchBusy =>
    [.waiting none, .waiting (some 1), .tried, .waiting (some 1), .waiting (some 1), .tried,
      .entered]
  | .hleAsmExchSpec =>
    [.waiting none, .waiting (some 1), .tried, .entered, .waiting (some 1), .waiting (some 1),
      .waiting (some 1), .waiting (some 1), .waiting (some 1), .entered]
  | .hleAsmExchAsmSpec =>
    [.waiting none, .waiting (some 1), .tried, .waiting none, .waiting none, .waiting none,
      .waiting none, .entered]
  | .none | .pthread | .rtm | .rtmSmart => []

/-- The facts at the points of an unlock function, which begins inside. -/
def unlockFacts : List Fact := [.entered, .waiting none]

theorem lockFacts_check {k : EnumType} {code : Code} (h : k.typeLockFunction = some code) :
    (lockFacts k)[0]? = some (.waiting none) ∧ check code (lockFacts k) .entered = true := by
  cases k <;> cases h <;> decide

theorem unlockFacts_check {k : EnumType} {code : Code} (h : k.typeUnlockFunction = some code) :
    check code unlockFacts (.waiting none) = true := by
  cases k <;> cases h <;> decide

/-- Every lock function passes the check: it ends inside. -/
def lockChecked {k : EnumType} {code : Code} (h : k.typeLockFunction = some code) :
    Checked code (.waiting none) .entered :=
  ⟨lockFacts k, (lockFacts_check h).1, (lockFacts_check h).2⟩

/-- Every unlock function passes the check: it ends outside. -/
def unlockChecked {k : EnumType} {code : Code} (h : k.typeUnlockFunction = some code) :
    Checked code .entered (.waiting none) :=
  ⟨unlockFacts, rfl, unlockFacts_check h⟩

theorem typeUnlockFunction_isSome (k : EnumType) :
    k.typeUnlockFunction.isSome = k.typeLockFunction.isSome := by
  cases k <;> rfl

/-- The loops of the lock functions that load the word go back while it is 1. -/
theorem load_loops {k : EnumType} {code : Code} (h : k.typeLockFunction = some code) {pc : Nat}
    (hl : code[pc]? = some .load) :
    ∃ back ≤ pc, code[pc + 1]? = some (.jumpIf .val 1 back) := by
  have hcode : ∀ pc ∈ List.range code.length, code[pc]? = some .load →
      ∃ back ∈ List.range (pc + 1), code[pc + 1]? = some (.jumpIf .val 1 back) := by
    cases k <;> cases h <;> decide
  have hlt : pc < code.length := (List.getElem?_eq_some_iff.mp hl).1
  obtain ⟨back, hb, hj⟩ := hcode pc (List.mem_range.mpr hlt) hl
  exact ⟨back, Nat.lt_succ_iff.mp (List.mem_range.mp hb), hj⟩

/-! ## The invariant -/

/-- The thread is at a point of a function that passed the check, and the fact of that point
holds. -/
def Thread.Ok : Thread → Prop
  | outside => True
  | locking k l => ∃ code, ∃ h : k.typeLockFunction = some code, (lockChecked h).At l
  | inside k => k.typeLockFunction.isSome
  | unlocking k l => ∃ code, ∃ h : k.typeUnlockFunction = some code, (unlockChecked h).At l

/-- The word is 1 exactly while a thread has acquired it, and every thread is where its function
may be. -/
structure Inv (s : Sys T) : Prop where
  held : Held s.word.toNat fun t => (s.thread t).holds
  ok : ∀ t, (s.thread t).Ok

variable {s s' : Sys T} {t : T}

omit [DecidableEq T] in
theorem Inv.binary (h : Inv s) : s.word = 0 ∨ s.word = 1 := by
  rcases h.held.binary with hw | hw
  · exact Or.inl (BitVec.eq_of_toNat_eq hw)
  · exact Or.inr (BitVec.eq_of_toNat_eq hw)

omit [DecidableEq T] in
theorem Inv.set_iff (h : Inv s) : s.word = 1 ↔ ∃ t, (s.thread t).holds = true := by
  constructor
  · intro hw
    refine h.held.owned ?_
    rw [hw]
    decide
  · rintro ⟨t, ht⟩
    exact BitVec.eq_of_toNat_eq (h.held.set t ht)

theorem Inv.ok_update (h : Inv s) (t : T) {p : Thread} (hp : p.Ok) :
    ∀ u, (Function.update s.thread t p u).Ok :=
  (Function.forall_update_iff s.thread fun _ (q : Thread) => q.Ok).mpr ⟨hp, fun u _ => h.ok u⟩

/-- A thread moves while the word and its owner stay. -/
theorem Inv.move (h : Inv s) {p : Thread} (hh : p.holds = (s.thread t).holds) (hp : p.Ok) :
    Inv { s with thread := Function.update s.thread t p } := by
  refine ⟨h.held.congr fun u => ?_, h.ok_update t hp⟩
  by_cases hu : u = t
  · rw [hu]
    simp [hh]
  · simp [hu]

/-- One step of a checked function. -/
theorem Inv.effect (h : Inv s) {w : Word} {l l' : Local} {p : Thread}
    (hl : (s.thread t).holds = l.acquired) (hl' : p.holds = l'.acquired) (hp : p.Ok)
    (he : Effect s.word w l l') : Inv ⟨w, Function.update s.thread t p⟩ := by
  have hok := h.ok_update t hp
  have hself : (Function.update s.thread t p t).holds = l'.acquired := by
    rw [Function.update_self, hl']
  have hother : ∀ u, u ≠ t → (Function.update s.thread t p u).holds = (s.thread u).holds := by
    intro u hu
    rw [Function.update_of_ne hu]
  cases he with
  | keep hw ha =>
    rw [hw]
    exact h.move (by rw [hl', ha, hl]) hp
  | acquire hw hw' ha ha' =>
    refine ⟨?_, hok⟩
    have hfree := h.held
    rw [hw] at hfree
    rw [hw']
    exact Held.take hfree (hself.trans ha') hother
  | release hw' ha ha' =>
    refine ⟨?_, hok⟩
    rw [hw']
    exact h.held.reset (hl.trans ha) (hself.trans ha') hother

/-- The two outcomes of a step of a function. -/
theorem runCode_cases {code : Code} {l : Local} {cont : Local → Thread} {done : Thread}
    (hs : s.runCode t code l cont done = some s') :
    code[l.pc]? = some .ret ∧ s' = { s with thread := Function.update s.thread t done } ∨
      ∃ i w l', code[l.pc]? = some i ∧ i.exec s.word l = some (w, l') ∧
        s' = ⟨w, Function.update s.thread t (cont l')⟩ := by
  unfold Sys.runCode at hs
  exact Code.step_cases hs

theorem Inv.run (h : Inv s) (hs : step s (.run t) = some s') : Inv s' := by
  have hok := h.ok t
  simp only [step] at hs
  cases hp : s.thread t with
  | outside | inside k => simp [hp] at hs
  | locking k l =>
    simp only [hp, Option.bind_eq_some_iff] at hs hok
    obtain ⟨code, hcode, hs⟩ := hs
    obtain ⟨_, hcode', hat⟩ := hok
    obtain rfl := Option.some.inj (hcode.symm.trans hcode')
    have hholds : (s.thread t).holds = l.acquired := by rw [hp, Thread.holds]
    rcases runCode_cases hs with ⟨hret, rfl⟩ | ⟨i, w, l', hi, he, rfl⟩
    · have hent : l.acquired = true := (lockChecked hcode).ret hat hret
      exact h.move (by rw [hholds, hent]; rfl) (by simp [Thread.Ok, hcode])
    · obtain ⟨hat', heff⟩ := (lockChecked hcode).exec hat hi h.binary he
      exact h.effect hholds rfl ⟨code, hcode, hat'⟩ heff
  | unlocking k l =>
    simp only [hp, Option.bind_eq_some_iff] at hs hok
    obtain ⟨code, hcode, hs⟩ := hs
    obtain ⟨_, hcode', hat⟩ := hok
    obtain rfl := Option.some.inj (hcode.symm.trans hcode')
    have hholds : (s.thread t).holds = l.acquired := by rw [hp, Thread.holds]
    rcases runCode_cases hs with ⟨hret, rfl⟩ | ⟨i, w, l', hi, he, rfl⟩
    · have hout := ((unlockChecked hcode).ret hat hret).not_acquired rfl
      exact h.move (by rw [hholds, hout]; rfl) trivial
    · obtain ⟨hat', heff⟩ := (unlockChecked hcode).exec hat hi h.binary he
      exact h.effect hholds rfl ⟨code, hcode, hat'⟩ heff

theorem Inv.step {a : Act T} (h : Inv s) (hs : step s a = some s') : Inv s' := by
  cases a with
  | lock t k =>
    simp only [LockType.step, Option.ite_none_right_eq_some, Option.some.injEq] at hs
    obtain ⟨⟨hout, hk⟩, rfl⟩ := hs
    obtain ⟨code, hcode⟩ := Option.isSome_iff_exists.mp hk
    refine h.move (by rw [hout]; rfl) ⟨code, hcode, (lockChecked hcode).at_start rfl ?_⟩
    exact ⟨rfl, by simp⟩
  | run t => exact h.run hs
  | unlock t =>
    simp only [LockType.step] at hs
    split at hs
    · rename_i k hp
      cases hs
      have hk : k.typeLockFunction.isSome := by
        have hok := h.ok t
        rwa [hp] at hok
      obtain ⟨code, hcode⟩ := Option.isSome_iff_exists.mp
        ((typeUnlockFunction_isSome k).trans hk)
      refine h.move (by rw [hp]; rfl) ⟨code, hcode, (unlockChecked hcode).at_start rfl rfl⟩
    · cases hs

theorem reach_inv (h : Reach step (· = init) (fun _ _ => True) s) : Inv s := by
  refine h.invariant ?_ fun s a s' hi _ hs => hi.step hs
  rintro _ rfl
  exact ⟨Innodb.held_free fun _ => rfl, fun _ => trivial⟩

/-! ## Mutual exclusion -/

/-- What a waiting loop loads tells whether somebody is inside. -/
theorem Inv.load (h : Inv s) {k : EnumType} {l : Local} {code : Code}
    (hp : s.thread t = .locking k l) (hcode : k.typeLockFunction = some code)
    (hl : code[l.pc]? = some .load) :
    ∃ s' l', LockType.step s (.run t) = some s' ∧ s'.thread t = .locking k l' ∧
      l'.pc = l.pc + 1 ∧ (l'.val = 1 ↔ ∃ u, (s.thread u).holds = true) := by
  refine ⟨⟨s.word, Function.update s.thread t (.locking k { l with pc := l.pc + 1, val := s.word })⟩,
    { l with pc := l.pc + 1, val := s.word }, ?_, ?_, rfl, h.set_iff⟩
  · simp [LockType.step, hp, hcode, Sys.runCode, hl, Instr.exec]
  · simp

/-- At most one thread is inside, the word is 1 while there is one and 0 otherwise, and a waiting
loop goes round again exactly if there is one when it loads the word. -/
theorem spinLocks_exclude (h : Reach step (· = init) (fun _ _ => True) s) :
    (∀ t u, (s.thread t).holds = true → (s.thread u).holds = true → t = u) ∧
      (s.word = 0 ∨ s.word = 1) ∧ (s.word = 1 ↔ ∃ t, (s.thread t).holds = true) ∧
      ∀ t k l code, s.thread t = .locking k l → k.typeLockFunction = some code →
        code[l.pc]? = some .load →
          ∃ back ≤ l.pc, code[l.pc + 1]? = some (.jumpIf .val 1 back) ∧
            ∃ s' l', step s (.run t) = some s' ∧ s'.thread t = .locking k l' ∧
              l'.pc = l.pc + 1 ∧ (l'.val = 1 ↔ ∃ u, (s.thread u).holds = true) := by
  have hinv := reach_inv h
  refine ⟨hinv.held.unique, hinv.binary, hinv.set_iff, fun t k l code hp hcode hl => ?_⟩
  obtain ⟨back, hb, hj⟩ := load_loops hcode hl
  exact ⟨back, hb, hj, hinv.load hp hcode hl⟩

/-- A test-and-set of the low byte holds off an exchange of the assembly. -/
def mixedRun : List (Act Bool) :=
  [.lock true .atomicTasSpec, .run true, .run true, .run true,
    .lock false .hleAsmExchAsmSpec, .run false, .run false, .run false, .run false]

theorem spinLocks_exclude_mixedRun :
    ∃ s, exec step init mixedRun = some s ∧ s.thread true = .inside .atomicTasSpec ∧
      s.thread false = .locking .hleAsmExchAsmSpec ⟨4, 1, 0, false⟩ ∧
      (∀ t u, (s.thread t).holds = true → (s.thread u).holds = true → t = u) ∧ s.word = 1 := by
  obtain ⟨s, hs, hst⟩ := exec_result step init mixedRun
    (fun s => (s.thread true, s.thread false))
    (.inside .atomicTasSpec, .locking .hleAsmExchAsmSpec ⟨4, 1, 0, false⟩) (by decide)
  obtain ⟨ht, hf⟩ := Prod.mk.inj hst
  obtain ⟨huniq, -, hword, -⟩ := spinLocks_exclude (.exec (.init rfl) hs)
  exact ⟨s, hs, ht, hf, huniq, hword.mpr ⟨true, by rw [ht]; rfl⟩⟩

end Htmsql.LockType
