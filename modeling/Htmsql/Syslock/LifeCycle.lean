import Htmsql.Syslock.Ownership
import Mathlib.Data.List.Induction

/-!
# Creating and freeing a mutex with two lock words

`mutex_create_func` is said to leave the mutex "in the reset state" and `mutex_free_func` to
check that it is in that state. Both look at `lock_word` and `waiters` only. What the memory
contained in `hle_mutex` is there after the creation: with any value but 0 `hle_lock` stays in
its inner loop for ever. And a thread in a section of the second protocol does not keep
`mutex_free_func` from passing its checks. What is left to the callers is stated over their calls:
nobody is between an enter function and the return of `hle_mutex_exit` (`OutsideHle`).
-/

namespace Htmsql.Syslock

open Innodb Run

variable {T : Type} [DecidableEq T] {debug : Bool} {rounds : Nat} {memory : HleMutex T}
  {s : Sys T} {t : T}

/-- Thread `t`, running alone on a mutex just created, is at `p` after its call of `c`, the
test-and-set of this function and at most the write of `thread_id`. -/
def Alone (debug : Bool) (rounds : Nat) (memory : HleMutex T) (t : T) (c : Call) (p : Pc) : Prop :=
  ∃ n ≤ 2, ∃ s, exec (step debug rounds) (init memory) (.call t c :: List.replicate n (.run t)) =
    some s ∧ s.pc t = p

/-- The reset state for both protocols: a thread running alone gets 0 from both nowait functions,
and both enter functions return without waiting. -/
structure ResetState (debug : Bool) (rounds : Nat) (memory : HleMutex T) (t : T) : Prop where
  enterNowait : Alone debug rounds memory t .enterNowait (.plain .owner)
  hleEnterNowait : Alone debug rounds memory t .hleEnterNowait .hleOwner
  enter : Alone debug rounds memory t .enter (.plain .owner)
  hleEnter : Alone debug rounds memory t .hleEnter .hleOwner

/-- Nobody holds the mutex when the checks of `mutex_free_func` pass. -/
def Sys.FreedUnheld (s : Sys T) : Prop :=
  s.mutex.mayFree → ∀ t, (s.pc t).holds = false ∧ (s.pc t).hleHolds = false

/-! ## A thread that runs alone -/

/-- The thread takes `n` steps and nobody else takes any. -/
def solo (debug : Bool) (rounds : Nat) (t : T) : Nat → HleMutex T → Pc → Option (HleMutex T × Pc)
  | 0, m, p => some (m, p)
  | n + 1, m, p => (operation debug rounds m t p).bind fun (m', p') => solo debug rounds t n m' p'

omit [DecidableEq T] in
/-- `hle_lock` on a mutex whose second lock word is not 0 stays in its inner loop. -/
theorem solo_hleEnter (hm : memory.hleMutex ≠ 0) {n : Nat} {m : HleMutex T} {p : Pc}
    (h : solo debug rounds t n (mutexCreate memory) .hleEnter = some (m, p)) : p ≠ .hleOwner := by
  have hspin : ∀ n m, m.hleMutex = 1 → ∀ m' p,
      solo debug rounds t n m .hleSpin = some (m', p) → p = .hleSpin := by
    intro n
    induction n with
    | zero =>
      intro m _ m' p hs
      cases hs
      rfl
    | succ n ih =>
      intro m h₁ m' p hs
      simp only [solo, operation, h₁, if_true, Option.bind_some] at hs
      exact ih m h₁ m' p hs
  cases n with
  | zero =>
    cases h
    simp
  | succ n =>
    have hm' : (mutexCreate memory).hleMutex ≠ 0 := hm
    simp only [solo, operation, if_pos hm', Option.bind_some] at h
    rw [hspin n _ rfl m p h]
    simp

theorem exec_replicate_run (n : Nat) (m : HleMutex T) (pcs : T → Pc) (p : Pc) :
    exec (step debug rounds) ((Sys.mk m pcs).setPc t p) (List.replicate n (.run t)) =
      (solo debug rounds t n m p).map fun (m', p') => (Sys.mk m' pcs).setPc t p' := by
  induction n generalizing m p with
  | zero => rfl
  | succ n ih =>
    have hp : ((Sys.mk m pcs).setPc t p).pc t = p := pc_setPc_self _ _ _
    have hm : ((Sys.mk m pcs).setPc t p).mutex = m := rfl
    simp only [List.replicate, exec, step, solo, hp, hm]
    cases operation debug rounds m t p with
    | none => rfl
    | some r =>
      obtain ⟨m', p'⟩ := r
      have hset : ({ (Sys.mk m pcs).setPc t p with mutex := m' } : Sys T).setPc t p' =
          (Sys.mk m' pcs).setPc t p' := by
        simp [Sys.setPc]
      simp only [Option.map_some, Option.bind_some]
      rw [hset]
      exact ih m' p'

omit [DecidableEq T] in
/-- Nobody owns a mutex just created. -/
theorem asserts_init {c : Call} {q : Pc} (hq : c.entry debug .idle = some q) (t : T) :
    c.asserts (init memory).mutex t := by
  have hown : ¬ (init memory).mutex.own t := by
    rintro ⟨hw, -⟩
    cases hw
  cases c
  case exit | hleExit => cases hq
  case enter | hleEnter => exact hown
  all_goals trivial

theorem alone_iff {c : Call} {p q : Pc} (hq : c.entry debug .idle = some q) :
    Alone debug rounds memory t c p ↔
      ∃ n ≤ 2, ∃ m, solo debug rounds t n (mutexCreate memory) q = some (m, p) := by
  have hidle : (init memory).pc t = .idle := rfl
  have hcall : step debug rounds (init memory) (.call t c) = some ((init memory).setPc t q) := by
    simp [step, hidle, hq, asserts_init hq t]
  have hrun : ∀ n, exec (step debug rounds) (init memory) (.call t c :: List.replicate n (.run t)) =
      (solo debug rounds t n (mutexCreate memory) q).map fun (m, p) =>
        (Sys.mk m fun _ => .idle).setPc t p := by
    intro n
    simp only [exec, hcall, Option.bind_some]
    exact exec_replicate_run n _ _ q
  unfold Alone
  constructor
  · rintro ⟨n, hn, s, hs, hp⟩
    rw [hrun, Option.map_eq_some_iff] at hs
    obtain ⟨⟨m, p'⟩, hsolo, rfl⟩ := hs
    rw [pc_setPc_self] at hp
    exact ⟨n, hn, m, hp ▸ hsolo⟩
  · rintro ⟨n, hn, m, hsolo⟩
    exact ⟨n, hn, _, by rw [hrun, hsolo]; rfl, pc_setPc_self _ _ _⟩

/-- The mutex is in the reset state for both protocols exactly if the memory contained 0 in
`hle_mutex`. -/
theorem resetState_iff : ResetState debug rounds memory t ↔ memory.hleMutex = 0 := by
  constructor
  · intro h
    by_contra hm
    obtain ⟨n, -, m, hsolo⟩ := (alone_iff rfl).mp h.hleEnter
    exact solo_hleEnter hm hsolo rfl
  · intro hm
    have hzero : (mutexCreate memory).hleMutex = 0 := hm
    refine ⟨?_, ?_, ?_, ?_⟩
    · apply (alone_iff rfl).mpr
      cases debug
      · exact ⟨1, by omega, _, rfl⟩
      · exact ⟨2, by omega, _, rfl⟩
    · apply (alone_iff rfl).mpr
      cases debug
      · exact ⟨1, by omega, _, by simp [solo, operation, hzero]; rfl⟩
      · exact ⟨2, by omega, _, by simp [solo, operation, hzero]; rfl⟩
    · apply (alone_iff rfl).mpr
      cases debug
      · exact ⟨1, by omega, _, rfl⟩
      · exact ⟨2, by omega, _, rfl⟩
    · refine (alone_iff rfl).mpr ⟨1, by omega, { mutexCreate memory with hleMutex := 1 }, ?_⟩
      simp [solo, operation, hzero]

/-! ## The calls of a run -/

/-- The last function that thread `u` has called in a run. -/
def lastCall (u : T) (as : List (Act T)) : Option Call :=
  as.foldl (fun last a =>
    match a with
    | .call t c => if t = u then some c else last
    | .run _ => last) none

/-- Thread `u` is not between its call of one of the two enter functions of the second protocol and
the return of its call of `hle_mutex_exit`. A call of `hle_mutex_enter_nowait` that has returned 1
has entered nothing. -/
def OutsideHle (as : List (Act T)) (s : Sys T) (u : T) : Prop :=
  match lastCall u as with
  | some .hleEnter => False
  | some .hleEnterNowait => s.pc u = .refused
  | some .hleExit => s.pc u = .idle
  | some .enter | some .enterNowait | some .exit | none => True

/-- The points at which a thread can be in a function and after it. -/
def Call.leadsTo : Call → Pc → Bool
  | .hleEnter, p => p == .hleEnter || p == .hleSpin || p == .hleOwner
  | .hleEnterNowait, p => p == .hleNowait || p == .hleAcquired || p == .hleOwner || p == .refused
  | .hleExit, .plain p => p.inTail
  | .hleExit, p => p == .hleDisown || p == .hleReset || p == .idle
  | .enter, .plain _ | .enterNowait, .plain _ | .exit, .plain _ => true
  | .enter, p | .enterNowait, p | .exit, p => p == .idle || p == .nowait || p == .refused

/-- A thread is where its last call leads, or an assertion of that function has stopped it. -/
def Called (debug : Bool) (last : Option Call) (p : Pc) : Prop :=
  match last with
  | none => p = .idle
  | some c => c.leadsTo p = true ∨ ∃ q, p = .failed q ∧ (c.entry debug q).isSome = true

theorem lastCall_append (u : T) (as : List (Act T)) (a : Act T) :
    lastCall u (as ++ [a]) =
      match a with
      | .call t c => if t = u then some c else lastCall u as
      | .run _ => lastCall u as := by
  simp only [lastCall, List.foldl_append, List.foldl_cons, List.foldl_nil]

/-- A call leads to a point of its function, and takes no lock. -/
theorem entry_spec {c : Call} {p q : Pc} (h : c.entry debug p = some q) :
    c.leadsTo q = true ∧ q.hleHolds = p.hleHolds := by
  cases c <;> cases p <;> simp only [Call.entry, Option.some.injEq, reduceCtorEq] at h
  case exit.plain p =>
    cases p <;> simp only [Option.some.injEq, reduceCtorEq] at h
    subst h
    exact ⟨rfl, rfl⟩
  case hleExit.hleOwner =>
    subst h
    cases debug <;> exact ⟨rfl, rfl⟩
  all_goals
    subst h
    exact ⟨rfl, rfl⟩

omit [DecidableEq T] in
/-- The functions of the second protocol reach those of the first only at the end of an exit. -/
theorem leadsTo_operation {c : Call} {m : HleMutex T} {p p' : Pc}
    (h : operation debug rounds memory t p = some (m, p')) (hc : c.leadsTo p = true) :
    c.leadsTo p' = true := by
  cases p <;> simp only [operation, Option.some.injEq, Prod.mk.injEq, reduceCtorEq] at h
  case plain p =>
    simp only [Option.bind_eq_some_iff, Option.map_eq_some_iff, Prod.mk.injEq] at h
    obtain ⟨i, hi, ⟨m', q⟩, hx, -, rfl⟩ := h
    cases c
    case hleExit =>
      have htail := (exec_tail hc hi (exec_ib hx)).2
      cases q <;> first | rfl | cases htail
    case hleEnter | hleEnterNowait => cases hc
    all_goals cases q <;> rfl
  all_goals
    obtain ⟨-, rfl⟩ := h
    cases c <;> first | cases hc; done | skip
  all_goals first | rfl | (repeat' split) <;> rfl

theorem called_of_exec {as : List (Act T)}
    (h : exec (step debug rounds) (init memory) as = some s) (u : T) :
    Called debug (lastCall u as) (s.pc u) := by
  induction as using List.reverseRecOn generalizing s with
  | nil =>
    obtain rfl := Option.some.inj h
    rfl
  | append_singleton as a ih =>
    rw [exec_append, Option.bind_eq_some_iff] at h
    obtain ⟨s₁, h₁, hlast⟩ := h
    obtain ⟨s₂, hs, hnil⟩ := Option.bind_eq_some_iff.mp hlast
    obtain rfl := Option.some.inj hnil
    have hold := ih h₁
    rw [lastCall_append]
    cases a with
    | call t c =>
      obtain ⟨q, hq, rfl⟩ := Option.map_eq_some_iff.mp hs
      by_cases htu : t = u
      · subst htu
        simp only [if_true]
        rw [pc_setPc_self]
        split
        · exact Or.inr ⟨_, rfl, by rw [hq]; rfl⟩
        · exact Or.inl (entry_spec hq).1
      · simp only [if_neg htu]
        rw [pc_setPc_of_ne (Ne.symm htu)]
        exact hold
    | run t =>
      obtain ⟨⟨m, q⟩, hop, rfl⟩ := Option.map_eq_some_iff.mp hs
      by_cases htu : t = u
      · subst htu
        rw [pc_setPc_self]
        -- a thread takes a step only in a function that has not failed
        cases hcall : lastCall t as with
        | none =>
          rw [hcall] at hold
          rw [show s₁.pc t = .idle from hold] at hop
          cases hop
        | some c =>
          rw [hcall] at hold
          rcases hold with hold | ⟨q', hfailed, -⟩
          · exact Or.inl (leadsTo_operation hop hold)
          · rw [hfailed] at hop
            cases hop
      · rw [pc_setPc_of_ne (Ne.symm htu)]
        exact hold

/-- A thread in a section of the second protocol has called one of its functions. -/
theorem Called.not_hleHolds {as : List (Act T)} {u : T} (h : Called debug (lastCall u as) (s.pc u))
    (hout : OutsideHle as s u) : (s.pc u).hleHolds = false := by
  unfold OutsideHle at hout
  cases hcall : lastCall u as with
  | none =>
    rw [hcall] at h
    rw [show s.pc u = .idle from h]
    rfl
  | some c =>
    rw [hcall] at h hout
    cases c
    case hleEnter => exact hout.elim
    case hleEnterNowait | hleExit =>
      rw [show s.pc u = _ from hout]
      rfl
    all_goals
      rcases h with hlead | ⟨q, hq, hentry⟩
      · cases hp : s.pc u <;> rw [hp] at hlead <;> first | rfl | cases hlead
      · rw [hq]
        cases q <;> first | rfl | cases hentry

/-- A thread between two calls that is not in a section of the second protocol has left it, or has
not entered. -/
theorem Called.outsideHle {as : List (Act T)} {u : T} (h : Called debug (lastCall u as) (s.pc u))
    (hbetween : (s.pc u).betweenCalls = true) (hfree : (s.pc u).hleHolds = false) :
    OutsideHle as s u := by
  unfold OutsideHle
  cases hcall : lastCall u as with
  | none => trivial
  | some c =>
    rw [hcall] at h
    rcases h with hlead | ⟨q, hq, -⟩
    · cases c
      case enter | enterNowait | exit => trivial
      case hleEnter =>
        cases hp : s.pc u <;> rw [hp] at hlead hbetween hfree <;>
          first | cases hlead; done | cases hbetween; done | cases hfree
      case hleEnterNowait =>
        cases hp : s.pc u <;> rw [hp] at hlead hbetween hfree <;>
          first | rfl | cases hlead; done | cases hbetween; done | cases hfree
      case hleExit =>
        cases hp : s.pc u <;> rw [hp] at hlead hbetween hfree
        case plain p => cases p <;> first | cases hlead; done | cases hbetween
        all_goals first | rfl | cases hlead; done | cases hbetween
    · rw [hq] at hbetween
      cases hbetween

/-! ## The second lock word -/

/-- `hle_mutex` has one holder, if it was 0 at first. -/
def Sys.HleInv (s : Sys T) : Prop := Held s.mutex.hleMutex fun t => (s.pc t).hleHolds

theorem Sys.HleInv.move (h : s.HleInv) {m : HleMutex T} {p : Pc}
    (hw : m.hleMutex = s.mutex.hleMutex) (hp : p.hleHolds = (s.pc t).hleHolds) :
    (({ s with mutex := m }).setPc t p).HleInv := by
  have hm : (({ s with mutex := m }).setPc t p).mutex = m := rfl
  unfold Sys.HleInv
  rw [hm, hw]
  refine h.congr fun u => ?_
  by_cases hu : u = t
  · rw [hu, pc_setPc_self, hp]
  · rw [pc_setPc_of_ne hu]

/-- An exchange with 1 that acquires the second lock word exactly if it was 0. -/
theorem Sys.HleInv.exchange (h : s.HleInv) {p p' : Pc} (hout : (s.pc t).hleHolds = false)
    (hp : p.hleHolds = true) (hp' : p'.hleHolds = false) :
    (({ s with mutex := { s.mutex with hleMutex := 1 } }).setPc t
      (if s.mutex.hleMutex = 0 then p else p')).HleInv := by
  by_cases hw : s.mutex.hleMutex = 0
  · have hfree : Held 0 fun u => (s.pc u).hleHolds := hw ▸ h
    refine hfree.take (t := t) ?_ fun u hu => ?_
    · rw [pc_setPc_self, if_pos hw]
      exact hp
    · rw [pc_setPc_of_ne hu]
  · rw [if_neg hw]
    refine h.move ?_ (hp'.trans hout.symm)
    exact (h.binary.resolve_left hw).symm

/-- Where an operation of the first protocol leads. -/
theorem hleHolds_afterMutex (p : MutexPc) : (afterMutex p).hleHolds = false := by
  cases p <;> rfl

theorem Sys.HleInv.operation (h : s.HleInv) {m : HleMutex T} {p : Pc}
    (ho : operation debug rounds s.mutex t (s.pc t) = some (m, p)) :
    (({ s with mutex := m }).setPc t p).HleInv := by
  cases hp : s.pc t <;> rw [hp] at ho <;> simp only [Syslock.operation, reduceCtorEq] at ho
  case plain q =>
    simp only [Option.bind_eq_some_iff, Option.map_eq_some_iff] at ho
    obtain ⟨i, -, ⟨m', p'⟩, hx, hq⟩ := ho
    cases hq
    refine h.move (exec_debug hx).2 ?_
    rw [hleHolds_afterMutex, hp]
    rfl
  case hleEnter =>
    cases ho
    rw [ite_not]
    exact h.exchange (by rw [hp]; rfl) rfl rfl
  case hleNowait =>
    cases ho
    -- the comparison with 1 is one with 0, as the word is one of them
    have hcond : (s.mutex.hleMutex = 1) = ¬ s.mutex.hleMutex = 0 := by
      have := h.binary
      apply propext
      omega
    simp only [hcond, ite_not]
    refine h.exchange (by rw [hp]; rfl) ?_ rfl
    cases debug <;> rfl
  case hleReset =>
    cases ho
    refine h.reset (t := t) ?_ ?_ fun u hu => ?_
    · rw [hp]
      rfl
    · rw [pc_setPc_self]
      rfl
    · rw [pc_setPc_of_ne hu]
  all_goals
    simp only [Option.some.injEq, Prod.mk.injEq] at ho
    obtain ⟨rfl, rfl⟩ := ho
    apply h.move rfl
    rw [hp]
    first | rfl | (repeat' split) <;> rfl

theorem Sys.HleInv.step (h : s.HleInv) {s' : Sys T} {a : Act T}
    (hs : step debug rounds s a = some s') : s'.HleInv := by
  cases a with
  | call t c =>
    simp only [Syslock.step, Option.map_eq_some_iff] at hs
    obtain ⟨p, hp, rfl⟩ := hs
    apply h.move (m := s.mutex) rfl
    split
    · rfl
    · exact (entry_spec hp).2
  | run t =>
    simp only [Syslock.step, Option.map_eq_some_iff] at hs
    obtain ⟨⟨m, p⟩, ho, rfl⟩ := hs
    exact h.operation ho

theorem reach_hleInv (hm : memory.hleMutex = 0)
    (h : Reach (step debug rounds) (· = init memory) (fun _ _ => True) s) : s.HleInv := by
  refine h.invariant (I := Sys.HleInv) ?_ fun s a s' hs _ hstep => hs.step hstep
  rintro _ rfl
  have hzero : (init memory).mutex.hleMutex = 0 := hm
  unfold Sys.HleInv
  rw [hzero]
  exact held_free fun _ => rfl

/-! ## The whole life cycle -/

theorem reach_lockInv (h : Reach (step debug rounds) (· = init memory) (fun _ _ => True) s) :
    s.LockInv := by
  refine h.invariant (I := Sys.LockInv) ?_ fun s a s' hs _ hstep => hs.step hstep
  rintro _ rfl
  exact lockInv_init memory

/-- For every run on a mutex created in any memory: if `hle_mutex` was 0 there, and
`mutex_free_func` is called while no thread is between its call of an enter function of the second
protocol and the return of `hle_mutex_exit`, then the creation leaves the reset state, the checks
before freeing exclude every holder, and the memory is fit for the next mutex. Where no thread is
inside any of the functions and the checks pass, this is also necessary. -/
theorem lifeCycle_iff_outsideHle {as : List (Act T)}
    (h : exec (step debug rounds) (init memory) as = some s) :
    (memory.hleMutex = 0 → (∀ u, OutsideHle as s u) →
        ResetState debug rounds memory t ∧ s.FreedUnheld ∧ ResetState debug rounds s.mutex t) ∧
      ((∀ u, (s.pc u).betweenCalls = true) → s.mutex.mayFree →
        (ResetState debug rounds memory t ∧ s.FreedUnheld ↔
          memory.hleMutex = 0 ∧ ∀ u, OutsideHle as s u)) := by
  have hreach : Reach (step debug rounds) (· = init memory) (fun _ _ => True) s :=
    Reach.exec (.init rfl) h
  have hfreed : (∀ u, OutsideHle as s u) → s.FreedUnheld := fun hout hmay u =>
    ⟨(reach_lockInv hreach).free_iff.mp hmay.1 u, (called_of_exec h u).not_hleHolds (hout u)⟩
  refine ⟨fun hm hout => ⟨resetState_iff.mpr hm, hfreed hout, resetState_iff.mpr ?_⟩,
    fun hbetween hmay => ?_⟩
  · apply (reach_hleInv hm hreach).free_iff.mpr
    exact fun u => (called_of_exec h u).not_hleHolds (hout u)
  · rw [resetState_iff]
    refine and_congr_right fun _ => ⟨fun hfree u => ?_, hfreed⟩
    exact (called_of_exec h u).outsideHle (hbetween u) (hfree hmay u).2

/-- A section of each protocol, one after the other. -/
def twoSections : List (Act Unit) :=
  [.call () .enter, .run (), .call () .exit, .run (), .run (), .call () .hleEnter, .run (),
    .call () .hleExit, .run (), .run ()]

theorem lifeCycle_iff_outsideHle_twoSections :
    ∃ s, exec (step false 30) (init ⟨⟨5, 5, 5⟩, 0, none⟩) twoSections = some s ∧
      (∀ u, OutsideHle twoSections s u) ∧
      ResetState false 30 ⟨⟨5, 5, 5⟩, 0, none⟩ () ∧ s.FreedUnheld ∧ s.mutex.mayFree := by
  obtain ⟨s, hs, hst⟩ := exec_result (step false 30) (init ⟨⟨5, 5, 5⟩, 0, none⟩) twoSections
    (fun s => (s.pc (), s.mutex.ib)) (.idle, ⟨0, 0, 1⟩) (by decide)
  obtain ⟨hp, hib⟩ := Prod.mk.inj hst
  have hout : ∀ u, OutsideHle twoSections s u := fun _ => hp
  obtain ⟨hreset, hfreed, -⟩ := (lifeCycle_iff_outsideHle hs).1 rfl hout
  refine ⟨s, hs, hout, hreset, hfreed, ?_⟩
  rw [HleMutex.mayFree, hib]
  exact ⟨rfl, rfl⟩

/-- Memory with 1 in the place of `hle_mutex` gives a mutex that is never free for the second
protocol; and a mutex that a thread holds through `hle_mutex` may be freed. -/
theorem lifeCycle_fails :
    ¬ ResetState false 30 ⟨⟨0, 0, 0⟩, 1, none⟩ () ∧
      ∃ s, Reach (step false 30) (· = init ⟨⟨0, 0, 0⟩, 0, none⟩) (fun _ _ => True) s ∧
        s.pc () = .hleOwner ∧ s.mutex.mayFree := by
  refine ⟨fun h => ?_, ?_⟩
  · cases resetState_iff.mp h
  · obtain ⟨s, hs, hb⟩ := exec_result (step false 30) (init ⟨⟨0, 0, 0⟩, 0, none⟩)
      [.call () .hleEnter, .run ()] (fun s => (s.pc (), s.mutex.ib)) (.hleOwner, ⟨0, 0, 1⟩)
      (by decide)
    simp only [Prod.mk.injEq] at hb
    obtain ⟨hp, hib⟩ := hb
    exact ⟨s, .exec (.init rfl) hs, hp, by rw [HleMutex.mayFree, hib]; exact ⟨rfl, rfl⟩⟩

end Htmsql.Syslock
