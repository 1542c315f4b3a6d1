import Htmsql.Rtm.Serial

/-!
# Which version of `rtm_lock` gives serializable sections

Every run in which no transaction commits that overlapped with a holder is serial, in the order
in which the sections end (`serial_of_commitsAlone`). `rtm_lock` of `mysql-5.6.10-syslock-rtm`
makes every run one of these: the transaction has the lock word in its read set, so the holder's
test-and-set aborts it. `rtm_lock` of `mysql-5.6.10-trx_lock_func-rtm` does not read the lock
word, and a transaction that begins while the mutex is held for real can commit in the middle of
the holder's section.
-/

namespace Htmsql.Rtm

open Innodb Trace Run

variable {T D V : Type} {v : Variant} {s s' : Sys T D V}

/-- While a transaction is open that has not overlapped with a holder, nobody holds the mutex. -/
theorem LockInv.alone (h : LockInv v s) {t : T} {x : Txn D V} (hx : s.txn t = some x)
    (ho : x.overlap = false) : s.mutex.lockWord = 0 ∧ ∀ u, (s.pc u).holds = false := by
  have hw : s.mutex.lockWord = 0 := by
    by_contra hne
    rw [(h.thread t).overlap x hx hne] at ho
    cases ho
  refine ⟨hw, fun u => ?_⟩
  cases hu : (s.pc u).holds with
  | false => rfl
  | true =>
    have := (h.thread u).holds hu
    omega

/-- A transaction past its check of the lock word has never seen it set. -/
theorem syslockRtm_overlap (h : LockInv syslockRtm s) {t : T} {x : Txn D V}
    (hp : s.pc t = .speculative) (hx : s.txn t = some x) : x.overlap = false :=
  (h.thread t).reads x hx ((h.thread t).checked rfl hp x hx)

variable [DecidableEq D]

/-- The sections that are over ran one at a time from `data₀`, in this order; a thread that
holds the mutex runs after them. -/
def Sys.SerialIn (s : Sys T D V) (data₀ : D → V) (order : List (List (Ev D V))) : Prop :=
  ∃ base, Serial data₀ order base ∧
    (∀ t, (s.pc t).holds = true → Legal base (s.trace t) ∧ publish base (s.trace t) = s.data) ∧
    ((∀ t, (s.pc t).holds = false) → s.data = base)

/-- Some order of the sections that are over explains all that they read and the data. -/
def Sys.Serializable (s : Sys T D V) (data₀ : D → V) : Prop :=
  ∃ order, order.Perm (s.log.map Prod.snd) ∧ s.SerialIn data₀ order

/-- What the abstract invariant says of the machine. -/
theorem LockInv.serialIn (h : LockInv v s) {data₀ : D → V} (hs : Elision.Safe data₀ (abs s)) :
    s.SerialIn data₀ (s.log.map Prod.snd) := by
  obtain ⟨base, h₁, h₂, h₃⟩ := hs.serial
  refine ⟨base, h₁, fun t ht => h₂ t (s.trace t) ?_, fun hout => (h₃ ?_).symm⟩
  · change s.status t = _
    have hx : s.txn t = none := by
      cases hx : s.txn t with
      | none => rfl
      | some x =>
        have hno := Local.no_hold (hx ▸ h.thread t)
        rw [ht] at hno
        cases hno
    rw [status_none hx, ht]
    rfl
  · intro t tr ht
    change s.status t = _ at ht
    unfold Sys.status at ht
    rw [hout t] at ht
    split at ht <;> cases ht

variable [DecidableEq T] {rounds : Nat} {data₀ : D → V}

/-- The run lemma for both versions of `rtm_lock`. -/
theorem serial_of_commitsAlone (h : Reach (step v rounds) (· = init data₀) CommitsAlone s) :
    s.SerialIn data₀ (s.log.map Prod.snd) := by
  have hsafe : Elision.Safe data₀ (abs s) := by
    refine (h.strengthen fun _ => reach_lockInv).invariant
      (I := fun s => Elision.Safe data₀ (abs s)) ?_ ?_
    · rintro _ rfl
      exact Elision.safe_init data₀
    · exact fun s a s' hs hok hstep => hs.steps (abs_step hok.2 hok.1 hstep)
  exact (reach_lockInv h).serialIn hsafe

/-! ## `mysql-5.6.10-syslock-rtm` -/

theorem syslockRtm_commitsAlone (h : LockInv syslockRtm s) {a : Act T D V}
    (hs : step syslockRtm rounds s a = some s') : CommitsAlone s a := by
  cases a
  case exit t =>
    intro x hx
    simp only [step, Sys.exit, hx] at hs
    split at hs
    · rename_i hp _
      exact syslockRtm_overlap h hp hx
    · rename_i hn
      cases hn
    · cases hs
  all_goals trivial

/-- Every run commits alone. -/
theorem syslockRtm_reach
    (h : Reach (step syslockRtm rounds) (· = init data₀) (fun _ _ => True) s) :
    Reach (step syslockRtm rounds) (· = init data₀) CommitsAlone s := by
  induction h with
  | init h => exact .init h
  | step h _ hs ih => exact .step ih (syslockRtm_commitsAlone (reach_lockInv h) hs) hs

/-- The lock word is written by the mutex code only. -/
theorem step_lockWord {a : Act T D V} (hs : step v rounds s a = some s') :
    (∃ t, a = .run t) ∨ s'.mutex.lockWord = s.mutex.lockWord := by
  cases a
  case run t => exact Or.inl ⟨t, rfl⟩
  all_goals
    apply Or.inr
    simp only [step, Sys.access, Sys.exit, Option.map_eq_some_iff] at hs
  case abort t =>
    obtain ⟨x, -, rfl⟩ := hs
    rfl
  case xbegin t started =>
    split at hs
    · cases hs
      cases started <;> rfl
    · cases hs
  case checkLockWord t =>
    split at hs
    · split at hs <;> cases hs <;> rfl
    · cases hs
  all_goals
    split at hs <;> cases hs <;> rfl

/-- The lock word returns to 0 when its holder resets it, and only then. -/
theorem LockInv.reset_iff (h : LockInv v s) {a : Act T D V}
    (hs : Rtm.step v rounds s a = some s') :
    (s.mutex.lockWord = 1 ∧ s'.mutex.lockWord = 0) ↔
      ∃ t call, a = .run t ∧ s.pc t = .mutex call .reset := by
  constructor
  · rintro ⟨h₁, h₀⟩
    have hsame : s'.mutex.lockWord ≠ s.mutex.lockWord := by omega
    obtain ⟨t, rfl⟩ := (step_lockWord hs).resolve_right hsame
    refine ⟨t, ?_⟩
    rcases run_cases hs with ⟨call, p, i, m, p', hp, hi, he, rfl⟩ |
      ⟨p, i, m, p', hp, hi, he, rfl⟩
    · refine ⟨call, rfl, ?_⟩
      rcases exec_word h.word hi he with ⟨hw, -, hne⟩ | ⟨h₀', -⟩ | ⟨rfl, -⟩
      · rw [if_neg hne] at hsame
        exact (hsame hw).elim
      · omega
      · exact hp
    · obtain ⟨hw, -⟩ := exec_tail ((h.thread t).tail p hp) hi he
      exact (hsame hw).elim
  · rintro ⟨t, call, rfl, hp⟩
    have h₁ : s.mutex.lockWord = 1 := (h.thread t).holds (by rw [hp]; rfl)
    refine ⟨h₁, ?_⟩
    rcases run_cases hs with ⟨call', p, i, m, p', hp', hi, he, rfl⟩ | ⟨p, _, _, _, hp', _⟩
    · rw [hp] at hp'
      cases hp'
      rcases exec_word h.word hi he with ⟨-, -, hne⟩ | ⟨h₀, -⟩ | ⟨-, h₀, -⟩
      · exact (hne rfl).elim
      · omega
      · exact h₀
    · rw [hp] at hp'
      cases hp'

/-- Every run of `mysql-5.6.10-syslock-rtm` is serial in the order in which its sections end; a
transaction that has checked the lock word never sees a holder before it commits; the mutex has
one holder at most, whose exit is what resets the lock word. -/
theorem syslockRtm_serial
    (h : Reach (step syslockRtm rounds) (· = init data₀) (fun _ _ => True) s) :
    s.SerialIn data₀ (s.log.map Prod.snd) ∧
      (∀ t x, s.pc t = .speculative → s.txn t = some x →
        x.overlap = false ∧ s.mutex.lockWord = 0 ∧ ∀ u, (s.pc u).holds = false) ∧
      (∀ t u, (s.pc t).holds = true → (s.pc u).holds = true → t = u) ∧
      (s.mutex.lockWord = 1 ↔ ∃ t, (s.pc t).holds = true) ∧
      ∀ a s', step syslockRtm rounds s a = some s' →
        ((s.mutex.lockWord = 1 ∧ s'.mutex.lockWord = 0) ↔
          ∃ t call, a = .run t ∧ s.pc t = .mutex call .reset) := by
  have hinv := reach_lockInv h
  refine ⟨serial_of_commitsAlone (syslockRtm_reach h), ?_, hinv.unique, ⟨?_, ?_⟩, ?_⟩
  · intro t x hp hx
    have ho := syslockRtm_overlap hinv hp hx
    exact ⟨ho, hinv.alone hx ho⟩
  · intro hw
    exact hinv.held (by omega)
  · rintro ⟨t, ht⟩
    exact (hinv.thread t).holds ht
  · exact fun a s' hs => hinv.reset_iff hs

/-- A speculative increment beside a plain one. -/
def mixedRun : List (Act Bool Unit Nat) :=
  [.enter true .rtm, .xbegin true true, .checkLockWord true, .load true (), .store true () 1,
    .enter false .plain, .exit true, .run false, .load false (), .store false () 2,
    .exit false, .run false]

theorem syslockRtm_serial_mixedRun :
    ∃ s, exec (step syslockRtm 30) (init fun _ => 0) mixedRun = some s ∧ s.data () = 2 ∧
      s.SerialIn (fun _ => 0) (s.log.map Prod.snd) := by
  obtain ⟨s, hs, hd⟩ := exec_result (step syslockRtm 30) (init fun _ => 0) mixedRun
    (fun s => s.data ()) 2 (by decide)
  exact ⟨s, hs, hd, (syslockRtm_serial (.exec (.init rfl) hs)).1⟩

/-! ## `mysql-5.6.10-trx_lock_func-rtm` -/

/-- Where every transaction that commits ran with the mutex free from `_xbegin` to `_xend`, the
sections are serializable, and no holder is in its section when a transaction commits. -/
theorem trxLockFuncRtm_serializable
    (h : Reach (step trxLockFuncRtm rounds) (· = init data₀) CommitsAlone s) :
    s.Serializable data₀ ∧
      ∀ t x, CommitsAlone s (.exit t) → s.txn t = some x →
        s.mutex.lockWord = 0 ∧ ∀ u, (s.pc u).holds = false :=
  ⟨⟨_, .refl _, serial_of_commitsAlone h⟩, fun _ x hok hx =>
    (reach_lockInv h).alone hx (hok x hx)⟩

/-- One thread increments under the mutex. The other one starts a transaction meanwhile, which is
aborted, and increments in one that it starts when the mutex is free. -/
def holderAndTransaction : List (Act Bool Unit Nat) :=
  [.enter false .plain, .run false, .load false (), .enter true .rtm, .xbegin true true,
    .store false () 1, .abort true, .retry true, .exit false, .run false, .xbegin true true,
    .load true (), .store true () 2, .exit true]

theorem trxLockFuncRtm_serializable_holderAndTransaction :
    ∃ s, exec (guarded (step trxLockFuncRtm 30) CommitsAlone) (init fun _ => 0)
        holderAndTransaction = some s ∧
      s.log = [(false, [.rd () 0, .wr () 1]), (true, [.rd () 1, .wr () 2])] ∧
      s.Serializable (fun _ => 0) := by
  obtain ⟨s, hs, hlog⟩ := exec_result (guarded (step trxLockFuncRtm 30) CommitsAlone)
    (init fun _ => 0) holderAndTransaction (fun s => s.log)
    [(false, [.rd () 0, .wr () 1]), (true, [.rd () 1, .wr () 2])] (by decide)
  exact ⟨s, hs, hlog, (trxLockFuncRtm_serializable (.exec_guarded (.init rfl) hs)).1⟩

/-! ### A lost update -/

/-- Until the retry budget is used up, every `_xbegin` may return an abort code. -/
theorem reach_xbegin (v : Variant) (rounds : Nat) (data₀ : D → V) (t : T) {n : Nat}
    (hn : n ≤ v.maxRetries) : Reach (step v rounds) (· = init data₀) (fun _ _ => True)
      ((init data₀).setPc t (.xbegin n)) := by
  induction n with
  | zero =>
    have hs : exec (step v rounds) (init data₀) [.enter t .rtm] =
        some ((init data₀).setPc t (.xbegin 0)) := rfl
    exact .exec (.init rfl) hs
  | succ n ih =>
    have hretry : retryRtmLock v n = .xbegin (n + 1) := if_pos hn
    have hs : exec (step v rounds) ((init data₀).setPc t (.xbegin n))
        [.xbegin t false, .retry t] = some ((init data₀).setPc t (.xbegin (n + 1))) := by
      simp [exec, step, Sys.setPc, hretry]
    exact .exec (ih (by omega)) hs

/-- One thread is past its retry budget and increments under the mutex; the other one increments
in a transaction in the middle of this. -/
def lostUpdate : List (Act Bool Unit Nat) :=
  [.xbegin false false, .retry false, .run false, .load false (),
    .enter true .rtm, .xbegin true true, .load true (), .store true () 1, .exit true,
    .store false () 1, .exit false, .run false]

theorem trxLockFuncRtm_not_serializable :
    ∃ s, Reach (step trxLockFuncRtm 30) (· = init fun _ : Unit => 0) (fun _ _ => True) s ∧
      ¬ s.Serializable (T := Bool) fun _ => 0 := by
  have hstart := reach_xbegin trxLockFuncRtm 30 (fun _ : Unit => 0) false (Nat.le_refl 1000)
  obtain ⟨s, hs, hlog⟩ := exec_result (step trxLockFuncRtm 30)
    ((init fun _ : Unit => 0).setPc false (.xbegin 1000)) lostUpdate (fun s => s.log.map Prod.snd)
    (List.replicate 2 [.rd () 0, .wr () 1]) (by decide)
  refine ⟨s, .exec hstart hs, ?_⟩
  rintro ⟨order, hperm, base, ⟨hlegal, -⟩, -⟩
  -- both sections read 0 and write 1
  rw [hlog] at hperm
  rw [List.perm_replicate.mp hperm] at hlegal
  revert hlegal
  decide

end Htmsql.Rtm
