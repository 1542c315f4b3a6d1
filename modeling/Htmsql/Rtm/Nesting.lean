import Htmsql.Lib.Run
import Mathlib.Data.List.Induction
import Mathlib.Data.List.Nodup
import Mathlib.Logic.Function.Basic

/-!
# What `rtm_unlock` ends when several mutexes are locked

One thread locks several mutexes with `rtm_lock` and unlocks them with `rtm_unlock` in any order.
An acquisition is speculative when `_xbegin()` has started a transaction or one more level of it,
and real when the retry budget was used up and `mutex_enter_func` was called. Inside a
transaction `_xbegin()` does not return an abort code, so only an acquisition with no transaction
open can be real. An abort takes the thread back to the outermost `_xbegin()` with everything
restored: the calls of this module are those that are not undone in this way.

`rtm_unlock` does not know how its mutex was taken; it asks `_xtest()`. The answer is right as
long as no mutex that is held for real is unlocked inside a transaction (`endsOwn_iff`).
-/

namespace Htmsql.Rtm.Nesting

open Run

variable {M : Type}

/-- How a call of `rtm_lock` ends: in a transaction, or with the mutex. -/
inductive Kind where
  | speculative
  /-- through `mutex_enter_func` -/
  | fallback
  deriving DecidableEq, Repr

/-- The calls that a thread makes. -/
inductive Op (M : Type) where
  /-- `rtm_lock(mutex)`, with the way in which its retry loop ends -/
  | lock (m : M) (k : Kind)
  | unlock (m : M)
  deriving DecidableEq, Repr

/-- One thread: the words of the mutexes and the depth of its open transactions. -/
structure Thread (M : Type) where
  word : M → Nat
  /-- the nesting depth of the open transaction -/
  depth : Nat

/-- All mutexes free and no transaction open. -/
def init : Thread M := ⟨fun _ => 0, 0⟩

theorem eq_of_mem {opened : List (M × Kind)} (h : (opened.map Prod.fst).Nodup) {m : M}
    {j k : Kind} (hj : (m, j) ∈ opened) (hk : (m, k) ∈ opened) : j = k := by
  have := List.inj_on_of_nodup_map h hj hk rfl
  exact congrArg Prod.snd this

variable [DecidableEq M]

/-- `none` where the retry loop cannot end in this way, or waits in `mutex_enter_func`. -/
def rtmLock (s : Thread M) (m : M) : Kind → Option (Thread M)
  | .speculative => some { s with depth := s.depth + 1 }
  | .fallback =>
    if s.depth = 0 ∧ s.word m = 0 then some { s with word := Function.update s.word m 1 } else none

/-- `rtm_unlock` ends a transaction wherever one is open, and else resets the word. -/
def rtmUnlock (s : Thread M) (m : M) : Thread M :=
  -- `_xtest()`
  if s.depth ≠ 0 then { s with depth := s.depth - 1 }
  else { s with word := Function.update s.word m 0 }

/-- The next call, `none` while the mutex function waits. -/
def step (s : Thread M) : Op M → Option (Thread M)
  | .lock m k => rtmLock s m k
  | .unlock m => some (rtmUnlock s m)

/-- The acquisitions that have not been unlocked after these calls. -/
def openedBy (ops : List (Op M)) : List (M × Kind) :=
  ops.foldl (fun opened op =>
    match op with
    | .lock m k => (m, k) :: opened
    | .unlock m => opened.eraseP fun a => a.1 = m) []

/-- The thread locks only what it does not hold, and unlocks only what it has locked. -/
structure WellFormed (ops : List (Op M)) : Prop where
  locks : ∀ pre m k, pre ++ [.lock m k] <+: ops → m ∉ (openedBy pre).map Prod.fst
  unlocks : ∀ pre m, pre ++ [.unlock m] <+: ops → m ∈ (openedBy pre).map Prod.fst

/-- The unlock of `m` ends the acquisition of `m`: it resets the lock word that a fallback has
set, or ends one level of the transaction and touches no lock word. -/
structure EndsAcquisition (opened : List (M × Kind)) (s : Thread M) (m : M) : Prop where
  fallback : (m, .fallback) ∈ opened → s.word m = 1 ∧
    (rtmUnlock s m).word = Function.update s.word m 0 ∧ (rtmUnlock s m).depth = s.depth
  speculative : (m, .speculative) ∈ opened →
    (rtmUnlock s m).depth + 1 = s.depth ∧ (rtmUnlock s m).word = s.word

/-- Every unlock of the sequence ends the acquisition that it is called for. -/
def EndsOwn (ops : List (Op M)) : Prop :=
  ∀ pre m s, pre ++ [.unlock m] <+: ops → exec step init pre = some s →
    EndsAcquisition (openedBy pre) s m

/-- No lock word is set and no transaction is open. -/
def Thread.Clean (s : Thread M) : Prop := (∀ m, s.word m = 0) ∧ s.depth = 0

/-- A mutex that was taken by the fallback is unlocked only while no speculative acquisition is
open. -/
def FallbackOutside (ops : List (Op M)) : Prop :=
  ∀ pre m, pre ++ [.unlock m] <+: ops → (m, .fallback) ∈ openedBy pre →
    ∀ n, (n, .speculative) ∉ openedBy pre

/-! ## While every unlock has ended its own acquisition -/

@[simp] theorem openedBy_lock (ops : List (Op M)) (m : M) (k : Kind) :
    openedBy (ops ++ [.lock m k]) = (m, k) :: openedBy ops := by
  simp [openedBy]

@[simp] theorem openedBy_unlock (ops : List (Op M)) (m : M) :
    openedBy (ops ++ [.unlock m]) = (openedBy ops).eraseP fun a => a.1 = m := by
  simp [openedBy]

/-- The section was entered speculatively. -/
def isSpeculative (a : M × Kind) : Bool := a.2 = .speculative

/-- The state says how each open acquisition was made. -/
structure Inv (opened : List (M × Kind)) (s : Thread M) : Prop where
  nodup : (opened.map Prod.fst).Nodup
  depth : s.depth = opened.countP isSpeculative
  word : ∀ m, s.word m = if (m, .fallback) ∈ opened then 1 else 0

theorem inv_init : Inv ([] : List (M × Kind)) init := ⟨List.nodup_nil, rfl, fun _ => rfl⟩

/-- What is left after an unlock. -/
theorem mem_eraseP {opened : List (M × Kind)} (h : (opened.map Prod.fst).Nodup) (m : M)
    (a : M × Kind) : a ∈ opened.eraseP (fun b => b.1 = m) ↔ a ∈ opened ∧ a.1 ≠ m := by
  induction opened with
  | nil => simp
  | cons b opened ih =>
    rw [List.map_cons, List.nodup_cons] at h
    by_cases hb : b.1 = m
    · rw [List.eraseP_cons_of_pos (by simpa using hb)]
      constructor
      · intro ha
        refine ⟨List.mem_cons_of_mem _ ha, fun heq => h.1 ?_⟩
        rw [hb, ← heq]
        exact List.mem_map_of_mem ha
      · rintro ⟨ha, hne⟩
        rcases List.mem_cons.mp ha with rfl | ha
        · exact (hne hb).elim
        · exact ha
    · rw [List.eraseP_cons_of_neg (by simpa using hb), List.mem_cons, ih h.2, List.mem_cons]
      constructor
      · rintro (rfl | ⟨ha, hne⟩)
        · exact ⟨Or.inl rfl, hb⟩
        · exact ⟨Or.inr ha, hne⟩
      · rintro ⟨rfl | ha, hne⟩
        · exact Or.inl rfl
        · exact Or.inr ⟨ha, hne⟩

theorem countP_eraseP {opened : List (M × Kind)} (h : (opened.map Prod.fst).Nodup) {m : M}
    {k : Kind} (hm : (m, k) ∈ opened) :
    (opened.eraseP fun b => b.1 = m).countP isSpeculative + (if k = .speculative then 1 else 0) =
      opened.countP isSpeculative := by
  induction opened with
  | nil => cases hm
  | cons b opened ih =>
    have hnodup := h
    rw [List.map_cons, List.nodup_cons] at h
    by_cases hb : b.1 = m
    · have hbk : b = (m, k) := by
        refine Prod.ext hb (eq_of_mem hnodup (m := m) ?_ hm)
        rw [← hb]
        exact List.mem_cons_self
      rw [List.eraseP_cons_of_pos (by simpa using hb), List.countP_cons, hbk]
      simp [isSpeculative]
    · have hmem : (m, k) ∈ opened := by
        rcases List.mem_cons.mp hm with rfl | hm
        · exact (hb rfl).elim
        · exact hm
      have := ih h.2 hmem
      rw [List.eraseP_cons_of_neg (by simpa using hb), List.countP_cons, List.countP_cons]
      omega

/-- The unlock of an open mutex ends its acquisition exactly if the mutex is not held for real
inside a transaction. -/
theorem Inv.endsAcquisition_iff {opened : List (M × Kind)} {s : Thread M} (h : Inv opened s)
    (m : M) : EndsAcquisition opened s m ↔
      ((m, .fallback) ∈ opened → ∀ n, (n, .speculative) ∉ opened) := by
  have hzero : s.depth = 0 ↔ ∀ n, (n, Kind.speculative) ∉ opened := by
    rw [h.depth, List.countP_eq_zero]
    constructor
    · intro hall n hn
      exact hall _ hn (by simp [isSpeculative])
    · rintro hall ⟨n, k⟩ hn hk
      have : k = .speculative := by simpa [isSpeculative] using hk
      exact hall n (this ▸ hn)
  constructor
  · intro he hm
    apply hzero.mp
    obtain ⟨-, -, hd⟩ := he.fallback hm
    by_contra hne
    simp only [rtmUnlock, if_pos hne] at hd
    omega
  · intro hout
    refine ⟨fun hm => ?_, fun hm => ?_⟩
    · have hd : s.depth = 0 := hzero.mpr (hout hm)
      have hword : s.word m = 1 := by rw [h.word, if_pos hm]
      simp [rtmUnlock, hd, hword]
    · have hd : s.depth ≠ 0 := fun hz => hzero.mp hz m hm
      unfold rtmUnlock
      rw [if_pos hd]
      refine ⟨?_, rfl⟩
      show s.depth - 1 + 1 = s.depth
      omega

theorem Inv.lock {opened : List (M × Kind)} {s s' : Thread M} (h : Inv opened s) {m : M} {k : Kind}
    (hm : m ∉ opened.map Prod.fst) (hs : rtmLock s m k = some s') : Inv ((m, k) :: opened) s' := by
  have hnot : ∀ j, (m, j) ∉ opened := fun j hj => hm (List.mem_map_of_mem hj)
  have hnodup : (((m, k) :: opened).map Prod.fst).Nodup := List.nodup_cons.mpr ⟨hm, h.nodup⟩
  cases k with
  | speculative =>
    cases hs
    refine ⟨hnodup, ?_, fun n => ?_⟩
    · rw [List.countP_cons, ← h.depth]
      simp [isSpeculative]
    · simp [h.word]
  | fallback =>
    simp only [rtmLock] at hs
    split at hs
    · cases hs
      refine ⟨hnodup, ?_, fun n => ?_⟩
      · rw [List.countP_cons, ← h.depth]
        simp [isSpeculative]
      · by_cases hn : n = m
        · simp [hn]
        · simp [h.word, hn]
    · cases hs

theorem Inv.unlock {opened : List (M × Kind)} {s : Thread M} (h : Inv opened s) {m : M}
    (hm : m ∈ opened.map Prod.fst) (he : EndsAcquisition opened s m) :
    Inv (opened.eraseP fun a => a.1 = m) (rtmUnlock s m) := by
  obtain ⟨⟨n, k⟩, hk, hn⟩ := List.mem_map.mp hm
  replace hn : n = m := hn
  subst hn
  have hcount := countP_eraseP h.nodup hk
  refine ⟨h.nodup.sublist (List.Sublist.map _ List.eraseP_sublist), ?_, fun p => ?_⟩
  · have hdepth := h.depth
    cases k with
    | speculative =>
      have := (he.speculative hk).1
      simp only [if_true] at hcount
      omega
    | fallback =>
      have := (he.fallback hk).2.2
      simp only [reduceCtorEq, if_false] at hcount
      omega
  · simp only [mem_eraseP h.nodup]
    cases k with
    | speculative =>
      -- no other acquisition of the same mutex is open
      have hnot : (n, Kind.fallback) ∉ opened := fun hf => by
        cases eq_of_mem h.nodup hk hf
      rw [(he.speculative hk).2, h.word]
      by_cases hp : p = n
      · simp [hp, hnot]
      · simp [hp]
    | fallback =>
      rw [(he.fallback hk).2.1]
      by_cases hp : p = n
      · simp [hp]
      · rw [Function.update_of_ne hp, h.word]
        simp [hp]

/-! ## Whole sequences -/

variable {ops : List (Op M)}

theorem run_inv (hwf : WellFormed ops) (he : EndsOwn ops ∨ FallbackOutside ops) {pre : List (Op M)}
    {s : Thread M} (hpre : pre <+: ops) (hs : exec step init pre = some s) :
    Inv (openedBy pre) s := by
  induction pre using List.reverseRecOn generalizing s with
  | nil =>
    cases hs
    exact inv_init
  | append_singleton pre op ih =>
    simp only [exec_append, Option.bind_eq_some_iff, exec, Option.some.injEq] at hs
    obtain ⟨s₁, h₁, s₂, h₂, rfl⟩ := hs
    have hinv := ih ((List.prefix_append pre [op]).trans hpre) h₁
    cases op with
    | lock m k =>
      rw [openedBy_lock]
      exact hinv.lock (hwf.locks pre m k hpre) h₂
    | unlock m =>
      rw [openedBy_unlock]
      cases h₂
      apply hinv.unlock (hwf.unlocks pre m hpre)
      rcases he with he | hout
      · exact he pre m s₁ hpre h₁
      · exact (hinv.endsAcquisition_iff m).mpr (hout pre m hpre)

/-- Every unlock of a sequence ends the acquisition it is called for, and nothing is left held or
open after the last one, exactly if no mutex that was taken by the fallback is unlocked while a
speculative acquisition is open. -/
theorem endsOwn_iff (hwf : WellFormed ops) (hall : openedBy ops = []) {s : Thread M}
    (hs : exec step init ops = some s) : (EndsOwn ops ∧ s.Clean) ↔ FallbackOutside ops := by
  constructor
  · rintro ⟨he, -⟩ pre m hpre
    obtain ⟨suf, rfl⟩ := hpre
    rw [List.append_assoc, exec_append, Option.bind_eq_some_iff] at hs
    obtain ⟨s₁, h₁, -⟩ := hs
    have hpre : pre ++ [.unlock m] <+: pre ++ [.unlock m] ++ suf := List.prefix_append _ _
    have hinv := run_inv hwf (Or.inl he) ((List.prefix_append pre _).trans hpre) h₁
    exact (hinv.endsAcquisition_iff m).mp (he pre m s₁ hpre h₁)
  · intro hout
    refine ⟨fun pre m s₁ hpre h₁ => ?_, ?_⟩
    · have hinv := run_inv hwf (Or.inr hout) ((List.prefix_append pre _).trans hpre) h₁
      exact (hinv.endsAcquisition_iff m).mpr (hout pre m hpre)
    · have hinv := run_inv hwf (Or.inr hout) (List.prefix_refl ops) hs
      rw [hall] at hinv
      exact ⟨fun m => hinv.word m, hinv.depth⟩

/-- Last in, first out: a mutex held for real around a speculative one. -/
def lifo : List (Op Bool) :=
  [.lock false .fallback, .lock true .speculative, .unlock true, .unlock false]

/-- First in, first out. -/
def fifo : List (Op Bool) :=
  [.lock false .fallback, .lock true .speculative, .unlock false, .unlock true]

omit [DecidableEq M] in
theorem prefix_concat_four {a b c d op : Op M} {pre : List (Op M)}
    (h : pre ++ [op] <+: [a, b, c, d]) : pre = [] ∧ op = a ∨ pre = [a] ∧ op = b ∨
      pre = [a, b] ∧ op = c ∨ pre = [a, b, c] ∧ op = d := by
  obtain ⟨suf, h⟩ := h
  rcases pre with _ | ⟨x, _ | ⟨y, _ | ⟨z, _ | ⟨w, pre⟩⟩⟩⟩ <;> simp_all

theorem lifo_wellFormed : WellFormed lifo := by
  refine ⟨fun pre m k h => ?_, fun pre m h => ?_⟩ <;>
    rcases prefix_concat_four h with ⟨rfl, hop⟩ | ⟨rfl, hop⟩ | ⟨rfl, hop⟩ | ⟨rfl, hop⟩ <;>
    cases hop <;> simp [openedBy]

theorem fifo_wellFormed : WellFormed fifo := by
  refine ⟨fun pre m k h => ?_, fun pre m h => ?_⟩ <;>
    rcases prefix_concat_four h with ⟨rfl, hop⟩ | ⟨rfl, hop⟩ | ⟨rfl, hop⟩ | ⟨rfl, hop⟩ <;>
    cases hop <;> simp [openedBy]

theorem endsOwn_lifo :
    ∃ s, exec step init lifo = some s ∧ openedBy lifo = [] ∧ EndsOwn lifo ∧ s.Clean := by
  obtain ⟨s, hs, -⟩ := exec_result step init lifo Thread.depth 0 (by decide)
  refine ⟨s, hs, rfl, (endsOwn_iff lifo_wellFormed rfl hs).mpr fun pre m h hm n => ?_⟩
  rcases prefix_concat_four h with ⟨rfl, hop⟩ | ⟨rfl, hop⟩ | ⟨rfl, hop⟩ | ⟨rfl, hop⟩ <;>
    cases hop <;> simp [openedBy] at hm ⊢

/-- The first unlock ends the transaction of the other mutex, the second one resets a lock word
that the thread does not hold, and the first mutex stays locked for ever. -/
theorem fifo_not_endsOwn :
    WellFormed fifo ∧ openedBy fifo = [] ∧ ¬ EndsOwn fifo ∧
      ∃ s, exec step init fifo = some s ∧ s.word false = 1 ∧ ¬ s.Clean := by
  refine ⟨fifo_wellFormed, rfl, fun he => ?_, ?_⟩
  · obtain ⟨s, hs, hb⟩ := exec_result step init
      [.lock false .fallback, .lock true .speculative] (fun s => (rtmUnlock s false).word false) 1
      (by decide)
    have hend := (he [.lock false .fallback, .lock true .speculative] false s
      ⟨[.unlock true], rfl⟩ hs).fallback (by decide)
    rw [hend.2.1, Function.update_self] at hb
    cases hb
  · obtain ⟨s, hs, hw⟩ := exec_result step init fifo (fun s => s.word false) 1 (by decide)
    refine ⟨s, hs, hw, fun hclean => ?_⟩
    rw [hclean.1 false] at hw
    cases hw

end Htmsql.Rtm.Nesting
