import Htmsql.Lib.LatchOrder
import Htmsql.SyncLevels.Machine

/-!
# The latching order excludes deadlocks

The checks are made when a thread has got its latch, so threads that wait for each other would not be
told. But they cannot come to wait for each other, if each of them would pass the check for
the latch it waits for: what it owns is above that latch in the order, or beside it while the
thread owns the latch that guards the level, and of the guards, `lock_sys->mutex` and the like, there
is one. This covers the levels of `Level.ordered`, whatever other latches the threads own.
-/

namespace Htmsql.SyncLevels

open Run LatchOrder

variable {T L : Type} [DecidableEq T] [DecidableEq L]

/-- Which latch each thread waits for, and who has it. -/
def Sys.waitsFor (s : Sys T L) : Waits T L := ⟨s.wants, s.owner⟩

/-- The thread waits for a latch of an ordered level and would pass the check. -/
def Sys.wouldPass (cfg : Config L) (s : Sys T L) (t : T) : Prop :=
  ∀ l, s.wants t = some l → (cfg.level l).ordered cfg.server = true ∧
    (arrayOf cfg s.arrays t).levelsOk cfg.server (cfg.level l) = true

/-- There is one latch only of the level. -/
def Config.single (cfg : Config L) (level : Level) : Prop :=
  ∀ k k', cfg.level k = level → cfg.level k' = level → k = k'

variable {cfg : Config L} {s : Sys T L} {S : Set T}

omit [DecidableEq L] in
theorem Config.tracked_of_ordered {l : L} (ho : (cfg.level l).ordered cfg.server = true) :
    cfg.tracked l := by
  refine ⟨?_, ?_⟩
  · by_contra hexempt
    rw [Bool.not_eq_false] at hexempt
    rw [cfg.exempt_level l hexempt] at ho
    cases ho
  · intro hvarying
    rw [hvarying] at ho
    cases ho

/-- In every state that any run of any number of threads reaches: threads of which each would pass
the check for the latch it waits for are not in a deadlock. -/
theorem latchingOrder_excludes_deadlock
    (h : Reach (step cfg) (· = init) (fun _ _ => True) s)
    (hpass : ∀ t ∈ S, s.wouldPass cfg t)
    (hsingle : ∀ t ∈ S, ∀ l g, s.wants t = some l → (cfg.level l).guard cfg.server = some g →
      cfg.single g) :
    ¬ Deadlock s.waitsFor S := by
  have hinv := reach_inv h
  refine not_deadlock (fun l => (cfg.level l).toNat)
    (fun n g => ∃ t ∈ S, ∃ l, s.wants t = some l ∧ (cfg.level l).toNat = n ∧
      (cfg.level l).guard cfg.server = some (cfg.level g)) ?_ (fun t _ l hl => hinv.waits t l hl) ?_
  · rintro n g g' ⟨t, ht, l, hl, hn, hg⟩ ⟨t', ht', l', hl', hn', hg'⟩
    have hlevel : cfg.level l = cfg.level l' := Level.toNat_injective (hn.trans hn'.symm)
    rw [← hlevel, hg] at hg'
    exact hsingle t ht l _ hl hg g g' rfl (Option.some.inj hg').symm
  · intro t ht u hu l l' hl hl' hown
    obtain ⟨hordered, hok⟩ := hpass t ht l hl
    have htracked := Config.tracked_of_ordered (hpass u hu l' hl').1
    have hheld := (hinv.held t l' _).mpr ⟨hown, htracked, rfl⟩
    rcases levelsOk_ordered hordered hok hheld with hlt | ⟨heq, g, k, hg, hk⟩
    · exact Or.inl hlt
    · obtain ⟨howner, -, hlevel⟩ := (hinv.held t k _).mp hk
      refine Or.inr ⟨heq, k, ⟨t, ht, l, hl, rfl, ?_⟩, howner⟩
      rw [← Level.toNat_injective hlevel]
      exact hg

/-- A thread that owns `lock_sys->mutex` and a transaction waits for the transaction of another
thread, which waits for the log. -/
theorem latchingOrder_excludes_deadlock_twoThreads :
    ∃ s : Sys Bool Nat, exec (step fourLatches) init [.enter false 2, .acquire false,
        .enter false 0, .acquire false, .enter true 1, .acquire true, .enter false 1,
        .enter true 3] = some s ∧ s.wants false = some 1 ∧ s.owner 1 = some true ∧
      ¬ Deadlock s.waitsFor Set.univ := by
  obtain ⟨s, hs, hres⟩ := exec_result (step fourLatches) (init : Sys Bool Nat)
    [.enter false 2, .acquire false, .enter false 0, .acquire false, .enter true 1, .acquire true,
      .enter false 1, .enter true 3]
    (fun s => (s.wants false, s.wants true, s.owner 1,
      (arrayOf fourLatches s.arrays false).levelsOk ⟨false, false⟩ .trx,
      (arrayOf fourLatches s.arrays true).levelsOk ⟨false, false⟩ .log))
    (some 1, some 3, some true, true, true) (by decide)
  simp only [Prod.mk.injEq] at hres
  obtain ⟨hfalse, htrue, howner, htrx, hlog⟩ := hres
  refine ⟨s, hs, hfalse, howner, latchingOrder_excludes_deadlock (.exec (.init rfl) hs) ?_ ?_⟩
  · rintro t - l hl
    cases t with
    | false =>
      rw [hfalse, Option.some.injEq] at hl
      subst hl
      exact ⟨rfl, htrx⟩
    | true =>
      rw [htrue, Option.some.injEq] at hl
      subst hl
      exact ⟨rfl, hlog⟩
  · rintro t - l g hl hg
    have hguard : g = .lockSys := by
      cases t with
      | false =>
        rw [hfalse, Option.some.injEq] at hl
        subst hl
        exact (Option.some.inj hg).symm
      | true =>
        rw [htrue, Option.some.injEq] at hl
        subst hl
        cases hg
    rw [hguard]
    have honly : ∀ k, fourLatches.level k = .lockSys → k = 2 := by
      intro k hk
      unfold fourLatches at hk
      simp only at hk
      split at hk
      · rfl
      · cases hk
      · cases hk
    intro k k' hk hk'
    rw [honly k hk, honly k' hk']

end Htmsql.SyncLevels
