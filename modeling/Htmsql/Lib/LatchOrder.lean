import Mathlib.Data.Set.Basic
import Mathlib.Order.WellFounded

/-!
# Deadlocks and an order on latches

Threads own latches and wait for latches. In a deadlock every thread of a set waits for a latch
that a thread of the same set owns. When latches have a rank and threads go down in it, the threads
of a deadlock that wait at its lowest rank are a deadlock of their own (`Deadlock.bottom`): the
owner of a latch of that rank waits for a latch of no higher rank. So there is no deadlock at all if
every thread goes down strictly. Where a thread may own several latches of one rank, this still
holds if it then owns a latch that only one thread can own, the guard of that rank
(`not_deadlock`).
-/

namespace Htmsql.LatchOrder

variable {T L R : Type}

/-- What each thread waits for and who owns each latch. -/
structure Waits (T L : Type) where
  wants : T → Option L
  owner : L → Option T

/-- Every thread of the set waits for a latch that a thread of the set owns. -/
structure Deadlock (w : Waits T L) (S : Set T) : Prop where
  nonempty : S.Nonempty
  blocked : ∀ t ∈ S, ∃ l, w.wants t = some l ∧ ∃ u ∈ S, w.owner l = some u

/-- The threads of `S` that wait for a latch of rank `r`. -/
def waitingAt (w : Waits T L) (rank : L → R) (S : Set T) (r : R) : Set T :=
  {t | t ∈ S ∧ ∃ l, w.wants t = some l ∧ rank l = r}

variable [LinearOrder R] [WellFoundedLT R] {w : Waits T L} {rank : L → R} {S : Set T}

/-- The threads that wait at the lowest rank of a deadlock wait for each other. -/
theorem Deadlock.bottom (h : Deadlock w S) (rank : L → R)
    (hdown : ∀ t ∈ S, ∀ u ∈ S, ∀ l l', w.wants t = some l → w.wants u = some l' →
      w.owner l' = some t → rank l ≤ rank l') :
    ∃ r, Deadlock w (waitingAt w rank S r) := by
  obtain ⟨t₀, ht₀⟩ := h.nonempty
  obtain ⟨l₀, hl₀, -⟩ := h.blocked t₀ ht₀
  let ranks : Set R := {r | ∃ t ∈ S, ∃ l, w.wants t = some l ∧ rank l = r}
  have hranks : ranks.Nonempty := ⟨rank l₀, t₀, ht₀, l₀, hl₀, rfl⟩
  obtain ⟨r, ⟨t₁, ht₁, l₁, hl₁, hr₁⟩, hmin⟩ :=
    wellFounded_lt.has_min ranks hranks
  refine ⟨r, ⟨t₁, ht₁, l₁, hl₁, hr₁⟩, ?_⟩
  rintro t ⟨ht, l, hl, hr⟩
  obtain ⟨l', hl', u, hu, hown⟩ := h.blocked t ht
  obtain rfl : l = l' := Option.some.inj (hl.symm.trans hl')
  obtain ⟨k, hk, -⟩ := h.blocked u hu
  have hle : rank k ≤ rank l := hdown u hu t ht k l hk hl hown
  have hge : ¬ rank k < r := hmin (rank k) ⟨u, hu, k, hk, rfl⟩
  have heq : rank k = r := le_antisymm (hr ▸ hle) (not_lt.mp hge)
  exact ⟨l, hl, u, ⟨hu, k, hk, heq⟩, hown⟩

/-- No deadlock, if every thread owns latches of higher ranks only than that of the latch it waits
for, or owns the guard of that rank. Only latches that somebody of the set waits for matter. -/
theorem not_deadlock (rank : L → R) (guards : R → L → Prop)
    (hguard : ∀ r g g', guards r g → guards r g' → g = g')
    (hself : ∀ t ∈ S, ∀ l, w.wants t = some l → w.owner l ≠ some t)
    (hdown : ∀ t ∈ S, ∀ u ∈ S, ∀ l l', w.wants t = some l → w.wants u = some l' →
      w.owner l' = some t → rank l < rank l' ∨
        rank l = rank l' ∧ ∃ g, guards (rank l) g ∧ w.owner g = some t) :
    ¬ Deadlock w S := by
  intro h
  obtain ⟨r, hbottom⟩ := h.bottom rank fun t ht u hu l l' hl hl' hown =>
    (hdown t ht u hu l l' hl hl' hown).elim le_of_lt fun heq => le_of_eq heq.1
  -- whoever owns a latch that is waited for at this rank owns the guard
  have howns : ∀ t ∈ waitingAt w rank S r, ∀ l, w.wants t = some l → ∀ u ∈ waitingAt w rank S r,
      w.owner l = some u → ∃ g, guards r g ∧ w.owner g = some u := by
    rintro t ⟨ht, l₁, hl₁, hr₁⟩ l hl u ⟨hu, k, hk, hrk⟩ hown
    obtain rfl : l₁ = l := Option.some.inj (hl₁.symm.trans hl)
    rcases hdown u hu t ht k l₁ hk hl hown with hlt | ⟨-, g, hg, hgown⟩
    · rw [hrk, hr₁] at hlt
      exact (lt_irrefl r hlt).elim
    · exact ⟨g, hrk ▸ hg, hgown⟩
  obtain ⟨t, ht⟩ := hbottom.nonempty
  obtain ⟨l, hl, u, hu, hown⟩ := hbottom.blocked t ht
  obtain ⟨k, hk, v, hv, hown'⟩ := hbottom.blocked u hu
  obtain ⟨g, hg, hgu⟩ := howns t ht l hl u hu hown
  obtain ⟨g', hg', hgv⟩ := howns u hu k hk v hv hown'
  obtain rfl := hguard r g g' hg hg'
  obtain rfl : u = v := Option.some.inj (hgu.symm.trans hgv)
  exact hself u hu.1 k hk hown'

end Htmsql.LatchOrder
