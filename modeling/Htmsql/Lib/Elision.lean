import Htmsql.Lib.Trace
import Mathlib.Logic.Relation

/-!
# Critical sections of one lock, taken or elided

An abstract account of lock elision. A critical section either holds the lock or runs as a
hardware transaction beside it. The state keeps the shared memory, what every thread is doing,
and, for the statement only, the accesses of the sections that are over (`log`).

A transaction buffers its writes until it commits. Before any access, the transactions of other
threads that the access conflicts with must have been aborted; an abort may also come at any
other moment. Each transaction carries the ghost flag `overlap`: somebody may have held the lock
since the transaction began, or since it last found the lock free with the lock in its read set.

`commit` asks for `overlap = false`. Under this rule, and only under it, sections are serial in
the order of `log`: `Safe.step` is the step lemma, `Safe.serial` what it is for.
-/

namespace Htmsql.Elision

open Trace

variable {T D V : Type}

/-- What a thread does with the lock; the accesses of its open section in program order. -/
inductive Status (D V : Type) where
  | outside
  | speculating (tr : List (Ev D V)) (overlap : Bool)
  | holding (tr : List (Ev D V))

/-- The holder's step hides every transaction that was open at that moment. -/
def Status.mark : Status D V → Status D V
  | speculating tr _ => speculating tr true
  | st => st

/-- The data in memory, what each thread does, and the sections that are over, with the thread and
the accesses of each. -/
structure State (T D V : Type) where
  data : D → V
  status : T → Status D V
  log : List (T × List (Ev D V))

/-- No thread has the lock. -/
def State.Free (s : State T D V) : Prop := ∀ t tr, s.status t ≠ .holding tr

/-- No open transaction of another thread conflicts with the access. -/
def State.Unopposed (s : State T D V) (t : T) (e : Ev D V) : Prop :=
  ∀ u tr b, u ≠ t → s.status u = .speculating tr b → ¬ e.Conflicts tr

variable [DecidableEq T]

/-- The status of one thread changes, the data and the log stay. -/
def State.setStatus (s : State T D V) (t : T) (st : Status D V) : State T D V :=
  { s with status := Function.update s.status t st }

/-! ## Changing the status of one thread -/

theorem status_setStatus (s : State T D V) (t u : T) (st : Status D V) :
    (s.setStatus t st).status u = if u = t then st else s.status u := by
  simp [State.setStatus, Function.update_apply]

theorem status_setStatus_self (s : State T D V) (t : T) (st : Status D V) :
    (s.setStatus t st).status t = st := by
  rw [status_setStatus, if_pos rfl]

/-- A thread that does not hold the lock before and after: the holders are the same. -/
theorem holding_setStatus {s : State T D V} {t u : T} {st : Status D V} {tr : List (Ev D V)}
    (h : ∀ tr, s.status t ≠ .holding tr) (hst : ∀ tr, st ≠ .holding tr) :
    (s.setStatus t st).status u = .holding tr ↔ s.status u = .holding tr := by
  rw [status_setStatus]
  split
  · rename_i he
    subst he
    exact ⟨fun hh => (hst _ hh).elim, fun hh => (h _ hh).elim⟩
  · exact Iff.rfl

theorem free_setStatus {s : State T D V} {t : T} {st : Status D V}
    (h : ∀ tr, s.status t ≠ .holding tr) (hst : ∀ tr, st ≠ .holding tr) :
    (s.setStatus t st).Free ↔ s.Free :=
  forall_congr' fun _ => forall_congr' fun _ => not_congr (holding_setStatus h hst)

/-! ## Steps -/

variable [DecidableEq D]

/-- A read returns what memory `m` holds; a write may store anything. -/
def Reads (m : D → V) : Ev D V → Prop
  | .rd d v => v = m d
  | .wr _ _ => True

/-- What can happen to the sections: one begins, sees that the lock is free, reads or writes,
commits or is rolled back; or a thread takes the lock and releases it. -/
inductive Step : State T D V → State T D V → Prop where
  | begin (s : State T D V) (t : T) (b : Bool) (h : s.status t = .outside)
      (hb : b = false → s.Free) : Step s (s.setStatus t (.speculating [] b))
  /-- The transaction finds the lock free and has it in its read set from here on. -/
  | watch (s : State T D V) (t : T) (tr : List (Ev D V)) (b : Bool)
      (h : s.status t = .speculating tr b) (hb : s.Free) :
      Step s (s.setStatus t (.speculating tr false))
  /-- Any transactions are rolled back. -/
  | abort (s : State T D V) (status : T → Status D V)
      (h : ∀ t, status t = s.status t ∨
        status t = .outside ∧ ∃ tr b, s.status t = .speculating tr b) :
      Step s { s with status := status }
  | specAccess (s : State T D V) (t : T) (tr : List (Ev D V)) (b : Bool) (e : Ev D V)
      (h : s.status t = .speculating tr b) (hr : Reads (publish s.data tr) e)
      (hu : s.Unopposed t e) : Step s (s.setStatus t (.speculating (tr ++ [e]) b))
  | ownAccess (s : State T D V) (t : T) (tr : List (Ev D V)) (e : Ev D V)
      (h : s.status t = .holding tr) (hr : Reads s.data e) (hu : s.Unopposed t e) :
      Step s { s.setStatus t (.holding (tr ++ [e])) with data := publish s.data [e] }
  | commit (s : State T D V) (t : T) (tr : List (Ev D V))
      (h : s.status t = .speculating tr false) :
      Step s { s.setStatus t .outside with
        data := publish s.data tr
        log := s.log ++ [(t, tr)] }
  | acquire (s : State T D V) (t : T) (status : T → Status D V) (hf : s.Free)
      (h : s.status t = .outside) (ht : status t = .holding [])
      (hu : ∀ u, u ≠ t → status u = (s.status u).mark) :
      Step s { s with status := status }
  | release (s : State T D V) (t : T) (tr : List (Ev D V)) (h : s.status t = .holding tr) :
      Step s { s.setStatus t .outside with log := s.log ++ [(t, tr)] }

/-- The invariant. `base` is the memory after the sections of the log; a holder is the last
section of the serial order, still running. -/
structure Safe (m₀ : D → V) (s : State T D V) : Prop where
  unique : ∀ t u tr tr', s.status t = .holding tr → s.status u = .holding tr' → t = u
  legal : ∀ t tr b, s.status t = .speculating tr b → Legal s.data tr
  apart : ∀ t u tr tr' b b', t ≠ u → s.status t = .speculating tr b →
    s.status u = .speculating tr' b' → ∀ d ∈ written tr, d ∉ touched tr'
  alone : ∀ t tr, s.status t = .speculating tr false → s.Free
  serial : ∃ base, Serial m₀ (s.log.map Prod.snd) base ∧
    (∀ t tr, s.status t = .holding tr → Legal base tr ∧ publish base tr = s.data) ∧
    (s.Free → base = s.data)

/-- The commit order of the sections stays serial while nobody enters or leaves the lock. -/
theorem Safe.serial_setStatus {m₀ : D → V} {s : State T D V} (hs : Safe m₀ s) {t : T}
    {st : Status D V} (h : ∀ tr, s.status t ≠ .holding tr) (hst : ∀ tr, st ≠ .holding tr) :
    ∃ base, Serial m₀ (s.log.map Prod.snd) base ∧
      (∀ u tr, (s.setStatus t st).status u = .holding tr →
        Legal base tr ∧ publish base tr = s.data) ∧
      ((s.setStatus t st).Free → base = s.data) := by
  obtain ⟨base, h₁, h₂, h₃⟩ := hs.serial
  exact ⟨base, h₁, fun u tr hu => h₂ u tr ((holding_setStatus h hst).mp hu),
    fun hf => h₃ ((free_setStatus h hst).mp hf)⟩

/-! ## The step lemma, one step at a time -/

variable {m₀ : D → V} {s : State T D V}

theorem Safe.begin (hs : Safe m₀ s) {t : T} {b : Bool} (h : s.status t = .outside)
    (hb : b = false → s.Free) : Safe m₀ (s.setStatus t (.speculating [] b)) := by
  have hout : ∀ tr, s.status t ≠ .holding tr := by simp [h]
  refine ⟨?_, ?_, ?_, ?_, hs.serial_setStatus hout (by simp)⟩
  · intro u v tr tr' hu hv
    rw [holding_setStatus hout (by simp)] at hu hv
    exact hs.unique u v tr tr' hu hv
  · intro u tr c hu
    rw [status_setStatus] at hu
    split at hu
    · cases hu
      trivial
    · exact hs.legal u tr c hu
  · intro u v tr tr' c c' hne hu hv
    rw [status_setStatus] at hu hv
    split at hu
    · cases hu
      simp [written]
    · split at hv
      · cases hv
        simp [touched]
      · exact hs.apart u v tr tr' c c' hne hu hv
  · intro u tr hu
    rw [free_setStatus hout (by simp)]
    rw [status_setStatus] at hu
    split at hu
    · cases hu
      exact hb rfl
    · exact hs.alone u tr hu

theorem Safe.watch (hs : Safe m₀ s) {t : T} {tr : List (Ev D V)} {b : Bool}
    (h : s.status t = .speculating tr b) (hb : s.Free) :
    Safe m₀ (s.setStatus t (.speculating tr false)) := by
  have hout : ∀ tr, s.status t ≠ .holding tr := by simp [h]
  -- the same transactions are open as before, up to their flags
  have hold : ∀ u tr' c, (s.setStatus t (.speculating tr false)).status u = .speculating tr' c →
      ∃ c', s.status u = .speculating tr' c' := by
    intro u tr' c hu
    rw [status_setStatus] at hu
    split at hu
    · rename_i he
      cases hu
      exact ⟨b, he ▸ h⟩
    · exact ⟨c, hu⟩
  refine ⟨?_, ?_, ?_, fun _ _ _ => (free_setStatus hout (by simp)).mpr hb,
    hs.serial_setStatus hout (by simp)⟩
  · intro u v tr₁ tr₂ hu hv
    rw [holding_setStatus hout (by simp)] at hu hv
    exact hs.unique u v tr₁ tr₂ hu hv
  · intro u tr' c hu
    obtain ⟨c', hc'⟩ := hold u tr' c hu
    exact hs.legal u tr' c' hc'
  · intro u v tr₁ tr₂ c₁ c₂ hne hu hv
    obtain ⟨d₁, hd₁⟩ := hold u tr₁ c₁ hu
    obtain ⟨d₂, hd₂⟩ := hold v tr₂ c₂ hv
    exact hs.apart u v tr₁ tr₂ d₁ d₂ hne hd₁ hd₂

omit [DecidableEq T] in
theorem Safe.abort (hs : Safe m₀ s) {status : T → Status D V}
    (h : ∀ t, status t = s.status t ∨
      status t = .outside ∧ ∃ tr b, s.status t = .speculating tr b) :
    Safe m₀ { s with status := status } := by
  -- what is open after the abort was open before
  have hspec : ∀ t tr b, status t = .speculating tr b → s.status t = .speculating tr b := by
    intro t tr b ht
    rcases h t with he | ⟨he, -⟩
    · exact he ▸ ht
    · rw [he] at ht
      cases ht
  have hhold : ∀ t tr, status t = .holding tr ↔ s.status t = .holding tr := by
    intro t tr
    rcases h t with he | ⟨he, tr', b, hb⟩
    · rw [he]
    · rw [he, hb]
      simp
  have hfree : State.Free { s with status := status } ↔ s.Free :=
    forall_congr' fun t => forall_congr' fun tr => not_congr (hhold t tr)
  refine ⟨?_, ?_, ?_, ?_, ?_⟩
  · intro t u tr tr' ht hu
    exact hs.unique t u tr tr' ((hhold t tr).mp ht) ((hhold u tr').mp hu)
  · intro t tr b ht
    exact hs.legal t tr b (hspec t tr b ht)
  · intro t u tr tr' b b' hne ht hu
    exact hs.apart t u tr tr' b b' hne (hspec t tr b ht) (hspec u tr' b' hu)
  · intro t tr ht
    exact hfree.mpr (hs.alone t tr (hspec t tr false ht))
  · obtain ⟨base, h₁, h₂, h₃⟩ := hs.serial
    exact ⟨base, h₁, fun t tr ht => h₂ t tr ((hhold t tr).mp ht), fun hf => h₃ (hfree.mp hf)⟩

omit [DecidableEq D] in
/-- An access that conflicts with nothing keeps another open transaction apart from it. -/
theorem not_conflicts {e : Ev D V} {tr : List (Ev D V)} (h : ¬ e.Conflicts tr) :
    (∀ d ∈ written tr, d ∉ touched [e]) ∧ (∀ d ∈ written [e], d ∉ touched tr) := by
  cases e with
  | rd d v =>
    refine ⟨fun d' hd' hmem => ?_, by simp⟩
    rw [touched_single, List.mem_singleton] at hmem
    subst hmem
    exact h hd'
  | wr d v =>
    refine ⟨fun d' hd' hmem => ?_, fun d' hd' hmem => ?_⟩
    · rw [touched_single, List.mem_singleton] at hmem
      subst hmem
      exact h (mem_touched_of_mem_written hd')
    · rw [written_wr, List.mem_singleton] at hd'
      subst hd'
      exact h hmem

theorem legal_snoc {m : D → V} {tr : List (Ev D V)} {e : Ev D V} (h : Legal m tr)
    (hr : Reads (publish m tr) e) : Legal m (tr ++ [e]) := by
  cases e with
  | rd d v =>
    change v = publish m tr d at hr
    rw [hr]
    exact legal_rd h d
  | wr d v => exact legal_wr h d v

theorem Safe.specAccess (hs : Safe m₀ s) {t : T} {tr : List (Ev D V)} {b : Bool} {e : Ev D V}
    (h : s.status t = .speculating tr b) (hr : Reads (publish s.data tr) e)
    (hu : s.Unopposed t e) : Safe m₀ (s.setStatus t (.speculating (tr ++ [e]) b)) := by
  have hout : ∀ tr, s.status t ≠ .holding tr := by simp [h]
  refine ⟨?_, ?_, ?_, ?_, hs.serial_setStatus hout (by simp)⟩
  · intro u v tr₁ tr₂ hu hv
    rw [holding_setStatus hout (by simp)] at hu hv
    exact hs.unique u v tr₁ tr₂ hu hv
  · intro u tr' c hu'
    rw [status_setStatus] at hu'
    split at hu'
    · cases hu'
      exact legal_snoc (hs.legal t tr b h) hr
    · exact hs.legal u tr' c hu'
  · intro u v tr₁ tr₂ c₁ c₂ hne hu' hv'
    rw [status_setStatus] at hu' hv'
    split at hu' <;> split at hv'
    · rename_i hut hvt
      exact (hne (hut.trans hvt.symm)).elim
    · rename_i hut hvt
      cases hu'
      subst hut
      have hne' := (not_conflicts (hu v tr₂ c₂ hvt hv')).2
      intro d hd
      rw [written_append, List.mem_append] at hd
      rcases hd with hd | hd
      · exact hs.apart u v tr tr₂ b c₂ hne h hv' d hd
      · exact hne' d hd
    · rename_i hut hvt
      cases hv'
      subst hvt
      have hne' := (not_conflicts (hu u tr₁ c₁ hut hu')).1
      intro d hd
      rw [touched_append, List.mem_append, not_or]
      exact ⟨hs.apart u v tr₁ tr c₁ b hne hu' h d hd, hne' d hd⟩
    · exact hs.apart u v tr₁ tr₂ c₁ c₂ hne hu' hv'
  · intro u tr' hu'
    rw [free_setStatus hout (by simp)]
    rw [status_setStatus] at hu'
    split at hu'
    · cases hu'
      exact hs.alone t tr h
    · exact hs.alone u tr' hu'

theorem Safe.ownAccess (hs : Safe m₀ s) {t : T} {tr : List (Ev D V)} {e : Ev D V}
    (h : s.status t = .holding tr) (hr : Reads s.data e) (hu : s.Unopposed t e) :
    Safe m₀ { s.setStatus t (.holding (tr ++ [e])) with data := publish s.data [e] } := by
  have hspec : ∀ u tr' c, (s.setStatus t (.holding (tr ++ [e]))).status u = .speculating tr' c →
      u ≠ t ∧ s.status u = .speculating tr' c := by
    intro u tr' c hu'
    rw [status_setStatus] at hu'
    split at hu'
    · cases hu'
    · rename_i hne
      exact ⟨hne, hu'⟩
  have hhold : ∀ u tr', (s.setStatus t (.holding (tr ++ [e]))).status u = .holding tr' →
      u = t ∧ tr' = tr ++ [e] := by
    intro u tr' hu'
    rw [status_setStatus] at hu'
    split at hu'
    · rename_i he
      cases hu'
      exact ⟨he, rfl⟩
    · rename_i hne
      exact (hne (hs.unique u t tr' tr hu' h)).elim
  refine ⟨?_, ?_, ?_, ?_, ?_⟩
  · intro u v tr₁ tr₂ hu' hv'
    exact (hhold u tr₁ hu').1.trans (hhold v tr₂ hv').1.symm
  · intro u tr' c hu'
    obtain ⟨hne, hold⟩ := hspec u tr' c hu'
    have hl := hs.legal u tr' c hold
    exact (legal_publish (not_conflicts (hu u tr' c hne hold)).2).mpr hl
  · intro u v tr₁ tr₂ c₁ c₂ hne hu' hv'
    exact hs.apart u v tr₁ tr₂ c₁ c₂ hne (hspec u tr₁ c₁ hu').2 (hspec v tr₂ c₂ hv').2
  · intro u tr' hu'
    exact (hs.alone u tr' (hspec u tr' false hu').2 t tr h).elim
  · obtain ⟨base, h₁, h₂, -⟩ := hs.serial
    obtain ⟨hl, hp⟩ := h₂ t tr h
    refine ⟨base, h₁, ?_, fun hf => ?_⟩
    · intro u tr' hu'
      obtain ⟨-, rfl⟩ := hhold u tr' hu'
      rw [publish_append, hp]
      exact ⟨legal_snoc hl (hp ▸ hr), rfl⟩
    · exact (hf t (tr ++ [e]) (status_setStatus_self s t _)).elim

theorem Safe.commit (hs : Safe m₀ s) {t : T} {tr : List (Ev D V)}
    (h : s.status t = .speculating tr false) :
    Safe m₀ { s.setStatus t .outside with
      data := publish s.data tr
      log := s.log ++ [(t, tr)] } := by
  have hfree := hs.alone t tr h
  have hout : ∀ tr, s.status t ≠ .holding tr := hfree t
  have hspec : ∀ u tr' c, (s.setStatus t .outside).status u = .speculating tr' c →
      u ≠ t ∧ s.status u = .speculating tr' c := by
    intro u tr' c hu'
    rw [status_setStatus] at hu'
    split at hu'
    · cases hu'
    · rename_i hne
      exact ⟨hne, hu'⟩
  have hfree' : (s.setStatus t .outside).Free := (free_setStatus hout (by simp)).mpr hfree
  refine ⟨?_, ?_, ?_, fun _ _ _ => hfree', ?_⟩
  · intro u v tr₁ tr₂ hu' hv'
    exact (hfree' u tr₁ hu').elim
  · intro u tr' c hu'
    obtain ⟨hne, hold⟩ := hspec u tr' c hu'
    exact (legal_publish (hs.apart t u tr tr' false c hne.symm h hold)).mpr
      (hs.legal u tr' c hold)
  · intro u v tr₁ tr₂ c₁ c₂ hne hu' hv'
    exact hs.apart u v tr₁ tr₂ c₁ c₂ hne (hspec u tr₁ c₁ hu').2 (hspec v tr₂ c₂ hv').2
  · -- nobody holds the lock, so the transaction sees the memory that the log left
    obtain ⟨base, h₁, -, h₃⟩ := hs.serial
    obtain rfl := h₃ hfree
    refine ⟨publish s.data tr, ?_, fun u tr' hu' => (hfree' u tr' hu').elim, fun _ => rfl⟩
    simpa using h₁.snoc (hs.legal t tr false h)

theorem Safe.acquire (hs : Safe m₀ s) {t : T} {status : T → Status D V} (hf : s.Free)
    (ht : status t = .holding []) (hu : ∀ u, u ≠ t → status u = (s.status u).mark) :
    Safe m₀ { s with status := status } := by
  have hspec : ∀ u tr c, status u = .speculating tr c →
      c = true ∧ ∃ c', s.status u = .speculating tr c' := by
    intro u tr c hu'
    by_cases hne : u = t
    · rw [hne, ht] at hu'
      cases hu'
    · rw [hu u hne] at hu'
      cases hsu : s.status u <;> rw [hsu] at hu' <;> cases hu'
      exact ⟨rfl, _, rfl⟩
  have hhold : ∀ u tr, status u = .holding tr → u = t ∧ tr = [] := by
    intro u tr hu'
    by_cases hne : u = t
    · rw [hne, ht] at hu'
      cases hu'
      exact ⟨hne, rfl⟩
    · rw [hu u hne] at hu'
      cases hsu : s.status u <;> rw [hsu] at hu' <;> cases hu'
      exact (hf u _ hsu).elim
  refine ⟨?_, ?_, ?_, ?_, ?_⟩
  · intro u v tr₁ tr₂ hu' hv'
    exact (hhold u tr₁ hu').1.trans (hhold v tr₂ hv').1.symm
  · intro u tr c hu'
    obtain ⟨-, c', hc'⟩ := hspec u tr c hu'
    exact hs.legal u tr c' hc'
  · intro u v tr₁ tr₂ c₁ c₂ hne hu' hv'
    obtain ⟨-, d₁, hd₁⟩ := hspec u tr₁ c₁ hu'
    obtain ⟨-, d₂, hd₂⟩ := hspec v tr₂ c₂ hv'
    exact hs.apart u v tr₁ tr₂ d₁ d₂ hne hd₁ hd₂
  · intro u tr hu'
    cases (hspec u tr false hu').1
  · obtain ⟨base, h₁, -, h₃⟩ := hs.serial
    obtain rfl := h₃ hf
    refine ⟨s.data, h₁, ?_, fun hf' => (hf' t [] ht).elim⟩
    intro u tr hu'
    obtain ⟨-, rfl⟩ := hhold u tr hu'
    exact ⟨trivial, rfl⟩

theorem Safe.release (hs : Safe m₀ s) {t : T} {tr : List (Ev D V)}
    (h : s.status t = .holding tr) :
    Safe m₀ { s.setStatus t .outside with log := s.log ++ [(t, tr)] } := by
  have hspec : ∀ u tr' c, (s.setStatus t .outside).status u = .speculating tr' c →
      s.status u = .speculating tr' c := by
    intro u tr' c hu'
    rw [status_setStatus] at hu'
    split at hu'
    · cases hu'
    · exact hu'
  have hfree : (s.setStatus t .outside).Free := by
    intro u tr' hu'
    rw [status_setStatus] at hu'
    split at hu'
    · cases hu'
    · rename_i hne
      exact hne (hs.unique u t tr' tr hu' h)
  refine ⟨?_, ?_, ?_, fun _ _ _ => hfree, ?_⟩
  · intro u v tr₁ tr₂ hu' hv'
    exact (hfree u tr₁ hu').elim
  · intro u tr' c hu'
    exact hs.legal u tr' c (hspec u tr' c hu')
  · intro u v tr₁ tr₂ c₁ c₂ hne hu' hv'
    exact hs.apart u v tr₁ tr₂ c₁ c₂ hne (hspec u tr₁ c₁ hu') (hspec v tr₂ c₂ hv')
  · obtain ⟨base, h₁, h₂, -⟩ := hs.serial
    obtain ⟨hl, hp⟩ := h₂ t tr h
    refine ⟨publish base tr, ?_, fun u tr' hu' => (hfree u tr' hu').elim, fun _ => hp⟩
    simpa using h₁.snoc hl

theorem Safe.step {s' : State T D V} (hs : Safe m₀ s) (h : Step s s') : Safe m₀ s' := by
  cases h with
  | begin t b h hb => exact hs.begin h hb
  | watch t tr b h hb => exact hs.watch h hb
  | abort status h => exact hs.abort h
  | specAccess t tr b e h hr hu => exact hs.specAccess h hr hu
  | ownAccess t tr e h hr hu => exact hs.ownAccess h hr hu
  | commit t tr h => exact hs.commit h
  | acquire t status hf h ht hu => exact hs.acquire hf ht hu
  | release t tr h => exact hs.release h

/-- Several steps. -/
def Steps : State T D V → State T D V → Prop := Relation.ReflTransGen Step

theorem Safe.steps {s' : State T D V} (hs : Safe m₀ s) (h : Steps s s') : Safe m₀ s' := by
  induction h with
  | refl => exact hs
  | tail _ h ih => exact ih.step h

omit [DecidableEq T] in
/-- Before anybody has entered. -/
theorem safe_init (m₀ : D → V) : Safe m₀ (⟨m₀, fun _ => .outside, []⟩ : State T D V) := by
  refine ⟨?_, ?_, ?_, ?_, m₀, serial_nil m₀, ?_, fun _ => rfl⟩ <;> simp

end Htmsql.Elision
