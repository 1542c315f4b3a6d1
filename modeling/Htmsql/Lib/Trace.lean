import Mathlib.Logic.Function.Basic
import Mathlib.Data.List.Perm.Basic

/-!
# Traces of memory accesses

The accesses of one critical section, or of one hardware transaction, in program order: reads
with the value they returned and writes with the value they stored. `Legal m tr` says that
the trace is what a thread running alone from memory `m` observes, `publish m tr` is the
memory its writes leave. Two facts carry every later argument:

* what is written elsewhere does not disturb a trace (`legal_update`, `legal_publish`);
* sections that run one at a time compose (`legal_append`, `publish_append`).

A set of sections is serializable when some order of them, run one at a time, is legal and
leaves the memory in question.
-/

namespace Htmsql.Trace

variable {L V : Type}

/-- One access to a memory location. -/
inductive Ev (L V : Type) where
  | rd (l : L) (v : V)
  | wr (l : L) (v : V)
  deriving DecidableEq, Repr

namespace Ev

/-- The location that is accessed. -/
def loc : Ev L V → L
  | rd l _ => l
  | wr l _ => l

/-- The access is a write. -/
def isWrite : Ev L V → Bool
  | rd _ _ => false
  | wr _ _ => true

end Ev

/-- The locations that a trace reads or writes. -/
def touched (tr : List (Ev L V)) : List L := tr.map Ev.loc

/-- The locations that a trace writes. -/
def written (tr : List (Ev L V)) : List L := (tr.filter Ev.isWrite).map Ev.loc

/-- The access, made by somebody else, conflicts with an open transaction that has made the
accesses `tr`: it writes a location that the transaction touched, or reads one it wrote. -/
def Ev.Conflicts : Ev L V → List (Ev L V) → Prop
  | rd l _, tr => l ∈ written tr
  | wr l _, tr => l ∈ touched tr

theorem mem_touched_of_mem_written {tr : List (Ev L V)} {l : L} (h : l ∈ written tr) :
    l ∈ touched tr := by
  obtain ⟨e, he, rfl⟩ := List.mem_map.mp h
  exact List.mem_map.mpr ⟨e, (List.mem_filter.mp he).1, rfl⟩

@[simp] theorem touched_append (a b : List (Ev L V)) :
    touched (a ++ b) = touched a ++ touched b := List.map_append

@[simp] theorem written_append (a b : List (Ev L V)) :
    written (a ++ b) = written a ++ written b := by
  simp [written]

@[simp] theorem touched_single (e : Ev L V) : touched [e] = [e.loc] := rfl

@[simp] theorem written_rd (l : L) (v : V) : written [Ev.rd l v] = [] := by
  simp [written, Ev.isWrite]

@[simp] theorem written_wr (l : L) (v : V) : written [Ev.wr l v] = [l] := rfl

variable [DecidableEq L]

instance (e : Ev L V) (tr : List (Ev L V)) : Decidable (e.Conflicts tr) :=
  match e with
  | .rd l _ => inferInstanceAs (Decidable (l ∈ written tr))
  | .wr l _ => inferInstanceAs (Decidable (l ∈ touched tr))

/-- The memory after the writes of a trace. -/
def publish (m : L → V) : List (Ev L V) → L → V
  | [] => m
  | .rd _ _ :: tr => publish m tr
  | .wr l v :: tr => publish (Function.update m l v) tr

/-- Every read of the trace returns what a lone run from `m` finds there. -/
def Legal (m : L → V) : List (Ev L V) → Prop
  | [] => True
  | .rd l v :: tr => m l = v ∧ Legal m tr
  | .wr l v :: tr => Legal (Function.update m l v) tr

instance decidableLegal [DecidableEq V] : (m : L → V) → (tr : List (Ev L V)) →
    Decidable (Legal m tr)
  | _, [] => isTrue trivial
  | m, .rd l v :: tr =>
    have := decidableLegal m tr
    inferInstanceAs (Decidable (m l = v ∧ Legal m tr))
  | m, .wr l v :: tr => decidableLegal (Function.update m l v) tr

/-! ## Composition -/

@[simp] theorem legal_nil (m : L → V) : Legal m [] := trivial

@[simp] theorem publish_nil (m : L → V) : publish m [] = m := by
  rw [publish]

theorem publish_append (m : L → V) (a b : List (Ev L V)) :
    publish m (a ++ b) = publish (publish m a) b := by
  induction a generalizing m with
  | nil => rfl
  | cons e a ih => cases e <;> exact ih _

theorem legal_append (m : L → V) (a b : List (Ev L V)) :
    Legal m (a ++ b) ↔ Legal m a ∧ Legal (publish m a) b := by
  induction a generalizing m with
  | nil => simp
  | cons e a ih =>
    cases e with
    | rd l v => simp only [List.cons_append, Legal, publish, ih, and_assoc]
    | wr l v => exact ih _

/-- A read of the thread's own view extends a legal trace. -/
theorem legal_rd {m : L → V} {tr : List (Ev L V)} (h : Legal m tr) (l : L) :
    Legal m (tr ++ [.rd l (publish m tr l)]) :=
  (legal_append m tr _).mpr ⟨h, rfl, trivial⟩

theorem legal_wr {m : L → V} {tr : List (Ev L V)} (h : Legal m tr) (l : L) (v : V) :
    Legal m (tr ++ [.wr l v]) :=
  (legal_append m tr _).mpr ⟨h, trivial⟩

/-! ## Accesses elsewhere -/

theorem legal_update {m : L → V} {tr : List (Ev L V)} {l : L} (h : l ∉ touched tr) (v : V) :
    Legal (Function.update m l v) tr ↔ Legal m tr := by
  induction tr generalizing m with
  | nil => rfl
  | cons e tr ih =>
    have htail : l ∉ touched tr := fun hl => h (List.mem_cons_of_mem _ hl)
    cases e with
    | rd l' v' =>
      have hne : l' ≠ l := fun hl => h (hl ▸ List.mem_cons_self)
      simp only [Legal, Function.update_of_ne hne, ih htail]
    | wr l' v' =>
      have hne : l ≠ l' := fun hl => h (hl ▸ List.mem_cons_self)
      simp only [Legal]
      rw [Function.update_comm hne]
      exact ih htail

/-- A published trace that writes nothing the other one touches leaves it legal. -/
theorem legal_publish {m : L → V} {a b : List (Ev L V)}
    (h : ∀ l ∈ written a, l ∉ touched b) : Legal (publish m a) b ↔ Legal m b := by
  induction a generalizing m with
  | nil => rfl
  | cons e a ih =>
    cases e with
    | rd l v => exact ih h
    | wr l v =>
      have hl : l ∉ touched b := h l (List.mem_cons_self)
      exact (ih fun l' hl' => h l' (List.mem_cons_of_mem _ hl')).trans (legal_update hl v)

/-! ## Memories that differ elsewhere -/

theorem publish_of_not_written {m : L → V} {tr : List (Ev L V)} {l : L} (h : l ∉ written tr) :
    publish m tr l = m l := by
  induction tr generalizing m with
  | nil => rfl
  | cons e tr ih =>
    cases e with
    | rd l' v => exact ih h
    | wr l' v =>
      obtain ⟨hne, htail⟩ := not_or.mp (List.mem_cons.not.mp h)
      exact (ih htail).trans (Function.update_of_ne hne _ _)

/-- What a trace leaves at a location depends on the memory at that location only, and not even
on this if it writes there. -/
theorem publish_congr {m m' : L → V} {tr : List (Ev L V)} {l : L}
    (h : l ∉ written tr → m' l = m l) : publish m' tr l = publish m tr l := by
  induction tr generalizing m m' with
  | nil => exact h (by simp [written])
  | cons e tr ih =>
    cases e with
    | rd l' v => exact ih h
    | wr l' v =>
      refine ih fun hl => ?_
      by_cases hne : l = l'
      · rw [hne, Function.update_self, Function.update_self]
      · rw [Function.update_of_ne hne, Function.update_of_ne hne]
        exact h (List.not_mem_cons_of_ne_of_not_mem hne hl)

/-- A trace is legal or not by the memory it touches. -/
theorem Legal.congr {m m' : L → V} {tr : List (Ev L V)} (hl : Legal m tr)
    (h : ∀ l ∈ touched tr, m' l = m l) : Legal m' tr := by
  induction tr generalizing m m' with
  | nil => trivial
  | cons e tr ih =>
    have htail : ∀ l ∈ touched tr, m' l = m l := fun l hl => h l (List.mem_cons_of_mem _ hl)
    cases e with
    | rd l v => exact ⟨(h l List.mem_cons_self).trans hl.1, ih hl.2 htail⟩
    | wr l v =>
      refine ih hl fun l' hl' => ?_
      by_cases hne : l' = l
      · rw [hne, Function.update_self, Function.update_self]
      · rw [Function.update_of_ne hne, Function.update_of_ne hne]
        exact htail l' hl'

/-! ## Serial orders -/

/-- The sections run one at a time from `m₀`, in this order, observe what they observed and
leave `m`. -/
def Serial (m₀ : L → V) (secs : List (List (Ev L V))) (m : L → V) : Prop :=
  Legal m₀ secs.flatten ∧ publish m₀ secs.flatten = m

theorem serial_nil (m : L → V) : Serial m [] m := ⟨trivial, rfl⟩

/-- One more section, run after the others. -/
theorem Serial.snoc {m₀ m : L → V} {secs : List (List (Ev L V))} (h : Serial m₀ secs m)
    {tr : List (Ev L V)} (hl : Legal m tr) : Serial m₀ (secs ++ [tr]) (publish m tr) := by
  obtain ⟨h₁, rfl⟩ := h
  refine ⟨?_, ?_⟩
  · rw [List.flatten_append, legal_append]
    exact ⟨h₁, by simpa using hl⟩
  · rw [List.flatten_append, publish_append]
    simp

end Htmsql.Trace
