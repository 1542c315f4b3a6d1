import Htmsql.Lib.Chain

/-!
# Doubly linked segments

A heap maps pointers to nodes of any type `N`; `mk d prev next` is the node with data `d` between
`prev` and `next`. `Linked mk heap before l after` says that the nodes at the pointers of `l` hold
the data of `l` and point to each other, the first one back to `before` and the last one on to
`after`. A segment is cut in two and put together by `linked_append`, and it depends on the nodes at
its own pointers only (`Linked.congr`); these two rules serve every update of a list.
-/

namespace Htmsql.DoublyLinked

open Chain (firstOr)

variable {N P D : Type} {mk : D → Option P → Option P → N} {heap heap' : P → Option N}
  {l l₁ l₂ : List (P × D)} {before after : Option P} {p : P} {d : D}

/-- The last pointer of a segment that comes after `before`. -/
def lastOr : List (P × D) → Option P → Option P
  | [], before => before
  | (p, _) :: l, _ => lastOr l (some p)

@[simp] theorem lastOr_concat (l : List (P × D)) (p : P) (d : D) (before : Option P) :
    lastOr (l ++ [(p, d)]) before = some p := by
  induction l generalizing before with
  | nil => rfl
  | cons x l ih => exact ih (some x.1)

theorem lastOr_append (l₁ l₂ : List (P × D)) (before : Option P) :
    lastOr (l₁ ++ l₂) before = lastOr l₂ (lastOr l₁ before) := by
  induction l₁ generalizing before with
  | nil => rfl
  | cons x l₁ ih => exact ih (some x.1)

theorem lastOr_eq_none (h : lastOr l none = none) : l = [] := by
  rcases List.eq_nil_or_concat l with rfl | ⟨l, x, rfl⟩
  · rfl
  · rw [List.concat_eq_append, lastOr_concat] at h
    cases h

theorem eq_concat_of_lastOr (h : lastOr l none = some p) : ∃ l' d, l = l' ++ [(p, d)] := by
  rcases List.eq_nil_or_concat l with rfl | ⟨l, ⟨q, d⟩, rfl⟩
  · cases h
  · rw [List.concat_eq_append] at h ⊢
    rw [lastOr_concat, Option.some.injEq] at h
    exact ⟨l, d, h ▸ rfl⟩

theorem eq_cons_of_firstOr (h : firstOr l none = some p) : ∃ d l', l = (p, d) :: l' := by
  cases l with
  | nil => cases h
  | cons x l => exact ⟨x.2, l, Option.some.inj h ▸ rfl⟩

/-- The items lie in the heap one after the other, each with its predecessor and successor; `mk`
builds a node from its datum and the two links. -/
def Linked (mk : D → Option P → Option P → N) (heap : P → Option N) :
    Option P → List (P × D) → Option P → Prop
  | _, [], _ => True
  | before, (p, d) :: l, after =>
    heap p = some (mk d before (firstOr l after)) ∧ Linked mk heap (some p) l after

theorem linked_append : Linked mk heap before (l₁ ++ l₂) after ↔
    Linked mk heap before l₁ (firstOr l₂ after) ∧
      Linked mk heap (lastOr l₁ before) l₂ after := by
  induction l₁ generalizing before with
  | nil => simp [Linked, lastOr]
  | cons x l₁ ih =>
    obtain ⟨p, d⟩ := x
    simp only [List.cons_append, Linked, lastOr, Chain.firstOr_append, ih, and_assoc]

/-- The node in the middle of a segment. -/
theorem Linked.at (h : Linked mk heap before (l₁ ++ (p, d) :: l₂) after) :
    heap p = some (mk d (lastOr l₁ before) (firstOr l₂ after)) :=
  (linked_append.mp h).2.1

theorem Linked.congr (h : Linked mk heap before l after)
    (hheap : ∀ p ∈ l.map Prod.fst, heap' p = heap p) : Linked mk heap' before l after := by
  induction l generalizing before with
  | nil => trivial
  | cons x l ih =>
    obtain ⟨p, d⟩ := x
    refine ⟨?_, ih h.2 fun q hq => hheap q (List.mem_cons_of_mem _ hq)⟩
    rw [hheap p List.mem_cons_self]
    exact h.1

theorem Linked.mem (h : Linked mk heap before l after) (hp : p ∈ l.map Prod.fst) :
    ∃ n, heap p = some n := by
  obtain ⟨⟨q, d⟩, hx, rfl⟩ := List.mem_map.mp hp
  obtain ⟨l₁, l₂, rfl⟩ := List.append_of_mem hx
  exact ⟨_, h.at⟩

/-- The first node is made to point back elsewhere. -/
theorem Linked.redirectFirst [DecidableEq P] (h : Linked mk heap before ((p, d) :: l) after)
    (hp : p ∉ l.map Prod.fst) (before' : Option P) :
    Linked mk (Function.update heap p (some (mk d before' (firstOr l after)))) before'
      ((p, d) :: l) after := by
  refine ⟨Function.update_self .., h.2.congr fun q hq => Function.update_of_ne ?_ _ _⟩
  rintro rfl
  exact hp hq

/-- The last node is made to point elsewhere. -/
theorem Linked.redirectLast [DecidableEq P] (h : Linked mk heap before (l ++ [(p, d)]) after)
    (hp : p ∉ l.map Prod.fst) (after' : Option P) :
    Linked mk (Function.update heap p (some (mk d (lastOr l before) after'))) before
      (l ++ [(p, d)]) after' := by
  refine linked_append.mpr ⟨(linked_append.mp h).1.congr fun q hq =>
    Function.update_of_ne ?_ _ _, Function.update_self .., trivial⟩
  rintro rfl
  exact hp hq

/-- The nodes that follow each other by `next` alone. -/
theorem Linked.seg (data : N → D) (next : N → Option P)
    (hdata : ∀ d b a, data (mk d b a) = d) (hnext : ∀ d b a, next (mk d b a) = a)
    (h : Linked mk heap before l after) :
    Chain.Seg (fun p => (heap p).map fun n => (⟨data n, next n⟩ : Chain.Node P D)) l after := by
  induction l generalizing before with
  | nil => trivial
  | cons x l ih =>
    obtain ⟨p, d⟩ := x
    refine ⟨?_, ih h.2⟩
    simp only [h.1, Option.map_some, hdata, hnext]

end Htmsql.DoublyLinked
