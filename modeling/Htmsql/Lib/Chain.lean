import Mathlib.Data.List.Nodup
import Mathlib.Logic.Function.Basic

/-!
# Linked lists in a heap

A heap maps pointers to nodes, a node holds data and the pointer to its successor. `Seg heap l e`
says that the nodes at the pointers of `l`, one after the other, hold the data of `l`, and the
last one points to `e`; with `e = none` this is a list that ends in a null pointer. The two
updates of a linked list, to append a node and to take one out, change a single pointer: that of
the last node of a segment (`Seg.redirect`).
-/

namespace Htmsql.Chain

variable {P D : Type}

/-- A node of a singly linked list. -/
structure Node (P D : Type) where
  data : D
  successor : Option P
  deriving DecidableEq, Repr

/-- The first pointer of a segment that continues at `e`. -/
def firstOr : List (P × D) → Option P → Option P
  | [], e => e
  | (p, _) :: _, _ => some p

/-- The last pointer of a segment. -/
def last : List (P × D) → Option P
  | [] => none
  | [(p, _)] => some p
  | _ :: x :: l => last (x :: l)

/-- The nodes of the list lie in the heap, each with the next one as its successor and the last
one with `e`. -/
def Seg (heap : P → Option (Node P D)) : List (P × D) → Option P → Prop
  | [], _ => True
  | (p, d) :: l, e => heap p = some ⟨d, firstOr l e⟩ ∧ Seg heap l e

variable {heap heap' : P → Option (Node P D)} {l l₁ l₂ : List (P × D)} {e : Option P}

theorem firstOr_append (l₁ l₂ : List (P × D)) (e : Option P) :
    firstOr (l₁ ++ l₂) e = firstOr l₁ (firstOr l₂ e) := by
  cases l₁ <;> rfl

@[simp] theorem last_concat (l : List (P × D)) (x : P × D) : last (l ++ [x]) = some x.1 := by
  induction l with
  | nil => rfl
  | cons y l ih =>
    cases l with
    | nil => rfl
    | cons z l => exact ih

theorem firstOr_reverse (l : List (P × D)) : firstOr l.reverse none = last l := by
  rcases List.eq_nil_or_concat l with rfl | ⟨l, x, rfl⟩
  · rfl
  · rw [List.concat_eq_append, List.reverse_concat, last_concat]
    rfl

theorem last_reverse (l : List (P × D)) : last l.reverse = firstOr l none := by
  rw [← firstOr_reverse, List.reverse_reverse]

theorem last_append_cons (l₁ : List (P × D)) (x : P × D) (l₂ : List (P × D)) :
    last (l₁ ++ x :: l₂) = last (x :: l₂) := by
  rcases List.eq_nil_or_concat l₂ with rfl | ⟨l, y, rfl⟩
  · rw [last_concat]
    rfl
  · rw [List.concat_eq_append, ← List.cons_append, ← List.append_assoc, last_concat, last_concat]

theorem last_mem {p : P} (h : last l = some p) : p ∈ l.map Prod.fst := by
  rcases List.eq_nil_or_concat l with rfl | ⟨l, x, rfl⟩
  · cases h
  · rw [List.concat_eq_append] at h ⊢
    rw [last_concat, Option.some.injEq] at h
    simp [← h]

theorem firstOr_mem {p : P} (h : firstOr l none = some p) : p ∈ l.map Prod.fst := by
  cases l with
  | nil => cases h
  | cons x l =>
    obtain ⟨q, d⟩ := x
    rw [firstOr, Option.some.injEq] at h
    simp [h]

theorem firstOr_eq_none (h : firstOr l none = none) : l = [] := by
  cases l with
  | nil => rfl
  | cons x l => cases h

theorem last_eq_none (h : last l = none) : l = [] := by
  rcases List.eq_nil_or_concat l with rfl | ⟨l, x, rfl⟩
  · rfl
  · rw [List.concat_eq_append, last_concat] at h
    cases h

theorem seg_append : Seg heap (l₁ ++ l₂) e ↔ Seg heap l₁ (firstOr l₂ e) ∧ Seg heap l₂ e := by
  induction l₁ with
  | nil => simp [Seg]
  | cons x l₁ ih =>
    obtain ⟨p, d⟩ := x
    simp only [List.cons_append, Seg, firstOr_append, ih, and_assoc]

theorem Seg.mem (h : Seg heap l e) {x : P × D} (hx : x ∈ l) :
    ∃ succ, heap x.1 = some ⟨x.2, succ⟩ := by
  induction l with
  | nil => cases hx
  | cons y l ih =>
    rcases List.mem_cons.mp hx with rfl | hx
    · exact ⟨_, h.1⟩
    · exact ih h.2 hx

/-- The node in the middle of a segment. -/
theorem Seg.at {p : P} {d : D} (h : Seg heap (l₁ ++ (p, d) :: l₂) e) :
    heap p = some ⟨d, firstOr l₂ e⟩ := (seg_append.mp h).2.1

/-- The successors of a list are in the list. -/
theorem Seg.closed (h : Seg heap l none) {x : P × D} (hx : x ∈ l) {n : Node P D}
    (hn : heap x.1 = some n) {p : P} (hp : n.successor = some p) : p ∈ l.map Prod.fst := by
  induction l with
  | nil => cases hx
  | cons y l ih =>
    rcases List.mem_cons.mp hx with rfl | hx
    · rw [h.1, Option.some.injEq] at hn
      rw [← hn] at hp
      exact List.mem_cons_of_mem _ (firstOr_mem hp)
    · exact List.mem_cons_of_mem _ (ih h.2 hx)

/-- A segment depends on the nodes at its own pointers only. -/
theorem Seg.congr (h : Seg heap l e) (hh : ∀ x ∈ l, heap' x.1 = heap x.1) : Seg heap' l e := by
  induction l with
  | nil => trivial
  | cons x l ih =>
    refine ⟨?_, ih h.2 fun y hy => hh y (List.mem_cons_of_mem _ hy)⟩
    rw [hh x List.mem_cons_self]
    exact h.1

/-- A list that begins where a segment begins goes through the segment. -/
theorem Seg.through (h₁ : Seg heap l₁ e) (h : Seg heap l none)
    (hfirst : firstOr l none = firstOr l₁ e) :
    ∃ l₃, l = l₁ ++ l₃ ∧ firstOr l₃ none = e ∧ Seg heap l₃ none := by
  induction l₁ generalizing l with
  | nil => exact ⟨l, rfl, hfirst, h⟩
  | cons x l₁ ih =>
    obtain ⟨p, d⟩ := x
    cases l with
    | nil => cases hfirst
    | cons y l =>
      obtain ⟨q, d'⟩ := y
      obtain rfl : q = p := Option.some.inj hfirst
      have hnode := h.1.symm.trans h₁.1
      rw [Option.some.injEq, Node.mk.injEq] at hnode
      obtain ⟨rfl, hnext⟩ := hnode
      obtain ⟨l₃, rfl, he, hl₃⟩ := ih h₁.2 h.2 hnext
      exact ⟨l₃, rfl, he, hl₃⟩

/-- A heap has one list that begins at a pointer. -/
theorem Seg.unique (h : Seg heap l none) (h' : Seg heap l₁ none)
    (hfirst : firstOr l none = firstOr l₁ none) : l = l₁ := by
  obtain ⟨l₃, hl, hnone, -⟩ := h'.through h hfirst
  rw [hl, firstOr_eq_none hnone, List.append_nil]

/-- No list leads to a node that points to itself. -/
theorem Seg.not_loop {p : P} {d : D} (hp : heap p = some ⟨d, some p⟩) (h : Seg heap l none) :
    firstOr l none ≠ some p := by
  induction l with
  | nil => exact fun heq => Option.some_ne_none p heq.symm
  | cons x l ih =>
    obtain ⟨q, d'⟩ := x
    intro heq
    obtain rfl : q = p := Option.some.inj heq
    have hnode := h.1.symm.trans hp
    rw [Option.some.injEq, Node.mk.injEq] at hnode
    exact ih h.2 hnode.2

variable [DecidableEq P]

theorem Seg.update (h : Seg heap l e) {p : P} (hp : p ∉ l.map Prod.fst)
    (n : Option (Node P D)) : Seg (Function.update heap p n) l e := by
  refine h.congr fun x hx => Function.update_of_ne (fun hxp => hp ?_) _ _
  rw [← hxp]
  exact List.mem_map_of_mem hx

/-- The last node of a segment is made to point elsewhere. -/
theorem Seg.redirect (h : Seg heap l e) (hn : (l.map Prod.fst).Nodup) {p : P}
    (hp : last l = some p) {n : Node P D} (hh : heap p = some n) (e' : Option P) :
    Seg (Function.update heap p (some { n with successor := e' })) l e' := by
  rcases List.eq_nil_or_concat l with rfl | ⟨l, x, rfl⟩
  · cases hp
  · obtain ⟨q, d⟩ := x
    rw [List.concat_eq_append] at *
    rw [last_concat, Option.some.injEq] at hp
    replace hp : q = p := hp
    subst hp
    obtain ⟨hl, hq, -⟩ := seg_append.mp h
    rw [hq, Option.some.injEq] at hh
    rw [List.map_append, List.nodup_append] at hn
    have hnot : q ∉ l.map Prod.fst := fun hq => hn.2.2 q hq q (by simp) rfl
    refine seg_append.mpr ⟨hl.update hnot _, ?_, trivial⟩
    rw [Function.update_self, ← hh]
    rfl

/-- What follows the last node of a segment is replaced. -/
theorem Seg.relink {a b c : List (P × D)} {e' : Option P} (h : Seg heap (a ++ b) e)
    (hn : (a.map Prod.fst).Nodup) {p : P} (hp : last a = some p) {n : Node P D}
    (hh : heap p = some n) (hc : Seg heap c e') (hpc : p ∉ c.map Prod.fst) :
    Seg (Function.update heap p (some { n with successor := firstOr c e' })) (a ++ c) e' :=
  seg_append.mpr ⟨(seg_append.mp h).1.redirect hn hp hh _, hc.update hpc _⟩

end Htmsql.Chain
