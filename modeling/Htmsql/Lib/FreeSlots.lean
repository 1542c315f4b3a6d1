import Mathlib.Data.List.Nodup
import Mathlib.Data.List.Perm.Basic
import Mathlib.Logic.Function.Basic

/-!
# An array that links its free slots

A growing array of slots reuses the slots that were given back. The free ones form a list through
themselves: a free slot holds the index of the next one instead of a value, and the last one holds
`nil`. `link` tells what a slot is: `some i` if it is free and `i` comes next, `none` if it is in
use. A slot is taken from the head of the list (`Free.pop`), or the array grows when the list is
empty (`Free.grow`); a slot given back becomes the head (`Free.push`). The list has exactly the free
slots, each one once, and `contents` are the values in use.
-/

namespace Htmsql.FreeSlots

variable {C A : Type}

/-- The indices of `free` are linked, from `head` to `nil`. -/
def Linked (link : C → Option ℕ) (nil : ℕ) (cells : ℕ → C) : ℕ → List ℕ → Prop
  | head, [] => head = nil
  | head, i :: free =>
    head = i ∧ i ≠ nil ∧ ∃ next, link (cells i) = some next ∧ Linked link nil cells next free

/-- The free slots among the first `n`. -/
structure Free (link : C → Option ℕ) (nil : ℕ) (cells : ℕ → C) (n head : ℕ) (free : List ℕ) :
    Prop where
  linked : Linked link nil cells head free
  nodup : free.Nodup
  mem_iff : ∀ i, i ∈ free ↔ i < n ∧ (link (cells i)).isSome = true

/-- The values in use among the first `n` slots. -/
def contents (val : C → Option A) (cells : ℕ → C) (n : ℕ) : List A :=
  (List.range n).filterMap fun i => val (cells i)

variable {link : C → Option ℕ} {nil : ℕ} {cells cells' : ℕ → C} {n head i : ℕ} {free : List ℕ}
  {val : C → Option A} {c : C} {x : A}

theorem Linked.congr (h : Linked link nil cells head free)
    (hc : ∀ i ∈ free, cells' i = cells i) : Linked link nil cells' head free := by
  induction free generalizing head with
  | nil => exact h
  | cons i free ih =>
    obtain ⟨hhead, hne, next, hnext, hrest⟩ := h
    refine ⟨hhead, hne, next, ?_, ih hrest fun j hj => hc j (List.mem_cons_of_mem _ hj)⟩
    rw [hc i List.mem_cons_self]
    exact hnext

theorem Linked.update (h : Linked link nil cells head free) (hi : i ∉ free) (c : C) :
    Linked link nil (Function.update cells i c) head free := by
  refine h.congr fun j hj => Function.update_of_ne (fun hij => hi ?_) _ _
  rw [← hij]
  exact hj

theorem free_empty (link : C → Option ℕ) (nil : ℕ) (cells : ℕ → C) :
    Free link nil cells 0 nil [] :=
  ⟨rfl, List.nodup_nil, fun i => by simp⟩

/-- The head of the list is not `nil` exactly if there is a free slot. -/
theorem Free.head_eq_nil_iff (h : Free link nil cells n head free) : head = nil ↔ free = [] := by
  cases free with
  | nil => exact iff_of_true h.linked rfl
  | cons i free =>
    obtain ⟨hhead, hne, -⟩ := h.linked
    refine iff_of_false ?_ (List.cons_ne_nil i free)
    rw [hhead]
    exact hne

/-- The head of the list is taken. -/
theorem Free.pop (h : Free link nil cells n head free) (hhead : head ≠ nil)
    (hc : link c = none) :
    ∃ next rest, free = head :: rest ∧ link (cells head) = some next ∧ head < n ∧
      Free link nil (Function.update cells head c) n next rest := by
  cases free with
  | nil => exact (hhead h.linked).elim
  | cons i rest =>
    obtain ⟨rfl, -, next, hnext, hrest⟩ := h.linked
    obtain ⟨hnot, hnodup⟩ := List.nodup_cons.mp h.nodup
    have hlt : head < n := ((h.mem_iff head).mp List.mem_cons_self).1
    refine ⟨next, rest, rfl, hnext, hlt, hrest.update hnot c, hnodup, fun j => ?_⟩
    have hmem := h.mem_iff j
    by_cases hj : j = head
    · subst hj
      simp [hnot, hc]
    · rw [Function.update_of_ne hj]
      rw [List.mem_cons, or_iff_right hj] at hmem
      exact hmem

/-- Without a free slot the array grows by one. -/
theorem Free.grow (h : Free link nil cells n nil free) (hc : link c = none) :
    Free link nil (Function.update cells n c) (n + 1) nil free := by
  obtain rfl := h.head_eq_nil_iff.mp rfl
  refine ⟨rfl, List.nodup_nil, fun j => ?_⟩
  by_cases hj : j = n
  · subst hj
    simp [hc]
  · rw [Function.update_of_ne hj]
    have hmem := h.mem_iff j
    constructor
    · intro hin
      cases hin
    · rintro ⟨hlt, hlink⟩
      exact hmem.mpr ⟨by omega, hlink⟩

/-- A slot in use is given back. -/
theorem Free.push (h : Free link nil cells n head free) (hi : i < n) (hnil : i ≠ nil)
    (hused : link (cells i) = none) (hc : link c = some head) :
    Free link nil (Function.update cells i c) n i (i :: free) := by
  have hnot : i ∉ free := by
    intro hmem
    have hlink := ((h.mem_iff i).mp hmem).2
    rw [hused] at hlink
    cases hlink
  refine ⟨⟨rfl, hnil, head, ?_, h.linked.update hnot c⟩, List.nodup_cons.mpr ⟨hnot, h.nodup⟩, ?_⟩
  · rw [Function.update_self]
    exact hc
  · intro j
    by_cases hj : j = i
    · subst hj
      simp [hc, hi]
    · rw [Function.update_of_ne hj, List.mem_cons, or_iff_right hj]
      exact h.mem_iff j

/-! ## The values in use -/

theorem mem_contents {a : A} : a ∈ contents val cells n ↔ ∃ i < n, val (cells i) = some a := by
  simp [contents]

theorem contents_congr (h : ∀ i < n, val (cells' i) = val (cells i)) :
    contents val cells' n = contents val cells n := by
  apply List.filterMap_congr
  intro i hi
  exact h i (List.mem_range.mp hi)

/-- The indices apart from `i`. -/
theorem range_split (hi : i < n) :
    ∃ s t, List.range n = s ++ i :: t ∧ i ∉ s ∧ i ∉ t := by
  obtain ⟨s, t, hst⟩ := List.append_of_mem (List.mem_range.mpr hi)
  have hnodup : (s ++ i :: t).Nodup := hst ▸ List.nodup_range
  refine ⟨s, t, hst, ?_, ?_⟩
  · intro hs
    exact (List.nodup_append.mp hnodup).2.2 i hs i List.mem_cons_self rfl
  · exact (List.nodup_cons.mp (List.nodup_append.mp hnodup).2.1).1

/-- Writing one slot exchanges its own value only. -/
theorem contents_update (val : C → Option A) (cells : ℕ → C) (hi : i < n) (c : C) :
    ∃ s t, contents val cells n = s ++ (val (cells i)).toList ++ t ∧
      contents val (Function.update cells i c) n = s ++ (val c).toList ++ t := by
  obtain ⟨s, t, hst, hs, ht⟩ := range_split hi
  have hkeep : ∀ l : List ℕ, i ∉ l →
      l.filterMap (fun j => val (Function.update cells i c j)) =
        l.filterMap fun j => val (cells j) := by
    intro l hl
    apply List.filterMap_congr
    intro j hj
    rw [Function.update_of_ne]
    rintro rfl
    exact hl hj
  refine ⟨s.filterMap fun j => val (cells j), t.filterMap fun j => val (cells j), ?_, ?_⟩
  · rw [contents, hst, List.filterMap_append, List.filterMap_cons]
    cases val (cells i) <;> simp
  · rw [contents, hst, List.filterMap_append, List.filterMap_cons, hkeep s hs, hkeep t ht,
      Function.update_self]
    cases val c <;> simp

theorem contents_fill (val : C → Option A) (hi : i < n) (hfree : val (cells i) = none) (hc : val c = some x) :
    (contents val (Function.update cells i c) n).Perm (x :: contents val cells n) := by
  obtain ⟨s, t, hold, hnew⟩ := contents_update val cells hi c
  rw [hold, hnew, hfree, hc]
  simp

theorem contents_clear (val : C → Option A) (hi : i < n) (hused : val (cells i) = some x)
    (hc : val c = none) :
    (x :: contents val (Function.update cells i c) n).Perm (contents val cells n) := by
  obtain ⟨s, t, hold, hnew⟩ := contents_update val cells hi c
  rw [hold, hnew, hused, hc]
  simpa using List.perm_middle.symm

theorem contents_succ (val : C → Option A) (cells : ℕ → C) (n : ℕ) :
    contents val cells (n + 1) = contents val cells n ++ (val (cells n)).toList := by
  rw [contents, List.range_succ, List.filterMap_append, contents]
  cases h : val (cells n) <;> simp [h]

/-- The array grows by a slot in use. -/
theorem contents_grow (cells : ℕ → C) (n : ℕ) (hc : val c = some x) :
    (contents val (Function.update cells n c) (n + 1)).Perm (x :: contents val cells n) := by
  have hkeep : contents val (Function.update cells n c) n = contents val cells n := by
    apply contents_congr
    intro i hi
    rw [Function.update_of_ne (by omega)]
  rw [contents_succ, hkeep, Function.update_self, hc]
  exact List.perm_append_singleton _ _

/-- In use and free together are all slots. -/
theorem Free.length (h : Free link nil cells n head free) (val : C → Option A)
    (hval : ∀ i < n, (val (cells i)).isNone = (link (cells i)).isSome) :
    (contents val cells n).length + free.length = n := by
  have hperm : free.Perm ((List.range n).filter fun i => (link (cells i)).isSome) := by
    refine (List.perm_ext_iff_of_nodup h.nodup (List.nodup_range.filter _)).mpr fun i => ?_
    rw [h.mem_iff, List.mem_filter, List.mem_range]
  have hlen : ∀ l : List ℕ, (∀ i ∈ l, i < n) →
      (l.filterMap fun i => val (cells i)).length +
        (l.filter fun i => (link (cells i)).isSome).length = l.length := by
    intro l
    induction l with
    | nil => exact fun _ => rfl
    | cons i l ih =>
      intro hl
      have hrest := ih fun j hj => hl j (List.mem_cons_of_mem _ hj)
      have hcell := hval i (hl i List.mem_cons_self)
      cases hv : val (cells i) <;> rw [hv] at hcell <;> simp [hv, ← hcell] <;> omega
  rw [hperm.length_eq, contents, hlen _ fun i hi => List.mem_range.mp hi, List.length_range]

end Htmsql.FreeSlots
