import Htmsql.Lib.Buckets
import Mathlib.Algebra.Order.Ring.Int
import Mathlib.Data.List.Perm.Subperm
import Mathlib.Data.Set.Insert

/-!
# The memory of a hash map

The three `HashMap` classes of `src/hle/hashmap` and `src/micro/hash_map` keep their values in an
array `map` of `size` linked lists and find the list of a value with the same `hash`. Values are any
integers here, negative ones included, and the remainder is that of C++, whose sign is the sign of
the value. An access is `none` if it is to an element that `map` does not have, or to a node that is
not allocated.

`Holds size m C` says that list `h` of the memory `m` is `C h`. The lemmas say what the accesses of
the three classes do to `C`.
-/

namespace Htmsql.HashIndex

open Buckets (Table Chained)
open Chain (Node Seg firstOr last)

/-- An item of the map, named by the number of its allocation. -/
abbrev Ptr := ℕ

/-- `HashMap::hash` -/
def hash (size value : ℤ) : ℤ := value.tmod size

/-- The buckets and items of the map, and how many items have been allocated. -/
structure Memory where
  nodes : Table Ptr ℤ ℤ
  /-- the number of allocations so far; a pointer is the number of its allocation -/
  allocated : ℕ

/-- `calloc` -/
def Memory.empty : Memory := ⟨⟨fun _ => none, fun _ => none⟩, 0⟩

/-- The elements of the array. -/
abbrev InTable (size h : ℤ) : Prop := 0 ≤ h ∧ h < size

/-- A read of the pointer to the first item of list `h`. -/
def Memory.head (size : ℤ) (m : Memory) (h : ℤ) : Option (Option Ptr) :=
  if InTable size h then some (m.nodes.head h) else none

/-- `prev_item->successor = e` or, without a previous item, a write of the pointer to the first
item. -/
def Memory.setNext (size : ℤ) (m : Memory) (h : ℤ) (prev e : Option Ptr) : Option Memory :=
  if prev = none ∧ ¬ InTable size h then none
  else (m.nodes.setNext h prev e).map fun t => { m with nodes := t }

/-- `new LinkedListItem(value)`; the pointer is `m.allocated`. -/
def Memory.new (m : Memory) (value : ℤ) : Memory :=
  ⟨{ m.nodes with heap := Function.update m.nodes.heap m.allocated (some ⟨value, none⟩) },
    m.allocated + 1⟩

/-- `delete` of an item, which must be there. -/
def Memory.delete (m : Memory) (p : Ptr) : Option Memory :=
  (m.nodes.heap p).map fun _ =>
    { m with nodes := { m.nodes with heap := Function.update m.nodes.heap p none } }

/-- The list at the hash of `v` has an item with the data `v`. -/
def values (size : ℤ) (m : Memory) : Set ℤ :=
  {v | ∃ l, m.nodes.head (hash size v) = firstOr l none ∧ Seg m.nodes.heap l none ∧
    v ∈ l.map Prod.snd}

/-- The map holds, in each bucket, the items of a chain, and what is not allocated yet is not
there. -/
structure Holds (size : ℤ) (m : Memory) (C : ℤ → List (Ptr × ℤ)) : Prop where
  chained : Chained (hash size) m.nodes C
  fresh : ∀ p, m.allocated ≤ p → m.nodes.heap p = none

/-- The lists after an item has been appended. -/
def append (size : ℤ) (C : ℤ → List (Ptr × ℤ)) (p : Ptr) (v : ℤ) : ℤ → List (Ptr × ℤ) :=
  Function.update C (hash size v) (C (hash size v) ++ [(p, v)])

/-- The lists without the item of `v`. -/
def without (size : ℤ) (C : ℤ → List (Ptr × ℤ)) (v : ℤ) : ℤ → List (Ptr × ℤ) :=
  Function.update C (hash size v) ((C (hash size v)).filter (·.2 ≠ v))

variable {size : ℤ} {m m' : Memory} {C : ℤ → List (Ptr × ℤ)} {l₁ l₂ : List (Ptr × ℤ)} {h v w : ℤ}
  {p : Ptr} {e : Option Ptr}

/-- The hash of a negative value is an index only if it is 0. -/
theorem inTable_hash_iff (hsize : 0 < size) : InTable size (hash size v) ↔ 0 ≤ v ∨ size ∣ v := by
  have hlt : hash size v < size := Int.tmod_lt_of_pos v hsize
  constructor
  · rintro ⟨hnonneg, -⟩
    rcases Int.le_total 0 v with hv | hv
    · exact Or.inl hv
    · right
      have hneg : 0 ≤ (-v).tmod size := Int.tmod_nonneg size (by omega)
      rw [Int.neg_tmod] at hneg
      have hzero : v.tmod size = 0 := by
        unfold hash at hnonneg
        omega
      exact Int.dvd_of_tmod_eq_zero hzero
  · rintro (hv | hv)
    · exact ⟨Int.tmod_nonneg size hv, hlt⟩
    · refine ⟨?_, hlt⟩
      rw [hash, Int.tmod_eq_zero_of_dvd hv]

theorem Memory.head_some (h : InTable size w) : m.head size w = some (m.nodes.head w) := if_pos h

theorem holds_empty (size : ℤ) : Holds size Memory.empty fun _ => [] :=
  ⟨⟨fun _ => rfl, fun _ => trivial, fun _ => List.nodup_nil, fun _ _ hx => nomatch hx⟩,
    fun _ _ => rfl⟩

/-! ## The values -/

theorem Holds.mem_values (hm : Holds size m C) :
    v ∈ values size m ↔ v ∈ (C (hash size v)).map Prod.snd := by
  constructor
  · rintro ⟨l, hfirst, hseg, hv⟩
    rw [hm.chained.first] at hfirst
    rw [(hm.chained.seg _).unique hseg hfirst]
    exact hv
  · exact fun hv => ⟨_, hm.chained.first _, hm.chained.seg _, hv⟩

theorem Holds.values_append (hm : Holds size m C) (hm' : Holds size m' (append size C p v)) :
    values size m' = insert v (values size m) := by
  ext w
  rw [Set.mem_insert_iff, hm.mem_values, hm'.mem_values, append]
  by_cases hw : hash size w = hash size v
  · rw [hw, Function.update_self, List.map_append, List.mem_append, List.map_singleton,
      List.mem_singleton, or_comm]
  · rw [Function.update_of_ne hw, or_iff_right]
    rintro rfl
    exact hw rfl

theorem Holds.values_without (hm : Holds size m C) (hm' : Holds size m' (without size C v)) :
    values size m' = values size m \ {v} := by
  ext w
  rw [Set.mem_sdiff, Set.mem_singleton_iff, hm.mem_values, hm'.mem_values, without]
  by_cases hw : hash size w = hash size v
  · rw [hw, Function.update_self]
    simp only [List.mem_map, List.mem_filter, decide_eq_true_eq]
    constructor
    · rintro ⟨x, ⟨hx, hne⟩, rfl⟩
      exact ⟨⟨x, hx, rfl⟩, hne⟩
    · rintro ⟨⟨x, hx, rfl⟩, hne⟩
      exact ⟨x, ⟨hx, hne⟩, rfl⟩
  · rw [Function.update_of_ne hw, iff_self_and]
    rintro - rfl
    exact hw rfl

theorem Holds.values_insert_of_mem (hm : Holds size m C) (h : v ∈ (C (hash size v)).map Prod.snd) :
    values size m = insert v (values size m) :=
  (Set.insert_eq_of_mem (hm.mem_values.mpr h)).symm

theorem filter_ne_split (hn : ((l₁ ++ (p, v) :: l₂).map Prod.snd).Nodup) :
    (l₁ ++ (p, v) :: l₂).filter (·.2 ≠ v) = l₁ ++ l₂ := by
  rw [List.map_append, List.map_cons, List.nodup_middle, List.nodup_cons, ← List.map_append] at hn
  have hne : ∀ x ∈ l₁ ++ l₂, x.2 ≠ v := fun x hx heq =>
    hn.1 (List.mem_map.mpr ⟨x, hx, heq⟩)
  rw [List.filter_append, List.filter_cons_of_neg (by simp), ← List.filter_append]
  exact List.filter_eq_self.mpr fun x hx => by simpa using hne x hx

theorem Holds.without_split (hm : Holds size m C)
    (hC : C (hash size v) = l₁ ++ (p, v) :: l₂) :
    without size C v = Function.update C (hash size v) (l₁ ++ l₂) := by
  have hn := hm.chained.nodup (hash size v)
  rw [hC] at hn
  rw [without, hC, filter_ne_split hn]

/-! ## Allocation -/

theorem Holds.lt_allocated (hm : Holds size m C) (hp : p ∈ (C h).map Prod.fst) :
    p < m.allocated := by
  obtain ⟨n, hn⟩ := hm.chained.alive hp
  by_contra hle
  rw [hm.fresh p (Nat.le_of_not_lt hle)] at hn
  cases hn

theorem Holds.length_le (hm : Holds size m C) (h : ℤ) : (C h).length ≤ m.allocated := by
  have hsub : (C h).map Prod.fst ⊆ List.range m.allocated := fun p hp =>
    List.mem_range.mpr (hm.lt_allocated hp)
  have := (List.subperm_of_subset (hm.chained.ptr_nodup h) hsub).length_le
  rwa [List.length_map, List.length_range] at this

theorem Holds.new (hm : Holds size m C) (v : ℤ) : Holds size (m.new v) C := by
  refine ⟨hm.chained.congr fun h p hp => ?_, fun p hp => ?_⟩
  · exact Function.update_of_ne (hm.lt_allocated hp).ne _ _
  · have hlt : m.allocated < p := hp
    show Function.update m.nodes.heap m.allocated _ p = none
    rw [Function.update_of_ne hlt.ne']
    exact hm.fresh p hlt.le

theorem Memory.new_heap (m : Memory) (v : ℤ) :
    (m.new v).nodes.heap m.allocated = some ⟨v, none⟩ := Function.update_self ..

theorem Holds.allocated_not_mem (hm : Holds size m C) (h : ℤ) :
    m.allocated ∉ (C h).map Prod.fst := fun hp => (hm.lt_allocated hp).false

theorem Memory.delete_eq {n : Node Ptr ℤ} (hp : m.nodes.heap p = some n) :
    m.delete p = some
      { m with nodes := { m.nodes with heap := Function.update m.nodes.heap p none } } := by
  rw [Memory.delete, hp]
  rfl

theorem Holds.delete {n : Node Ptr ℤ} (hm : Holds size m C) (hp : m.nodes.heap p = some n)
    (hout : ∀ h, p ∉ (C h).map Prod.fst) :
    ∃ m', m.delete p = some m' ∧ Holds size m' C ∧ m'.allocated = m.allocated := by
  refine ⟨_, Memory.delete_eq hp, ⟨?_, fun q hq => ?_⟩, rfl⟩
  · refine hm.chained.congr fun h q hq => Function.update_of_ne ?_ _ _
    rintro rfl
    exact hout h hq
  · show Function.update m.nodes.heap p none q = none
    by_cases hqp : q = p
    · rw [hqp, Function.update_self]
    · rw [Function.update_of_ne hqp]
      exact hm.fresh q hq

/-! ## Changes of the lists -/

theorem Memory.setNext_eq {t : Table Ptr ℤ ℤ} (hh : InTable size h) {prev : Option Ptr}
    (ht : m.nodes.setNext h prev e = some t) :
    m.setNext size h prev e = some { m with nodes := t } := by
  rw [Memory.setNext, if_neg fun hnot => hnot.2 hh, ht]
  rfl

/-- The node that `insert` has allocated is put behind the last one. -/
theorem Holds.link (hm : Holds size m C) (hh : InTable size (hash size v))
    (hv : v ∉ (C (hash size v)).map Prod.snd) (hp : m.nodes.heap p = some ⟨v, none⟩)
    (hout : ∀ h, p ∉ (C h).map Prod.fst) :
    ∃ m', m.setNext size (hash size v) (last (C (hash size v))) (some p) = some m' ∧
      Holds size m' (append size C p v) ∧ m'.allocated = m.allocated := by
  obtain ⟨t, ht, hchained, -, halive⟩ := hm.chained.append hp (hout _) hv
  refine ⟨_, Memory.setNext_eq hh ht, ⟨hchained, fun q hq => ?_⟩, rfl⟩
  exact (halive q).mpr (hm.fresh q hq)

/-- The item of `v` is taken out; its node is still there. -/
theorem Holds.unlink (hm : Holds size m C) (hh : InTable size (hash size v))
    (hC : C (hash size v) = l₁ ++ (p, v) :: l₂) :
    ∃ m', m.setNext size (hash size v) (last l₁) (firstOr l₂ none) = some m' ∧
      Holds size m' (without size C v) ∧ m'.allocated = m.allocated ∧
      m'.nodes.heap p = m.nodes.heap p ∧ ∀ h, p ∉ (without size C v h).map Prod.fst := by
  obtain ⟨t, ht, hchained, hsame, halive⟩ := hm.chained.unlink hC
  have hout := hm.chained.notMem_split hC
  have hp := hout (hash size v)
  rw [Function.update_self, List.map_append, List.mem_append, not_or] at hp
  rw [hm.without_split hC]
  refine ⟨_, Memory.setNext_eq hh ht, ⟨hchained, fun q hq => ?_⟩, rfl, hsame p hp.1, hout⟩
  exact (halive q).mpr (hm.fresh q hq)

/-- The item of `v` is taken out and deleted. -/
theorem Holds.unlink_delete (hm : Holds size m C) (hh : InTable size (hash size v))
    (hC : C (hash size v) = l₁ ++ (p, v) :: l₂) :
    ∃ m₁ m₂, m.setNext size (hash size v) (last l₁) (firstOr l₂ none) = some m₁ ∧
      m₁.delete p = some m₂ ∧ Holds size m₂ (without size C v) := by
  obtain ⟨m₁, hm₁, hholds, -, hheap, hout⟩ := hm.unlink hh hC
  have hseg := hm.chained.seg (hash size v)
  rw [hC] at hseg
  rw [hseg.at] at hheap
  obtain ⟨m₂, hm₂, hholds₂, -⟩ := hholds.delete hheap hout
  exact ⟨m₁, m₂, hm₁, hm₂, hholds₂⟩

/-- The first item of a list is deleted and taken out. -/
theorem Holds.delete_unlink (hm : Holds size m C) (hh : InTable size (hash size v))
    (hC : C (hash size v) = (p, v) :: l₂) :
    ∃ m₁ m₂, m.delete p = some m₁ ∧ m₁.nodes.head = m.nodes.head ∧
      m₁.setNext size (hash size v) none (firstOr l₂ none) = some m₂ ∧
      Holds size m₂ (without size C v) := by
  obtain ⟨m₁, m₂, hm₁, hm₂, hholds⟩ := hm.unlink_delete hh
    (show C (hash size v) = [] ++ (p, v) :: l₂ from hC)
  have hseg := hm.chained.seg (hash size v)
  rw [hC] at hseg
  have hp : m.nodes.heap p = some ⟨v, firstOr l₂ none⟩ := hseg.1
  simp only [last, Memory.setNext, Table.setNext, Option.map_some] at hm₁
  rw [if_neg fun hnot => hnot.2 hh, Option.some.injEq] at hm₁
  subst hm₁
  simp only [Memory.delete, hp, Option.map_some, Option.some.injEq] at hm₂
  subst hm₂
  refine ⟨_, _, Memory.delete_eq hp, rfl, ?_, hholds⟩
  exact Memory.setNext_eq hh rfl

end Htmsql.HashIndex
