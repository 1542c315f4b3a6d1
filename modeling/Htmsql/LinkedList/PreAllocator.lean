import Htmsql.Lib.Run
import Htmsql.LinkedList.Code
import Mathlib.Data.List.Perm.Subperm

/-!
# The slots of a `PreAllocator`

`createListItem` and `deleteListItem` alone, without a list: `live` are the slots that have been
returned and not been deleted since. As long as no item is created with the data -1, which marks a
free slot, the slots that are not free are those of the live items.
-/

namespace Htmsql.LinkedList

open NextFit (search)
open ThreadsafeList (Ptr ListItem)

variable {heap : Heap} {size p q : ℕ} {cursor d : ℤ} {prev next : Option Ptr}

/-! ## The two functions -/

/-- If a slot is free then `createListItem` takes a free one, after at most one round. -/
theorem createListItem_of_free (hcursor : cursor < size) (hp : p < size)
    (hfree : isFree heap p = true) (d : ℤ) (prev next : Option Ptr) :
    ∃ slot : ℕ, slot < size ∧ isFree heap slot = true ∧
      (∀ probes, size ≤ probes →
        search (isFree heap) size cursor probes cursor = some (.found slot)) ∧
      (preAllocator size).createListItem d prev next heap cursor =
        some (slot, Function.update heap slot (some ⟨d, prev, next⟩), (slot : ℤ)) := by
  obtain ⟨slot, hslot, hslotfree, hsearch⟩ :=
    NextFit.exists_search_eq_found hcursor hp hfree
  refine ⟨slot, hslot, hslotfree, hsearch, ?_⟩
  simp only [preAllocator, hsearch size (Nat.le_refl _)]

/-- If no slot is free then it ends the process, once the cursor stands on a slot. -/
theorem createListItem_of_full (hnonneg : 0 ≤ cursor) (hcursor : cursor < size)
    (hfull : ∀ p < size, isFree heap p = false) (d : ℤ) (prev next : Option Ptr) :
    (∀ probes, size ≤ probes →
        search (isFree heap) size cursor probes cursor = some .exhausted) ∧
      (preAllocator size).createListItem d prev next heap cursor = none := by
  have hsearch : ∀ probes, size ≤ probes →
      search (isFree heap) size cursor probes cursor = some .exhausted :=
    fun probes hprobes => NextFit.search_eq_exhausted hnonneg hcursor hfull hprobes
  refine ⟨hsearch, ?_⟩
  simp only [preAllocator, hsearch size (Nat.le_refl _)]

theorem isFree_update_self (heap : Heap) (p : ℕ) (n : ListItem) :
    isFree (Function.update heap p (some n)) p = decide (n.data = -1) := by
  simp [isFree]

theorem isFree_update_of_ne (heap : Heap) (n : ListItem) (h : q ≠ p) :
    isFree (Function.update heap p (some n)) q = isFree heap q := by
  simp [isFree, Function.update_of_ne h]

/-! ## Creating and deleting items -/

/-- The slots in memory, the cursor of the last allocation, and the items that are handed out. -/
structure Pool where
  heap : Heap
  lastAllocationSlot : ℤ
  live : List Ptr

/-- The two functions of the allocator. -/
inductive PoolOp where
  | create (data : ℤ) (prev next : Option Ptr)
  | delete (item : Ptr)
  deriving DecidableEq, Repr

/-- All items hold the -1 of a free one, and the cursor is before the first. -/
def Pool.init (size : ℕ) : Pool := ⟨dummies size, -1, []⟩

/-- One call; `none` where every slot is taken, or the item to delete is no slot. -/
def Pool.step (size : ℕ) (s : Pool) : PoolOp → Option Pool
  | .create data prev next =>
    ((preAllocator size).createListItem data prev next s.heap s.lastAllocationSlot).map
      fun (item, heap, cursor) => ⟨heap, cursor, item :: s.live⟩
  | .delete item =>
    ((preAllocator size).deleteListItem (some item) s.heap s.lastAllocationSlot).map
      fun (heap, cursor) => ⟨heap, cursor, s.live.erase item⟩

/-- The data is not -1, and only a live item is deleted. -/
def Pool.Admits (s : Pool) : PoolOp → Prop
  | .create data _ _ => data ≠ -1
  | .delete item => item ∈ s.live

instance (s : Pool) (op : PoolOp) : Decidable (s.Admits op) := by
  cases op <;> unfold Pool.Admits <;> infer_instance

/-- The cursor is before the first slot only as long as nothing has been created. -/
structure Pool.Inv (size : ℕ) (s : Pool) : Prop where
  nodup : s.live.Nodup
  slots : ∀ p, s.heap p ≠ none ↔ p < size
  live : ∀ p, p ∈ s.live ↔ p < size ∧ isFree s.heap p = false
  cursor : s.lastAllocationSlot < size
  initial : s.lastAllocationSlot < 0 → s.live = []

variable {s s' : Pool}

theorem Pool.inv_init (size : ℕ) : Pool.Inv size (Pool.init size) := by
  refine ⟨List.nodup_nil, fun p => ?_, fun p => ?_, ?_, fun _ => rfl⟩
  · simp [Pool.init, dummies]
  · simp +contextual [Pool.init, dummies, isFree]
  · show (-1 : ℤ) < size
    omega

/-- Fewer addresses than slots leave a slot out. -/
theorem exists_slot_not_mem {ps : List Ptr} (hlen : ps.length < size) : ∃ p < size, p ∉ ps := by
  by_contra hnone
  have hsub : List.range size ⊆ ps := by
    intro p hp
    by_contra hmem
    exact hnone ⟨p, List.mem_range.mp hp, hmem⟩
  have hle := (List.nodup_range.subperm hsub).length_le
  rw [List.length_range] at hle
  omega

/-- As long as not every slot is live, one is free. -/
theorem Pool.Inv.exists_free (h : Pool.Inv size s) (hlen : s.live.length < size) :
    ∃ p < size, isFree s.heap p = true := by
  obtain ⟨p, hp, hmem⟩ := exists_slot_not_mem hlen
  refine ⟨p, hp, ?_⟩
  rw [h.live, not_and, Bool.not_eq_false] at hmem
  exact hmem hp

/-- Once all slots are live the process ends. -/
theorem Pool.Inv.full (h : Pool.Inv size s) (hsize : 0 < size) (hlen : ¬ s.live.length < size) :
    0 ≤ s.lastAllocationSlot ∧ ∀ p < size, p ∈ s.live ∧ isFree s.heap p = false := by
  have hlive : ∀ p < size, p ∈ s.live := by
    intro p hp
    have hsub : s.live ⊆ List.range size := fun q hq => List.mem_range.mpr ((h.live q).mp hq).1
    have hperm := (h.nodup.subperm hsub).perm_of_length_le (by rw [List.length_range]; omega)
    exact hperm.mem_iff.mpr (List.mem_range.mpr hp)
  refine ⟨?_, fun p hp => ⟨hlive p hp, ((h.live p).mp (hlive p hp)).2⟩⟩
  by_contra hneg
  have hnil := h.initial (by omega)
  rw [hnil] at hlen
  exact hlen hsize

theorem Pool.Inv.create (h : Pool.Inv size s) (hsize : 0 < size) (hd : d ≠ -1)
    (hs : s.step size (.create d prev next) = some s') : Pool.Inv size s' := by
  by_cases hlen : s.live.length < size
  · obtain ⟨p, hp, hfree⟩ := h.exists_free hlen
    obtain ⟨slot, hslot, hslotfree, -, hcreate⟩ :=
      createListItem_of_free h.cursor hp hfree d prev next
    simp only [Pool.step, hcreate, Option.map_some, Option.some.injEq] at hs
    subst hs
    have hnot : slot ∉ s.live := by
      rw [h.live, hslotfree]
      simp
    refine ⟨List.nodup_cons.mpr ⟨hnot, h.nodup⟩, fun q => ?_, fun q => ?_, ?_, ?_⟩
    · show Function.update s.heap slot _ q ≠ none ↔ _
      by_cases hq : q = slot
      · simp [hq, hslot]
      · rw [Function.update_of_ne hq]
        exact h.slots q
    · show q ∈ slot :: s.live ↔ q < size ∧ isFree (Function.update s.heap slot _) q = false
      by_cases hq : q = slot
      · rw [hq, isFree_update_self]
        simp [hslot, hd]
      · rw [isFree_update_of_ne _ _ hq, ← h.live, List.mem_cons, or_iff_right hq]
    · show (slot : ℤ) < size
      omega
    · intro hneg
      have : (slot : ℤ) < 0 := hneg
      omega
  · obtain ⟨hnonneg, hfull⟩ := h.full hsize hlen
    have hnone := (createListItem_of_full hnonneg h.cursor (fun p hp => (hfull p hp).2) d prev
      next).2
    simp only [Pool.step, hnone, Option.map_none] at hs
    cases hs

theorem Pool.Inv.delete (h : Pool.Inv size s) (hp : p ∈ s.live)
    (hs : s.step size (.delete p) = some s') : Pool.Inv size s' := by
  obtain ⟨hsize, -⟩ := (h.live p).mp hp
  obtain ⟨n, hn⟩ := Option.ne_none_iff_exists'.mp ((h.slots p).mpr hsize)
  simp only [Pool.step, preAllocator, hn, Option.map_some, Option.some.injEq] at hs
  subst hs
  refine ⟨h.nodup.erase p, fun q => ?_, fun q => ?_, h.cursor, fun hneg => ?_⟩
  · show Function.update s.heap p _ q ≠ none ↔ _
    by_cases hq : q = p
    · simp [hq, hsize]
    · rw [Function.update_of_ne hq]
      exact h.slots q
  · show q ∈ s.live.erase p ↔ q < size ∧ isFree (Function.update s.heap p _) q = false
    rw [h.nodup.mem_erase_iff]
    by_cases hq : q = p
    · rw [hq, isFree_update_self]
      simp
    · rw [isFree_update_of_ne _ _ hq, ← h.live, and_iff_right hq]
  · have hnil := h.initial hneg
    rw [hnil] at hp
    cases hp

theorem Pool.reach_inv (hsize : 0 < size)
    (h : Run.Reach (Pool.step size) (· = Pool.init size) Pool.Admits s) : Pool.Inv size s := by
  refine h.invariant ?_ ?_
  · rintro _ rfl
    exact Pool.inv_init size
  · intro s op s' hinv hop hs
    cases op with
    | create d prev next => exact hinv.create hsize hop hs
    | delete p => exact hinv.delete hop hs

/-- A slot is handed out once: the live items are in different slots. `createListItem` comes to an
end after 10000 probes at most, wherever the cursor stands; it takes a slot that is not live if there
is one, and ends the process only if there is none. -/
theorem preAllocator_slots (s : Pool)
    (h : Run.Reach (Pool.step allocationsSize) (· = Pool.init allocationsSize) Pool.Admits s)
    (d : ℤ) (prev next : Option Ptr) :
    s.live.Nodup ∧ (∀ p ∈ s.live, p < allocationsSize) ∧
      (∃ outcome, ∀ probes, allocationsSize ≤ probes → search (isFree s.heap) allocationsSize
        s.lastAllocationSlot probes s.lastAllocationSlot = some outcome) ∧
      (s.live.length < allocationsSize → ∃ slot heap cursor,
        (preAllocator allocationsSize).createListItem d prev next s.heap s.lastAllocationSlot =
          some (slot, heap, cursor) ∧ slot < allocationsSize ∧ slot ∉ s.live ∧
        heap = Function.update s.heap slot (some ⟨d, prev, next⟩)) ∧
      ((preAllocator allocationsSize).createListItem d prev next s.heap s.lastAllocationSlot =
        none → ∀ p < allocationsSize, p ∈ s.live) := by
  have hsize : 0 < allocationsSize := by decide
  have hinv := Pool.reach_inv hsize h
  refine ⟨hinv.nodup, fun p hp => ((hinv.live p).mp hp).1, ?_⟩
  by_cases hlen : s.live.length < allocationsSize
  · obtain ⟨p, hp, hfree⟩ := hinv.exists_free hlen
    obtain ⟨slot, hslot, hslotfree, hsearch, hcreate⟩ :=
      createListItem_of_free hinv.cursor hp hfree d prev next
    have hnot : slot ∉ s.live := by
      rw [hinv.live, hslotfree]
      simp
    refine ⟨⟨_, hsearch⟩, fun _ => ⟨slot, _, _, hcreate, hslot, hnot, rfl⟩, fun hnone => ?_⟩
    rw [hcreate] at hnone
    cases hnone
  · obtain ⟨hnonneg, hfull⟩ := hinv.full hsize hlen
    have hsearch := (createListItem_of_full hnonneg hinv.cursor (fun p hp => (hfull p hp).2) d prev
      next).1
    exact ⟨⟨_, hsearch⟩, fun hlt => absurd hlt hlen, fun _ p hp => (hfull p hp).1⟩

/-- The first slot is taken, given back, and the second one is taken. -/
theorem preAllocator_slots_three : ∃ s : Pool,
    Run.exec (Run.guarded (Pool.step allocationsSize) Pool.Admits) (Pool.init allocationsSize)
      [.create 7 none none, .delete 0, .create 8 none none] = some s ∧ s.live = [1] ∧
      s.live.Nodup := by
  obtain ⟨s, hs, hlive⟩ := Run.exec_result (Run.guarded (Pool.step allocationsSize) Pool.Admits)
    (Pool.init allocationsSize) [.create 7 none none, .delete 0, .create 8 none none] Pool.live [1]
    (by decide)
  exact ⟨s, hs, hlive, (preAllocator_slots s (.exec_guarded (.init rfl) hs) 0 none none).1⟩

end Htmsql.LinkedList
