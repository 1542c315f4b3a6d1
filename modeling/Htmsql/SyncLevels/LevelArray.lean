import Mathlib.Data.List.Induction
import Mathlib.Data.Multiset.AddSub
import Htmsql.Lib.FreeSlots
import Htmsql.Lib.Run

/-!
# The level array of a thread

`sync_arr_t` of `sync0sync.cc`: the latches that a thread owns, each with its level in the latching
order. A slot that was emptied is reused; while its latch is NULL, its level field holds the
index of the next free slot. `SyncArr.add` and `SyncArr.reset` are the parts of
`sync_thread_add_level` and `sync_thread_reset_level` that work on the array.

The array is what it is meant to be (`SyncArr.Inv`): its free list has exactly the empty slots
and `in_use` counts the others. Of the assertions on the way only the one against a full array
can fail (`SyncArr.Inv.add`), and to the outside the array is the bag of the latches added and not
removed yet.
-/

namespace Htmsql.SyncLevels

open FreeSlots Run

variable {L : Type}

/-- `sync_level_t` -/
structure SyncLevel (L : Type) where
  latch : Option L
  /-- the level of the latch; without a latch, the index of the next free slot -/
  level : Nat
  deriving DecidableEq, Repr

/-- `sync_arr_t` -/
structure SyncArr (L : Type) where
  inUse : Nat
  nElems : Nat
  maxElems : Nat
  nextFree : Nat
  elems : Nat → SyncLevel L

/-- `ULINT_UNDEFINED` -/
def ulintUndefined : Nat := 18446744073709551615

/-- `SYNC_THREAD_N_LEVELS` -/
def syncThreadNLevels : Nat := 10000

/-- The array of a new thread, from `calloc`. -/
def SyncArr.new : SyncArr L where
  inUse := 0
  nElems := 0
  maxElems := syncThreadNLevels
  nextFree := ulintUndefined
  elems := fun _ => ⟨none, 0⟩

namespace SyncArr

/-- The slots of the array up to `n_elems`, taken or free. -/
def slots (array : SyncArr L) : List (SyncLevel L) := (List.range array.nElems).map array.elems

/-- `sync_thread_levels_g` -/
def levelsG (array : SyncArr L) (limit : Nat) : Bool :=
  array.slots.all fun slot => slot.latch.isNone || limit < slot.level

/-- `sync_thread_levels_contain` -/
def levelsContain (array : SyncArr L) (level : Nat) : Option (SyncLevel L) :=
  array.slots.find? fun slot => slot.latch.isSome && slot.level == level

/-- The end of `sync_thread_add_level`, with slot `i`; `none` where an assertion fails. -/
def fill (array : SyncArr L) (i : Nat) (latch : L) (level : Nat) : Option (SyncArr L) :=
  if i < array.nElems ∧ i ≠ ulintUndefined ∧ (array.elems i).latch = none then
    some { array with
      inUse := array.inUse + 1
      elems := Function.update array.elems i ⟨some latch, level⟩ }
  else none

/-- From `levels_ok:` on. -/
def add (array : SyncArr L) (latch : L) (level : Nat) : Option (SyncArr L) :=
  if array.nextFree = ulintUndefined then
    if array.nElems < array.maxElems then
      { array with nElems := array.nElems + 1 }.fill array.nElems latch level
    else none
  else
    { array with nextFree := (array.elems array.nextFree).level }.fill array.nextFree latch level

/-- The free list is given up when all slots are idle. -/
def rewind (array : SyncArr L) : SyncArr L :=
  if array.inUse = 0 then { array with nElems := 0, nextFree := ulintUndefined } else array

/-- The loop of `sync_thread_reset_level` at the slot found; `none` where the assertion fails. -/
def release (array : SyncArr L) (i : Nat) : Option (SyncArr L) :=
  if 1 ≤ array.inUse then
    some ({ array with
      inUse := array.inUse - 1
      nextFree := i
      elems := Function.update array.elems i ⟨none, array.nextFree⟩ } : SyncArr L).rewind
  else none

variable [DecidableEq L]

/-- The first slot with the latch. -/
def find (array : SyncArr L) (latch : L) : Option Nat :=
  (List.range array.nElems).find? fun i => (array.elems i).latch == some latch

/-- The loop of `sync_thread_reset_level`; `none` if no slot has the latch. -/
def reset (array : SyncArr L) (latch : L) : Option (SyncArr L) :=
  (array.find latch).bind array.release

end SyncArr

/-! ## The invariant -/

/-- What a slot is to the free list. -/
def SyncLevel.link (slot : SyncLevel L) : Option Nat :=
  if slot.latch = none then some slot.level else none

/-- The latch and the level of a slot that is taken. -/
def SyncLevel.entry (slot : SyncLevel L) : Option (L × Nat) :=
  slot.latch.map fun latch => (latch, slot.level)

/-- The latches in the array, with their levels. -/
def SyncArr.held (array : SyncArr L) : List (L × Nat) :=
  contents SyncLevel.entry array.elems array.nElems

/-- The free slots are linked from `next_free` on, `in_use` counts the others, and the array is
not beyond its bounds. -/
structure SyncArr.Inv (array : SyncArr L) : Prop where
  free : ∃ free, Free SyncLevel.link ulintUndefined array.elems array.nElems array.nextFree free
  inUse : array.inUse = array.held.length
  bound : array.nElems ≤ array.maxElems
  max : array.maxElems < ulintUndefined
  /-- the slots that were never taken, or are given up -/
  beyond : ∀ i, array.nElems ≤ i → (array.elems i).latch = none

@[simp] theorem SyncLevel.link_some (latch : L) (level : Nat) :
    SyncLevel.link ⟨some latch, level⟩ = none := rfl

@[simp] theorem SyncLevel.link_none (level : Nat) :
    SyncLevel.link (⟨none, level⟩ : SyncLevel L) = some level := rfl

@[simp] theorem SyncLevel.entry_some (latch : L) (level : Nat) :
    SyncLevel.entry ⟨some latch, level⟩ = some (latch, level) := rfl

@[simp] theorem SyncLevel.entry_none (level : Nat) :
    SyncLevel.entry (⟨none, level⟩ : SyncLevel L) = none := rfl

theorem SyncLevel.entry_isNone (slot : SyncLevel L) :
    slot.entry.isNone = slot.link.isSome := by
  obtain ⟨latch, level⟩ := slot
  cases latch <;> simp

theorem SyncLevel.link_eq_some {slot : SyncLevel L} {next : Nat} (h : slot.link = some next) :
    slot.latch = none ∧ slot.level = next := by
  obtain ⟨latch, level⟩ := slot
  cases latch with
  | none => exact ⟨rfl, Option.some.inj h⟩
  | some latch => cases h

theorem SyncArr.inv_new : (SyncArr.new : SyncArr L).Inv where
  free := ⟨[], free_empty _ _ _⟩
  inUse := rfl
  bound := Nat.zero_le _
  max := show syncThreadNLevels < ulintUndefined by decide
  beyond _ _ := rfl

variable {array array' : SyncArr L} {latch : L} {level i : Nat}

namespace SyncArr

/-- The array is full exactly if it has no free slot and cannot grow. -/
theorem Inv.inUse_le (h : array.Inv) : array.inUse ≤ array.nElems := by
  obtain ⟨free, hfree⟩ := h.free
  have hlen := hfree.length SyncLevel.entry fun i _ => SyncLevel.entry_isNone _
  rw [h.inUse, held]
  omega

/-- What `fill` does to an array in which slot `i` is empty and no longer in the free list. -/
theorem fill_eq (hi : i < array.nElems) (hmax : array.nElems ≤ ulintUndefined)
    (hempty : (array.elems i).latch = none) :
    array.fill i latch level = some { array with
      inUse := array.inUse + 1
      elems := Function.update array.elems i ⟨some latch, level⟩ } :=
  if_pos ⟨hi, by omega, hempty⟩

/-- Adding fails for a full array only, and otherwise puts the latch into the bag. -/
theorem Inv.add (h : array.Inv) (latch : L) (level : Nat) :
    (array.inUse = array.maxElems ∧ array.add latch level = none) ∨
      ∃ array', array.add latch level = some array' ∧ array'.Inv ∧
        array'.held.Perm ((latch, level) :: array.held) ∧ array'.maxElems = array.maxElems := by
  obtain ⟨free, hfree⟩ := h.free
  have hlen := hfree.length SyncLevel.entry fun i _ => SyncLevel.entry_isNone _
  have hbound := h.bound
  have hmax := h.max
  have hinUse := h.inUse
  rw [held] at hinUse
  by_cases hnext : array.nextFree = ulintUndefined
  · rw [hnext] at hfree
    obtain rfl := hfree.head_eq_nil_iff.mp rfl
    by_cases hfull : array.nElems < array.maxElems
    · -- the array grows
      have hperm := contents_grow array.elems array.nElems (SyncLevel.entry_some latch level)
      refine Or.inr ⟨{ array with
        nElems := array.nElems + 1
        inUse := array.inUse + 1
        elems := Function.update array.elems array.nElems ⟨some latch, level⟩ }, ?_, ?_, hperm, rfl⟩
      · rw [SyncArr.add, if_pos hnext, if_pos hfull]
        exact fill_eq (Nat.lt_succ_self _) (show array.nElems + 1 ≤ _ by omega)
          (h.beyond _ (Nat.le_refl _))
      · refine ⟨⟨[], ?_⟩, ?_, hfull, hmax, ?_⟩
        · simp only [hnext]
          exact hfree.grow rfl
        · rw [held, hperm.length_eq, List.length_cons, ← hinUse]
        · intro j hj
          simp only at hj
          simp only [Function.update_of_ne (show j ≠ array.nElems by omega)]
          exact h.beyond j (by omega)
    · refine Or.inl ⟨?_, ?_⟩
      · simp only [List.length_nil] at hlen
        omega
      · rw [SyncArr.add, if_pos hnext, if_neg hfull]
  · -- the head of the free list is taken
    obtain ⟨next, rest, rfl, hlink, hlt, hpop⟩ :=
      hfree.pop (c := (⟨some latch, level⟩ : SyncLevel L)) hnext rfl
    obtain ⟨hempty, hlevel⟩ := SyncLevel.link_eq_some hlink
    have hentry : (array.elems array.nextFree).entry = none := by
      rw [SyncLevel.entry, hempty]
      rfl
    have hperm := contents_fill SyncLevel.entry (c := ⟨some latch, level⟩) hlt hentry
      (SyncLevel.entry_some latch level)
    refine Or.inr ⟨{ array with
      nextFree := next
      inUse := array.inUse + 1
      elems := Function.update array.elems array.nextFree ⟨some latch, level⟩ }, ?_, ?_, hperm, rfl⟩
    · rw [SyncArr.add, if_neg hnext, hlevel]
      exact fill_eq hlt (by simp only; omega) hempty
    · refine ⟨⟨rest, hpop⟩, ?_, hbound, hmax, ?_⟩
      · rw [held, hperm.length_eq, List.length_cons, ← hinUse]
      · intro j hj
        simp only at hj
        simp only [Function.update_of_ne (show j ≠ array.nextFree by omega)]
        exact h.beyond j hj

/-- What the free list keeps when it is given up. -/
theorem Inv.rewind (h : array.Inv) :
    array.rewind.Inv ∧ array.rewind.held = array.held ∧
      array.rewind.maxElems = array.maxElems := by
  unfold SyncArr.rewind
  split
  · rename_i hzero
    have hnil : array.held = [] := by
      apply List.eq_nil_of_length_eq_zero
      rw [← h.inUse, hzero]
    have hempty : ∀ i, (array.elems i).latch = none := by
      intro i
      by_cases hi : i < array.nElems
      · cases hl : (array.elems i).latch with
        | none => rfl
        | some latch =>
          have hmem : (latch, (array.elems i).level) ∈ array.held :=
            mem_contents.mpr ⟨i, hi, by rw [SyncLevel.entry, hl]; rfl⟩
          rw [hnil] at hmem
          cases hmem
      · exact h.beyond i (by omega)
    refine ⟨⟨⟨[], free_empty _ _ _⟩, ?_, Nat.zero_le _, h.max, fun i _ => hempty i⟩, ?_, rfl⟩
    · rw [hzero]
      rfl
    · rw [hnil]
      rfl
  · exact ⟨h, rfl, rfl⟩

variable [DecidableEq L]

theorem find_some (h : array.find latch = some i) :
    i < array.nElems ∧ (array.elems i).latch = some latch := by
  have hmem := List.mem_of_find?_eq_some h
  have hsome := List.find?_some h
  exact ⟨List.mem_range.mp hmem, by simpa using hsome⟩

theorem find_none (h : array.find latch = none) : ∀ level, (latch, level) ∉ array.held := by
  intro level hmem
  obtain ⟨i, hi, hentry⟩ := mem_contents.mp hmem
  have hnot := List.find?_eq_none.mp h i (List.mem_range.mpr hi)
  rw [SyncLevel.entry, Option.map_eq_some_iff] at hentry
  obtain ⟨latch', hlatch, heq⟩ := hentry
  rw [Prod.mk.injEq] at heq
  rw [hlatch, heq.1] at hnot
  simp at hnot

/-- Removing fails exactly if the latch is not in the array, and otherwise takes one entry of it out
of the bag. -/
theorem Inv.reset (h : array.Inv) (latch : L) :
    ((∀ level, (latch, level) ∉ array.held) ∧ array.reset latch = none) ∨
      ∃ array' level, array.reset latch = some array' ∧ array'.Inv ∧
        ((latch, level) :: array'.held).Perm array.held ∧ array'.maxElems = array.maxElems := by
  cases hf : array.find latch with
  | none =>
    refine Or.inl ⟨find_none hf, ?_⟩
    rw [SyncArr.reset, hf]
    rfl
  | some i =>
    obtain ⟨hi, hlatch⟩ := find_some hf
    obtain ⟨free, hfree⟩ := h.free
    have hbound := h.bound
    have hmax := h.max
    have hentry : (array.elems i).entry = some (latch, (array.elems i).level) := by
      rw [SyncLevel.entry, hlatch]
      rfl
    have hlink : (array.elems i).link = none := by
      rw [SyncLevel.link, hlatch]
      rfl
    have hperm := contents_clear SyncLevel.entry (c := ⟨none, array.nextFree⟩) hi hentry
      (SyncLevel.entry_none _)
    have hlen := hperm.length_eq
    have hinUse := h.inUse
    rw [held, ← hlen, List.length_cons] at hinUse
    have hcleared : ({ array with
        inUse := array.inUse - 1
        nextFree := i
        elems := Function.update array.elems i ⟨none, array.nextFree⟩ } : SyncArr L).Inv := by
      refine ⟨⟨i :: free, hfree.push hi (by omega) hlink rfl⟩, ?_, hbound, hmax, ?_⟩
      · rw [held, hinUse]
        rfl
      · intro j hj
        simp only at hj
        simp only [Function.update_of_ne (show j ≠ i by omega)]
        exact h.beyond j hj
    obtain ⟨hinv, hheld, hmaxElems⟩ := hcleared.rewind
    refine Or.inr ⟨_, (array.elems i).level, ?_, hinv, ?_, hmaxElems⟩
    · rw [SyncArr.reset, hf, Option.bind_some, release, if_pos (by omega)]
    · rw [hheld]
      exact hperm

/-! ## What the scans find -/

omit [DecidableEq L] in
theorem levelsG_iff {limit : Nat} :
    array.levelsG limit = true ↔ ∀ e ∈ array.held, limit < e.2 := by
  simp only [levelsG, slots, List.all_eq_true, List.mem_map, List.mem_range]
  constructor
  · intro h e he
    obtain ⟨i, hi, hentry⟩ := mem_contents.mp he
    have hslot := h _ ⟨i, hi, rfl⟩
    rw [SyncLevel.entry, Option.map_eq_some_iff] at hentry
    obtain ⟨latch, hlatch, rfl⟩ := hentry
    simpa [hlatch] using hslot
  · rintro h _ ⟨i, hi, rfl⟩
    cases hlatch : (array.elems i).latch with
    | none => rfl
    | some latch =>
      have hlt := h (latch, (array.elems i).level)
        (mem_contents.mpr ⟨i, hi, by rw [SyncLevel.entry, hlatch]; rfl⟩)
      simpa using hlt

omit [DecidableEq L] in
theorem levelsContain_iff :
    (array.levelsContain level).isSome = true ↔ ∃ latch, (latch, level) ∈ array.held := by
  simp only [levelsContain, slots, List.find?_isSome, List.mem_map, List.mem_range]
  constructor
  · rintro ⟨_, ⟨i, hi, rfl⟩, hslot⟩
    rw [Bool.and_eq_true, Option.isSome_iff_exists, beq_iff_eq] at hslot
    obtain ⟨⟨latch, hlatch⟩, hlevel⟩ := hslot
    refine ⟨latch, mem_contents.mpr ⟨i, hi, ?_⟩⟩
    rw [SyncLevel.entry, hlatch, ← hlevel]
    rfl
  · rintro ⟨latch, he⟩
    obtain ⟨i, hi, hentry⟩ := mem_contents.mp he
    rw [SyncLevel.entry, Option.map_eq_some_iff] at hentry
    obtain ⟨latch', hlatch, heq⟩ := hentry
    rw [Prod.mk.injEq] at heq
    exact ⟨_, ⟨i, hi, rfl⟩, by simp [hlatch, heq.2]⟩

end SyncArr

/-! ## The array as a bag -/

/-- One use of the array. -/
inductive ArrayOp (L : Type) where
  | add (latch : L) (level : Nat)
  | reset (latch : L)
  deriving DecidableEq, Repr

/-- What a use means: a latch goes into the bag, or one entry of it comes out. -/
inductive BagStep : Multiset (L × Nat) → ArrayOp L → Multiset (L × Nat) → Prop where
  | add (bag : Multiset (L × Nat)) (latch : L) (level : Nat)
      (hroom : Multiset.card bag < syncThreadNLevels) :
      BagStep bag (.add latch level) ((latch, level) ::ₘ bag)
  | reset (bag bag' : Multiset (L × Nat)) (latch : L) (level : Nat)
      (h : bag = (latch, level) ::ₘ bag') : BagStep bag (.reset latch) bag'

/-- The bag after several uses, from an empty one. -/
inductive BagRun : List (ArrayOp L) → Multiset (L × Nat) → Prop where
  | nil : BagRun [] 0
  | snoc {ops : List (ArrayOp L)} {bag bag' : Multiset (L × Nat)} {op : ArrayOp L}
      (h : BagRun ops bag) (hs : BagStep bag op bag') : BagRun (ops ++ [op]) bag'

variable [DecidableEq L]

/-- One call on the array, `none` where it crashes. -/
def SyncArr.step (array : SyncArr L) : ArrayOp L → Option (SyncArr L)
  | .add latch level => array.add latch level
  | .reset latch => array.reset latch

theorem SyncArr.Inv.step (h : array.Inv) (hmax : array.maxElems = syncThreadNLevels)
    (op : ArrayOp L) :
    ((∀ bag, ¬ BagStep ↑array.held op bag) ∧ array.step op = none) ∨
      ∃ array', array.step op = some array' ∧ array'.Inv ∧
        array'.maxElems = syncThreadNLevels ∧ BagStep ↑array.held op ↑array'.held := by
  have hbound := h.bound
  have hle := h.inUse_le
  have hlen := h.inUse
  cases op with
  | add latch level =>
    rcases h.add latch level with ⟨hfull, hnone⟩ | ⟨array', hadd, hinv, hperm, hkeep⟩
    · refine Or.inl ⟨?_, hnone⟩
      rintro bag ⟨⟩
      rename_i hroom
      rw [Multiset.coe_card] at hroom
      omega
    · refine Or.inr ⟨array', hadd, hinv, hkeep.trans hmax, ?_⟩
      have hroom : Multiset.card (array.held : Multiset (L × Nat)) < syncThreadNLevels := by
        have hlen' := hinv.inUse
        have hle' := hinv.inUse_le
        have hbound' := hinv.bound
        rw [hperm.length_eq, List.length_cons] at hlen'
        rw [Multiset.coe_card]
        omega
      have heq : (array'.held : Multiset (L × Nat)) = (latch, level) ::ₘ ↑array.held := by
        rw [Multiset.cons_coe]
        exact Multiset.coe_eq_coe.mpr hperm
      rw [heq]
      exact .add _ latch level hroom
  | reset latch =>
    rcases h.reset latch with ⟨hnot, hnone⟩ | ⟨array', level, hreset, hinv, hperm, hkeep⟩
    · refine Or.inl ⟨?_, hnone⟩
      rintro bag ⟨⟩
      rename_i level heq
      apply hnot level
      rw [← Multiset.mem_coe, heq]
      exact Multiset.mem_cons_self _ _
    · refine Or.inr ⟨array', hreset, hinv, hkeep.trans hmax, ?_⟩
      refine .reset _ _ latch level ?_
      rw [Multiset.cons_coe]
      exact (Multiset.coe_eq_coe.mpr hperm).symm

/-- In every sequence of uses the array keeps its invariant and is the bag, and a use fails exactly
where the bag admits none: one more latch in a full array, or a latch that is not in it. -/
theorem levelArray_refines_bag {ops : List (ArrayOp L)} {array : SyncArr L}
    (h : exec SyncArr.step SyncArr.new ops = some array) :
    array.Inv ∧ BagRun ops ↑array.held ∧
      ∀ op, array.step op = none ↔ ∀ bag, ¬ BagStep ↑array.held op bag := by
  suffices hrun : array.Inv ∧ array.maxElems = syncThreadNLevels ∧ BagRun ops ↑array.held by
    obtain ⟨hinv, hmax, hbag⟩ := hrun
    refine ⟨hinv, hbag, fun op => ?_⟩
    rcases hinv.step hmax op with ⟨hnot, hnone⟩ | ⟨array', hsome, -, -, hstep⟩
    · exact iff_of_true hnone hnot
    · rw [hsome]
      exact iff_of_false (by simp) fun hnot => hnot _ hstep
  induction ops using List.reverseRecOn generalizing array with
  | nil =>
    obtain rfl := Option.some.inj h
    exact ⟨SyncArr.inv_new, rfl, .nil⟩
  | append_singleton ops op ih =>
    rw [exec_append, Option.bind_eq_some_iff] at h
    obtain ⟨before, hbefore, hlast⟩ := h
    obtain ⟨hinv, hmax, hbag⟩ := ih hbefore
    simp only [exec, Option.bind_eq_some_iff, Option.some.injEq,
      exists_eq_right] at hlast
    rcases hinv.step hmax op with ⟨-, hnone⟩ | ⟨array', hsome, hinv', hmax', hstep⟩
    · rw [hnone] at hlast
      cases hlast
    · obtain rfl : array' = array := Option.some.inj (hsome.symm.trans hlast)
      exact ⟨hinv', hmax', hbag.snoc hstep⟩

/-- A slot in the middle is given back and taken again. -/
theorem levelArray_refines_bag_reuse :
    ∃ array : SyncArr Nat, exec SyncArr.step SyncArr.new [.add 1 299, .add 2 297, .reset 1,
        .add 3 170] = some array ∧ array.held = [(3, 170), (2, 297)] ∧ array.Inv ∧
      BagRun [.add 1 299, .add 2 297, .reset 1, .add 3 170] ↑array.held := by
  obtain ⟨array, harray, hheld⟩ := exec_result SyncArr.step (SyncArr.new : SyncArr Nat)
    [.add 1 299, .add 2 297, .reset 1, .add 3 170] SyncArr.held [(3, 170), (2, 297)] (by decide)
  have hrun := levelArray_refines_bag harray
  exact ⟨array, harray, hheld, hrun.1, hrun.2.1⟩

end Htmsql.SyncLevels
