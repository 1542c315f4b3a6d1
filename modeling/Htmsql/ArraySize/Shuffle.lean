import Mathlib.Data.List.Perm.Basic
import Mathlib.Data.List.Nodup
import Mathlib.Data.Int.Notation

/-!
# `shuffle_array` of the array size benchmark

The loop goes from the last index down to 1 and draws `j = rand() % i + 1` for each `i`. The swap
that follows saves `array[j]` in `h` and never writes it back, so that an iteration copies
`array[i]` to `array[j]` and the old value of `array[j]` is gone.

What the array holds in the end can be told from the draws alone: position `k` holds the value
that was at `source k`. The values in the overwritten positions are lost, and the values of their
sources stand there instead; the result is a permutation exactly if these are the same values.
-/

namespace Htmsql.ArraySize

/-- Read `array[j]`; `none` stands for an access outside of the array. -/
def load (array : Array ℤ) (j : ℕ) : Option ℤ := array[j]?

/-- Write `array[j] = v`. -/
def store (array : Array ℤ) (j : ℕ) (v : ℤ) : Option (Array ℤ) :=
  if j < array.size then some (array.setIfInBounds j v) else none

/-- The loop from `i` on, with `n` calls of `rand()` made before. -/
def shuffleLoop (rand : ℕ → ℕ) : ℕ → ℕ → Array ℤ → Option (Array ℤ)
  | _, 0, array => some array
  | n, i + 1, array => do
    let j := rand n % (i + 1) + 1
    let _h ← load array j
    let array ← store array j (← load array (i + 1))
    -- not `h`
    let array ← store array (i + 1) (← load array j)
    shuffleLoop rand (n + 1) i array

/-- `shuffle_array`: the loop over all positions but the first, from the last one down, with the
numbers of `rand` in the order of the calls. -/
def shuffleArray (rand : ℕ → ℕ) (array : Array ℤ) : Option (Array ℤ) :=
  shuffleLoop rand 0 (array.size - 1) array

/-- The index that the iteration for `i` draws, the loop having started at `top`. -/
def draw (rand : ℕ → ℕ) (top i : ℕ) : ℕ := rand (top - i) % i + 1

/-- The position whose value the iterations from `i` on move to `k`. -/
def source (draw : ℕ → ℕ) : ℕ → ℕ → ℕ
  | 0, k => k
  | i + 1, k => if source draw i k = draw (i + 1) then i + 1 else source draw i k

/-- The positions that an iteration for a larger index draws. -/
def overwritten (draw : ℕ → ℕ) (size : ℕ) : List ℕ :=
  (List.range size).filter fun k => ∃ i < size, k < i ∧ draw i = k

/-- The values that are lost are, up to their order, those that are put in their place. -/
def Balanced (rand : ℕ → ℕ) (array : Array ℤ) : Prop :=
  let top := array.size - 1
  let lost := overwritten (draw rand top) array.size
  (lost.map fun k => array[source (draw rand top) top k]!).Perm (lost.map fun k => array[k]!)

/-! ## One iteration -/

theorem draw_le (rand : ℕ → ℕ) (top : ℕ) {i : ℕ} (hi : 0 < i) : draw rand top i ≤ i :=
  Nat.mod_lt _ hi

theorem load_eq {array : Array ℤ} {j : ℕ} (hj : j < array.size) :
    load array j = some array[j]! := by
  rw [load, getElem?_pos array j hj, getElem!_pos array j hj]

theorem store_eq {array : Array ℤ} {j : ℕ} (hj : j < array.size) (v : ℤ) :
    store array j v = some (array.setIfInBounds j v) := if_pos hj

theorem getElem!_setIfInBounds {array : Array ℤ} {j k : ℕ} (hk : k < array.size) (v : ℤ) :
    (array.setIfInBounds j v)[k]! = if j = k then v else array[k]! := by
  rw [getElem!_pos _ k (by simpa using hk), getElem!_pos array k hk, Array.getElem_setIfInBounds]

/-- An iteration copies `array[i]` to `array[j]` and does nothing else. -/
theorem shuffleLoop_succ {rand : ℕ → ℕ} {n i : ℕ} {array : Array ℤ} (hi : i + 1 < array.size) :
    shuffleLoop rand n (i + 1) array = shuffleLoop rand (n + 1) i
      (array.setIfInBounds (rand n % (i + 1) + 1) array[i + 1]!) := by
  have hj : rand n % (i + 1) + 1 < array.size := by
    have := Nat.mod_lt (rand n) (show 0 < i + 1 by omega)
    omega
  generalize hdraw : rand n % (i + 1) + 1 = j at hj
  let array' := array.setIfInBounds j array[i + 1]!
  have hsize : array'.size = array.size := Array.size_setIfInBounds
  have hself : array'[j]! = array[i + 1]! := by
    rw [getElem!_setIfInBounds hj, if_pos rfl]
  have hback : array'.setIfInBounds (i + 1) array[i + 1]! = array' := by
    apply Array.ext
    · rw [Array.size_setIfInBounds]
    · intro k hk hk'
      rw [hsize] at hk'
      rw [← getElem!_pos, ← getElem!_pos, getElem!_setIfInBounds (hsize ▸ hk'),
        getElem!_setIfInBounds hk']
      split
      · subst k
        exact (ite_self _).symm
      · rfl
  rw [shuffleLoop, hdraw, load_eq hj, load_eq hi]
  change (store array j array[i + 1]!).bind _ = _
  rw [store_eq hj]
  change (load array' j).bind _ = _
  rw [load_eq (hsize ▸ hj), hself]
  change (store array' (i + 1) array[i + 1]!).bind _ = _
  rw [store_eq (hsize ▸ hi), hback]
  rfl

/-! ## The whole loop -/

theorem source_of_le {d : ℕ → ℕ} (hd : ∀ i, 0 < i → d i ≤ i) {i k : ℕ} (hk : i ≤ k) :
    source d i k = k := by
  induction i with
  | zero => rfl
  | succ i ih =>
    have := hd (i + 1) (Nat.succ_pos i)
    rw [source, ih (by omega)]
    split <;> omega

theorem source_lt {d : ℕ → ℕ} {i k size : ℕ} (hi : i < size) (hk : k < size) :
    source d i k < size := by
  induction i with
  | zero => exact hk
  | succ i ih =>
    have := ih (by omega)
    rw [source]
    split <;> omega

theorem source_source {d : ℕ → ℕ} (hd : ∀ i, 0 < i → d i ≤ i) (i k : ℕ) :
    source d i (source d i k) = source d i k := by
  induction i with
  | zero => rfl
  | succ i ih =>
    by_cases h : source d i k = d (i + 1)
    · have hs : source d (i + 1) k = i + 1 := if_pos h
      rw [hs, source_of_le hd (Nat.le_refl _)]
    · have hs : source d (i + 1) k = source d i k := if_neg h
      rw [hs, source, ih, if_neg h]

theorem source_eq_self_iff {d : ℕ → ℕ} (hd : ∀ i, 0 < i → d i ≤ i) {i k : ℕ} :
    source d i k = k ↔ ∀ m ≤ i, k < m → d m ≠ k := by
  induction i with
  | zero =>
    refine ⟨fun _ m hm hkm => ?_, fun _ => rfl⟩
    omega
  | succ i ih =>
    have hle := hd (i + 1) (Nat.succ_pos i)
    constructor
    · intro h m hm hkm hdm
      rw [source] at h
      split at h
      · omega
      · rename_i hne
        obtain rfl | hlt := Nat.eq_or_lt_of_le hm
        · exact hne (h.trans hdm.symm)
        · exact ih.mp h m (by omega) hkm hdm
    · intro h
      have hs := ih.mpr fun m hm => h m (by omega)
      rw [source, hs]
      split
      · rename_i heq
        by_cases hik : k < i + 1
        · exact absurd heq.symm (h (i + 1) (Nat.le_refl _) hik)
        · omega
      · rfl

/-- The loop accesses the array in its range only, and what it leaves in `k` was in `source k`. -/
theorem shuffleLoop_spec {rand : ℕ → ℕ} {top i : ℕ} {array : Array ℤ} (htop : i ≤ top)
    (hi : i < array.size ∨ i = 0) :
    ∃ b, shuffleLoop rand (top - i) i array = some b ∧ b.size = array.size ∧
      ∀ k < array.size, b[k]! = array[source (draw rand top) i k]! := by
  induction i generalizing array with
  | zero => exact ⟨array, rfl, rfl, fun _ _ => rfl⟩
  | succ i ih =>
    have hi : i + 1 < array.size := by omega
    have hj : draw rand top (i + 1) < array.size :=
      Nat.lt_of_le_of_lt (draw_le rand top (Nat.succ_pos i)) hi
    let array' := array.setIfInBounds (draw rand top (i + 1)) array[i + 1]!
    have hsize' : array'.size = array.size := Array.size_setIfInBounds
    obtain ⟨b, hb, hsize, hget⟩ := @ih array' (by omega) (by omega)
    rw [hsize'] at hsize hget
    have hn : top - (i + 1) + 1 = top - i := by omega
    refine ⟨b, ?_, hsize, fun k hk => ?_⟩
    · rw [shuffleLoop_succ hi, hn]
      exact hb
    · have hs : source (draw rand top) i k < array.size := source_lt (by omega) hk
      rw [hget k hk, source, getElem!_setIfInBounds hs]
      by_cases h : draw rand top (i + 1) = source (draw rand top) i k
      · rw [if_pos h, if_pos h.symm]
      · rw [if_neg h, if_neg (Ne.symm h)]

theorem shuffleArray_spec (rand : ℕ → ℕ) (array : Array ℤ) :
    ∃ b, shuffleArray rand array = some b ∧ b.toList = (List.range array.size).map fun k =>
      array[source (draw rand (array.size - 1)) (array.size - 1) k]! := by
  obtain ⟨b, hb, hsize, hget⟩ := @shuffleLoop_spec rand (array.size - 1) (array.size - 1) array
    (Nat.le_refl _) (by omega)
  rw [Nat.sub_self] at hb
  refine ⟨b, hb, ?_⟩
  apply List.ext_getElem
  · simp [hsize]
  · intro k hk _
    have hk : k < array.size := by simpa [hsize] using hk
    rw [List.getElem_map, List.getElem_range, ← hget k hk, getElem!_pos b k (by omega)]
    rfl

theorem toList_eq (array : Array ℤ) :
    array.toList = (List.range array.size).map fun k => array[k]! := by
  apply List.ext_getElem
  · simp
  · intro k hk _
    rw [List.getElem_map, List.getElem_range, getElem!_pos array k (by simpa using hk)]
    rfl

theorem mem_overwritten {d : ℕ → ℕ} {size k : ℕ} :
    k ∈ overwritten d size ↔ k < size ∧ ∃ i < size, k < i ∧ d i = k := by
  simp only [overwritten, List.mem_filter, List.mem_range, decide_eq_true_eq]

theorem mem_overwritten_iff {d : ℕ → ℕ} (hd : ∀ i, 0 < i → d i ≤ i) {size k : ℕ}
    (hk : k < size) : k ∈ overwritten d size ↔ source d (size - 1) k ≠ k := by
  rw [mem_overwritten, Ne, source_eq_self_iff hd]
  constructor
  · rintro ⟨_, i, hi, hki, hdi⟩ h
    exact h i (by omega) hki hdi
  · intro h
    by_contra hn
    exact h fun m hm hkm hdm => hn ⟨hk, m, by omega, hkm, hdm⟩

/-- Leaving out the positions that keep their values, the result and the array have the values at
the sources of the overwritten positions, and those at the positions themselves. -/
theorem perm_iff_balanced {rand : ℕ → ℕ} {array : Array ℤ} :
    ((List.range array.size).map fun k =>
        array[source (draw rand (array.size - 1)) (array.size - 1) k]!).Perm
      ((List.range array.size).map fun k => array[k]!) ↔ Balanced rand array := by
  let s := source (draw rand (array.size - 1)) (array.size - 1)
  let lost := overwritten (draw rand (array.size - 1)) array.size
  let kept := (List.range array.size).filter fun k =>
    !decide (∃ i < array.size, k < i ∧ draw rand (array.size - 1) i = k)
  have hsplit : (lost ++ kept).Perm (List.range array.size) := List.filter_append_perm _ _
  have hkept : kept.map (fun k => array[s k]!) = kept.map fun k => array[k]! := by
    apply List.map_congr_left
    intro k hk
    obtain ⟨hk, hno⟩ := List.mem_filter.mp hk
    have hno : k ∉ lost := fun h => by
      rw [mem_overwritten] at h
      simp [h.2] at hno
    rw [mem_overwritten_iff (fun _ => draw_le rand _) (List.mem_range.mp hk), not_not] at hno
    exact congrArg (array[·]!) hno
  have hleft : ((List.range array.size).map fun k => array[s k]!).Perm
      (lost.map (fun k => array[s k]!) ++ kept.map fun k => array[k]!) := by
    rw [← hkept, ← List.map_append]
    exact hsplit.symm.map _
  have hright : ((List.range array.size).map fun k => array[k]!).Perm
      (lost.map (fun k => array[k]!) ++ kept.map fun k => array[k]!) := by
    rw [← List.map_append]
    exact hsplit.symm.map _
  change _ ↔ (lost.map fun k => array[s k]!).Perm (lost.map fun k => array[k]!)
  apply Iff.trans _ (List.perm_append_right_iff (kept.map fun k => array[k]!))
  exact ⟨fun h => hleft.symm.trans (h.trans hright),
    fun h => hleft.trans (h.trans hright.symm)⟩

/-- Without equal elements no position may be overwritten: an overwritten position and its source
end with the same value. -/
theorem overwritten_eq_nil_of_balanced {rand : ℕ → ℕ} {array : Array ℤ}
    (hnd : array.toList.Nodup) (h : Balanced rand array) :
    overwritten (draw rand (array.size - 1)) array.size = [] := by
  have hd : ∀ i, 0 < i → draw rand (array.size - 1) i ≤ i := fun _ => draw_le rand _
  have hperm := perm_iff_balanced.mpr h
  rw [toList_eq] at hnd
  have hinj := List.inj_on_of_nodup_map (hperm.nodup_iff.mpr hnd)
  apply List.eq_nil_iff_forall_not_mem.mpr
  intro k hk
  have hlt := (mem_overwritten.mp hk).1
  have hs := source_lt (d := draw rand (array.size - 1)) (i := array.size - 1) (by omega) hlt
  refine (mem_overwritten_iff hd hlt).mp hk (hinj (List.mem_range.mpr hs) (List.mem_range.mpr hlt) ?_)
  rw [source_source hd]

theorem overwritten_eq_nil_iff {rand : ℕ → ℕ} {size : ℕ} :
    overwritten (draw rand (size - 1)) size = [] ↔
      ∀ i, 0 < i → i < size → rand (size - 1 - i) % i = i - 1 := by
  rw [List.eq_nil_iff_forall_not_mem]
  simp only [mem_overwritten, draw]
  constructor
  · intro h i hi hsize
    by_contra hne
    have hlt := Nat.mod_lt (rand (size - 1 - i)) hi
    exact h (rand (size - 1 - i) % i + 1) ⟨by omega, i, hsize, by omega, rfl⟩
  · rintro h k ⟨-, i, hsize, hki, hdraw⟩
    have := h i (by omega) hsize
    omega

/-- Every access is in range. The result is a permutation of the array exactly if the values that
are lost are those that are put in their place; if no two elements are equal, exactly if each
`rand() % i` is `i - 1`, so that nothing is moved at all. -/
theorem shuffleArray_perm_iff (rand : ℕ → ℕ) (array : Array ℤ) :
    (∃ b, shuffleArray rand array = some b) ∧
      ((∃ b, shuffleArray rand array = some b ∧ b.toList.Perm array.toList) ↔
        Balanced rand array) ∧
      (array.toList.Nodup → (Balanced rand array ↔
        ∀ i, 0 < i → i < array.size → rand (array.size - 1 - i) % i = i - 1)) := by
  obtain ⟨b, hb, hlist⟩ := shuffleArray_spec rand array
  refine ⟨⟨b, hb⟩, ?_, fun hnd => ?_⟩
  · rw [← perm_iff_balanced, ← hlist, ← toList_eq]
    constructor
    · rintro ⟨b', hb', h⟩
      rw [hb, Option.some.injEq] at hb'
      exact hb' ▸ h
    · exact fun h => ⟨b, hb, h⟩
  · rw [← overwritten_eq_nil_iff]
    refine ⟨overwritten_eq_nil_of_balanced hnd, fun h => ?_⟩
    simp [Balanced, h]

/-- With every `rand()` equal to 0 the array 1, 2, 3 becomes 1, 3, 3. -/
theorem shuffleArray_loses : ¬ ∃ b, shuffleArray (fun _ => 0) #[1, 2, 3] = some b ∧
    b.toList.Perm #[1, 2, 3].toList := by
  have h : shuffleArray (fun _ => 0) #[1, 2, 3] = some #[1, 3, 3] := by decide
  rintro ⟨b, hb, hp⟩
  rw [h, Option.some.injEq] at hb
  subst hb
  exact absurd hp (by decide)

end Htmsql.ArraySize
