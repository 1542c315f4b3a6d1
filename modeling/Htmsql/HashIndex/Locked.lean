import Htmsql.HashIndex.Table
import Mathlib.Data.Finset.Erase
import Mathlib.Data.Finset.Insert

/-!
# The locked hash maps, one call after the other

`insert`, `remove` and `contains` of `src/hle/hashmap/HashMap.cpp`, where each list has a lock, and
of `src/hle/hashmap/HashMap-global.cpp`, where all have the same. In a sequence of calls the lock is
free whenever it is taken, and it is left out; where it belongs to the list it is reached through
`map[h]` like the list itself. A loop that takes more rounds than there are nodes is `none`.
-/

namespace Htmsql.HashIndex

open Chain (Node Seg firstOr last)

/-- The operations of a map. -/
inductive Op where
  | insert (v : ℤ)
  | remove (v : ℤ)
  | contains (v : ℤ)
  deriving DecidableEq, Repr

/-- The value that the operation is about. -/
def Op.value : Op → ℤ
  | insert v | remove v | contains v => v

/-- What an operation returns: the item of `insert`, the 0 or 1 of the others. -/
inductive Ret where
  | item (p : Ptr)
  | int (n : ℕ)
  deriving DecidableEq, Repr

/-- The loops of the three functions: they stop at an item that holds the value, or at the end, and
know the item before. -/
def find (heap : Ptr → Option (Node Ptr ℤ)) (value : ℤ) :
    ℕ → Option Ptr → Option Ptr → Option (Option Ptr × Option Ptr)
  | _, prev, none => some (prev, none)
  | 0, _, some _ => none
  | fuel + 1, prev, some item => do
    let n ← heap item
    if n.data = value then return (prev, some item)
    else find heap value fuel (some item) n.successor

/-- The list of `value` is searched. -/
def Memory.search (size : ℤ) (m : Memory) (value : ℤ) : Option (Option Ptr × Option Ptr) := do
  let first ← m.head size (hash size value)
  find m.nodes.heap value m.allocated none first

/-! ## `HashMap.cpp` -/

namespace Bucket

/-- `insert` of the maps that allocate the item first and delete it again if the value is there. -/
def insert (size : ℤ) (m : Memory) (value : ℤ) : Option (Ret × Memory) := do
  let insertItem := m.allocated
  let m := m.new value
  let (prev, item) ← m.search size value
  match item with
  | some item =>
    let m ← m.delete insertItem
    return (.item item, m)
  | none =>
    let m ← m.setNext size (hash size value) prev (some insertItem)
    return (.item insertItem, m)

/-- `remove` looks the value up, links its predecessor past it and deletes it. -/
def remove (size : ℤ) (m : Memory) (value : ℤ) : Option (Ret × Memory) := do
  let (prev, item) ← m.search size value
  match item with
  | some item =>
    let n ← m.nodes.heap item
    let m ← m.setNext size (hash size value) prev n.successor
    let m ← m.delete item
    return (.int 1, m)
  | none => return (.int 0, m)

/-- `contains` looks the value up and says whether it was found. -/
def contains (size : ℤ) (m : Memory) (value : ℤ) : Option (Ret × Memory) := do
  let (_, item) ← m.search size value
  return (.int (if item ≠ none then 1 else 0), m)

/-- One operation; `none` where the code reads outside of the map or a deleted item. -/
def run (size : ℤ) (m : Memory) : Op → Option (Ret × Memory)
  | .insert v => insert size m v
  | .remove v => remove size m v
  | .contains v => contains size m v

end Bucket

/-! ## `HashMap-global.cpp` -/

namespace Global

/-- `insert` of the map that looks the value up first and allocates only if it is not there. -/
def insert (size : ℤ) (m : Memory) (value : ℤ) : Option (Ret × Memory) := do
  let (prev, item) ← m.search size value
  match item with
  | some item => return (.item item, m)
  | none =>
    let insertItem := m.allocated
    let m := m.new value
    let m ← m.setNext size (hash size value) prev (some insertItem)
    return (.item insertItem, m)

/-- The same code as with a lock for each bucket. -/
def remove (size : ℤ) (m : Memory) (value : ℤ) : Option (Ret × Memory) :=
  Bucket.remove size m value

/-- The same code as with a lock for each bucket. -/
def contains (size : ℤ) (m : Memory) (value : ℤ) : Option (Ret × Memory) :=
  Bucket.contains size m value

/-- One operation; `none` where the code reads outside of the map or a deleted item. -/
def run (size : ℤ) (m : Memory) : Op → Option (Ret × Memory)
  | .insert v => insert size m v
  | .remove v => remove size m v
  | .contains v => contains size m v

end Global

/-! ## What a sequence of calls has to return -/

/-- The values that have been inserted and not removed since. -/
def Op.effect (S : Finset ℤ) : Op → Finset ℤ
  | insert v => Insert.insert v S
  | remove v => S.erase v
  | contains _ => S

/-- The result says whether the value is in the set; `insert` returns an item. -/
def Op.Answers (S : Finset ℤ) : Op → Ret → Prop
  | insert _, .item _ => True
  | remove v, .int n | contains v, .int n => n = if v ∈ S then 1 else 0
  | _, _ => False

/-- The operations of a sequence return, one after the other, what the set says. -/
def Answers : Finset ℤ → List Op → List Ret → Prop
  | _, [], [] => True
  | S, op :: ops, r :: rets => op.Answers S r ∧ Answers (op.effect S) ops rets
  | _, _, _ => False

/-- The results of a sequence of calls. -/
def results (run : Memory → Op → Option (Ret × Memory)) : Memory → List Op → Option (List Ret)
  | _, [] => some []
  | m, op :: ops => do
    let (r, m) ← run m op
    let rets ← results run m ops
    return r :: rets

/-- In a sequence of calls on an empty map all accesses are inside of the array, and a value is
found exactly when it was inserted and not removed since. -/
def Correct (run : Memory → Op → Option (Ret × Memory)) (ops : List Op) : Prop :=
  ∃ rets, results run Memory.empty ops = some rets ∧ Answers ∅ ops rets

variable {size : ℤ} {m : Memory} {C : ℤ → List (Ptr × ℤ)} {v : ℤ} {S : Finset ℤ}

/-! ## The search -/

theorem find_spec {heap : Ptr → Option (Node Ptr ℤ)} {fuel : ℕ} (l₁ : List (Ptr × ℤ))
    {l₂ : List (Ptr × ℤ)} (hseg : Seg heap l₂ none) (hv : v ∉ l₁.map Prod.snd)
    (hfuel : l₂.length ≤ fuel) :
    v ∉ (l₁ ++ l₂).map Prod.snd ∧
        find heap v fuel (last l₁) (firstOr l₂ none) = some (last (l₁ ++ l₂), none) ∨
      ∃ l₃ p l₄, l₁ ++ l₂ = l₃ ++ (p, v) :: l₄ ∧
        find heap v fuel (last l₁) (firstOr l₂ none) = some (last l₃, some p) := by
  induction l₂ generalizing l₁ fuel with
  | nil =>
    rw [List.append_nil]
    exact Or.inl ⟨hv, by cases fuel <;> rfl⟩
  | cons x l₂ ih =>
    obtain ⟨p, d⟩ := x
    obtain ⟨fuel, rfl⟩ : ∃ n, fuel = n + 1 := ⟨fuel - 1, by simp at hfuel; omega⟩
    have hround : find heap v (fuel + 1) (last l₁) (some p) =
        if d = v then some (last l₁, some p)
        else find heap v fuel (some p) (firstOr l₂ none) := by
      rw [find, hseg.1]
      rfl
    change _ ∧ find heap v (fuel + 1) (last l₁) (some p) = _ ∨
      ∃ l₃ q l₄, _ ∧ find heap v (fuel + 1) (last l₁) (some p) = _
    rw [hround]
    by_cases hd : d = v
    · rw [if_pos hd]
      exact Or.inr ⟨l₁, p, l₂, by rw [hd], rfl⟩
    · rw [if_neg hd, List.append_cons, ← Chain.last_concat l₁ (p, d)]
      refine ih _ hseg.2 ?_ (by simpa using hfuel)
      rw [List.map_append, List.mem_append, not_or]
      exact ⟨hv, by simpa using Ne.symm hd⟩

theorem Holds.search (hm : Holds size m C) (hh : InTable size (hash size v)) :
    v ∉ (C (hash size v)).map Prod.snd ∧
        m.search size v = some (last (C (hash size v)), none) ∨
      ∃ l₁ p l₂, C (hash size v) = l₁ ++ (p, v) :: l₂ ∧
        m.search size v = some (last l₁, some p) := by
  have hsearch : m.search size v =
      find m.nodes.heap v m.allocated none (firstOr (C (hash size v)) none) := by
    rw [Memory.search, Memory.head_some hh, hm.chained.first]
    rfl
  rw [hsearch]
  exact find_spec [] (hm.chained.seg _) List.not_mem_nil (hm.length_le _)

theorem Memory.search_none (hh : ¬ InTable size (hash size v)) : m.search size v = none := by
  rw [Memory.search, Memory.head, if_neg hh]
  rfl

/-! ## One call -/

/-- A call does to the values, and returns, what it should. -/
def Step (size : ℤ) (run : Memory → Op → Option (Ret × Memory)) (m : Memory) (op : Op) : Prop :=
  ∃ r m' C', run m op = some (r, m') ∧ Holds size m' C' ∧
    ∀ S : Finset ℤ, values size m = S → op.Answers S r ∧ values size m' = op.effect S

theorem step_insert_found {run : Memory → Op → Option (Ret × Memory)} {m' : Memory} {p : Ptr}
    (hm : Holds size m C) (hm' : Holds size m' C) (hv : v ∈ (C (hash size v)).map Prod.snd)
    (hrun : run m (.insert v) = some (.item p, m')) : Step size run m (.insert v) := by
  refine ⟨_, m', C, hrun, hm', fun S hS => ⟨trivial, ?_⟩⟩
  have hmem : v ∈ S := by
    rw [← Finset.mem_coe, ← hS]
    exact hm.mem_values.mpr hv
  have hsame : values size m' = values size m := by
    ext w
    rw [hm.mem_values, hm'.mem_values]
  rw [hsame, hS, Op.effect, Finset.insert_eq_of_mem hmem]

theorem step_insert_linked {run : Memory → Op → Option (Ret × Memory)} {m' : Memory} {p : Ptr}
    (hm : Holds size m C) (hm' : Holds size m' (append size C p v))
    (hrun : run m (.insert v) = some (.item p, m')) : Step size run m (.insert v) := by
  refine ⟨_, m', _, hrun, hm', fun S hS => ⟨trivial, ?_⟩⟩
  rw [hm.values_append hm', hS, Op.effect, Finset.coe_insert]

theorem step_bucket_insert (hm : Holds size m C) (hh : InTable size (hash size v)) :
    Step size (Bucket.run size) m (.insert v) := by
  have hnew := hm.new v
  rcases hnew.search hh with ⟨hv, hsearch⟩ | ⟨l₁, p, l₂, hC, hsearch⟩
  · obtain ⟨m', hlink, hm', -⟩ := hnew.link hh hv (m.new_heap v) hm.allocated_not_mem
    refine step_insert_linked hm hm' (p := m.allocated) ?_
    simp only [Bucket.run, Bucket.insert, hsearch, hlink, Option.bind_eq_bind, Option.bind_some,
      Option.pure_def]
  · obtain ⟨m', hdelete, hm', -⟩ := hnew.delete (m.new_heap v) hm.allocated_not_mem
    refine step_insert_found hm hm' (p := p) (by rw [hC]; simp) ?_
    simp only [Bucket.run, Bucket.insert, hsearch, hdelete, Option.bind_eq_bind, Option.bind_some,
      Option.pure_def]

theorem step_global_insert (hm : Holds size m C) (hh : InTable size (hash size v)) :
    Step size (Global.run size) m (.insert v) := by
  rcases hm.search hh with ⟨hv, hsearch⟩ | ⟨l₁, p, l₂, hC, hsearch⟩
  · obtain ⟨m', hlink, hm', -⟩ := (hm.new v).link hh hv (m.new_heap v) hm.allocated_not_mem
    refine step_insert_linked hm hm' (p := m.allocated) ?_
    simp only [Global.run, Global.insert, hsearch, hlink, Option.bind_eq_bind, Option.bind_some,
      Option.pure_def]
  · refine step_insert_found hm hm (p := p) (by rw [hC]; simp) ?_
    simp only [Global.run, Global.insert, hsearch, Option.bind_eq_bind, Option.bind_some,
      Option.pure_def]

theorem Holds.answer (hm : Holds size m C) (hS : values size m = S) :
    v ∈ S ↔ v ∈ (C (hash size v)).map Prod.snd := by
  rw [← Finset.mem_coe, ← hS, hm.mem_values]

theorem step_remove {run : Memory → Op → Option (Ret × Memory)}
    (hrun : run m (.remove v) = Bucket.remove size m v) (hm : Holds size m C)
    (hh : InTable size (hash size v)) : Step size run m (.remove v) := by
  rcases hm.search hh with ⟨hv, hsearch⟩ | ⟨l₁, p, l₂, hC, hsearch⟩
  · refine ⟨.int 0, m, C, ?_, hm, fun S hS => ⟨?_, ?_⟩⟩
    · simp only [hrun, Bucket.remove, hsearch, Option.bind_eq_bind, Option.bind_some,
        Option.pure_def]
    · exact (if_neg fun hmem => hv ((hm.answer hS).mp hmem)).symm
    · rw [hS, Op.effect, Finset.erase_eq_of_notMem fun hmem => hv ((hm.answer hS).mp hmem)]
  · obtain ⟨m₁, m₂, hunlink, hdelete, hm₂⟩ := hm.unlink_delete hh hC
    have hheap : m.nodes.heap p = some ⟨v, firstOr l₂ none⟩ := by
      have hseg := hm.chained.seg (hash size v)
      rw [hC] at hseg
      exact hseg.at
    refine ⟨.int 1, m₂, _, ?_, hm₂, fun S hS => ⟨?_, ?_⟩⟩
    · simp only [hrun, Bucket.remove, hsearch, hheap, hunlink, hdelete, Option.bind_eq_bind,
        Option.bind_some, Option.pure_def]
    · exact (if_pos ((hm.answer hS).mpr (by rw [hC]; simp))).symm
    · rw [hm.values_without hm₂, hS, Op.effect, Finset.coe_erase]

theorem step_contains {run : Memory → Op → Option (Ret × Memory)}
    (hrun : run m (.contains v) = Bucket.contains size m v) (hm : Holds size m C)
    (hh : InTable size (hash size v)) : Step size run m (.contains v) := by
  rcases hm.search hh with ⟨hv, hsearch⟩ | ⟨l₁, p, l₂, hC, hsearch⟩
  · refine ⟨.int 0, m, C, ?_, hm, fun S hS => ⟨?_, hS⟩⟩
    · simp [hrun, Bucket.contains, hsearch]
    · exact (if_neg fun hmem => hv ((hm.answer hS).mp hmem)).symm
  · refine ⟨.int 1, m, C, ?_, hm, fun S hS => ⟨?_, hS⟩⟩
    · simp [hrun, Bucket.contains, hsearch]
    · exact (if_pos ((hm.answer hS).mpr (by rw [hC]; simp))).symm

theorem step_bucket (hm : Holds size m C) (op : Op) (hh : InTable size (hash size op.value)) :
    Step size (Bucket.run size) m op := by
  cases op with
  | insert v => exact step_bucket_insert hm hh
  | remove v => exact step_remove rfl hm hh
  | contains v => exact step_contains rfl hm hh

theorem step_global (hm : Holds size m C) (op : Op) (hh : InTable size (hash size op.value)) :
    Step size (Global.run size) m op := by
  cases op with
  | insert v => exact step_global_insert hm hh
  | remove v => exact step_remove rfl hm hh
  | contains v => exact step_contains rfl hm hh

/-- Outside of the array no call gets further than its first access. -/
theorem bucket_run_none {op : Op} (hh : ¬ InTable size (hash size op.value)) :
    Bucket.run size m op = none := by
  cases op <;>
    simp only [Bucket.run, Bucket.insert, Bucket.remove, Bucket.contains, Op.value] at hh ⊢ <;>
    rw [Memory.search_none hh] <;> rfl

theorem global_run_none {op : Op} (hh : ¬ InTable size (hash size op.value)) :
    Global.run size m op = none := by
  cases op with
  | insert v =>
    have hsearch : m.search size v = none := Memory.search_none hh
    rw [Global.run, Global.insert, hsearch]
    rfl
  | remove v => exact bucket_run_none hh
  | contains v => exact bucket_run_none hh

/-! ## A sequence of calls -/

section Sequence

variable {run : Memory → Op → Option (Ret × Memory)}

theorem results_answers
    (hstep : ∀ m C op, Holds size m C → InTable size (hash size op.value) → Step size run m op)
    {ops : List Op} (hops : ∀ op ∈ ops, InTable size (hash size op.value)) (hm : Holds size m C)
    (hS : values size m = S) : ∃ rets, results run m ops = some rets ∧ Answers S ops rets := by
  induction ops generalizing m C S with
  | nil => exact ⟨[], rfl, trivial⟩
  | cons op ops ih =>
    obtain ⟨r, m', C', hrun, hm', hcall⟩ := hstep m C op hm (hops op List.mem_cons_self)
    obtain ⟨hanswer, hvalues⟩ := hcall S hS
    obtain ⟨rets, hrets, hanswers⟩ :=
      ih (fun op' hop' => hops op' (List.mem_cons_of_mem _ hop')) hm' hvalues
    refine ⟨r :: rets, ?_, hanswer, hanswers⟩
    simp only [results, hrun, hrets, Option.bind_eq_bind, Option.bind_some, Option.pure_def]

theorem inTable_of_results (hnone : ∀ m op, ¬ InTable size (hash size op.value) → run m op = none)
    {ops : List Op} {rets : List Ret} (hrets : results run m ops = some rets) :
    ∀ op ∈ ops, InTable size (hash size op.value) := by
  induction ops generalizing m rets with
  | nil => exact fun _ hop => nomatch hop
  | cons op ops ih =>
    simp only [results, Option.bind_eq_bind, Option.bind_eq_some_iff] at hrets
    obtain ⟨⟨r, m'⟩, hrun, rets', hrets', -⟩ := hrets
    intro op' hop'
    rcases List.mem_cons.mp hop' with rfl | hop'
    · by_contra hh
      rw [hnone m _ hh] at hrun
      cases hrun
    · exact ih hrets' op' hop'

theorem values_empty (size : ℤ) : values size Memory.empty = (∅ : Finset ℤ) := by
  ext w
  rw [(holds_empty size).mem_values]
  simp

theorem correct_iff
    (hstep : ∀ m C op, Holds size m C → InTable size (hash size op.value) → Step size run m op)
    (hnone : ∀ m op, ¬ InTable size (hash size op.value) → run m op = none) (ops : List Op) :
    Correct run ops ↔ ∀ op ∈ ops, InTable size (hash size op.value) := by
  constructor
  · rintro ⟨rets, hrets, -⟩
    exact inTable_of_results hnone hrets
  · exact fun hops => results_answers hstep hops (holds_empty size) (values_empty size)

end Sequence

theorem bucket_correct_iff (size : ℤ) (ops : List Op) :
    Correct (Bucket.run size) ops ↔ ∀ op ∈ ops, InTable size (hash size op.value) :=
  correct_iff (fun _ _ op hm hh => step_bucket hm op hh) (fun _ _ hh => bucket_run_none hh) ops

theorem global_correct_iff (size : ℤ) (ops : List Op) :
    Correct (Global.run size) ops ↔ ∀ op ∈ ops, InTable size (hash size op.value) :=
  correct_iff (fun _ _ op hm hh => step_global hm op hh) (fun _ _ hh => global_run_none hh) ops

end Htmsql.HashIndex
