import Htmsql.HashIndex.Table

/-!
# The transactions of the micro hash map

What `HashMap::insert` and `HashMap::remove` of `src/micro/hash_map/HashMap.cpp` do between
`_xbegin` and the end of their transaction, one statement after the other. A statement that accesses
what is not there has no result.

When `remove` does not find the value it returns without `_xend`.
-/

namespace Htmsql.MicroMap

open Chain (Node Seg firstOr last)
open HashIndex

/-- The operations that a transaction is made for. -/
inductive Op where
  | insert (v : ℤ)
  | remove (v : ℤ)
  deriving DecidableEq, Repr

/-- The value that the operation is about. -/
def Op.value : Op → ℤ
  | insert v | remove v => v

/-- What an operation returns or throws. -/
inductive Ret where
  | item (p : Option Ptr)
  | int (n : ℕ)
  /-- `throw LockException()` -/
  | thrown
  deriving DecidableEq, Repr

/-- What is returned after `_xend`. -/
inductive After where
  | value (r : Ret)
  /-- `return map[h]`; `p` is a ghost, the node that the transaction has put there -/
  | reread (p : Ptr)
  deriving DecidableEq, Repr

/-- The points of an operation, each before the access of the map that it is named after. -/
inductive Pc where
  | idle
  | xbegin (op : Op)
  /-- before the first read of `map[h]` -/
  | test (op : Op)
  /-- `insert`, the list is empty -/
  | newHead (v : ℤ)
  | second (v : ℤ)
  | same (v : ℤ) (lastItem : Ptr) (itemPtr : Option Ptr)
  | loop (v : ℤ) (lastItem : Ptr) (itemPtr : Option Ptr)
  | next (v : ℤ) (itemPtr : Ptr)
  | link (v : ℤ) (lastItem : Ptr)
  /-- `remove`, at the condition of the loop -/
  | search (v : ℤ) (prevItem item : Option Ptr)
  | advance (v : ℤ) (item : Ptr)
  | unlink (v : ℤ) (prevItem : Option Ptr) (item : Ptr)
  | xend (op : Op) (after : After)
  /-- after `_xend`, before the read of `map[h]` -/
  | reread (op : Op) (p : Ptr)
  | ret (op : Op) (r : Ret)
  deriving DecidableEq, Repr

/-- The point after the commit: the return of a value, or the read of the bucket that `insert`
returns. -/
def After.pc (op : Op) : After → Pc
  | value r => .ret op r
  | reread p => .reread op p

/-- One step of the body inside the transaction; `none` where it follows NULL. -/
def bodyStep (size : ℤ) (m : Memory) : Pc → Option (Memory × Pc)
  | .test (.insert v) => do
    let first ← m.head size (hash size v)
    return (m, if first = none then .newHead v else .second v)
  | .newHead v => do
    let m' ← (m.new v).setNext size (hash size v) none (some m.allocated)
    return (m', .xend (.insert v) (.reread m.allocated))
  | .second v => do
    let first ← m.head size (hash size v)
    let lastItem ← first
    let n ← m.nodes.heap lastItem
    return (m, .same v lastItem n.successor)
  | .same v lastItem itemPtr => do
    let n ← m.nodes.heap lastItem
    return (m, if n.data = v then .xend (.insert v) (.value (.item (some lastItem)))
      else .loop v lastItem itemPtr)
  | .loop v lastItem none => some (m, .link v lastItem)
  | .loop v _ (some itemPtr) => do
    let n ← m.nodes.heap itemPtr
    return (m, if n.data = v then .xend (.insert v) (.value (.item (some itemPtr)))
      else .next v itemPtr)
  | .next v itemPtr => do
    let n ← m.nodes.heap itemPtr
    return (m, .loop v itemPtr n.successor)
  | .link v lastItem => do
    let m' ← (m.new v).setNext size (hash size v) (some lastItem) (some m.allocated)
    return (m', .xend (.insert v) (.value (.item (some m.allocated))))
  | .test (.remove v) => do
    let first ← m.head size (hash size v)
    return (m, .search v none first)
  | .search v _ none => some (m, .ret (.remove v) (.int 0))
  | .search v prevItem (some item) => do
    let n ← m.nodes.heap item
    return (m, if n.data = v then .unlink v prevItem item else .advance v item)
  | .advance v item => do
    let n ← m.nodes.heap item
    return (m, .search v (some item) n.successor)
  | .unlink v (some prevItem) item => do
    let n ← m.nodes.heap item
    let m ← m.setNext size (hash size v) (some prevItem) n.successor
    let m ← m.delete item
    return (m, .xend (.remove v) (.value (.int 1)))
  | .unlink v none item => do
    let n ← m.nodes.heap item
    match n.successor with
    | some newItem =>
      let m ← m.delete item
      let m ← m.setNext size (hash size v) none (some newItem)
      return (m, .xend (.remove v) (.value (.int 1)))
    | none =>
      -- `delete map[h]`
      let first ← m.head size (hash size v)
      let item ← first
      let m ← m.delete item
      let m ← m.setNext size (hash size v) none none
      return (m, .xend (.remove v) (.value (.int 1)))
  | _ => none

/-- That many steps of the body, with no other thread between them. -/
def bodySteps (size : ℤ) : ℕ → Memory → Pc → Option (Memory × Pc)
  | 0, m, pc => some (m, pc)
  | k + 1, m, pc => (bodyStep size m pc).bind fun (m, pc) => bodySteps size k m pc

/-! ## Where a transaction is in its list -/

/-- Before the transaction changes the memory: the lists are `C`, and it ends within `n` steps. -/
inductive At (size : ℤ) (C : ℤ → List (Ptr × ℤ)) : Op → ℕ → Pc → Prop where
  | test {op : Op} {n : ℕ} (hn : 2 * (C (hash size op.value)).length + 4 ≤ n) :
      At size C op n (.test op)
  | newHead {v : ℤ} {n : ℕ} (hC : C (hash size v) = []) (hn : 1 ≤ n) :
      At size C (.insert v) n (.newHead v)
  | second {v : ℤ} {n : ℕ} (hC : C (hash size v) ≠ [])
      (hn : 2 * (C (hash size v)).length + 3 ≤ n) : At size C (.insert v) n (.second v)
  | same {v d : ℤ} {n : ℕ} {p : Ptr} {l : List (Ptr × ℤ)} (hC : C (hash size v) = (p, d) :: l)
      (hn : 2 * l.length + 3 ≤ n) : At size C (.insert v) n (.same v p (firstOr l none))
  | loop {v : ℤ} {n : ℕ} {p : Ptr} {l₁ l₂ : List (Ptr × ℤ)} (hC : C (hash size v) = l₁ ++ l₂)
      (hlast : last l₁ = some p) (hv : v ∉ l₁.map Prod.snd) (hn : 2 * l₂.length + 2 ≤ n) :
      At size C (.insert v) n (.loop v p (firstOr l₂ none))
  | next {v d : ℤ} {n : ℕ} {p : Ptr} {l₁ l₂ : List (Ptr × ℤ)}
      (hC : C (hash size v) = l₁ ++ (p, d) :: l₂) (hv : v ∉ (l₁ ++ [(p, d)]).map Prod.snd)
      (hn : 2 * l₂.length + 3 ≤ n) : At size C (.insert v) n (.next v p)
  | link {v : ℤ} {n : ℕ} {p : Ptr} (hlast : last (C (hash size v)) = some p)
      (hv : v ∉ (C (hash size v)).map Prod.snd) (hn : 1 ≤ n) :
      At size C (.insert v) n (.link v p)
  | search {v : ℤ} {n : ℕ} {l₁ l₂ : List (Ptr × ℤ)} (hC : C (hash size v) = l₁ ++ l₂)
      (hv : v ∉ l₁.map Prod.snd) (hn : 2 * l₂.length + 2 ≤ n) :
      At size C (.remove v) n (.search v (last l₁) (firstOr l₂ none))
  | advance {v d : ℤ} {n : ℕ} {p : Ptr} {l₁ l₂ : List (Ptr × ℤ)}
      (hC : C (hash size v) = l₁ ++ (p, d) :: l₂) (hv : v ∉ (l₁ ++ [(p, d)]).map Prod.snd)
      (hn : 2 * l₂.length + 3 ≤ n) : At size C (.remove v) n (.advance v p)
  | unlink {v : ℤ} {n : ℕ} {p : Ptr} {l₁ l₂ : List (Ptr × ℤ)}
      (hC : C (hash size v) = l₁ ++ (p, v) :: l₂) (hn : 1 ≤ n) :
      At size C (.remove v) n (.unlink v (last l₁) p)

/-- The five ends of a transaction that began in `m`, with the lists `C`. -/
inductive Finished (size : ℤ) (m : Memory) (C : ℤ → List (Ptr × ℤ)) : Op → Memory → Pc → Prop where
  | newHead {v : ℤ} {m' : Memory} (hC : C (hash size v) = [])
      (hm' : Holds size m' (append size C m.allocated v)) :
      Finished size m C (.insert v) m' (.xend (.insert v) (.reread m.allocated))
  | found {v : ℤ} {p : Ptr} (hp : (p, v) ∈ C (hash size v)) :
      Finished size m C (.insert v) m (.xend (.insert v) (.value (.item (some p))))
  | linked {v : ℤ} {m' : Memory} (hC : C (hash size v) ≠ [])
      (hm' : Holds size m' (append size C m.allocated v)) :
      Finished size m C (.insert v) m' (.xend (.insert v) (.value (.item (some m.allocated))))
  | removed {v : ℤ} {m' : Memory} (hv : v ∈ (C (hash size v)).map Prod.snd)
      (hm' : Holds size m' (without size C v)) :
      Finished size m C (.remove v) m' (.xend (.remove v) (.value (.int 1)))
  | absent {v : ℤ} (hv : v ∉ (C (hash size v)).map Prod.snd) :
      Finished size m C (.remove v) m (.ret (.remove v) (.int 0))

variable {size : ℤ} {m m' : Memory} {C : ℤ → List (Ptr × ℤ)} {op : Op} {n : ℕ} {pc pc' : Pc}
  {v d : ℤ} {p : Ptr} {l₁ l₂ : List (Ptr × ℤ)}

theorem not_mem_concat (hv : v ∉ l₁.map Prod.snd) (hd : d ≠ v) :
    v ∉ (l₁ ++ [(p, d)]).map Prod.snd := by
  rw [List.map_append, List.mem_append, not_or]
  exact ⟨hv, by simpa using hd.symm⟩

theorem node_of_split (l₁ : List (Ptr × ℤ)) (hm : Holds size m C)
    (hC : C (hash size v) = l₁ ++ (p, d) :: l₂) :
    m.nodes.heap p = some ⟨d, firstOr l₂ none⟩ := by
  have hseg := hm.chained.seg (hash size v)
  rw [hC] at hseg
  exact hseg.at

/-- A step leaves the memory as it is and comes closer to the end, or it is the last. -/
def Progress (size : ℤ) (m : Memory) (C : ℤ → List (Ptr × ℤ)) (op : Op) (n : ℕ) (pc : Pc) : Prop :=
  ∃ m' pc', bodyStep size m pc = some (m', pc') ∧
    (m' = m ∧ (∃ n' < n, At size C op n' pc') ∨ Finished size m C op m' pc')

theorem progress_of_at (hn : 0 < n) (h : At size C op (n - 1) pc')
    (hstep : bodyStep size m pc = some (m, pc')) : Progress size m C op n pc :=
  ⟨m, pc', hstep, Or.inl ⟨rfl, n - 1, by omega, h⟩⟩

theorem progress_of_finished (h : Finished size m C op m' pc')
    (hstep : bodyStep size m pc = some (m', pc')) : Progress size m C op n pc :=
  ⟨m', pc', hstep, Or.inr h⟩

theorem progress_test (hm : Holds size m C) (hh : InTable size (hash size op.value))
    (hn : 2 * (C (hash size op.value)).length + 4 ≤ n) : Progress size m C op n (.test op) := by
  have hhead := Memory.head_some (m := m) hh
  rw [hm.chained.first] at hhead
  cases op with
  | insert v =>
    change m.head size (hash size v) = some (firstOr (C (hash size v)) none) at hhead
    change 2 * (C (hash size v)).length + 4 ≤ n at hn
    have hstep : bodyStep size m (.test (.insert v)) =
        some (m, if firstOr (C (hash size v)) none = none then .newHead v else .second v) := by
      rw [bodyStep, hhead]
      rfl
    by_cases hfirst : firstOr (C (hash size v)) none = none
    · rw [if_pos hfirst] at hstep
      exact progress_of_at (by omega) (.newHead (Chain.firstOr_eq_none hfirst) (by omega)) hstep
    · rw [if_neg hfirst] at hstep
      refine progress_of_at (by omega) (.second (fun hC => hfirst ?_) (by omega)) hstep
      rw [hC]
      rfl
  | remove v =>
    change m.head size (hash size v) = some (firstOr (C (hash size v)) none) at hhead
    change 2 * (C (hash size v)).length + 4 ≤ n at hn
    have hat : At size C (.remove v) (n - 1)
        (.search v (last []) (firstOr (C (hash size v)) none)) :=
      .search rfl List.not_mem_nil (by omega)
    refine progress_of_at (by omega) hat ?_
    rw [bodyStep, hhead]
    rfl

theorem progress_newHead (hm : Holds size m C) (hh : InTable size (hash size v))
    (hC : C (hash size v) = []) : Progress size m C (.insert v) n (.newHead v) := by
  obtain ⟨m', hlink, hm', -⟩ :=
    (hm.new v).link hh (by simp [hC]) (m.new_heap v) hm.allocated_not_mem
  rw [hC] at hlink
  refine progress_of_finished (.newHead hC hm') ?_
  change (m.new v).setNext size (hash size v) none (some m.allocated) = some m' at hlink
  rw [bodyStep, hlink]
  rfl

theorem progress_second (hm : Holds size m C) (hh : InTable size (hash size v))
    (hC : C (hash size v) ≠ []) (hn : 2 * (C (hash size v)).length + 3 ≤ n) :
    Progress size m C (.insert v) n (.second v) := by
  cases hl : C (hash size v) with
  | nil => exact absurd hl hC
  | cons x l =>
    obtain ⟨p, d⟩ := x
    have hhead := Memory.head_some (m := m) hh
    rw [hm.chained.first, hl] at hhead
    change m.head size (hash size v) = some (some p) at hhead
    have hnode := node_of_split [] hm hl
    rw [hl, List.length_cons] at hn
    refine progress_of_at (by omega) (.same hl (by omega)) ?_
    simp only [bodyStep, hhead, hnode, Option.bind_eq_bind, Option.bind_some, Option.pure_def]

theorem progress_same {l : List (Ptr × ℤ)} (hm : Holds size m C)
    (hC : C (hash size v) = (p, d) :: l) (hn : 2 * l.length + 3 ≤ n) :
    Progress size m C (.insert v) n (.same v p (firstOr l none)) := by
  have hnode := node_of_split [] hm hC
  by_cases hd : d = v
  · have hp : (p, v) ∈ C (hash size v) := by
      rw [hC, hd]
      exact List.mem_cons_self
    refine progress_of_finished (.found hp) ?_
    simp only [bodyStep, hnode, Option.bind_eq_bind, Option.bind_some, Option.pure_def, if_pos hd]
  · have hat : At size C (.insert v) (n - 1) (.loop v p (firstOr l none)) :=
      .loop (show C (hash size v) = [(p, d)] ++ l from hC) rfl (by simpa using Ne.symm hd)
        (by omega)
    refine progress_of_at (by omega) hat ?_
    simp only [bodyStep, hnode, Option.bind_eq_bind, Option.bind_some, Option.pure_def, if_neg hd]

theorem progress_loop (hm : Holds size m C) (hC : C (hash size v) = l₁ ++ l₂)
    (hlast : last l₁ = some p) (hv : v ∉ l₁.map Prod.snd) (hn : 2 * l₂.length + 2 ≤ n) :
    Progress size m C (.insert v) n (.loop v p (firstOr l₂ none)) := by
  cases l₂ with
  | nil =>
    rw [List.append_nil] at hC
    rw [← hC] at hlast hv
    exact progress_of_at (by omega) (.link hlast hv (by omega)) rfl
  | cons x l =>
    obtain ⟨q, d⟩ := x
    have hnode := node_of_split _ hm hC
    rw [List.length_cons] at hn
    by_cases hd : d = v
    · have hq : (q, v) ∈ C (hash size v) := by
        rw [hC, hd]
        simp
      refine progress_of_finished (.found hq) ?_
      simp only [firstOr, bodyStep, hnode, Option.bind_eq_bind, Option.bind_some, Option.pure_def,
        if_pos hd]
    · refine progress_of_at (by omega) (.next hC (not_mem_concat hv hd) (by omega)) ?_
      simp only [firstOr, bodyStep, hnode, Option.bind_eq_bind, Option.bind_some, Option.pure_def,
        if_neg hd]

theorem progress_next (hm : Holds size m C) (hC : C (hash size v) = l₁ ++ (p, d) :: l₂)
    (hv : v ∉ (l₁ ++ [(p, d)]).map Prod.snd) (hn : 2 * l₂.length + 3 ≤ n) :
    Progress size m C (.insert v) n (.next v p) := by
  have hnode := node_of_split _ hm hC
  rw [List.append_cons] at hC
  refine progress_of_at (by omega) (.loop hC (Chain.last_concat _ _) hv (by omega)) ?_
  simp only [bodyStep, hnode, Option.bind_eq_bind, Option.bind_some, Option.pure_def]

theorem progress_link (hm : Holds size m C) (hh : InTable size (hash size v))
    (hlast : last (C (hash size v)) = some p) (hv : v ∉ (C (hash size v)).map Prod.snd) :
    Progress size m C (.insert v) n (.link v p) := by
  obtain ⟨m', hlink, hm', -⟩ := (hm.new v).link hh hv (m.new_heap v) hm.allocated_not_mem
  rw [hlast] at hlink
  refine progress_of_finished (.linked (fun hC => ?_) hm') ?_
  · rw [hC] at hlast
    cases hlast
  · simp only [bodyStep, hlink, Option.bind_eq_bind, Option.bind_some, Option.pure_def]

theorem progress_search (hm : Holds size m C) (hC : C (hash size v) = l₁ ++ l₂)
    (hv : v ∉ l₁.map Prod.snd) (hn : 2 * l₂.length + 2 ≤ n) :
    Progress size m C (.remove v) n (.search v (last l₁) (firstOr l₂ none)) := by
  cases l₂ with
  | nil =>
    rw [List.append_nil] at hC
    rw [← hC] at hv
    exact progress_of_finished (.absent hv) rfl
  | cons x l =>
    obtain ⟨q, d⟩ := x
    have hnode := node_of_split _ hm hC
    rw [List.length_cons] at hn
    by_cases hd : d = v
    · rw [hd] at hC
      refine progress_of_at (by omega) (.unlink hC (by omega)) ?_
      simp only [firstOr, bodyStep, hnode, Option.bind_eq_bind, Option.bind_some, Option.pure_def,
        if_pos hd]
    · refine progress_of_at (by omega) (.advance hC (not_mem_concat hv hd) (by omega)) ?_
      simp only [firstOr, bodyStep, hnode, Option.bind_eq_bind, Option.bind_some, Option.pure_def,
        if_neg hd]

theorem progress_advance (hm : Holds size m C) (hC : C (hash size v) = l₁ ++ (p, d) :: l₂)
    (hv : v ∉ (l₁ ++ [(p, d)]).map Prod.snd) (hn : 2 * l₂.length + 3 ≤ n) :
    Progress size m C (.remove v) n (.advance v p) := by
  have hnode := node_of_split _ hm hC
  rw [List.append_cons] at hC
  refine progress_of_at (by omega) (.search hC hv (by omega)) ?_
  rw [Chain.last_concat]
  simp only [bodyStep, hnode, Option.bind_eq_bind, Option.bind_some, Option.pure_def]

theorem progress_unlink (hm : Holds size m C) (hh : InTable size (hash size v))
    (hC : C (hash size v) = l₁ ++ (p, v) :: l₂) :
    Progress size m C (.remove v) n (.unlink v (last l₁) p) := by
  have hnode := node_of_split _ hm hC
  have hv : v ∈ (C (hash size v)).map Prod.snd := by
    rw [hC]
    simp
  cases hprev : last l₁ with
  | some q =>
    obtain ⟨m₁, m₂, hunlink, hdelete, hm₂⟩ := hm.unlink_delete hh hC
    rw [hprev] at hunlink
    refine progress_of_finished (.removed hv hm₂) ?_
    simp only [bodyStep, hnode, hunlink, hdelete, Option.bind_eq_bind, Option.bind_some,
      Option.pure_def]
  | none =>
    obtain rfl := Chain.last_eq_none hprev
    obtain ⟨m₁, m₂, hdelete, -, hunlink, hm₂⟩ := hm.delete_unlink hh hC
    have hhead := Memory.head_some (m := m) hh
    rw [hm.chained.first, hC] at hhead
    change m.head size (hash size v) = some (some p) at hhead
    refine progress_of_finished (.removed hv hm₂) ?_
    cases hl : firstOr l₂ none with
    | none =>
      rw [hl] at hunlink
      simp only [bodyStep, hnode, hl, hhead, hdelete, hunlink, Option.bind_eq_bind,
        Option.bind_some, Option.pure_def]
    | some q =>
      rw [hl] at hunlink
      simp only [bodyStep, hnode, hl, hdelete, hunlink, Option.bind_eq_bind, Option.bind_some,
        Option.pure_def]

theorem At.progress (h : At size C op n pc) (hm : Holds size m C)
    (hh : InTable size (hash size op.value)) : Progress size m C op n pc := by
  cases h with
  | test hn => exact progress_test hm hh hn
  | newHead hC _ => exact progress_newHead hm hh hC
  | second hC hn => exact progress_second hm hh hC hn
  | same hC hn => exact progress_same hm hC hn
  | loop hC hlast hv hn => exact progress_loop hm hC hlast hv hn
  | next hC hv hn => exact progress_next hm hC hv hn
  | link hlast hv _ => exact progress_link hm hh hlast hv
  | search hC hv hn => exact progress_search hm hC hv hn
  | advance hC hv hn => exact progress_advance hm hC hv hn
  | unlink hC _ => exact progress_unlink hm hh hC

/-- Outside of the array no transaction gets further than its first access. -/
theorem bodyStep_outside (hh : ¬ InTable size (hash size op.value)) :
    bodyStep size m (.test op) = none := by
  cases op with
  | insert v =>
    have hhead : m.head size (hash size v) = none := if_neg hh
    rw [bodyStep, hhead]
    rfl
  | remove v =>
    have hhead : m.head size (hash size v) = none := if_neg hh
    rw [bodyStep, hhead]
    rfl

/-! ## Whole transactions -/

theorem Finished.no_step {m₁ : Memory} (h : Finished size m C op m' pc) :
    bodyStep size m₁ pc = none := by
  cases h <;> rfl

/-- Wherever a transaction is, the memory is as it was, or it has come to one of its ends. -/
theorem At.steps {k : ℕ} (h : At size C op n pc) (hm : Holds size m C)
    (hh : InTable size (hash size op.value)) (hk : bodySteps size k m pc = some (m', pc')) :
    m' = m ∧ (∃ n, At size C op n pc') ∨ Finished size m C op m' pc' := by
  induction k generalizing n pc with
  | zero =>
    cases hk
    exact Or.inl ⟨rfl, n, h⟩
  | succ k ih =>
    obtain ⟨m₁, pc₁, hstep, ⟨rfl, n₁, -, h₁⟩ | hend⟩ := h.progress hm hh
    · rw [bodySteps, hstep] at hk
      exact ih h₁ hk
    · rw [bodySteps, hstep, Option.bind_some] at hk
      cases k with
      | zero =>
        cases hk
        exact Or.inr hend
      | succ k =>
        change (bodyStep size m₁ pc₁).bind _ = _ at hk
        rw [hend.no_step] at hk
        cases hk

/-- Every transaction comes to an end. -/
theorem At.finishes (h : At size C op n pc) (hm : Holds size m C)
    (hh : InTable size (hash size op.value)) :
    ∃ k m' pc', bodySteps size k m pc = some (m', pc') ∧ Finished size m C op m' pc' := by
  induction n using Nat.strong_induction_on generalizing pc with
  | _ n ih =>
    obtain ⟨m₁, pc₁, hstep, ⟨rfl, n₁, hlt, h₁⟩ | hend⟩ := h.progress hm hh
    · obtain ⟨k, m', pc', hk, hend⟩ := ih n₁ hlt h₁
      refine ⟨k + 1, m', pc', ?_, hend⟩
      rw [bodySteps, hstep]
      exact hk
    · refine ⟨1, m₁, pc₁, ?_, hend⟩
      change (bodyStep size m pc).bind _ = _
      rw [hstep]
      rfl

end Htmsql.MicroMap
