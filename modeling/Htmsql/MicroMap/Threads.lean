import Htmsql.Lib.Run
import Htmsql.MicroMap.Body
import Mathlib.Data.Fintype.Basic

/-!
# The micro hash map, called by many threads

A transaction takes effect in one step, its commit; `k` is the number of its steps. `insert` into an
empty list reads `map[h]` once more after its `_xend`, in a step of its own, and another thread may
have removed the new node by then. In all other cases the result is known at the commit.

A thread whose `remove` has returned inside of its transaction goes on inside: what it does later is
done to the memory as it sees it (`left`) and never committed, until an abort takes it back to that
`remove`, which throws. `commit`, the memory at the end of the last transaction, is a ghost.
-/

namespace Htmsql.MicroMap

open Chain (Node Seg firstOr last)
open HashIndex
open Run

/-- A thread with the point of its operation, the memory as its last transaction left it, and the
transaction that a `remove` has left open. -/
structure Thread where
  pc : Pc
  commit : Memory
  /-- the `remove` that has left its transaction open, and the memory in this transaction -/
  left : Option (Op × Memory)

/-- The map that all threads share, and the threads. -/
structure Sys (T : Type) where
  mem : Memory
  thread : T → Thread

/-- What happens next: a call, a whole transaction that commits or is aborted, or a step outside
of transactions. -/
inductive Event (T : Type) where
  | call (t : T) (op : Op)
  | commit (t : T) (k : ℕ)
  | abort (t : T)
  /-- a step outside of transactions -/
  | run (t : T)
  deriving DecidableEq

variable {T : Type} [DecidableEq T]

/-- The map as given, and no thread in a call. -/
def Sys.init (m : Memory) : Sys T := ⟨m, fun _ => ⟨.idle, m, none⟩⟩

/-- The memory that the thread sees. -/
def Sys.view (s : Sys T) (t : T) : Memory :=
  match (s.thread t).left with
  | some (_, m) => m
  | none => s.mem

/-- One thread is replaced, everything else stays. -/
def Sys.set (s : Sys T) (t : T) (th : Thread) : Sys T :=
  { s with thread := Function.update s.thread t th }

/-- The transaction has ended in the memory `m`, at `pc`. -/
def Sys.committed (s : Sys T) (t : T) (m : Memory) : Pc → Option (Sys T)
  | .xend op after =>
    match (s.thread t).left with
    | none => some ({ s with mem := m }.set t ⟨after.pc op, m, none⟩)
    | some (o, _) => some (s.set t ⟨after.pc op, m, some (o, m)⟩)
  -- `return` without `_xend`
  | .ret op r =>
    match (s.thread t).left with
    | none => some (s.set t ⟨.ret op r, m, some (op, m)⟩)
    | some (o, _) => some (s.set t ⟨.ret op r, m, some (o, m)⟩)
  | _ => none

/-- One step of the machine, `none` where the event is not possible. -/
def Sys.step (size : ℤ) (s : Sys T) : Event T → Option (Sys T)
  | .call t op =>
    match (s.thread t).pc with
    | .idle => some (s.set t { s.thread t with pc := .xbegin op })
    | _ => none
  | .commit t k =>
    match (s.thread t).pc with
    | .xbegin op => (bodySteps size k (s.view t) (.test op)).bind fun (m, pc) => s.committed t m pc
    | _ => none
  | .abort t =>
    match (s.thread t).left, (s.thread t).pc with
    | some (o, _), _ => some (s.set t ⟨.ret o .thrown, (s.thread t).commit, none⟩)
    | none, .xbegin op => some (s.set t ⟨.ret op .thrown, (s.thread t).commit, none⟩)
    | none, _ => none
  | .run t =>
    match (s.thread t).pc with
    | .reread op _ =>
      ((s.view t).head size (hash size op.value)).map fun item =>
        s.set t { s.thread t with pc := .ret op (.item item) }
    | .ret _ _ => some (s.set t { s.thread t with pc := .idle })
    | _ => none

/-- The node at `p` is in the list of `v` and holds `v`. -/
def Owns (size : ℤ) (m : Memory) (v : ℤ) (p : Ptr) : Prop :=
  ∃ l, m.nodes.head (hash size v) = firstOr l none ∧ Seg m.nodes.heap l none ∧ (p, v) ∈ l

/-- `insert` returns the node that holds its value at the end of its own transaction, and every
transaction can come to its end. -/
structure Good (size : ℤ) (s : Sys T) : Prop where
  own : ∀ t v r, (s.thread t).pc = .ret (.insert v) r → r = .thrown ∨
    ∃ p, r = .item (some p) ∧ Owns size (s.thread t).commit v p
  commits : ∀ t op, (s.thread t).pc = .xbegin op → ∃ k s', s.step size (.commit t k) = some s'

/-- `insert` of `v` has put the first node into its list and is about to read `map[h]`. -/
def Thread.rereads (th : Thread) (v : ℤ) : Bool :=
  match th.left, th.pc with
  | none, .reread (.insert w) _ => w = v
  | _, _ => false

/-- The values are not negative, or multiples of the size, and no `remove` commits between the
commit and the return of an `insert` of the same value into an empty list. -/
def Sys.Meets (size : ℤ) (s : Sys T) : Event T → Prop
  | .call _ op => 0 ≤ op.value ∨ size ∣ op.value
  | .commit t _ =>
    match (s.thread t).left, (s.thread t).pc with
    | none, .xbegin (.remove v) => ∀ u, (s.thread u).rereads v = false
    | _, _ => True
  | .abort _ | .run _ => True

instance [Fintype T] (size : ℤ) (s : Sys T) (a : Event T) : Decidable (s.Meets size a) := by
  unfold Sys.Meets
  split
  · infer_instance
  · split <;> infer_instance
  · infer_instance
  · infer_instance

variable {size : ℤ} {m m' m₀ : Memory} {C C' : ℤ → List (Ptr × ℤ)} {op : Op} {pc : Pc} {v w : ℤ}
  {p q : Ptr} {l : List (Ptr × ℤ)} {s s' : Sys T} {t u : T} {th : Thread} {a : Event T}

/-! ## The node of a value -/

theorem owns_iff (hm : Holds size m C) : Owns size m v p ↔ (p, v) ∈ C (hash size v) := by
  constructor
  · rintro ⟨l, hfirst, hseg, hp⟩
    rw [hm.chained.first] at hfirst
    rw [(hm.chained.seg _).unique hseg hfirst]
    exact hp
  · exact fun hp => ⟨_, hm.chained.first _, hm.chained.seg _, hp⟩

theorem owns_unique (hm : Holds size m C) (hp : Owns size m v p) (hq : Owns size m v q) :
    q = p := by
  rw [owns_iff hm] at hp hq
  have heq := List.inj_on_of_nodup_map (hm.chained.nodup (hash size v)) hq hp rfl
  exact congrArg Prod.fst heq

/-- The first nodes of the lists stay. -/
def Keeps (C C' : ℤ → List (Ptr × ℤ)) : Prop :=
  ∀ h x l, C h = x :: l → ∃ l', C' h = x :: l'

theorem keeps_append (size : ℤ) (C : ℤ → List (Ptr × ℤ)) (p : Ptr) (v : ℤ) :
    Keeps C (append size C p v) := by
  intro h x l hC
  rw [append]
  by_cases hh : h = hash size v
  · rw [hh, Function.update_self, ← hh, hC]
    exact ⟨_, rfl⟩
  · rw [Function.update_of_ne hh]
    exact ⟨l, hC⟩

theorem without_cons (hC : C (hash size v) = (p, v) :: l) (hne : w ≠ v) :
    ∃ l', without size C w (hash size v) = (p, v) :: l' := by
  rw [without]
  by_cases hh : hash size v = hash size w
  · rw [hh, Function.update_self, ← hh, hC, List.filter_cons_of_pos (by simpa using hne.symm)]
    exact ⟨_, rfl⟩
  · rw [Function.update_of_ne hh]
    exact ⟨l, hC⟩

/-! ## The invariant -/

/-- Where a thread is that sees the lists `C`. -/
inductive Placed (size : ℤ) (C : ℤ → List (Ptr × ℤ)) (commit : Memory) : Pc → Prop where
  | idle : Placed size C commit .idle
  | xbegin {op : Op} (hh : InTable size (hash size op.value)) : Placed size C commit (.xbegin op)
  | reread {v : ℤ} {p : Ptr} {l : List (Ptr × ℤ)} (hh : InTable size (hash size v))
      (hC : C (hash size v) = (p, v) :: l) (hp : Owns size commit v p)
      (hunique : ∀ q, Owns size commit v q → q = p) :
      Placed size C commit (.reread (.insert v) p)
  | ret {op : Op} {r : Ret} (hown : ∀ v, op = .insert v → r = .thrown ∨
      ∃ p, r = .item (some p) ∧ Owns size commit v p) : Placed size C commit (.ret op r)

/-- A thread sees the lists of the map, or, in a transaction that it has left open, its own. -/
def Thread.Sees (size : ℤ) (C : ℤ → List (Ptr × ℤ)) (th : Thread) : Prop :=
  match th.left with
  | none => Placed size C th.commit th.pc
  | some (o, m) => (∃ v, o = .remove v) ∧ ∃ C', Holds size m C' ∧ Placed size C' th.commit th.pc

/-- The map is well formed, and every thread sees it so. -/
def Sys.Inv (size : ℤ) (s : Sys T) : Prop :=
  ∃ C, Holds size s.mem C ∧ ∀ t, (s.thread t).Sees size C

omit [DecidableEq T] in
theorem Sys.inv_init (hm₀ : Holds size m₀ C) : (Sys.init m₀ : Sys T).Inv size :=
  ⟨C, hm₀, fun _ => .idle⟩

omit [DecidableEq T] in
/-- What the thread sees, in both cases. -/
theorem Sys.Inv.view (h : s.Inv size) (t : T) :
    ∃ C, Holds size (s.view t) C ∧ Placed size C (s.thread t).commit (s.thread t).pc := by
  obtain ⟨C, hm, hsees⟩ := h
  have ht := hsees t
  unfold Thread.Sees at ht
  unfold Sys.view
  split at ht
  · rename_i hleft
    rw [hleft]
    exact ⟨C, hm, ht⟩
  · rename_i o m hleft
    rw [hleft]
    exact ht.2

/-- Without an `insert` that is about to read `map[h]` the first nodes do not matter. -/
theorem Thread.Sees.keeps (h : th.Sees size C)
    (hkeep : ∀ v p l, C (hash size v) = (p, v) :: l → th.rereads v = true →
      ∃ l', C' (hash size v) = (p, v) :: l') : th.Sees size C' := by
  unfold Thread.Sees at h ⊢
  split at h
  · rename_i hleft
    cases hpc : th.pc with
    | idle => exact .idle
    | xbegin op =>
      rw [hpc] at h
      cases h with
      | xbegin hh => exact .xbegin hh
    | reread op p =>
      rw [hpc] at h
      cases h with
      | reread hh hC hp hunique =>
        rename_i v l
        have hrereads : th.rereads v = true := by
          simp only [Thread.rereads, hleft, hpc, decide_true]
        obtain ⟨l', hC'⟩ := hkeep v p l hC hrereads
        exact .reread hh hC' hp hunique
    | ret op r =>
      rw [hpc] at h
      cases h with
      | ret hown => exact .ret hown
    | _ =>
      rw [hpc] at h
      cases h
  · exact h

/-! ## The commit -/

/-- After the commit of an `insert` its thread is where it should be. -/
theorem placed_insert {after : After} (hm : Holds size m C) (hh : InTable size (hash size v))
    (hp : (p, v) ∈ C (hash size v)) (hafter : after = .value (.item (some p)) ∨
      after = .reread p ∧ ∃ l, C (hash size v) = (p, v) :: l) :
    Placed size C m (after.pc (.insert v)) := by
  have howns : Owns size m v p := (owns_iff hm).mpr hp
  rcases hafter with rfl | ⟨rfl, l, hC⟩
  · refine .ret fun v' hv' => Or.inr ⟨p, rfl, ?_⟩
    cases hv'
    exact howns
  · exact .reread hh hC howns fun q hq => owns_unique hm howns hq

theorem placed_remove (r : Ret) : Placed size C m (.ret (.remove v) r) :=
  .ret fun _ hv => nomatch hv

/-- At the end of a transaction its thread has its result or is about to read it, unless it has left
the transaction open. The node of a value is the first of its list as long as it is not removed. -/
theorem Finished.placed (h : Finished size m C op m' pc) (hm : Holds size m C)
    (hh : InTable size (hash size op.value)) :
    ∃ C', Holds size m' C' ∧
      ((∃ after, pc = .xend op after ∧ Placed size C' m' (after.pc op)) ∨
        (∃ v, op = .remove v) ∧ pc = .ret op (.int 0) ∧ C' = C) ∧
      ∀ v p l, op ≠ .remove v → C (hash size v) = (p, v) :: l →
        ∃ l', C' (hash size v) = (p, v) :: l' := by
  cases h with
  | newHead hC hm' =>
    rename_i v
    have hlist : append size C m.allocated v (hash size v) = [(m.allocated, v)] := by
      rw [append, Function.update_self, hC]
      rfl
    refine ⟨_, hm', Or.inl ⟨_, rfl, ?_⟩, fun _ _ l _ hl => keeps_append _ _ _ _ _ _ l hl⟩
    exact placed_insert hm' hh (by rw [hlist]; exact List.mem_cons_self) (Or.inr ⟨rfl, [], hlist⟩)
  | found hp =>
    refine ⟨C, hm, Or.inl ⟨_, rfl, ?_⟩, fun _ _ l _ hl => ⟨l, hl⟩⟩
    exact placed_insert hm hh hp (Or.inl rfl)
  | linked hC hm' =>
    rename_i v
    refine ⟨_, hm', Or.inl ⟨_, rfl, ?_⟩, fun _ _ l _ hl => keeps_append _ _ _ _ _ _ l hl⟩
    refine placed_insert hm' hh ?_ (Or.inl rfl)
    rw [append, Function.update_self]
    simp
  | removed hv hm' =>
    refine ⟨_, hm', Or.inl ⟨_, rfl, placed_remove _⟩, fun v p l hne hl => ?_⟩
    exact without_cons hl fun heq => hne (by rw [heq])
  | absent hv => exact ⟨C, hm, Or.inr ⟨⟨_, rfl⟩, rfl, rfl⟩, fun _ _ l _ hl => ⟨l, hl⟩⟩

/-- The steps of a transaction that end it are a whole transaction. -/
theorem finished_of_committed {k : ℕ} (hm : Holds size (s.view t) C)
    (hh : InTable size (hash size op.value))
    (hk : bodySteps size k (s.view t) (.test op) = some (m', pc))
    (hs : s.committed t m' pc = some s') : Finished size (s.view t) C op m' pc := by
  have hat : At size C op _ (.test op) := .test le_rfl
  rcases hat.steps hm hh hk with ⟨-, n, hn⟩ | hend
  · exfalso
    cases hn <;> cases hs
  · exact hend

/-! ## The steps -/

theorem Sys.inv_set (hm : Holds size m C) (ht : th.Sees size C)
    (hothers : ∀ u, u ≠ t → (s.thread u).Sees size C) :
    ({ s with mem := m }.set t th).Inv size := by
  refine ⟨C, hm, fun u => ?_⟩
  show Thread.Sees size C (Function.update s.thread t th u)
  by_cases hu : u = t
  · rw [hu, Function.update_self]
    exact ht
  · rw [Function.update_of_ne hu]
    exact hothers u hu

/-- A step outside of transactions. -/
theorem Sys.Inv.setPc (h : s.Inv size) (hpc : ∀ C, Placed size C (s.thread t).commit pc) :
    (s.set t { s.thread t with pc := pc }).Inv size := by
  obtain ⟨C, hm, hsees⟩ := h
  refine inv_set hm ?_ fun u _ => hsees u
  have ht := hsees t
  unfold Thread.Sees at ht ⊢
  split at ht
  · rename_i hleft
    simp only [hleft]
    exact hpc C
  · rename_i o m hleft
    obtain ⟨ho, C', hm', -⟩ := ht
    simp only [hleft]
    exact ⟨ho, C', hm', hpc C'⟩

omit [DecidableEq T] in
theorem Sys.Inv.xbegin (h : s.Inv size) (hpc : (s.thread t).pc = .xbegin op) :
    InTable size (hash size op.value) := by
  obtain ⟨C, -, hplaced⟩ := h.view t
  rw [hpc] at hplaced
  cases hplaced with
  | xbegin hh => exact hh

theorem Sys.Inv.commit {k : ℕ} (h : s.Inv size) (hmeets : s.Meets size (.commit t k))
    (hs : s.step size (.commit t k) = some s') : s'.Inv size := by
  simp only [Sys.step] at hs
  split at hs
  · rename_i op hpc
    obtain ⟨⟨m', pc⟩, hk, hs⟩ := Option.bind_eq_some_iff.mp hs
    have hh := h.xbegin hpc
    obtain ⟨C, hm, hsees⟩ := h
    have ht := hsees t
    cases hleft : (s.thread t).left with
    | none =>
      have hview : s.view t = s.mem := by
        unfold Sys.view
        rw [hleft]
      have hend := finished_of_committed (hview ▸ hm) hh hk hs
      rw [hview] at hend
      obtain ⟨C', hm', hcases, hkeep⟩ := hend.placed hm hh
      have hothers : ∀ u, (s.thread u).Sees size C' := fun u =>
        (hsees u).keeps fun v p l hl hrereads => by
          refine hkeep v p l (fun hop => ?_) hl
          simp only [Sys.Meets, hleft, hpc, hop] at hmeets
          rw [hmeets u] at hrereads
          cases hrereads
      rcases hcases with ⟨after, rfl, hplaced⟩ | ⟨ho, rfl, rfl⟩
      · simp only [Sys.committed, hleft, Option.some.injEq] at hs
        subst hs
        exact inv_set hm' hplaced fun u _ => hothers u
      · simp only [Sys.committed, hleft, Option.some.injEq] at hs
        subst hs
        obtain ⟨v, rfl⟩ := ho
        exact inv_set hm ⟨⟨v, rfl⟩, C', hm', placed_remove _⟩ fun u _ => hsees u
    | some x =>
      obtain ⟨o, m⟩ := x
      unfold Thread.Sees at ht
      rw [hleft] at ht
      obtain ⟨ho, D, hD, -⟩ := ht
      have hview : s.view t = m := by
        unfold Sys.view
        rw [hleft]
      have hend := finished_of_committed (hview ▸ hD) hh hk hs
      rw [hview] at hend
      obtain ⟨D', hD', hcases, -⟩ := hend.placed hD hh
      rcases hcases with ⟨after, rfl, hplaced⟩ | ⟨⟨v, rfl⟩, rfl, rfl⟩
      · simp only [Sys.committed, hleft, Option.some.injEq] at hs
        subst hs
        exact inv_set hm ⟨ho, D', hD', hplaced⟩ fun u _ => hsees u
      · simp only [Sys.committed, hleft, Option.some.injEq] at hs
        subst hs
        exact inv_set hm ⟨ho, D', hD', placed_remove _⟩ fun u _ => hsees u
  · cases hs

theorem Sys.Inv.abort (h : s.Inv size) (hs : s.step size (.abort t) = some s') :
    s'.Inv size := by
  have hthrown : ∀ C op, Placed size C (s.thread t).commit (.ret op .thrown) :=
    fun _ _ => .ret fun _ _ => Or.inl rfl
  obtain ⟨C, hm, hsees⟩ := h
  simp only [Sys.step] at hs
  split at hs
  · cases hs
    exact inv_set hm (hthrown C _) fun u _ => hsees u
  · cases hs
    exact inv_set hm (hthrown C _) fun u _ => hsees u
  · cases hs

theorem Sys.Inv.run (h : s.Inv size) (hs : s.step size (.run t) = some s') : s'.Inv size := by
  simp only [Sys.step] at hs
  split at hs
  · rename_i op p hpc
    obtain ⟨item, hitem, rfl⟩ := Option.map_eq_some_iff.mp hs
    obtain ⟨C, hm, hplaced⟩ := h.view t
    rw [hpc] at hplaced
    cases hplaced with
    | reread hh hC hp hunique =>
      rename_i v l
      change (s.view t).head size (hash size v) = some item at hitem
      rw [Memory.head_some hh, Option.some.injEq, hm.chained.first, hC] at hitem
      refine h.setPc fun _ => .ret fun v' hv' => Or.inr ⟨p, ?_, ?_⟩
      · rw [← hitem]
        rfl
      · cases hv'
        exact hp
  · cases hs
    exact h.setPc fun _ => .idle
  · cases hs

theorem Sys.Inv.step (hsize : 0 < size) (h : s.Inv size) (hmeets : s.Meets size a)
    (hs : s.step size a = some s') : s'.Inv size := by
  cases a with
  | call t op =>
    simp only [Sys.step] at hs
    split at hs
    · cases hs
      exact h.setPc fun _ => .xbegin ((inTable_hash_iff hsize).mpr hmeets)
    · cases hs
  | commit t k => exact h.commit hmeets hs
  | abort t => exact h.abort hs
  | run t => exact h.run hs

/-! ## What is returned -/

theorem Finished.committed (h : Finished size m C op m' pc) (s : Sys T) (t : T) :
    ∃ s', s.committed t m' pc = some s' := by
  cases hleft : (s.thread t).left <;> cases h <;>
    simp only [Sys.committed, hleft] <;> exact ⟨_, rfl⟩

theorem Sys.Inv.good (h : s.Inv size) : Good size s where
  own t v r hpc := by
    obtain ⟨C, -, hplaced⟩ := h.view t
    rw [hpc] at hplaced
    cases hplaced with
    | ret hown => exact hown v rfl
  commits t op hpc := by
    obtain ⟨C, hm, -⟩ := h.view t
    have hat : At size C op _ (.test op) := .test le_rfl
    obtain ⟨k, m', pc, hk, hend⟩ := hat.finishes hm (h.xbegin hpc)
    obtain ⟨s', hs'⟩ := hend.committed s t
    refine ⟨k, s', ?_⟩
    simp only [Sys.step, hpc, hk, Option.bind_some]
    exact hs'

/-- A call outside of the array never comes to the end of its transaction. -/
theorem not_good_outside (hpc : (s.thread t).pc = .xbegin op)
    (hh : ¬ InTable size (hash size op.value)) : ¬ Good size s := by
  intro hgood
  obtain ⟨k, s', hs⟩ := hgood.commits t op hpc
  simp only [Sys.step, hpc] at hs
  cases k with
  | zero => cases hs
  | succ k =>
    rw [bodySteps, bodyStep_outside hh] at hs
    cases hs

theorem Thread.rereads_iff : th.rereads v = true ↔
    th.left = none ∧ ∃ p, th.pc = .reread (.insert v) p := by
  unfold Thread.rereads
  split
  · rename_i w p hleft hpc
    simp [hleft, hpc]
  · rename_i hnot
    refine iff_of_false Bool.false_ne_true ?_
    rintro ⟨hleft, p, hpc⟩
    exact hnot v p hleft hpc

/-- After the first node has been removed another is the first. -/
theorem head_ne_of_removed (hm : Holds size m C) (hm' : Holds size m' (without size C v))
    (hC : C (hash size v) = (p, v) :: l) : m'.nodes.head (hash size v) ≠ some p := by
  have hC' : C (hash size v) = [] ++ (p, v) :: l := hC
  intro hhead
  rw [hm'.chained.first] at hhead
  refine hm.chained.notMem_split hC' (hash size v) ?_
  rw [← hm.without_split hC']
  exact Chain.firstOr_mem hhead

omit [DecidableEq T] in
/-- An `insert` that is about to read `map[h]` when its value is removed. -/
theorem exists_rereads {k : ℕ} (hmeets : ¬ s.Meets size (.commit t k)) :
    ∃ v u p, (s.thread t).left = none ∧ (s.thread t).pc = .xbegin (.remove v) ∧
      (s.thread u).left = none ∧ (s.thread u).pc = .reread (.insert v) p := by
  simp only [Sys.Meets] at hmeets
  split at hmeets
  · rename_i v hleft hpc
    obtain ⟨u, hu⟩ := not_forall.mp hmeets
    rw [Bool.not_eq_false, Thread.rereads_iff] at hu
    obtain ⟨huleft, p, hupc⟩ := hu
    exact ⟨v, u, p, hleft, hpc, huleft, hupc⟩
  · exact absurd trivial hmeets

/-- When its node has been removed an `insert` does not return it. -/
theorem not_good_of_removed {k : ℕ} (h : s.Inv size) (hmeets : ¬ s.Meets size (.commit t k))
    (hs : s.step size (.commit t k) = some s') :
    ∃ u s'', s'.step size (.run u) = some s'' ∧ ¬ Good size s'' := by
  obtain ⟨v, u, p, hleft, hpc, huleft, hupc⟩ := exists_rereads hmeets
  have hne : u ≠ t := by
    rintro rfl
    rw [hpc] at hupc
    cases hupc
  have hh := h.xbegin hpc
  obtain ⟨C, hm, hsees⟩ := h
  have hview : s.view t = s.mem := by
    unfold Sys.view
    rw [hleft]
  have hu := hsees u
  unfold Thread.Sees at hu
  rw [huleft] at hu
  change Placed size C (s.thread u).commit (s.thread u).pc at hu
  rw [hupc] at hu
  cases hu with
  | reread _ hC hp hunique =>
    rename_i l
    simp only [Sys.step, hpc, hview] at hs
    obtain ⟨⟨m', pc⟩, hk, hs⟩ := Option.bind_eq_some_iff.mp hs
    rw [← hview] at hk
    have hend := finished_of_committed (hview ▸ hm) hh hk hs
    rw [hview] at hend
    cases hend with
    | absent hv => exact absurd (by rw [hC]; exact List.mem_cons_self) hv
    | removed _ hm' =>
      simp only [Sys.committed, hleft, Option.some.injEq] at hs
      have hthread : s'.thread u = s.thread u := by
        rw [← hs]
        exact Function.update_of_ne hne _ _
      have hview' : s'.view u = m' := by
        unfold Sys.view
        rw [hthread, huleft, ← hs]
        rfl
      have hrun : s'.step size (.run u) = some (s'.set u { s.thread u with
          pc := .ret (.insert v) (.item (m'.nodes.head (hash size v))) }) := by
        simp only [Sys.step, hthread, hupc, hview']
        rw [Memory.head_some (show InTable size (hash size (Op.insert v).value) from hh)]
        rfl
      refine ⟨u, _, hrun, fun hgood => ?_⟩
      have hown := hgood.own u v (.item (m'.nodes.head (hash size v)))
      rw [show (s'.set u _).thread u = _ from Function.update_self ..] at hown
      rcases hown rfl with hthrown | ⟨q, hq, hqowns⟩
      · cases hthrown
      · obtain rfl : q = p := hunique q hqowns
        exact head_ne_of_removed hm hm' hC (Ret.item.inj hq)

/-- In every run whose steps meet the condition each `insert` returns its node; and a step that does
not meet it leads to a state in which a transaction has no end, or in which an `insert` is about to
return something else. -/
theorem insert_returns_own_iff (hsize : 0 < size) (hm₀ : ∃ C, Holds size m₀ C)
    (h : Reach (Sys.step size) (· = Sys.init m₀) (Sys.Meets size) s) :
    Good size s ∧ ∀ a s', s.step size a = some s' →
      (s.Meets size a ↔
        Good size s' ∧ ∀ u s'', s'.step size (.run u) = some s'' → Good size s'') := by
  obtain ⟨C, hm₀⟩ := hm₀
  have hinv : s.Inv size := by
    refine h.invariant ?_ fun s a s' hinv hmeets hs => hinv.step hsize hmeets hs
    rintro s rfl
    exact Sys.inv_init hm₀
  refine ⟨hinv.good, fun a s' hs => ⟨fun hmeets => ?_, fun hgood => ?_⟩⟩
  · have hinv' := hinv.step hsize hmeets hs
    exact ⟨hinv'.good, fun u s'' hs'' => (hinv'.run hs'').good⟩
  · by_contra hmeets
    cases a with
    | call t op =>
      simp only [Sys.step] at hs
      split at hs
      · cases hs
        have hpc : ((s.set t { s.thread t with pc := .xbegin op }).thread t).pc = .xbegin op := by
          show (Function.update s.thread t _ t).pc = _
          rw [Function.update_self]
        exact not_good_outside hpc (fun hh => hmeets ((inTable_hash_iff hsize).mp hh)) hgood.1
      · cases hs
    | commit t k =>
      obtain ⟨u, s'', hs'', hbad⟩ := not_good_of_removed hinv hmeets hs
      exact hbad (hgood.2 u s'' hs'')
    | abort t => exact hmeets trivial
    | run t => exact hmeets trivial

/-- Two threads, in a run that meets the condition: both insert 5, and it is removed when they have
their nodes. -/
theorem insert_returns_own_iff_two :
    ∃ s : Sys Bool, Reach (Sys.step 10) (· = Sys.init Memory.empty) (Sys.Meets 10) s ∧
      (s.thread false).pc = .ret (.insert 5) (.item (some 0)) ∧
      (s.thread true).pc = .ret (.remove 5) (.int 1) ∧ Good 10 s ∧
      ∀ a s', s.step 10 a = some s' →
        (s.Meets 10 a ↔ Good 10 s' ∧ ∀ u s'', s'.step 10 (.run u) = some s'' → Good 10 s'') := by
  obtain ⟨s, hs, hend⟩ := exec_result (guarded (Sys.step 10) (Sys.Meets 10))
    (Sys.init Memory.empty)
    [.call false (.insert 5), .commit false 2, .call true (.insert 5), .commit true 3, .run true,
      .run false, .call true (.remove 5), .commit true 3]
    (fun s => ((s.thread false).pc, (s.thread true).pc))
    (.ret (.insert 5) (.item (some 0)), .ret (.remove 5) (.int 1)) (by decide)
  obtain ⟨hfalse, htrue⟩ := Prod.mk.inj hend
  have hreach : Reach (Sys.step 10) (· = Sys.init Memory.empty) (Sys.Meets 10) s :=
    Reach.exec_guarded (.init rfl) hs
  exact ⟨s, hreach, hfalse, htrue,
    insert_returns_own_iff (by decide) ⟨_, holds_empty 10⟩ hreach⟩

/-- Another thread removes the value between the commit and the return, and NULL is returned. -/
theorem insert_returns_null :
    ∃ s : Sys Bool, Reach (Sys.step 10) (· = Sys.init Memory.empty) (fun _ _ => True) s ∧
      (s.thread false).pc = .ret (.insert 5) (.item none) ∧ ¬ Good 10 s := by
  obtain ⟨s, hs, hpc⟩ := exec_result (Sys.step 10) (Sys.init Memory.empty)
    [.call false (.insert 5), .commit false 2, .call true (.remove 5), .commit true 3, .run false]
    (fun s : Sys Bool => (s.thread false).pc) (.ret (.insert 5) (.item none)) (by decide)
  refine ⟨s, Reach.exec (.init rfl) hs, hpc, fun hgood => ?_⟩
  rcases hgood.own false 5 _ hpc with hthrown | ⟨p, hp, -⟩
  · cases hthrown
  · cases hp

end Htmsql.MicroMap
