import Htmsql.Lib.Run
import Htmsql.MicroMap.Body

/-!
# The micro hash map, called by one thread

A sequence of calls of `insert` and `remove`, with the transactions that they open. A transaction
may be aborted before any of its steps: then all that it has done is undone, and the call that has
opened it goes on behind its `_xbegin` and throws. An `_xbegin` inside of a transaction opens no
other one, and an `_xend` there ends nothing; the outermost ones count (`depth`). What happens
between two calls belongs to a transaction that is still open.

The caller catches what is thrown and goes on with its next call. `before` and `done` are ghosts.
-/

namespace Htmsql.MicroMap

open HashIndex
open Run

/-- A call that has returned or thrown, with the memory before it and after it. -/
structure Call where
  op : Op
  ret : Ret
  before : Memory
  after : Memory

/-- What an abort goes back to. -/
structure Saved where
  op : Op
  mem : Memory
  todo : List Op
  done : List Call
  before : Memory

/-- One thread: the map, the point of the operation, the calls to come and those that are over.
`saved` is what an abort goes back to, `depth` counts the open transactions. -/
structure State where
  mem : Memory
  pc : Pc
  /-- the calls to come; the first is that under way, if there is one -/
  todo : List Op
  done : List Call
  /-- the memory before the call under way -/
  before : Memory
  depth : ℕ
  /-- the state at the outermost `_xbegin` -/
  saved : Option Saved

/-- The code takes a step, or the hardware aborts the outermost transaction. -/
inductive Act where
  | run
  | abort
  deriving DecidableEq, Repr

/-- Nothing has been called; the list of operations is to come. -/
def init (m : Memory) (ops : List Op) : State := ⟨m, .idle, ops, [], m, 0, none⟩

/-- One step of the code, `none` where it is at its end or the body is stuck. -/
def run (size : ℤ) (s : State) : Option State :=
  match s.pc with
  | .idle =>
    match s.todo with
    | op :: _ => some { s with pc := .xbegin op, before := s.mem }
    | [] => none
  | .xbegin op =>
    some { s with
      pc := .test op
      depth := s.depth + 1
      saved := if s.depth = 0 then some ⟨op, s.mem, s.todo, s.done, s.before⟩ else s.saved }
  | .xend op after =>
    match s.depth with
    | 0 => none
    | depth + 1 =>
      some { s with
        pc := after.pc op
        depth := depth
        saved := if depth = 0 then none else s.saved }
  | .reread op _ =>
    (s.mem.head size (hash size op.value)).map fun item => { s with pc := .ret op (.item item) }
  | .ret op r =>
    some { s with
      pc := .idle
      todo := s.todo.tail
      done := s.done ++ [⟨op, r, s.before, s.mem⟩] }
  | pc => (bodyStep size s.mem pc).map fun (m, pc) => { s with mem := m, pc := pc }

/-- Memory is what it was before the outermost `_xbegin`, whose operation throws. -/
def abort (s : State) : Option State :=
  s.saved.map fun sv => ⟨sv.mem, .ret sv.op .thrown, sv.todo, sv.done, sv.before, 0, none⟩

/-- One step of the machine, `none` where the action is not possible. -/
def step (size : ℤ) (s : State) : Act → Option State
  | .run => run size s
  | .abort => abort s

/-! ## What a call has to do -/

/-- A call that throws leaves the map as it was; `insert` adds its value, `remove` takes it away and
returns 1 if it was there, and else 0. -/
def Call.Right (size : ℤ) (c : Call) : Prop :=
  match c.ret with
  | .thrown => c.after = c.before
  | .item _ => ∃ v, c.op = .insert v ∧ values size c.after = insert v (values size c.before)
  | .int n => ∃ v, c.op = .remove v ∧ values size c.after = values size c.before \ {v} ∧
      (n = 1 ∧ v ∈ values size c.before ∨ n = 0 ∧ v ∉ values size c.before)

/-- Nothing but the calls changes the map. -/
def Connected (m : Memory) : List Call → Memory → Prop
  | [], m' => m' = m
  | c :: calls, m' => c.before = m ∧ Connected c.after calls m'

theorem Connected.concat {m m' : Memory} {calls : List Call} {c : Call}
    (h : Connected m calls m') (hc : c.before = m') : Connected m (calls ++ [c]) c.after := by
  induction calls generalizing m with
  | nil => exact ⟨hc.trans h, rfl⟩
  | cons d calls ih => exact ⟨h.1, ih h.2⟩

/-! ## The invariant -/

/-- The points between `_xbegin` and the end of the body. -/
def Pc.inside : Pc → Bool
  | .idle | .xbegin _ | .reread _ _ | .ret _ _ => false
  | _ => true

/-- How far the call of `op` is that began in `before`, where the lists were `C`. -/
inductive Going (size : ℤ) (before : Memory) (C : ℤ → List (Ptr × ℤ)) (op : Op) :
    Memory → Pc → Prop where
  | xbegin : Going size before C op before (.xbegin op)
  | body {n : ℕ} {pc : Pc} (h : At size C op n pc) : Going size before C op before pc
  | finished {m : Memory} {after : After} (h : Finished size before C op m (.xend op after)) :
      Going size before C op m (.xend op after)
  | reread {m : Memory} {p : Ptr} (h : Finished size before C op m (.xend op (.reread p))) :
      Going size before C op m (.reread op p)
  | ret {m : Memory} {C' : ℤ → List (Ptr × ℤ)} {r : Ret}
      (hright : Call.Right size ⟨op, r, before, m⟩) (hm : Holds size m C') :
      Going size before C op m (.ret op r)

/-- Between two calls. -/
structure Ready (size : ℤ) (m₀ : Memory) (ops : List Op) (mem : Memory) (todo : List Op)
    (done : List Call) : Prop where
  holds : ∃ C, Holds size mem C
  right : ∀ c ∈ done, c.Right size
  connected : Connected m₀ done mem
  order : done.map Call.op ++ todo = ops

/-- The call of `op` has begun in such a state. -/
structure Called (size : ℤ) (m₀ : Memory) (ops : List Op) (op : Op) (mem : Memory)
    (todo : List Op) (done : List Call) : Prop where
  ready : Ready size m₀ ops mem todo done
  first : ∃ rest, todo = op :: rest
  inTable : InTable size (hash size op.value)

/-- The calls that are over and the one under way have done to the map what the specification
says. -/
inductive Current (size : ℤ) (m₀ : Memory) (ops : List Op) (s : State) : Prop where
  | idle (hpc : s.pc = .idle) (hready : Ready size m₀ ops s.mem s.todo s.done) :
      Current size m₀ ops s
  | call {op : Op} {C : ℤ → List (Ptr × ℤ)}
      (hcalled : Called size m₀ ops op s.before s.todo s.done) (hbefore : Holds size s.before C)
      (hgoing : Going size s.before C op s.mem s.pc) : Current size m₀ ops s

/-- The invariant of the machine. What an abort would go back to is kept with the state: the
memory before the outermost transaction and the calls up to there. -/
structure Inv (size : ℤ) (m₀ : Memory) (ops : List Op) (s : State) : Prop where
  current : Current size m₀ ops s
  deep : s.pc.inside = true → 0 < s.depth
  outermost : s.saved = none ↔ s.depth = 0
  saved : ∀ sv, s.saved = some sv →
    Called size m₀ ops sv.op sv.before sv.todo sv.done ∧ sv.before = sv.mem

variable {size : ℤ} {m₀ m m' : Memory} {ops : List Op} {s s' : State} {a : Act} {op : Op}
  {C : ℤ → List (Ptr × ℤ)} {n : ℕ} {pc : Pc} {p : Ptr} {r : Ret}

theorem At.inside (h : At size C op n pc) : pc.inside = true := by
  cases h <;> rfl

theorem At.run_eq (h : At size C op n s.pc) :
    run size s = (bodyStep size s.mem s.pc).map fun x => { s with mem := x.1, pc := x.2 } := by
  obtain ⟨mem, pc, todo, done, before, depth, saved⟩ := s
  cases h <;> rfl

theorem run_outside (hpc : s.pc = .test op) (hh : ¬ InTable size (hash size op.value)) :
    run size s = none := by
  simp only [run, hpc, bodyStep_outside hh, Option.map_none]

/-! ## What the ends of a transaction return -/

theorem Finished.right_reread (h : Finished size m C op m' (.xend op (.reread p)))
    (hm : Holds size m C) (q : Option Ptr) :
    Call.Right size ⟨op, .item q, m, m'⟩ ∧ ∃ C', Holds size m' C' := by
  cases h with
  | newHead hC hm' => exact ⟨⟨_, rfl, hm.values_append hm'⟩, _, hm'⟩

theorem Finished.right (h : Finished size m C op m' (.xend op (.value r))) (hm : Holds size m C) :
    Call.Right size ⟨op, r, m, m'⟩ ∧ ∃ C', Holds size m' C' := by
  cases h with
  | found hp =>
    exact ⟨⟨_, rfl, hm.values_insert_of_mem (List.mem_map_of_mem hp)⟩, C, hm⟩
  | linked hC hm' => exact ⟨⟨_, rfl, hm.values_append hm'⟩, _, hm'⟩
  | removed hv hm' =>
    exact ⟨⟨_, rfl, hm.values_without hm', Or.inl ⟨rfl, hm.mem_values.mpr hv⟩⟩, _, hm'⟩

theorem Finished.going (h : Finished size m C op m' pc) (hm : Holds size m C) :
    Going size m C op m' pc := by
  cases h with
  | newHead hC hm' => exact .finished (.newHead hC hm')
  | found hp => exact .finished (.found hp)
  | linked hC hm' => exact .finished (.linked hC hm')
  | removed hv hm' => exact .finished (.removed hv hm')
  | absent hv =>
    rename_i v
    have hnot : v ∉ values size m := fun hmem => hv (hm.mem_values.mp hmem)
    exact .ret ⟨v, rfl, (Set.sdiff_singleton_eq_self hnot).symm, Or.inr ⟨rfl, hnot⟩⟩ hm

theorem Going.after {after : After} (h : Finished size m C op m' (.xend op after))
    (hm : Holds size m C) : Going size m C op m' (after.pc op) := by
  cases after with
  | value r =>
    obtain ⟨hright, C', hm'⟩ := h.right hm
    exact .ret hright hm'
  | reread p => exact .reread h

/-! ## The steps -/

theorem inv_init (hm₀ : Holds size m₀ C) (ops : List Op) : Inv size m₀ ops (init m₀ ops) where
  current := .idle rfl ⟨⟨C, hm₀⟩, nofun, rfl, rfl⟩
  deep := fun h => nomatch h
  outermost := iff_of_true rfl rfl
  saved := fun _ h => nomatch h

theorem Ready.returned {before : Memory} {todo : List Op} {done : List Call}
    (h : Called size m₀ ops op before todo done) (hright : Call.Right size ⟨op, r, before, m⟩)
    (hm : Holds size m C) :
    Ready size m₀ ops m todo.tail (done ++ [⟨op, r, before, m⟩]) := by
  obtain ⟨hready, ⟨rest, rfl⟩, -⟩ := h
  refine ⟨⟨C, hm⟩, fun c hc => ?_, hready.connected.concat rfl, ?_⟩
  · rcases List.mem_append.mp hc with hc | hc
    · exact hready.right c hc
    · rw [List.mem_singleton.mp hc]
      exact hright
  · rw [List.map_append, List.append_assoc]
    exact hready.order

/-- The calls of a run begin inside of the array. -/
def State.InRange (size : ℤ) (s : State) : Prop :=
  s.pc = .idle → ∀ op ∈ s.todo.head?, InTable size (hash size op.value)

theorem Inv.run (h : Inv size m₀ ops s) (hrange : s.InRange size) (hs : run size s = some s') :
    Inv size m₀ ops s' := by
  obtain ⟨mem, pc, todo, done, before, depth, saved⟩ := s
  obtain ⟨hcurrent, hdeep, houter, hsaved⟩ := h
  cases hcurrent with
  | idle hpc hready =>
    cases hpc
    cases todo with
    | nil => cases hs
    | cons op rest =>
      cases hs
      obtain ⟨C, hC⟩ := hready.holds
      exact ⟨.call ⟨hready, ⟨rest, rfl⟩, hrange rfl op rfl⟩ hC .xbegin, nofun, houter, hsaved⟩
  | call hcalled hbefore hgoing =>
    rename_i op C
    have hgoing' : Going size before C op mem pc := hgoing
    cases hgoing' with
    | xbegin =>
      cases hs
      refine ⟨.call hcalled hbefore (.body (.test le_rfl)), fun _ => Nat.succ_pos depth, ?_, ?_⟩
      · by_cases hd : depth = 0
        · exact iff_of_false (by simp [hd]) (Nat.succ_ne_zero _)
        · exact iff_of_false (by simpa [hd] using fun h => hd (houter.mp h)) (Nat.succ_ne_zero _)
      · intro sv hsv
        by_cases hd : depth = 0
        · simp only [hd, if_true, Option.some.injEq] at hsv
          subst hsv
          exact ⟨hcalled, rfl⟩
        · simp only [hd, if_false] at hsv
          exact hsaved sv hsv
    | body hat =>
      have hinside := hat.inside
      rw [At.run_eq (s := ⟨_, _, todo, done, _, depth, saved⟩) hat] at hs
      obtain ⟨m', pc', hstep, hend⟩ := hat.progress hbefore hcalled.inTable
      change (bodyStep size mem pc).map _ = _ at hs
      rw [hstep, Option.map_some, Option.some.injEq] at hs
      subst hs
      refine ⟨.call hcalled hbefore ?_, fun _ => hdeep hinside, houter, hsaved⟩
      rcases hend with ⟨rfl, n', -, hat'⟩ | hfinished
      · exact .body hat'
      · exact hfinished.going hbefore
    | finished hfinished =>
      cases depth with
      | zero => cases hs
      | succ depth =>
        cases hs
        refine ⟨.call hcalled hbefore (.after hfinished hbefore), ?_, ?_, ?_⟩
        · rename_i after
          cases after <;> exact fun h => nomatch h
        · by_cases hd : depth = 0
          · exact iff_of_true (if_pos hd) hd
          · exact iff_of_false (by simpa [hd] using fun h => (houter.mp h)) hd
        · intro sv hsv
          by_cases hd : depth = 0
          · simp [hd] at hsv
          · simp only [hd, if_false] at hsv
            exact hsaved sv hsv
    | reread hfinished =>
      obtain ⟨item, -, hs⟩ := Option.map_eq_some_iff.mp hs
      subst hs
      obtain ⟨hright, C', hC'⟩ := hfinished.right_reread hbefore item
      exact ⟨.call hcalled hbefore (.ret hright hC'), nofun, houter, hsaved⟩
    | ret hright hm =>
      cases hs
      exact ⟨.idle rfl (.returned hcalled hright hm), nofun, houter, hsaved⟩

theorem Inv.abort (h : Inv size m₀ ops s) (hs : abort s = some s') : Inv size m₀ ops s' := by
  obtain ⟨sv, hsv, rfl⟩ := Option.map_eq_some_iff.mp hs
  obtain ⟨hcalled, hsame⟩ := h.saved sv hsv
  obtain ⟨C, hC⟩ := hcalled.ready.holds
  refine ⟨.call hcalled hC (.ret (show sv.mem = sv.before from hsame.symm) (hsame ▸ hC)), nofun,
    iff_of_true rfl rfl, fun _ h => nomatch h⟩

theorem Inv.step (h : Inv size m₀ ops s) (hrange : s.InRange size)
    (hs : step size s a = some s') : Inv size m₀ ops s' := by
  cases a with
  | run => exact h.run hrange hs
  | abort => exact h.abort hs

theorem Going.ne_idle (h : Going size m C op m' pc) : pc ≠ .idle := by
  rintro rfl
  cases h with
  | body hat => cases hat

/-- In a call there is always a next step. -/
theorem Inv.progress (h : Inv size m₀ ops s) (hpc : s.pc ≠ .idle) :
    ∃ s', MicroMap.run size s = some s' := by
  obtain ⟨mem, pc, todo, done, before, depth, saved⟩ := s
  obtain ⟨hcurrent, hdeep, -, -⟩ := h
  cases hcurrent with
  | idle hidle _ => exact absurd hidle hpc
  | call hcalled hbefore hgoing =>
    rename_i op C
    have hgoing' : Going size before C op mem pc := hgoing
    cases hgoing' with
    | xbegin => exact ⟨_, rfl⟩
    | body hat =>
      obtain ⟨m', pc', hstep, -⟩ := hat.progress hbefore hcalled.inTable
      rw [At.run_eq (s := ⟨_, _, todo, done, _, depth, saved⟩) hat]
      change ∃ s', (bodyStep size mem pc).map _ = _
      rw [hstep]
      exact ⟨_, rfl⟩
    | finished _ =>
      cases depth with
      | zero => exact absurd (hdeep rfl) (lt_irrefl 0)
      | succ depth => exact ⟨_, rfl⟩
    | reread _ =>
      change ∃ s', (Memory.head size mem (hash size op.value)).map _ = some s'
      rw [Memory.head_some hcalled.inTable]
      exact ⟨_, rfl⟩
    | ret _ _ => exact ⟨_, rfl⟩

end Htmsql.MicroMap
