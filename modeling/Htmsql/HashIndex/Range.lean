import Htmsql.HashIndex.Locked
import Htmsql.MicroMap.Machine

/-!
# The range of the hash

`value % size` has the sign of `value`: for a negative value that is not a multiple of the size it
is no index of the array. In all three maps that is the only thing that goes wrong: a sequence of
calls whose values are not negative, or multiples of the size, stays inside of the array and gives
the results of a set.
-/

namespace Htmsql.MicroMap

open HashIndex
open Run

/-- The values after a call that has returned or thrown. -/
def Call.effect (S : Finset ℤ) (c : Call) : Finset ℤ :=
  match c.op, c.ret with
  | _, .thrown => S
  | .insert v, _ => insert v S
  | .remove v, _ => S.erase v

/-- The result of `remove` says whether the value is in the set; `insert` returns an item. -/
def Call.Answers (S : Finset ℤ) (c : Call) : Prop :=
  match c.op, c.ret with
  | _, .thrown | .insert _, .item _ => True
  | .remove v, .int n => n = if v ∈ S then 1 else 0
  | _, _ => False

/-- The calls of a sequence return, one after the other, what the set says. -/
def Follows : Finset ℤ → List Call → Prop
  | _, [] => True
  | S, c :: calls => c.Answers S ∧ Follows (c.effect S) calls

/-- Wherever transactions are aborted, a sequence of calls on an empty map stays inside of the
array, and `remove` finds exactly the values that were inserted and not removed since. -/
def Correct (size : ℤ) (ops : List Op) : Prop :=
  ∀ s, Reach (step size) (· = init Memory.empty ops) (fun _ _ => True) s →
    Follows ∅ s.done ∧ (s.pc = .idle ∧ s.todo = [] ∨ ∃ s', run size s = some s')

variable {size : ℤ} {m m' : Memory} {ops : List Op} {s : State} {calls : List Call} {c : Call}
  {S : Finset ℤ}

theorem Call.Right.answers (h : c.Right size) (hS : values size c.before = S) :
    c.Answers S ∧ values size c.after = c.effect S := by
  obtain ⟨op, r, before, after⟩ := c
  cases r with
  | thrown =>
    have hsame : after = before := h
    refine ⟨?_, ?_⟩
    · cases op <;> trivial
    · have heffect : Call.effect S ⟨op, .thrown, before, after⟩ = S := by cases op <;> rfl
      rw [heffect, ← hS, hsame]
  | item p =>
    obtain ⟨v, rfl, hvalues⟩ := h
    change values size after = insert v (values size before) at hvalues
    refine ⟨trivial, ?_⟩
    show values size after = ↑(insert v S)
    rw [hvalues, show values size before = S from hS, Finset.coe_insert]
  | int n =>
    obtain ⟨v, rfl, hvalues, hn⟩ := h
    change values size after = values size before \ {v} at hvalues
    change n = 1 ∧ v ∈ values size before ∨ n = 0 ∧ v ∉ values size before at hn
    change values size before = S at hS
    rw [hS, Finset.mem_coe] at hn
    refine ⟨?_, ?_⟩
    · show n = if v ∈ S then 1 else 0
      rcases hn with ⟨rfl, hv⟩ | ⟨rfl, hv⟩
      · exact (if_pos hv).symm
      · exact (if_neg hv).symm
    · show values size after = ↑(S.erase v)
      rw [hvalues, hS, Finset.coe_erase]

theorem follows_of_connected (hright : ∀ c ∈ calls, c.Right size) (h : Connected m calls m')
    (hS : values size m = S) : Follows S calls := by
  induction calls generalizing m S with
  | nil => trivial
  | cons c calls ih =>
    obtain ⟨hbefore, hrest⟩ := h
    obtain ⟨hanswers, hafter⟩ := (hright c List.mem_cons_self).answers (hbefore ▸ hS)
    exact ⟨hanswers, ih (fun d hd => hright d (List.mem_cons_of_mem _ hd)) hrest hafter⟩

theorem Inv.follows (h : Inv size Memory.empty ops s) : Follows ∅ s.done := by
  cases h.current with
  | idle hpc hready =>
    exact follows_of_connected hready.right hready.connected (values_empty size)
  | call hcalled hbefore hgoing =>
    exact follows_of_connected hcalled.ready.right hcalled.ready.connected (values_empty size)

theorem Inv.inRange (h : Inv size m ops s)
    (hops : ∀ op ∈ ops, InTable size (hash size op.value)) : s.InRange size := by
  intro hpc op hop
  cases h.current with
  | idle _ hready =>
    refine hops op ?_
    rw [← hready.order]
    exact List.mem_append_right _ (List.mem_of_mem_head? hop)
  | call hcalled hbefore hgoing => exact absurd hpc hgoing.ne_idle

/-- A call may always be aborted. -/
theorem exec_skip (size : ℤ) {op : Op} {rest : List Op} (hpc : s.pc = .idle) (htodo : s.todo = op :: rest)
    (hdepth : s.depth = 0) :
    ∃ s', exec (step size) s [.run, .run, .abort, .run] = some s' ∧ s'.pc = .idle ∧
      s'.todo = rest ∧ s'.depth = 0 := by
  obtain ⟨mem, pc, todo, done, before, depth, saved⟩ := s
  cases hpc
  cases htodo
  cases hdepth
  exact ⟨_, rfl, rfl, rfl, rfl⟩

theorem exec_begin (size : ℤ) {op : Op} {rest : List Op} (hpc : s.pc = .idle)
    (htodo : s.todo = op :: rest) :
    ∃ s', exec (step size) s [.run, .run] = some s' ∧ s'.pc = .test op := by
  obtain ⟨mem, pc, todo, done, before, depth, saved⟩ := s
  cases hpc
  cases htodo
  exact ⟨_, rfl, rfl⟩

theorem reach_call {op : Op} {pre rest : List Op} (hpc : s.pc = .idle)
    (htodo : s.todo = pre ++ op :: rest) (hdepth : s.depth = 0)
    (h : Reach (step size) (· = init m ops) (fun _ _ => True) s) :
    ∃ s', Reach (step size) (· = init m ops) (fun _ _ => True) s' ∧ s'.pc = .test op := by
  induction pre generalizing s with
  | nil =>
    obtain ⟨s', hs', hpc'⟩ := exec_begin size hpc htodo
    exact ⟨s', h.exec hs', hpc'⟩
  | cons o pre ih =>
    obtain ⟨s', hs', hpc', htodo', hdepth'⟩ := exec_skip size hpc htodo hdepth
    exact ih hpc' htodo' hdepth' (h.exec hs')

theorem correct_iff (size : ℤ) (ops : List Op) :
    Correct size ops ↔ ∀ op ∈ ops, InTable size (hash size op.value) := by
  constructor
  · intro h op hop
    obtain ⟨pre, rest, rfl⟩ := List.append_of_mem hop
    obtain ⟨s, hs, hpc⟩ : ∃ s, Reach (step size) (· = init Memory.empty (pre ++ op :: rest))
        (fun _ _ => True) s ∧ s.pc = .test op := reach_call rfl rfl rfl (.init rfl)
    rcases (h s hs).2 with ⟨hidle, -⟩ | hrun
    · rw [hpc] at hidle
      cases hidle
    · by_contra hh
      obtain ⟨s', hs'⟩ := hrun
      rw [run_outside hpc hh] at hs'
      cases hs'
  · intro hops s hs
    have hinv : Inv size Memory.empty ops s := by
      refine hs.invariant ?_ ?_
      · rintro s rfl
        exact inv_init (holds_empty size) ops
      · intro s a s' hinv _ hstep
        exact hinv.step (hinv.inRange hops) hstep
    refine ⟨hinv.follows, ?_⟩
    by_cases hpc : s.pc = .idle
    · cases htodo : s.todo with
      | nil => exact Or.inl ⟨hpc, rfl⟩
      | cons op rest =>
        right
        simp only [run, hpc, htodo]
        exact ⟨_, rfl⟩
    · exact Or.inr (hinv.progress hpc)

end Htmsql.MicroMap

namespace Htmsql.HashIndex

/-- The three maps keep inside of their arrays, and find what they should, in exactly those
sequences of calls whose values are not negative or multiples of the size. -/
theorem index_in_range_iff {size : ℤ} (hsize : 1 ≤ size) :
    (∀ ops : List Op, Correct (Bucket.run size) ops ↔
      ∀ op ∈ ops, 0 ≤ op.value ∨ size ∣ op.value) ∧
    (∀ ops : List Op, Correct (Global.run size) ops ↔
      ∀ op ∈ ops, 0 ≤ op.value ∨ size ∣ op.value) ∧
    ∀ ops : List MicroMap.Op, MicroMap.Correct size ops ↔
      ∀ op ∈ ops, 0 ≤ op.value ∨ size ∣ op.value := by
  refine ⟨fun ops => ?_, fun ops => ?_, fun ops => ?_⟩
  · simp only [← inTable_hash_iff hsize]
    exact bucket_correct_iff size ops
  · simp only [← inTable_hash_iff hsize]
    exact global_correct_iff size ops
  · simp only [← inTable_hash_iff hsize]
    exact MicroMap.correct_iff size ops

/-- -20 is in the list of index 0. -/
theorem index_in_range_iff_ten :
    Correct (Bucket.run 10) [.insert (-20), .insert 5, .remove 5, .contains (-20)] ∧
      Correct (Global.run 10) [.insert (-20), .insert 5, .remove 5, .contains (-20)] ∧
      MicroMap.Correct 10 [.insert (-20), .insert 5, .remove 5, .remove 7] := by
  obtain ⟨hbucket, hglobal, hmicro⟩ := index_in_range_iff (show (1 : ℤ) ≤ 10 by decide)
  exact ⟨(hbucket _).mpr (by decide), (hglobal _).mpr (by decide), (hmicro _).mpr (by decide)⟩

/-- The index of -1 is -1. -/
theorem negative_out_of_range :
    hash 10 (-1) = -1 ∧ ¬ Correct (Bucket.run 10) [.insert (-1)] ∧
      ¬ Correct (Global.run 10) [.insert (-1)] ∧ ¬ MicroMap.Correct 10 [.insert (-1)] := by
  refine ⟨by decide, ?_, ?_, ?_⟩
  · rintro ⟨rets, hrets, -⟩
    cases hrets
  · rintro ⟨rets, hrets, -⟩
    cases hrets
  · intro h
    obtain ⟨s, hs, hend⟩ := Run.exec_result (MicroMap.step 10)
      (MicroMap.init Memory.empty [.insert (-1)]) [.run, .run]
      (fun s => (s.pc, (MicroMap.run 10 s).isNone)) (.test (.insert (-1)), true) (by decide)
    obtain ⟨hpc, hnone⟩ := Prod.mk.inj hend
    rcases (h s (Run.Reach.exec (.init rfl) hs)).2 with ⟨hidle, -⟩ | ⟨s', hs'⟩
    · rw [hpc] at hidle
      cases hidle
    · rw [hs'] at hnone
      cases hnone

end Htmsql.HashIndex
