import Htmsql.HashMap.Sequential
import Htmsql.HashMapRtm.Machine

/-!
# An attempt follows a call of the locked map

Step by step a call does what a call of `HashMap` does, with `_xbegin` and `_xend` where that one
has `lock` and `unlock` (`Sim.run`). The two maps then have the same memory, node for node, and the
same history (`Sim`). `remove` needs for this that `prev_item` is NULL when an attempt begins.
-/

namespace Htmsql.HashMapRtm

open Chain (Node)
open HashMap (Ptr Op Ret Req Sequential hash)

/-- Where `HashMap` is at the same point; there is no such point after `exit`. -/
def Pc.ref : Pc → HashMap.Pc
  | .idle | .exit => .idle
  | .alloc v => .alloc v
  | .retry q _ => .lock q
  | .head q _ => .head q
  | .test q prev item => .test q prev item
  | .next q item => .next q item
  | .link v insertItem prev => .link v insertItem prev
  | .succ v prev item => .succ v prev item
  | .unlink v prev item successor => .unlink v prev item successor
  | .xend q item r => .unlock q.value item r
  | .delete _ item r => .delete item r
  | .ret _ r => .ret r

/-- The two maps look the same; `id` is the number of the call in progress. -/
structure Sim (s : State) (r : HashMap.Sys Unit) : Prop where
  heap : r.heap = s.mem.heap
  item : r.item = s.mem.item
  allocated : r.allocated = s.allocated
  fault : r.fault = s.fault
  pc : r.pc () = s.pc.ref
  hist : r.log.hist = s.hist
  calls : r.log.calls = s.calls
  id : s.pc ≠ .idle → r.id () + 1 = s.calls

variable {size : Nat} {s s' : State} {r r' : HashMap.Sys Unit}

/-! ## What an access leaves as it is -/

/-- All but the memory, the point and `fault`. -/
structure Frame (s s' : State) : Prop where
  allocated : s'.allocated = s.allocated
  failures : s'.failures = s.failures
  saved : s'.saved = s.saved
  discarded : s'.discarded = s.discarded
  hist : s'.hist = s.hist
  calls : s'.calls = s.calls

theorem Frame.access {p : Ptr} {k : Node Ptr Nat → State} (hk : ∀ n, Frame s (k n)) :
    Frame s (s.access p k) := by
  rw [State.access]
  split
  · exact hk _
  · exact ⟨rfl, rfl, rfl, rfl, rfl, rfl⟩

theorem frame_setSuccessor (s : State) (b : Nat) (prev e : Option Ptr) :
    Frame s (s.setSuccessor b prev e) := by
  cases prev with
  | some p => exact .access fun n => ⟨rfl, rfl, rfl, rfl, rfl, rfl⟩
  | none => exact ⟨rfl, rfl, rfl, rfl, rfl, rfl⟩

theorem frame_found (s : State) (prev : Option Ptr) (item : Ptr) (q : Req) :
    Frame s (s.found prev item q) := by
  cases q <;> exact ⟨rfl, rfl, rfl, rfl, rfl, rfl⟩

theorem frame_goTo (s : State) (q : Req) (prev p : Option Ptr) : Frame s (s.goTo q prev p) := by
  cases p with
  | some item => exact ⟨rfl, rfl, rfl, rfl, rfl, rfl⟩
  | none => cases q <;> exact ⟨rfl, rfl, rfl, rfl, rfl, rfl⟩

theorem access_pc {p : Ptr} {k : Node Ptr Nat → State} (hk : ∀ n, (k n).pc = s.pc) :
    (s.access p k).pc = s.pc := by
  rw [State.access]
  split
  · exact hk _
  · rfl

theorem setSuccessor_pc (s : State) (b : Nat) (prev e : Option Ptr) :
    (s.setSuccessor b prev e).pc = s.pc := by
  cases prev with
  | some p => exact access_pc fun _ => rfl
  | none => rfl

theorem delete_pc (s : State) (p : Ptr) : (s.delete p).pc = s.pc := access_pc fun _ => rfl

theorem noteDiscarded_pc (s : State) (p : Ptr) (q : Req) : (s.noteDiscarded p q).pc = s.pc := by
  cases q <;> rfl

/-! ## The moves -/

theorem Sim.goto (h : Sim s r) {p : Pc} (hs : s.pc ≠ .idle) :
    Sim (s.goto p) (r.setPc () p.ref) where
  heap := h.heap
  item := h.item
  allocated := h.allocated
  fault := h.fault
  pc := HashMap.pc_setPc_self _ _ _
  hist := h.hist
  calls := h.calls
  id _ := h.id hs

theorem Sim.effect (h : Sim s r) (op : Op) (res : Ret) : Sim s (r.effect () op res) :=
  ⟨h.heap, h.item, h.allocated, h.fault, h.pc, h.hist, h.calls, h.id⟩

theorem Sim.access (h : Sim s r) {p : Ptr} {k : Node Ptr Nat → State}
    {k' : Node Ptr Nat → HashMap.Sys Unit} (hk : ∀ n, Sim (k n) (k' n)) :
    Sim (s.access p k) (r.access p k') := by
  rw [State.access, HashMap.Sys.access, congrFun h.heap p]
  cases s.mem.heap p with
  | some n => exact hk n
  | none => exact ⟨h.heap, h.item, h.allocated, rfl, h.pc, h.hist, h.calls, h.id⟩

theorem Sim.setHeap (h : Sim s r) (heap : Ptr → Option (Node Ptr Nat)) :
    Sim (s.setMem { s.mem with heap := heap }) { r with heap := heap } :=
  ⟨rfl, h.item, h.allocated, h.fault, h.pc, h.hist, h.calls, h.id⟩

theorem Sim.setSuccessor (h : Sim s r) (b : Nat) (prev e : Option Ptr) :
    Sim (s.setSuccessor b prev e) (r.setSuccessor b prev e) := by
  cases prev with
  | some p =>
    refine h.access fun n => ?_
    rw [h.heap]
    exact h.setHeap _
  | none =>
    rw [State.setSuccessor, HashMap.Sys.setSuccessor, h.item]
    exact ⟨h.heap, rfl, h.allocated, h.fault, h.pc, h.hist, h.calls, h.id⟩

theorem Sim.delete (h : Sim s r) (p : Ptr) : Sim (s.delete p) (r.delete p) := by
  refine h.access fun _ => ?_
  rw [h.heap]
  exact h.setHeap _

theorem Sim.noteLinked (h : Sim s r) (p : Ptr) : Sim (s.noteLinked p) r :=
  ⟨h.heap, h.item, h.allocated, h.fault, h.pc, h.hist, h.calls, h.id⟩

theorem Sim.noteDiscarded (h : Sim s r) (p : Ptr) (q : Req) : Sim (s.noteDiscarded p q) r := by
  cases q <;> exact ⟨h.heap, h.item, h.allocated, h.fault, h.pc, h.hist, h.calls, h.id⟩

theorem Sim.found (h : Sim s r) (hs : s.pc ≠ .idle) (prev : Option Ptr) (item : Ptr) (q : Req) :
    Sim (s.found prev item q) (r.found () prev item q) := by
  cases q with
  | insert v insertItem => exact (h.effect _ _).goto hs
  | remove v => exact h.goto hs
  | contains v => exact (h.effect _ _).goto hs

theorem Sim.goTo (h : Sim s r) (hs : s.pc ≠ .idle) (q : Req) (prev p : Option Ptr) :
    Sim (s.goTo q prev p) (r.goTo () q prev p) := by
  cases p with
  | some item => exact h.goto hs
  | none =>
    cases q with
    | insert v insertItem => exact h.goto hs
    | remove v | contains v => exact (h.effect _ _).goto hs

theorem Sim.alloc (h : Sim s r) (v : Nat) :
    Sim { s with
      mem := { s.mem with heap := Function.update s.mem.heap s.allocated (some ⟨v, none⟩) }
      allocated := s.allocated + 1 } { r with
      heap := Function.update s.mem.heap s.allocated (some ⟨v, none⟩)
      allocated := s.allocated + 1 } :=
  ⟨rfl, h.item, rfl, h.fault, h.pc, h.hist, h.calls, h.id⟩

/-- Where `HashMap` locks and unlocks a bucket, the transaction begins and ends. -/
theorem Sim.setHolder (h : Sim s r) (saved : Option (Memory × Pc)) (holder : Nat → Option Unit) :
    Sim { s with saved := saved } { r with holder := holder } :=
  ⟨h.heap, h.item, h.allocated, h.fault, h.pc, h.hist, h.calls, h.id⟩

theorem Sim.ret (h : Sim s r) (hs : s.pc ≠ .idle) (res : Ret) :
    Sim (({ s with hist := s.hist ++ [.ret (s.calls - 1) res] } : State).goto .idle)
      (({ r with log := r.log.ret (r.id ()) res } : HashMap.Sys Unit).setPc () .idle) := by
  have hid : r.id () = s.calls - 1 := by
    have := h.id hs
    omega
  refine ⟨h.heap, h.item, h.allocated, h.fault, HashMap.pc_setPc_self _ _ _, ?_, h.calls,
    fun hne => (hne rfl).elim⟩
  change r.log.hist ++ _ = _
  rw [h.hist, hid]
  rfl

theorem Sim.call (h : Sim s r) (op : Op) :
    Sim (({ s with
        failures := 0
        hist := s.hist ++ [.call s.calls op]
        calls := s.calls + 1 } : State).goto (entry op))
      (({ r with
        id := Function.update r.id () r.log.calls
        log := r.log.call op } : HashMap.Sys Unit).setPc () op.entry) := by
  have hentry : op.entry = (entry op).ref := by
    cases op <;> rfl
  refine ⟨h.heap, h.item, h.allocated, h.fault, ?_, ?_, ?_, fun _ => ?_⟩
  · rw [hentry]
    exact HashMap.pc_setPc_self _ _ _
  · change r.log.hist ++ [.call r.log.calls op] = _
    rw [h.hist, h.calls]
    rfl
  · exact congrArg (· + 1) h.calls
  · change Function.update r.id () r.log.calls () + 1 = s.calls + 1
    rw [Function.update_self, h.calls]

/-- The current `prev_item` is NULL at `_xbegin` and at the begin of the loop. -/
def Pc.Fresh : Pc → Prop
  | .retry _ prev | .head _ prev => prev = none
  | _ => True

/-- A step of an attempt, or of what comes before and after it, is a step of `HashMap`. -/
theorem Sim.run (h : Sim s r) (hr : Sequential size r) (hf : s.pc.Fresh) (hi : s.pc ≠ .idle)
    (he : s.pc ≠ .exit) :
    ∃ s' r', s.run size = some s' ∧ r.run size () = some r' ∧ Sim s' r' := by
  have hpc := h.pc
  cases hp : s.pc <;> rw [hp] at hpc hf
  case idle => exact (hi hp).elim
  case exit => exact (he hp).elim
  case alloc v =>
    refine ⟨_, _, by rw [State.run, hp], by rw [HashMap.Sys.run, hpc]; rfl, ?_⟩
    rw [h.heap, h.allocated]
    exact (h.alloc v).goto hi
  case retry q prev =>
    obtain ⟨C, m, hinv⟩ := HashMap.sequential_inv hr
    have hfree := hinv.free (by rw [hpc]; rfl) (hash size q.value)
    refine ⟨({ s with saved := some (s.mem, .retry q prev) } : State).goto (.head q prev),
      ({ r with holder := Function.update r.holder (hash size q.value) (some ()) } :
        HashMap.Sys Unit).setPc () (.head q), ?_, ?_, (h.setHolder _ _).goto hi⟩
    · rw [State.run, hp]
    · rw [HashMap.Sys.run, hpc]
      exact if_pos hfree
  case head q prev =>
    refine ⟨_, _, by rw [State.run, hp], by rw [HashMap.Sys.run, hpc]; rfl, ?_⟩
    have hnone : prevItem prev q = none := by
      cases q
      case remove v => exact hf
      all_goals rfl
    rw [hnone, h.item]
    exact h.goTo hi q none _
  case test q prev item =>
    refine ⟨_, _, by rw [State.run, hp], by rw [HashMap.Sys.run, hpc]; rfl, h.access fun n => ?_⟩
    split
    · exact h.found hi prev item q
    · exact h.goto hi
  case next q item =>
    refine ⟨_, _, by rw [State.run, hp], by rw [HashMap.Sys.run, hpc]; rfl, h.access fun n => ?_⟩
    exact h.goTo hi q _ _
  case link v insertItem prev =>
    refine ⟨_, _, by rw [State.run, hp], by rw [HashMap.Sys.run, hpc]; rfl, ?_⟩
    refine (((h.setSuccessor _ prev _).effect _ _).noteLinked insertItem).goto ?_
    exact fun hpc => hi ((setSuccessor_pc s _ prev _).symm.trans hpc)
  case succ v prev item =>
    refine ⟨_, _, by rw [State.run, hp], by rw [HashMap.Sys.run, hpc]; rfl, h.access fun n => ?_⟩
    exact h.goto hi
  case unlink v prev item successor =>
    refine ⟨_, _, by rw [State.run, hp], by rw [HashMap.Sys.run, hpc]; rfl, ?_⟩
    refine ((h.setSuccessor _ prev successor).effect _ _).goto ?_
    rwa [setSuccessor_pc]
  case xend q item res =>
    refine ⟨_, _, by rw [State.run, hp], by rw [HashMap.Sys.run, hpc]; rfl, ?_⟩
    have hafter : HashMap.afterUnlock item res = (afterXend q item res).ref := by
      cases item <;> rfl
    rw [hafter]
    exact (h.setHolder _ _).goto hi
  case delete q item res =>
    refine ⟨_, _, by rw [State.run, hp], by rw [HashMap.Sys.run, hpc]; rfl, ?_⟩
    refine ((h.delete item).noteDiscarded item q).goto ?_
    rwa [noteDiscarded_pc, delete_pc]
  case ret q res =>
    refine ⟨_, _, by rw [State.run, hp], by rw [HashMap.Sys.run, hpc]; rfl, ?_⟩
    exact h.ret hi res

end Htmsql.HashMapRtm
