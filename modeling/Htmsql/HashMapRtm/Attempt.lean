import Htmsql.HashMapRtm.Simulation

/-!
# Attempts and what an abort leads back to

`Good` says that the state is that of a sequential run of `HashMap`, that every node that `insert`
has allocated has been linked once or deleted once or is still to be, and that the item that
`insert` is going to return has its value. It is kept by every step (`Inv.run`), and inside a
transaction it holds of the state at `_xbegin` as well (`Inv.attempt`), which is what an abort needs:
at that point `prev_item` is NULL and `insert_item` is neither linked nor deleted.
-/

namespace Htmsql.HashMapRtm

open Chain (Node)
open HashMap (Ptr Op Ret Req Sequential hash)
open Run (Reach exec)

variable {size : Nat} {s s' : State}

/-! ## What holds inside and outside of an attempt -/

/-- The item that `insert` has allocated and neither linked nor deleted. -/
def Pc.insertItem : Pc → Option Ptr
  | .retry q _ | .head q _ | .test q _ _ | .next q _ => q.owned
  | .link _ insertItem _ => some insertItem
  | .xend (.insert _ _) item _ => item
  | .delete (.insert _ _) item _ => some item
  | _ => none

/-- What `insert` returns is a node with its value. -/
def Pc.Result (heap : Ptr → Option (Node Ptr Nat)) : Pc → Prop
  | .xend (.insert v _) item (.item p) => (∃ succ, heap p = some ⟨v, succ⟩) ∧ item ≠ some p
  | .delete (.insert v _) item (.item p) => (∃ succ, heap p = some ⟨v, succ⟩) ∧ item ≠ p
  | .ret (.insert v _) (.item p) => ∃ succ, heap p = some ⟨v, succ⟩
  | _ => True

/-- Each allocated node has been linked once, deleted by `insert` once, or is still to be. -/
def State.Nodes (s : State) : Prop :=
  (s.mem.linked ++ s.discarded ++ s.pc.insertItem.toList).Perm (List.range s.allocated)

/-- The state is one of the sequential map, as far as the operation has got: what it has read is
right and what it owns is its own. -/
structure Good (size : Nat) (s : State) : Prop where
  sim : ∃ r, Sequential size r ∧ Sim s r
  fresh : s.pc.Fresh
  nodes : s.Nodes
  result : s.pc.Result s.mem.heap

/-- The points between `_xbegin` and `_xend`. -/
def Pc.inTransaction : Pc → Bool
  | .head _ _ | .test _ _ _ | .next _ _ | .link _ _ _ | .succ _ _ _ | .unlink _ _ _ _
  | .xend _ _ _ => true
  | _ => false

/-- The invariant of the machine: until `exit` the state is good, an abort leads back to a good
one, and the failures never exceed `MAX_RETRIES`. -/
structure Inv (size : Nat) (s : State) : Prop where
  good : s.pc ≠ .exit → Good size s
  /-- what an abort leads back to -/
  attempt : ∀ m p, s.saved = some (m, p) →
    (∃ q, p = .retry q none) ∧ Good size ((s.setMem m).goto p)
  transaction : s.saved.isSome = s.pc.inTransaction
  failures : s.failures ≤ maxRetries
  exit : s.pc = .exit ↔ s.failures = maxRetries
  fault : s.fault = false

theorem Good.congr (h : Good size s) (hmem : s'.mem = s.mem) (hallocated : s'.allocated = s.allocated)
    (hfault : s'.fault = s.fault) (hpc : s'.pc = s.pc) (hdiscarded : s'.discarded = s.discarded)
    (hhist : s'.hist = s.hist) (hcalls : s'.calls = s.calls) : Good size s' := by
  obtain ⟨r, hr, hsim⟩ := h.sim
  refine ⟨⟨r, hr, ?_⟩, ?_, ?_, ?_⟩
  · refine ⟨?_, ?_, ?_, ?_, ?_, ?_, ?_, ?_⟩
    · rw [hmem, hsim.heap]
    · rw [hmem, hsim.item]
    · rw [hallocated, hsim.allocated]
    · rw [hfault, hsim.fault]
    · rw [hpc, hsim.pc]
    · rw [hhist, hsim.hist]
    · rw [hcalls, hsim.calls]
    · rw [hpc, hcalls]
      exact hsim.id
  · rw [hpc]
    exact h.fresh
  · have hnodes := h.nodes
    rw [State.Nodes] at hnodes ⊢
    rw [hmem, hdiscarded, hpc, hallocated]
    exact hnodes
  · rw [hpc, hmem]
    exact h.result

theorem Good.fault (h : Good size s) : s.fault = false := by
  obtain ⟨r, hr, hsim⟩ := h.sim
  obtain ⟨C, m, hinv⟩ := HashMap.sequential_inv hr
  rw [← hsim.fault]
  exact hinv.shape.fault

theorem access_some {p : Ptr} {n : Node Ptr Nat} (h : s.mem.heap p = some n)
    (k : Node Ptr Nat → State) : s.access p k = k n := by
  rw [State.access, h]

/-- The item that the loop looks at is there. -/
theorem Good.item (h : Good size s) {item : Ptr}
    (hp : (∃ q prev, s.pc = .test q prev item) ∨ (∃ q, s.pc = .next q item) ∨
      ∃ v prev, s.pc = .succ v prev item) : ∃ n, s.mem.heap item = some n := by
  obtain ⟨r, hr, hsim⟩ := h.sim
  obtain ⟨C, m, hinv⟩ := HashMap.sequential_inv hr
  have hpos := hinv.position ()
  rw [hsim.pc] at hpos
  have hmem : ∃ b, item ∈ (C b).map Prod.fst := by
    rcases hp with ⟨q, prev, hp⟩ | ⟨q, hp⟩ | ⟨v, prev, hp⟩ <;> rw [hp] at hpos
    · obtain ⟨l₁, d, l₂, hC, -⟩ := hpos
      exact ⟨_, by rw [hC]; simp⟩
    · obtain ⟨l₁, d, l₂, hC, -⟩ := hpos
      exact ⟨_, by rw [hC]; simp⟩
    · obtain ⟨l₁, l₂, hC, -⟩ := hpos
      exact ⟨_, by rw [hC]; simp⟩
  obtain ⟨b, hb⟩ := hmem
  obtain ⟨n, hn⟩ := hinv.shape.alive hb
  exact ⟨n, by rw [← hsim.heap, hn]⟩

theorem Good.of_run (h : Good size s) (hi : s.pc ≠ .idle) (he : s.pc ≠ .exit)
    (hs : s.run size = some s') (hfresh : s'.pc.Fresh) (hnodes : s'.Nodes)
    (hresult : s'.pc.Result s'.mem.heap) : Good size s' := by
  obtain ⟨r, hr, hsim⟩ := h.sim
  obtain ⟨s₁, r', hs₁, hr', hsim'⟩ := hsim.run hr h.fresh hi he
  obtain rfl := Option.some.inj (hs₁.symm.trans hs)
  have hstep : HashMap.step size r (.run ()) = some r' := hr'
  exact ⟨⟨r', hr.step trivial hstep, hsim'⟩, hfresh, hnodes, hresult⟩

/-- A step inside the transaction. -/
theorem Inv.inside (h : Inv size s) (hg : Good size s') (hf : Frame s s')
    (ht : s.pc.inTransaction = true) (ht' : s'.pc.inTransaction = true) : Inv size s' := by
  have hne : ∀ {p : Pc}, p.inTransaction = true → p ≠ .exit := by
    rintro _ hp rfl
    cases hp
  have hmax : s.failures ≠ maxRetries := fun hm => hne ht (h.exit.mpr hm)
  refine ⟨fun _ => hg, fun m p hm => ?_, ?_, ?_, ?_, hg.fault⟩
  · rw [hf.saved] at hm
    obtain ⟨hp, hgood⟩ := h.attempt m p hm
    refine ⟨hp, hgood.congr rfl hf.allocated ?_ rfl hf.discarded hf.hist hf.calls⟩
    exact hg.fault.trans h.fault.symm
  · rw [hf.saved, h.transaction, ht, ht']
  · rw [hf.failures]
    exact h.failures
  · rw [hf.failures]
    exact ⟨fun hp => (hne ht' hp).elim, fun hm => (hmax hm).elim⟩

/-- A step outside of the transaction, or its last one. -/
theorem Inv.outside (h : Inv size s) (he : s.pc ≠ .exit) (hg : Good size s')
    (hsaved : s'.saved = none) (hf : s'.failures = s.failures)
    (ht' : s'.pc.inTransaction = false) (he' : s'.pc ≠ .exit) : Inv size s' := by
  have hmax : s.failures ≠ maxRetries := fun hm => he (h.exit.mpr hm)
  refine ⟨fun _ => hg, fun m p hm => ?_, ?_, ?_, ?_, hg.fault⟩
  · rw [hsaved] at hm
    cases hm
  · rw [hsaved, ht']
    rfl
  · rw [hf]
    exact h.failures
  · rw [hf]
    exact ⟨fun hp => (he' hp).elim, fun hm => (hmax hm).elim⟩

theorem Inv.saved_none (h : Inv size s) (ht : s.pc.inTransaction = false) : s.saved = none := by
  have := h.transaction
  rw [ht] at this
  cases hs : s.saved with
  | none => rfl
  | some x =>
    rw [hs] at this
    cases this

/-! ## The steps of a call -/

theorem frame_delete (s : State) (p : Ptr) : Frame s (s.delete p) :=
  .access fun _ => ⟨rfl, rfl, rfl, rfl, rfl, rfl⟩

theorem setSuccessor_linked (s : State) (b : Nat) (prev e : Option Ptr) :
    (s.setSuccessor b prev e).mem.linked = s.mem.linked := by
  cases prev with
  | none => rfl
  | some p =>
    rw [State.setSuccessor, State.access]
    split <;> rfl

theorem setSuccessor_heap {b : Nat} {prev e : Option Ptr} {p : Ptr} (hp : prev ≠ some p) :
    (s.setSuccessor b prev e).mem.heap p = s.mem.heap p := by
  cases prev with
  | none => rfl
  | some p' =>
    rw [State.setSuccessor, State.access]
    split
    · exact Function.update_of_ne (fun heq => hp (by rw [heq])) _ _
    · rfl

theorem delete_linked (s : State) (p : Ptr) : (s.delete p).mem.linked = s.mem.linked := by
  rw [State.delete, State.access]
  split <;> rfl

theorem delete_heap {p item : Ptr} (hp : p ≠ item) :
    (s.delete item).mem.heap p = s.mem.heap p := by
  rw [State.delete, State.access]
  split
  · exact Function.update_of_ne hp _ _
  · rfl

/-- The points that the loop leads to. -/
structure Ahead (heap : Ptr → Option (Node Ptr Nat)) (q : Req) (p : Pc) : Prop where
  transaction : p.inTransaction = true
  fresh : p.Fresh
  insertItem : p.insertItem = q.owned
  result : p.Result heap

theorem goTo_ahead (s : State) (q : Req) (prev p : Option Ptr) :
    Ahead s.mem.heap q (s.goTo q prev p).pc ∧ (s.goTo q prev p).mem = s.mem := by
  cases p with
  | some item => exact ⟨⟨rfl, trivial, rfl, trivial⟩, rfl⟩
  | none => cases q <;> exact ⟨⟨rfl, trivial, rfl, trivial⟩, rfl⟩

theorem found_ahead (prev : Option Ptr) {item : Ptr} {q : Req} {n : Node Ptr Nat}
    (hn : s.mem.heap item = some n) (hv : n.data = q.value) (hne : q.owned ≠ some item) :
    Ahead s.mem.heap q (s.found prev item q).pc ∧ (s.found prev item q).mem = s.mem := by
  cases q with
  | insert v insertItem =>
    have hv' : n.data = v := hv
    refine ⟨⟨rfl, trivial, rfl, ⟨n.successor, ?_⟩, hne⟩, rfl⟩
    rw [hn, ← hv']
  | remove v | contains v => exact ⟨⟨rfl, trivial, rfl, trivial⟩, rfl⟩

/-- A step that leads further in the loop and writes nothing. -/
theorem Inv.ahead (h : Inv size s) {q : Req} (hrun : s.run size = some s')
    (ht : s.pc.inTransaction = true) (hi : s.pc.insertItem = q.owned) (hf : Frame s s')
    (hmem : s'.mem = s.mem) (ha : Ahead s.mem.heap q s'.pc) : Inv size s' := by
  have hne : ∀ {p : Pc}, p.inTransaction = true → p ≠ .idle ∧ p ≠ .exit := by
    intro p hp
    refine ⟨?_, ?_⟩ <;> (rintro rfl; cases hp)
  have hg := h.good (hne ht).2
  refine h.inside (hg.of_run (hne ht).1 (hne ht).2 hrun ha.fresh ?_ ?_) hf ht ha.transaction
  · have hnodes := hg.nodes
    rw [State.Nodes] at hnodes ⊢
    rwa [hmem, hf.discarded, hf.allocated, ha.insertItem, ← hi]
  · rw [hmem]
    exact ha.result

/-- The item of an `insert` that is in its transaction is none of the items of the list. -/
theorem Good.apart (h : Good size s) {q : Req} {prev : Option Ptr} {item : Ptr}
    (hp : s.pc = .test q prev item) : q.owned ≠ some item := by
  obtain ⟨r, hr, hsim⟩ := h.sim
  obtain ⟨C, m, hinv⟩ := HashMap.sequential_inv hr
  have hpos := hinv.position ()
  have howned := hinv.owned () item
  rw [hsim.pc, hp] at hpos howned
  obtain ⟨l₁, d, l₂, hC, -⟩ := hpos
  intro hq
  exact (howned hq).2 (hash size q.value) (by rw [hC]; simp)

/-- Where `insert` links its item. -/
theorem Good.atLink (h : Good size s) {v : Nat} {insertItem : Ptr} {prev : Option Ptr}
    (hp : s.pc = .link v insertItem prev) :
    s.mem.heap insertItem = some ⟨v, none⟩ ∧ prev ≠ some insertItem := by
  obtain ⟨r, hr, hsim⟩ := h.sim
  obtain ⟨C, m, hinv⟩ := HashMap.sequential_inv hr
  have hpc : r.pc () = .link v insertItem prev := by rw [hsim.pc, hp]; rfl
  obtain ⟨hready, ⟨hprev, -⟩, -⟩ := hinv.at hpc
  have howned := hinv.owned () insertItem
  rw [hpc] at howned
  refine ⟨by rw [← hsim.heap]; exact hready, fun heq => ?_⟩
  rw [hprev] at heq
  exact (howned rfl).2 _ (Chain.last_mem heq)

/-- The item is in the list, and so among those that have been linked. -/
theorem Inv.link (h : Inv size s) {v : Nat} {insertItem : Ptr} {prev : Option Ptr}
    (hp : s.pc = .link v insertItem prev) (hs : s.run size = some s') : Inv size s' := by
  have hg := h.good (by simp [hp])
  have hnodes := hg.nodes
  have hrun := hg.of_run (by simp [hp]) (by simp [hp]) hs
  simp only [State.Nodes, hp] at hnodes
  simp only [State.run, hp, Option.some.injEq] at hs
  subst hs
  obtain ⟨hready, hprev⟩ := hg.atLink hp
  have hf := frame_setSuccessor s (hash size v) prev (some insertItem)
  refine h.inside (hrun trivial ?_ ?_) ⟨hf.allocated, hf.failures, hf.saved, hf.discarded,
    hf.hist, hf.calls⟩ (by rw [hp]; rfl) rfl
  · change ((s.setSuccessor _ prev _).mem.linked ++ [insertItem] ++
      (s.setSuccessor _ prev _).discarded ++ []).Perm (List.range (s.setSuccessor _ prev _).allocated)
    rw [setSuccessor_linked, hf.discarded, hf.allocated, List.append_nil]
    refine List.Perm.trans ?_ hnodes
    rw [List.append_assoc, List.append_assoc]
    exact List.Perm.append_left _ List.perm_append_comm
  · refine ⟨⟨none, ?_⟩, by simp⟩
    exact (setSuccessor_heap hprev).trans hready

theorem Inv.unlink (h : Inv size s) {v : Nat} {item : Ptr} {prev successor : Option Ptr}
    (hp : s.pc = .unlink v prev item successor) (hs : s.run size = some s') : Inv size s' := by
  have hg := h.good (by simp [hp])
  have hnodes := hg.nodes
  have hrun := hg.of_run (by simp [hp]) (by simp [hp]) hs
  simp only [State.Nodes, hp] at hnodes
  simp only [State.run, hp, Option.some.injEq] at hs
  subst hs
  have hf := frame_setSuccessor s (hash size v) prev successor
  refine h.inside (hrun trivial ?_ trivial) ⟨hf.allocated, hf.failures, hf.saved, hf.discarded,
    hf.hist, hf.calls⟩ (by rw [hp]; rfl) rfl
  change ((s.setSuccessor _ prev _).mem.linked ++ (s.setSuccessor _ prev _).discarded ++ []).Perm
    (List.range (s.setSuccessor _ prev _).allocated)
  rw [setSuccessor_linked, hf.discarded, hf.allocated]
  exact hnodes

/-- After `_xend` an item that has not been linked is still to be deleted. -/
theorem Inv.xend (h : Inv size s) {q : Req} {item : Option Ptr} {res : Ret}
    (hp : s.pc = .xend q item res) (hs : s.run size = some s') : Inv size s' := by
  have hg := h.good (by simp [hp])
  have hnodes := hg.nodes
  have hrun := hg.of_run (by simp [hp]) (by simp [hp]) hs
  simp only [State.Nodes, hp] at hnodes
  simp only [State.run, hp, Option.some.injEq] at hs
  have he : s.pc ≠ .exit := by simp [hp]
  have hresult := hg.result
  simp only [hp] at hresult
  subst hs
  have hafter : (afterXend q item res).insertItem = (Pc.xend q item res).insertItem ∧
      (afterXend q item res).inTransaction = false ∧ (afterXend q item res).Fresh ∧
      (afterXend q item res) ≠ .exit := by
    cases q <;> cases item <;> exact ⟨rfl, rfl, trivial, by simp [afterXend]⟩
  obtain ⟨hins, htx, hfresh, hexit⟩ := hafter
  refine h.outside he (hrun hfresh ?_ ?_) rfl rfl htx hexit
  · change (s.mem.linked ++ s.discarded ++ (afterXend q item res).insertItem.toList).Perm _
    rw [hins]
    exact hnodes
  · change (afterXend q item res).Result s.mem.heap
    cases q with
    | insert v insertItem =>
      cases res with
      | item p =>
        cases item with
        | none => exact hresult.1
        | some p' => exact ⟨hresult.1, fun heq => hresult.2 (by rw [heq])⟩
      | int n => cases item <;> trivial
    | remove v | contains v => cases item <;> trivial

theorem Inv.delete (h : Inv size s) {q : Req} {item : Ptr} {res : Ret}
    (hp : s.pc = .delete q item res) (hs : s.run size = some s') : Inv size s' := by
  have hg := h.good (by simp [hp])
  have hnodes := hg.nodes
  have hrun := hg.of_run (by simp [hp]) (by simp [hp]) hs
  simp only [State.Nodes, hp] at hnodes
  simp only [State.run, hp, Option.some.injEq] at hs
  have he : s.pc ≠ .exit := by simp [hp]
  have hresult := hg.result
  simp only [hp] at hresult
  subst hs
  have hf := frame_delete s item
  have hnone := h.saved_none (by rw [hp]; rfl)
  cases q with
  | insert v insertItem =>
    refine h.outside he (hrun trivial ?_ ?_) (hf.saved.trans hnone) hf.failures rfl
      (by simp [State.goto])
    · change ((s.delete item).mem.linked ++ ((s.delete item).discarded ++ [item]) ++ []).Perm
        (List.range (s.delete item).allocated)
      rw [delete_linked, hf.discarded, hf.allocated, List.append_nil, ← List.append_assoc]
      exact hnodes
    · cases res with
      | item p =>
        obtain ⟨⟨succ, hnode⟩, hne⟩ := hresult
        exact ⟨succ, (delete_heap (Ne.symm hne)).trans hnode⟩
      | int n => trivial
  | remove v | contains v =>
    refine h.outside he (hrun trivial ?_ trivial) (hf.saved.trans hnone) hf.failures rfl
      (by simp [State.goto])
    change ((s.delete item).mem.linked ++ (s.delete item).discarded ++ []).Perm
      (List.range (s.delete item).allocated)
    rw [delete_linked, hf.discarded, hf.allocated]
    exact hnodes

theorem Inv.run (h : Inv size s) (hs : s.run size = some s') : Inv size s' := by
  have hi : s.pc ≠ .idle := by
    intro hp
    simp [State.run, hp] at hs
  have he : s.pc ≠ .exit := by
    intro hp
    simp [State.run, hp] at hs
  have hg := h.good he
  have hrun := hg.of_run hi he hs
  have hnodes := hg.nodes
  have hsome := hs
  cases hp : s.pc <;> simp only [State.Nodes, hp] at hnodes <;>
    simp only [State.run, hp, reduceCtorEq, Option.some.injEq] at hs
  case alloc v =>
    subst hs
    refine h.outside he (hrun rfl ?_ trivial) (h.saved_none (by rw [hp]; rfl)) rfl rfl
      (by simp [State.goto])
    change (s.mem.linked ++ s.discarded ++ [s.allocated]).Perm (List.range (s.allocated + 1))
    rw [List.range_succ]
    exact List.Perm.append_right [s.allocated] (by simpa [Pc.insertItem] using hnodes)
  case retry q prev =>
    have hfresh := hg.fresh
    rw [hp] at hfresh
    obtain rfl : prev = none := hfresh
    subst hs
    have hg' := hrun rfl hnodes trivial
    refine ⟨fun _ => hg', fun m p hm => ?_, rfl, h.failures, ?_, h.fault⟩
    · cases hm
      exact ⟨⟨q, rfl⟩, hg.congr rfl rfl rfl hp.symm rfl rfl rfl⟩
    · exact ⟨fun hpc => (by cases hpc), fun hm => (he (h.exit.mpr hm)).elim⟩
  case head q prev =>
    subst hs
    obtain ⟨hahead, hmem⟩ := goTo_ahead s q (prevItem prev q) (s.mem.item (hash size q.value))
    exact h.ahead hsome (by rw [hp]; rfl) (by rw [hp]; rfl) (frame_goTo _ _ _ _) hmem hahead
  case test q prev item =>
    obtain ⟨n, hn⟩ := hg.item (Or.inl ⟨q, prev, hp⟩)
    rw [access_some hn] at hs
    split at hs
    · rename_i hv
      subst hs
      obtain ⟨hahead, hmem⟩ := found_ahead prev hn hv (hg.apart hp)
      exact h.ahead hsome (by rw [hp]; rfl) (by rw [hp]; rfl) (frame_found _ _ _ _) hmem hahead
    · subst hs
      exact h.ahead (q := q) hsome (by rw [hp]; rfl) (by rw [hp]; rfl)
        ⟨rfl, rfl, rfl, rfl, rfl, rfl⟩ rfl ⟨rfl, trivial, rfl, trivial⟩
  case next q item =>
    obtain ⟨n, hn⟩ := hg.item (Or.inr (Or.inl ⟨q, hp⟩))
    rw [access_some hn] at hs
    subst hs
    obtain ⟨hahead, hmem⟩ := goTo_ahead s q (some item) n.successor
    exact h.ahead hsome (by rw [hp]; rfl) (by rw [hp]; rfl) (frame_goTo _ _ _ _) hmem hahead
  case link v insertItem prev => exact h.link hp hsome
  case succ v prev item =>
    obtain ⟨n, hn⟩ := hg.item (Or.inr (Or.inr ⟨v, prev, hp⟩))
    rw [access_some hn] at hs
    subst hs
    exact h.ahead (q := .remove v) hsome (by rw [hp]; rfl) (by rw [hp]; rfl)
      ⟨rfl, rfl, rfl, rfl, rfl, rfl⟩ rfl ⟨rfl, trivial, rfl, trivial⟩
  case unlink v prev item successor => exact h.unlink hp hsome
  case xend q item res => exact h.xend hp hsome
  case delete q item res => exact h.delete hp hsome
  case ret q res =>
    subst hs
    refine h.outside he (hrun trivial ?_ trivial) (h.saved_none (by rw [hp]; rfl)) rfl rfl
      (by simp [State.goto])
    cases q <;> exact hnodes

end Htmsql.HashMapRtm
