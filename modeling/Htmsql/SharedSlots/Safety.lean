import Htmsql.SharedSlots.Sharing

/-!
# Which claims of a slot are safe

A slot that a thread has found to be free may not be free any more when the thread writes its data
into it. `Meets` says of a step that this is not so. As long as it holds, the list is the one of
`ThreadsafeList`; the first step for which it does not puts two items into one slot.
-/

namespace Htmsql.SharedSlots

open Chain (Seg firstOr)
open Linearizable (Linearizes SpecRun)
open LinkedList (allocationsSize dummies)
open ThreadsafeList

variable {T : Type} [DecidableEq T] {s s' : State T} {u u' : Sys T}
  {rest rest' : Ptr → Option ListItem} {t : T} {p : Ptr} {n : ListItem} {d : ℤ}
  {L F B : List (Ptr × ℤ)}

/-- If the step is `item->data = data`, the data of the item is -1 still. -/
def Meets (s : State T) : Act T → Prop
  | .call _ _ => True
  | .run t =>
    match s.list.pc t, s.alloc t with
    | .create _, .claim item => (s.list.heap item).map ListItem.data = some (-1)
    | _, _ => True

omit [DecidableEq T] in
theorem meets_claim (ht : s.list.pc t = .create d) (ha : s.alloc t = .claim p) :
    Meets s (.run t) ↔ (s.list.heap p).map ListItem.data = some (-1) := by
  simp only [Meets, ht, ha]

/-- Following `next` from `first`, and `prev` from `last`, leads to NULL, and to no item twice. -/
structure Acyclic (s : Sys T) : Prop where
  forth : ∃ F, s.first = firstOr F none ∧ Seg (fwd s.heap) F none ∧ (F.map Prod.fst).Nodup
  back : ∃ B, s.last = Chain.last B ∧ Seg (bwd s.heap) B.reverse none ∧ (B.map Prod.fst).Nodup

/-- What the list promises: no two items in one slot, the answers of a sequence in a linear order,
and the sequence doubly linked in memory when nobody is inside. -/
structure Sound (s : State T) : Prop where
  /-- no two items are in one slot -/
  distinct : s.live.Nodup
  /-- no value is lost -/
  content : ∃ items, Linearizes listSpec [] s.list.log.hist s.list.log.effects ∧
    SpecRun listSpec [] s.list.log.effects (items.map Prod.snd) ∧
    (s.list.holder = none → IsSequence s.list items ∧ DoublyLinked s.list) ∧
    ∀ x ∈ items, x.1 ∈ s.live
  acyclic : Acyclic s.list

omit [DecidableEq T] in
theorem Sim.shape (h : Sim s u rest) (hinv : Inv u L F B) : Shape s.list L F B := by
  rw [h.list]
  refine hinv.shape.congr rfl rfl rfl (fun p n hn => ?_) fun p hp => ?_
  · show p < u.allocated
    cases hu : u.heap p with
    | none =>
      rw [overlay_heap_none hu] at hn
      rw [h.allocated]
      exact h.bound p n hn
    | some m => exact hinv.shape.fresh p m hu
  · obtain ⟨m, hm⟩ := hinv.shape.mem_alive hp
    rw [overlay_heap hm, hm]

omit [DecidableEq T] in
theorem Shape.acyclic {v : Sys T} (h : Shape v L F B) : Acyclic v :=
  ⟨⟨F, h.first, h.forth, (h.subForth.map Prod.fst).nodup h.nodup⟩,
    ⟨B, h.last, h.back, (h.subBack.map Prod.fst).nodup h.nodup⟩⟩

omit [DecidableEq T] in
theorem Sim.sound (h : Sim s u rest) : Sound s := by
  obtain ⟨L, F, B, hinv⟩ := h.inv
  have hshape := h.shape hinv
  have hlog : s.list.log = u.log := by
    rw [h.list]
    rfl
  refine ⟨h.nodup, ⟨L, ?_, ?_, fun hfree => ?_, fun x hx => ?_⟩, Shape.acyclic hshape⟩
  · rw [hlog]
    exact hinv.clients.log.linearizes
  · rw [hlog]
    exact hinv.clients.log.run
  · rw [h.list] at hfree
    obtain ⟨hF, hB⟩ := hinv.free hfree
    subst hF hB
    exact ⟨hshape.isSequence, hshape.doublyLinked⟩
  · obtain ⟨m, hm, -⟩ := hinv.shape.alive x hx
    refine (h.live x.1).mpr (.inl ?_)
    rw [hm]
    exact Option.some_ne_none m

/-! ## Steps -/

omit [DecidableEq T] in
/-- A step within the scan. -/
theorem Sim.scan (h : Sim s u rest) (t : T) (hlist : s'.list = s.list) (hlive : s'.live = s.live)
    (hslot : (s.alloc t).slot = none) (hslot' : (s'.alloc t).slot = none)
    (halloc : ∀ w, w ≠ t → s'.alloc w = s.alloc w) : Sim s' u rest :=
  h.keep t (hlist.trans h.list) h.inv (.of_heap rfl rfl) (h.pending t) (fun _ _ => rfl) hslot hslot'
    halloc hlive

theorem Sim.moveTo (h : Sim s u rest) (hslot : (s.alloc t).slot = none) {pc : AllocPc}
    (hpc : pc.slot = none) : Sim (s.moveTo t pc) u rest :=
  h.scan t rfl rfl hslot (by rw [alloc_self, hpc]) fun w hw => alloc_of_ne hw _ _

theorem Sim.create (h : Sim s u rest) (hscan : Scan s) (ht : s.list.pc t = .create d)
    (hmeets : Meets s (.run t)) (hs : s.create t d (s.alloc t) = some s') :
    ∃ u' rest', Sim s' u' rest' := by
  have hb := hscan.bounded t
  cases ha : s.alloc t <;> rw [ha] at hs hb
  case begin | read | index =>
    cases hs
    exact ⟨u, rest, h.moveTo (by rw [ha]; rfl) rfl⟩
  case store b c =>
    cases hs
    exact ⟨u, rest, h.scan t rfl rfl (by rw [ha]; rfl) (by rw [alloc_self]; rfl)
      fun w hw => alloc_of_ne hw _ _⟩
  case test b item =>
    obtain ⟨n, -, rfl⟩ := Option.map_eq_some_iff.mp hs
    refine ⟨u, rest, h.moveTo (by rw [ha]; rfl) ?_⟩
    split <;> rfl
  case check b =>
    simp only [State.create] at hs
    split at hs <;> cases hs
    · exact ⟨u, rest, h.moveTo (by rw [ha]; rfl) rfl⟩
    · have hslot : (s.alloc t).slot = none := by rw [ha]; rfl
      exact ⟨u, rest, h.scan t rfl rfl hslot hslot fun _ _ => rfl⟩
  case claim item =>
    cases hs
    have hfree : ∀ n, s.list.heap item = some n → n.data = -1 := by
      intro n hn
      rw [meets_claim ht ha, hn] at hmeets
      exact Option.some.inj hmeets
    obtain ⟨rest', h'⟩ := h.claim ht ha hb hfree
    exact ⟨u, rest', h'⟩
  case initPrev item =>
    cases hs
    obtain ⟨rest', h'⟩ := h.initPrev ha
    exact ⟨u, rest', h'⟩
  case initNext item =>
    cases hs
    obtain ⟨u', h'⟩ := h.initNext ht ha
    exact ⟨u', rest, h'⟩
  case null => cases hs

theorem Sim.run (h : Sim s u rest) (hscan : Scan s) (hmeets : Meets s (.run t))
    (hs : s.run t = some s') : ∃ u' rest', Sim s' u' rest' := by
  unfold State.run at hs
  split at hs
  case h_1 d ht => exact h.create hscan ht hmeets hs
  case h_2 item r ht =>
    cases hs
    exact h.delete ht
  case h_3 ht =>
    -- NULL will be handed to `deleteListItem`
    obtain ⟨l, hl, rfl⟩ := Option.map_eq_some_iff.mp hs
    rw [h.pc] at ht
    have h' : ∃ u', Sim ((s.setList l).moveTo t .null) u' rest :=
      h.list_run (by rw [ht]; nofun) (by rw [ht]; nofun) hl rfl (by rw [alloc_self]; rfl)
        (fun w hw => alloc_of_ne hw _ _) rfl
    exact h'.imp fun u' h' => ⟨rest, h'⟩
  case h_4 r ht =>
    rw [h.pc] at ht
    have hcreate : ∀ d, u.pc t ≠ .create d := by rw [ht]; nofun
    have hslot := h.slot_none hcreate
    split at hs
    · cases hs
      exact ⟨u, rest, h.scan t rfl rfl hslot hslot fun _ _ => rfl⟩
    · obtain ⟨l, hl, rfl⟩ := Option.map_eq_some_iff.mp hs
      have h' : ∃ u', Sim (s.setList l) u' rest :=
        h.list_run hcreate (by rw [ht]; nofun) hl rfl hslot (fun _ _ => rfl) rfl
      exact h'.imp fun u' h' => ⟨rest, h'⟩
  case h_5 hcreate hdelete _ _ =>
    obtain ⟨l, hl, rfl⟩ := Option.map_eq_some_iff.mp hs
    rw [h.pc] at hcreate hdelete
    have h' : ∃ u', Sim (s.setList l) u' rest :=
      h.list_run hcreate hdelete hl rfl (h.slot_none hcreate) (fun _ _ => rfl) rfl
    exact h'.imp fun u' h' => ⟨rest, h'⟩

theorem Sim.step {a : Act T} (h : Sim s u rest) (hscan : Scan s) (hmeets : Meets s a)
    (hs : step s a = some s') : ∃ u' rest', Sim s' u' rest' := by
  cases a with
  | call t op =>
    simp only [SharedSlots.step, Option.ite_none_right_eq_some] at hs
    obtain ⟨⟨-, hop⟩, hs⟩ := hs
    obtain ⟨l, hl, rfl⟩ := Option.map_eq_some_iff.mp hs
    obtain ⟨u', h'⟩ := h.call hop hl
    exact ⟨u', rest, h'⟩
  | run t =>
    simp only [SharedSlots.step, Option.ite_none_right_eq_some] at hs
    exact h.run hscan hmeets hs.2

/-- A claim of a slot that is in use. -/
theorem Sim.unsound {a : Act T} (h : Sim s u rest) (hscan : Scan s) (hmeets : ¬ Meets s a)
    (hs : SharedSlots.step s a = some s') : ¬ s'.live.Nodup := by
  cases a with
  | call t op => exact absurd trivial hmeets
  | run t =>
    simp only [Meets] at hmeets
    split at hmeets
    case h_2 => exact absurd trivial hmeets
    case h_1 d item ht ha =>
      have hb : item < allocationsSize := by
        have hb := hscan.bounded t
        rw [ha] at hb
        exact hb
      simp only [SharedSlots.step, State.run, ht, State.create, ha,
        Option.ite_none_right_eq_some, Option.some.injEq] at hs
      obtain ⟨-, rfl⟩ := hs
      have hmem : item ∈ s.live := by
        rw [h.live]
        by_cases hnone : u.heap item = none
        · obtain ⟨n, hn, hor⟩ := h.free item hb hnone
          refine .inr (hor.resolve_left fun hdata => hmeets ?_)
          rw [h.list, overlay_heap_none hnone, hn, Option.map_some, hdata]
        · exact .inl hnone
      exact fun hnodup => (List.nodup_cons.mp hnodup).1 hmem

/-! ## Runs -/

theorem reach_sim (hr : Run.Reach step (· = (init : State T)) Meets s) :
    Scan s ∧ ∃ u rest, Sim s u rest := by
  refine hr.invariant (I := fun s => Scan s ∧ ∃ u rest, Sim s u rest) ?_ ?_
  · rintro s rfl
    exact ⟨scan_init, _, _, sim_init⟩
  · rintro s a s' ⟨hscan, u, rest, h⟩ hmeets hs
    exact ⟨hscan.step hs, h.step hscan hmeets hs⟩

theorem slots_unshared_iff (hr : Run.Reach step (· = (init : State T)) Meets s) :
    Sound s ∧ ∀ a s', step s a = some s' → (Sound s' ↔ Meets s a) := by
  obtain ⟨hscan, u, rest, h⟩ := reach_sim hr
  refine ⟨h.sound, fun a s' hs => ⟨fun hsound => ?_, fun hmeets => ?_⟩⟩
  · by_contra hmeets
    exact h.unsound hscan hmeets hs hsound.distinct
  · obtain ⟨u', rest', h'⟩ := h.step hscan hmeets hs
    exact h'.sound

instance (s : State T) (a : Act T) : Decidable (Meets s a) := by
  unfold Meets
  split
  · infer_instance
  · split <;> infer_instance

/-- Two threads insert; the second one starts to look for a slot when the first one has claimed its
own. -/
def apartRun : List (Act Bool) :=
  [.call false (.insert 1), .call true (.insert 2), .run false, .run true] ++
    List.replicate 5 (.run false) ++ List.replicate 5 (.run true) ++
    List.replicate 9 (.run false) ++ List.replicate 9 (.run true)

theorem slots_unshared_iff_apart : ∃ s, Run.Reach step (· = (init : State Bool)) Meets s ∧
    s.list.log.hist =
      [.call 0 (.insert 1), .call 1 (.insert 2), .ret 0 (.item 0), .ret 1 (.item 1)] ∧
    Sound s ∧ ∀ a s', step s a = some s' → (Sound s' ↔ Meets s a) := by
  obtain ⟨s, hs, hhist⟩ := Run.exec_result (Run.guarded step Meets) init apartRun
    (·.list.log.hist)
    [.call 0 (.insert 1), .call 1 (.insert 2), .ret 0 (.item 0), .ret 1 (.item 1)] (by decide)
  have hreach : Run.Reach step (· = (init : State Bool)) Meets s := .exec_guarded (.init rfl) hs
  exact ⟨s, hreach, hhist, slots_unshared_iff hreach⟩

/-- Two threads insert, and look at slot 0 at the same time; the one links the item of the other a
second time. -/
def sharedRun : List (Act Bool) :=
  [.call false (.insert 1), .call true (.insert 2), .run false, .run true, .run false, .run true,
    .run false, .run true, .run false, .run true, .run false, .run true] ++
    List.replicate 10 (.run false) ++ List.replicate 10 (.run true)

omit [DecidableEq T] in
/-- An item that is its own successor. -/
theorem not_acyclic_of_self {v : Sys T} (hfirst : v.first = some p) (hn : v.heap p = some n)
    (hnext : n.next = some p) : ¬ Acyclic v := by
  rintro ⟨⟨F, hF, hseg, hnodup⟩, -⟩
  rw [hfirst] at hF
  cases F with
  | nil => cases hF
  | cons x F =>
    obtain ⟨q, e⟩ := x
    obtain rfl : p = q := Option.some.inj hF
    have hp : fwd v.heap p = some n.forth := by rw [fwd, hn, Option.map_some]
    have hnode := hseg.1
    rw [hp, Option.some.injEq] at hnode
    have hsucc : n.next = firstOr F none := congrArg Chain.Node.successor hnode
    rw [hnext] at hsucc
    exact (List.nodup_cons.mp hnodup).1 (Chain.firstOr_mem hsucc.symm)

theorem slot_shared : ∃ s, Run.Reach step (· = (init : State Bool)) (fun _ _ => True) s ∧
    s.list.log.hist =
      [.call 0 (.insert 1), .call 1 (.insert 2), .ret 0 (.item 0), .ret 1 (.item 0)] ∧
    s.live = [0, 0] ∧ ¬ Acyclic s.list ∧
    (∀ p n, Reachable s.list p → s.list.heap p = some n → n.data ≠ 1) ∧ ¬ Sound s := by
  obtain ⟨s, hs, hres⟩ := Run.exec_result step init sharedRun
    (fun s => (s.list.log.hist, s.live, s.list.heap 0, s.list.first, s.list.last))
    ([.call 0 (.insert 1), .call 1 (.insert 2), .ret 0 (.item 0), .ret 1 (.item 0)], [0, 0],
      some ⟨2, some 0, some 0⟩, some 0, some 0) (by decide)
  simp only [Prod.mk.injEq] at hres
  obtain ⟨hhist, hlive, hheap, hfirst, hlast⟩ := hres
  have hreach : ∀ p, Reachable s.list p → p = 0 := by
    intro p hp
    induction hp with
    | first hp => exact Option.some.inj (hp.symm.trans hfirst)
    | last hp => exact Option.some.inj (hp.symm.trans hlast)
    | next _ hn hq ih =>
      rw [ih, hheap, Option.some.injEq] at hn
      rw [← hn] at hq
      exact (Option.some.inj hq).symm
    | prev _ hn hq ih =>
      rw [ih, hheap, Option.some.injEq] at hn
      rw [← hn] at hq
      exact (Option.some.inj hq).symm
  refine ⟨s, .exec (.init rfl) hs, hhist, hlive, not_acyclic_of_self hfirst hheap rfl, ?_, ?_⟩
  · intro p n hp hn
    rw [hreach p hp, hheap, Option.some.injEq] at hn
    rw [← hn]
    decide
  · intro hsound
    have hdistinct := hsound.distinct
    rw [hlive] at hdistinct
    exact absurd hdistinct (by decide)

end Htmsql.SharedSlots
