import Htmsql.SharedSlots.Overlay

/-!
# The slots of the items and the slots of the allocator

`Sim s u rest` splits the memory of the state `s` in two: `u` is the list with its items only, as in
`ThreadsafeList`, and `rest` has the slots that are free and those that a thread has claimed and is
still initialising. A step of the list is a step of `u`; a slot goes over to `u` when
`createListItem` is done with it, and back with `deleteListItem`. This is so as long as no
thread claims a slot that is not free any more (`Meets`).
-/

namespace Htmsql.SharedSlots

open LinkedList (allocationsSize dummies)
open ThreadsafeList (Ptr ListItem Op Ret Act Pc Sys Inv Search)

/-! ## The scan -/

/-- The slot that the thread has claimed and not initialised yet. -/
def AllocPc.slot : AllocPc → Option Ptr
  | .initPrev item | .initNext item => some item
  | _ => none

/-- What the thread looks at are slots. -/
def AllocPc.Bounded (cursor : ℤ) : AllocPc → Prop
  | .store _ c => -1 ≤ c ∧ c < allocationsSize
  | .index _ => 0 ≤ cursor
  | .test _ item | .claim item => item < allocationsSize
  | _ => True

variable {T : Type} [DecidableEq T]

/-- The cursor is a slot or -1, and is never -1 again. -/
structure Scan (s : State T) : Prop where
  lower : -1 ≤ s.cursor
  upper : s.cursor < allocationsSize
  bounded : ∀ t, (s.alloc t).Bounded s.cursor

variable {s s' : State T} {u u' : Sys T} {rest rest' : Ptr → Option ListItem} {t : T} {p : Ptr}
  {n : ListItem} {d : ℤ}

theorem alloc_self (s : State T) (t : T) (pc : AllocPc) : (s.moveTo t pc).alloc t = pc :=
  Function.update_self _ _ _

theorem alloc_of_ne {w : T} (hw : w ≠ t) (s : State T) (pc : AllocPc) :
    (s.moveTo t pc).alloc w = s.alloc w := Function.update_of_ne hw _ _

omit [DecidableEq T] in
theorem scan_init : Scan (init : State T) :=
  ⟨Int.le_refl (-1), Int.negSucc_lt_zero 0 |>.trans (by decide), fun _ => trivial⟩

theorem AllocPc.Bounded.mono {pc : AllocPc} {c c' : ℤ} (h : pc.Bounded c) (hc : 0 ≤ c → 0 ≤ c') :
    pc.Bounded c' := by
  cases pc
  case index => exact hc h
  all_goals exact h

theorem Scan.update (h : Scan s) (t : T) (hlower : -1 ≤ s'.cursor)
    (hupper : s'.cursor < allocationsSize) (hcursor : 0 ≤ s.cursor → 0 ≤ s'.cursor)
    (hother : ∀ w, w ≠ t → s'.alloc w = s.alloc w) (hself : (s'.alloc t).Bounded s'.cursor) :
    Scan s' := by
  refine ⟨hlower, hupper, fun w => ?_⟩
  by_cases hw : w = t
  · rw [hw]
    exact hself
  · rw [hother w hw]
    exact (h.bounded w).mono hcursor

/-- A step that leaves the cursor alone. -/
theorem Scan.moveTo {pc : AllocPc} (h : Scan s) (hcursor : s'.cursor = s.cursor)
    (halloc : s'.alloc = Function.update s.alloc t pc) (hpc : pc.Bounded s.cursor) : Scan s' := by
  refine h.update t ?_ ?_ ?_ (fun w hw => ?_) ?_
  · exact hcursor ▸ h.lower
  · exact hcursor ▸ h.upper
  · exact hcursor ▸ id
  · rw [halloc, Function.update_of_ne hw]
  · rw [halloc, Function.update_self, hcursor]
    exact hpc

omit [DecidableEq T] in
theorem Scan.keep (h : Scan s) (hcursor : s'.cursor = s.cursor) (halloc : s'.alloc = s.alloc) :
    Scan s' :=
  ⟨hcursor ▸ h.lower, hcursor ▸ h.upper, fun t => by rw [halloc, hcursor]; exact h.bounded t⟩

theorem Scan.create (h : Scan s) (hs : s.create t d (s.alloc t) = some s') : Scan s' := by
  have hb := h.bounded t
  cases ht : s.alloc t <;> rw [ht] at hs hb
  case begin =>
    cases hs
    exact h.moveTo rfl rfl trivial
  case read b =>
    cases hs
    exact h.moveTo rfl rfl ⟨h.lower, h.upper⟩
  case store b c =>
    cases hs
    obtain ⟨hlower, hupper⟩ := hb
    have hpos : (0 : ℤ) ≤ (c + 1) % allocationsSize := Int.emod_nonneg _ (by decide)
    refine h.update t ?_ (Int.emod_lt_of_pos _ (by decide)) (fun _ => hpos)
      (fun w hw => alloc_of_ne hw _ _) ?_
    · show (-1 : ℤ) ≤ (c + 1) % allocationsSize
      omega
    · rw [alloc_self]
      exact hpos
  case index b =>
    cases hs
    refine h.moveTo rfl rfl ?_
    show s.cursor.toNat < allocationsSize
    have hupper := h.upper
    have hpos : 0 ≤ s.cursor := hb
    omega
  case test b item =>
    obtain ⟨n, -, rfl⟩ := Option.map_eq_some_iff.mp hs
    refine h.moveTo rfl rfl ?_
    split
    · exact hb
    · trivial
  case check b =>
    simp only [State.create] at hs
    split at hs <;> cases hs
    · exact h.moveTo rfl rfl trivial
    · exact h.keep rfl rfl
  case claim | initPrev | initNext =>
    cases hs
    exact h.moveTo rfl rfl trivial
  case null => cases hs

theorem Scan.run (h : Scan s) (hs : s.run t = some s') : Scan s' := by
  unfold State.run at hs
  split at hs
  · exact h.create hs
  · cases hs
    exact h.keep rfl rfl
  · obtain ⟨l, -, rfl⟩ := Option.map_eq_some_iff.mp hs
    exact h.moveTo rfl rfl trivial
  · split at hs
    · cases hs
      exact h.keep rfl rfl
    · obtain ⟨l, -, rfl⟩ := Option.map_eq_some_iff.mp hs
      exact h.keep rfl rfl
  · obtain ⟨l, -, rfl⟩ := Option.map_eq_some_iff.mp hs
    exact h.keep rfl rfl

theorem Scan.step {a : Act T} (h : Scan s) (hs : step s a = some s') : Scan s' := by
  cases a with
  | call t op =>
    simp only [SharedSlots.step, Option.ite_none_right_eq_some] at hs
    obtain ⟨l, -, rfl⟩ := Option.map_eq_some_iff.mp hs.2
    exact h.moveTo rfl rfl trivial
  | run t =>
    simp only [SharedSlots.step, Option.ite_none_right_eq_some] at hs
    exact h.run hs.2

/-! ## The two parts of the memory -/

/-- The run looks like one of the list with fresh memory: the items of that run lie in the same
slots, all others are left over. -/
structure Sim (s : State T) (u : Sys T) (rest : Ptr → Option ListItem) : Prop where
  list : s.list = overlay rest u
  inv : ∃ L F B, Inv u L F B
  allocated : u.allocated = allocationsSize
  bound : ∀ p n, rest p = some n → p < allocationsSize
  nonneg : ∀ p n, u.heap p = some n → 0 ≤ n.data
  pending : ∀ t d, u.pc t = .create d → 0 ≤ d
  free : ∀ p, p < allocationsSize → u.heap p = none →
    ∃ n, rest p = some n ∧ (n.data = -1 ∨ ∃ t, (s.alloc t).slot = some p)
  claimed : ∀ t p, (s.alloc t).slot = some p → p < allocationsSize ∧ u.heap p = none ∧
    ∃ d n, u.pc t = .create d ∧ rest p = some n ∧ n.data = d ∧
      (s.alloc t = .initNext p → n.prev = none)
  apart : ∀ t w p, (s.alloc t).slot = some p → (s.alloc w).slot = some p → t = w
  nodup : s.live.Nodup
  live : ∀ p, p ∈ s.live ↔ u.heap p ≠ none ∨ ∃ t, (s.alloc t).slot = some p

omit [DecidableEq T] in
theorem inv_init :
    Inv ({ ThreadsafeList.init with allocated := allocationsSize } : Sys T) [] [] [] := by
  have h : Inv (ThreadsafeList.init : Sys T) [] [] [] := ThreadsafeList.inv_init
  have hshape : ThreadsafeList.Shape
      ({ ThreadsafeList.init with allocated := allocationsSize } : Sys T) [] [] [] :=
    h.shape.congr rfl rfl rfl nofun fun _ _ => rfl
  exact ⟨hshape, h.free, h.holder, h.owned, h.apart, h.ready, h.position, h.clients⟩

omit [DecidableEq T] in
theorem sim_init : Sim (init : State T) { ThreadsafeList.init with allocated := allocationsSize }
    (dummies allocationsSize) := by
  refine ⟨rfl, ⟨[], [], [], inv_init⟩, rfl, fun p n hn => ?_, nofun, nofun, fun p hp _ => ?_, nofun,
    nofun, List.nodup_nil, fun p => ⟨nofun, ?_⟩⟩
  · unfold dummies at hn
    split at hn
    · assumption
    · cases hn
  · exact ⟨_, if_pos hp, .inl rfl⟩
  · rintro (hne | ⟨t, ht⟩)
    · exact absurd rfl hne
    · cases ht

omit [DecidableEq T] in
theorem Sim.pc (h : Sim s u rest) : s.list.pc = u.pc := by
  rw [h.list]
  rfl

omit [DecidableEq T] in
/-- A thread that has claimed a slot is in `createListItem`. -/
theorem Sim.slot_none (h : Sim s u rest) (ht : ∀ d, u.pc t ≠ .create d) :
    (s.alloc t).slot = none := by
  cases hslot : (s.alloc t).slot with
  | none => rfl
  | some p =>
    obtain ⟨-, -, d, n, hpc, -⟩ := h.claimed t p hslot
    exact absurd hpc (ht d)

omit [DecidableEq T] in
/-- The frame of the steps of thread `t` that neither take nor give back a slot. -/
theorem Sim.keep (h : Sim s u rest) (t : T) (hlist : s'.list = overlay rest u')
    (hinv : ∃ L F B, Inv u' L F B) (hkeeps : Keeps u u')
    (hpending : ∀ d, u'.pc t = .create d → 0 ≤ d) (hpc : ∀ w, w ≠ t → u'.pc w = u.pc w)
    (hslot : (s.alloc t).slot = none) (hslot' : (s'.alloc t).slot = none)
    (halloc : ∀ w, w ≠ t → s'.alloc w = s.alloc w) (hlive : s'.live = s.live) :
    Sim s' u' rest := by
  have heq : ∀ w, (s'.alloc w).slot = (s.alloc w).slot := by
    intro w
    by_cases hw : w = t
    · rw [hw, hslot, hslot']
    · rw [halloc w hw]
  refine ⟨hlist, hinv, hkeeps.allocated.trans h.allocated, h.bound, fun p n hn => ?_,
    fun w d hd => ?_, fun p hp hnone => ?_, fun w p hw => ?_, fun w v p hw hv => ?_,
    hlive ▸ h.nodup, fun p => ?_⟩
  · have hdata : (u.heap p).map ListItem.data = some n.data := by
      rw [← hkeeps.data, hn, Option.map_some]
    obtain ⟨k, hk, hkn⟩ := Option.map_eq_some_iff.mp hdata
    exact hkn ▸ h.nonneg p k hk
  · by_cases hw : w = t
    · exact hpending d (hw ▸ hd)
    · exact h.pending w d ((hpc w hw).symm.trans hd)
  · obtain ⟨n, hn, hor⟩ := h.free p hp ((hkeeps.heap_none p).mp hnone)
    exact ⟨n, hn, hor.imp_right fun ⟨w, hw⟩ => ⟨w, (heq w).trans hw⟩⟩
  · rw [heq w] at hw
    have hwt : w ≠ t := by
      rintro rfl
      rw [hslot] at hw
      cases hw
    rw [hpc w hwt, halloc w hwt, hkeeps.heap_none]
    exact h.claimed w p hw
  · rw [heq] at hw hv
    exact h.apart w v p hw hv
  · rw [hlive, h.live, ne_eq, ne_eq, hkeeps.heap_none]
    simp only [heq]

/-- A step of the list. -/
theorem Sim.list_run {l : Sys T} (h : Sim s u rest) (hcreate : ∀ d, u.pc t ≠ .create d)
    (hdelete : ∀ item r, u.pc t ≠ .delete item r) (hs : s.list.run t = some l)
    (hlist : s'.list = l) (hself : (s'.alloc t).slot = none)
    (hother : ∀ w, w ≠ t → s'.alloc w = s.alloc w) (hlive : s'.live = s.live) :
    ∃ u', Sim s' u' rest := by
  obtain ⟨L, F, B, hinv⟩ := h.inv
  have hfault : ∀ u', u.run t = some u' → u'.fault = false := by
    intro u' hu'
    obtain ⟨L', F', B', hinv', -⟩ := hinv.run hu'
    exact hinv'.shape.fault
  rw [h.list, overlay_run hcreate hdelete hfault] at hs
  obtain ⟨u', hu', rfl⟩ := Option.map_eq_some_iff.mp hs
  obtain ⟨L', F', B', hinv', -⟩ := hinv.run hu'
  exact ⟨u', h.keep t hlist ⟨L', F', B', hinv'⟩ (run_keeps hcreate hdelete hu')
    (fun d hd => absurd hd (run_not_create hcreate hu' d)) (fun w hw => Sys.run_pc_of_ne hw hu')
    (h.slot_none hcreate) hself hother hlive⟩

theorem Sim.call {l : Sys T} {op : Op} (h : Sim s u rest) (hop : 0 ≤ data op)
    (hs : ThreadsafeList.step s.list (.call t op) = some l) :
    ∃ u', Sim ((s.setList l).moveTo t .begin) u' rest := by
  simp only [ThreadsafeList.step, Option.ite_none_right_eq_some, Option.some.injEq] at hs
  obtain ⟨hidle, rfl⟩ := hs
  rw [h.pc] at hidle
  obtain ⟨L, F, B, hinv⟩ := h.inv
  have hslot : (s.alloc t).slot = none := h.slot_none fun d hd => by rw [hidle] at hd; cases hd
  have hinv' := hinv.call hidle op
  refine ⟨_, h.keep t (by rw [h.list]; rfl) ⟨L, F, B, hinv'⟩ (.of_heap rfl rfl) (fun d hd => ?_)
    (fun w hw => ThreadsafeList.pc_goto_of_ne hw _ _) hslot (by rw [alloc_self]; rfl)
    (fun w hw => alloc_of_ne hw _ _) rfl⟩
  rw [ThreadsafeList.pc_goto_self] at hd
  cases op <;> cases hd
  exact hop

/-! ## Taking a slot and giving it back -/

omit [DecidableEq T] in
/-- A write to a slot that is no item. -/
theorem overlay_write_rest (hu : u.heap p = none) (hn : rest p = some n) (f : ListItem → ListItem) :
    (overlay rest u).write (some p) f = overlay (Function.update rest p (some (f n))) u := by
  rw [Sys.write_some ((overlay_heap_none hu).trans hn)]
  have hheap : Function.update (overlay rest u).heap p (some (f n)) =
      (overlay (Function.update rest p (some (f n))) u).heap := by
    funext q
    show _ = (u.heap q).or (Function.update rest p (some (f n)) q)
    by_cases hq : q = p
    · rw [hq, Function.update_self, Function.update_self, hu]
      rfl
    · rw [Function.update_of_ne hq, Function.update_of_ne hq]
      rfl
  rw [hheap]
  rfl

omit [DecidableEq T] in
/-- An item that becomes a free slot. -/
theorem overlay_delete (hn : u.heap p = some n) (f : ListItem → ListItem) :
    (overlay rest u).write (some p) f = overlay (Function.update rest p (some (f n)))
      (u.setHeap (Function.update u.heap p none)) := by
  rw [Sys.write_some (overlay_heap hn)]
  have hheap : Function.update (overlay rest u).heap p (some (f n)) =
      (overlay (Function.update rest p (some (f n)))
        (u.setHeap (Function.update u.heap p none))).heap := by
    funext q
    show _ = (Function.update u.heap p none q).or (Function.update rest p (some (f n)) q)
    by_cases hq : q = p
    · rw [hq, Function.update_self, Function.update_self, Function.update_self]
      rfl
    · rw [Function.update_of_ne hq, Function.update_of_ne hq, Function.update_of_ne hq]
      rfl
  rw [hheap]
  rfl

theorem bound_update {size : ℕ} (h : ∀ p n, rest p = some n → p < size) (hp : p < size)
    {o : Option ListItem} : ∀ q m, Function.update rest p o q = some m → q < size := by
  intro q m hm
  by_cases hq : q = p
  · rw [hq]
    exact hp
  · rw [Function.update_of_ne hq] at hm
    exact h q m hm

/-- A thread that goes elsewhere is not about to create an item. -/
theorem Sim.pending_goto {pc : Pc} (h : Sim s u rest) (hpc : u'.pc = u.pc)
    (hcreate : ∀ d, pc ≠ .create d) : ∀ w d, (u'.goto t pc).pc w = .create d → 0 ≤ d := by
  intro w d hw
  by_cases hwt : w = t
  · rw [hwt, ThreadsafeList.pc_goto_self] at hw
    exact absurd hw (hcreate d)
  · rw [ThreadsafeList.pc_goto_of_ne hwt, hpc] at hw
    exact h.pending w d hw

omit [DecidableEq T] in
theorem Sim.nonneg_update {o : Option ListItem} (h : Sim s u rest)
    (ho : ∀ m, o = some m → 0 ≤ m.data) :
    ∀ q m, Function.update u.heap p o q = some m → 0 ≤ m.data := by
  intro q m hm
  by_cases hq : q = p
  · rw [hq, Function.update_self] at hm
    exact ho m hm
  · rw [Function.update_of_ne hq] at hm
    exact h.nonneg q m hm

omit [DecidableEq T] in
/-- An item is no slot that a thread is initialising. -/
theorem Sim.unclaimed (h : Sim s u rest) (hne : u.heap p ≠ none) (w : T) :
    (s.alloc w).slot ≠ some p := by
  intro hw
  obtain ⟨-, hnone, -⟩ := h.claimed w p hw
  exact hne hnone

omit [DecidableEq T] in
/-- A slot with data -1 is neither an item, nor has a thread claimed it. -/
theorem Sim.free_slot (h : Sim s u rest) (hp : p < allocationsSize)
    (hfree : ∀ n, s.list.heap p = some n → n.data = -1) :
    u.heap p = none ∧ (∃ n, rest p = some n) ∧ ∀ w, (s.alloc w).slot ≠ some p := by
  have hnone : u.heap p = none := by
    cases hn : u.heap p with
    | none => rfl
    | some n =>
      have hdata := hfree n (by rw [h.list, overlay_heap hn])
      have hpos := h.nonneg p n hn
      omega
  obtain ⟨n, hn, -⟩ := h.free p hp hnone
  refine ⟨hnone, ⟨n, hn⟩, fun w hw => ?_⟩
  -- whoever has claimed the slot has written its data
  obtain ⟨-, -, e, m, hpc, hm, he, -⟩ := h.claimed w p hw
  have hdata : m.data = -1 := hfree m (by rw [h.list, overlay_heap_none hnone, hm])
  have hpos := h.pending w e hpc
  omega

/-- The slot is still free. -/
theorem Sim.claim (h : Sim s u rest) (ht : s.list.pc t = .create d) (halloc : s.alloc t = .claim p)
    (hp : p < allocationsSize) (hfree : ∀ n, s.list.heap p = some n → n.data = -1) :
    ∃ rest', Sim (({ s with
      list := s.list.write (some p) (setData d)
      live := p :: s.live } : State T).moveTo t (.initPrev p)) u rest' := by
  obtain ⟨hnone, ⟨n, hn⟩, hunclaimed⟩ := h.free_slot hp hfree
  rw [h.pc] at ht
  set s₁ : State T := { s with
    list := s.list.write (some p) (setData d)
    live := p :: s.live } with hs₁
  have hself : (s₁.moveTo t (.initPrev p)).alloc t = .initPrev p := alloc_self _ _ _
  have hslot : ∀ w q, ((s₁.moveTo t (.initPrev p)).alloc w).slot = some q ↔
      (w = t ∧ q = p) ∨ (s.alloc w).slot = some q := by
    intro w q
    by_cases hw : w = t
    · subst hw
      rw [hself, halloc]
      simp [AllocPc.slot, eq_comm]
    · rw [alloc_of_ne hw]
      simp [hw, hs₁]
  refine ⟨Function.update rest p (some (setData d n)), ?_, h.inv, h.allocated,
    bound_update h.bound hp, h.nonneg, h.pending, fun q hq hqnone => ?_, fun w q hw => ?_,
    fun w v q hw hv => ?_, ?_, fun q => ?_⟩
  · show s.list.write (some p) (setData d) = _
    rw [h.list, overlay_write_rest hnone hn]
  · by_cases hqp : q = p
    · subst hqp
      exact ⟨_, Function.update_self _ _ _, .inr ⟨t, (hslot t q).mpr (.inl ⟨rfl, rfl⟩)⟩⟩
    · rw [Function.update_of_ne hqp]
      obtain ⟨m, hm, hor⟩ := h.free q hq hqnone
      exact ⟨m, hm, hor.imp_right fun ⟨w, hw⟩ => ⟨w, (hslot w q).mpr (.inr hw)⟩⟩
  · rcases (hslot w q).mp hw with ⟨rfl, rfl⟩ | hw'
    · refine ⟨hp, hnone, d, _, ht, Function.update_self _ _ _, rfl, fun hinit => ?_⟩
      rw [hself] at hinit
      cases hinit
    · have hqp : q ≠ p := by
        rintro rfl
        exact hunclaimed w hw'
      have hwt : w ≠ t := by
        rintro rfl
        rw [halloc] at hw'
        cases hw'
      rw [Function.update_of_ne hqp, alloc_of_ne hwt]
      exact h.claimed w q hw'
  · rcases (hslot w q).mp hw with ⟨hwt, hqp⟩ | hw' <;>
      rcases (hslot v q).mp hv with ⟨hvt, hqp'⟩ | hv'
    · rw [hwt, hvt]
    · exact absurd (hqp ▸ hv') (hunclaimed v)
    · exact absurd (hqp' ▸ hw') (hunclaimed w)
    · exact h.apart w v q hw' hv'
  · refine List.nodup_cons.mpr ⟨fun hmem => ?_, h.nodup⟩
    rcases (h.live p).mp hmem with hne | ⟨w, hw⟩
    · exact hne hnone
    · exact hunclaimed w hw
  · show q ∈ p :: s.live ↔ _
    rw [List.mem_cons, h.live]
    simp only [hslot]
    constructor
    · rintro (rfl | hne | ⟨w, hw⟩)
      · exact .inr ⟨t, .inl ⟨rfl, rfl⟩⟩
      · exact .inl hne
      · exact .inr ⟨w, .inr hw⟩
    · rintro (hne | ⟨w, ⟨-, rfl⟩ | hw⟩)
      · exact .inr (.inl hne)
      · exact .inl rfl
      · exact .inr (.inr ⟨w, hw⟩)

theorem Sim.initPrev (h : Sim s u rest) (halloc : s.alloc t = .initPrev p) :
    ∃ rest', Sim ((s.setList (s.list.write (some p) (·.setPrev none))).moveTo t (.initNext p)) u
      rest' := by
  have hslot_t : (s.alloc t).slot = some p := by rw [halloc]; rfl
  obtain ⟨hp, hnone, d, n, hpc, hn, hd, -⟩ := h.claimed t p hslot_t
  set s₁ := s.setList (s.list.write (some p) (·.setPrev none)) with hs₁
  have hslot : ∀ w, ((s₁.moveTo t (.initNext p)).alloc w).slot = (s.alloc w).slot := by
    intro w
    by_cases hw : w = t
    · rw [hw, alloc_self, hslot_t]
      rfl
    · rw [alloc_of_ne hw]
      rfl
  refine ⟨Function.update rest p (some (n.setPrev none)), ?_, h.inv, h.allocated,
    bound_update h.bound hp, h.nonneg, h.pending, fun q hq hqnone => ?_, fun w q hw => ?_,
    fun w v q hw hv => ?_, h.nodup, fun q => ?_⟩
  · show s.list.write (some p) (·.setPrev none) = _
    rw [h.list, overlay_write_rest hnone hn]
  · by_cases hqp : q = p
    · subst hqp
      exact ⟨_, Function.update_self _ _ _, .inr ⟨t, (hslot t).trans hslot_t⟩⟩
    · rw [Function.update_of_ne hqp]
      obtain ⟨m, hm, hor⟩ := h.free q hq hqnone
      exact ⟨m, hm, hor.imp_right fun ⟨w, hw⟩ => ⟨w, (hslot w).trans hw⟩⟩
  · rw [hslot] at hw
    by_cases hwt : w = t
    · subst hwt
      obtain rfl : p = q := Option.some.inj (hslot_t.symm.trans hw)
      exact ⟨hp, hnone, d, _, hpc, Function.update_self _ _ _, hd, fun _ => rfl⟩
    · have hqp : q ≠ p := fun hqp => hwt (h.apart w t p (hqp ▸ hw) hslot_t)
      rw [Function.update_of_ne hqp, alloc_of_ne hwt]
      exact h.claimed w q hw
  · rw [hslot] at hw hv
    exact h.apart w v q hw hv
  · simp only [hslot]
    exact h.live q

/-- The item is ready, and goes over to the list. -/
theorem Sim.initNext (h : Sim s u rest) (ht : s.list.pc t = .create d)
    (halloc : s.alloc t = .initNext p) :
    ∃ u', Sim ((s.setList ((s.list.write (some p) (·.setNext none)).goto t
      (.lockInsert d p))).moveTo t .begin) u' rest := by
  have hslot_t : (s.alloc t).slot = some p := by rw [halloc]; rfl
  rw [h.pc] at ht
  obtain ⟨hp, hnone, d', n, hpc, hn, hd, hprev⟩ := h.claimed t p hslot_t
  obtain rfl : d = d' := by
    rw [ht] at hpc
    exact Pc.create.inj hpc
  have hready : n.setNext none = ⟨d, none, none⟩ := by
    rw [← hd, ← hprev halloc]
    rfl
  obtain ⟨L, F, B, hinv⟩ := h.inv
  have hlt : p < u.allocated := by rw [h.allocated]; exact hp
  set u' := u.setHeap (Function.update u.heap p (some ⟨d, none, none⟩)) with hu'
  have hplace : Inv (u'.goto t (.lockInsert d p)) L F B := hinv.place ht hnone hlt (Nat.le_refl _)
  have hlist : s.list.write (some p) (·.setNext none) = overlay rest u' := by
    rw [h.list, Sys.write_some ((overlay_heap_none hnone).trans hn), hready, overlay_update]
    rfl
  set s₁ := s.setList ((s.list.write (some p) (·.setNext none)).goto t (.lockInsert d p)) with hs₁
  have hslot : ∀ w q, ((s₁.moveTo t .begin).alloc w).slot = some q ↔
      w ≠ t ∧ (s.alloc w).slot = some q := by
    intro w q
    by_cases hw : w = t
    · rw [hw, alloc_self]
      simp [AllocPc.slot]
    · rw [alloc_of_ne hw]
      simp [hw, hs₁, State.setList]
  have hheap : ∀ q, u'.heap q = none ↔ q ≠ p ∧ u.heap q = none := by
    intro q
    show Function.update u.heap p _ q = none ↔ _
    by_cases hq : q = p
    · simp [hq]
    · simp [hq]
  have hnonneg := h.nonneg_update (p := p) (o := some ⟨d, none, none⟩) fun m hm => by
    obtain rfl := Option.some.inj hm
    exact h.pending t d ht
  refine ⟨u'.goto t (.lockInsert d p), ?_, ⟨L, F, B, hplace⟩, h.allocated, h.bound, hnonneg,
    h.pending_goto rfl nofun, fun q hq hqnone => ?_, fun w q hw => ?_, fun w v q hw hv => ?_,
    h.nodup, fun q => ?_⟩
  · show (s.list.write (some p) (·.setNext none)).goto t (.lockInsert d p) = _
    rw [hlist]
    rfl
  · obtain ⟨hqp, hqnone⟩ := (hheap q).mp hqnone
    obtain ⟨m, hm, hor⟩ := h.free q hq hqnone
    refine ⟨m, hm, hor.imp_right fun ⟨w, hw⟩ => ⟨w, (hslot w q).mpr ⟨?_, hw⟩⟩⟩
    rintro rfl
    exact hqp (Option.some.inj (hw.symm.trans hslot_t))
  · obtain ⟨hwt, hw⟩ := (hslot w q).mp hw
    obtain ⟨hq, hqnone, e, m, hcreate, hm, he, hinit⟩ := h.claimed w q hw
    have hqp : q ≠ p := fun hqp => hwt (h.apart w t p (hqp ▸ hw) hslot_t)
    refine ⟨hq, (hheap q).mpr ⟨hqp, hqnone⟩, e, m, ?_, hm, he, ?_⟩
    · rw [ThreadsafeList.pc_goto_of_ne hwt]
      exact hcreate
    · rw [alloc_of_ne hwt]
      exact hinit
  · exact h.apart w v q ((hslot w q).mp hw).2 ((hslot v q).mp hv).2
  · show q ∈ s.live ↔ u'.heap q ≠ none ∨ _
    rw [h.live, ne_eq, ne_eq, hheap]
    simp only [hslot]
    constructor
    · rintro (hne | ⟨w, hw⟩)
      · exact .inl fun hand => hne hand.2
      · by_cases hwt : w = t
        · refine .inl fun hand => hand.1 ?_
          exact Option.some.inj (hw.symm.trans (hwt ▸ hslot_t))
        · exact .inr ⟨w, hwt, hw⟩
    · rintro (hne | ⟨w, -, hw⟩)
      · by_cases hqp : q = p
        · exact .inr ⟨t, hqp ▸ hslot_t⟩
        · exact .inl fun hqnone => hne ⟨hqp, hqnone⟩
      · exact .inr ⟨w, hw⟩

theorem Sim.delete {item : Ptr} {r : Ret} (h : Sim s u rest) (ht : s.list.pc t = .delete item r) :
    ∃ u' rest', Sim ({ s with
      list := (s.list.write (some item) (setData (-1))).goto t (.ret r)
      live := s.live.erase item } : State T) u' rest' := by
  rw [h.pc] at ht
  obtain ⟨L, F, B, hinv⟩ := h.inv
  obtain ⟨halive, -⟩ := hinv.owns (t := t) (p := item) (by rw [ht]; rfl)
  obtain ⟨n, hn⟩ := Option.ne_none_iff_exists'.mp halive
  have hinv' := hinv.delete ht
  rw [Sys.delete_some hn] at hinv'
  set u' := u.setHeap (Function.update u.heap item none) with hu'
  set rest' := Function.update rest item (some (setData (-1) n)) with hrest'
  have hheap : ∀ q, u'.heap q = none ↔ q = item ∨ u.heap q = none := by
    intro q
    show Function.update u.heap item none q = none ↔ _
    by_cases hq : q = item
    · simp [hq]
    · simp [hq]
  have hlt : item < allocationsSize := by
    rw [← h.allocated]
    exact hinv.shape.fresh item n hn
  have hnonneg := h.nonneg_update (p := item) (o := none) fun m hm => by cases hm
  have hret : ∀ d, Pc.ret r ≠ .create d := fun d hd => by cases hd
  refine ⟨u'.goto t (.ret r), rest', ?_, ⟨L, F, B, hinv'⟩, h.allocated, bound_update h.bound hlt,
    hnonneg, h.pending_goto rfl hret, fun q hq hqnone => ?_, fun w q hw => ?_, h.apart,
    h.nodup.erase item, fun q => ?_⟩
  · show (s.list.write (some item) (setData (-1))).goto t (.ret r) = _
    rw [h.list, overlay_delete hn]
    rfl
  · by_cases hqi : q = item
    · rw [hqi]
      exact ⟨_, Function.update_self _ _ _, .inl rfl⟩
    · rw [hrest', Function.update_of_ne hqi]
      exact h.free q hq (((hheap q).mp hqnone).resolve_left hqi)
  · obtain ⟨hq, hqnone, e, m, hcreate, hm, he, hinit⟩ := h.claimed w q hw
    have hwt : w ≠ t := by
      rintro rfl
      rw [ht] at hcreate
      cases hcreate
    have hqi : q ≠ item := by
      rintro rfl
      exact halive hqnone
    refine ⟨hq, (hheap q).mpr (.inr hqnone), e, m, ?_, ?_, he, hinit⟩
    · rw [ThreadsafeList.pc_goto_of_ne hwt]
      exact hcreate
    · rw [hrest', Function.update_of_ne hqi]
      exact hm
  · show q ∈ s.live.erase item ↔ u'.heap q ≠ none ∨ _
    rw [h.nodup.mem_erase_iff, h.live, ne_eq (u'.heap q), hheap, not_or]
    constructor
    · rintro ⟨hqi, hne | hw⟩
      · exact .inl ⟨hqi, hne⟩
      · exact .inr hw
    · rintro (⟨hqi, hne⟩ | ⟨w, hw⟩)
      · exact ⟨hqi, .inl hne⟩
      · refine ⟨?_, .inr ⟨w, hw⟩⟩
        rintro rfl
        exact h.unclaimed halive w hw

end Htmsql.SharedSlots
