import Htmsql.HashMap.Steps

/-!
# The invariant over runs of the hash map

The steps that give a thread something of its own, or take it away, and the two writes to a list:
the append of `insert` and the removal of a node from the list of its bucket.
-/

namespace Htmsql.HashMap

open Chain (Node Seg firstOr last)
open Linearizable (Log LogInv)

variable {T : Type} {size : Nat} {s s' : Sys T} {C : Nat → List (Ptr × Nat)} {m m' : Finset Nat}

/-- A pointer that no allocation has returned yet. -/
theorem Inv.fresh (h : Inv size s C m) :
    s.heap s.allocated = none ∧ ∀ b, s.allocated ∉ (C b).map Prod.fst := by
  have hnone : s.heap s.allocated = none := by
    cases hn : s.heap s.allocated with
    | none => rfl
    | some n => exact (Nat.lt_irrefl _ (h.shape.fresh _ n hn)).elim
  refine ⟨hnone, fun b hb => ?_⟩
  obtain ⟨n, hn⟩ := h.shape.alive hb
  rw [hnone] at hn
  cases hn

/-- The content of the map when the list of one bucket changes. -/
theorem Inv.content_update (h : Inv size s C m) {b : Nat} {l : List (Ptr × Nat)}
    (hin : ∀ w, hash size w = b → (w ∈ m' ↔ w ∈ l.map Prod.snd))
    (hout : ∀ w, hash size w ≠ b → (w ∈ m' ↔ w ∈ m)) (w : Nat) :
    w ∈ m' ↔ w ∈ (Function.update C b l (hash size w)).map Prod.snd := by
  by_cases hw : hash size w = b
  · rw [hw, Function.update_self]
    exact hin w hw
  · rw [Function.update_of_ne hw, hout w hw]
    exact h.content w

theorem notMem_update {p : Ptr} {b : Nat} {l : List (Ptr × Nat)} (hl : p ∉ l.map Prod.fst)
    (hC : ∀ b', b' ≠ b → p ∉ (C b').map Prod.fst) (b' : Nat) :
    p ∉ (Function.update C b l b').map Prod.fst :=
  (Function.forall_update_iff C fun _ l => p ∉ l.map Prod.fst).mpr ⟨hl, hC⟩ b'

variable [DecidableEq T]

/-! ## The nodes of a thread -/

/-- A thread writes a node that is in no list and that no other thread owns. -/
theorem Inv.setNode (h : Inv size s C m) {t : T} {q : Ptr} {n : Option (Node Ptr Nat)}
    {allocated : Nat} {p : Pc} (hidle : s.pc t ≠ .idle) (hnot : ∀ b, q ∉ (C b).map Prod.fst)
    (hother : ∀ u, u ≠ t → (s.pc u).owned ≠ some q)
    (hfresh : ∀ q' k, Function.update s.heap q n q' = some k → q' < allocated)
    (hbucket : p.bucket size = (s.pc t).bucket size)
    (howned : ∀ q', p.owned = some q' → q' = q ∧ n ≠ none)
    (hready : p.Ready (Function.update s.heap q n)) (hposition : p.Position size C)
    (hlogged : p.Logged s.log (s.id t)) :
    Inv size (({ s with
      heap := Function.update s.heap q n
      allocated := allocated } : Sys T).setPc t p) C m := by
  set s₁ : Sys T := { s with
    heap := Function.update s.heap q n
    allocated := allocated } with hs₁
  have hp := pc_setPc_self s₁ t p
  refine h.update t (fun u hu => pc_setPc_of_ne hu _ _) (fun _ _ => rfl)
    ⟨h.shape.first, fun b => (h.shape.seg b).update (hnot b) _, h.shape.nodup, h.shape.hashed,
      hfresh, h.shape.fault⟩ h.content (fun _ _ _ => Iff.rfl) ?_ ?_ ?_ (fun _ _ _ _ => rfl) ?_ ?_ ?_
    (fun _ _ hl => hl) (Nat.le_refl _) (fun _ => h.number hidle) h.log
  · intro b
    rw [hp, hbucket]
    exact h.holder t b
  · intro u q' hu huq
    refine ⟨Function.update_of_ne ?_ _ _, (h.owned u q' huq).2⟩
    rintro rfl
    exact hother u hu huq
  · intro q' hq'
    rw [hp] at hq'
    obtain ⟨rfl, hn⟩ := howned q' hq'
    refine ⟨?_, hnot, hother⟩
    show Function.update s.heap q' n q' ≠ none
    rw [Function.update_self]
    exact hn
  · rw [hp]
    exact hready
  · rw [hp]
    exact hposition
  · rw [hp]
    exact hlogged

theorem Inv.alloc (h : Inv size s C m) {t : T} {v : Nat} (ht : s.pc t = .alloc v) :
    Inv size (({ s with
      heap := Function.update s.heap s.allocated (some ⟨v, none⟩)
      allocated := s.allocated + 1 } : Sys T).setPc t (.lock (.insert v s.allocated))) C m := by
  obtain ⟨hnone, hnot⟩ := h.fresh
  obtain ⟨-, -, hl⟩ := h.at ht
  refine h.setNode (by simp [ht]) hnot ?_ ?_ (by rw [ht]; rfl) ?_ ?_ trivial hl
  · intro u _ hu
    exact (h.owned u _ hu).1 hnone
  · intro q k hq
    by_cases heq : q = s.allocated
    · rw [heq]
      exact Nat.lt_succ_self _
    · rw [Function.update_of_ne heq] at hq
      exact Nat.lt_succ_of_lt (h.shape.fresh q k hq)
  · intro q hq
    exact ⟨(Option.some.inj hq).symm, Option.some_ne_none _⟩
  · exact Function.update_self _ _ _

/-- `delete` of a node that the thread has taken out of a list or never put into one. -/
theorem Inv.delete (h : Inv size s C m) {t : T} {item : Ptr} {r : Ret}
    (ht : s.pc t = .delete item r) : Inv size ((s.delete item).setPc t (.ret r)) C m := by
  obtain ⟨-, -, hl⟩ := h.at ht
  obtain ⟨halive, hnot, hapart⟩ := h.owns (t := t) (p := item) (by rw [ht]; rfl)
  obtain ⟨n, hn⟩ := Option.ne_none_iff_exists'.mp halive
  simp only [Sys.delete, Sys.access, hn]
  refine h.setNode (by simp [ht]) hnot hapart ?_ (by rw [ht]; rfl) ?_ trivial trivial hl
  · intro q k hq
    by_cases heq : q = item
    · rw [heq, Function.update_self] at hq
      cases hq
    · rw [Function.update_of_ne heq] at hq
      exact h.shape.fresh q k hq
  · rintro q ⟨⟩

/-! ## The lock of a bucket -/

omit [DecidableEq T] in
/-- The lock passes between nobody and a thread other than `u`. -/
theorem holder_update {holder : Nat → Option T} {b : Nat} {x : Option T} {u : T}
    (hold : holder b ≠ some u) (hnew : x ≠ some u) (b' : Nat) :
    Function.update holder b x b' = some u ↔ holder b' = some u := by
  by_cases hb : b' = b
  · rw [hb, Function.update_self]
    exact ⟨fun h => (hnew h).elim, fun h => (hold h).elim⟩
  · rw [Function.update_of_ne hb]

theorem Inv.lock (h : Inv size s C m) {t : T} {q : Req} (ht : s.pc t = .lock q)
    (hfree : s.holder (hash size q.value) = none) :
    Inv size (({ s with
      holder := Function.update s.holder (hash size q.value) (some t) } : Sys T).setPc t (.head q))
      C m := by
  have hidle : s.pc t ≠ .idle := by simp [ht]
  obtain ⟨hready, -, hl⟩ := h.at ht
  have hnone : ∀ b, s.holder b ≠ some t := by
    intro b hb
    have := (h.holder t b).mpr hb
    rw [ht] at this
    cases this
  refine h.goto (fun _ _ => rfl) (fun u b hu => ?_) (fun b => ?_) (fun p hp => ?_) hready trivial hl
    (fun _ _ hl => hl) (Nat.le_refl _) (fun _ => h.number hidle) h.log
  · apply holder_update
    · simp [hfree]
    · simp [hu.symm]
  · show some (hash size q.value) = some b ↔ Function.update s.holder _ _ b = some t
    by_cases hb : b = hash size q.value
    · rw [hb, Function.update_self]
      simp
    · rw [Function.update_of_ne hb]
      exact ⟨fun heq => (hb (Option.some.inj heq).symm).elim, fun hht => (hnone b hht).elim⟩
  · rw [ht]
    exact hp

theorem Inv.unlock (h : Inv size s C m) {t : T} {v : Nat} {item : Option Ptr} {r : Ret}
    (ht : s.pc t = .unlock v item r) :
    Inv size (({ s with
      holder := Function.update s.holder (hash size v) none } : Sys T).setPc t
        (afterUnlock item r)) C m := by
  have hidle : s.pc t ≠ .idle := by simp [ht]
  obtain ⟨-, -, hl⟩ := h.at ht
  have hlocked : s.holder (hash size v) = some t := by
    rw [← h.holder, ht]
    rfl
  have hbucket : (afterUnlock item r).bucket size = none := by cases item <;> rfl
  have howned : (afterUnlock item r).owned = item := by cases item <;> rfl
  have hready : (afterUnlock item r).Ready s.heap := by cases item <;> trivial
  have hposition : (afterUnlock item r).Position size C := by cases item <;> trivial
  have hlogged : (afterUnlock item r).Logged s.log (s.id t) := by cases item <;> exact hl
  refine h.goto (fun _ _ => rfl) (fun u b hu => ?_) (fun b => ?_) (fun p hp => ?_) hready hposition
    hlogged (fun _ _ hl => hl) (Nat.le_refl _) (fun _ => h.number hidle) h.log
  · apply holder_update
    · simp [hlocked, hu.symm]
    · simp
  · rw [hbucket]
    by_cases hb : b = hash size v
    · rw [hb, Function.update_self]
      simp
    · rw [Function.update_of_ne hb, ← h.holder t b, ht]
      show none = some b ↔ some (hash size v) = some b
      simp [Ne.symm hb]
  · rw [howned] at hp
    rw [ht]
    exact hp

/-! ## The call and the return of an operation -/

theorem Inv.call (h : Inv size s C m) {t : T} (ht : s.pc t = .idle) (op : Op) :
    Inv size (({ s with
      id := Function.update s.id t s.log.calls
      log := s.log.call op } : Sys T).setPc t op.entry) C m := by
  have hpend : (s.log.call op).Pending s.log.calls op := h.log.pending_call op
  have hid : Function.update s.id t s.log.calls t = s.log.calls := Function.update_self _ _ _
  have hb := h.holder t
  rw [ht] at hb
  refine h.goto (fun u hu => Function.update_of_ne hu _ _) (fun _ _ _ => Iff.rfl) (fun b => ?_)
    (fun p hp => ?_) ?_ ?_ ?_ (fun u _ hl => hl.mono (fun _ hpd => hpd.call _) fun _ he => he)
    (Nat.le_succ _) (fun _ => ?_) (h.log.call op)
  · cases op <;> exact hb b
  · cases op <;> cases hp
  · cases op <;> trivial
  · cases op <;> trivial
  · rw [hid]
    cases op <;> exact hpend
  · rw [hid]
    exact ⟨Nat.lt_succ_self _, fun u _ hne => (h.numbered u hne).ne'⟩

theorem Inv.ret (h : Inv size s C m) {t : T} {r : Ret} (ht : s.pc t = .ret r) :
    Inv size (({ s with log := s.log.ret (s.id t) r } : Sys T).setPc t .idle) C m := by
  obtain ⟨-, -, hl⟩ := h.at ht
  have hb := h.holder t
  rw [ht] at hb
  refine h.goto (fun _ _ => rfl) (fun _ _ _ => Iff.rfl) hb (fun p hp => ?_) trivial trivial trivial
    (fun u _ hl => hl.mono (fun _ hpd => hpd.ret _ _) fun _ he => he) (Nat.le_refl _)
    (fun hi => (hi rfl).elim) (h.log.ret hl)
  cases hp

/-! ## The two writes to a list -/

theorem Inv.link (h : Inv size s C m) {t : T} {v : Nat} {insertItem : Ptr} {prev : Option Ptr}
    (ht : s.pc t = .link v insertItem prev) :
    Inv size (((s.setSuccessor (hash size v) prev (some insertItem)).effect t (.insert v)
      (.item insertItem)).setPc t (.unlock v none (.item insertItem)))
      (Function.update C (hash size v) (C (hash size v) ++ [(insertItem, v)])) (insert v m) := by
  obtain ⟨hready, ⟨hprev, hnot⟩, hpend⟩ := h.at ht
  have hb : (s.pc t).bucket size = some (hash size v) := by rw [ht]; rfl
  obtain ⟨-, hlist, hapart⟩ := h.owns (t := t) (p := insertItem) (by rw [ht]; rfl)
  obtain ⟨t', ht', hchained, hkeep, hnone⟩ := h.shape.chained.append hready (hlist _) hnot
  rw [hprev, setSuccessor_eq ht']
  refine h.commit hb hpend ⟨⟨_, rfl⟩, rfl⟩ (h.shape.update hchained hnone) (h.content_update ?_ ?_)
    (fun b hne => Function.update_of_ne hne _ _) ?_ (by simp)
  · intro w hw
    rw [Finset.mem_insert, h.content w, hw, List.map_append, List.mem_append]
    simp [or_comm]
  · intro w hw
    rw [Finset.mem_insert]
    exact ⟨fun hor => hor.resolve_left fun heq => hw (heq ▸ rfl), Or.inr⟩
  · intro u p hu hup
    refine ⟨hkeep p ((h.owned u p hup).2 _), notMem_update ?_ fun b _ => (h.owned u p hup).2 b⟩
    rw [List.map_append, List.mem_append]
    rintro (hmem | hmem)
    · exact (h.owned u p hup).2 _ hmem
    · rw [List.mem_singleton.mp hmem] at hup
      exact hapart u hu hup

theorem Inv.unlink (h : Inv size s C m) {t : T} {v : Nat} {prev : Option Ptr} {item : Ptr}
    {successor : Option Ptr} (ht : s.pc t = .unlink v prev item successor) :
    ∃ C', Inv size (((s.setSuccessor (hash size v) prev successor).effect t (.remove v)
      (.int 1)).setPc t (.unlock v (some item) (.int 1))) C' (m.erase v) := by
  obtain ⟨-, ⟨l₁, l₂, hC, hprev, hsucc⟩, hpend⟩ := h.at ht
  have hb : (s.pc t).bucket size = some (hash size v) := by rw [ht]; rfl
  have hnodup := h.shape.nodup (hash size v)
  rw [hC, List.map_append, List.map_cons] at hnodup
  have hitem : item ∈ (C (hash size v)).map Prod.fst := by simp [hC]
  have hv : v ∈ m := by simp [h.content v, hC]
  obtain ⟨hval₁, hval₂⟩ := List.nodup_middle.mp hnodup |> List.nodup_cons.mp
  obtain ⟨t', ht', hchained, hkeep, hnone⟩ := h.shape.chained.unlink hC
  rw [hprev, hsucc, setSuccessor_eq ht']
  refine ⟨_, h.commit hb hpend ⟨?_, rfl⟩ (h.shape.update hchained hnone) (h.content_update ?_ ?_)
    (fun b hne => Function.update_of_ne hne _ _) ?_ ?_⟩
  · exact congrArg Ret.int (if_pos hv).symm
  · intro w hw
    rw [Finset.mem_erase, h.content w, hw, hC, List.map_append, List.map_append, List.map_cons,
      List.mem_append, List.mem_cons]
    rw [← List.map_append] at hval₁
    constructor
    · rintro ⟨hne, hmem | heq | hmem⟩
      · exact List.mem_append_left _ hmem
      · exact (hne heq).elim
      · exact List.mem_append_right _ hmem
    · intro hmem
      refine ⟨?_, (List.mem_append.mp hmem).imp_right Or.inr⟩
      rintro rfl
      exact hval₁ (by rwa [List.map_append])
  · intro w hw
    rw [Finset.mem_erase]
    exact ⟨And.right, fun hwm => ⟨fun heq => hw (heq ▸ rfl), hwm⟩⟩
  · intro u p hu hup
    have hout := (h.owned u p hup).2 (hash size v)
    rw [hC, List.map_append, List.map_cons, List.mem_append, List.mem_cons, not_or, not_or] at hout
    refine ⟨hkeep p hout.1, notMem_update ?_ fun b _ => (h.owned u p hup).2 b⟩
    rw [List.map_append, List.mem_append, not_or]
    exact ⟨hout.1, hout.2.2⟩
  · rintro p hp
    obtain rfl : item = p := Option.some.inj hp
    obtain ⟨n, hn⟩ := h.shape.alive hitem
    refine ⟨fun hnone' => ?_, h.shape.chained.notMem_split hC, fun u _ hup =>
      (h.owned u item hup).2 _ hitem⟩
    have hnone : s.heap item = none := (hnone item).mp hnone'
    rw [hn] at hnone
    cases hnone

/-! ## Runs -/

theorem Inv.run (h : Inv size s C m) {t : T} (hs : s.run size t = some s') :
    ∃ C' m', Inv size s' C' m' := by
  unfold Sys.run at hs
  cases ht : s.pc t with
  | idle =>
    rw [ht] at hs
    cases hs
  | alloc v =>
    rw [ht] at hs
    cases hs
    exact ⟨C, m, h.alloc ht⟩
  | lock q =>
    rw [ht] at hs
    simp only [Option.ite_none_right_eq_some, Option.some.injEq] at hs
    obtain ⟨hfree, rfl⟩ := hs
    exact ⟨C, m, h.lock ht hfree⟩
  | head q =>
    obtain ⟨hready, -, hl⟩ := h.at ht
    rw [ht] at hs
    cases hs
    refine ⟨C, m, ?_⟩
    have hC : C (hash size q.value) = [] ++ C (hash size q.value) := rfl
    rw [h.shape.first]
    exact h.goTo (by rw [ht]; rfl) (fun p hp => by rw [ht]; exact hp) hready hl hC
      List.not_mem_nil
  | test q prev item =>
    obtain ⟨hready, ⟨l₁, d, l₂, hC, hprev, hnot⟩, hl⟩ := h.at ht
    rw [ht] at hs
    have hseg := h.shape.seg (hash size q.value)
    rw [hC] at hseg
    simp only [Sys.access, hseg.at] at hs
    have hbucket : (s.pc t).bucket size = some (hash size q.value) := by rw [ht]; rfl
    have howned : ∀ p, q.owned = some p → (s.pc t).owned = some p := fun p hp => by rw [ht]; exact hp
    split at hs
    · rename_i hd
      subst hd
      cases hs
      exact ⟨C, m, hprev ▸ h.found hbucket howned hl hC⟩
    · rename_i hd
      cases hs
      refine ⟨C, m, h.setPc (Pc.ne_idle hbucket) hbucket.symm howned hready ⟨l₁, d, l₂, hC, ?_⟩ hl⟩
      rw [List.map_append, List.mem_append]
      rintro (hmem | hmem)
      · exact hnot hmem
      · exact hd (List.mem_singleton.mp hmem).symm
  | next q item =>
    obtain ⟨hready, ⟨l₁, d, l₂, hC, hnot⟩, hl⟩ := h.at ht
    rw [ht] at hs
    have hseg := h.shape.seg (hash size q.value)
    rw [hC] at hseg
    simp only [Sys.access, hseg.at] at hs
    cases hs
    have hC' : C (hash size q.value) = (l₁ ++ [(item, d)]) ++ l₂ := by
      rw [hC, List.append_assoc]
      rfl
    have := h.goTo (by rw [ht]; rfl) (fun p hp => by rw [ht]; exact hp) hready hl hC' hnot
    rw [Chain.last_concat] at this
    exact ⟨C, m, this⟩
  | link v insertItem prev =>
    rw [ht] at hs
    cases hs
    exact ⟨_, _, h.link ht⟩
  | succ v prev item =>
    obtain ⟨-, ⟨l₁, l₂, hC, hprev⟩, hl⟩ := h.at ht
    rw [ht] at hs
    have hseg := h.shape.seg (hash size v)
    rw [hC] at hseg
    simp only [Sys.access, hseg.at] at hs
    cases hs
    refine ⟨C, m, h.setPc ?_ ?_ (by simp [Pc.owned]) trivial ⟨l₁, l₂, hC, hprev, rfl⟩ hl⟩
    · simp [ht]
    · rw [ht]
      rfl
  | unlink v prev item successor =>
    rw [ht] at hs
    cases hs
    obtain ⟨C', hC'⟩ := h.unlink ht
    exact ⟨C', _, hC'⟩
  | unlock v item r =>
    rw [ht] at hs
    cases hs
    exact ⟨C, m, h.unlock ht⟩
  | delete item r =>
    rw [ht] at hs
    cases hs
    exact ⟨C, m, h.delete ht⟩
  | ret r =>
    rw [ht] at hs
    cases hs
    exact ⟨C, m, h.ret ht⟩

theorem Inv.step (h : Inv size s C m) {a : Act T} (hs : step size s a = some s') :
    ∃ C' m', Inv size s' C' m' := by
  cases a with
  | call t op =>
    simp only [HashMap.step, Option.ite_none_right_eq_some, Option.some.injEq] at hs
    obtain ⟨ht, rfl⟩ := hs
    exact ⟨C, m, h.call ht op⟩
  | run t => exact h.run hs

theorem reach_inv (hr : Run.Reach (step size) (· = (init : Sys T)) (fun _ _ => True) s) :
    ∃ C m, Inv size s C m := by
  refine Run.Reach.invariant (I := fun s => ∃ C m, Inv size s C m) ?_ ?_ hr
  · rintro _ rfl
    exact ⟨_, _, inv_init⟩
  · rintro s a s' ⟨C, m, h⟩ - hs
    exact h.step hs

end Htmsql.HashMap
