import Htmsql.ThreadsafeList.Preservation

/-!
# The list is a linearizable sequence

While the lock is free the items are doubly linked, in the order in which the effects of the operations
have put them there. A deleted item stays deleted, since the allocator does not return it again, and no
pointer of the list leads to it, at any time.
-/

namespace Htmsql.ThreadsafeList

open Chain (firstOr)
open Linearizable (Linearizes SpecRun)

variable {T : Type} {s s' : Sys T} {L F B : List (Ptr × Int)} {p : Ptr}

/-- What `first`, `last` and the pointers of the items lead to. -/
inductive Reachable (s : Sys T) : Ptr → Prop where
  | first {p : Ptr} (h : s.first = some p) : Reachable s p
  | last {p : Ptr} (h : s.last = some p) : Reachable s p
  | next {p q : Ptr} {n : ListItem} (h : Reachable s p) (hn : s.heap p = some n)
      (hq : n.next = some q) : Reachable s q
  | prev {p q : Ptr} {n : ListItem} (h : Reachable s p) (hn : s.heap p = some n)
      (hq : n.prev = some q) : Reachable s q

/-- The item was allocated once and is not there any more. -/
def Deleted (s : Sys T) (p : Ptr) : Prop := p < s.allocated ∧ s.heap p = none

/-- The items from the first to the last one; each points to the one before and the one behind it. -/
structure IsSequence (s : Sys T) (items : List (Ptr × Int)) : Prop where
  first : s.first = firstOr items none
  last : s.last = Chain.last items
  item : ∀ l₁ p d l₂, items = l₁ ++ (p, d) :: l₂ →
    s.heap p = some ⟨d, Chain.last l₁, firstOr l₂ none⟩
  acyclic : (items.map Prod.fst).Nodup

/-- The links of the reachable items agree in both directions, and nothing lies beyond the two
ends. -/
structure DoublyLinked (s : Sys T) : Prop where
  firstPrev : ∀ p, s.first = some p → ∃ n, s.heap p = some n ∧ n.prev = none
  lastNext : ∀ p, s.last = some p → ∃ n, s.heap p = some n ∧ n.next = none
  nextPrev : ∀ p n q, Reachable s p → s.heap p = some n → n.next = some q →
    ∃ k, s.heap q = some k ∧ k.prev = some p
  prevNext : ∀ p n q, Reachable s p → s.heap p = some n → n.prev = some q →
    ∃ k, s.heap q = some k ∧ k.next = some p
  empty : s.first = none ↔ s.last = none

/-! ## The shape while the lock is free -/

theorem Shape.reachable_mem (h : Shape s L F B) (hp : Reachable s p) : p ∈ L.map Prod.fst := by
  induction hp with
  | first hp =>
    rw [h.first] at hp
    exact (h.subForth.map Prod.fst).subset (Chain.firstOr_mem hp)
  | last hp =>
    rw [h.last] at hp
    exact (h.subBack.map Prod.fst).subset (Chain.last_mem hp)
  | next _ hn hq ih => exact h.closed_at ih hn (.inl hq)
  | prev _ hn hq ih => exact h.closed_at ih hn (.inr hq)

theorem Shape.isSequence (h : Shape s L L L) : IsSequence s L :=
  ⟨h.first, h.last, fun _ _ _ _ hL => h.links hL, h.nodup⟩

theorem Shape.split (h : Shape s L F B) (hp : Reachable s p) :
    ∃ l₁ d l₂, L = l₁ ++ (p, d) :: l₂ := by
  obtain ⟨⟨q, d⟩, hx, rfl⟩ := List.mem_map.mp (h.reachable_mem hp)
  obtain ⟨l₁, l₂, hL⟩ := List.append_of_mem hx
  exact ⟨l₁, d, l₂, hL⟩

theorem Shape.doublyLinked (h : Shape s L L L) : DoublyLinked s := by
  refine ⟨fun p hp => ?_, fun p hp => ?_, fun p n q hp hn hq => ?_, fun p n q hp hn hq => ?_, ?_⟩
  · rw [h.first] at hp
    cases L with
    | nil => cases hp
    | cons x l =>
      have hL : x :: l = [] ++ (x.1, x.2) :: l := rfl
      obtain rfl : x.1 = p := Option.some.inj hp
      exact ⟨_, h.links hL, rfl⟩
  · rw [h.last] at hp
    rcases List.eq_nil_or_concat L with rfl | ⟨l, x, rfl⟩
    · cases hp
    · rw [List.concat_eq_append] at h hp
      rw [Chain.last_concat, Option.some.injEq] at hp
      have hL : l ++ [x] = l ++ (x.1, x.2) :: [] := rfl
      exact ⟨_, hp ▸ h.links hL, rfl⟩
  · obtain ⟨l₁, d, l₂, hL⟩ := h.split hp
    rw [h.links hL, Option.some.injEq] at hn
    rw [← hn] at hq
    cases l₂ with
    | nil => cases hq
    | cons y l₂ =>
      obtain rfl : y.1 = q := Option.some.inj hq
      have hL' : L = (l₁ ++ [(p, d)]) ++ (y.1, y.2) :: l₂ := by
        rw [hL, List.append_assoc]
        rfl
      exact ⟨_, h.links hL', Chain.last_concat _ _⟩
  · obtain ⟨l₁, d, l₂, hL⟩ := h.split hp
    rw [h.links hL, Option.some.injEq] at hn
    rw [← hn] at hq
    change Chain.last l₁ = some q at hq
    rcases List.eq_nil_or_concat l₁ with rfl | ⟨l, y, rfl⟩
    · cases hq
    · rw [List.concat_eq_append] at hL hq
      rw [Chain.last_concat, Option.some.injEq] at hq
      subst hq
      have hL' : L = l ++ (y.1, y.2) :: (p, d) :: l₂ := by
        rw [hL, List.append_assoc]
        rfl
      exact ⟨_, h.links hL', rfl⟩
  · rw [h.first, h.last]
    constructor
    · intro hnone
      cases L with
      | nil => rfl
      | cons x l => cases hnone
    · intro hnone
      rw [Chain.last_eq_none hnone]
      rfl

/-! ## Deleted items -/

theorem Shape.not_deleted (h : Shape s L F B) (hp : Reachable s p) : s.heap p ≠ none := by
  obtain ⟨n, hn⟩ := h.mem_alive (h.reachable_mem hp)
  rw [hn]
  exact Option.some_ne_none n

/-- Only an item that is there changes. -/
theorem Deleted.update (h : Deleted s p) {q : Ptr} {n : ListItem} (hn : s.heap q = some n)
    (o : Option ListItem) : Function.update s.heap q o p = none := by
  rw [Function.update_of_ne _ _ _, h.2]
  rintro rfl
  rw [h.2] at hn
  cases hn

theorem Deleted.create (h : Deleted s p) (d : Int) : Deleted (s.create d) p := by
  refine ⟨Nat.lt_succ_of_lt h.1, ?_⟩
  show Function.update s.heap s.allocated _ p = none
  rw [Function.update_of_ne (Nat.ne_of_lt h.1), h.2]

variable [DecidableEq T] {t : T}

theorem Deleted.run (h : Deleted s p) (hs : s.run t = some s') : Deleted s' p :=
  Sys.run_induction (P := fun v => Deleted v p) h hs (fun _ _ _ _ _ _ hv => hv) (fun _ _ hv => hv)
    (fun _ _ _ hn _ => ⟨h.1, h.update hn _⟩) (fun d _ => h.create d)
    (fun _ _ _ _ hn => ⟨h.1, h.update hn none⟩)

theorem Deleted.reach (h : Deleted s p) (hr : Run.Reach step (· = s) (fun _ _ => True) s') :
    Deleted s' p := by
  refine hr.invariant (I := fun s => Deleted s p) ?_ ?_
  · rintro s rfl
    exact h
  · intro s a s' hd _ hs
    cases a with
    | call t op =>
      simp only [step, Option.ite_none_right_eq_some, Option.some.injEq] at hs
      obtain ⟨-, rfl⟩ := hs
      exact hd
    | run t => exact hd.run hs

theorem threadsafeList_linearizable
    (hr : Run.Reach step (· = (init : Sys T)) (fun _ _ => True) s) :
    ∃ items, Linearizes listSpec [] s.log.hist s.log.effects ∧
      SpecRun listSpec [] s.log.effects (items.map Prod.snd) ∧
      (s.holder = none → IsSequence s items ∧ DoublyLinked s) ∧ s.fault = false ∧
      (∀ t item r, s.pc t = .delete item r → ¬ Reachable s item) ∧
      ∀ p s', Deleted s p → Run.Reach step (· = s) (fun _ _ => True) s' →
        Deleted s' p ∧ ¬ Reachable s' p := by
  obtain ⟨L, F, B, h⟩ := reach_inv hr
  refine ⟨L, h.clients.log.linearizes, h.clients.log.run, fun hfree => ?_, h.shape.fault, ?_, ?_⟩
  · obtain ⟨hF, hB⟩ := h.free hfree
    subst hF hB
    exact ⟨h.shape.isSequence, h.shape.doublyLinked⟩
  · intro t item r ht hreach
    exact (h.owned t item (by rw [ht]; rfl)).2 (h.shape.reachable_mem hreach)
  · intro p s' hp hr'
    have hp' := hp.reach hr'
    obtain ⟨L', F', B', h'⟩ : ∃ L F B, Inv s' L F B := by
      refine hr'.invariant (I := fun s => ∃ L F B, Inv s L F B) ?_ ?_
      · rintro _ rfl
        exact ⟨L, F, B, h⟩
      · rintro s a s' ⟨L, F, B, h⟩ - hs
        exact h.step hs
    exact ⟨hp', fun hreach => h'.shape.not_deleted hreach hp'.2⟩

/-- One thread inserts 1, and another one, which has called before the insertion is over, removes it. -/
def insertRemove : List (Act Bool) :=
  [.call false (.insert 1), .run false, .call true (.remove 1), .run false, .run false, .run false,
    .run false, .run false, .run false, .run true, .run true, .run true, .run true, .run true,
    .run true, .run true, .run true, .run true, .run false, .run true, .run true, .run true]

theorem threadsafeList_linearizable_insertRemove :
    ∃ s, Run.exec step init insertRemove = some s ∧
      s.log.hist = [.call 0 (.insert 1), .call 1 (.remove 1), .ret 0 (.item 0), .ret 1 .void] ∧
      Deleted s 0 ∧ ¬ Reachable s 0 ∧ DoublyLinked s ∧
      Linearizes listSpec [] s.log.hist s.log.effects := by
  obtain ⟨s, hs, hres⟩ := Run.exec_result step init insertRemove
    (fun s => ((s.holder, s.allocated), s.heap 0, s.log.hist))
    ((none, 1), none, [.call 0 (.insert 1), .call 1 (.remove 1), .ret 0 (.item 0), .ret 1 .void])
    (by decide)
  simp only [Prod.mk.injEq] at hres
  obtain ⟨⟨hfree, hallocated⟩, hheap, hhist⟩ := hres
  have hdeleted : Deleted s 0 := ⟨by rw [hallocated]; exact Nat.zero_lt_one, hheap⟩
  obtain ⟨items, hlin, -, hshape, -, -, hdead⟩ := threadsafeList_linearizable (.exec (.init rfl) hs)
  obtain ⟨-, hout⟩ := hdead 0 s hdeleted (.init rfl)
  exact ⟨s, hs, hhist, hdeleted, hout, (hshape hfree).2, hlin⟩

end Htmsql.ThreadsafeList
