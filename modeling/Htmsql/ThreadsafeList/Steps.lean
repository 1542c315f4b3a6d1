import Htmsql.ThreadsafeList.Invariant

/-!
# The writes to the list

Each write of `insertTail` and of `removeFromList` changes one pointer, and with it one of the two
chains: `setNext` makes the forward chain one item longer, `unlinkPrev` makes it one shorter, `setLast`
and `unlinkNext` do so with the backward chain, and where the item is the only one on its side it is
`first` or `last` that is written instead. The list itself, which is what the two chains agree on when
the lock is free again, changes with the forward chain.
-/

namespace Htmsql.ThreadsafeList

open Chain (Node Seg firstOr)
open Linearizable (Log Status Clients)

variable {T : Type}

/-! ## Writes to the heap -/

def Sys.setHeap (s : Sys T) (heap : Ptr → Option ListItem) : Sys T := { s with heap := heap }

theorem Sys.write_some {s : Sys T} {p : Ptr} {n : ListItem} (h : s.heap p = some n)
    (f : ListItem → ListItem) :
    s.write (some p) f = s.setHeap (Function.update s.heap p (some (f n))) := by
  simp only [Sys.write, Sys.access, h]
  rfl

theorem Sys.delete_some {s : Sys T} {p : Ptr} {n : ListItem} (h : s.heap p = some n) :
    s.delete p = s.setHeap (Function.update s.heap p none) := by
  simp only [Sys.delete, Sys.access, h]
  rfl

variable {s : Sys T} {t : T} {L F B l l₁ l₂ : List (Ptr × Int)} {p item : Ptr} {n : ListItem}
  {d : Int} {prev succ : Option Ptr}

theorem Shape.mem_alive (h : Shape s L F B) (hp : p ∈ L.map Prod.fst) :
    ∃ n, s.heap p = some n := by
  obtain ⟨x, hx, rfl⟩ := List.mem_map.mp hp
  obtain ⟨n, hn, -⟩ := h.alive x hx
  exact ⟨n, hn⟩

theorem Shape.alive_update (h : Shape s L F B) (hn : s.heap p = some n) (n' : ListItem)
    (hdata : n'.data = n.data) :
    ∀ x ∈ L, ∃ k, Function.update s.heap p (some n') x.1 = some k ∧ k.data = x.2 := by
  intro x hx
  obtain ⟨k, hk, hd⟩ := h.alive x hx
  by_cases hxp : x.1 = p
  · rw [hxp, hn, Option.some.injEq] at hk
    refine ⟨n', by rw [hxp, Function.update_self], ?_⟩
    rw [hdata, hk, hd]
  · exact ⟨k, by rw [Function.update_of_ne hxp, hk], hd⟩

theorem Shape.fresh_update (h : Shape s L F B) (hn : s.heap p = some n) (o : Option ListItem) :
    ∀ q k, Function.update s.heap p o q = some k → q < s.allocated := by
  intro q k hq
  by_cases hqp : q = p
  · rw [hqp]
    exact h.fresh p n hn
  · rw [Function.update_of_ne hqp] at hq
    exact h.fresh q k hq

theorem Shape.closed_update (h : Shape s L F B) {ps : List Ptr}
    (hL : ∀ q ∈ L.map Prod.fst, q ∈ ps) (n' : ListItem)
    (hn' : ∀ q, n'.next = some q ∨ n'.prev = some q → q ∈ ps) :
    ∀ x ∈ L, ∀ k q, Function.update s.heap p (some n') x.1 = some k →
      k.next = some q ∨ k.prev = some q → q ∈ ps := by
  intro x hx k q hk hq
  by_cases hxp : x.1 = p
  · rw [hxp, Function.update_self, Option.some.injEq] at hk
    exact hn' q (hk ▸ hq)
  · rw [Function.update_of_ne hxp] at hk
    exact hL q (h.closed x hx k q hk hq)

/-- What an item of the list points to. -/
theorem Shape.closed_at (h : Shape s L F B) (hp : p ∈ L.map Prod.fst) (hn : s.heap p = some n)
    {q : Ptr} (hq : n.next = some q ∨ n.prev = some q) : q ∈ L.map Prod.fst := by
  obtain ⟨x, hx, rfl⟩ := List.mem_map.mp hp
  exact h.closed x hx n q hn hq

/-- An item outside of the list changes or disappears. -/
theorem Shape.outside (h : Shape s L F B) (hp : p ∉ L.map Prod.fst) (hn : s.heap p = some n)
    (o : Option ListItem) : Shape (s.setHeap (Function.update s.heap p o)) L F B := by
  refine h.congr rfl rfl rfl (h.fresh_update hn o) fun q hq => ?_
  exact Function.update_of_ne (fun hqp => hp (by rw [← hqp]; exact hq)) _ _

/-- Where both chains are the whole list, its items point to each other only. -/
theorem closed_of_seg {heap : Ptr → Option ListItem} (hF : Seg (fwd heap) L none)
    (hB : Seg (bwd heap) L.reverse none) {x : Ptr × Int} (hx : x ∈ L) {n : ListItem} {q : Ptr}
    (hn : heap x.1 = some n) (hq : n.next = some q ∨ n.prev = some q) : q ∈ L.map Prod.fst := by
  rcases hq with hq | hq
  · have hf : fwd heap x.1 = some n.forth := by rw [fwd, hn, Option.map_some]
    exact hF.closed hx hf hq
  · have hb : bwd heap x.1 = some n.back := by rw [bwd, hn, Option.map_some]
    have := hB.closed (List.mem_reverse.mpr hx) hb hq
    rwa [List.map_reverse, List.mem_reverse] at this

/-- What an item of the whole list points to. -/
theorem Shape.links (h : Shape s L L L) (hL : L = l₁ ++ (p, d) :: l₂) :
    s.heap p = some ⟨d, Chain.last l₁, firstOr l₂ none⟩ := by
  have hf := h.forth
  have hb := h.back
  rw [hL] at hf
  rw [hL, List.reverse_append, List.reverse_cons, List.append_assoc, List.singleton_append] at hb
  have hnext := hf.at
  have hprev := hb.at
  rw [Chain.firstOr_reverse] at hprev
  cases hn : s.heap p with
  | none => simp [fwd, hn] at hnext
  | some n =>
    simp only [fwd, bwd, hn, Option.map_some, Option.some.injEq, ListItem.forth, ListItem.back,
      Node.mk.injEq] at hnext hprev
    obtain ⟨data, prev, next⟩ := n
    simp_all

/-! ## `insertTail` -/

theorem nodup_concat (h : (L.map Prod.fst).Nodup) (hitem : item ∉ L.map Prod.fst) :
    ((L ++ [(item, d)]).map Prod.fst).Nodup := by
  rw [List.map_append, List.nodup_append]
  refine ⟨h, List.nodup_singleton _, fun a ha b hb heq => hitem ?_⟩
  rw [heq, List.mem_singleton.mp hb] at ha
  exact ha

/-- Nobody points to the first item of a list before `last` and `first` do. -/
theorem Shape.setNext_nil (h : Shape s [] [] []) (hn : s.heap item = some ⟨d, none, none⟩) :
    Shape s [(item, d)] [] [] := by
  refine ⟨h.first, trivial, h.last, trivial, List.nodup_singleton _, fun x hx => ?_,
    List.nil_sublist _, List.nil_sublist _, fun x hx k q hk hq => ?_, h.fresh, h.fault⟩ <;>
    obtain rfl := List.mem_singleton.mp hx
  · exact ⟨_, hn, rfl⟩
  · rw [hn, Option.some.injEq] at hk
    rw [← hk] at hq
    simp at hq

/-- The last item of the list is made to point to the new one. -/
theorem Shape.setNext_last (h : Shape s L L L) (hitem : item ∉ L.map Prod.fst)
    (hlast : Chain.last L = some p) (hn : s.heap item = some ⟨d, some p, none⟩)
    (hk : s.heap p = some n) :
    Shape (s.setHeap (Function.update s.heap p (some (n.setNext (some item)))))
      (L ++ [(item, d)]) (L ++ [(item, d)]) L := by
  have hp : p ∈ L.map Prod.fst := Chain.last_mem hlast
  have hpi : item ≠ p := fun heq => hitem (heq ▸ hp)
  have hitem' : Function.update s.heap p (some (n.setNext (some item))) item =
      some ⟨d, some p, none⟩ := by
    rw [Function.update_of_ne hpi, hn]
  have hsub : ∀ q ∈ L.map Prod.fst, q ∈ (L ++ [(item, d)]).map Prod.fst := by
    intro q hq
    rw [List.map_append]
    exact List.mem_append_left _ hq
  refine ⟨?_, ?_, h.last, ?_, nodup_concat h.nodup hitem, fun x hx => ?_, List.Sublist.refl _,
    List.sublist_append_left _ _, fun x hx m q hm hq => ?_, h.fresh_update hk _, h.fault⟩
  · show s.first = _
    rw [h.first, Chain.firstOr_append]
    cases L with
    | nil => cases hp
    | cons x L => rfl
  · -- the forward chain goes on at its last item
    have hseg : Seg (fwd s.heap) [(item, d)] none := ⟨by rw [fwd, hn]; rfl, trivial⟩
    have hforth : Seg (fwd s.heap) (L ++ []) none := by
      rw [List.append_nil]
      exact h.forth
    have hfk : fwd s.heap p = some n.forth := by rw [fwd, hk, Option.map_some]
    have := hforth.relink h.nodup hlast hfk hseg (by simpa using fun heq => hpi heq.symm)
    show Seg (fwd (Function.update s.heap p _)) _ _
    rw [fwd_update]
    exact this
  · show Seg (bwd (Function.update s.heap p _)) _ _
    rw [bwd_setNext hk]
    exact h.back
  · rcases List.mem_append.mp hx with hx | hx
    · exact h.alive_update hk (n.setNext (some item)) rfl x hx
    · rw [List.mem_singleton.mp hx]
      exact ⟨_, hitem', rfl⟩
  · rcases List.mem_append.mp hx with hx | hx
    · refine h.closed_update hsub _ (fun q hq => ?_) x hx m q hm hq
      rcases hq with hq | hq
      · obtain rfl : item = q := Option.some.inj hq
        simp
      · exact hsub q (h.closed_at hp hk (.inr hq))
    · rw [List.mem_singleton.mp hx] at hm
      change Function.update s.heap p _ item = some m at hm
      rw [hitem', Option.some.injEq] at hm
      rw [← hm] at hq
      rcases hq with hq | hq
      · cases hq
      · obtain rfl : p = q := Option.some.inj hq
        exact hsub p hp

/-- The new item is outside of the list until the last one points to it. -/
theorem Shape.setNext (h : Shape s L L L) (hitem : item ∉ L.map Prod.fst)
    (hn : s.heap item = some ⟨d, Chain.last L, none⟩) :
    ∃ heap', s.write (Chain.last L) (·.setNext (some item)) = s.setHeap heap' ∧
      heap' item = some ⟨d, Chain.last L, none⟩ ∧ (∀ p, p ∉ L.map Prod.fst → heap' p = s.heap p) ∧
      Shape (s.setHeap heap') (L ++ [(item, d)]) (if L = [] then [] else L ++ [(item, d)]) L := by
  cases hlast : Chain.last L with
  | none =>
    obtain rfl := Chain.last_eq_none hlast
    exact ⟨s.heap, rfl, hn, fun _ _ => rfl, h.setNext_nil hn⟩
  | some p =>
    have hp : p ∈ L.map Prod.fst := Chain.last_mem hlast
    have hne : L ≠ [] := by
      rintro rfl
      cases hp
    obtain ⟨k, hk⟩ := h.mem_alive hp
    rw [hlast] at hn
    rw [if_neg hne]
    refine ⟨_, Sys.write_some hk _, ?_, fun q hq => ?_, h.setNext_last hitem hlast hn hk⟩
    · have hpi : item ≠ p := fun heq => hitem (heq ▸ hp)
      rw [Function.update_of_ne hpi, hn]
    · exact Function.update_of_ne (fun hqp => hq (by rw [hqp]; exact hp)) _ _

theorem Shape.setLast (h : Shape s L F l) (hL : L = l ++ [(item, d)]) (hF : F.Sublist L)
    (hn : s.heap item = some ⟨d, Chain.last l, none⟩) : Shape (s.setLast (some item)) L F L := by
  refine ⟨h.first, h.forth, ?_, ?_, h.nodup, h.alive, hF, List.Sublist.refl L, h.closed,
    h.fresh, h.fault⟩
  · rw [hL, Chain.last_concat]
    rfl
  · rw [hL, List.reverse_concat]
    refine ⟨?_, h.back⟩
    rw [Chain.firstOr_reverse]
    show bwd s.heap item = _
    rw [bwd, hn]
    rfl

theorem Shape.setFirst (h : Shape s L (if l = [] then [] else L) L) (hL : L = l ++ [(item, d)])
    (hn : s.heap item = some ⟨d, Chain.last l, none⟩) :
    Shape (s.setFirst (if s.first = none then some item else s.first)) L L L := by
  have hfirst := h.first
  have hforth := h.forth
  refine ⟨?_, ?_, h.last, h.back, h.nodup, h.alive, List.Sublist.refl L, List.Sublist.refl L,
    h.closed, h.fresh, h.fault⟩
  · show (if s.first = none then some item else s.first) = _
    cases l with
    | nil =>
      rw [hfirst, hL]
      rfl
    | cons x l =>
      rw [hfirst, hL]
      rfl
  · cases l with
    | nil =>
      rw [hL]
      refine ⟨?_, trivial⟩
      show fwd s.heap item = _
      rw [fwd, hn]
      rfl
    | cons x l => exact hforth

/-! ## `removeFromList` -/

theorem FirstAt.notMem_fst (h : FirstAt L d item l₁ l₂) (hn : (L.map Prod.fst).Nodup) :
    item ∉ l₁.map Prod.fst ∧ item ∉ l₂.map Prod.fst := by
  rw [h.split, List.map_append, List.map_cons, List.nodup_append, List.nodup_cons] at hn
  obtain ⟨-, ⟨hitem, -⟩, hdisj⟩ := hn
  exact ⟨fun hmem => hdisj item hmem item List.mem_cons_self rfl, hitem⟩

theorem FirstAt.reverse (h : FirstAt L d item l₁ l₂) :
    L.reverse = l₂.reverse ++ (item, d) :: l₁.reverse := by
  rw [h.split, List.reverse_append, List.reverse_cons, List.append_assoc, List.singleton_append]

theorem FirstAt.sublist (h : FirstAt L d item l₁ l₂) : (l₁ ++ l₂).Sublist L := by
  rw [h.split]
  exact (List.Sublist.refl l₁).append (List.sublist_cons_self _ _)

/-- `first` is the item exactly if no other is before it. -/
theorem Shape.unlinkFirst (h : Shape s L L L) (hat : FirstAt L d item l₁ l₂) :
    Shape (s.setFirst (if some item = s.first then firstOr l₂ none else s.first)) L
      (if l₁ = [] then l₂ else L) L := by
  have hforth := h.forth
  rw [hat.split] at hforth
  have hsub : l₂.Sublist L := (List.sublist_append_right l₁ l₂).trans hat.sublist
  refine ⟨?_, ?_, h.last, h.back, h.nodup, h.alive, ?_, List.Sublist.refl L, h.closed, h.fresh,
    h.fault⟩
  · show (if some item = s.first then firstOr l₂ none else s.first) = _
    have hitem := (hat.notMem_fst h.nodup).1
    rw [h.first, hat.split]
    cases l₁ with
    | nil => simp [firstOr]
    | cons x l₁ =>
      have hx : item ≠ x.1 := by
        rintro rfl
        exact hitem (by simp)
      simp [firstOr, hx]
  · by_cases hl₁ : l₁ = []
    · rw [if_pos hl₁]
      exact (Chain.seg_append.mp hforth).2.2
    · rw [if_neg hl₁]
      exact h.forth
  · by_cases hl₁ : l₁ = []
    · rw [if_pos hl₁]
      exact hsub
    · rw [if_neg hl₁]

theorem Shape.unlinkLast (h : Shape s L F L) (hat : FirstAt L d item l₁ l₂) :
    Shape (s.setLast (if some item = s.last then Chain.last l₁ else s.last)) L F
      (if l₂ = [] then l₁ else L) := by
  have hback := h.back
  rw [hat.reverse] at hback
  have hsub : l₁.Sublist L := (List.sublist_append_left l₁ l₂).trans hat.sublist
  refine ⟨h.first, h.forth, ?_, ?_, h.nodup, h.alive, h.subForth, ?_, h.closed, h.fresh, h.fault⟩
  · show (if some item = s.last then Chain.last l₁ else s.last) = _
    have hitem := (hat.notMem_fst h.nodup).2
    rcases List.eq_nil_or_concat l₂ with rfl | ⟨l, x, rfl⟩
    · rw [h.last, hat.split, Chain.last_concat]
      simp
    · rw [List.concat_eq_append] at hitem hat ⊢
      have hx : item ≠ x.1 := by
        rintro rfl
        exact hitem (by simp)
      have hlast : Chain.last L = some x.1 := by
        rw [hat.split, ← List.cons_append, ← List.append_assoc, Chain.last_concat]
      rw [h.last, if_neg (List.append_ne_nil_of_right_ne_nil l (List.cons_ne_nil x [])), hlast,
        if_neg (by simpa using hx)]
  · by_cases hl₂ : l₂ = []
    · rw [if_pos hl₂]
      exact (Chain.seg_append.mp hback).2.2
    · rw [if_neg hl₂]
      exact h.back
  · by_cases hl₂ : l₂ = []
    · rw [if_pos hl₂]
      exact hsub
    · rw [if_neg hl₂]

/-- The backward chain without the item, once the one behind it points past it. -/
theorem Shape.back_unlinked {y : Ptr × Int} (h : Shape s L F L)
    (hat : FirstAt L d item l₁ (y :: l₂)) (hk : s.heap y.1 = some n) :
    Seg (bwd (Function.update s.heap y.1 (some (n.setPrev (Chain.last l₁)))))
      (l₁ ++ y :: l₂).reverse none := by
  have hback := h.back
  rw [hat.reverse] at hback
  have hnodup : ((l₁ ++ y :: l₂).map Prod.fst).Nodup := (hat.sublist.map Prod.fst).nodup h.nodup
  rw [List.map_append, List.nodup_append] at hnodup
  have hn₂ : (((y :: l₂).reverse).map Prod.fst).Nodup := by
    rw [List.map_reverse, List.nodup_reverse]
    exact hnodup.2.1
  have hlast : Chain.last (y :: l₂).reverse = some y.1 := by
    rw [Chain.last_reverse]
    rfl
  have hbk : bwd s.heap y.1 = some n.back := by rw [bwd, hk, Option.map_some]
  have hnot : y.1 ∉ l₁.reverse.map Prod.fst := by
    rw [List.map_reverse, List.mem_reverse]
    exact fun hmem => hnodup.2.2 y.1 hmem y.1 List.mem_cons_self rfl
  have := hback.relink hn₂ hlast hbk (Chain.seg_append.mp hback).2.2 hnot
  rw [bwd_update, List.reverse_append]
  rw [Chain.firstOr_reverse] at this
  exact this

/-- The item behind the removed one points past it. -/
theorem Shape.unlinkNext (h : Shape s L F (if l₂ = [] then l₁ else L))
    (hat : FirstAt L d item l₁ l₂) :
    ∃ heap', s.write (firstOr l₂ none) (·.setPrev (Chain.last l₁)) = s.setHeap heap' ∧
      (∀ p, p ∉ L.map Prod.fst → heap' p = s.heap p) ∧
      Shape (s.setHeap heap') L F (l₁ ++ l₂) := by
  cases l₂ with
  | nil =>
    rw [if_pos rfl] at h
    rw [List.append_nil]
    exact ⟨s.heap, rfl, fun _ _ => rfl, h⟩
  | cons y l₂ =>
    rw [if_neg (List.cons_ne_nil y l₂)] at h
    have hl₁ : ∀ q ∈ l₁.map Prod.fst, q ∈ L.map Prod.fst :=
      fun q hq => (hat.sublist.map Prod.fst).subset (by rw [List.map_append]; simp [hq])
    have hy : y.1 ∈ L.map Prod.fst := by
      rw [hat.split]
      simp
    obtain ⟨k, hk⟩ := h.mem_alive hy
    refine ⟨_, Sys.write_some hk _, fun q hq => ?_, h.first, ?_, ?_, h.back_unlinked hat hk, h.nodup,
      h.alive_update hk (k.setPrev (Chain.last l₁)) rfl, h.subForth, hat.sublist,
      h.closed_update (fun _ hq => hq) _ fun q hq => ?_, h.fresh_update hk _, h.fault⟩
    · exact Function.update_of_ne (fun hqp => hq (by rw [hqp]; exact hy)) _ _
    · show Seg (fwd (Function.update s.heap y.1 _)) _ _
      rw [fwd_setPrev hk]
      exact h.forth
    · show s.last = _
      rw [h.last, hat.split, Chain.last_append_cons, Chain.last_append_cons]
      rfl
    · rcases hq with hq | hq
      · exact h.closed_at hy hk (.inl hq)
      · exact hl₁ q (Chain.last_mem hq)

/-- The item before the removed one points past it. -/
theorem Shape.unlinkPrev (h : Shape s L (if l₁ = [] then l₂ else L) (l₁ ++ l₂))
    (hat : FirstAt L d item l₁ l₂) :
    ∃ heap', s.write (Chain.last l₁) (·.setNext (firstOr l₂ none)) = s.setHeap heap' ∧
      heap' item = s.heap item ∧ (∀ p, p ∉ L.map Prod.fst → heap' p = s.heap p) ∧
      Shape (s.setHeap heap') (l₁ ++ l₂) (l₁ ++ l₂) (l₁ ++ l₂) := by
  have hnodup : ((l₁ ++ l₂).map Prod.fst).Nodup := (hat.sublist.map Prod.fst).nodup h.nodup
  cases hlast : Chain.last l₁ with
  | none =>
    obtain rfl := Chain.last_eq_none hlast
    rw [if_pos rfl] at h
    refine ⟨s.heap, rfl, rfl, fun _ _ => rfl, h.first, h.forth, h.last, h.back, hnodup,
      fun x hx => h.alive x (hat.sublist.subset hx), List.Sublist.refl _, List.Sublist.refl _,
      fun x hx n q hn hq => closed_of_seg h.forth h.back hx hn hq, h.fresh, h.fault⟩
  | some p =>
    have hp₁ : p ∈ l₁.map Prod.fst := Chain.last_mem hlast
    have hne : l₁ ≠ [] := by
      rintro rfl
      cases hp₁
    rw [if_neg hne] at h
    have hp : p ∈ L.map Prod.fst := by
      rw [hat.split, List.map_append]
      exact List.mem_append_left _ hp₁
    obtain ⟨k, hk⟩ := h.mem_alive hp
    have hforth : Seg (fwd (Function.update s.heap p (some (k.setNext (firstOr l₂ none)))))
        (l₁ ++ l₂) none := by
      have hf := h.forth
      rw [hat.split] at hf
      rw [List.map_append, List.nodup_append] at hnodup
      have hfk : fwd s.heap p = some k.forth := by rw [fwd, hk, Option.map_some]
      have := hf.relink hnodup.1 hlast hfk (Chain.seg_append.mp hf).2.2
        fun hmem => hnodup.2.2 p hp₁ p hmem rfl
      rw [fwd_update]
      exact this
    have hback : Seg (bwd (Function.update s.heap p (some (k.setNext (firstOr l₂ none)))))
        (l₁ ++ l₂).reverse none := by
      rw [bwd_setNext hk]
      exact h.back
    have halive := h.alive_update hk (k.setNext (firstOr l₂ none)) rfl
    refine ⟨_, Sys.write_some hk _, ?_, fun q hq => ?_, ?_, hforth, h.last, hback, hnodup,
      fun x hx => halive x (hat.sublist.subset hx), List.Sublist.refl _,
      List.Sublist.refl _, fun x hx n q hn hq => closed_of_seg hforth hback hx hn hq,
      h.fresh_update hk _, h.fault⟩
    · refine Function.update_of_ne (fun heq => (hat.notMem_fst h.nodup).1 ?_) _ _
      rw [heq]
      exact hp₁
    · exact Function.update_of_ne (fun hqp => hq (by rw [hqp]; exact hp)) _ _
    · show s.first = _
      rw [h.first, hat.split, Chain.firstOr_append, Chain.firstOr_append]
      cases l₁ with
      | nil => exact (hne rfl).elim
      | cons x l₁ => rfl

end Htmsql.ThreadsafeList
