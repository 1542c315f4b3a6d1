import Htmsql.LinkedList.Code
import Htmsql.Lib.DoublyLinked
import Mathlib.Data.List.Induction
import Mathlib.Logic.Relation

/-!
# A list is a sequence

`Holds s L` says that the list of `s` consists of the items at the pointers of `L`, with the data of
`L`, doubly linked in this order. Each function of `List` is described by what it does to `L`; what
is outside of `L` stays as it is. That is all that is known of the memory here, so that the lemmas
serve every allocator.
-/

namespace Htmsql.LinkedList

open Chain (firstOr)
open DoublyLinked
open ThreadsafeList (Ptr ListItem)

variable {M : Type} {s s' : State M} {L l₁ l₂ : List (Ptr × ℤ)} {heap : Heap} {item p : Ptr}
  {d : ℤ} {before after prev next : Option Ptr}

/-- The list in memory is the sequence `L`: its ends, the links in both directions, and no item
twice. -/
structure Holds (s : State M) (L : List (Ptr × ℤ)) : Prop where
  first : s.first = firstOr L none
  last : s.last = lastOr L none
  links : Linked ListItem.mk s.heap none L none
  nodup : (L.map Prod.fst).Nodup

theorem holds_newList (heap : Heap) (own : M) : Holds (newList heap own) [] :=
  ⟨rfl, rfl, trivial, List.nodup_nil⟩

/-- The memory of the list is changed. -/
def State.setHeap (s : State M) (heap : Heap) : State M := { s with heap := heap }

/-! ## Writes to the ends of a segment -/

theorem State.write_some {n : ListItem} (h : s.heap p = some n) (f : ListItem → ListItem) :
    s.write p f = some (s.setHeap (Function.update s.heap p (some (f n)))) := by
  simp only [State.write, h, Option.map_some]
  rfl

/-- `if (next != NULL) next->prev = prev` -/
theorem State.writeIf_first (h : Linked ListItem.mk s.heap before l₂ none)
    (hn : (l₂.map Prod.fst).Nodup) (prev : Option Ptr) :
    ∃ heap, s.writeIf (firstOr l₂ none) (·.setPrev prev) = some (s.setHeap heap) ∧
      Linked ListItem.mk heap prev l₂ none ∧ ∀ p, p ∉ l₂.map Prod.fst → heap p = s.heap p := by
  cases l₂ with
  | nil => exact ⟨s.heap, rfl, trivial, fun _ _ => rfl⟩
  | cons x l =>
    obtain ⟨q, e⟩ := x
    have hq : q ∉ l.map Prod.fst := (List.nodup_cons.mp hn).1
    refine ⟨_, State.write_some h.1 _, h.redirectFirst hq prev, fun p hp => ?_⟩
    refine Function.update_of_ne ?_ _ _
    rintro rfl
    exact hp List.mem_cons_self

/-- `if (prev != NULL) prev->next = next` -/
theorem State.writeIf_last (h : Linked ListItem.mk s.heap none l₁ after)
    (hn : (l₁.map Prod.fst).Nodup) (next : Option Ptr) :
    ∃ heap, s.writeIf (lastOr l₁ none) (·.setNext next) = some (s.setHeap heap) ∧
      Linked ListItem.mk heap none l₁ next ∧ ∀ p, p ∉ l₁.map Prod.fst → heap p = s.heap p := by
  rcases List.eq_nil_or_concat l₁ with rfl | ⟨l, ⟨q, e⟩, rfl⟩
  · exact ⟨s.heap, rfl, trivial, fun _ _ => rfl⟩
  · rw [List.concat_eq_append] at *
    rw [List.map_append, List.nodup_append] at hn
    have hq : q ∉ l.map Prod.fst := fun hq => hn.2.2 q hq q (by simp) rfl
    refine ⟨_, ?_, h.redirectLast hq next, fun p hp => ?_⟩
    · rw [lastOr_concat]
      exact State.write_some h.at _
    · exact Function.update_of_ne (fun heq => hp (by simp [heq])) _ _

/-! ## `insertTail` and `removeFromList` -/

/-- The item to be inserted is not in the list, and its `next` is NULL. -/
theorem Holds.insertTail (h : Holds s L) (hitem : s.heap item = some ⟨d, prev, none⟩)
    (hnot : item ∉ L.map Prod.fst) :
    ∃ s', insertTail item s = some s' ∧ s'.own = s.own ∧ Holds s' (L ++ [(item, d)]) ∧
      ∀ p, p ∉ (L ++ [(item, d)]).map Prod.fst → s'.heap p = s.heap p := by
  let s₁ := s.setHeap (Function.update s.heap item (some ⟨d, s.last, none⟩))
  have hwrite : s.write item (·.setPrev s.last) = some s₁ := State.write_some hitem _
  have hlinks : Linked ListItem.mk s₁.heap none L none := by
    refine h.links.congr fun p hp => Function.update_of_ne ?_ _ _
    rintro rfl
    exact hnot hp
  obtain ⟨heap, hnext, hlinks', hout⟩ := State.writeIf_last hlinks h.nodup (some item)
  have hitem' : heap item = some ⟨d, s.last, none⟩ := by
    rw [hout item hnot]
    exact Function.update_self ..
  refine ⟨⟨heap, s.own, firstOr (L ++ [(item, d)]) none, some item⟩, ?_, rfl,
    ⟨rfl, (lastOr_concat ..).symm, ?_, ?_⟩, fun p hp => ?_⟩
  · rw [LinkedList.insertTail, hwrite]
    change (s₁.writeIf s.last _).bind _ = _
    rw [h.last, hnext]
    change some (⟨heap, s.own, if s.first = none then some item else s.first, some item⟩ : State M) = _
    rw [h.first]
    cases L with
    | nil => rfl
    | cons x L => rfl
  · refine linked_append.mpr ⟨hlinks', ?_, trivial⟩
    show heap item = _
    rw [hitem', h.last]
    rfl
  · rw [List.map_append, List.map_singleton, ← List.concat_eq_append]
    exact h.nodup.concat hnot
  · rw [List.map_append, List.mem_append, not_or] at hp
    have hne : p ≠ item := fun heq => hp.2 (by simp [heq])
    show heap p = s.heap p
    rw [hout p hp.1]
    exact Function.update_of_ne hne _ _

theorem Holds.split (h : Holds s (l₁ ++ (item, d) :: l₂)) :
    s.heap item = some ⟨d, lastOr l₁ none, firstOr l₂ none⟩ ∧ item ∉ l₁.map Prod.fst ∧
      item ∉ l₂.map Prod.fst ∧ (l₁.map Prod.fst).Nodup ∧ (l₂.map Prod.fst).Nodup ∧
      ∀ p, p ∈ l₁.map Prod.fst → p ∉ l₂.map Prod.fst := by
  have hn := h.nodup
  rw [List.map_append, List.map_cons, List.nodup_append] at hn
  obtain ⟨hn₁, hn₂, hdisj⟩ := hn
  obtain ⟨hnot, hn₂⟩ := List.nodup_cons.mp hn₂
  exact ⟨h.links.at, fun hp => hdisj _ hp _ List.mem_cons_self rfl, hnot, hn₁, hn₂,
    fun p hp hq => hdisj p hp p (List.mem_cons_of_mem _ hq) rfl⟩

theorem Holds.removeFromList (h : Holds s (l₁ ++ (item, d) :: l₂)) :
    ∃ s', removeFromList (some item) s = some s' ∧ s'.own = s.own ∧ Holds s' (l₁ ++ l₂) ∧
      ∀ p, p ∉ (l₁ ++ l₂).map Prod.fst → s'.heap p = s.heap p := by
  obtain ⟨hitem, hnot₁, hnot₂, hn₁, hn₂, hdisj⟩ := h.split
  obtain ⟨hlinks₁, -, hlinks₂⟩ := linked_append.mp h.links
  have hfirst : (if some item = s.first then firstOr l₂ none else s.first) =
      firstOr (l₁ ++ l₂) none := by
    rw [h.first]
    cases l₁ with
    | nil => exact if_pos rfl
    | cons x l₁ =>
      refine if_neg fun heq => hnot₁ ?_
      rw [Option.some.inj heq]
      exact List.mem_cons_self
  have hlast : (if some item = s.last then lastOr l₁ none else s.last) =
      lastOr (l₁ ++ l₂) none := by
    rw [h.last, lastOr_append, lastOr_append]
    rcases List.eq_nil_or_concat l₂ with rfl | ⟨l, ⟨q, e⟩, rfl⟩
    · exact if_pos rfl
    · rw [List.concat_eq_append] at hnot₂ ⊢
      rw [← List.cons_append, lastOr_concat, lastOr_concat]
      refine if_neg fun heq => hnot₂ ?_
      rw [Option.some.inj heq]
      simp
  let s₁ : State M := ⟨s.heap, s.own, firstOr (l₁ ++ l₂) none, lastOr (l₁ ++ l₂) none⟩
  obtain ⟨heap₁, hnext, hlinks₂', hout₁⟩ :=
    State.writeIf_first (s := s₁) hlinks₂ hn₂ (lastOr l₁ none)
  have hlinks₁' : Linked ListItem.mk heap₁ none l₁ (some item) :=
    hlinks₁.congr fun p hp => hout₁ p (hdisj p hp)
  obtain ⟨heap₂, hprev, hlinks₁'', hout₂⟩ :=
    State.writeIf_last (s := s₁.setHeap heap₁) hlinks₁' hn₁ (firstOr l₂ none)
  have hlinks₂'' : Linked ListItem.mk heap₂ (lastOr l₁ none) l₂ none :=
    hlinks₂'.congr fun p hp => hout₂ p fun hq => hdisj p hq hp
  refine ⟨s₁.setHeap heap₂, ?_, rfl, ⟨rfl, rfl, linked_append.mpr ⟨hlinks₁'', hlinks₂''⟩, ?_⟩,
    fun p hp => ?_⟩
  · simp only [LinkedList.removeFromList, hitem, Option.bind_eq_bind, Option.bind_some, hfirst,
      hlast]
    change (s₁.writeIf _ _).bind _ = _
    rw [hnext]
    exact hprev
  · exact h.nodup.sublist (((List.Sublist.refl l₁).append (List.sublist_cons_self _ l₂)).map _)
  · rw [List.map_append, List.mem_append, not_or] at hp
    exact (hout₂ p hp.1).trans (hout₁ p hp.2)

/-! ## `get`, `size` and `deleteAll` -/

theorem Linked.getLoop {fuel : ℕ} (h : Linked ListItem.mk heap before L none)
    (hfuel : L.length ≤ fuel) (d : ℤ) :
    getLoop heap d fuel (firstOr L none) = some ((L.find? (·.2 = d)).map Prod.fst) := by
  induction L generalizing before fuel with
  | nil => simp [firstOr, LinkedList.getLoop]
  | cons x L ih =>
    obtain ⟨p, e⟩ := x
    obtain ⟨fuel, rfl⟩ : ∃ n, fuel = n + 1 := ⟨fuel - 1, by simp at hfuel; omega⟩
    have hround : getLoop heap d (fuel + 1) (some p) =
        if e = d then some (some p) else getLoop heap d fuel (firstOr L none) := by
      rw [LinkedList.getLoop, h.1]
      rfl
    change getLoop heap d (fuel + 1) (some p) = _
    rw [hround]
    by_cases he : e = d
    · simp [he]
    · rw [if_neg he, ih h.2 (by simpa using hfuel)]
      simp [he]

theorem Linked.sizeLoop {fuel : ℕ} (h : Linked ListItem.mk heap before L none)
    (hfuel : L.length ≤ fuel) (count : ℕ) :
    sizeLoop heap fuel count (firstOr L none) = some (count + L.length) := by
  induction L generalizing before fuel count with
  | nil => simp [firstOr, LinkedList.sizeLoop]
  | cons x L ih =>
    obtain ⟨p, e⟩ := x
    obtain ⟨fuel, rfl⟩ : ∃ n, fuel = n + 1 := ⟨fuel - 1, by simp at hfuel; omega⟩
    have hround : sizeLoop heap (fuel + 1) count (some p) =
        sizeLoop heap fuel (count + 1) (firstOr L none) := by
      rw [LinkedList.sizeLoop, h.1]
      rfl
    change sizeLoop heap (fuel + 1) count (some p) = _
    rw [hround, ih h.2 (by simpa using hfuel), List.length_cons]
    congr 1
    omega

theorem Holds.get (h : Holds s L) {fuel : ℕ} (hfuel : L.length ≤ fuel) (d : ℤ) :
    get fuel d s = some ((L.find? (·.2 = d)).map Prod.fst) := by
  rw [LinkedList.get, h.first]
  exact Linked.getLoop h.links hfuel d

theorem Holds.size (h : Holds s L) {fuel : ℕ} (hfuel : L.length ≤ fuel) :
    size fuel s = some L.length := by
  rw [LinkedList.size, h.first, Linked.sizeLoop h.links hfuel, Nat.zero_add]

theorem find_eq_none_iff : (L.find? (·.2 = d)).map Prod.fst = none ↔ d ∉ L.map Prod.snd := by
  simp only [Option.map_eq_none_iff, List.find?_eq_none, decide_eq_true_eq, List.mem_map, not_exists,
    not_and]

theorem Holds.contains (h : Holds s L) {fuel : ℕ} (hfuel : L.length ≤ fuel) (d : ℤ) :
    contains fuel d s = some (if d ∈ L.map Prod.snd then 1 else 0) := by
  rw [LinkedList.contains, h.get hfuel]
  change some (if _ ≠ none then 1 else 0) = _
  simp only [Ne, find_eq_none_iff, not_not]

/-- The first item with data `d`. -/
theorem find_eq_some (h : (L.find? (·.2 = d)).map Prod.fst = some p) :
    ∃ l₁ l₂, L = l₁ ++ (p, d) :: l₂ ∧ d ∉ l₁.map Prod.snd := by
  induction L with
  | nil => cases h
  | cons x L ih =>
    obtain ⟨q, e⟩ := x
    by_cases he : e = d
    · simp only [List.find?_cons, he, decide_true, Option.map_some, Option.some.injEq] at h
      exact ⟨[], L, by rw [he, h]; rfl, List.not_mem_nil⟩
    · simp only [List.find?_cons, he, decide_false] at h
      obtain ⟨l₁, l₂, rfl, hl₁⟩ := ih h
      refine ⟨(q, e) :: l₁, l₂, rfl, fun hmem => ?_⟩
      rcases List.mem_cons.mp hmem with heq | hmem
      · exact he heq.symm
      · exact hl₁ hmem

theorem map_erase (L : List (Ptr × ℤ)) (d : ℤ) :
    (L.eraseP (·.2 = d)).map Prod.snd = (L.map Prod.snd).erase d := by
  induction L with
  | nil => rfl
  | cons x L ih =>
    by_cases hx : x.2 = d
    · simp [hx]
    · rw [List.eraseP_cons_of_neg (by simpa using hx), List.map_cons, ih, List.map_cons,
        List.erase_cons_tail (by simpa using hx)]

theorem eraseP_split (h : d ∉ l₁.map Prod.snd) :
    (l₁ ++ (p, d) :: l₂).eraseP (·.2 = d) = l₁ ++ l₂ := by
  rw [List.eraseP_append_right, List.eraseP_cons_of_pos (by simp)]
  intro x hx hd
  exact h (List.mem_map.mpr ⟨x, hx, by simpa using hd⟩)

theorem eraseP_item_split (h : p ∉ l₁.map Prod.fst) :
    (l₁ ++ (p, d) :: l₂).eraseP (·.1 = p) = l₁ ++ l₂ := by
  rw [List.eraseP_append_right, List.eraseP_cons_of_pos (by simp)]
  intro x hx hp
  exact h (List.mem_map.mpr ⟨x, hx, by simpa using hp⟩)

theorem eraseP_absent (h : d ∉ L.map Prod.snd) : L.eraseP (·.2 = d) = L := by
  apply List.eraseP_of_forall_not
  intro x hx hd
  exact h (List.mem_map.mpr ⟨x, hx, by simpa using hd⟩)

theorem Holds.get_absent (h : Holds s L) {fuel : ℕ} (hfuel : L.length ≤ fuel)
    (hd : d ∉ L.map Prod.snd) : LinkedList.get fuel d s = some none := by
  rw [h.get hfuel, find_eq_none_iff.mpr hd]

theorem Holds.get_present (h : Holds s L) {fuel : ℕ} (hfuel : L.length ≤ fuel)
    (hd : d ∈ L.map Prod.snd) :
    ∃ l₁ p l₂, L = l₁ ++ (p, d) :: l₂ ∧ d ∉ l₁.map Prod.snd ∧
      LinkedList.get fuel d s = some (some p) := by
  cases hfind : (L.find? (·.2 = d)).map Prod.fst with
  | none => exact absurd hd (find_eq_none_iff.mp hfind)
  | some p =>
    obtain ⟨l₁, l₂, hL, hl₁⟩ := find_eq_some hfind
    exact ⟨l₁, p, l₂, hL, hl₁, by rw [h.get hfuel, hfind]⟩

/-! ## The representation -/

/-- What `first` and the `next` pointers lead to. -/
inductive Forth (s : State M) : Ptr → Prop where
  | first {p : Ptr} (h : s.first = some p) : Forth s p
  | next {p q : Ptr} {n : ListItem} (h : Forth s p) (hn : s.heap p = some n)
      (hq : n.next = some q) : Forth s q

/-- What `last` and the `prev` pointers lead to. -/
inductive Back (s : State M) : Ptr → Prop where
  | last {p : Ptr} (h : s.last = some p) : Back s p
  | prev {p q : Ptr} {n : ListItem} (h : Back s p) (hn : s.heap p = some n)
      (hq : n.prev = some q) : Back s q

/-- The item at `p` names `q` as its successor. -/
def Next (heap : Heap) (p q : Ptr) : Prop := ∃ n, heap p = some n ∧ n.next = some q

/-- The links agree in both directions along the list, and nothing lies beyond its ends. -/
structure Intact (s : State M) : Prop where
  firstPrev : ∀ p, s.first = some p → ∃ n, s.heap p = some n ∧ n.prev = none
  lastNext : ∀ p, s.last = some p → ∃ n, s.heap p = some n ∧ n.next = none
  nextPrev : ∀ p n q, Forth s p → s.heap p = some n → n.next = some q →
    ∃ k, s.heap q = some k ∧ k.prev = some p
  prevNext : ∀ p n q, Forth s p → s.heap p = some n → n.prev = some q →
    ∃ k, s.heap q = some k ∧ k.next = some p
  acyclic : ∀ p, Forth s p → ¬ Relation.TransGen (Next s.heap) p p
  empty : s.first = none ↔ s.last = none
  same : ∀ p, Forth s p ↔ Back s p

theorem exists_split (h : p ∈ L.map Prod.fst) : ∃ l₁ d l₂, L = l₁ ++ (p, d) :: l₂ := by
  obtain ⟨⟨q, d⟩, hx, rfl⟩ := List.mem_map.mp h
  obtain ⟨l₁, l₂, hL⟩ := List.append_of_mem hx
  exact ⟨l₁, d, l₂, hL⟩

theorem Holds.next_split (h : Holds s (l₁ ++ (p, d) :: l₂)) {n : ListItem} {q : Ptr}
    (hn : s.heap p = some n) (hq : n.next = some q) : ∃ e l, l₂ = (q, e) :: l := by
  rw [h.links.at, Option.some.injEq] at hn
  rw [← hn] at hq
  exact eq_cons_of_firstOr hq

theorem Holds.prev_split (h : Holds s (l₁ ++ (p, d) :: l₂)) {n : ListItem} {q : Ptr}
    (hn : s.heap p = some n) (hq : n.prev = some q) : ∃ l e, l₁ = l ++ [(q, e)] := by
  rw [h.links.at, Option.some.injEq] at hn
  rw [← hn] at hq
  exact eq_concat_of_lastOr hq

theorem Holds.forth_mem (h : Holds s L) (hp : Forth s p) : p ∈ L.map Prod.fst := by
  induction hp with
  | first hp =>
    rw [h.first] at hp
    exact Chain.firstOr_mem hp
  | next _ hn hq ih =>
    obtain ⟨l₁, d, l₂, rfl⟩ := exists_split ih
    obtain ⟨e, l, rfl⟩ := h.next_split hn hq
    simp

theorem Holds.back_mem (h : Holds s L) (hp : Back s p) : p ∈ L.map Prod.fst := by
  induction hp with
  | last hp =>
    rw [h.last] at hp
    obtain ⟨l, d, rfl⟩ := eq_concat_of_lastOr hp
    simp
  | prev _ hn hq ih =>
    obtain ⟨l₁, d, l₂, rfl⟩ := exists_split ih
    obtain ⟨l, e, rfl⟩ := h.prev_split hn hq
    simp

/-- Every item of the list is reached from its first one. -/
theorem Holds.forth (h : Holds s (l₁ ++ (p, d) :: l₂)) : Forth s p := by
  induction l₁ using List.reverseRecOn generalizing p d l₂ with
  | nil => exact .first h.first
  | append_singleton l x ih =>
    obtain ⟨q, e⟩ := x
    rw [List.append_assoc, List.singleton_append] at h
    exact .next (ih h) h.links.at rfl

/-- Every item of the list is reached from its last one. -/
theorem Holds.back (h : Holds s (l₁ ++ (p, d) :: l₂)) : Back s p := by
  induction l₂ generalizing l₁ p d with
  | nil => exact .last (h.last.trans (lastOr_concat ..))
  | cons x l ih =>
    obtain ⟨q, e⟩ := x
    have hL : l₁ ++ (p, d) :: (q, e) :: l = (l₁ ++ [(p, d)]) ++ (q, e) :: l := by simp
    rw [hL] at h
    exact .prev (ih h) h.links.at (lastOr_concat ..)

theorem Holds.forth_iff (h : Holds s L) : Forth s p ↔ p ∈ L.map Prod.fst := by
  refine ⟨h.forth_mem, fun hp => ?_⟩
  obtain ⟨l₁, d, l₂, rfl⟩ := exists_split hp
  exact h.forth

theorem Holds.back_iff (h : Holds s L) : Back s p ↔ p ∈ L.map Prod.fst := by
  refine ⟨h.back_mem, fun hp => ?_⟩
  obtain ⟨l₁, d, l₂, rfl⟩ := exists_split hp
  exact h.back

/-- What `next` pointers lead to is further behind in the list. -/
theorem Holds.behind (h : Holds s (l₁ ++ (p, d) :: l₂)) {q : Ptr}
    (hq : Relation.TransGen (Next s.heap) p q) : q ∈ l₂.map Prod.fst := by
  induction hq with
  | single hstep =>
    obtain ⟨n, hn, hq⟩ := hstep
    obtain ⟨e, l, rfl⟩ := h.next_split hn hq
    simp
  | @tail r q _ hstep ih =>
    obtain ⟨n, hn, hq⟩ := hstep
    obtain ⟨m₁, e, m₂, rfl⟩ := exists_split ih
    have hL : l₁ ++ (p, d) :: (m₁ ++ (r, e) :: m₂) = (l₁ ++ (p, d) :: m₁) ++ (r, e) :: m₂ := by
      simp
    rw [hL] at h
    obtain ⟨e', l, rfl⟩ := h.next_split hn hq
    simp

theorem Holds.intact (h : Holds s L) : Intact s := by
  refine ⟨fun p hp => ?_, fun p hp => ?_, fun p n q hp hn hq => ?_, fun p n q hp hn hq => ?_,
    fun p hp hcycle => ?_, ?_, fun p => h.forth_iff.trans h.back_iff.symm⟩
  · rw [h.first] at hp
    obtain ⟨d, l, rfl⟩ := eq_cons_of_firstOr hp
    exact ⟨_, h.links.1, rfl⟩
  · rw [h.last] at hp
    obtain ⟨l, d, rfl⟩ := eq_concat_of_lastOr hp
    exact ⟨_, h.links.at, rfl⟩
  · obtain ⟨l₁, d, l₂, rfl⟩ := exists_split (h.forth_mem hp)
    obtain ⟨e, l, rfl⟩ := h.next_split hn hq
    have hL : l₁ ++ (p, d) :: (q, e) :: l = (l₁ ++ [(p, d)]) ++ (q, e) :: l := by simp
    rw [hL] at h
    exact ⟨_, h.links.at, lastOr_concat ..⟩
  · obtain ⟨l₁, d, l₂, rfl⟩ := exists_split (h.forth_mem hp)
    obtain ⟨l, e, rfl⟩ := h.prev_split hn hq
    rw [List.append_assoc] at h
    exact ⟨_, h.links.at, rfl⟩
  · obtain ⟨l₁, d, l₂, rfl⟩ := exists_split (h.forth_mem hp)
    exact h.split.2.2.1 (h.behind hcycle)
  · rw [h.first, h.last]
    constructor
    · intro hnone
      rw [Chain.firstOr_eq_none hnone]
      rfl
    · intro hnone
      rw [lastOr_eq_none hnone]
      rfl

/-! ## The bound on the rounds -/

/-- A loop that comes to its end does the same with a larger bound. -/
theorem getLoop_mono {fuel fuel' : ℕ} {r : Option Ptr} (h : getLoop heap d fuel before = some r)
    (hle : fuel ≤ fuel') : getLoop heap d fuel' before = some r := by
  induction fuel generalizing before fuel' with
  | zero =>
    cases before with
    | none =>
      rw [getLoop] at h ⊢
      exact h
    | some p => cases h
  | succ fuel ih =>
    obtain ⟨fuel', rfl⟩ : ∃ n, fuel' = n + 1 := ⟨fuel' - 1, by omega⟩
    cases before with
    | none =>
      rw [getLoop] at h ⊢
      exact h
    | some p =>
      rw [getLoop] at h ⊢
      simp only [Option.bind_eq_bind, Option.bind_eq_some_iff] at h ⊢
      obtain ⟨n, hn, h⟩ := h
      refine ⟨n, hn, ?_⟩
      split at h
      · rename_i heq
        rwa [if_pos heq]
      · rename_i hne
        rw [if_neg hne]
        exact ih h (by omega)

theorem sizeLoop_mono {fuel fuel' count r : ℕ} (h : sizeLoop heap fuel count before = some r)
    (hle : fuel ≤ fuel') : sizeLoop heap fuel' count before = some r := by
  induction fuel generalizing before fuel' count with
  | zero =>
    cases before with
    | none =>
      rw [sizeLoop] at h ⊢
      exact h
    | some p => cases h
  | succ fuel ih =>
    obtain ⟨fuel', rfl⟩ : ∃ n, fuel' = n + 1 := ⟨fuel' - 1, by omega⟩
    cases before with
    | none =>
      rw [sizeLoop] at h ⊢
      exact h
    | some p =>
      rw [sizeLoop] at h ⊢
      simp only [Option.bind_eq_bind, Option.bind_eq_some_iff] at h ⊢
      obtain ⟨n, hn, h⟩ := h
      exact ⟨n, hn, ih h (by omega)⟩

theorem Op.run_mono {a : Allocator M} {o : Op} {fuel fuel' : ℕ} {x : Ret × State M}
    (h : o.run a fuel s = some x) (hle : fuel ≤ fuel') : o.run a fuel' s = some x := by
  cases o with
  | insert d => exact h
  | remove d =>
    simp only [Op.run, LinkedList.remove, Option.bind_eq_bind, Option.map_eq_some_iff,
      Option.bind_eq_some_iff] at h ⊢
    obtain ⟨s', ⟨item, hget, hrest⟩, hx⟩ := h
    exact ⟨s', ⟨item, getLoop_mono hget hle, hrest⟩, hx⟩
  | contains d =>
    simp only [Op.run, LinkedList.contains, Option.bind_eq_bind, Option.map_eq_some_iff,
      Option.bind_eq_some_iff] at h ⊢
    obtain ⟨n, ⟨item, hget, hrest⟩, hx⟩ := h
    exact ⟨n, ⟨item, getLoop_mono hget hle, hrest⟩, hx⟩
  | size =>
    simp only [Op.run, LinkedList.size, Option.map_eq_some_iff] at h ⊢
    obtain ⟨n, hsize, hx⟩ := h
    exact ⟨n, sizeLoop_mono hsize hle, hx⟩

/-- Two bounds that are large enough give the same result. -/
theorem Op.run_unique {a : Allocator M} {o : Op} {fuel fuel' : ℕ} {x y : Ret × State M}
    (hx : o.run a fuel s = some x) (hy : o.run a fuel' s = some y) : x = y := by
  have hx' := Op.run_mono hx (Nat.le_max_left fuel fuel')
  have hy' := Op.run_mono hy (Nat.le_max_right fuel fuel')
  rw [hx'] at hy'
  exact Option.some.inj hy'

/-! ## `remove(int)` in two steps -/

theorem remove_of_get {a : Allocator M} {fuel : ℕ}
    (hget : LinkedList.get fuel d s = some (some p)) :
    LinkedList.remove a fuel d s = LinkedList.removeItem a (some p) s := by
  rw [LinkedList.remove, hget]
  rfl

theorem remove_of_get_none {a : Allocator M} {fuel : ℕ}
    (hget : LinkedList.get fuel d s = some none) :
    LinkedList.remove a fuel d s = deleteItem a none s := by
  rw [LinkedList.remove, hget]
  rfl

/-! ## The list over fresh memory -/

variable {new : New} {u u' : State Default}

/-- The addresses in use are those of the list, and nothing is at the others. -/
structure Owns (u : State Default) (L : List (Ptr × ℤ)) : Prop where
  holds : Holds u L
  used : ∀ p, p ∈ u.own.used ↔ p ∈ L.map Prod.fst
  nodup : u.own.used.Nodup
  dead : ∀ p, p ∉ u.own.used → u.heap p = none

/-- An empty list with the default allocator and nothing allocated. -/
def start : State Default := newList (fun _ => none) ⟨0, [], []⟩

theorem owns_start : Owns start [] :=
  ⟨holds_newList _ _, fun _ => Iff.rfl, List.nodup_nil, fun _ _ => rfl⟩

theorem Owns.insert (h : Owns u L) (new : New) (d : ℤ) :
    ∃ p u', LinkedList.insert (defaultAllocator new) d u = some (p, u') ∧
      p ∉ L.map Prod.fst ∧ Owns u' (L ++ [(p, d)]) := by
  let p := new.choose u.own.calls u.own.used
  have hp : p ∉ u.own.used := new.fresh _ _
  have hpL : p ∉ L.map Prod.fst := fun hmem => hp ((h.used p).mpr hmem)
  let u₁ : State Default := { u with
    heap := Function.update u.heap p (some ⟨d, none, none⟩)
    own := { u.own with calls := u.own.calls + 1, used := p :: u.own.used } }
  have hholds : Holds u₁ L := ⟨h.holds.first, h.holds.last, h.holds.links.congr fun q hq =>
    Function.update_of_ne (fun heq => hpL (by rw [← heq]; exact hq)) _ _, h.holds.nodup⟩
  obtain ⟨u', hu', hown, hholds', hout⟩ := hholds.insertTail (Function.update_self ..) hpL
  refine ⟨p, u', ?_, hpL, hholds', fun q => ?_, ?_, fun q hq => ?_⟩
  · rw [LinkedList.insert]
    change (LinkedList.insertTail p u₁).bind _ = _
    rw [hu']
    rfl
  · rw [hown, List.map_append, List.mem_append, ← h.used]
    show q ∈ p :: u.own.used ↔ _
    simp [or_comm]
  · rw [hown]
    exact List.nodup_cons.mpr ⟨hp, h.nodup⟩
  · rw [hown] at hq
    obtain ⟨hqp, hq⟩ := not_or.mp fun hmem => hq (List.mem_cons.mpr hmem)
    rw [hout q ?_]
    · exact (Function.update_of_ne hqp _ _).trans (h.dead q hq)
    · rw [List.map_append, List.mem_append, ← h.used]
      simp [hqp, hq]

/-- `removeFromList` and `deleteListItem` of an item of the list. -/
theorem Owns.removeItem (h : Owns u (l₁ ++ (p, d) :: l₂)) (new : New) :
    ∃ u', LinkedList.removeItem (defaultAllocator new) (some p) u = some u' ∧
      Owns u' (l₁ ++ l₂) := by
  obtain ⟨u₁, hu₁, hown, hholds, hout⟩ := h.holds.removeFromList
  obtain ⟨-, hnot₁, hnot₂, -⟩ := h.holds.split
  have hp : p ∉ (l₁ ++ l₂).map Prod.fst := by simpa using ⟨by simpa using hnot₁, by simpa using hnot₂⟩
  have hused : p ∈ u₁.own.used := by
    rw [hown, h.used]
    simp
  let u' : State Default := { u₁ with
    heap := Function.update u₁.heap p none
    own := { u₁.own with used := u₁.own.used.erase p, deleted := u₁.own.deleted ++ [p] } }
  have hdelete : deleteItem (defaultAllocator new) (some p) u₁ = some u' := by
    simp only [deleteItem, defaultAllocator, if_pos hused]
    rfl
  have hused' : ∀ q, q ∈ u'.own.used ↔ q ∈ (l₁ ++ l₂).map Prod.fst := by
    intro q
    show q ∈ u₁.own.used.erase p ↔ _
    rw [hown, h.nodup.mem_erase_iff, h.used]
    constructor
    · rintro ⟨hne, hmem⟩
      simpa [hne] using hmem
    · intro hmem
      exact ⟨fun heq => hp (heq ▸ hmem), by
        rw [List.map_append, List.mem_append] at hmem ⊢
        exact hmem.imp id (List.mem_cons_of_mem _)⟩
  refine ⟨u', ?_, ⟨hholds.first, hholds.last, hholds.links.congr fun q hq => ?_, hholds.nodup⟩,
    hused', ?_, fun q hq => ?_⟩
  · simp only [LinkedList.removeItem, hu₁, Option.bind_eq_bind, Option.bind_some, hdelete]
  · refine Function.update_of_ne ?_ _ _
    rintro rfl
    exact hp hq
  · show (u₁.own.used.erase p).Nodup
    rw [hown]
    exact h.nodup.erase p
  · show Function.update u₁.heap p none q = none
    by_cases hqp : q = p
    · rw [hqp, Function.update_self]
    · rw [Function.update_of_ne hqp, hout q fun hmem => hq ((hused' q).mpr hmem)]
      refine h.dead q fun hmem => hq ?_
      show q ∈ u₁.own.used.erase p
      rw [hown]
      exact (h.nodup.mem_erase_iff).mpr ⟨hqp, hmem⟩

theorem Owns.remove (h : Owns u L) (new : New) {fuel : ℕ} (hfuel : L.length ≤ fuel) (d : ℤ) :
    ∃ u', LinkedList.remove (defaultAllocator new) fuel d u = some u' ∧
      Owns u' (L.eraseP (·.2 = d)) := by
  by_cases hd : d ∈ L.map Prod.snd
  · obtain ⟨l₁, p, l₂, rfl, hl₁, hget⟩ := h.holds.get_present hfuel hd
    rw [remove_of_get hget, eraseP_split hl₁]
    exact h.removeItem new
  · rw [remove_of_get_none (h.holds.get_absent hfuel hd), eraseP_absent hd]
    exact ⟨u, rfl, h⟩

/-- Each item is read before it is deleted, and then not any more. -/
theorem deleteAll_spec (new : New) {fuel : ℕ} (hlinks : Linked ListItem.mk u.heap before L none)
    (hn : (L.map Prod.fst).Nodup) (hused : ∀ p ∈ L.map Prod.fst, p ∈ u.own.used)
    (hnused : u.own.used.Nodup) (hfuel : L.length ≤ fuel) :
    ∃ u', deleteAll (defaultAllocator new) fuel (firstOr L none) u = some u' ∧
      u'.own.deleted = u.own.deleted ++ L.map Prod.fst ∧
      (∀ p, p ∈ L.map Prod.fst → u'.heap p = none) ∧
      ∀ p, p ∉ L.map Prod.fst → u'.heap p = u.heap p := by
  induction L generalizing u before fuel with
  | nil => exact ⟨u, by simp [firstOr, deleteAll], by simp, by simp, fun _ _ => rfl⟩
  | cons x L ih =>
    obtain ⟨p, d⟩ := x
    obtain ⟨fuel, rfl⟩ : ∃ n, fuel = n + 1 := ⟨fuel - 1, by simp at hfuel; omega⟩
    obtain ⟨hp, hn⟩ := List.nodup_cons.mp hn
    have hin : p ∈ u.own.used := hused p List.mem_cons_self
    let u₁ : State Default := { u with
      heap := Function.update u.heap p none
      own := { u.own with used := u.own.used.erase p, deleted := u.own.deleted ++ [p] } }
    have hdelete : deleteItem (defaultAllocator new) (some p) u = some u₁ := by
      simp only [deleteItem, defaultAllocator, if_pos hin]
      rfl
    have hlinks₁ : Linked ListItem.mk u₁.heap (some p) L none := by
      refine hlinks.2.congr fun q hq => Function.update_of_ne ?_ _ _
      rintro rfl
      exact hp hq
    have hused₁ : ∀ q ∈ L.map Prod.fst, q ∈ u₁.own.used := by
      intro q hq
      refine hnused.mem_erase_iff.mpr ⟨?_, hused q (List.mem_cons_of_mem _ hq)⟩
      rintro rfl
      exact hp hq
    obtain ⟨u', hu', hdeleted, hgone, hsame⟩ :=
      ih hlinks₁ hn hused₁ (hnused.erase p) (by simpa using hfuel)
    refine ⟨u', ?_, ?_, fun q hq => ?_, fun q hq => ?_⟩
    · change deleteAll (defaultAllocator new) (fuel + 1) (some p) u = _
      rw [deleteAll, hlinks.1]
      change (deleteItem (defaultAllocator new) (some p) u).bind _ = _
      rw [hdelete]
      exact hu'
    · rw [hdeleted, List.map_cons]
      show u.own.deleted ++ [p] ++ L.map Prod.fst = _
      rw [List.append_assoc]
      rfl
    · rcases List.mem_cons.mp hq with rfl | hq
      · rw [hsame _ hp]
        exact Function.update_self ..
      · exact hgone q hq
    · obtain ⟨hqp, hq⟩ := not_or.mp fun hmem => hq (List.mem_cons.mpr hmem)
      rw [hsame q hq]
      exact Function.update_of_ne hqp _ _

/-- The destructor passes every item of the list to `deleteListItem` once, and leaves nothing. -/
theorem Owns.destroy (h : Owns u L) (new : New) {fuel : ℕ} (hfuel : L.length ≤ fuel) :
    ∃ u', LinkedList.destroy (defaultAllocator new) fuel u = some u' ∧
      u'.own.deleted = u.own.deleted ++ L.map Prod.fst ∧ u'.first = none ∧ u'.last = none ∧
      ∀ p, u'.heap p = none := by
  obtain ⟨u₁, hu₁, hdeleted, hgone, hsame⟩ := deleteAll_spec new h.holds.links h.holds.nodup
    (fun p => (h.used p).mpr) h.nodup hfuel
  refine ⟨{ u₁ with first := none, last := none }, ?_, hdeleted, rfl, rfl, fun p => ?_⟩
  · rw [LinkedList.destroy, h.holds.first, hu₁]
    rfl
  · by_cases hp : p ∈ L.map Prod.fst
    · exact hgone p hp
    · exact (hsame p hp).trans (h.dead p fun hmem => hp ((h.used p).mp hmem))

/-! ## Histories -/

/-- A call of the list: an operation on data, or the removal of an item that was returned before. -/
inductive Call where
  | op (op : Op)
  | removeItem (item : Ptr)
  deriving DecidableEq, Repr

/-- One call; `none` where the code would crash or not return. -/
def Call.run (a : Allocator M) (fuel : ℕ) (s : State M) : Call → Option (Ret × State M)
  | op o => o.run a fuel s
  | removeItem item => (LinkedList.removeItem a (some item) s).map fun s => (.void, s)

/-- `remove(item)` is called with an item of the list. -/
def Call.Allowed (s : State M) : Call → Prop
  | op _ => True
  | removeItem item => Forth s item

/-- The calls that have returned, with their results, and the state after them. -/
inductive History (a : Allocator M) (s₀ : State M) : List (Call × Ret) → State M → Prop where
  | nil : History a s₀ [] s₀
  | snoc {calls : List (Call × Ret)} {s s' : State M} {c : Call} {r : Ret} {fuel : ℕ}
      (h : History a s₀ calls s) (hc : c.Allowed s) (hs : c.run a fuel s = some (r, s')) :
      History a s₀ (calls ++ [(c, r)]) s'

/-- What a call does to the sequence of the items. -/
def seqSpec (L : List (Ptr × ℤ)) (c : Call) (r : Ret) (L' : List (Ptr × ℤ)) : Prop :=
  match c with
  | .op (.insert d) => ∃ p, p ∉ L.map Prod.fst ∧ r = .item p ∧ L' = L ++ [(p, d)]
  | .op (.remove d) => r = .void ∧ L' = L.eraseP (·.2 = d)
  | .op (.contains d) => r = .int (if d ∈ L.map Prod.snd then 1 else 0) ∧ L' = L
  | .op .size => r = .int L.length ∧ L' = L
  | .removeItem p => r = .void ∧ L' = L.eraseP (·.1 = p)

/-- The calls with what they return, as the sequence answers them one after the other. -/
inductive SeqHistory : List (Call × Ret) → List (Ptr × ℤ) → Prop where
  | nil : SeqHistory [] []
  | snoc {calls : List (Call × Ret)} {L L' : List (Ptr × ℤ)} {c : Call} {r : Ret}
      (h : SeqHistory calls L) (hs : seqSpec L c r L') : SeqHistory (calls ++ [(c, r)]) L'

/-- Every call returns, if its loops may take as many rounds as the list has items. -/
theorem Owns.run (h : Owns u L) (new : New) {c : Call} (hc : c.Allowed u) {fuel : ℕ}
    (hfuel : L.length ≤ fuel) :
    ∃ r u' L', c.run (defaultAllocator new) fuel u = some (r, u') ∧ seqSpec L c r L' ∧
      Owns u' L' := by
  cases c with
  | op o =>
    cases o with
    | insert d =>
      obtain ⟨p, u', hu', hp, h'⟩ := h.insert new d
      exact ⟨.item p, u', _, by simp only [Call.run, Op.run, hu', Option.map_some],
        ⟨p, hp, rfl, rfl⟩, h'⟩
    | remove d =>
      obtain ⟨u', hu', h'⟩ := h.remove new hfuel d
      exact ⟨.void, u', _, by simp only [Call.run, Op.run, hu', Option.map_some], ⟨rfl, rfl⟩, h'⟩
    | contains d =>
      exact ⟨_, u, L, by simp only [Call.run, Op.run, h.holds.contains hfuel, Option.map_some],
        ⟨rfl, rfl⟩, h⟩
    | size =>
      exact ⟨_, u, L, by simp only [Call.run, Op.run, h.holds.size hfuel, Option.map_some],
        ⟨rfl, rfl⟩, h⟩
  | removeItem p =>
    obtain ⟨l₁, d, l₂, rfl⟩ := exists_split (h.holds.forth_mem hc)
    obtain ⟨u', hu', h'⟩ := h.removeItem new
    refine ⟨.void, u', _, by simp only [Call.run, hu', Option.map_some], ⟨rfl, ?_⟩, h'⟩
    exact (eraseP_item_split h.holds.split.2.1).symm

theorem Call.run_mono {a : Allocator M} {c : Call} {fuel fuel' : ℕ} {x : Ret × State M}
    (h : c.run a fuel s = some x) (hle : fuel ≤ fuel') : c.run a fuel' s = some x := by
  cases c with
  | op o => exact Op.run_mono (o := o) h hle
  | removeItem item => exact h

theorem History.owns {calls : List (Call × Ret)}
    (h : History (defaultAllocator new) start calls u) : ∃ L, SeqHistory calls L ∧ Owns u L := by
  induction h with
  | nil => exact ⟨[], .nil, owns_start⟩
  | @snoc calls u u' c r fuel _ hc hs ih =>
    obtain ⟨L, hspec, hu⟩ := ih
    obtain ⟨r', u'', L', hs', hspec', hu''⟩ := hu.run new hc (Nat.le_max_right fuel L.length)
    have heq := (Call.run_mono hs (Nat.le_max_left fuel L.length)).symm.trans hs'
    rw [Option.some.injEq, Prod.mk.injEq] at heq
    obtain ⟨rfl, rfl⟩ := heq
    exact ⟨L', .snoc hspec hspec', hu''⟩

/-- After any calls the list is the sequence that they make, doubly linked; each further call
returns; and the destructor deletes each item once. -/
theorem list_refines_sequence (new : New) (calls : List (Call × Ret)) (s : State Default)
    (h : History (defaultAllocator new) start calls s) :
    ∃ L, SeqHistory calls L ∧ Holds s L ∧ Intact s ∧ (∀ p, Forth s p ↔ p ∈ L.map Prod.fst) ∧
      (∀ c : Call, c.Allowed s → ∃ fuel r s', c.run (defaultAllocator new) fuel s = some (r, s')) ∧
      ∃ fuel s', destroy (defaultAllocator new) fuel s = some s' ∧
        s'.own.deleted = s.own.deleted ++ L.map Prod.fst ∧ s'.first = none ∧ s'.last = none ∧
        ∀ p, s'.heap p = none := by
  obtain ⟨L, hspec, hs⟩ := h.owns
  refine ⟨L, hspec, hs.holds, hs.holds.intact, fun p => hs.holds.forth_iff, fun c hc => ?_,
    L.length, hs.destroy new (Nat.le_refl _)⟩
  obtain ⟨r, s', -, hrun, -, -⟩ := hs.run new hc (Nat.le_refl L.length)
  exact ⟨L.length, r, s', hrun⟩

theorem le_sum_of_mem {l : List ℕ} {n : ℕ} (h : n ∈ l) : n ≤ l.sum := by
  induction l with
  | nil => cases h
  | cons m l ih =>
    rw [List.sum_cons]
    rcases List.mem_cons.mp h with rfl | h
    · omega
    · have := ih h
      omega

/-- An address above all that are in use. -/
def New.above : New where
  choose _ used := used.sum + 1
  fresh _ used h := by
    have := le_sum_of_mem h
    omega

/-- An item is inserted and removed by its address. -/
theorem list_refines_sequence_two : ∃ s,
    History (defaultAllocator .above) start
      [(.op (.insert 5), .item 1), (.removeItem 1, .void)] s ∧
    ∃ L, SeqHistory [(.op (.insert 5), .item 1), (.removeItem 1, .void)] L ∧ Holds s L := by
  have h₁ := @History.snoc _ (defaultAllocator .above) start [] start _ (.op (.insert 5)) (.item 1)
    0 .nil trivial rfl
  have h₂ := @History.snoc _ _ _ _ _ _ (.removeItem 1) .void 0 h₁ (.first rfl) rfl
  obtain ⟨L, hspec, hs, -⟩ := list_refines_sequence .above _ _ h₂
  exact ⟨_, h₂, L, hspec, hs⟩

end Htmsql.LinkedList
