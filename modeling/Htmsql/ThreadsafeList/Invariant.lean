import Htmsql.Lib.Chain
import Htmsql.ThreadsafeList.Machine

/-!
# The invariant of the list

A doubly linked list is two singly linked ones, the items that follow `first` by `next` and those
that precede `last` by `prev`. Each of them is intact at every moment, also in the middle of an
insertion or a removal: `Inv s L F B` says that the first one is `F`, the second one, turned round, is
`B`, and that the list is `L` as far as the effects of the operations go. The three are the same
while the lock is free (`Inv.free`); where they differ, it is the thread inside the lock that knows how
(`Pc.Position`).

Other threads have items of their own, created and not yet inserted or removed and not yet deleted
(`Pc.owned`), which are in none of the three.
-/

namespace Htmsql.ThreadsafeList

open Chain (Node Seg firstOr last)
open Linearizable (Log Status Clients)

/-! ## The two chains of a heap -/

/-- The item as a node of the list from `first` on. -/
def ListItem.forth (n : ListItem) : Node Ptr Int := ⟨n.data, n.next⟩

/-- The item as a node of the list from `last` on. -/
def ListItem.back (n : ListItem) : Node Ptr Int := ⟨n.data, n.prev⟩

/-- The items with their `next`. -/
def fwd (heap : Ptr → Option ListItem) (p : Ptr) : Option (Node Ptr Int) :=
  (heap p).map ListItem.forth

/-- The items with their `prev`. -/
def bwd (heap : Ptr → Option ListItem) (p : Ptr) : Option (Node Ptr Int) :=
  (heap p).map ListItem.back

variable {heap : Ptr → Option ListItem} {p : Ptr} {n : ListItem}

theorem fwd_update (heap : Ptr → Option ListItem) (p : Ptr) (o : Option ListItem) :
    fwd (Function.update heap p o) = Function.update (fwd heap) p (o.map ListItem.forth) := by
  funext q
  by_cases hq : q = p
  · subst hq
    simp [fwd]
  · simp [fwd, hq]

theorem bwd_update (heap : Ptr → Option ListItem) (p : Ptr) (o : Option ListItem) :
    bwd (Function.update heap p o) = Function.update (bwd heap) p (o.map ListItem.back) := by
  funext q
  by_cases hq : q = p
  · subst hq
    simp [bwd]
  · simp [bwd, hq]

theorem fwd_setPrev (h : heap p = some n) (e : Option Ptr) :
    fwd (Function.update heap p (some (n.setPrev e))) = fwd heap := by
  have hp : fwd heap p = some (n.setPrev e).forth := by
    simp [fwd, h, ListItem.forth, ListItem.setPrev]
  rw [fwd_update, Option.map_some, ← hp, Function.update_eq_self]

theorem bwd_setNext (h : heap p = some n) (e : Option Ptr) :
    bwd (Function.update heap p (some (n.setNext e))) = bwd heap := by
  have hp : bwd heap p = some (n.setNext e).back := by
    simp [bwd, h, ListItem.back, ListItem.setNext]
  rw [bwd_update, Option.map_some, ← hp, Function.update_eq_self]

/-! ## What a thread has and knows -/

/-- The thread has locked the list. -/
def Pc.critical : Pc → Bool
  | .idle | .create _ | .lockInsert _ _ | .lockGet _ | .delete _ _ | .ret _ => false
  | _ => true

/-- The item that is in no list and that the thread will insert or delete. -/
def Pc.owned : Pc → Option Ptr
  | .lockInsert _ item | .setPrev _ item | .setNext _ item => some item
  | .unlock item _ => item
  | .delete item _ => some item
  | _ => none

/-- How far the call of the thread has got, as the log sees it. -/
def Pc.status : Pc → Status Op Ret
  | .idle => .idle
  | .create d | .lockInsert d _ | .setPrev d _ | .setNext d _ => .pending (.insert d)
  | .setLast _ item | .setFirst _ item => .effective (.item item)
  | .lockGet q | .first q | .test q _ | .next q _ => .pending q.op
  | .readPrev d _ | .readNext d _ _ | .unlinkFirst d _ _ _ | .unlinkLast d _ _ _
  | .unlinkNext d _ _ _ | .unlinkPrev d _ _ _ => .pending (.remove d)
  | .unlock _ r | .delete _ r | .ret r => .effective r

/-- The item to be inserted is as it has been created. -/
def Pc.Ready (heap : Ptr → Option ListItem) : Pc → Prop
  | .lockInsert d item | .setPrev d item => heap item = some ⟨d, none, none⟩
  | _ => True

/-- `item` holds the first `d` of the list, with these items before and behind it. -/
structure FirstAt (L : List (Ptr × Int)) (d : Int) (item : Ptr) (l₁ l₂ : List (Ptr × Int)) :
    Prop where
  split : L = l₁ ++ (item, d) :: l₂
  notMem : d ∉ l₁.map Prod.snd

/-- What the thread inside the lock has changed already, and what it has read. -/
def Pc.Position (heap : Ptr → Option ListItem) (L F B : List (Ptr × Int)) : Pc → Prop
  | .setPrev _ _ | .first _ | .unlock _ _ => F = L ∧ B = L
  | .setNext d item => F = L ∧ B = L ∧ heap item = some ⟨d, last L, none⟩
  | .setLast d item => ∃ l, L = l ++ [(item, d)] ∧ F = (if l = [] then [] else L) ∧ B = l ∧
      heap item = some ⟨d, last l, none⟩
  | .setFirst d item => ∃ l, L = l ++ [(item, d)] ∧ F = (if l = [] then [] else L) ∧ B = L ∧
      heap item = some ⟨d, last l, none⟩
  | .test q item => F = L ∧ B = L ∧ ∃ l₁ d l₂, L = l₁ ++ (item, d) :: l₂ ∧
      q.data ∉ l₁.map Prod.snd
  | .next q item => F = L ∧ B = L ∧ ∃ l₁ d l₂, L = l₁ ++ (item, d) :: l₂ ∧
      q.data ∉ (l₁ ++ [(item, d)]).map Prod.snd
  | .readPrev d item => F = L ∧ B = L ∧ ∃ l₁ l₂, FirstAt L d item l₁ l₂
  | .readNext d item prev => F = L ∧ B = L ∧ ∃ l₁ l₂, FirstAt L d item l₁ l₂ ∧ prev = last l₁
  | .unlinkFirst d item prev succ => F = L ∧ B = L ∧ ∃ l₁ l₂, FirstAt L d item l₁ l₂ ∧
      prev = last l₁ ∧ succ = firstOr l₂ none
  | .unlinkLast d item prev succ => ∃ l₁ l₂, FirstAt L d item l₁ l₂ ∧ prev = last l₁ ∧
      succ = firstOr l₂ none ∧ F = (if l₁ = [] then l₂ else L) ∧ B = L
  | .unlinkNext d item prev succ => ∃ l₁ l₂, FirstAt L d item l₁ l₂ ∧ prev = last l₁ ∧
      succ = firstOr l₂ none ∧ F = (if l₁ = [] then l₂ else L) ∧ B = (if l₂ = [] then l₁ else L)
  | .unlinkPrev d item prev succ => ∃ l₁ l₂, FirstAt L d item l₁ l₂ ∧ prev = last l₁ ∧
      succ = firstOr l₂ none ∧ F = (if l₁ = [] then l₂ else L) ∧ B = l₁ ++ l₂
  | _ => True

variable {T : Type}

/-- The memory of the list. -/
structure Shape (s : Sys T) (L F B : List (Ptr × Int)) : Prop where
  first : s.first = firstOr F none
  forth : Seg (fwd s.heap) F none
  last : s.last = last B
  back : Seg (bwd s.heap) B.reverse none
  nodup : (L.map Prod.fst).Nodup
  alive : ∀ x ∈ L, ∃ n, s.heap x.1 = some n ∧ n.data = x.2
  subForth : F.Sublist L
  subBack : B.Sublist L
  closed : ∀ x ∈ L, ∀ n q, s.heap x.1 = some n → n.next = some q ∨ n.prev = some q →
    q ∈ L.map Prod.fst
  fresh : ∀ p n, s.heap p = some n → p < s.allocated
  fault : s.fault = false

/-- The invariant of the machine. `L` is the list as it is specified, `F` and `B` are what the
links show forwards and backwards while a thread is inside. -/
structure Inv (s : Sys T) (L F B : List (Ptr × Int)) : Prop where
  shape : Shape s L F B
  free : s.holder = none → F = L ∧ B = L
  holder : ∀ t, (s.pc t).critical = true ↔ s.holder = some t
  owned : ∀ t p, (s.pc t).owned = some p → s.heap p ≠ none ∧ p ∉ L.map Prod.fst
  apart : ∀ t u p, (s.pc t).owned = some p → (s.pc u).owned = some p → t = u
  ready : ∀ t, (s.pc t).Ready s.heap
  position : ∀ t, (s.pc t).Position s.heap L F B
  clients : Clients listSpec [] s.log s.id (fun t => (s.pc t).status) (L.map Prod.snd)

theorem inv_init : Inv (init : Sys T) [] [] [] := by
  have hshape : Shape (init : Sys T) [] [] [] := by
    refine ⟨rfl, trivial, rfl, trivial, List.nodup_nil, ?_, List.Sublist.slnil, List.Sublist.slnil,
      ?_, ?_, rfl⟩ <;> simp [init]
  refine ⟨hshape, fun _ => ⟨rfl, rfl⟩, ?_, ?_, ?_, fun _ => trivial, fun _ => trivial,
    Linearizable.clients_init⟩ <;> simp [init, Pc.critical, Pc.owned]

variable {s s' : Sys T} {t : T} {L L' F F' B B' : List (Ptr × Int)}

/-! ## The frame -/

theorem Pc.position_of_not_critical {p : Pc} (h : p.critical = false) : p.Position heap L F B := by
  cases p
  case idle | create | lockInsert | lockGet | delete | ret => trivial
  all_goals cases h

/-- What the thread inside the lock knows of the heap is about the list and its own item. -/
theorem Pc.Position.congr {heap' : Ptr → Option ListItem} {p : Pc} (h : p.Position heap L F B)
    (hlist : ∀ q ∈ L.map Prod.fst, heap' q = heap q) (hown : ∀ q, p.owned = some q → heap' q = heap q) :
    p.Position heap' L F B := by
  cases p
  case setNext d item =>
    obtain ⟨hF, hB, hn⟩ := h
    exact ⟨hF, hB, (hown item rfl).trans hn⟩
  case setLast d item | setFirst d item =>
    obtain ⟨l, hL, hF, hB, hn⟩ := h
    exact ⟨l, hL, hF, hB, (hlist item (by rw [hL]; simp)).trans hn⟩
  all_goals exact h

/-- The shape depends on the items of the list only. -/
theorem Shape.congr (h : Shape s L F B) (hfirst : s'.first = s.first) (hlast : s'.last = s.last)
    (hfault : s'.fault = s.fault) (hfresh : ∀ p n, s'.heap p = some n → p < s'.allocated)
    (hlist : ∀ p ∈ L.map Prod.fst, s'.heap p = s.heap p) : Shape s' L F B := by
  have hmem : ∀ {l : List (Ptr × Int)}, l.Sublist L → ∀ x ∈ l, s'.heap x.1 = s.heap x.1 :=
    fun hsub x hx => hlist x.1 (List.mem_map_of_mem (hsub.subset hx))
  refine ⟨hfirst.trans h.first, h.forth.congr fun x hx => ?_, hlast.trans h.last,
    h.back.congr fun x hx => ?_, h.nodup, fun x hx => ?_, h.subForth, h.subBack,
    fun x hx n q hn => ?_, hfresh, hfault.trans h.fault⟩
  · rw [fwd, hmem h.subForth x hx, fwd]
  · rw [bwd, hmem h.subBack x (List.mem_reverse.mp hx), bwd]
  · rw [hmem (List.Sublist.refl L) x hx]
    exact h.alive x hx
  · rw [hmem (List.Sublist.refl L) x hx] at hn
    exact h.closed x hx n q hn

/-- The frame of a step of thread `t`. -/
theorem Inv.update (h : Inv s L F B) (t : T) (hpc : ∀ u, u ≠ t → s'.pc u = s.pc u)
    (hshape : Shape s' L' F' B') (hfree : s'.holder = none → F' = L' ∧ B' = L')
    (hself : (s'.pc t).critical = true ↔ s'.holder = some t)
    (hother : ∀ u, u ≠ t → (s'.holder = some u ↔ s.holder = some u))
    (hheap : ∀ u p, u ≠ t → (s.pc u).owned = some p →
      s'.heap p = s.heap p ∧ p ∉ L'.map Prod.fst)
    (howned : ∀ p, (s'.pc t).owned = some p → s'.heap p ≠ none ∧ p ∉ L'.map Prod.fst ∧
      ∀ u, u ≠ t → (s.pc u).owned ≠ some p)
    (hready : (s'.pc t).Ready s'.heap) (hposition : (s'.pc t).Position s'.heap L' F' B')
    (hpositionOther : ∀ u, u ≠ t → (s.pc u).critical = true →
      (s.pc u).Position s'.heap L' F' B')
    (hclients : Clients listSpec [] s'.log s'.id (fun t => (s'.pc t).status)
      (L'.map Prod.snd)) : Inv s' L' F' B' := by
  refine ⟨hshape, hfree, ?_, ?_, ?_, ?_, ?_, hclients⟩
  · intro u
    by_cases hu : u = t
    · rw [hu]
      exact hself
    · rw [hpc u hu, hother u hu]
      exact h.holder u
  · intro u p hp
    by_cases hu : u = t
    · obtain ⟨h₁, h₂, -⟩ := howned p (hu ▸ hp)
      exact ⟨h₁, h₂⟩
    · rw [hpc u hu] at hp
      obtain ⟨h₁, h₂⟩ := hheap u p hu hp
      exact ⟨h₁ ▸ (h.owned u p hp).1, h₂⟩
  · intro u w p hu hw
    by_cases hut : u = t <;> by_cases hwt : w = t
    · rw [hut, hwt]
    · rw [hpc w hwt] at hw
      exact ((howned p (hut ▸ hu)).2.2 w hwt hw).elim
    · rw [hpc u hut] at hu
      exact ((howned p (hwt ▸ hw)).2.2 u hut hu).elim
    · rw [hpc u hut] at hu
      rw [hpc w hwt] at hw
      exact h.apart u w p hu hw
  · intro u
    by_cases hu : u = t
    · rw [hu]
      exact hready
    · rw [hpc u hu]
      have hr := h.ready u
      cases hp : s.pc u <;> rw [hp] at hr
      case lockInsert d item | setPrev d item =>
        exact (hheap u item hu (by rw [hp]; rfl)).1.trans hr
      all_goals trivial
  · intro u
    by_cases hu : u = t
    · rw [hu]
      exact hposition
    · rw [hpc u hu]
      cases hc : (s.pc u).critical with
      | true => exact hpositionOther u hu hc
      | false => exact Pc.position_of_not_critical hc

/-- An item that a thread owns is in no list, and no other thread owns it. -/
theorem Inv.owns (h : Inv s L F B) {p : Ptr} (hp : (s.pc t).owned = some p) :
    s.heap p ≠ none ∧ p ∉ L.map Prod.fst ∧ ∀ u, u ≠ t → (s.pc u).owned ≠ some p := by
  obtain ⟨hheap, hlist⟩ := h.owned t p hp
  exact ⟨hheap, hlist, fun u hu hq => hu (h.apart u t p hq hp)⟩

/-- No other thread owns an item of the list. -/
theorem Inv.unowned (h : Inv s L F B) {p : Ptr} (hp : p ∈ L.map Prod.fst) (u : T) :
    (s.pc u).owned ≠ some p := fun hq => (h.owned u p hq).2 hp

/-- The frame of a step inside the lock, which may write the items of the list and the item of the
thread. -/
theorem Inv.inside (h : Inv s L F B) (ht : (s.pc t).critical = true)
    (hpc : ∀ u, u ≠ t → s'.pc u = s.pc u) (hholder : s'.holder = s.holder)
    (hshape : Shape s' L' F' B') (ht' : (s'.pc t).critical = true)
    (hheap : ∀ p, p ∉ L.map Prod.fst → (s.pc t).owned ≠ some p → s'.heap p = s.heap p)
    (hlist : ∀ p ∈ L'.map Prod.fst, p ∈ L.map Prod.fst ∨ (s.pc t).owned = some p)
    (howned : ∀ p, (s'.pc t).owned = some p → s'.heap p ≠ none ∧ p ∉ L'.map Prod.fst ∧
      ∀ u, u ≠ t → (s.pc u).owned ≠ some p)
    (hready : (s'.pc t).Ready s'.heap) (hposition : (s'.pc t).Position s'.heap L' F' B')
    (hclients : Clients listSpec [] s'.log s'.id (fun t => (s'.pc t).status)
      (L'.map Prod.snd)) : Inv s' L' F' B' := by
  have hhold := (h.holder t).mp ht
  have hone : ∀ u, u ≠ t → s.holder ≠ some u := by
    intro u hu heq
    rw [hhold, Option.some.injEq] at heq
    exact hu heq.symm
  refine h.update t hpc hshape ?_ ?_ ?_ ?_ howned hready hposition ?_ hclients
  · intro hfree
    rw [hholder, hhold] at hfree
    cases hfree
  · rw [hholder, hhold, ht']
    simp
  · intro u _
    rw [hholder]
  · intro u p hu hp
    obtain ⟨-, hout⟩ := h.owned u p hp
    have hne : (s.pc t).owned ≠ some p := fun hq => hu (h.apart u t p hp hq)
    refine ⟨hheap p hout hne, fun hmem => ?_⟩
    rcases hlist p hmem with hin | hq
    · exact hout hin
    · exact hne hq
  · intro u hu hc
    exact (hone u hu ((h.holder u).mp hc)).elim

/-- A step outside of the lock leaves the list alone; it may create or delete an item of its own. -/
theorem Inv.outside [DecidableEq T] (h : Inv s L F B) (hpc : ∀ u, u ≠ t → s'.pc u = s.pc u)
    (hholder : s'.holder = s.holder) (ht : (s.pc t).critical = false)
    (ht' : (s'.pc t).critical = false) (hfirst : s'.first = s.first) (hlast : s'.last = s.last)
    (hfault : s'.fault = s.fault) (hfresh : ∀ p n, s'.heap p = some n → p < s'.allocated)
    (hlist : ∀ p ∈ L.map Prod.fst, s'.heap p = s.heap p)
    (hheap : ∀ u p, u ≠ t → (s.pc u).owned = some p → s'.heap p = s.heap p)
    (howned : ∀ p, (s'.pc t).owned = some p → s'.heap p ≠ none ∧ p ∉ L.map Prod.fst ∧
      ∀ u, u ≠ t → (s.pc u).owned ≠ some p)
    (hready : (s'.pc t).Ready s'.heap)
    (hclients : Clients listSpec [] s'.log s'.id (fun t => (s'.pc t).status)
      (L.map Prod.snd)) : Inv s' L F B := by
  have hshape := h.shape.congr hfirst hlast hfault hfresh hlist
  refine h.update t hpc hshape ?_ ?_ ?_ ?_ howned hready (Pc.position_of_not_critical ht') ?_
    hclients
  · rw [hholder]
    exact h.free
  · rw [hholder, ← h.holder t, ht, ht']
  · intro u _
    rw [hholder]
  · exact fun u p hu hp => ⟨hheap u p hu hp, (h.owned u p hp).2⟩
  · exact fun u hu _ => (h.position u).congr hlist fun q hq => hheap u q hu hq

end Htmsql.ThreadsafeList
