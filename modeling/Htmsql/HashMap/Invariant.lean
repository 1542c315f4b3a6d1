import Htmsql.HashMap.Machine
import Htmsql.Lib.Buckets

/-!
# The invariant of the hash map

`Inv size s C m` says that the linked list of bucket `b` is `C b` at every moment, locked or not,
and that the values in the lists are the set `m` that the effects so far have made. A thread knows
where it is in the list of the bucket that it has locked (`Pc.Position`), and the node that it
has allocated or taken out of a list is its own (`Pc.owned`).

A thread changes only the list of the bucket it has locked, and only the nodes of this list and
its own. `Inv.update` is the frame: what a step has to say about the thread that takes it for the
invariant to hold of all threads.
-/

namespace Htmsql.HashMap

open Buckets (Chained)
open Chain (Node Seg firstOr last)
open Linearizable (Log LogInv)

/-- The bucket that a thread has locked at this point. -/
def Pc.bucket (size : Nat) : Pc → Option Nat
  | .head q | .test q _ _ | .next q _ => some (hash size q.value)
  | .link v _ _ | .succ v _ _ | .unlink v _ _ _ | .unlock v _ _ => some (hash size v)
  | .idle | .alloc _ | .lock _ | .delete _ _ | .ret _ => none

/-- The item that only the call knows: the one that `insert` has allocated. -/
def Req.owned : Req → Option Ptr
  | .insert _ insertItem => some insertItem
  | .remove _ | .contains _ => none

/-- The node that is not in a list and that the thread will link or delete. -/
def Pc.owned : Pc → Option Ptr
  | .lock q | .head q | .test q _ _ | .next q _ => q.owned
  | .link _ insertItem _ => some insertItem
  | .unlock _ item _ => item
  | .delete item _ => some item
  | .idle | .alloc _ | .succ _ _ _ | .unlink _ _ _ _ | .ret _ => none

/-- The node to be inserted has its value and no successor. -/
def Req.Ready (heap : Ptr → Option (Node Ptr Nat)) : Req → Prop
  | .insert v insertItem => heap insertItem = some ⟨v, none⟩
  | .remove _ | .contains _ => True

/-- The item of the thread is still as it was allocated. -/
def Pc.Ready (heap : Ptr → Option (Node Ptr Nat)) : Pc → Prop
  | .lock q | .head q | .test q _ _ | .next q _ => q.Ready heap
  | .link v insertItem _ => heap insertItem = some ⟨v, none⟩
  | _ => True

/-- Where the thread is in the list of its bucket. -/
def Pc.Position (size : Nat) (C : Nat → List (Ptr × Nat)) : Pc → Prop
  | .test q prev item => ∃ l₁ d l₂, C (hash size q.value) = l₁ ++ (item, d) :: l₂ ∧
      prev = last l₁ ∧ q.value ∉ l₁.map Prod.snd
  | .next q item => ∃ l₁ d l₂, C (hash size q.value) = l₁ ++ (item, d) :: l₂ ∧
      q.value ∉ (l₁ ++ [(item, d)]).map Prod.snd
  | .link v _ prev => prev = last (C (hash size v)) ∧ v ∉ (C (hash size v)).map Prod.snd
  | .succ v prev item => ∃ l₁ l₂, C (hash size v) = l₁ ++ (item, v) :: l₂ ∧ prev = last l₁
  | .unlink v prev item successor => ∃ l₁ l₂, C (hash size v) = l₁ ++ (item, v) :: l₂ ∧
      prev = last l₁ ∧ successor = firstOr l₂ none
  | _ => True

/-- Whether the operation of the thread has had its effect. -/
def Pc.Logged (log : Log Op Ret) (id : Nat) : Pc → Prop
  | .idle => True
  | .alloc v => log.Pending id (.insert v)
  | .lock q | .head q | .test q _ _ | .next q _ => log.Pending id q.op
  | .link v _ _ => log.Pending id (.insert v)
  | .succ v _ _ | .unlink v _ _ _ => log.Pending id (.remove v)
  | .unlock _ _ r | .delete _ r | .ret r => log.Effective id r

variable {T : Type}

/-- The memory of the map: each bucket has a finite list that ends in a null pointer, without
duplicate data, of values that belong into the bucket. -/
structure Shape (size : Nat) (s : Sys T) (C : Nat → List (Ptr × Nat)) : Prop where
  first : ∀ b, s.item b = firstOr (C b) none
  seg : ∀ b, Seg s.heap (C b) none
  nodup : ∀ b, ((C b).map Prod.snd).Nodup
  hashed : ∀ b, ∀ x ∈ C b, hash size x.2 = b
  fresh : ∀ p n, s.heap p = some n → p < s.allocated
  fault : s.fault = false

/-- The invariant of the machine: the chains have the shape of a map and hold the values of the
set, each bucket is locked by the thread inside, and no two threads own one item. -/
structure Inv (size : Nat) (s : Sys T) (C : Nat → List (Ptr × Nat)) (m : Finset Nat) : Prop where
  shape : Shape size s C
  content : ∀ v, v ∈ m ↔ v ∈ (C (hash size v)).map Prod.snd
  holder : ∀ t b, (s.pc t).bucket size = some b ↔ s.holder b = some t
  owned : ∀ t p, (s.pc t).owned = some p → s.heap p ≠ none ∧ ∀ b, p ∉ (C b).map Prod.fst
  apart : ∀ t u p, (s.pc t).owned = some p → (s.pc u).owned = some p → t = u
  ready : ∀ t, (s.pc t).Ready s.heap
  position : ∀ t, (s.pc t).Position size C
  logged : ∀ t, (s.pc t).Logged s.log (s.id t)
  numbered : ∀ t, s.pc t ≠ .idle → s.id t < s.log.calls
  distinct : ∀ t u, s.pc t ≠ .idle → s.pc u ≠ .idle → s.id t = s.id u → t = u
  log : LogInv setSpec ∅ s.log m

variable {size : Nat} {s s' : Sys T} {C C' : Nat → List (Ptr × Nat)} {m m' : Finset Nat}

theorem inv_init : Inv size (init : Sys T) (fun _ => []) ∅ := by
  refine ⟨⟨fun _ => rfl, fun _ => trivial, fun _ => List.nodup_nil, ?_, ?_, rfl⟩, ?_, ?_, ?_, ?_,
    fun _ => trivial, fun _ => trivial, fun _ => trivial, ?_, ?_, Linearizable.logInv_empty⟩ <;>
    simp [init, Pc.bucket, Pc.owned]

/-! ## Lists -/

theorem Shape.chained (h : Shape size s C) : Chained (hash size) ⟨s.heap, s.item⟩ C :=
  ⟨h.first, h.seg, h.nodup, h.hashed⟩

theorem Shape.alive (h : Shape size s C) {b : Nat} {p : Ptr} (hp : p ∈ (C b).map Prod.fst) :
    ∃ n, s.heap p = some n := h.chained.alive hp

/-! ## What a thread knows -/

theorem Pc.ne_idle {p : Pc} {b : Nat} (hb : p.bucket size = some b) : p ≠ .idle := by
  rintro rfl
  cases hb

/-- A call has its own number. -/
theorem Inv.number (h : Inv size s C m) {t : T} (hidle : s.pc t ≠ .idle) :
    s.id t < s.log.calls ∧ ∀ u, u ≠ t → s.pc u ≠ .idle → s.id t ≠ s.id u :=
  ⟨h.numbered t hidle, fun u hu hne heq => hu (h.distinct u t hne hidle heq.symm)⟩

/-- A node that a thread owns is in no list, and no other thread owns it. -/
theorem Inv.owns (h : Inv size s C m) {t : T} {p : Ptr} (hp : (s.pc t).owned = some p) :
    s.heap p ≠ none ∧ (∀ b, p ∉ (C b).map Prod.fst) ∧ ∀ u, u ≠ t → (s.pc u).owned ≠ some p := by
  obtain ⟨hheap, hlist⟩ := h.owned t p hp
  exact ⟨hheap, hlist, fun u hu hq => hu (h.apart u t p hq hp)⟩

theorem Inv.at (h : Inv size s C m) {t : T} {p : Pc} (ht : s.pc t = p) :
    p.Ready s.heap ∧ p.Position size C ∧ p.Logged s.log (s.id t) := by
  rw [← ht]
  exact ⟨h.ready t, h.position t, h.logged t⟩

/-! ## What a step of another thread leaves as it is -/

theorem Pc.Ready.congr {heap heap' : Ptr → Option (Node Ptr Nat)} {p : Pc} (h : p.Ready heap)
    (hh : ∀ q, p.owned = some q → heap' q = heap q) : p.Ready heap' := by
  have hreq : ∀ {r : Req}, r.Ready heap → (∀ q, r.owned = some q → heap' q = heap q) →
      r.Ready heap' := by
    intro r hr hh
    cases r
    case insert v n => exact (hh n rfl).trans hr
    all_goals trivial
  cases p
  case lock q | head q | test q prev item | next q item => exact hreq h hh
  case link v n prev => exact (hh n rfl).trans h
  all_goals trivial

theorem Pc.Position.congr {p : Pc} (h : p.Position size C)
    (hC : ∀ b, p.bucket size = some b → C' b = C b) : p.Position size C' := by
  cases p
  case test q prev item | next q item | link v n prev | succ v prev item |
      unlink v prev item successor =>
    simp only [Pc.Position, hC _ rfl]
    exact h
  all_goals trivial

theorem Pc.Logged.mono {log log' : Log Op Ret} {id : Nat} {p : Pc} (h : p.Logged log id)
    (hp : ∀ op, log.Pending id op → log'.Pending id op)
    (he : ∀ r, log.Effective id r → log'.Effective id r) : p.Logged log' id := by
  cases p
  case idle => trivial
  case unlock v item r | delete item r | ret r => exact he r h
  all_goals exact hp _ h

/-- The frame of a step of thread `t`. -/
theorem Inv.update (h : Inv size s C m) (t : T) (hpc : ∀ u, u ≠ t → s'.pc u = s.pc u)
    (hid : ∀ u, u ≠ t → s'.id u = s.id u) (hshape : Shape size s' C')
    (hcontent : ∀ v, v ∈ m' ↔ v ∈ (C' (hash size v)).map Prod.snd)
    (hother : ∀ u b, u ≠ t → (s'.holder b = some u ↔ s.holder b = some u))
    (hself : ∀ b, (s'.pc t).bucket size = some b ↔ s'.holder b = some t)
    (hheap : ∀ u p, u ≠ t → (s.pc u).owned = some p →
      s'.heap p = s.heap p ∧ ∀ b, p ∉ (C' b).map Prod.fst)
    (howned : ∀ p, (s'.pc t).owned = some p → s'.heap p ≠ none ∧
      (∀ b, p ∉ (C' b).map Prod.fst) ∧ ∀ u, u ≠ t → (s.pc u).owned ≠ some p)
    (hchain : ∀ u b, u ≠ t → (s.pc u).bucket size = some b → C' b = C b)
    (hready : (s'.pc t).Ready s'.heap) (hposition : (s'.pc t).Position size C')
    (hlogged : (s'.pc t).Logged s'.log (s'.id t))
    (hloggedOther : ∀ u, u ≠ t → (s.pc u).Logged s.log (s.id u) →
      (s.pc u).Logged s'.log (s.id u))
    (hcalls : s.log.calls ≤ s'.log.calls)
    (hnumbered : s'.pc t ≠ .idle → s'.id t < s'.log.calls ∧
      ∀ u, u ≠ t → s.pc u ≠ .idle → s'.id t ≠ s.id u)
    (hlog : LogInv setSpec ∅ s'.log m') : Inv size s' C' m' := by
  refine ⟨hshape, hcontent, ?_, ?_, ?_, ?_, ?_, ?_, ?_, ?_, hlog⟩
  · intro u b
    by_cases hu : u = t
    · rw [hu]
      exact hself b
    · rw [hpc u hu, hother u b hu]
      exact h.holder u b
  · intro u p hp
    by_cases hu : u = t
    · obtain ⟨h₁, h₂, -⟩ := howned p (hu ▸ hp)
      exact ⟨h₁, h₂⟩
    · rw [hpc u hu] at hp
      obtain ⟨h₁, h₂⟩ := hheap u p hu hp
      exact ⟨h₁ ▸ (h.owned u p hp).1, h₂⟩
  · intro u w p hu hw
    by_cases hut : u = t
    · by_cases hwt : w = t
      · rw [hut, hwt]
      · rw [hpc w hwt] at hw
        exact ((howned p (hut ▸ hu)).2.2 w hwt hw).elim
    · rw [hpc u hut] at hu
      by_cases hwt : w = t
      · exact ((howned p (hwt ▸ hw)).2.2 u hut hu).elim
      · rw [hpc w hwt] at hw
        exact h.apart u w p hu hw
  · intro u
    by_cases hu : u = t
    · rw [hu]
      exact hready
    · rw [hpc u hu]
      exact (h.ready u).congr fun p hp => (hheap u p hu hp).1
  · intro u
    by_cases hu : u = t
    · rw [hu]
      exact hposition
    · rw [hpc u hu]
      exact (h.position u).congr fun b hb => hchain u b hu hb
  · intro u
    by_cases hu : u = t
    · rw [hu]
      exact hlogged
    · rw [hpc u hu, hid u hu]
      exact hloggedOther u hu (h.logged u)
  · intro u hidle
    by_cases hu : u = t
    · rw [hu] at hidle ⊢
      exact (hnumbered hidle).1
    · rw [hpc u hu] at hidle
      rw [hid u hu]
      exact Nat.lt_of_lt_of_le (h.numbered u hidle) hcalls
  · intro u w hu hw heq
    by_cases hut : u = t
    · by_cases hwt : w = t
      · rw [hut, hwt]
      · rw [hpc w hwt] at hw
        rw [hid w hwt, hut] at heq
        exact ((hnumbered (hut ▸ hu)).2 w hwt hw heq).elim
    · rw [hpc u hut] at hu
      by_cases hwt : w = t
      · rw [hid u hut, hwt] at heq
        exact ((hnumbered (hwt ▸ hw)).2 u hut hu heq.symm).elim
      · rw [hpc w hwt] at hw
        rw [hid u hut, hid w hwt] at heq
        exact h.distinct u w hu hw heq

theorem Shape.congr (h : Shape size s C) (hheap : s'.heap = s.heap) (hitem : s'.item = s.item)
    (hallocated : s'.allocated = s.allocated) (hfault : s'.fault = s.fault) : Shape size s' C := by
  refine ⟨?_, ?_, h.nodup, h.hashed, ?_, ?_⟩
  · rw [hitem]
    exact h.first
  · rw [hheap]
    exact h.seg
  · rw [hheap, hallocated]
    exact h.fresh
  · rw [hfault]
    exact h.fault

/-- The frame of a step that leaves the memory of the map as it is. -/
theorem Inv.keepMemory (h : Inv size s C m) (t : T) (hheap : s'.heap = s.heap)
    (hitem : s'.item = s.item) (hallocated : s'.allocated = s.allocated)
    (hfault : s'.fault = s.fault) (hpc : ∀ u, u ≠ t → s'.pc u = s.pc u)
    (hid : ∀ u, u ≠ t → s'.id u = s.id u)
    (hother : ∀ u b, u ≠ t → (s'.holder b = some u ↔ s.holder b = some u))
    (hself : ∀ b, (s'.pc t).bucket size = some b ↔ s'.holder b = some t)
    (howned : ∀ p, (s'.pc t).owned = some p → (s.pc t).owned = some p)
    (hready : (s'.pc t).Ready s.heap) (hposition : (s'.pc t).Position size C)
    (hlogged : (s'.pc t).Logged s'.log (s'.id t))
    (hloggedOther : ∀ u, u ≠ t → (s.pc u).Logged s.log (s.id u) →
      (s.pc u).Logged s'.log (s.id u))
    (hcalls : s.log.calls ≤ s'.log.calls)
    (hnumbered : s'.pc t ≠ .idle → s'.id t < s'.log.calls ∧
      ∀ u, u ≠ t → s.pc u ≠ .idle → s'.id t ≠ s.id u)
    (hlog : LogInv setSpec ∅ s'.log m) : Inv size s' C m := by
  refine h.update t hpc hid (h.shape.congr hheap hitem hallocated hfault) h.content hother hself
    ?_ ?_ (fun _ _ _ _ => rfl) ?_ hposition hlogged hloggedOther hcalls hnumbered hlog
  · intro u p _ hp
    exact ⟨by rw [hheap], (h.owned u p hp).2⟩
  · intro p hp
    rw [hheap]
    exact h.owns (howned p hp)
  · rw [hheap]
    exact hready

end Htmsql.HashMap
