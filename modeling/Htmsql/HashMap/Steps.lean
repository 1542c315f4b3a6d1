import Htmsql.HashMap.Invariant

/-!
# Every step of the hash map keeps the invariant

The steps fall into four kinds: a thread moves on while the memory stays (`Inv.setPc`), it makes
the access that decides its result (`Inv.commit`), it writes one successor of the list it has
locked (`setSuccessor_eq`), or it takes or gives up something of its own: a node, the lock,
its call.
-/

namespace Htmsql.HashMap

open Buckets (Chained Table)
open Chain (Node Seg firstOr last last_eq_none last_mem)
open Linearizable (Log LogInv)

variable {T : Type} {size : Nat} {s s' : Sys T} {C C' : Nat → List (Ptr × Nat)}
  {m m' : Finset Nat}

theorem setSuccessor_eq {b : Nat} {prev e : Option Ptr} {t' : Table Ptr Nat Nat}
    (ht' : Table.setNext ⟨s.heap, s.item⟩ b prev e = some t') :
    s.setSuccessor b prev e = { s with heap := t'.heap, item := t'.head } := by
  cases prev with
  | none =>
    obtain rfl := Option.some.inj ht'
    rfl
  | some p =>
    obtain ⟨n, hn, rfl⟩ := Option.map_eq_some_iff.mp ht'
    change s.heap p = some n at hn
    simp only [Sys.setSuccessor, Sys.access, hn]

/-- A change of the lists that allocates no node. -/
theorem Shape.update {t' : Table Ptr Nat Nat} (h : Shape size s C)
    (hchained : Chained (hash size) t' C') (hnone : ∀ p, t'.heap p = none ↔ s.heap p = none) :
    Shape size { s with heap := t'.heap, item := t'.head } C' := by
  refine ⟨hchained.first, hchained.seg, hchained.nodup, hchained.hashed, fun p n hn => ?_, h.fault⟩
  have hne : s.heap p ≠ none := by
    rw [Ne, ← hnone p]
    change t'.heap p = some n at hn
    rw [hn]
    exact Option.some_ne_none n
  obtain ⟨k, hk⟩ := Option.ne_none_iff_exists'.mp hne
  exact h.fresh p k hk

variable [DecidableEq T]

theorem pc_setPc_self (s : Sys T) (t : T) (p : Pc) : (s.setPc t p).pc t = p := by
  simp [Sys.setPc]

theorem pc_setPc_of_ne {t u : T} (h : u ≠ t) (s : Sys T) (p : Pc) :
    (s.setPc t p).pc u = s.pc u := by
  simp [Sys.setPc, h]

/-- A thread moves on and leaves the memory as it is; the locks and the log may change. -/
theorem Inv.goto (h : Inv size s C m) {t : T} {p : Pc} {holder' : Nat → Option T} {id' : T → Nat}
    {log' : Linearizable.Log Op Ret} (hid : ∀ u, u ≠ t → id' u = s.id u)
    (hother : ∀ u b, u ≠ t → (holder' b = some u ↔ s.holder b = some u))
    (hself : ∀ b, p.bucket size = some b ↔ holder' b = some t)
    (howned : ∀ q, p.owned = some q → (s.pc t).owned = some q) (hready : p.Ready s.heap)
    (hposition : p.Position size C) (hlogged : p.Logged log' (id' t))
    (hloggedOther : ∀ u, u ≠ t → (s.pc u).Logged s.log (s.id u) → (s.pc u).Logged log' (s.id u))
    (hcalls : s.log.calls ≤ log'.calls)
    (hnumber : p ≠ .idle → id' t < log'.calls ∧
      ∀ u, u ≠ t → s.pc u ≠ .idle → id' t ≠ s.id u)
    (hlog : LogInv setSpec ∅ log' m) :
    Inv size (({ s with holder := holder', id := id', log := log' } : Sys T).setPc t p) C m := by
  have hp := pc_setPc_self ({ s with holder := holder', id := id', log := log' } : Sys T) t p
  refine h.keepMemory t rfl rfl rfl rfl (fun u hu => pc_setPc_of_ne hu _ p) hid hother ?_ ?_ ?_ ?_
    ?_ hloggedOther hcalls ?_ hlog <;> rw [hp]
  · exact hself
  · exact howned
  · exact hready
  · exact hposition
  · exact hlogged
  · exact hnumber

/-- A thread moves on within its operation. -/
theorem Inv.setPc (h : Inv size s C m) {t : T} {p : Pc} (hidle : s.pc t ≠ .idle)
    (hb : p.bucket size = (s.pc t).bucket size)
    (ho : ∀ q, p.owned = some q → (s.pc t).owned = some q) (hready : p.Ready s.heap)
    (hposition : p.Position size C) (hlogged : p.Logged s.log (s.id t)) :
    Inv size (s.setPc t p) C m := by
  refine h.goto (fun _ _ => rfl) (fun _ _ _ => Iff.rfl) (fun b => ?_) ho hready hposition hlogged
    (fun _ _ hl => hl) (Nat.le_refl _) (fun _ => h.number hidle) h.log
  rw [hb]
  exact h.holder t b

/-- The access at which an operation takes effect, with what it does to the memory. -/
theorem Inv.commit (h : Inv size s C m) {t : T} {heap' : Ptr → Option (Node Ptr Nat)}
    {item' : Nat → Option Ptr} {op : Op} {r : Ret} {v : Nat} {g : Option Ptr}
    (hb : (s.pc t).bucket size = some (hash size v)) (hpend : s.log.Pending (s.id t) op)
    (hspec : setSpec m op r m')
    (hshape : Shape size { s with heap := heap', item := item' } C')
    (hcontent : ∀ v, v ∈ m' ↔ v ∈ (C' (hash size v)).map Prod.snd)
    (hC : ∀ b, b ≠ hash size v → C' b = C b)
    (hheap : ∀ u p, u ≠ t → (s.pc u).owned = some p →
      heap' p = s.heap p ∧ ∀ b, p ∉ (C' b).map Prod.fst)
    (hg : ∀ p, g = some p → heap' p ≠ none ∧ (∀ b, p ∉ (C' b).map Prod.fst) ∧
      ∀ u, u ≠ t → (s.pc u).owned ≠ some p) :
    Inv size ((({ s with heap := heap', item := item' } : Sys T).effect t op r).setPc t
      (.unlock v g r)) C' m' := by
  set s₁ : Sys T := { s with heap := heap', item := item' } with hs₁
  have hp := pc_setPc_self (s₁.effect t op r) t (.unlock v g r)
  have hidle : s.pc t ≠ .idle := Pc.ne_idle hb
  have hlocked : s.holder (hash size v) = some t := (h.holder t _).mp hb
  refine h.update t (fun u hu => pc_setPc_of_ne hu _ _) (fun _ _ => rfl)
    ⟨hshape.first, hshape.seg, hshape.nodup, hshape.hashed, hshape.fresh, hshape.fault⟩ hcontent
    (fun _ _ _ => Iff.rfl) ?_ hheap ?_ ?_ ?_ ?_ ?_ ?_ (Nat.le_refl _) ?_ (h.log.effect hpend hspec)
  · intro b
    rw [hp]
    show some (hash size v) = some b ↔ s.holder b = some t
    rw [← h.holder t b, hb]
  · intro p hq
    rw [hp] at hq
    exact hg p hq
  · intro u b hu hub
    refine hC b fun heq => hu ?_
    rw [heq] at hub
    have := (h.holder u _).mp hub
    rw [hlocked, Option.some.injEq] at this
    exact this.symm
  · rw [hp]
    trivial
  · rw [hp]
    trivial
  · rw [hp]
    exact Linearizable.effective_effect _ _ _ _
  · intro u hu hl
    by_cases hi : s.pc u = .idle
    · rw [hi]
      trivial
    · have hne : s.id u ≠ s.id t := ((h.number hidle).2 u hu hi).symm
      exact hl.mono (fun _ hpd => hpd.effect hne _ _) fun _ he => he.effect _ _ _
  · exact fun _ => h.number hidle

/-- An access that takes effect and changes nothing. -/
theorem Inv.commitRead (h : Inv size s C m) {t : T} {op : Op} {r : Ret} {v : Nat} {g : Option Ptr}
    (hb : (s.pc t).bucket size = some (hash size v)) (hpend : s.log.Pending (s.id t) op)
    (hspec : setSpec m op r m) (hg : ∀ p, g = some p → (s.pc t).owned = some p) :
    Inv size ((s.effect t op r).setPc t (.unlock v g r)) C m := by
  refine h.commit hb hpend hspec h.shape h.content (fun _ _ => rfl) ?_ ?_
  · exact fun u p _ hp => ⟨rfl, (h.owned u p hp).2⟩
  · exact fun p hp => h.owns (hg p hp)

/-! ## The loop -/

/-- The search has come to the end of the list. -/
theorem Inv.atEnd (h : Inv size s C m) {t : T} {q : Req}
    (hb : (s.pc t).bucket size = some (hash size q.value))
    (ho : ∀ p, q.owned = some p → (s.pc t).owned = some p) (hready : q.Ready s.heap)
    (hpend : s.log.Pending (s.id t) q.op)
    (hnot : q.value ∉ (C (hash size q.value)).map Prod.snd) :
    Inv size (s.atEnd t (last (C (hash size q.value))) q) C m := by
  have hidle : s.pc t ≠ .idle := Pc.ne_idle hb
  have hm : q.value ∉ m := fun hv => hnot ((h.content _).mp hv)
  cases q with
  | insert v n => exact h.setPc hidle hb.symm ho hready ⟨rfl, hnot⟩ hpend
  | remove v =>
    refine h.commitRead hb hpend ⟨?_, ?_⟩ (by simp)
    · exact congrArg Ret.int (if_neg hm).symm
    · exact (Finset.erase_eq_of_notMem hm).symm
  | contains v =>
    refine h.commitRead hb hpend ⟨?_, rfl⟩ (by simp)
    exact congrArg Ret.int (if_neg hm).symm

/-- The search goes on with the part `l₂` of the list. -/
theorem Inv.goTo (h : Inv size s C m) {t : T} {q : Req} {l₁ l₂ : List (Ptr × Nat)}
    (hb : (s.pc t).bucket size = some (hash size q.value))
    (ho : ∀ p, q.owned = some p → (s.pc t).owned = some p) (hready : q.Ready s.heap)
    (hpend : s.log.Pending (s.id t) q.op) (hC : C (hash size q.value) = l₁ ++ l₂)
    (hnot : q.value ∉ l₁.map Prod.snd) :
    Inv size (s.goTo t q (last l₁) (firstOr l₂ none)) C m := by
  cases l₂ with
  | nil =>
    rw [List.append_nil] at hC
    have := h.atEnd hb ho hready hpend (hC ▸ hnot)
    rw [hC] at this
    exact this
  | cons x l₂ =>
    obtain ⟨item, d⟩ := x
    have hidle : s.pc t ≠ .idle := Pc.ne_idle hb
    exact h.setPc hidle hb.symm ho hready ⟨l₁, d, l₂, hC, rfl, hnot⟩ hpend

theorem Inv.found (h : Inv size s C m) {t : T} {q : Req} {l₁ l₂ : List (Ptr × Nat)} {item : Ptr}
    (hb : (s.pc t).bucket size = some (hash size q.value))
    (ho : ∀ p, q.owned = some p → (s.pc t).owned = some p)
    (hpend : s.log.Pending (s.id t) q.op)
    (hC : C (hash size q.value) = l₁ ++ (item, q.value) :: l₂) :
    Inv size (s.found t (last l₁) item q) C m := by
  have hidle : s.pc t ≠ .idle := Pc.ne_idle hb
  have hm : q.value ∈ m := by
    rw [h.content, hC]
    simp
  cases q with
  | insert v n =>
    refine h.commitRead hb hpend ⟨⟨item, rfl⟩, ?_⟩ ho
    exact (Finset.insert_eq_of_mem hm).symm
  | remove v => exact h.setPc hidle hb.symm (by simp [Pc.owned]) trivial ⟨l₁, l₂, hC, rfl⟩ hpend
  | contains v =>
    refine h.commitRead hb hpend ⟨?_, rfl⟩ (by simp)
    exact congrArg Ret.int (if_pos hm).symm

end Htmsql.HashMap
