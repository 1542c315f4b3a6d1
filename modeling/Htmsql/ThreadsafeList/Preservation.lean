import Htmsql.Lib.Run
import Htmsql.ThreadsafeList.Steps

/-!
# The invariant over runs of the list

Inside the lock a thread moves on within its operation (`Inv.move`) or its operation takes effect
(`Inv.commit`); outside of it, it creates or deletes an item of its own, calls and returns. A step that
is not the effect of its operation leaves the content of the list as it is (`Advances`).
-/

namespace Htmsql.ThreadsafeList

open Chain (firstOr last)
open Linearizable (Log Status Clients)

variable {T : Type} {s s₁ s' : Sys T} {t : T} {L L' F F' B B' : List (Ptr × Int)} {p : Pc}
  {d : Int} {item : Ptr} {r : Ret}

/-- A step of `t` within its call keeps the invariant. -/
def Advances (s s' : Sys T) (t : T) (L : List (Ptr × Int)) : Prop :=
  ∃ L' F' B', Inv s' L' F' B' ∧
    Status.Step listSpec (s.pc t).status (L.map Prod.snd) (s'.pc t).status (L'.map Prod.snd)

theorem Inv.keeps (h : Inv s' L F B) (hstatus : (s'.pc t).status = (s.pc t).status) :
    Advances s s' t L := by
  refine ⟨L, F, B, h, ?_⟩
  rw [hstatus]
  exact .keep _ _

theorem Inv.effects (h : Inv s' L' F B) (op : Op) (hpending : (s.pc t).status = .pending op)
    (heffective : (s'.pc t).status = .effective r)
    (hspec : listSpec (L.map Prod.snd) op r (L'.map Prod.snd)) : Advances s s' t L := by
  refine ⟨L', F, B, h, ?_⟩
  rw [hpending, heffective]
  exact .effect hspec

theorem Inv.at (h : Inv s L F B) (ht : s.pc t = p) :
    p.Ready s.heap ∧ p.Position s.heap L F B := by
  subst ht
  exact ⟨h.ready t, h.position t⟩

theorem FirstAt.erase_eq {l₁ l₂ : List (Ptr × Int)} (hat : FirstAt L d item l₁ l₂) :
    (L.map Prod.snd).erase d = (l₁ ++ l₂).map Prod.snd := by
  rw [hat.split, List.map_append, List.map_cons, List.erase_append_right _ hat.notMem,
    List.erase_cons_head, List.map_append]

variable [DecidableEq T]

theorem pc_goto_self (s : Sys T) (t : T) (p : Pc) : (s.goto t p).pc t = p := by simp [Sys.goto]

theorem pc_goto_of_ne {t u : T} (h : u ≠ t) (s : Sys T) (p : Pc) :
    (s.goto t p).pc u = s.pc u := by simp [Sys.goto, h]

theorem pc_goto_other (hpc : s₁.pc = s.pc) (p : Pc) (u : T) (hu : u ≠ t) :
    (s₁.goto t p).pc u = s.pc u := by
  rw [pc_goto_of_ne hu, hpc]

/-- A step that is none of the moves of the log. -/
theorem Inv.clients_goto (h : Inv s L F B) (hpc : s₁.pc = s.pc)
    (hstatus : p.status = (s.pc t).status) :
    Clients listSpec [] s.log s.id (fun u => ((s₁.goto t p).pc u).status) (L.map Prod.snd) := by
  refine h.clients.keep fun u => ?_
  by_cases hu : u = t
  · rw [hu, pc_goto_self, hstatus]
  · rw [pc_goto_other hpc p u hu]

theorem Shape.goto (h : Shape s L F B) (t : T) (p : Pc) : Shape (s.goto t p) L F B :=
  h.congr rfl rfl rfl h.fresh fun _ _ => rfl

/-! ## Inside the lock -/

/-- A thread moves on within its operation; it may write the items of the list and its own. -/
theorem Inv.move (h : Inv s L F B) (ht : (s.pc t).critical = true) (hp : p.critical = true)
    (hpc : s₁.pc = s.pc) (hid : s₁.id = s.id) (hlog : s₁.log = s.log)
    (hholder : s₁.holder = s.holder) (hshape : Shape s₁ L F' B')
    (hheap : ∀ q, q ∉ L.map Prod.fst → (s.pc t).owned ≠ some q → s₁.heap q = s.heap q)
    (howned : ∀ q, p.owned = some q → (s.pc t).owned = some q ∧ s₁.heap q ≠ none)
    (hstatus : p.status = (s.pc t).status) (hready : p.Ready s₁.heap)
    (hposition : p.Position s₁.heap L F' B') : Inv (s₁.goto t p) L F' B' := by
  have hself := pc_goto_self s₁ t p
  have hclients : Clients listSpec [] s₁.log s₁.id
      (fun u => ((s₁.goto t p).pc u).status) (L.map Prod.snd) := by
    rw [hlog, hid]
    exact h.clients_goto hpc hstatus
  refine h.inside ht (pc_goto_other hpc p) hholder (hshape.goto t p) ?_ hheap (fun q hq => .inl hq) ?_ ?_ ?_
    hclients <;> rw [hself]
  · exact hp
  · intro q hq
    obtain ⟨hq', hne⟩ := howned q hq
    obtain ⟨-, hout, hapart⟩ := h.owns hq'
    exact ⟨hne, hout, hapart⟩
  · exact hready
  · exact hposition

/-- The statement with which an operation takes effect. -/
theorem Inv.commit (h : Inv s L F B) {op : Op} (ht : (s.pc t).critical = true)
    (hp : p.critical = true) (hpc : s₁.pc = s.pc) (hid : s₁.id = s.id) (hlog : s₁.log = s.log)
    (hholder : s₁.holder = s.holder) (hshape : Shape s₁ L' F' B')
    (hheap : ∀ q, q ∉ L.map Prod.fst → (s.pc t).owned ≠ some q → s₁.heap q = s.heap q)
    (hlist : ∀ q ∈ L'.map Prod.fst, q ∈ L.map Prod.fst ∨ (s.pc t).owned = some q)
    (howned : ∀ q, p.owned = some q → s₁.heap q ≠ none ∧ q ∉ L'.map Prod.fst ∧
      ∀ u, u ≠ t → (s.pc u).owned ≠ some q)
    (hpending : (s.pc t).status = .pending op) (heffective : p.status = .effective r)
    (hspec : listSpec (L.map Prod.snd) op r (L'.map Prod.snd)) (hready : p.Ready s₁.heap)
    (hposition : p.Position s₁.heap L' F' B') :
    Inv ((s₁.effect t op r).goto t p) L' F' B' := by
  have hself := pc_goto_self (s₁.effect t op r) t p
  have hother : ∀ u, u ≠ t → ((s₁.effect t op r).goto t p).pc u = s.pc u := pc_goto_other hpc p
  have hclients : Clients listSpec [] (s₁.log.effect (s₁.id t) op r) s₁.id
      (fun u => (((s₁.effect t op r).goto t p).pc u).status) (L'.map Prod.snd) := by
    rw [hlog, hid]
    refine h.clients.effect hpending hspec ?_ fun u hu => ?_
    · rw [hself, heffective]
    · rw [hother u hu]
  have hshape' : Shape (s₁.effect t op r) L' F' B' :=
    hshape.congr rfl rfl rfl hshape.fresh fun _ _ => rfl
  refine h.inside ht hother hholder (hshape'.goto t p) ?_ hheap hlist ?_ ?_ ?_ hclients <;>
    rw [hself]
  · exact hp
  · exact howned
  · exact hready
  · exact hposition

/-- A search moves on. -/
theorem Inv.goto (h : Inv s L F B) (ht : (s.pc t).critical = true) (hp : p.critical = true)
    (hnone : p.owned = none) (hstatus : p.status = (s.pc t).status) (hready : p.Ready s.heap)
    (hposition : p.Position s.heap L F B) : Advances s (s.goto t p) t L := by
  refine (h.move ht hp rfl rfl rfl rfl h.shape (fun _ _ _ => rfl) (fun q hq => ?_) hstatus hready
    hposition).keeps ?_
  · rw [hnone] at hq
    cases hq
  · rw [pc_goto_self, hstatus]

/-- A search ends, and the operation changes nothing. -/
theorem Inv.commitRead (h : Inv s L L L) {op : Op} (ht : (s.pc t).critical = true)
    (hpending : (s.pc t).status = .pending op)
    (hspec : listSpec (L.map Prod.snd) op r (L.map Prod.snd)) :
    Advances s ((s.effect t op r).goto t (.unlock none r)) t L := by
  have h' : Inv ((s.effect t op r).goto t (.unlock none r)) L L L :=
    h.commit ht rfl rfl rfl rfl rfl h.shape (fun _ _ _ => rfl) (fun _ hq => .inl hq)
      (fun q hq => by cases hq) hpending rfl hspec trivial ⟨rfl, rfl⟩
  exact h'.effects op hpending (by rw [pc_goto_self]; rfl) hspec

theorem Inv.atEnd (h : Inv s L L L) {q : Search} (ht : (s.pc t).critical = true)
    (hpending : (s.pc t).status = .pending q.op) (hnot : q.data ∉ L.map Prod.snd) :
    Advances s (s.atEnd t q) t L := by
  cases q with
  | remove d => exact h.commitRead ht hpending ⟨rfl, (List.erase_of_not_mem hnot).symm⟩
  | contains d => exact h.commitRead ht hpending ⟨congrArg Ret.int (if_neg hnot).symm, rfl⟩

/-- The search goes on with the part `l₂` of the list. -/
theorem Inv.goTo (h : Inv s L L L) {q : Search} {l₁ l₂ : List (Ptr × Int)}
    (ht : (s.pc t).critical = true) (hpending : (s.pc t).status = .pending q.op)
    (hL : L = l₁ ++ l₂) (hnot : q.data ∉ l₁.map Prod.snd) :
    Advances s (s.goTo t q (firstOr l₂ none)) t L := by
  cases l₂ with
  | nil =>
    rw [List.append_nil] at hL
    exact h.atEnd ht hpending (hL ▸ hnot)
  | cons x l₂ =>
    obtain ⟨item, d⟩ := x
    exact h.goto ht rfl rfl hpending.symm trivial ⟨rfl, rfl, l₁, d, l₂, hL, hnot⟩

theorem Inv.found (h : Inv s L L L) {q : Search} {l₁ l₂ : List (Ptr × Int)}
    (ht : (s.pc t).critical = true) (hpending : (s.pc t).status = .pending q.op)
    (hat : FirstAt L q.data item l₁ l₂) : Advances s (s.found t item q) t L := by
  cases q with
  | remove d => exact h.goto ht rfl rfl hpending.symm trivial ⟨rfl, rfl, l₁, l₂, hat⟩
  | contains d =>
    have hd : d ∈ L.map Prod.snd := by
      rw [hat.split]
      simp [Search.data]
    exact h.commitRead ht hpending ⟨congrArg Ret.int (if_pos hd).symm, rfl⟩

/-! ## The lock -/

theorem Inv.lock (h : Inv s L F B) (hfree : s.holder = none)
    (hp : p.critical = true) (howned : p.owned = (s.pc t).owned)
    (hstatus : p.status = (s.pc t).status) (hready : p.Ready s.heap)
    (hposition : p.Position s.heap L F B) : Inv ((s.setHolder (some t)).goto t p) L F B := by
  have hself := pc_goto_self (s.setHolder (some t)) t p
  have hshape : Shape (s.setHolder (some t)) L F B :=
    h.shape.congr rfl rfl rfl h.shape.fresh fun _ _ => rfl
  refine h.update t (pc_goto_other rfl p) (hshape.goto t p) ?_ ?_ ?_ ?_ ?_ ?_ ?_ ?_
    (h.clients_goto rfl hstatus)
  · rintro ⟨⟩
  · rw [hself, hp]
    exact ⟨fun _ => rfl, fun _ => rfl⟩
  · intro u hu
    show some t = some u ↔ s.holder = some u
    rw [hfree, Option.some.injEq]
    exact ⟨fun heq => (hu heq.symm).elim, fun hnone => by cases hnone⟩
  · exact fun u q _ hq => ⟨rfl, (h.owned u q hq).2⟩
  · rw [hself, howned]
    exact fun q hq => h.owns hq
  · rw [hself]
    exact hready
  · rw [hself]
    exact hposition
  · exact fun u _ _ => h.position u

theorem Inv.unlock (h : Inv s L F B) {item : Option Ptr} (ht : s.pc t = .unlock item r) :
    Inv ((s.setHolder none).goto t (afterUnlock item r)) L F B := by
  obtain ⟨-, hF, hB⟩ := h.at ht
  have hself := pc_goto_self (s.setHolder none) t (afterUnlock item r)
  have hheld : s.holder = some t := (h.holder t).mp (by rw [ht]; rfl)
  have hshape : Shape (s.setHolder none) L F B :=
    h.shape.congr rfl rfl rfl h.shape.fresh fun _ _ => rfl
  have hcritical : (afterUnlock item r).critical = false := by cases item <;> rfl
  have hstatus : (afterUnlock item r).status = (s.pc t).status := by
    rw [ht]
    cases item <;> rfl
  refine h.update t (pc_goto_other rfl _) (hshape.goto t _) (fun _ => ⟨hF, hB⟩) ?_ ?_ ?_ ?_ ?_ ?_ ?_
    (h.clients_goto rfl hstatus)
  · rw [hself, hcritical]
    exact ⟨fun hf => (Bool.false_ne_true hf).elim, fun hnone => by cases hnone⟩
  · intro u hu
    show none = some u ↔ s.holder = some u
    rw [hheld, Option.some.injEq]
    exact ⟨fun hnone => (by cases hnone), fun heq => (hu heq.symm).elim⟩
  · exact fun u q _ hq => ⟨rfl, (h.owned u q hq).2⟩
  · rw [hself]
    intro q hq
    have hq' : (s.pc t).owned = some q := by
      rw [ht]
      cases item with
      | none => cases hq
      | some item => exact hq
    exact h.owns hq'
  · rw [hself]
    cases item <;> trivial
  · rw [hself]
    exact Pc.position_of_not_critical hcritical
  · exact fun u _ _ => h.position u

/-! ## Outside of the lock -/

omit [DecidableEq T] in
theorem Inv.notMem (h : Inv s L F B) {q : Ptr} (hq : s.heap q = none) : q ∉ L.map Prod.fst := by
  intro hmem
  obtain ⟨n, hn⟩ := h.shape.mem_alive hmem
  rw [hq] at hn
  cases hn

omit [DecidableEq T] in
theorem Inv.fresh (h : Inv s L F B) : s.heap s.allocated = none := by
  cases hn : s.heap s.allocated with
  | none => rfl
  | some n => exact (Nat.lt_irrefl _ (h.shape.fresh _ n hn)).elim

/-- A new item, wherever the allocator has put it. -/
theorem Inv.place (h : Inv s L F B) (ht : s.pc t = .create d) {allocated : Nat}
    (hitem : s.heap item = none) (hlt : item < allocated) (hle : s.allocated ≤ allocated) :
    Inv (({ s with
      heap := Function.update s.heap item (some ⟨d, none, none⟩)
      allocated := allocated } : Sys T).goto t (.lockInsert d item)) L F B := by
  have hout := h.notMem hitem
  set s₁ : Sys T := { s with
    heap := Function.update s.heap item (some ⟨d, none, none⟩)
    allocated := allocated } with hs₁
  have hself := pc_goto_self s₁ t (.lockInsert d item)
  have hnew : (s₁.goto t (.lockInsert d item)).heap item = some ⟨d, none, none⟩ :=
    Function.update_self _ _ _
  refine h.outside (pc_goto_other rfl _) rfl ?_ ?_ rfl rfl rfl ?_ ?_ ?_ ?_ ?_
    (h.clients_goto rfl (by rw [ht]; rfl))
  · rw [ht]
    rfl
  · rw [hself]
    rfl
  · intro q n hq
    change Function.update s.heap item _ q = some n at hq
    show q < allocated
    by_cases heq : q = item
    · rw [heq]
      exact hlt
    · rw [Function.update_of_ne heq] at hq
      exact Nat.lt_of_lt_of_le (h.shape.fresh q n hq) hle
  · exact fun q hq => Function.update_of_ne (fun heq => hout (by rw [← heq]; exact hq)) _ _
  · intro u q _ hq
    refine Function.update_of_ne (fun heq => (h.owned u q hq).1 ?_) _ _
    rw [heq, hitem]
  · rw [hself]
    rintro q ⟨⟩
    rw [hnew]
    exact ⟨Option.some_ne_none _, hout, fun u _ hu => (h.owned u _ hu).1 hitem⟩
  · rw [hself]
    exact hnew

theorem Inv.create (h : Inv s L F B) (ht : s.pc t = .create d) :
    Inv ((s.create d).goto t (.lockInsert d s.allocated)) L F B :=
  h.place ht h.fresh (Nat.lt_succ_self _) (Nat.le_succ _)

theorem Inv.delete (h : Inv s L F B) (ht : s.pc t = .delete item r) :
    Inv ((s.delete item).goto t (.ret r)) L F B := by
  obtain ⟨halive, hout, hapart⟩ := h.owns (t := t) (p := item) (by rw [ht]; rfl)
  obtain ⟨n, hn⟩ := Option.ne_none_iff_exists'.mp halive
  rw [Sys.delete_some hn]
  set s₁ := s.setHeap (Function.update s.heap item none) with hs₁
  have hself := pc_goto_self s₁ t (.ret r)
  refine h.outside (pc_goto_other rfl _) rfl ?_ ?_ rfl rfl rfl (h.shape.fresh_update hn none) ?_ ?_
    ?_ ?_ (h.clients_goto rfl (by rw [ht]; rfl))
  · rw [ht]
    rfl
  · rw [hself]
    rfl
  · exact fun q hq => Function.update_of_ne (fun heq => hout (by rw [← heq]; exact hq)) _ _
  · intro u q hu hq
    exact Function.update_of_ne (fun heq => hapart u hu (by rw [← heq]; exact hq)) _ _
  · rw [hself]
    rintro q ⟨⟩
  · rw [hself]
    trivial

/-- The call or the return of an operation. -/
theorem Inv.boundary (h : Inv s L F B) {id' : T → Nat} {log' : Log Op Ret}
    (ht : (s.pc t).critical = false) (hp : p.critical = false) (hnone : p.owned = none)
    (hready : p.Ready s.heap)
    (hclients : Clients listSpec [] log' id'
      (fun u => (((s.goto t p).pc u).status)) (L.map Prod.snd)) :
    Inv (({ s with id := id', log := log' } : Sys T).goto t p) L F B := by
  have hself := pc_goto_self ({ s with id := id', log := log' } : Sys T) t p
  refine h.outside (fun u hu => pc_goto_of_ne hu _ _) rfl ht ?_ rfl rfl rfl h.shape.fresh
    (fun _ _ => rfl) (fun _ _ _ _ => rfl) ?_ ?_ hclients
  · rw [hself]
    exact hp
  · rw [hself, hnone]
    rintro q ⟨⟩
  · rw [hself]
    exact hready

theorem Inv.call (h : Inv s L F B) (ht : s.pc t = .idle) (op : Op) :
    Inv (({ s with
      id := Function.update s.id t s.log.calls
      log := s.log.call op } : Sys T).goto t op.entry) L F B := by
  have hentry : op.entry.critical = false ∧ op.entry.owned = none ∧
      op.entry.status = .pending op ∧ op.entry.Ready s.heap := by
    cases op <;> exact ⟨rfl, rfl, rfl, trivial⟩
  obtain ⟨hcritical, hnone, hstatus, hready⟩ := hentry
  refine h.boundary (by rw [ht]; rfl) hcritical hnone hready (h.clients.call op ?_ fun u hu => ?_)
  · rw [pc_goto_self, hstatus]
  · rw [pc_goto_of_ne hu]

theorem Inv.ret (h : Inv s L F B) (ht : s.pc t = .ret r) :
    Inv (({ s with log := s.log.ret (s.id t) r } : Sys T).goto t .idle) L F B := by
  refine h.boundary (by rw [ht]; rfl) rfl rfl trivial (h.clients.ret ?_ ?_ fun u hu => ?_)
  · rw [ht]
    rfl
  · rw [pc_goto_self]
    rfl
  · rw [pc_goto_of_ne hu]

/-! ## The writes -/

theorem Inv.setPrev (h : Inv s L F B) (ht : s.pc t = .setPrev d item) :
    Inv ((s.write (some item) (·.setPrev s.last)).goto t (.setNext d item)) L F B := by
  obtain ⟨hn, hF, hB⟩ := h.at ht
  obtain ⟨-, hout, -⟩ := h.owns (t := t) (p := item) (by rw [ht]; rfl)
  subst hF hB
  rw [Sys.write_some hn]
  have hitem : Function.update s.heap item (some (ListItem.setPrev ⟨d, none, none⟩ s.last)) item =
      some ⟨d, last B, none⟩ := by
    rw [Function.update_self, h.shape.last]
    rfl
  refine h.move (by rw [ht]; rfl) rfl rfl rfl rfl rfl (h.shape.outside hout hn _) ?_ ?_
    (by rw [ht]; rfl) trivial ⟨rfl, rfl, hitem⟩
  · intro q _ hq
    refine Function.update_of_ne (fun heq => hq ?_) _ _
    rw [heq, ht]
    rfl
  · rintro q ⟨⟩
    refine ⟨by rw [ht]; rfl, ?_⟩
    show Function.update s.heap item _ item ≠ none
    rw [hitem]
    exact Option.some_ne_none _

theorem Inv.setNext (h : Inv s L F B) (ht : s.pc t = .setNext d item) :
    Inv (((s.write s.last (·.setNext (some item))).effect t (.insert d) (.item item)).goto t
      (.setLast d item)) (L ++ [(item, d)]) (if L = [] then [] else L ++ [(item, d)]) L := by
  obtain ⟨-, hF, hB, hn⟩ := h.at ht
  have howned : (s.pc t).owned = some item := by rw [ht]; rfl
  obtain ⟨-, hout, -⟩ := h.owns howned
  subst hF hB
  obtain ⟨heap', heq, hitem, hkeep, hshape⟩ := h.shape.setNext hout hn
  rw [h.shape.last, heq]
  refine h.commit (by rw [ht]; rfl) rfl rfl rfl rfl rfl hshape (fun q hq _ => hkeep q hq) ?_ ?_
    (by rw [ht]; rfl) rfl ⟨⟨item, rfl⟩, ?_⟩ trivial ⟨B, rfl, rfl, rfl, hitem⟩
  · intro q hq
    rw [List.map_append, List.mem_append] at hq
    refine hq.imp_right fun hq => ?_
    rw [List.mem_singleton.mp hq]
    exact howned
  · rintro q ⟨⟩
  · rw [List.map_append]
    rfl

theorem Inv.setLast (h : Inv s L F B) (ht : s.pc t = .setLast d item) :
    Inv ((s.setLast (some item)).goto t (.setFirst d item)) L F L := by
  obtain ⟨-, l, hL, hF, hB, hn⟩ := h.at ht
  subst hB
  exact h.move (by rw [ht]; rfl) rfl rfl rfl rfl rfl (h.shape.setLast hL h.shape.subForth hn)
    (fun _ _ _ => rfl) (fun q hq => by cases hq) (by rw [ht]; rfl) trivial ⟨B, hL, hF, rfl, hn⟩

theorem Inv.setFirst (h : Inv s L F B) (ht : s.pc t = .setFirst d item) :
    Inv ((s.setFirst (if s.first = none then some item else s.first)).goto t
      (.unlock none (.item item))) L L L := by
  obtain ⟨-, l, hL, hF, hB, hn⟩ := h.at ht
  subst hB
  rw [hF] at h
  exact h.move (by rw [ht]; rfl) rfl rfl rfl rfl rfl (h.shape.setFirst hL hn)
    (fun _ _ _ => rfl) (fun q hq => by cases hq) (by rw [ht]; rfl) trivial ⟨rfl, rfl⟩

theorem Inv.unlinkFirst (h : Inv s L F B) {prev succ : Option Ptr}
    (ht : s.pc t = .unlinkFirst d item prev succ) :
    ∃ F' B', Inv ((s.setFirst (if some item = s.first then succ else s.first)).goto t
      (.unlinkLast d item prev succ)) L F' B' := by
  obtain ⟨-, hF, hB, l₁, l₂, hat, hprev, hsucc⟩ := h.at ht
  subst hF hB hprev hsucc
  exact ⟨_, _, h.move (by rw [ht]; rfl) rfl rfl rfl rfl rfl (h.shape.unlinkFirst hat)
    (fun _ _ _ => rfl) (fun q hq => by cases hq) (by rw [ht]; rfl) trivial
    ⟨l₁, l₂, hat, rfl, rfl, rfl, rfl⟩⟩

theorem Inv.unlinkLast (h : Inv s L F B) {prev succ : Option Ptr}
    (ht : s.pc t = .unlinkLast d item prev succ) :
    ∃ F' B', Inv ((s.setLast (if some item = s.last then prev else s.last)).goto t
      (.unlinkNext d item prev succ)) L F' B' := by
  obtain ⟨-, l₁, l₂, hat, hprev, hsucc, hF, hB⟩ := h.at ht
  subst hF hB hprev hsucc
  exact ⟨_, _, h.move (by rw [ht]; rfl) rfl rfl rfl rfl rfl (h.shape.unlinkLast hat)
    (fun _ _ _ => rfl) (fun q hq => by cases hq) (by rw [ht]; rfl) trivial
    ⟨l₁, l₂, hat, rfl, rfl, rfl, rfl⟩⟩

theorem Inv.unlinkNext (h : Inv s L F B) {prev succ : Option Ptr}
    (ht : s.pc t = .unlinkNext d item prev succ) :
    ∃ F' B', Inv ((s.write succ (·.setPrev prev)).goto t (.unlinkPrev d item prev succ)) L F' B' := by
  obtain ⟨-, l₁, l₂, hat, hprev, hsucc, hF, hB⟩ := h.at ht
  subst hF hB hprev hsucc
  obtain ⟨heap', heq, hkeep, hshape⟩ := h.shape.unlinkNext hat
  rw [heq]
  exact ⟨_, _, h.move (by rw [ht]; rfl) rfl rfl rfl rfl rfl hshape (fun q hq _ => hkeep q hq)
    (fun q hq => by cases hq) (by rw [ht]; rfl) trivial ⟨l₁, l₂, hat, rfl, rfl, rfl, rfl⟩⟩

theorem Inv.unlinkPrev (h : Inv s L F B) {prev succ : Option Ptr}
    (ht : s.pc t = .unlinkPrev d item prev succ) :
    ∃ l, Inv (((s.write prev (·.setNext succ)).effect t (.remove d) .void).goto t
      (.unlock (some item) .void)) l l l ∧ l.map Prod.snd = (L.map Prod.snd).erase d := by
  obtain ⟨-, l₁, l₂, hat, hprev, hsucc, hF, hB⟩ := h.at ht
  subst hF hB hprev hsucc
  have hmem : item ∈ L.map Prod.fst := by
    rw [hat.split]
    simp
  obtain ⟨n, hn⟩ := h.shape.mem_alive hmem
  obtain ⟨heap', heq, hitem, hkeep, hshape⟩ := h.shape.unlinkPrev hat
  rw [heq]
  refine ⟨l₁ ++ l₂, h.commit (by rw [ht]; rfl) rfl rfl rfl rfl rfl hshape
    (fun q hq _ => hkeep q hq) ?_ ?_ (by rw [ht]; rfl) rfl ⟨rfl, hat.erase_eq.symm⟩ trivial
    ⟨rfl, rfl⟩, hat.erase_eq.symm⟩
  · exact fun q hq => .inl ((hat.sublist.map Prod.fst).subset hq)
  · rintro q ⟨⟩
    obtain ⟨h₁, h₂⟩ := hat.notMem_fst h.shape.nodup
    refine ⟨?_, ?_, fun u _ => h.unowned hmem u⟩
    · show heap' item ≠ none
      rw [hitem, hn]
      exact Option.some_ne_none n
    · rw [List.map_append, List.mem_append]
      exact fun hor => hor.elim h₁ h₂

/-! ## Runs -/

theorem Inv.run (h : Inv s L F B) (hs : s.run t = some s') :
    Advances s s' t L := by
  unfold Sys.run at hs
  cases ht : s.pc t <;> rw [ht] at hs
  case idle => cases hs
  case create d =>
    cases hs
    exact (h.create ht).keeps (by rw [pc_goto_self, ht]; rfl)
  case lockInsert d item =>
    simp only [Option.ite_none_right_eq_some, Option.some.injEq] at hs
    obtain ⟨hfree, rfl⟩ := hs
    have h' : Inv ((s.setHolder (some t)).goto t (.setPrev d item)) L F B :=
      h.lock hfree rfl (by rw [ht]; rfl) (by rw [ht]; rfl) (h.at ht).1 (h.free hfree)
    exact h'.keeps (by rw [pc_goto_self, ht]; rfl)
  case setPrev d item =>
    cases hs
    exact (h.setPrev ht).keeps (by rw [pc_goto_self, ht]; rfl)
  case setNext d item =>
    cases hs
    refine (h.setNext ht).effects (.insert d) (by rw [ht]; rfl) ?_ ⟨⟨item, rfl⟩, ?_⟩
    · rw [pc_goto_self]
      rfl
    · rw [List.map_append]
      rfl
  case setLast d item =>
    cases hs
    exact (h.setLast ht).keeps (by rw [pc_goto_self, ht]; rfl)
  case setFirst d item =>
    cases hs
    exact (h.setFirst ht).keeps (by rw [pc_goto_self, ht]; rfl)
  case lockGet q =>
    simp only [Option.ite_none_right_eq_some, Option.some.injEq] at hs
    obtain ⟨hfree, rfl⟩ := hs
    have h' : Inv ((s.setHolder (some t)).goto t (.first q)) L F B :=
      h.lock hfree rfl (by rw [ht]; rfl) (by rw [ht]; rfl) trivial (h.free hfree)
    exact h'.keeps (by rw [pc_goto_self, ht]; rfl)
  case first q =>
    obtain ⟨-, hF, hB⟩ := h.at ht
    subst hF hB
    cases hs
    rw [h.shape.first]
    have hL : B = [] ++ B := rfl
    exact h.goTo (by rw [ht]; rfl) (by rw [ht]; rfl) hL List.not_mem_nil
  case test q item =>
    obtain ⟨-, hF, hB, l₁, d, l₂, hL, hnot⟩ := h.at ht
    subst hF hB
    simp only [Sys.access, h.shape.links hL] at hs
    cases hs
    split
    · rename_i hd
      subst hd
      exact h.found (by rw [ht]; rfl) (by rw [ht]; rfl) ⟨hL, hnot⟩
    · rename_i hd
      refine h.goto (by rw [ht]; rfl) rfl rfl (by rw [ht]; rfl) trivial
        ⟨rfl, rfl, l₁, d, l₂, hL, ?_⟩
      rw [List.map_append, List.mem_append]
      exact fun hor => hor.elim hnot fun heq => hd (List.mem_singleton.mp heq).symm
  case next q item =>
    obtain ⟨-, hF, hB, l₁, d, l₂, hL, hnot⟩ := h.at ht
    subst hF hB
    simp only [Sys.access, h.shape.links hL] at hs
    cases hs
    refine h.goTo (by rw [ht]; rfl) (by rw [ht]; rfl) ?_ hnot
    rw [hL, List.append_assoc]
    rfl
  case readPrev d item =>
    obtain ⟨-, hF, hB, l₁, l₂, hat⟩ := h.at ht
    subst hF hB
    simp only [Sys.access, h.shape.links hat.split] at hs
    cases hs
    exact h.goto (by rw [ht]; rfl) rfl rfl (by rw [ht]; rfl) trivial
      ⟨rfl, rfl, l₁, l₂, hat, rfl⟩
  case readNext d item prev =>
    obtain ⟨-, hF, hB, l₁, l₂, hat, hprev⟩ := h.at ht
    subst hF hB
    simp only [Sys.access, h.shape.links hat.split] at hs
    cases hs
    exact h.goto (by rw [ht]; rfl) rfl rfl (by rw [ht]; rfl) trivial
      ⟨rfl, rfl, l₁, l₂, hat, hprev, rfl⟩
  case unlinkFirst d item prev succ =>
    cases hs
    obtain ⟨F', B', h'⟩ := h.unlinkFirst ht
    exact h'.keeps (by rw [pc_goto_self, ht]; rfl)
  case unlinkLast d item prev succ =>
    cases hs
    obtain ⟨F', B', h'⟩ := h.unlinkLast ht
    exact h'.keeps (by rw [pc_goto_self, ht]; rfl)
  case unlinkNext d item prev succ =>
    cases hs
    obtain ⟨F', B', h'⟩ := h.unlinkNext ht
    exact h'.keeps (by rw [pc_goto_self, ht]; rfl)
  case unlinkPrev d item prev succ =>
    cases hs
    obtain ⟨l, h', heq⟩ := h.unlinkPrev ht
    exact h'.effects (.remove d) (by rw [ht]; rfl) (by rw [pc_goto_self]; rfl) ⟨rfl, heq⟩
  case unlock item r =>
    cases hs
    exact (h.unlock ht).keeps (by rw [pc_goto_self, ht]; cases item <;> rfl)
  case delete item r =>
    cases hs
    exact (h.delete ht).keeps (by rw [pc_goto_self, ht]; rfl)
  case ret r =>
    cases hs
    refine ⟨L, F, B, h.ret ht, ?_⟩
    rw [pc_goto_self, ht]
    exact .ret r _

omit [DecidableEq T] in
theorem Pc.status_eq_idle {p : Pc} : p.status = .idle ↔ p = .idle := by
  cases p <;> simp [Pc.status]

/-- What a step is made of: it writes a pointer of a node, creates an item or deletes one, writes the
fields of the list, and moves its own thread on. -/
theorem Sys.run_induction {P : Sys T → Prop} (h : P s) (hs : s.run t = some s')
    (hfields : ∀ v first last holder fault log, P v → P { v with
      first := first, last := last, holder := holder, fault := fault, log := log })
    (hgoto : ∀ v p, P v → P (v.goto t p))
    (hnode : ∀ p n n', s.heap p = some n → n'.data = n.data →
      P (s.setHeap (Function.update s.heap p (some n'))))
    (hcreate : ∀ d, s.pc t = .create d → P (s.create d))
    (hdelete : ∀ item r n, s.pc t = .delete item r → s.heap item = some n →
      P (s.setHeap (Function.update s.heap item none))) : P s' := by
  have heffect : ∀ v op r, P v → P (v.effect t op r) := fun v op r hv =>
    hfields v v.first v.last v.holder v.fault (v.log.effect (v.id t) op r) hv
  have haccess : ∀ p k, (∀ n, s.heap p = some n → P (k n)) → P (s.access p k) := by
    intro p k hk
    unfold Sys.access
    cases hn : s.heap p with
    | none => exact hfields s s.first s.last s.holder true s.log h
    | some n => exact hk n hn
  have hwrite : ∀ o f, (∀ n, (f n).data = n.data) → P (s.write o f) := by
    intro o f hf
    cases o with
    | none => exact h
    | some p => exact haccess p _ fun n hn => hnode p n (f n) hn (hf n)
  have hatEnd : ∀ q, P (s.atEnd t q) := by
    intro q
    cases q <;> exact hgoto _ _ (heffect _ _ _ h)
  have hgoTo : ∀ q o, P (s.goTo t q o) := by
    intro q o
    cases o with
    | none => exact hatEnd q
    | some item => exact hgoto _ _ h
  unfold Sys.run at hs
  cases ht : s.pc t <;> rw [ht] at hs
  case idle => cases hs
  case lockInsert | lockGet =>
    simp only [Option.ite_none_right_eq_some, Option.some.injEq] at hs
    obtain ⟨-, rfl⟩ := hs
    exact hgoto _ _ (hfields s s.first s.last (some t) s.fault s.log h)
  all_goals cases hs
  case create d => exact hgoto _ _ (hcreate d ht)
  case setPrev d item => exact hgoto _ _ (hwrite _ _ fun _ => rfl)
  case setNext d item => exact hgoto _ _ (heffect _ _ _ (hwrite _ _ fun _ => rfl))
  case setLast d item =>
    exact hgoto _ _ (hfields s s.first (some item) s.holder s.fault s.log h)
  case setFirst d item => exact hgoto _ _ (hfields s _ s.last s.holder s.fault s.log h)
  case first q => exact hgoTo q _
  case test q item =>
    refine haccess item _ fun n _ => ?_
    split
    · cases q with
      | remove d => exact hgoto _ _ h
      | contains d => exact hgoto _ _ (heffect _ _ _ h)
    · exact hgoto _ _ h
  case next q item => exact haccess item _ fun n _ => hgoTo q _
  case readPrev d item => exact haccess item _ fun n _ => hgoto _ _ h
  case readNext d item prev => exact haccess item _ fun n _ => hgoto _ _ h
  case unlinkFirst d item prev next =>
    exact hgoto _ _ (hfields s _ s.last s.holder s.fault s.log h)
  case unlinkLast d item prev next =>
    exact hgoto _ _ (hfields s s.first _ s.holder s.fault s.log h)
  case unlinkNext d item prev next => exact hgoto _ _ (hwrite _ _ fun _ => rfl)
  case unlinkPrev d item prev next =>
    exact hgoto _ _ (heffect _ _ _ (hwrite _ _ fun _ => rfl))
  case unlock item r => exact hgoto _ _ (hfields s s.first s.last none s.fault s.log h)
  case delete item r =>
    exact hgoto _ _ (haccess item _ fun n hn => hdelete item r n ht hn)
  case ret r =>
    exact hgoto _ _ (hfields s s.first s.last s.holder s.fault (s.log.ret (s.id t) r) h)

/-- A thread moves itself only. -/
theorem Sys.run_pc_of_ne {u : T} (hu : u ≠ t) (hs : s.run t = some s') : s'.pc u = s.pc u :=
  Sys.run_induction (P := fun v => v.pc u = s.pc u) rfl hs (fun _ _ _ _ _ _ hv => hv)
    (fun v p hv => (pc_goto_of_ne hu v p).trans hv) (fun _ _ _ _ _ => rfl) (fun _ _ => rfl)
    (fun _ _ _ _ _ => rfl)

/-! ## A removal that finds nothing -/

/-- The item to be removed has not been found: NULL will be handed to `deleteListItem`. -/
def Pc.missed : Pc := .unlock none .void

theorem Sys.goTo_missed {q : Search} {o : Option Ptr} (h : (s.goTo t q o).pc t = .missed) :
    o = none ∧ ∃ d, q = .remove d := by
  cases o with
  | none =>
    cases q with
    | remove d => exact ⟨rfl, d, rfl⟩
    | contains d =>
      rw [Sys.goTo, Sys.atEnd, pc_goto_self] at h
      cases h
  | some item =>
    rw [Sys.goTo, pc_goto_self] at h
    cases h

omit [DecidableEq T] in
theorem Sys.access_missed {p : Ptr} {k : ListItem → Sys T} (ht : s.pc t ≠ .missed)
    (h : (s.access p k).pc t = .missed) : ∃ n, s.heap p = some n ∧ (k n).pc t = .missed := by
  unfold Sys.access at h
  cases hn : s.heap p with
  | none =>
    rw [hn] at h
    exact (ht h).elim
  | some n =>
    rw [hn] at h
    exact ⟨n, rfl, h⟩

/-- The two statements at which a search can come to the end. -/
theorem Sys.run_missed (hs : s.run t = some s') (hm : s'.pc t = .missed) :
    ∃ d, (s.pc t = .first (.remove d) ∧ s.first = none) ∨
      ∃ item n, s.pc t = .next (.remove d) item ∧ s.heap item = some n ∧ n.next = none := by
  unfold Sys.run at hs
  cases ht : s.pc t <;> rw [ht] at hs
  case idle => cases hs
  case lockInsert | lockGet =>
    simp only [Option.ite_none_right_eq_some, Option.some.injEq] at hs
    obtain ⟨-, rfl⟩ := hs
    rw [pc_goto_self] at hm
    cases hm
  all_goals cases hs
  case first q =>
    obtain ⟨hnone, d, rfl⟩ := Sys.goTo_missed hm
    exact ⟨d, .inl ⟨rfl, hnone⟩⟩
  case test q item =>
    obtain ⟨n, -, hm⟩ := Sys.access_missed (by simp [ht, Pc.missed]) hm
    split at hm
    · cases q <;> rw [Sys.found, pc_goto_self] at hm <;> cases hm
    · rw [pc_goto_self] at hm
      cases hm
  case next q item =>
    obtain ⟨n, hn, hm⟩ := Sys.access_missed (by simp [ht, Pc.missed]) hm
    obtain ⟨hnone, d, rfl⟩ := Sys.goTo_missed hm
    exact ⟨d, .inr ⟨item, n, rfl, hn, hnone⟩⟩
  case readPrev | readNext =>
    obtain ⟨n, -, hm⟩ := Sys.access_missed (by simp [ht, Pc.missed]) hm
    rw [pc_goto_self] at hm
    cases hm
  case unlock item r =>
    rw [pc_goto_self] at hm
    cases item <;> cases hm
  all_goals
    rw [pc_goto_self] at hm
    cases hm

/-- A removal misses only what is not in the list. -/
theorem Inv.missed (h : Inv s L F B) (hs : s.run t = some s') (hm : s'.pc t = .missed) :
    ∃ d, (s.pc t).status = .pending (.remove d) ∧ d ∉ L.map Prod.snd := by
  obtain ⟨d, ⟨ht, hnone⟩ | ⟨item, n, ht, hn, hnone⟩⟩ := Sys.run_missed hs hm
  · obtain ⟨-, hF, hB⟩ := h.at ht
    rw [h.shape.first, hF] at hnone
    rw [Chain.firstOr_eq_none hnone, ht]
    exact ⟨d, rfl, List.not_mem_nil⟩
  · obtain ⟨-, hF, hB, l₁, d', l₂, hL, hnot⟩ := h.at ht
    subst hF hB
    rw [h.shape.links hL, Option.some.injEq] at hn
    rw [← hn] at hnone
    rw [Chain.firstOr_eq_none hnone] at hL
    refine ⟨d, by rw [ht]; rfl, ?_⟩
    rw [hL]
    exact hnot

theorem Inv.step {a : Act T} (h : Inv s L F B) (hs : step s a = some s') :
    ∃ L' F' B', Inv s' L' F' B' := by
  cases a with
  | call t op =>
    simp only [ThreadsafeList.step, Option.ite_none_right_eq_some, Option.some.injEq] at hs
    obtain ⟨ht, rfl⟩ := hs
    exact ⟨L, F, B, h.call ht op⟩
  | run t =>
    obtain ⟨L', F', B', h', -⟩ := h.run hs
    exact ⟨L', F', B', h'⟩

theorem reach_inv (hr : Run.Reach step (· = (init : Sys T)) (fun _ _ => True) s) :
    ∃ L F B, Inv s L F B := by
  refine hr.invariant (I := fun s => ∃ L F B, Inv s L F B) ?_ ?_
  · rintro s rfl
    exact ⟨[], [], [], inv_init⟩
  · rintro s a s' ⟨L, F, B, h⟩ - hs
    exact h.step hs

end Htmsql.ThreadsafeList
