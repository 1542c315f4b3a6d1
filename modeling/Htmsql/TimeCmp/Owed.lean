import Htmsql.Lib.Total
import Htmsql.ThreadsafeList.Sequence
import Htmsql.TimeCmp.Machine
import Mathlib.Algebra.BigOperators.Fin
import Mathlib.Data.Fintype.Option

/-!
# What the clients of the list owe

A value that is in the list is owed by somebody: it is in the queue of a worker, it has been inserted
and will be pushed, or it has been popped and will be removed (`Sys.owed`). It does not matter whose item
a removal takes, since items with equal values stand for each other; the multiset of the values in the
list is the sum of what is owed, in every state. What a worker is about to remove is owed by itself, so
that there is an item for it.
-/

namespace Htmsql.TimeCmp

open Linearizable (SpecRun Status)
open ThreadsafeList (IsSequence Op Ptr Ret Reachable listSpec)

/-! ## What is owed -/

/-- The operation of the list that `main` is in at its point. -/
def Main.call : Main → Option Op
  | .insert _ v => some (.insert v)
  | _ => none

/-- The operation of the list that a worker is in at its point. -/
def Pc.call : Pc → Option Op
  | .insert v => some (.insert v)
  | .remove val => some (.remove val)
  | .contains v => some (.contains v)
  | _ => none

/-- Inserted but not yet pushed; `status` tells how far the call is. -/
def Main.inserted : Main → Status Op Ret → Multiset Int
  | .insert _ _, .pending _ => 0
  | .insert _ v, _ | .push _ v, _ => {v}
  | _, _ => 0

/-- The value that is in the list by this call and not yet in a queue. -/
def Pc.inserted : Pc → Status Op Ret → Multiset Int
  | .insert _, .pending _ => 0
  | .insert v, _ | .push v, _ => {v}
  | _, _ => 0

/-- Popped, while its item is not yet unlinked. -/
def Pc.popped : Pc → Status Op Ret → Multiset Int
  | .callRemove val, _ | .remove val, .pending _ => {val}
  | _, _ => 0

/-- What a client in a call owes on top of its queue. -/
def callOwed : Op → Status Op Ret → Multiset Int
  | .remove val, .pending _ => {val}
  | _, .pending _ => 0
  | .insert v, _ => {v}
  | _, _ => 0

variable {n : Nat}

/-- The operation of the list that the client is in. -/
def Sys.call? (s : Sys n) : Client n → Option Op
  | none => s.main.call
  | some t => (s.worker t).pc.call

/-- How far the call of the client has got. -/
def Sys.status (s : Sys n) (c : Client n) : Status Op Ret := (s.list.pc c).status

/-- The value that the client has inserted and not yet queued. -/
def Sys.inserted (s : Sys n) : Client n → Multiset Int
  | none => s.main.inserted (s.status none)
  | some t => (s.worker t).pc.inserted (s.status (some t))

/-- The value that the worker has taken from its queue and not yet removed. -/
def Sys.popped (s : Sys n) (t : Fin n) : Multiset Int := (s.worker t).pc.popped (s.status (some t))

/-- The queue of a worker is still with `main` while the worker has not started. -/
def Sys.queue (s : Sys n) (t : Fin n) : List Int :=
  if (s.worker t).pc = .notStarted then s.queues t else (s.worker t).queue

/-- The values that the client will still remove, or leaves in its queue. -/
def Sys.owed (s : Sys n) : Client n → Multiset Int
  | none => s.inserted none
  | some t => ↑(s.queue t) + (s.inserted (some t) + s.popped t)

/-- The call that a client is in is the one that the list knows of. -/
def InCall (call : Option Op) : Status Op Ret → Prop
  | .idle => True
  | .pending op => call = some op
  | .effective _ => call ≠ none

/-- The front of the queue is what the worker has seen of it. -/
def Worker.Ready (w : Worker) : Prop :=
  match w.pc with
  | .front => w.queue ≠ []
  | .pop val => w.queue.head? = some val
  | _ => True

/-- `main` has started worker `t`. -/
def Main.started (m : Main) (t : Fin n) : Prop :=
  match m with
  | .draw _ | .callInsert _ _ | .insert _ _ | .push _ _ => False
  | .start i => t.val < i
  | .stop _ | .join | .done => True

/-- The invariant of the machine: the list is sound, each client is in the call that its point
says, and the values of the list are those that the clients owe. -/
structure Inv (s : Sys n) (L F B : List (Ptr × Int)) : Prop where
  list : ThreadsafeList.Inv s.list L F B
  calls : ∀ c, InCall (s.call? c) (s.status c)
  missed : ∀ c, s.list.pc c ≠ .missed
  started : ∀ t, (s.worker t).pc ≠ .notStarted ↔ s.main.started t
  rotation : ∀ i, s.main = .start i → s.rotation = i
  ready : ∀ t, (s.worker t).Ready
  total : ((L.map Prod.snd : List Int) : Multiset Int) = ∑ c, s.owed c

theorem inv_init : Inv (init : Sys n) [] [] [] := by
  refine ⟨ThreadsafeList.inv_init, fun _ => trivial, fun c => ?_, fun t => ?_, fun i hi => ?_,
    fun t => trivial, ?_⟩
  · simp [init, ThreadsafeList.init, ThreadsafeList.Pc.missed]
  · simp [init, Main.started]
  · cases hi
  · refine (Finset.sum_eq_zero fun c _ => ?_).symm
    cases c <;> rfl

variable {s s' : Sys n} {L F B : List (Ptr × Int)} {t : Fin n} {c : Client n} {op : Op}

/-! ## Where the clients are -/

theorem Inv.idle (h : Inv s L F B) (hc : s.call? c = none) : s.list.pc c = .idle := by
  have hin := h.calls c
  rw [hc] at hin
  apply ThreadsafeList.Pc.status_eq_idle.mp
  change s.status c = .idle
  cases hst : s.status c with
  | idle => rfl
  | pending op =>
    rw [hst] at hin
    cases hin
  | effective r =>
    rw [hst] at hin
    exact (hin rfl).elim

theorem Pc.owed_call {p : Pc} (h : p.call = some op) (st : Status Op Ret) :
    p.inserted st + p.popped st = callOwed op st := by
  cases p <;> simp only [Pc.call, Option.some.injEq, reduceCtorEq] at h <;> subst h <;>
    cases st <;> simp [Pc.inserted, Pc.popped, callOwed]

theorem Main.owed_call {m : Main} (h : m.call = some op) (st : Status Op Ret) :
    m.inserted st = callOwed op st := by
  cases m <;> simp only [Main.call, Option.some.injEq, reduceCtorEq] at h
  subst h
  cases st <;> rfl

theorem Sys.owed_none (hmain : s'.main = s.main) (hstatus : s'.status none = s.status none) :
    s'.owed none = s.owed none := by
  simp only [Sys.owed, Sys.inserted, hmain, hstatus]

theorem Sys.owed_some (hworker : s'.worker t = s.worker t) (hqueues : s'.queues t = s.queues t)
    (hstatus : s'.status (some t) = s.status (some t)) : s'.owed (some t) = s.owed (some t) := by
  simp only [Sys.owed, Sys.queue, Sys.inserted, Sys.popped, hworker, hqueues, hstatus]

/-- What a client in a call owes depends on how far the call is. -/
theorem Sys.exists_owed (hc : s.call? c = some op) :
    ∃ queue : Multiset Int, ∀ l, (s.setList l).owed c = queue + callOwed op (l.pc c).status := by
  cases c with
  | none =>
    refine ⟨0, fun l => ?_⟩
    rw [zero_add]
    exact Main.owed_call hc _
  | some t =>
    refine ⟨(s.queue t : Multiset Int), fun l => ?_⟩
    rw [← Pc.owed_call hc]
    rfl

theorem Inv.owed_mem (h : Inv s L F B) {v : Int} (hv : v ∈ s.owed c) : v ∈ L.map Prod.snd := by
  rw [← Multiset.mem_coe, h.total]
  exact Multiset.mem_sum.mpr ⟨c, Finset.mem_univ c, hv⟩

/-- One client pays what the list gains. -/
theorem Inv.balance (h : Inv s L F B) {m : List Int} (hother : ∀ u, u ≠ c → s'.owed u = s.owed u)
    (hself : (m : Multiset Int) + s.owed c = ((L.map Prod.snd : List Int) : Multiset Int) + s'.owed c) :
    (m : Multiset Int) = ∑ u, s'.owed u := by
  have hsum := Total.sum_of_ne hother
  rw [h.total, ← hsum] at hself
  exact add_right_cancel hself

/-! ## Steps of the list -/

/-- The effect of a call settles what the client owes for it. -/
theorem callOwed_step {st st' : Status Op Ret} {m m' : List Int}
    (h : Status.Step listSpec st m st' m') (hcall : InCall (some op) st)
    (hmem : ∀ v, v ∈ callOwed op st → v ∈ m) :
    (m' : Multiset Int) + callOwed op st = (m : Multiset Int) + callOwed op st' := by
  cases h with
  | keep => rfl
  | ret r => cases op <;> rfl
  | @effect op' r _ _ hspec =>
    obtain rfl : op = op' := Option.some.inj hcall
    cases op with
    | insert v =>
      obtain ⟨-, rfl⟩ := hspec
      rw [← Multiset.coe_add]
      simp [callOwed]
    | remove v =>
      obtain ⟨-, rfl⟩ := hspec
      have hv : v ∈ m := hmem v (Multiset.mem_singleton_self v)
      simp only [callOwed, add_zero]
      rw [← Multiset.coe_erase, add_comm, Multiset.singleton_add, Multiset.cons_erase]
      exact Multiset.mem_coe.mpr hv
    | contains v =>
      obtain ⟨-, rfl⟩ := hspec
      rfl

theorem InCall.step {st st' : Status Op Ret} {m m' : List Int}
    (h : Status.Step listSpec st m st' m') (hcall : InCall (some op) st) : InCall (some op) st' := by
  cases h with
  | keep => exact hcall
  | effect => exact Option.some_ne_none op
  | ret => trivial

theorem Inv.runList (h : Inv s L F B) {l : ThreadsafeList.Sys (Client n)}
    (hs : s.list.run c = some l) : ∃ L' F' B', Inv (s.setList l) L' F' B' := by
  obtain ⟨L', F', B', hlist, hstep⟩ := h.list.run hs
  have hpc : ∀ u, u ≠ c → l.pc u = s.list.pc u :=
    fun u hu => ThreadsafeList.Sys.run_pc_of_ne hu hs
  have hstatus : ∀ u, u ≠ c → (s.setList l).status u = s.status u :=
    fun u hu => congrArg ThreadsafeList.Pc.status (hpc u hu)
  cases hc : s.call? c with
  | none =>
    rw [ThreadsafeList.Sys.run, h.idle hc] at hs
    cases hs
  | some op =>
    obtain ⟨queue, howed⟩ := s.exists_owed hc
    have hold : s.owed c = queue + callOwed op (s.status c) := howed s.list
    have hin := h.calls c
    rw [hc] at hin
    have hmem : ∀ v, v ∈ callOwed op (s.status c) → v ∈ L.map Prod.snd := by
      intro v hv
      apply h.owed_mem (c := c)
      rw [hold]
      exact Multiset.mem_add.mpr (.inr hv)
    refine ⟨L', F', B', hlist, fun u => ?_, fun u => ?_, h.started, h.rotation, h.ready,
      h.balance (c := c) (fun u hu => ?_) ?_⟩
    · by_cases hu : u = c
      · subst hu
        show InCall (s.call? u) _
        rw [hc]
        exact hin.step hstep
      · rw [hstatus u hu]
        exact h.calls u
    · by_cases hu : u = c
      · subst hu
        intro hm
        obtain ⟨d, hpending, hnot⟩ := h.list.missed hs hm
        have hst : s.status u = .pending (.remove d) := hpending
        rw [hst] at hin hmem
        obtain rfl : op = .remove d := Option.some.inj hin
        exact hnot (hmem d (Multiset.mem_singleton_self d))
      · rw [show (s.setList l).list.pc u = s.list.pc u from hpc u hu]
        exact h.missed u
    · cases u with
      | none => exact Sys.owed_none rfl (hstatus none hu)
      | some t => exact Sys.owed_some rfl rfl (hstatus (some t) hu)
    · have hpaid := callOwed_step hstep hin hmem
      rw [hold, howed l, add_left_comm, add_left_comm _ queue]
      exact congrArg (queue + ·) hpaid

end Htmsql.TimeCmp
