import Htmsql.HashMap.Preservation
import Mathlib.Algebra.Order.BigOperators.Group.Finset

/-!
# The hash map is a linearizable set

The operations that have returned can be ordered as the operations of a set, each bucket is a
finite list of its own values, no deleted node is touched, and `countElements` of a map that no
thread works on is the size of the set.
-/

namespace Htmsql.HashMap

open Chain (Node Seg firstOr)
open Linearizable (Linearizes SpecRun)

variable {T : Type} {size : Nat} {s : Sys T} {C : Nat → List (Ptr × Nat)} {m : Finset Nat}

/-- The nodes of bucket `b`, from the first one to the one without a successor. -/
structure IsBucket (size : Nat) (s : Sys T) (b : Nat) (l : List (Ptr × Nat)) : Prop where
  first : s.item b = firstOr l none
  chain : Seg s.heap l none
  acyclic : (l.map Prod.fst).Nodup
  distinct : (l.map Prod.snd).Nodup
  hashed : ∀ v ∈ l.map Prod.snd, hash size v = b

/-- No thread is inside an operation. -/
def Quiescent (s : Sys T) : Prop := ∀ t, s.pc t = .idle

theorem Shape.isBucket (h : Shape size s C) (b : Nat) : IsBucket size s b (C b) := by
  refine ⟨h.first b, h.seg b, h.chained.ptr_nodup b, h.nodup b, fun v hv => ?_⟩
  obtain ⟨x, hx, rfl⟩ := List.mem_map.mp hv
  exact h.hashed b x hx

/-! ## Counting -/

theorem countItems_of_seg {heap : Ptr → Option (Node Ptr Nat)} {l : List (Ptr × Nat)}
    (h : Seg heap l none) {fuel : Nat} (hf : l.length ≤ fuel) :
    countItems heap fuel (firstOr l none) = some l.length := by
  induction l generalizing fuel with
  | nil => cases fuel <;> rfl
  | cons x l ih =>
    obtain ⟨p, d⟩ := x
    obtain ⟨fuel, rfl⟩ : ∃ n, fuel = n + 1 := ⟨fuel - 1, by simp at hf; omega⟩
    have hl : l.length ≤ fuel := by simp at hf; omega
    show (heap p).bind _ = _
    rw [h.1, Option.bind_some, ih h.2 hl]
    rfl

theorem foldl_count {f : Nat → Option Nat} {g : Nat → Nat} (n : Nat)
    (h : ∀ b < n, f b = some (g b)) :
    (List.range n).foldl (fun count b => count.bind fun c => (f b).map (c + ·)) (some 0) =
      some (∑ b ∈ Finset.range n, g b) := by
  induction n with
  | zero => rfl
  | succ n ih =>
    rw [List.range_succ, List.foldl_append, ih fun b hb => h b (by omega),
      Finset.sum_range_succ, List.foldl_cons, List.foldl_nil, h n (by omega)]
    rfl

/-- The set is made up of the lists of the buckets. -/
theorem Inv.card (h : Inv size s C m) (hsize : 0 < size) :
    m.card = ∑ b ∈ Finset.range size, (C b).length := by
  have hm : m = (Finset.range size).biUnion fun b => ((C b).map Prod.snd).toFinset := by
    ext v
    simp only [Finset.mem_biUnion, Finset.mem_range, List.mem_toFinset]
    constructor
    · intro hv
      exact ⟨hash size v, Nat.mod_lt v hsize, (h.content v).mp hv⟩
    · rintro ⟨b, -, hv⟩
      have hb := (h.shape.isBucket b).hashed v hv
      exact (h.content v).mpr (hb ▸ hv)
  rw [hm, Finset.card_biUnion]
  · refine Finset.sum_congr rfl fun b _ => ?_
    rw [List.toFinset_card_of_nodup (h.shape.nodup b), List.length_map]
  · intro b _ b' _ hne
    apply Finset.disjoint_left.mpr
    intro v hv hv'
    apply hne
    rw [← (h.shape.isBucket b).hashed v (List.mem_toFinset.mp hv)]
    exact (h.shape.isBucket b').hashed v (List.mem_toFinset.mp hv')

theorem Inv.countElements (h : Inv size s C m) (hsize : 0 < size) {fuel : Nat}
    (hf : m.card ≤ fuel) : countElements size fuel s = some m.card := by
  rw [h.card hsize] at hf ⊢
  apply foldl_count
  intro b hb
  rw [h.shape.first b]
  apply countItems_of_seg (h.shape.seg b)
  have hle : (C b).length ≤ ∑ b ∈ Finset.range size, (C b).length :=
    Finset.single_le_sum (f := fun b => (C b).length) (fun _ _ => Nat.zero_le _)
      (Finset.mem_range.mpr hb)
  omega

variable [DecidableEq T]

theorem hashMap_linearizable_set (hsize : 0 < size)
    (hr : Run.Reach (step size) (· = (init : Sys T)) (fun _ _ => True) s) :
    ∃ effects m, Linearizes setSpec ∅ s.log.hist effects ∧ SpecRun setSpec ∅ effects m ∧
      (∀ b, ∃ l, IsBucket size s b l) ∧ s.fault = false ∧
      (Quiescent s → ∀ fuel, m.card ≤ fuel → countElements size fuel s = some m.card) := by
  obtain ⟨C, m, h⟩ := reach_inv hr
  refine ⟨s.log.effects, m, h.log.linearizes, h.log.run, fun b => ⟨C b, h.shape.isBucket b⟩,
    h.shape.fault, fun _ fuel hf => h.countElements hsize hf⟩

/-- Two threads insert 1 and 3 into the same bucket, and 1 is removed again. -/
def twoInserts : List (Act Bool) :=
  [.call false (.insert 1), .run false, .run false, .call true (.insert 3), .run true, .run false,
    .run false, .run false, .run false, .call false (.remove 1), .run true, .run true, .run true,
    .run true, .run true, .run true, .run true, .run false, .run false, .run false, .run false,
    .run false, .run false, .run false, .run false]

theorem hashMap_linearizable_set_twoInserts :
    ∃ s, Run.exec (step 2) init twoInserts = some s ∧ Quiescent s ∧
      s.log.hist = [.call 0 (.insert 1), .call 1 (.insert 3), .ret 0 (.item 0), .call 2 (.remove 1),
        .ret 1 (.item 1), .ret 2 (.int 1)] ∧
      ∃ effects m, Linearizes setSpec ∅ s.log.hist effects ∧ SpecRun setSpec ∅ effects m ∧
        countElements 2 m.card s = some m.card := by
  obtain ⟨s, hs, hres⟩ := Run.exec_result (step 2) init twoInserts
    (fun s => (s.pc false, s.pc true, s.log.hist))
    (.idle, .idle, [.call 0 (.insert 1), .call 1 (.insert 3), .ret 0 (.item 0),
      .call 2 (.remove 1), .ret 1 (.item 1), .ret 2 (.int 1)]) (by decide)
  simp only [Prod.mk.injEq] at hres
  obtain ⟨hidle, hidle', hhist⟩ := hres
  have hq : Quiescent s := by
    intro t
    cases t
    · exact hidle
    · exact hidle'
  obtain ⟨effects, m, hlin, hrun, -, -, hcount⟩ :=
    hashMap_linearizable_set (by omega) (.exec (.init rfl) hs)
  exact ⟨s, hs, hq, hhist, effects, m, hlin, hrun, hcount hq _ (Nat.le_refl _)⟩

end Htmsql.HashMap
