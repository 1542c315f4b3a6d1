import Htmsql.Lib.Chain

/-!
# Buckets of linked lists

A hash table with chaining: a heap of nodes and a head pointer for each bucket. `Chained hash t C`
says that the list of bucket `b` is `C b`, that no data is in it twice, and that data is only in the
list of its own bucket. All updates of such a table replace what follows a node, or the head, of one
list (`Chained.setNext`): a node is put behind the last one (`Chained.append`) or taken out
(`Chained.unlink`).
-/

namespace Htmsql.Buckets

open Chain (Node Seg firstOr last)

variable {P D K : Type}

/-- A hash table of chains: the nodes, and the first one of each bucket. -/
structure Table (P D K : Type) where
  heap : P → Option (Node P D)
  head : K → Option P

/-- The table holds the chain `C b` in bucket `b`, each datum once and in the bucket of its hash. -/
structure Chained (hash : D → K) (t : Table P D K) (C : K → List (P × D)) : Prop where
  first : ∀ b, t.head b = firstOr (C b) none
  seg : ∀ b, Seg t.heap (C b) none
  nodup : ∀ b, ((C b).map Prod.snd).Nodup
  hashed : ∀ b, ∀ x ∈ C b, hash x.2 = b

variable {hash : D → K} {t : Table P D K} {C : K → List (P × D)} {b b' : K} {p : P}

/-- Different data is at different pointers. -/
theorem Chained.ptr_nodup (h : Chained hash t C) (b : K) : ((C b).map Prod.fst).Nodup := by
  have hseg := h.seg b
  have hnodup := h.nodup b
  generalize C b = l at hseg hnodup
  induction l with
  | nil => exact List.nodup_nil
  | cons x l ih =>
    rw [List.map_cons, List.nodup_cons] at hnodup ⊢
    refine ⟨fun hx => hnodup.1 ?_, ih hseg.2 hnodup.2⟩
    obtain ⟨y, hy, hxy⟩ := List.mem_map.mp hx
    obtain ⟨succ, hheap⟩ := hseg.2.mem hy
    rw [hxy, hseg.1, Option.some.injEq, Node.mk.injEq] at hheap
    exact List.mem_map.mpr ⟨y, hy, hheap.1.symm⟩

/-- A node is in the list of one bucket only. -/
theorem Chained.bucket_unique (h : Chained hash t C) (hb : p ∈ (C b).map Prod.fst)
    (hb' : p ∈ (C b').map Prod.fst) : b = b' := by
  obtain ⟨x, hx, rfl⟩ := List.mem_map.mp hb
  obtain ⟨y, hy, hxy⟩ := List.mem_map.mp hb'
  obtain ⟨succ, hheap⟩ := (h.seg b).mem hx
  obtain ⟨succ', hheap'⟩ := (h.seg b').mem hy
  rw [hxy, hheap, Option.some.injEq, Node.mk.injEq] at hheap'
  rw [← h.hashed b x hx, ← h.hashed b' y hy, hheap'.1]

theorem Chained.alive (h : Chained hash t C) (hp : p ∈ (C b).map Prod.fst) :
    ∃ n, t.heap p = some n := by
  obtain ⟨x, hx, rfl⟩ := List.mem_map.mp hp
  obtain ⟨succ, hheap⟩ := (h.seg b).mem hx
  exact ⟨_, hheap⟩

/-- The lists depend on their own nodes only. -/
theorem Chained.congr {heap' : P → Option (Node P D)} (h : Chained hash t C)
    (hheap : ∀ b, ∀ p ∈ (C b).map Prod.fst, heap' p = t.heap p) :
    Chained hash ⟨heap', t.head⟩ C :=
  ⟨h.first, fun b => (h.seg b).congr fun _ hx => hheap b _ (List.mem_map_of_mem hx), h.nodup,
    h.hashed⟩

variable [DecidableEq P] [DecidableEq K]

/-- The node at `prev` is made to point to `e`, or the head of the bucket if there is no `prev`. -/
def Table.setNext (t : Table P D K) (b : K) (prev e : Option P) : Option (Table P D K) :=
  match prev with
  | some p =>
    (t.heap p).map fun n =>
      { t with heap := Function.update t.heap p (some { n with successor := e }) }
  | none => some { t with head := Function.update t.head b e }

/-- What follows `l₁` in the list of a bucket is replaced by `l₃`. -/
theorem Chained.setNext (h : Chained hash t C) {l₁ l₂ : List (P × D)} (l₃ : List (P × D))
    {e : Option P} (hC : C b = l₁ ++ l₂) (he : e = firstOr l₃ none) (hseg : Seg t.heap l₃ none)
    (hdisj : ∀ p ∈ l₃.map Prod.fst, p ∉ l₁.map Prod.fst)
    (hnodup : ((l₁ ++ l₃).map Prod.snd).Nodup) (hhash : ∀ x ∈ l₃, hash x.2 = b) :
    ∃ t', t.setNext b (last l₁) e = some t' ∧
      Chained hash t' (Function.update C b (l₁ ++ l₃)) ∧
      (∀ p, p ∉ l₁.map Prod.fst → t'.heap p = t.heap p) ∧
      ∀ p, t'.heap p = none ↔ t.heap p = none := by
  have hl₁ : Seg t.heap l₁ (firstOr l₂ none) := by
    have := h.seg b
    rw [hC, Chain.seg_append] at this
    exact this.1
  have hnodup' : ∀ b', ((Function.update C b (l₁ ++ l₃) b').map Prod.snd).Nodup :=
    (Function.forall_update_iff C fun _ l => (l.map Prod.snd).Nodup).mpr
      ⟨hnodup, fun b' _ => h.nodup b'⟩
  have hhashed : ∀ b', ∀ x ∈ Function.update C b (l₁ ++ l₃) b', hash x.2 = b' := by
    refine (Function.forall_update_iff C fun b' l => ∀ x ∈ l, hash x.2 = b').mpr
      ⟨fun x hx => ?_, fun b' _ => h.hashed b'⟩
    rcases List.mem_append.mp hx with hx | hx
    · exact h.hashed b x (hC ▸ List.mem_append_left _ hx)
    · exact hhash x hx
  cases hprev : last l₁ with
  | none =>
    obtain rfl := Chain.last_eq_none hprev
    refine ⟨{ t with head := Function.update t.head b e }, rfl,
      ⟨fun b' => ?_, ?_, hnodup', hhashed⟩, fun _ _ => rfl, fun _ => Iff.rfl⟩
    · show Function.update t.head b e b' = _
      by_cases hb : b' = b
      · rw [hb, Function.update_self, Function.update_self]
        exact he
      · rw [Function.update_of_ne hb, Function.update_of_ne hb]
        exact h.first b'
    · exact (Function.forall_update_iff C fun _ l => Seg t.heap l none).mpr
        ⟨hseg, fun b' _ => h.seg b'⟩
  | some p =>
    have hp : p ∈ l₁.map Prod.fst := Chain.last_mem hprev
    have hpC : p ∈ (C b).map Prod.fst := by
      rw [hC, List.map_append]
      exact List.mem_append_left _ hp
    obtain ⟨n, hn⟩ := h.alive hpC
    have hptr : (l₁.map Prod.fst).Nodup := by
      have := h.ptr_nodup b
      rw [hC, List.map_append, List.nodup_append] at this
      exact this.1
    refine ⟨{ t with heap := Function.update t.heap p (some { n with successor := e }) }, ?_,
      ⟨fun b' => ?_, fun b' => ?_, hnodup', hhashed⟩, fun q hq => ?_, fun q => ?_⟩
    · simp only [Table.setNext, hn, Option.map_some]
    · show t.head b' = _
      by_cases hb : b' = b
      · rw [hb, Function.update_self, h.first b, hC, Chain.firstOr_append, Chain.firstOr_append]
        cases l₁ with
        | nil => cases hp
        | cons x l₁ => rfl
      · rw [Function.update_of_ne hb]
        exact h.first b'
    · by_cases hb : b' = b
      · rw [hb, Function.update_self, he]
        refine Chain.seg_append.mpr ⟨hl₁.redirect hptr hprev hn _, hseg.update ?_ _⟩
        exact fun hmem => hdisj p hmem hp
      · rw [Function.update_of_ne hb]
        exact (h.seg b').update (fun hmem => hb (h.bucket_unique hmem hpC)) _
    · refine Function.update_of_ne (fun hqp => hq ?_) _ _
      rw [hqp]
      exact hp
    · show Function.update t.heap p _ q = none ↔ _
      by_cases hqp : q = p
      · rw [hqp, Function.update_self, hn]
        exact iff_of_false (Option.some_ne_none _) (Option.some_ne_none _)
      · rw [Function.update_of_ne hqp]

/-- A new node is put behind the last one of its bucket. -/
theorem Chained.append (h : Chained hash t C) {d : D} (hp : t.heap p = some ⟨d, none⟩)
    (hout : p ∉ (C (hash d)).map Prod.fst) (hd : d ∉ (C (hash d)).map Prod.snd) :
    ∃ t', t.setNext (hash d) (last (C (hash d))) (some p) = some t' ∧
      Chained hash t' (Function.update C (hash d) (C (hash d) ++ [(p, d)])) ∧
      (∀ q, q ∉ (C (hash d)).map Prod.fst → t'.heap q = t.heap q) ∧
      ∀ q, t'.heap q = none ↔ t.heap q = none := by
  have hdata : ((C (hash d) ++ [(p, d)]).map Prod.snd).Nodup := by
    rw [List.map_append, List.map_singleton, ← List.concat_eq_append]
    exact (h.nodup _).concat hd
  exact h.setNext [(p, d)] (List.append_nil _).symm rfl ⟨hp, trivial⟩ (by simpa using hout) hdata
    (by simp)

omit [DecidableEq P] in
/-- A node that has been taken out is in no list. -/
theorem Chained.notMem_split (h : Chained hash t C) {d : D} {l₁ l₂ : List (P × D)}
    (hC : C b = l₁ ++ (p, d) :: l₂) (b' : K) :
    p ∉ (Function.update C b (l₁ ++ l₂) b').map Prod.fst := by
  have hptr := h.ptr_nodup b
  have hmem : p ∈ (C b).map Prod.fst := by
    rw [hC]
    simp
  by_cases hb : b' = b
  · rw [hb, Function.update_self]
    rw [hC, List.map_append, List.map_cons, List.nodup_middle, List.nodup_cons,
      ← List.map_append] at hptr
    exact hptr.1
  · rw [Function.update_of_ne hb]
    exact fun hp => hb (h.bucket_unique hp hmem)

/-- A node is taken out. -/
theorem Chained.unlink (h : Chained hash t C) {d : D} {l₁ l₂ : List (P × D)}
    (hC : C b = l₁ ++ (p, d) :: l₂) :
    ∃ t', t.setNext b (last l₁) (firstOr l₂ none) = some t' ∧
      Chained hash t' (Function.update C b (l₁ ++ l₂)) ∧
      (∀ q, q ∉ l₁.map Prod.fst → t'.heap q = t.heap q) ∧
      ∀ q, t'.heap q = none ↔ t.heap q = none := by
  have hnodup := h.nodup b
  have hptr := h.ptr_nodup b
  have hseg := h.seg b
  rw [hC] at hnodup hptr hseg
  rw [List.map_append, List.map_cons, List.nodup_middle, List.nodup_cons, ← List.map_append]
    at hnodup hptr
  have hptr' := hptr.2
  rw [List.map_append, List.nodup_append] at hptr'
  exact h.setNext l₂ hC rfl (Chain.seg_append.mp hseg).2.2
    (fun q hq hq' => hptr'.2.2 q hq' q hq rfl) hnodup.2
    (fun x hx => h.hashed _ x (by simp [hC, hx]))

end Htmsql.Buckets
