import Htmsql.LinkedList.PreAllocator
import Htmsql.LinkedList.Sequence
import Htmsql.ThreadsafeList.Invariant

/-!
# A list over `DefaultAllocator` and over `PreAllocator`

The same calls are made on both. The two lists behave in the same way as long as two things do not
happen on the second one. `List::remove` passes NULL to `deleteListItem` if nothing has been found;
`delete` of NULL does nothing, but `PreAllocator` writes through the pointer. And an item in the list
with data -1 counts as a free slot: if the search of `createListItem` comes to it, the item is handed
out a second time, and what was behind it in the list is cut off.
-/

namespace Htmsql.LinkedList

open Chain (firstOr Seg)
open DoublyLinked
open NextFit (search)
open ThreadsafeList (Ptr ListItem fwd)

variable {M : Type} {size : ℕ} {s s' : State M} {t t' : State ℤ} {L l₁ l₂ : List (Ptr × ℤ)}
  {p : Ptr} {d e : ℤ} {ops pre : List Op} {rs : List Ret} {op : Op}

/-! ## Runs -/

/-- The list over a new `PreAllocator`. -/
def preStart (size : ℕ) : State ℤ := newList (dummies size) (-1)

/-- The calls return with these results and leave this state. -/
inductive Runs (a : Allocator M) (s₀ : State M) : List Op → List Ret → State M → Prop where
  | nil : Runs a s₀ [] [] s₀
  | snoc {ops : List Op} {rs : List Ret} {s s' : State M} {op : Op} {r : Ret} {fuel : ℕ}
      (h : Runs a s₀ ops rs s) (hs : op.run a fuel s = some (r, s')) :
      Runs a s₀ (ops ++ [op]) (rs ++ [r]) s'

/-- A result up to the address of an item. -/
def Ret.observed : Ret → Option ℕ
  | item _ | void => none
  | int n => some n

/-- The data of the items from `first` on, if the `next` pointers come to an end. -/
def Contents (s : State M) (data : List ℤ) : Prop :=
  ∃ L, firstOr L none = s.first ∧ Seg (fwd s.heap) L none ∧ L.map Prod.snd = data

/-- Both lists return from the calls, or neither does; the results and the data are the same. -/
def SameAfter (new : New) (size : ℕ) (ops : List Op) : Prop :=
  ((∃ rs s, Runs (defaultAllocator new) start ops rs s) ↔
      ∃ rs s, Runs (preAllocator size) (preStart size) ops rs s) ∧
    ∀ rs s rs' s', Runs (defaultAllocator new) start ops rs s →
      Runs (preAllocator size) (preStart size) ops rs' s' →
      rs.map Ret.observed = rs'.map Ret.observed ∧ ∀ data, Contents s data ↔ Contents s' data

/-- After every prefix of the operations the two lists, one with each allocator, are the same. -/
def Agrees (new : New) (size : ℕ) (ops : List Op) : Prop :=
  ∀ pre, pre <+: ops → SameAfter new size pre

/-- `remove` finds the data; for `insert`, the first slot after the cursor whose data is -1 is not
linked. -/
def Op.Safe (size : ℕ) (s : State ℤ) : Op → Prop
  | insert _ => ∀ slot,
      search (isFree s.heap) size s.own size s.own = some (.found slot) → ¬ Forth s slot
  | remove d => ∃ p n, Forth s p ∧ s.heap p = some n ∧ n.data = d
  | contains _ | .size => True

/-- Every call on the list over the `PreAllocator` is safe. -/
def SafeRun (size : ℕ) (ops : List Op) : Prop :=
  ∀ pre op rs s, pre ++ [op] <+: ops → Runs (preAllocator size) (preStart size) pre rs s →
    op.Safe size s

/-- The data of the list after the operation; `remove` takes out the first occurrence. -/
def Op.after (data : List ℤ) : Op → List ℤ
  | insert d => data ++ [d]
  | remove d => data.erase d
  | contains _ | .size => data

/-- The number that the operation returns, if it returns one. -/
def Op.observes (data : List ℤ) : Op → Option ℕ
  | insert _ | remove _ => none
  | contains d => some (if d ∈ data then 1 else 0)
  | .size => some data.length

/-- The data of the list, by the calls alone. -/
def dataAfter (ops : List Op) : List ℤ := ops.foldl Op.after []

theorem dataAfter_concat (ops : List Op) (op : Op) :
    dataAfter (ops ++ [op]) = op.after (dataAfter ops) := by
  rw [dataAfter, List.foldl_append]
  rfl

theorem length_dataAfter_le (ops : List Op) : (dataAfter ops).length ≤ ops.length := by
  induction ops using List.reverseRecOn with
  | nil => exact Nat.le_refl 0
  | append_singleton ops op ih =>
    rw [dataAfter_concat, List.length_append, List.length_singleton]
    cases op with
    | insert d =>
      rw [Op.after, List.length_append, List.length_singleton]
      omega
    | remove d =>
      have hle := List.length_erase_le (a := d) (l := dataAfter ops)
      exact (hle.trans ih).trans (Nat.le_succ _)
    | contains d => exact ih.trans (Nat.le_succ _)
    | size => exact ih.trans (Nat.le_succ _)

/-- A few calls do not fill the slots. -/
theorem dataAfter_le_of_prefix (hlen : ops.length ≤ size) (hpre : pre <+: ops) :
    (dataAfter pre).length ≤ size :=
  (length_dataAfter_le pre).trans (hpre.length_le.trans hlen)

theorem runs_snoc_iff {a : Allocator M} {s₀ : State M} :
    Runs a s₀ (ops ++ [op]) rs s' ↔ ∃ rs₁ s r fuel, rs = rs₁ ++ [r] ∧ Runs a s₀ ops rs₁ s ∧
      op.run a fuel s = some (r, s') := by
  constructor
  · generalize hops : ops ++ [op] = ops'
    intro h
    cases h with
    | nil => simp at hops
    | snoc h hs =>
      obtain ⟨rfl, hop⟩ := List.append_inj' hops rfl
      obtain rfl := List.head_eq_of_cons_eq hop
      exact ⟨_, _, _, _, rfl, h, hs⟩
  · rintro ⟨rs₁, s, r, fuel, rfl, h, hs⟩
    exact .snoc h hs

/-- The result does not depend on the bounds of the loops. -/
theorem Runs.unique {a : Allocator M} {s₀ : State M} {rs' : List Ret} (h : Runs a s₀ ops rs s)
    (h' : Runs a s₀ ops rs' s') : rs = rs' ∧ s = s' := by
  induction h generalizing rs' s' with
  | nil =>
    generalize hops : ([] : List Op) = ops at h'
    cases h' with
    | nil => exact ⟨rfl, rfl⟩
    | snoc => simp at hops
  | snoc _ hs ih =>
    obtain ⟨rs₁, s₁, r', fuel', rfl, h₁, hs'⟩ := runs_snoc_iff.mp h'
    obtain ⟨rfl, rfl⟩ := ih h₁
    have heq := Op.run_unique hs hs'
    rw [Prod.mk.injEq] at heq
    obtain ⟨rfl, rfl⟩ := heq
    exact ⟨rfl, rfl⟩

/-! ## What a list contains -/

theorem Holds.seg (h : Holds s L) : Seg (fwd s.heap) L none :=
  h.links.seg ListItem.data ListItem.next (fun _ _ _ => rfl) fun _ _ _ => rfl

theorem Holds.contents_iff (h : Holds s L) {data : List ℤ} :
    Contents s data ↔ data = L.map Prod.snd := by
  constructor
  · rintro ⟨L', hfirst, hseg, rfl⟩
    rw [hseg.unique h.seg (hfirst.trans h.first)]
  · rintro rfl
    exact ⟨L, h.first.symm, h.seg, rfl⟩

/-! ## A safe call on the list over the `PreAllocator` -/

/-- The items of the list are slots, and the other slots are free. -/
structure PreHolds (size : ℕ) (t : State ℤ) (L : List (Ptr × ℤ)) : Prop where
  holds : Holds t L
  slots : ∀ p, t.heap p ≠ none ↔ p < size
  free : ∀ p < size, p ∉ L.map Prod.fst → isFree t.heap p = true
  cursor : t.own < size

theorem preHolds_start (size : ℕ) : PreHolds size (preStart size) [] := by
  refine ⟨holds_newList _ _, fun p => ?_, fun p hp _ => ?_, ?_⟩
  · simp [preStart, newList, dummies]
  · simp [preStart, newList, dummies, isFree, hp]
  · show (-1 : ℤ) < size
    omega

theorem PreHolds.mem_slot (h : PreHolds size t L) (hp : p ∈ L.map Prod.fst) : p < size := by
  obtain ⟨n, hn⟩ := h.holds.links.mem hp
  exact (h.slots p).mp (by rw [hn]; exact Option.some_ne_none n)

/-- What `insertTail` and `removeFromList` leave out keeps its slot. -/
theorem slots_of_frame {heap heap' : Heap} {ps : List Ptr} (h : ∀ p, heap p ≠ none ↔ p < size)
    (hin : ∀ p ∈ ps, heap' p ≠ none) (hps : ∀ p ∈ ps, p < size)
    (hout : ∀ p, p ∉ ps → heap' p = heap p) (p : Ptr) : heap' p ≠ none ↔ p < size := by
  by_cases hp : p ∈ ps
  · exact iff_of_true (hin p hp) (hps p hp)
  · rw [hout p hp]
    exact h p

theorem Holds.mem_heap (h : Holds s L) (hp : p ∈ L.map Prod.fst) : s.heap p ≠ none := by
  obtain ⟨n, hn⟩ := h.links.mem hp
  rw [hn]
  exact Option.some_ne_none n

/-- The state in which `createListItem` has taken a slot. -/
def State.take (t : State ℤ) (slot : ℕ) (d : ℤ) : State ℤ :=
  { t with heap := Function.update t.heap slot (some ⟨d, none, none⟩), own := slot }

/-- As long as the list has fewer items than there are slots, `insert` finds a free slot. -/
theorem PreHolds.insert_eq (h : PreHolds size t L) (hlen : L.length < size) (d : ℤ) :
    ∃ slot : ℕ, slot < size ∧
      search (isFree t.heap) size t.own size t.own = some (.found slot) ∧
      insert (preAllocator size) d t =
        (insertTail slot (t.take slot d)).map fun t' => (slot, t') := by
  obtain ⟨p, hp, hmem⟩ := @exists_slot_not_mem size (L.map Prod.fst) (by rwa [List.length_map])
  obtain ⟨slot, hslot, -, hsearch, hcreate⟩ :=
    createListItem_of_free h.cursor hp (h.free p hp hmem) d none none
  refine ⟨slot, hslot, hsearch size (Nat.le_refl _), ?_⟩
  rw [LinkedList.insert, hcreate]
  change (insertTail slot (t.take slot d)).bind _ = _
  cases insertTail slot (t.take slot d) <;> rfl

theorem PreHolds.insert (h : PreHolds size t L) (hlen : L.length < size)
    (hsafe : (Op.insert d).Safe size t) :
    ∃ slot t', insert (preAllocator size) d t = some (slot, t') ∧
      PreHolds size t' (L ++ [(slot, d)]) := by
  obtain ⟨slot, hslot, hsearch, heq⟩ := h.insert_eq hlen d
  have hnot : slot ∉ L.map Prod.fst := fun hmem => hsafe slot hsearch (h.holds.forth_iff.mpr hmem)
  have hholds : Holds (t.take slot d) L := by
    refine ⟨h.holds.first, h.holds.last, h.holds.links.congr fun q hq => ?_, h.holds.nodup⟩
    refine Function.update_of_ne ?_ _ _
    rintro rfl
    exact hnot hq
  obtain ⟨t', ht', hown, hholds', hout⟩ := hholds.insertTail (Function.update_self ..) hnot
  have hframe : ∀ p, p ∉ (L ++ [(slot, d)]).map Prod.fst → t'.heap p = t.heap p := by
    intro p hp
    rw [hout p hp]
    refine Function.update_of_ne ?_ _ _
    rintro rfl
    exact hp (by simp)
  refine ⟨slot, t', by rw [heq, ht']; rfl, hholds', ?_, fun p hp hmem => ?_, ?_⟩
  · refine slots_of_frame h.slots (fun p => hholds'.mem_heap) (fun p hp => ?_) hframe
    rw [List.map_append, List.mem_append] at hp
    rcases hp with hp | hp
    · exact h.mem_slot hp
    · rw [List.mem_singleton.mp hp]
      exact hslot
  · rw [isFree, hframe p hmem]
    refine h.free p hp fun hL => hmem ?_
    rw [List.map_append]
    exact List.mem_append_left _ hL
  · rw [hown]
    show (slot : ℤ) < size
    omega

theorem PreHolds.removeItem (h : PreHolds size t (l₁ ++ (p, d) :: l₂)) :
    ∃ t', removeItem (preAllocator size) (some p) t = some t' ∧ PreHolds size t' (l₁ ++ l₂) := by
  obtain ⟨t₁, ht₁, hown, hholds, hout⟩ := h.holds.removeFromList
  obtain ⟨hitem, hnot₁, hnot₂, -⟩ := h.holds.split
  have hp : p ∉ (l₁ ++ l₂).map Prod.fst := by
    rw [List.map_append, List.mem_append, not_or]
    exact ⟨hnot₁, hnot₂⟩
  have hitem₁ := (hout p hp).trans hitem
  let t' : State ℤ := { t₁ with
    heap := Function.update t₁.heap p (some ⟨-1, lastOr l₁ none, firstOr l₂ none⟩) }
  have hdelete : deleteItem (preAllocator size) (some p) t₁ = some t' := by
    simp only [deleteItem, preAllocator, hitem₁, Option.map_some]
    rfl
  have hholds' : Holds t' (l₁ ++ l₂) := by
    refine ⟨hholds.first, hholds.last, hholds.links.congr fun q hq => ?_, hholds.nodup⟩
    refine Function.update_of_ne ?_ _ _
    rintro rfl
    exact hp hq
  have hframe : ∀ q, q ∉ (l₁ ++ (p, d) :: l₂).map Prod.fst → t'.heap q = t.heap q := by
    intro q hq
    have hqp : q ≠ p := by
      rintro rfl
      exact hq (by simp)
    refine (Function.update_of_ne hqp _ _).trans (hout q fun hmem => hq ?_)
    rw [List.map_append, List.mem_append] at hmem ⊢
    exact hmem.imp id (List.mem_cons_of_mem _)
  have hsplit : ∀ q, q ∈ (l₁ ++ (p, d) :: l₂).map Prod.fst → q = p ∨ q ∈ (l₁ ++ l₂).map Prod.fst := by
    intro q hq
    simpa [or_left_comm] using hq
  refine ⟨t', ?_, hholds', ?_, fun q hq hmem => ?_, ?_⟩
  · simp only [LinkedList.removeItem, ht₁, Option.bind_eq_bind, Option.bind_some, hdelete]
  · refine slots_of_frame h.slots (fun q hq => ?_) (fun q hq => h.mem_slot hq) hframe
    rcases hsplit q hq with rfl | hq
    · show Function.update t₁.heap q _ q ≠ none
      rw [Function.update_self]
      exact Option.some_ne_none _
    · exact hholds'.mem_heap hq
  · by_cases hqp : q = p
    · rw [hqp]
      exact isFree_update_self ..
    · rw [isFree, hframe q fun hL => (hsplit q hL).elim hqp hmem]
      exact h.free q hq fun hL => (hsplit q hL).elim hqp hmem
  · show t₁.own < size
    rw [hown]
    exact h.cursor

theorem Holds.remove_safe_iff (h : Holds t L) :
    (Op.remove d).Safe size t ↔ d ∈ L.map Prod.snd := by
  constructor
  · rintro ⟨p, n, hp, hn, rfl⟩
    obtain ⟨l₁, d, l₂, rfl⟩ := exists_split (h.forth_mem hp)
    rw [h.links.at, Option.some.injEq] at hn
    rw [← hn]
    simp
  · intro hd
    obtain ⟨⟨p, d⟩, hx, rfl⟩ := List.mem_map.mp hd
    obtain ⟨l₁, l₂, rfl⟩ := List.append_of_mem hx
    exact ⟨p, _, h.forth, h.links.at, rfl⟩

/-- A safe call does to the data what it should. -/
theorem PreHolds.run (h : PreHolds size t L) (hsafe : op.Safe size t)
    (hlen : (op.after (L.map Prod.snd)).length ≤ size) :
    ∃ fuel r t' L', op.run (preAllocator size) fuel t = some (r, t') ∧ PreHolds size t' L' ∧
      L'.map Prod.snd = op.after (L.map Prod.snd) ∧
      r.observed = op.observes (L.map Prod.snd) := by
  refine ⟨L.length, ?_⟩
  cases op with
  | insert d =>
    have hlt : L.length + 1 ≤ size := by simpa [Op.after] using hlen
    obtain ⟨slot, t', ht', h'⟩ := h.insert hlt hsafe
    exact ⟨.item slot, t', _, by simp only [Op.run, ht', Option.map_some], h',
      List.map_append, rfl⟩
  | remove d =>
    have hd := h.holds.remove_safe_iff.mp hsafe
    obtain ⟨l₁, p, l₂, rfl, hl₁, hget⟩ := h.holds.get_present (Nat.le_refl _) hd
    obtain ⟨t', ht', h'⟩ := h.removeItem
    refine ⟨.void, t', _, by simp only [Op.run, remove_of_get hget, ht', Option.map_some], h', ?_,
      rfl⟩
    rw [Op.after, ← map_erase, eraseP_split hl₁]
  | contains d =>
    exact ⟨.int (if d ∈ L.map Prod.snd then 1 else 0), t, L,
      by simp only [Op.run, h.holds.contains (Nat.le_refl _), Option.map_some], h, rfl, rfl⟩
  | size =>
    refine ⟨.int L.length, t, L,
      by simp only [Op.run, h.holds.size (Nat.le_refl _), Option.map_some], h, rfl, ?_⟩
    rw [Op.observes, List.length_map]
    rfl

theorem Owns.run_op {u : State Default} (h : Owns u L) (new : New) (op : Op) :
    ∃ fuel r u' L', op.run (defaultAllocator new) fuel u = some (r, u') ∧ Owns u' L' ∧
      L'.map Prod.snd = op.after (L.map Prod.snd) ∧
      r.observed = op.observes (L.map Prod.snd) := by
  obtain ⟨r, u', L', hrun, hspec, h'⟩ := h.run new (c := .op op) trivial (Nat.le_refl L.length)
  refine ⟨L.length, r, u', L', hrun, h', ?_⟩
  cases op with
  | insert d =>
    obtain ⟨p, -, rfl, rfl⟩ := hspec
    exact ⟨List.map_append, rfl⟩
  | remove d =>
    obtain ⟨rfl, rfl⟩ := hspec
    exact ⟨map_erase L d, rfl⟩
  | contains d =>
    obtain ⟨rfl, rfl⟩ := hspec
    exact ⟨rfl, rfl⟩
  | size =>
    obtain ⟨rfl, rfl⟩ := hspec
    refine ⟨rfl, ?_⟩
    rw [Op.observes, List.length_map]
    rfl

/-! ## Both lists -/

/-- Both lists have returned from the calls with the same results, and hold the same data. -/
structure Paired (new : New) (size : ℕ) (ops : List Op) (u : State Default) (t : State ℤ)
    (L L' : List (Ptr × ℤ)) : Prop where
  runs : ∃ rs rs', Runs (defaultAllocator new) start ops rs u ∧
    Runs (preAllocator size) (preStart size) ops rs' t ∧
    rs.map Ret.observed = rs'.map Ret.observed
  owns : Owns u L
  holds : PreHolds size t L'
  data : L.map Prod.snd = dataAfter ops
  data' : L'.map Prod.snd = dataAfter ops

theorem Paired.sameAfter {new : New} {u : State Default} {L' : List (Ptr × ℤ)}
    (h : Paired new size ops u t L L') : SameAfter new size ops := by
  obtain ⟨rs, rs', hrun, hrun', hobserved⟩ := h.runs
  refine ⟨iff_of_true ⟨rs, u, hrun⟩ ⟨rs', t, hrun'⟩, fun rs₁ u₁ rs₂ t₁ h₁ h₂ => ?_⟩
  obtain ⟨rfl, rfl⟩ := hrun.unique h₁
  obtain ⟨rfl, rfl⟩ := hrun'.unique h₂
  refine ⟨hobserved, fun data => ?_⟩
  rw [h.owns.holds.contents_iff, h.holds.holds.contents_iff, h.data, h.data']

theorem SafeRun.initial (h : SafeRun size ops) (hpre : pre <+: ops) : SafeRun size pre :=
  fun pre' op rs s hpre' hrun => h pre' op rs s (hpre'.trans hpre) hrun

/-- Safe calls keep the two lists together. -/
theorem SafeRun.paired (new : New) (hsafe : SafeRun size ops)
    (hlen : ∀ pre, pre <+: ops → (dataAfter pre).length ≤ size) :
    ∃ u t L L', Paired new size ops u t L L' := by
  induction ops using List.reverseRecOn with
  | nil =>
    exact ⟨start, preStart size, [], [], ⟨[], [], .nil, .nil, rfl⟩, owns_start, preHolds_start size,
      rfl, rfl⟩
  | append_singleton ops op ih =>
    have hpre : ops <+: ops ++ [op] := List.prefix_append _ _
    obtain ⟨u, t, L, L', ⟨rs, rs', hrun, hrun', hobserved⟩, hu, ht, hdata, hdata'⟩ :=
      ih (hsafe.initial hpre) fun pre h => hlen pre (h.trans hpre)
    have hop := hsafe ops op rs' t (List.prefix_refl _) hrun'
    have hlen' := hlen _ (List.prefix_refl _)
    rw [dataAfter_concat, ← hdata'] at hlen'
    obtain ⟨fuel, r, u₁, L₁, hs, hu₁, hL₁, hr⟩ := hu.run_op new op
    obtain ⟨fuel', r', t₁, L₁', hs', ht₁, hL₁', hr'⟩ := ht.run hop hlen'
    refine ⟨u₁, t₁, L₁, L₁', ⟨rs ++ [r], rs' ++ [r'], .snoc hrun hs, .snoc hrun' hs', ?_⟩, hu₁,
      ht₁, ?_, ?_⟩
    · rw [List.map_append, List.map_append, hobserved, List.map_singleton, List.map_singleton, hr,
        hr', hdata, hdata']
    · rw [hL₁, hdata, dataAfter_concat]
    · rw [hL₁', hdata', dataAfter_concat]

/-! ## An unsafe call -/

/-- `deleteListItem(NULL)` of a `PreAllocator` does not return. -/
theorem PreHolds.remove_absent (h : PreHolds size t L) (hd : d ∉ L.map Prod.snd) (fuel : ℕ) :
    (Op.remove d).run (preAllocator size) fuel t = none := by
  cases hrun : (Op.remove d).run (preAllocator size) fuel t with
  | none => rfl
  | some x =>
    have hlong := Op.run_mono hrun (Nat.le_max_left fuel L.length)
    have hget := h.holds.get_absent (Nat.le_max_right fuel L.length) hd
    simp only [Op.run, remove_of_get_none hget, deleteItem, preAllocator, Option.bind_eq_bind,
      Option.bind_none, Option.map_none] at hlong
    cases hlong

/-- The last item of a list with `p` is `p` or behind it. -/
theorem Holds.last_split (h : Holds t (l₁ ++ (p, e) :: l₂)) :
    ∃ q, t.last = some q ∧ (q = p ∧ l₂ = [] ∨ q ∈ l₂.map Prod.fst) := by
  rw [h.last, lastOr_append]
  rcases List.eq_nil_or_concat l₂ with rfl | ⟨l, ⟨q, f⟩, rfl⟩
  · exact ⟨p, rfl, .inl ⟨rfl, rfl⟩⟩
  · rw [List.concat_eq_append]
    refine ⟨q, ?_, .inr (by simp)⟩
    rw [← List.cons_append, lastOr_concat]

/-- The item `p` of the list is handed out again and becomes the last one. What is before it stays
as it is, and behind it there is nothing, or the item itself. -/
theorem insertTail_taken (h : Holds t (l₁ ++ (p, e) :: l₂)) (d : ℤ) :
    ∃ t' prev next, insertTail p (t.take p d) = some t' ∧ t'.first = t.first ∧
      (∀ x ∈ l₁.map Prod.fst, t'.heap x = t.heap x) ∧ t'.heap p = some ⟨d, prev, next⟩ ∧
      (next = none ∨ next = some p) := by
  obtain ⟨-, hnot₁, hnot₂, -, -, hdisj⟩ := h.split
  obtain ⟨q, hlast, hq⟩ := h.last_split
  have hfirst : t.first ≠ none := by
    rw [h.first]
    cases l₁ <;> exact Option.some_ne_none _
  let t₁ := (t.take p d).setHeap
    (Function.update (t.take p d).heap p (some ⟨d, some q, none⟩))
  have hwrite : (t.take p d).write p (·.setPrev (some q)) = some t₁ :=
    State.write_some (n := ⟨d, none, none⟩) (Function.update_self ..) _
  have hp₁ : t₁.heap p = some ⟨d, some q, none⟩ := Function.update_self ..
  have hother₁ : ∀ x, x ≠ p → t₁.heap x = t.heap x := fun x hx =>
    (Function.update_of_ne hx _ _).trans (Function.update_of_ne hx _ _)
  obtain ⟨n, hn⟩ : ∃ n, t₁.heap q = some n := by
    rcases hq with ⟨rfl, -⟩ | hq
    · exact ⟨_, hp₁⟩
    · have hqp : q ≠ p := fun heq => hnot₂ (heq ▸ hq)
      rw [hother₁ q hqp]
      exact h.links.mem (by rw [List.map_append]; exact List.mem_append_right _ (List.mem_cons_of_mem _ hq))
  have hins : insertTail p (t.take p d) = some { t₁ with
      heap := Function.update t₁.heap q (some (n.setNext (some p)))
      last := some p } := by
    rw [LinkedList.insertTail]
    change ((t.take p d).write p (·.setPrev t.last)).bind _ = _
    rw [hlast, hwrite]
    change (t₁.writeIf t.last _).bind _ = _
    rw [hlast]
    change (t₁.write q _).bind _ = _
    rw [State.write_some hn]
    change some (⟨_, _, if t.first = none then some p else t.first, some p⟩ : State ℤ) = _
    rw [if_neg hfirst]
    rfl
  have hbefore : ∀ x ∈ l₁.map Prod.fst,
      Function.update t₁.heap q (some (n.setNext (some p))) x = t.heap x := by
    intro x hx
    have hxp : x ≠ p := fun heq => hnot₁ (heq ▸ hx)
    have hxq : x ≠ q := by
      rcases hq with ⟨rfl, -⟩ | hq
      · exact hxp
      · exact fun heq => hdisj x hx (heq ▸ hq)
    rw [Function.update_of_ne hxq, hother₁ x hxp]
  by_cases hqp : q = p
  · subst hqp
    rw [hp₁, Option.some.injEq] at hn
    refine ⟨_, some q, some q, hins, rfl, hbefore, ?_, .inr rfl⟩
    rw [← hn]
    exact Function.update_self ..
  · exact ⟨_, some q, none, hins, rfl, hbefore,
      (Function.update_of_ne (Ne.symm hqp) _ _).trans hp₁, .inl rfl⟩

/-- The list then goes from its first item to `p` and ends there, or goes round in `p`. -/
theorem length_le_of_taken {L' : List (Ptr × ℤ)} {prev next : Option Ptr}
    (h : Holds t (l₁ ++ (p, e) :: l₂)) (hfirst : t'.first = t.first)
    (hbefore : ∀ x ∈ l₁.map Prod.fst, t'.heap x = t.heap x)
    (hp : t'.heap p = some ⟨d, prev, next⟩) (hnext : next = none ∨ next = some p)
    (hL : firstOr L' none = t'.first) (hseg : Seg (fwd t'.heap) L' none) :
    L'.length = l₁.length + 1 := by
  have hl₁ : Seg (fwd t'.heap) l₁ (some p) := by
    refine (Chain.seg_append.mp h.seg).1.congr fun x hx => ?_
    rw [fwd, hbefore x.1 (List.mem_map_of_mem hx), fwd]
  have hbegin : firstOr L' none = firstOr l₁ (some p) := by
    rw [hL, hfirst, h.first, Chain.firstOr_append]
    rfl
  obtain ⟨l₃, rfl, hl₃, hseg₃⟩ := hl₁.through hseg hbegin
  have hnode : fwd t'.heap p = some ⟨d, next⟩ := by
    rw [fwd, hp]
    rfl
  rcases hnext with rfl | rfl
  · have hone : Seg (fwd t'.heap) [(p, d)] none := ⟨hnode, trivial⟩
    rw [hseg₃.unique hone hl₃, List.length_append]
    rfl
  · exact absurd hl₃ (hseg₃.not_loop hnode)

/-- If the search stops at an item of the list, the list does not become longer by one. -/
theorem PreHolds.insert_linked (h : PreHolds size t L) (hlen : L.length < size)
    (hdanger : ¬ (Op.insert d).Safe size t) :
    ∃ slot t', LinkedList.insert (preAllocator size) d t = some (slot, t') ∧
      ∀ data, Contents t' data → data.length ≤ L.length := by
  obtain ⟨slot, hslot, hsearch, heq⟩ := h.insert_eq hlen d
  have hmem : slot ∈ L.map Prod.fst := by
    by_contra hnot
    refine hdanger fun slot' hsearch' hforth => hnot ?_
    rw [hsearch, Option.some.injEq, NextFit.Outcome.found.injEq] at hsearch'
    rw [hsearch']
    exact h.holds.forth_mem hforth
  obtain ⟨l₁, e, l₂, rfl⟩ := exists_split hmem
  obtain ⟨t', prev, next, ht', hfirst, hbefore, hp, hnext⟩ := insertTail_taken h.holds d
  refine ⟨slot, t', by rw [heq, ht']; rfl, ?_⟩
  rintro _ ⟨L', hL', hseg, rfl⟩
  rw [List.length_map, length_le_of_taken h.holds hfirst hbefore hp hnext hL' hseg,
    List.length_append, List.length_cons]
  omega

/-- After an unsafe call the two lists differ, or only one of them has returned. -/
theorem Paired.not_sameAfter {new : New} {u : State Default} {L' : List (Ptr × ℤ)}
    (h : Paired new size ops u t L L')
    (hlen : (dataAfter (ops ++ [op])).length ≤ size) (hdanger : ¬ op.Safe size t) :
    ¬ SameAfter new size (ops ++ [op]) := by
  intro hsame
  obtain ⟨rs, rs', hrun, hrun', -⟩ := h.runs
  obtain ⟨fuel, r, u₁, L₁, hs, hu₁, hL₁, -⟩ := h.owns.run_op new op
  cases op with
  | insert d =>
    rw [dataAfter_concat, ← h.data', Op.after, List.length_append, List.length_map,
      List.length_singleton] at hlen
    obtain ⟨slot, t₁, ht₁, hshort⟩ := h.holds.insert_linked (Nat.lt_of_succ_le hlen) hdanger
    have hs' : (Op.insert d).run (preAllocator size) 0 t = some (.item slot, t₁) := by
      simp only [Op.run, ht₁, Option.map_some]
    have hcontents := ((hsame.2 _ _ _ _ (hrun.snoc hs) (hrun'.snoc hs')).2 _).mp
      (hu₁.holds.contents_iff.mpr rfl)
    have hle := hshort _ hcontents
    have hlength : L.length = L'.length := by
      rw [← List.length_map (f := Prod.snd), h.data, ← h.data', List.length_map]
    rw [hL₁, Op.after, List.length_append, List.length_map, List.length_singleton] at hle
    omega
  | remove d =>
    rw [h.holds.holds.remove_safe_iff] at hdanger
    obtain ⟨rs₂, t₂, hrun₂⟩ := hsame.1.mp ⟨_, _, hrun.snoc hs⟩
    obtain ⟨rs₁, t₁, r', fuel', -, hrun₁, hs'⟩ := runs_snoc_iff.mp hrun₂
    obtain ⟨-, rfl⟩ := hrun'.unique hrun₁
    rw [h.holds.remove_absent hdanger] at hs'
    cases hs'
  | contains d => exact hdanger trivial
  | size => exact hdanger trivial

/-- As long as at most 10000 items are in the list, the two lists behave in the same way exactly if
every call on the list over the `PreAllocator` is safe. -/
theorem allocators_agree_iff (new : New) (ops : List Op)
    (hlen : ∀ pre, pre <+: ops → (dataAfter pre).length ≤ allocationsSize) :
    Agrees new allocationsSize ops ↔ SafeRun allocationsSize ops := by
  constructor
  · intro h
    induction ops using List.reverseRecOn with
    | nil =>
      intro pre op rs s hpre
      have := List.prefix_nil.mp hpre
      simp at this
    | append_singleton ops op ih =>
      have hpre : ops <+: ops ++ [op] := List.prefix_append _ _
      have hsafe : SafeRun allocationsSize ops := ih
        (fun pre hp => hlen pre (hp.trans hpre)) fun pre hp => h pre (hp.trans hpre)
      intro pre op' rs t hop hrun
      rcases List.prefix_concat_iff.mp hop with heq | hop
      · obtain ⟨rfl, hop'⟩ := List.append_inj' heq rfl
        obtain rfl := List.head_eq_of_cons_eq hop'
        obtain ⟨u, t', L, L', hpaired⟩ := hsafe.paired new fun p hp => hlen p (hp.trans hpre)
        obtain ⟨rs₁, rs₂, -, hrun', -⟩ := hpaired.runs
        obtain ⟨-, rfl⟩ := hrun'.unique hrun
        by_contra hdanger
        exact hpaired.not_sameAfter (hlen _ (List.prefix_refl _)) hdanger
          (h _ (List.prefix_refl _))
      · exact hsafe pre op' rs t hop hrun
  · intro hsafe pre hpre
    obtain ⟨u, t, L, L', hpaired⟩ := (hsafe.initial hpre).paired new fun p hp =>
      hlen p (hp.trans hpre)
    exact hpaired.sameAfter

/-- One more call that is safe where the list has the data of the calls before it. -/
theorem SafeRun.snoc (hsafe : SafeRun size ops)
    (hlen : ∀ pre, pre <+: ops → (dataAfter pre).length ≤ size)
    (hop : ∀ t L, PreHolds size t L → L.map Prod.snd = dataAfter ops → op.Safe size t) :
    SafeRun size (ops ++ [op]) := by
  intro pre op' rs s hpre hrun
  rcases List.prefix_concat_iff.mp hpre with heq | hpre
  · obtain ⟨rfl, hop'⟩ := List.append_inj' heq rfl
    obtain rfl := List.head_eq_of_cons_eq hop'
    obtain ⟨u, t, L, L', hpaired⟩ := hsafe.paired .above hlen
    obtain ⟨rs₁, rs₂, -, hrun', -⟩ := hpaired.runs
    obtain ⟨-, rfl⟩ := hrun'.unique hrun
    exact hop _ L' hpaired.holds hpaired.data'
  · exact hsafe pre op' rs s hpre hrun

theorem safeRun_three : SafeRun allocationsSize [.insert 1, .contains 1, .remove 1] := by
  have hnil : SafeRun allocationsSize [] := by
    intro pre op rs s hpre
    have := List.prefix_nil.mp hpre
    simp at this
  have hinsert : SafeRun allocationsSize ([] ++ [.insert 1]) := by
    refine hnil.snoc (fun _ => dataAfter_le_of_prefix (by decide)) fun t L h hdata slot _ hlinked => ?_
    obtain rfl : L = [] := List.map_eq_nil_iff.mp hdata
    exact List.not_mem_nil (h.holds.forth_mem hlinked)
  have hcontains : SafeRun allocationsSize ([.insert 1] ++ [.contains 1]) :=
    hinsert.snoc (fun _ => dataAfter_le_of_prefix (by decide)) fun _ _ _ _ => trivial
  refine hcontains.snoc (fun _ => dataAfter_le_of_prefix (by decide)) fun t L h hdata => ?_
  rw [h.holds.remove_safe_iff, hdata]
  decide

/-- An item is inserted, found and removed. -/
theorem allocators_agree_iff_three :
    SafeRun allocationsSize [.insert 1, .contains 1, .remove 1] ∧
      Agrees .above allocationsSize [.insert 1, .contains 1, .remove 1] :=
  ⟨safeRun_three,
    (allocators_agree_iff .above _ fun _ => dataAfter_le_of_prefix (by decide)).mpr safeRun_three⟩

/-- The removal of something that is not in the list ends the process. -/
theorem allocators_disagree : ¬ ∀ (new : New) (ops : List Op),
    (∀ pre, pre <+: ops → (dataAfter pre).length ≤ allocationsSize) →
      Agrees new allocationsSize ops := by
  intro h
  have hsame := h .above ([] ++ [.remove 5]) (fun _ => dataAfter_le_of_prefix (by decide)) _
    (List.prefix_refl _)
  have hrun : Runs (defaultAllocator .above) start ([] ++ [.remove 5]) [.void] start :=
    @Runs.snoc _ _ _ [] [] start start (.remove 5) .void 0 .nil rfl
  obtain ⟨rs, t, hrun'⟩ := hsame.1.mp ⟨_, _, hrun⟩
  obtain ⟨rs₁, t₁, r, fuel, -, hnil, hs⟩ := runs_snoc_iff.mp hrun'
  obtain ⟨-, rfl⟩ := hnil.unique .nil
  rw [(preHolds_start allocationsSize).remove_absent List.not_mem_nil] at hs
  cases hs

end Htmsql.LinkedList
