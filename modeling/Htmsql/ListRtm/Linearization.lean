import Mathlib.Data.List.Perm.Subperm
import Htmsql.ListRtm.Machine

/-!
# The list in transactions is a sequence

Every call is atomic: it takes effect when its transaction commits, on a list that is intact then. So
the calls of any number of threads are linearizable, with the specification that the list under a
lock has, whatever attempts abort; no transaction fails for an access to a deleted item, and every
item in use is in the list or belongs to a call that has created or removed it.
-/

namespace Htmsql.ListRtm

open Linearizable (Clients Linearizes SpecRun)
open LinkedList (State Default New defaultAllocator Holds Intact)
open ThreadsafeList (Ptr Op Ret listSpec)

variable {T : Type}

/-- The invariant of the machine: the list holds `L`, and every other item in use is owned by
exactly one call. -/
structure Inv (s : Sys T) (L : List (Ptr × Int)) : Prop where
  holds : Holds s.list L
  used : ∀ p, p ∈ s.list.own.used ↔ p ∈ L.map Prod.fst ∨ ∃ t, (s.pc t).owned = some p
  nodup : s.list.own.used.Nodup
  apart : ∀ t u p, (s.pc t).owned = some p → (s.pc u).owned = some p → t = u
  outside : ∀ t p, (s.pc t).owned = some p → p ∉ L.map Prod.fst
  ready : ∀ t d item n, s.pc t = .insertTail d item n → s.list.heap item = some ⟨d, none, none⟩
  clients : Clients listSpec [] s.log s.id (fun t => (s.pc t).status) (L.map Prod.snd)

theorem inv_init : Inv (init : Sys T) [] := by
  refine ⟨LinkedList.owns_start.holds, fun p => ?_, List.nodup_nil, ?_, ?_, ?_,
    Linearizable.clients_init⟩
  · simp [init, LinkedList.start, LinkedList.newList, Pc.owned]
  all_goals simp [init, Pc.owned]

variable {s s' : Sys T} {t : T} {L L' : List (Ptr × Int)} {list' : State Default} {p : Pc}

/-- The loops of a transaction come to their end. -/
theorem Inv.length_le (h : Inv s L) : L.length ≤ s.rounds := by
  have hsub : (L.map Prod.fst).Subperm s.list.own.used := by
    refine List.subperm_of_subset h.holds.nodup fun p hp => ?_
    exact (h.used p).mpr (Or.inl hp)
  have hlen := hsub.length_le
  rw [List.length_map] at hlen
  exact hlen

variable [DecidableEq T]

theorem Inv.clients_keep (h : Inv s L) (hstatus : p.status = (s.pc t).status) :
    Clients listSpec [] s.log s.id (fun u => ((s.goto t p).pc u).status) (L.map Prod.snd) := by
  refine h.clients.keep fun u => ?_
  by_cases hu : u = t
  · subst hu
    rw [goto_pc_self, hstatus]
  · rw [goto_pc_of_ne hu]

theorem Inv.clients_effect (h : Inv s L) {op : Op} {r : Ret}
    (hpending : (s.pc t).status = .pending op) (hp : p.status = .effective r)
    (hspec : listSpec (L.map Prod.snd) op r (L'.map Prod.snd)) :
    Clients listSpec [] (s.effect t op r).log s.id (fun u => ((s.goto t p).pc u).status)
      (L'.map Prod.snd) := by
  refine h.clients.effect hpending hspec ?_ fun u hu => ?_
  · rw [goto_pc_self]
    exact hp
  · rw [goto_pc_of_ne hu]

/-- What a step of `t` has to say about the memory. The items of the other calls stay out of the list
and are not written. -/
structure Moves (s : Sys T) (t : T) (list' : State Default) (p : Pc) (L' : List (Ptr × Int)) :
    Prop where
  holds : Holds list' L'
  used : ∀ q, q ∈ list'.own.used ↔
    q ∈ L'.map Prod.fst ∨ p.owned = some q ∨ ∃ u, u ≠ t ∧ (s.pc u).owned = some q
  nodup : list'.own.used.Nodup
  own : ∀ q, p.owned = some q →
    q ∉ L'.map Prod.fst ∧ ∀ u, u ≠ t → (s.pc u).owned ≠ some q
  other : ∀ u q, u ≠ t → (s.pc u).owned = some q →
    q ∉ L'.map Prod.fst ∧ list'.heap q = s.list.heap q
  ready : ∀ d item n, p = .insertTail d item n → list'.heap item = some ⟨d, none, none⟩

/-- A step of one thread; `s'` may have another log. -/
theorem Inv.move (h : Inv s L) (hm : Moves s t list' p L') (hlist : s'.list = list')
    (hpc : s'.pc = (s.goto t p).pc)
    (hclients : Clients listSpec [] s'.log s'.id (fun u => ((s.goto t p).pc u).status)
      (L'.map Prod.snd)) : Inv s' L' := by
  subst hlist
  refine ⟨hm.holds, fun q => ?_, hm.nodup, fun u v q hu hv => ?_, fun u q hu => ?_,
    fun u d item n hu => ?_, by rw [hpc]; exact hclients⟩
  · rw [hm.used q]
    refine or_congr_right ⟨?_, ?_⟩
    · rintro (hp | ⟨u, hu, ho⟩)
      · exact ⟨t, by rw [hpc, goto_pc_self]; exact hp⟩
      · exact ⟨u, by rw [hpc, goto_pc_of_ne hu]; exact ho⟩
    · rintro ⟨u, ho⟩
      by_cases hu : u = t
      · subst hu
        rw [hpc, goto_pc_self] at ho
        exact Or.inl ho
      · rw [hpc, goto_pc_of_ne hu] at ho
        exact Or.inr ⟨u, hu, ho⟩
  · by_cases hut : u = t <;> by_cases hvt : v = t
    · rw [hut, hvt]
    · subst hut
      rw [hpc, goto_pc_self] at hu
      rw [hpc, goto_pc_of_ne hvt] at hv
      exact ((hm.own q hu).2 v hvt hv).elim
    · subst hvt
      rw [hpc, goto_pc_of_ne hut] at hu
      rw [hpc, goto_pc_self] at hv
      exact ((hm.own q hv).2 u hut hu).elim
    · rw [hpc, goto_pc_of_ne hut] at hu
      rw [hpc, goto_pc_of_ne hvt] at hv
      exact h.apart u v q hu hv
  · by_cases hut : u = t
    · subst hut
      rw [hpc, goto_pc_self] at hu
      exact (hm.own q hu).1
    · rw [hpc, goto_pc_of_ne hut] at hu
      exact (hm.other u q hut hu).1
  · by_cases hut : u = t
    · subst hut
      rw [hpc, goto_pc_self] at hu
      exact hm.ready d item n hu
    · rw [hpc, goto_pc_of_ne hut] at hu
      rw [(hm.other u item hut (by rw [hu]; rfl)).2]
      exact h.ready u d item n hu

/-- The memory of a step that leaves the list and the items of the thread alone. -/
theorem Inv.stays (h : Inv s L) (howned : p.owned = (s.pc t).owned)
    (hready : ∀ d item n, p = .insertTail d item n → s.list.heap item = some ⟨d, none, none⟩) :
    Moves s t s.list p L := by
  refine ⟨h.holds, fun q => ?_, h.nodup, fun q hq => ⟨?_, fun u hu ho => ?_⟩,
    fun u q _ ho => ⟨h.outside u q ho, rfl⟩, hready⟩
  · rw [h.used q, howned]
    refine or_congr_right ⟨?_, ?_⟩
    · rintro ⟨u, ho⟩
      by_cases hu : u = t
      · exact Or.inl (hu ▸ ho)
      · exact Or.inr ⟨u, hu, ho⟩
    · rintro (ho | ⟨u, -, ho⟩)
      · exact ⟨t, ho⟩
      · exact ⟨u, ho⟩
  · rw [howned] at hq
    exact h.outside t q hq
  · rw [howned] at hq
    exact hu (h.apart u t q ho hq)

omit [DecidableEq T] in
/-- The items of the others are different from that of the thread. -/
theorem Inv.other_ne (h : Inv s L) {item q : Ptr} {u : T} (hu : u ≠ t)
    (ht : (s.pc t).owned = some item) (ho : (s.pc u).owned = some q) : q ≠ item := by
  rintro rfl
  exact hu (h.apart u t q ho ht)

/-! ## The steps on the memory -/

omit [DecidableEq T] in
/-- `createListItem` -/
theorem Inv.create (h : Inv s L) (new : New) {d : Int} (ht : (s.pc t).owned = none) :
    ∃ item heap own,
      (defaultAllocator new).createListItem d none none s.list.heap s.list.own =
        some (item, heap, own) ∧
      Moves s t { s.list with heap := heap, own := own } (.insertTail d item 0) L := by
  let item := new.choose s.list.own.calls s.list.own.used
  have hfresh : item ∉ s.list.own.used := new.fresh _ _
  have hnotL : item ∉ L.map Prod.fst := fun hp => hfresh ((h.used item).mpr (Or.inl hp))
  have hnot : ∀ u, (s.pc u).owned ≠ some item :=
    fun u ho => hfresh ((h.used item).mpr (Or.inr ⟨u, ho⟩))
  refine ⟨item, _, _, rfl, ⟨h.holds.first, h.holds.last, h.holds.links.congr fun q hq => ?_,
    h.holds.nodup⟩, fun q => ?_, List.nodup_cons.mpr ⟨hfresh, h.nodup⟩, fun q hq => ?_,
    fun u q _ ho => ⟨h.outside u q ho, ?_⟩, fun d' item' n heq => ?_⟩
  · apply Function.update_of_ne
    rintro rfl
    exact hnotL hq
  · change q ∈ item :: s.list.own.used ↔ _
    rw [List.mem_cons, h.used q]
    constructor
    · rintro (rfl | hq | ⟨u, ho⟩)
      · exact Or.inr (Or.inl rfl)
      · exact Or.inl hq
      · refine Or.inr (Or.inr ⟨u, ?_, ho⟩)
        rintro rfl
        rw [ht] at ho
        cases ho
    · rintro (hq | hq | ⟨u, -, ho⟩)
      · exact Or.inr (Or.inl hq)
      · exact Or.inl (Option.some.inj hq).symm
      · exact Or.inr (Or.inr ⟨u, ho⟩)
  · obtain rfl : item = q := Option.some.inj hq
    exact ⟨hnotL, fun u _ => hnot u⟩
  · apply Function.update_of_ne
    rintro rfl
    exact hnot u ho
  · obtain ⟨rfl, rfl, -⟩ := Pc.insertTail.inj heq
    exact Function.update_self ..

/-- `insertTail` -/
theorem Inv.insertTail (h : Inv s L) {d : Int} {item : Ptr} {n : Nat} {r : Ret}
    (ht : s.pc t = .insertTail d item n) :
    ∃ list', LinkedList.insertTail item s.list = some list' ∧
      Moves s t list' (.ret r) (L ++ [(item, d)]) := by
  have howned : (s.pc t).owned = some item := by
    rw [ht]
    rfl
  obtain ⟨list', hins, hown, hholds, hout⟩ :=
    h.holds.insertTail (h.ready t d item n ht) (h.outside t item howned)
  have hmem : ∀ q, q ∈ (L ++ [(item, d)]).map Prod.fst ↔ q ∈ L.map Prod.fst ∨ q = item := by
    intro q
    simp
  refine ⟨list', hins, hholds, fun q => ?_, ?_, (fun q hq => by cases hq), fun u q hu ho => ?_,
    fun _ _ _ heq => by cases heq⟩
  · rw [hown, h.used q, hmem q]
    constructor
    · rintro (hq | ⟨u, ho⟩)
      · exact Or.inl (Or.inl hq)
      · by_cases hu : u = t
        · subst hu
          rw [howned] at ho
          exact Or.inl (Or.inr (Option.some.inj ho).symm)
        · exact Or.inr (Or.inr ⟨u, hu, ho⟩)
    · rintro ((hq | rfl) | hq | ⟨u, -, ho⟩)
      · exact Or.inl hq
      · exact Or.inr ⟨t, howned⟩
      · cases hq
      · exact Or.inr ⟨u, ho⟩
  · rw [hown]
    exact h.nodup
  · have hnot : q ∉ (L ++ [(item, d)]).map Prod.fst := by
      rw [hmem q, not_or]
      exact ⟨h.outside u q ho, h.other_ne hu howned ho⟩
    exact ⟨hnot, hout q hnot⟩

omit [DecidableEq T] in
/-- `findAndRemoveFromList` that finds an item -/
theorem Inv.removeFromList {l₁ l₂ : List (Ptr × Int)} {d : Int} {item : Ptr}
    (h : Inv s (l₁ ++ (item, d) :: l₂)) (ht : (s.pc t).owned = none) :
    ∃ list', LinkedList.removeFromList (some item) s.list = some list' ∧
      Moves s t list' (.delete (some item)) (l₁ ++ l₂) := by
  obtain ⟨list', hrem, hown, hholds, hout⟩ := h.holds.removeFromList
  obtain ⟨-, hnot₁, hnot₂, -⟩ := h.holds.split
  have hmem : ∀ q, q ∈ (l₁ ++ (item, d) :: l₂).map Prod.fst ↔
      q ∈ (l₁ ++ l₂).map Prod.fst ∨ q = item := by
    intro q
    rw [List.map_append, List.map_cons, List.map_append, List.mem_append, List.mem_cons,
      List.mem_append]
    tauto
  have hnot : item ∉ (l₁ ++ l₂).map Prod.fst := by
    rw [List.map_append, List.mem_append, not_or]
    exact ⟨hnot₁, hnot₂⟩
  have hout_owned : ∀ u q, (s.pc u).owned = some q → q ∉ (l₁ ++ l₂).map Prod.fst ∧ q ≠ item := by
    intro u q ho
    have hq := h.outside u q ho
    rw [hmem q, not_or] at hq
    exact hq
  refine ⟨list', hrem, hholds, fun q => ?_, ?_, fun q hq => ?_, fun u q _ ho => ?_,
    fun _ _ _ heq => by cases heq⟩
  · rw [hown, h.used q, hmem q]
    constructor
    · rintro ((hq | rfl) | ⟨u, ho⟩)
      · exact Or.inl hq
      · exact Or.inr (Or.inl rfl)
      · refine Or.inr (Or.inr ⟨u, ?_, ho⟩)
        rintro rfl
        rw [ht] at ho
        cases ho
    · rintro (hq | hq | ⟨u, -, ho⟩)
      · exact Or.inl (Or.inl hq)
      · exact Or.inl (Or.inr (Option.some.inj hq).symm)
      · exact Or.inr ⟨u, ho⟩
  · rw [hown]
    exact h.nodup
  · obtain rfl : item = q := Option.some.inj hq
    exact ⟨hnot, fun u _ ho => (hout_owned u item ho).2 rfl⟩
  · obtain ⟨hq, -⟩ := hout_owned u q ho
    exact ⟨hq, hout q hq⟩

/-- `deleteListItem` -/
theorem Inv.delete (h : Inv s L) (new : New) {item : Option Ptr} (ht : s.pc t = .delete item) :
    ∃ list', LinkedList.deleteItem (defaultAllocator new) item s.list = some list' ∧
      Moves s t list' (.ret .void) L := by
  cases item with
  | none =>
    refine ⟨s.list, rfl, h.stays ?_ fun _ _ _ heq => by cases heq⟩
    rw [ht]
    rfl
  | some item =>
    have howned : (s.pc t).owned = some item := by
      rw [ht]
      rfl
    have hused : item ∈ s.list.own.used := (h.used item).mpr (Or.inr ⟨t, howned⟩)
    have hnotL := h.outside t item howned
    refine ⟨{ s.list with
        heap := Function.update s.list.heap item none
        own := { s.list.own with
          used := s.list.own.used.erase item
          deleted := s.list.own.deleted ++ [item] } }, ?_,
      ⟨h.holds.first, h.holds.last, h.holds.links.congr fun q hq => ?_, h.holds.nodup⟩,
      fun q => ?_, h.nodup.erase item, (fun q hq => by cases hq), fun u q hu ho => ?_,
      fun _ _ _ heq => by cases heq⟩
    · simp [LinkedList.deleteItem, defaultAllocator, hused]
    · apply Function.update_of_ne
      rintro rfl
      exact hnotL hq
    · change q ∈ s.list.own.used.erase item ↔ _
      rw [h.nodup.mem_erase_iff, h.used q]
      constructor
      · rintro ⟨hne, hq | ⟨u, ho⟩⟩
        · exact Or.inl hq
        · refine Or.inr (Or.inr ⟨u, ?_, ho⟩)
          rintro rfl
          rw [howned] at ho
          exact hne (Option.some.inj ho).symm
      · rintro (hq | hq | ⟨u, hu, ho⟩)
        · refine ⟨?_, Or.inl hq⟩
          rintro rfl
          exact hnotL hq
        · cases hq
        · exact ⟨h.other_ne hu howned ho, Or.inr ⟨u, ho⟩⟩
    · refine ⟨h.outside u q ho, ?_⟩
      exact Function.update_of_ne (h.other_ne hu howned ho) _ _

/-! ## The steps of a call -/

theorem Inv.run (h : Inv s L) (new : New) (ht : s.pc t ≠ .idle) :
    ∃ s' L', s.run new t = some s' ∧ Inv s' L' := by
  cases hp : s.pc t
  case idle => exact (ht hp).elim
  case create d =>
    obtain ⟨item, heap, own, hcreate, hm⟩ := h.create new (t := t) (d := d) (by rw [hp]; rfl)
    refine ⟨(s.setList { s.list with heap := heap, own := own }).goto t (.insertTail d item 0), L,
      ?_, h.move hm rfl rfl (h.clients_keep ?_)⟩
    · simp [Sys.run, hp, hcreate]
    · rw [hp]
      rfl
  case insertTail d item n =>
    obtain ⟨list', hins, hm⟩ := h.insertTail (r := .item item) hp
    refine ⟨((s.setList list').effect t (.insert d) (.item item)).goto t (.ret (.item item)),
      L ++ [(item, d)], ?_, h.move hm rfl rfl (h.clients_effect ?_ rfl ?_)⟩
    · simp [Sys.run, hp, hins]
    · rw [hp]
      rfl
    · exact ⟨⟨item, rfl⟩, by simp⟩
  case get d n =>
    have hget := h.holds.get h.length_le d
    let r : Ret := .int (if (L.find? (·.2 = d)).map Prod.fst ≠ none then 1 else 0)
    refine ⟨(s.effect t (.contains d) r).goto t (.ret r), L, ?_,
      h.move (h.stays ?_ ?_) rfl rfl (h.clients_effect ?_ rfl ?_)⟩
    · simp only [Sys.run, hp, hget, Option.map_some]
      rfl
    · rw [hp]
      rfl
    · intro _ _ _ heq
      cases heq
    · rw [hp]
      rfl
    · refine ⟨?_, rfl⟩
      simp only [r, Ne, LinkedList.find_eq_none_iff, not_not]
  case findAndRemove d n =>
    by_cases hd : d ∈ L.map Prod.snd
    · obtain ⟨l₁, item, l₂, rfl, hl₁, hget⟩ := h.holds.get_present h.length_le hd
      obtain ⟨list', hrem, hm⟩ := h.removeFromList (t := t) (by rw [hp]; rfl)
      refine ⟨((s.setList list').effect t (.remove d) .void).goto t (.delete (some item)), l₁ ++ l₂,
        ?_, h.move hm rfl rfl (h.clients_effect ?_ rfl ?_)⟩
      · simp [Sys.run, hp, hget, hrem]
      · rw [hp]
        rfl
      · refine ⟨rfl, ?_⟩
        rw [← LinkedList.map_erase, LinkedList.eraseP_split hl₁]
    · have hget : LinkedList.get s.rounds d s.list = some none := by
        rw [h.holds.get h.length_le d, LinkedList.find_eq_none_iff.mpr hd]
      refine ⟨(s.effect t (.remove d) .void).goto t (.delete none), L, ?_,
        h.move (h.stays ?_ ?_) rfl rfl (h.clients_effect ?_ rfl ?_)⟩
      · simp only [Sys.run, hp, hget]
        rfl
      · rw [hp]
        rfl
      · intro _ _ _ heq
        cases heq
      · rw [hp]
        rfl
      · exact ⟨rfl, (List.erase_of_not_mem hd).symm⟩
  case delete item =>
    obtain ⟨list', hdel, hm⟩ := h.delete new hp
    refine ⟨(s.setList list').goto t (.ret .void), L, ?_, h.move hm rfl rfl (h.clients_keep ?_)⟩
    · simp [Sys.run, hp, hdel]
    · rw [hp]
      rfl
  case ret r =>
    refine ⟨({ s with log := s.log.ret (s.id t) r } : Sys T).goto t .idle, L, ?_,
      h.move (h.stays (p := .idle) ?_ ?_) rfl rfl (h.clients.ret (t := t) ?_ ?_ fun u hu => ?_)⟩
    · simp [Sys.run, hp]
    · rw [hp]
      rfl
    · intro _ _ _ heq
      cases heq
    · rw [hp]
      rfl
    · rw [goto_pc_self]
      rfl
    · rw [goto_pc_of_ne hu]

theorem Inv.retry (h : Inv s L) {n : Nat} {again : Nat → Pc}
    (howned : (again (n + 1)).owned = (s.pc t).owned)
    (hstatus : (again (n + 1)).status = (s.pc t).status)
    (hready : ∀ d item k, again (n + 1) = .insertTail d item k →
      s.list.heap item = some ⟨d, none, none⟩) : Inv (s.retry t n again) L := by
  unfold Sys.retry
  split
  · exact h.move (h.stays howned hready) rfl rfl (h.clients_keep hstatus)
  · exact ⟨h.holds, h.used, h.nodup, h.apart, h.outside, h.ready, h.clients⟩

theorem Inv.abort (h : Inv s L) (hs : s.abort t = some s') : Inv s' L := by
  unfold Sys.abort at hs
  cases hp : s.pc t <;> rw [hp] at hs <;> simp only [Option.some.injEq, reduceCtorEq] at hs
  all_goals subst hs
  case insertTail d item n =>
    refine h.retry (by rw [hp]; rfl) (by rw [hp]; rfl) fun d' item' k heq => ?_
    obtain ⟨rfl, rfl, -⟩ := Pc.insertTail.inj heq
    exact h.ready t d item n hp
  case get d n | findAndRemove d n =>
    refine h.retry (by rw [hp]; rfl) (by rw [hp]; rfl) fun d' item' k heq => ?_
    cases heq

theorem Inv.step {new : New} {a : Act T} (h : Inv s L) (hs : step new s a = some s') :
    ∃ L', Inv s' L' := by
  unfold ListRtm.step at hs
  split at hs
  · cases hs
  · cases a with
    | call t op =>
      simp only at hs
      split at hs
      · rename_i hidle
        obtain rfl := Option.some.inj hs
        refine ⟨L, h.move (h.stays (p := entry op) ?_ ?_) rfl rfl
          (h.clients.call (t := t) op ?_ fun u hu => ?_)⟩
        · rw [hidle]
          cases op <;> rfl
        · intro d item n heq
          cases op <;> cases heq
        · rw [goto_pc_self]
          cases op <;> rfl
        · rw [goto_pc_of_ne hu]
      · cases hs
    | run t =>
      have hidle : s.pc t ≠ .idle := by
        intro hp
        simp [Sys.run, hp] at hs
      obtain ⟨s₁, L', hrun, hinv⟩ := h.run new hidle
      obtain rfl : s₁ = s' := Option.some.inj (hrun.symm.trans hs)
      exact ⟨L', hinv⟩
    | abort t => exact ⟨L, h.abort hs⟩

theorem reach_inv {new : New}
    (hr : Run.Reach (step new) (· = (init : Sys T)) (fun _ _ => True) s) : ∃ L, Inv s L := by
  refine hr.invariant (I := fun s => ∃ L, Inv s L) ?_ ?_
  · rintro _ rfl
    exact ⟨[], inv_init⟩
  · rintro s a s' ⟨L, h⟩ - hs
    exact h.step hs

/-- In every state that any number of threads reach with any pattern of aborts: the calls so far are
linearizable, with the specification of the list under a lock; the list is intact and consists of
what the effects left in it; what is in use is in the list or belongs to exactly one call, and
nothing is both; and unless the process has ended, no call is stuck: its next step, or its
transaction, succeeds. -/
theorem listRtm_linearizable {new : New}
    (hr : Run.Reach (step new) (· = (init : Sys T)) (fun _ _ => True) s) :
    ∃ items, Linearizes listSpec [] s.log.hist s.log.effects ∧
      SpecRun listSpec [] s.log.effects (items.map Prod.snd) ∧
      Holds s.list items ∧ Intact s.list ∧
      (∀ p, p ∈ s.list.own.used ↔ p ∈ items.map Prod.fst ∨ ∃! t, (s.pc t).owned = some p) ∧
      (∀ t p, (s.pc t).owned = some p → p ∉ items.map Prod.fst) ∧
      (s.exited = false → ∀ t, s.pc t ≠ .idle → ∃ s', step new s (.run t) = some s') := by
  obtain ⟨L, h⟩ := reach_inv hr
  refine ⟨L, h.clients.log.linearizes, h.clients.log.run, h.holds, h.holds.intact, fun p => ?_,
    h.outside, fun hrunning t ht => ?_⟩
  · rw [h.used p]
    refine or_congr_right ⟨fun ⟨t, ht⟩ => ⟨t, ht, fun u hu => h.apart u t p hu ht⟩, ?_⟩
    exact fun ⟨t, ht, _⟩ => ⟨t, ht⟩
  · obtain ⟨s', -, hrun, -⟩ := h.run new ht
    refine ⟨s', ?_⟩
    rw [step, if_neg (by simp [hrunning])]
    exact hrun

/-- One thread inserts 1 and another one removes it; the first attempt of each aborts. -/
theorem listRtm_linearizable_aborts :
    ∃ s : Sys Bool, s.log.hist =
        [.call 0 (.insert 1), .call 1 (.remove 1), .ret 0 (.item 1), .ret 1 .void] ∧
      Linearizes listSpec [] s.log.hist s.log.effects ∧ ∀ p, p ∉ s.list.own.used := by
  obtain ⟨s, hs, hres⟩ := Run.exec_result (step .above) (init : Sys Bool)
    [.call false (.insert 1), .run false, .call true (.remove 1), .abort false, .abort true,
      .run false, .run true, .run false, .run true, .run true]
    (fun s => (s.log.hist, s.list.first, s.pc false, s.pc true))
    ([.call 0 (.insert 1), .call 1 (.remove 1), .ret 0 (.item 1), .ret 1 .void], none, .idle, .idle)
    (by decide)
  simp only [Prod.mk.injEq] at hres
  obtain ⟨hhist, hfirst, hfalse, htrue⟩ := hres
  have hinit : Run.Reach (step .above) (· = (init : Sys Bool)) (fun _ _ => True) init := .init rfl
  obtain ⟨items, hlin, -, hholds, -, hused, -, -⟩ := listRtm_linearizable (hinit.exec hs)
  refine ⟨s, hhist, hlin, fun p hp => ?_⟩
  rcases (hused p).mp hp with hmem | ⟨t, ht, -⟩
  · rw [hholds.first] at hfirst
    rw [Chain.firstOr_eq_none hfirst] at hmem
    cases hmem
  · cases t
    · rw [hfalse] at ht
      cases ht
    · rw [htrue] at ht
      cases ht

end Htmsql.ListRtm
