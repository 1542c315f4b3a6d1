import Htmsql.SharedSlots.Machine

/-!
# The list does not look at the free slots

What the list does in its own functions it does with its items only, whatever is in the other slots
(`overlay_run`), and it leaves their data as it is.
-/

namespace Htmsql.SharedSlots

open Chain (firstOr last)
open ThreadsafeList

variable {T : Type} [DecidableEq T] {u u' : Sys T} {rest : Ptr → Option ListItem} {t : T} {p : Ptr}
  {n : ListItem} {L F B : List (Ptr × ℤ)} {d : ℤ}

omit [DecidableEq T] in
theorem overlay_write {f : ListItem → ListItem} {o : Option Ptr}
    (hfault : (u.write o f).fault = false) :
    (overlay rest u).write o f = overlay rest (u.write o f) := by
  cases o with
  | none => rfl
  | some p =>
    refine overlay_access hfault fun n hn => ?_
    rw [overlay_update]
    rfl

theorem overlay_goTo (q : Search) (o : Option Ptr) :
    (overlay rest u).goTo t q o = overlay rest (u.goTo t q o) := by
  cases o with
  | none => cases q <;> rfl
  | some item => rfl

/-- A step inside the functions of the list. -/
theorem overlay_run (hcreate : ∀ d, u.pc t ≠ .create d)
    (hdelete : ∀ item r, u.pc t ≠ .delete item r)
    (hfault : ∀ u', u.run t = some u' → u'.fault = false) :
    (overlay rest u).run t = (u.run t).map (overlay rest) := by
  unfold Sys.run at hfault ⊢
  have hpc : (overlay rest u).pc t = u.pc t := rfl
  rw [hpc]
  cases ht : u.pc t <;> rw [ht] at hfault
  case idle => rfl
  case create d => exact absurd ht (hcreate d)
  case delete item r => exact absurd ht (hdelete item r)
  case lockInsert | lockGet =>
    show (if u.holder = none then _ else none) = Option.map _ (if u.holder = none then _ else none)
    split <;> rfl
  case setPrev d item =>
    show some (((overlay rest u).write (some item) (·.setPrev u.last)).goto t _) = _
    have hf := hfault _ rfl
    rw [overlay_write hf]
    rfl
  case setNext d item =>
    show some ((((overlay rest u).write u.last (·.setNext (some item))).effect t _ _).goto t _) = _
    have hf := hfault _ rfl
    rw [overlay_write hf]
    rfl
  case unlinkNext d item prev next =>
    show some (((overlay rest u).write next (·.setPrev prev)).goto t _) = _
    have hf := hfault _ rfl
    rw [overlay_write hf]
    rfl
  case unlinkPrev d item prev next =>
    show some ((((overlay rest u).write prev (·.setNext next)).effect t _ _).goto t _) = _
    have hf := hfault _ rfl
    rw [overlay_write hf]
    rfl
  case first q =>
    show some ((overlay rest u).goTo t q u.first) = some (overlay rest (u.goTo t q u.first))
    rw [overlay_goTo]
  case test q item =>
    have hf := hfault _ rfl
    show some _ = some _
    rw [overlay_access hf fun n _ => ?_]
    split
    · cases q <;> rfl
    · rfl
  case next q item =>
    have hf := hfault _ rfl
    show some _ = some _
    rw [overlay_access hf fun n _ => overlay_goTo q n.next]
  case readPrev | readNext =>
    have hf := hfault _ rfl
    exact congrArg some (overlay_access hf fun _ _ => rfl)
  case setLast | setFirst | unlinkFirst | unlinkLast | unlock | ret => rfl

/-- The same slots are items, and they hold the same data. -/
structure Keeps (u u' : Sys T) : Prop where
  data : ∀ q, (u'.heap q).map ListItem.data = (u.heap q).map ListItem.data
  allocated : u'.allocated = u.allocated

omit [DecidableEq T] in
theorem Keeps.of_heap (hheap : u'.heap = u.heap) (hallocated : u'.allocated = u.allocated) :
    Keeps u u' :=
  ⟨fun q => by rw [hheap], hallocated⟩

omit [DecidableEq T] in
theorem Keeps.heap_none (h : Keeps u u') (p : Ptr) : u'.heap p = none ↔ u.heap p = none := by
  rw [← Option.map_eq_none_iff, h.data, Option.map_eq_none_iff]

/-- The functions of the list write no data, and neither create nor delete. -/
theorem run_keeps (hcreate : ∀ d, u.pc t ≠ .create d) (hdelete : ∀ item r, u.pc t ≠ .delete item r)
    (hs : u.run t = some u') : Keeps u u' := by
  refine Sys.run_induction (P := fun v => Keeps u v) (.of_heap rfl rfl) hs
    (fun _ _ _ _ _ _ hv => ⟨hv.data, hv.allocated⟩) (fun _ _ hv => ⟨hv.data, hv.allocated⟩)
    (fun p n n' hn hdata => ⟨fun q => ?_, rfl⟩) (fun d hd => absurd hd (hcreate d))
    (fun item r _ hd => absurd hd (hdelete item r))
  show (Function.update u.heap p (some n') q).map ListItem.data = _
  by_cases hq : q = p
  · rw [hq, Function.update_self, hn, Option.map_some, Option.map_some, hdata]
  · rw [Function.update_of_ne hq]

omit [DecidableEq T] in
theorem access_pc {k : ListItem → Sys T} {P : Pc → Prop} (hu : P (u.pc t))
    (hk : ∀ n, P ((k n).pc t)) : P ((u.access p k).pc t) := by
  unfold Sys.access
  split
  · exact hk _
  · exact hu

/-- Only a call leads to `createListItem`. -/
theorem run_not_create (hcreate : ∀ d, u.pc t ≠ .create d) (hs : u.run t = some u') (d : ℤ) :
    u'.pc t ≠ .create d := by
  have hgoto : ∀ (v : Sys T) (pc : Pc), pc ≠ .create d → (v.goto t pc).pc t ≠ .create d := by
    intro v pc hne
    rw [pc_goto_self]
    exact hne
  have hgoTo : ∀ q o, (u.goTo t q o).pc t ≠ .create d := by
    intro q o
    cases o with
    | none => cases q <;> exact hgoto _ _ nofun
    | some item => exact hgoto _ _ nofun
  unfold Sys.run at hs
  cases ht : u.pc t <;> rw [ht] at hs
  case idle => cases hs
  case create d => exact absurd ht (hcreate d)
  case lockInsert | lockGet =>
    simp only [Option.ite_none_right_eq_some, Option.some.injEq] at hs
    obtain ⟨-, rfl⟩ := hs
    exact hgoto _ _ nofun
  all_goals cases hs
  case first q => exact hgoTo q _
  case test q item =>
    refine access_pc (P := (· ≠ .create d)) (hcreate d) fun n => ?_
    split
    · cases q <;> exact hgoto _ _ nofun
    · exact hgoto _ _ nofun
  case next q item => exact access_pc (P := (· ≠ .create d)) (hcreate d) fun n => hgoTo q _
  case readPrev | readNext =>
    exact access_pc (P := (· ≠ .create d)) (hcreate d) fun n => hgoto _ _ nofun
  case unlock item r => cases item <;> exact hgoto _ _ nofun
  all_goals exact hgoto _ _ nofun

end Htmsql.SharedSlots
