import Htmsql.LockType.Code

/-!
# A discipline for spin lock code

What the functions of `Htmsql.LockType.Code` have in common is checked by a computation. Every
index of a function gets a fact about the thread there: that it waits, and what `old` is known to
be; that it has tried, and `old` tells whether it has entered; that it has entered. `check` goes
through the instructions once and compares the fact before each one with the facts at the indices
it can go to.

A checked function that runs on a word with the value 0 or 1 keeps its facts, and each of its
steps leaves the word, or sets it from 0 to 1 and acquires, or resets it and releases
(`Checked.exec`). Nothing else about the functions is needed to see that they exclude each other.
-/

namespace Htmsql.LockType

/-- What is known about a thread at an index of its function. -/
inductive Fact where
  /-- has not acquired; `old` is known, or not -/
  | waiting (old : Option Word)
  /-- has acquired exactly if `old` is 0, and `old` is 1 otherwise -/
  | tried
  | entered
  deriving DecidableEq, Repr

namespace Fact

/-- What a fact says about a thread at a point of the function: whether it has acquired the word,
and what it knows from `old`. -/
def Holds (l : Local) : Fact → Prop
  | waiting o => l.acquired = false ∧ ∀ v, o = some v → l.old = v
  | tried => l.acquired = true ∧ l.old = 0 ∨ l.acquired = false ∧ l.old = 1
  | entered => l.acquired = true

/-- The fact is one of a thread that still waits. -/
def waits : Fact → Bool
  | waiting _ => true
  | tried | entered => false

/-- The second fact may be used for the first one. -/
def implies (f g : Fact) : Bool := decide (f = g) || f.waits && decide (g = waiting none)

/-- The outcomes of a comparison of `old` with `v`, and what is known after each. -/
def compareOld (v : Word) : Fact → List (Bool × Fact)
  | waiting none => [(true, waiting (some v)), (false, waiting none)]
  | waiting (some w) => [(decide (w = v), waiting (some w))]
  | tried =>
    if v = 0 then [(true, entered), (false, waiting (some 1))]
    else if v = 1 then [(true, waiting (some 1)), (false, entered)]
    else [(false, tried)]
  | entered => [(true, entered), (false, entered)]

end Fact

/-- The facts after an instruction, with the indices they belong to; `none` if the discipline
does not allow the instruction here. -/
def Instr.next (pc : Nat) (f : Fact) : Instr → Option (List (Nat × Fact))
  | exchangeN v => if f.waits ∧ v = 1 then some [(pc + 1, .tried)] else none
  | xchg => if f = .waiting (some 1) then some [(pc + 1, .tried)] else none
  | testAndSet | testAndSet4 => if f.waits then some [(pc + 1, .tried)] else none
  | mov v => if f.waits then some [(pc + 1, .waiting (some v))] else none
  | load | pause => some [(pc + 1, f)]
  | clear | clear4 => if f = .entered then some [(pc + 1, .waiting none)] else none
  | jump n => some [(n, f)]
  | jumpIf .val _ n => some [(n, f), (pc + 1, f)]
  | jumpIf .old v n => some ((f.compareOld v).map fun x => (if x.1 then n else pc + 1, x.2))
  | ret => none

/-- The instruction at an index leads to facts that imply those noted for its successors. -/
def checkAt (code : Code) (facts : List Fact) (final : Fact) (pc : Nat) : Bool :=
  match code[pc]?, facts[pc]? with
  | some i, some f =>
    if i = .ret then f.implies final
    else (i.next pc f).any fun succ => succ.all fun x => facts[x.1]?.any x.2.implies
  | _, _ => false

/-- Every point of the function passes the check with the facts given to the points. -/
def check (code : Code) (facts : List Fact) (final : Fact) : Bool :=
  (List.range facts.length).all (checkAt code facts final)

/-- A function with the facts at its indices; `final` holds where it returns. -/
structure Checked (code : Code) (start final : Fact) where
  facts : List Fact
  starts : facts[0]? = some start
  checks : check code facts final = true

/-! ## Facts -/

theorem Fact.Holds.mono {l : Local} {f g : Fact} (h : f.Holds l) (hi : f.implies g = true) :
    g.Holds l := by
  simp only [implies, Bool.or_eq_true, decide_eq_true_eq, Bool.and_eq_true] at hi
  rcases hi with rfl | ⟨hw, rfl⟩
  · exact h
  · cases f with
    | waiting o => exact ⟨h.1, by simp⟩
    | tried | entered => cases hw

theorem Fact.Holds.not_acquired {l : Local} {f : Fact} (h : f.Holds l) (hw : f.waits = true) :
    l.acquired = false := by
  cases f with
  | waiting o => exact h.1
  | tried | entered => cases hw

theorem Fact.Holds.compareOld {l : Local} {f : Fact} (h : f.Holds l) (v : Word) :
    ∃ g, (decide (l.old = v), g) ∈ f.compareOld v ∧ g.Holds l := by
  cases f with
  | waiting o =>
    cases o with
    | none =>
      by_cases hv : l.old = v
      · exact ⟨.waiting (some v), by simp [Fact.compareOld, hv], h.1, by simpa using hv⟩
      · exact ⟨.waiting none, by simp [Fact.compareOld, hv], h⟩
    | some w => exact ⟨.waiting (some w), by simp [Fact.compareOld, h.2 w rfl], h⟩
  | tried =>
    rcases h with ⟨ha, ho⟩ | ⟨ha, ho⟩
    · by_cases h₀ : v = 0
      · exact ⟨.entered, by simp [Fact.compareOld, h₀, ho], ha⟩
      · by_cases h₁ : v = 1
        · exact ⟨.entered, by simp [Fact.compareOld, h₁, ho], ha⟩
        · refine ⟨.tried, ?_, Or.inl ⟨ha, ho⟩⟩
          rw [Fact.compareOld, if_neg h₀, if_neg h₁, ho, decide_eq_false (Ne.symm h₀)]
          exact List.mem_singleton.mpr rfl
    · by_cases h₀ : v = 0
      · refine ⟨.waiting (some 1), by simp [Fact.compareOld, h₀, ho], ha, by simpa using ho⟩
      · by_cases h₁ : v = 1
        · refine ⟨.waiting (some 1), by simp [Fact.compareOld, h₁, ho], ha, by simpa using ho⟩
        · refine ⟨.tried, ?_, Or.inr ⟨ha, ho⟩⟩
          rw [Fact.compareOld, if_neg h₀, if_neg h₁, ho, decide_eq_false (Ne.symm h₁)]
          exact List.mem_singleton.mpr rfl
  | entered =>
    refine ⟨.entered, ?_, h⟩
    simp only [Fact.compareOld]
    by_cases hv : l.old = v <;> simp [hv]

/-! ## One step of a checked function -/

/-- The effect of a step on the word, and on what the thread has acquired. -/
inductive Effect (w w' : Word) (l l' : Local) : Prop where
  | keep (hw : w' = w) (ha : l'.acquired = l.acquired)
  | acquire (hw : w = 0) (hw' : w' = 1) (ha : l.acquired = false) (ha' : l'.acquired = true)
  | release (hw' : w' = 0) (ha : l.acquired = true) (ha' : l'.acquired = false)

/-- On a binary word the byte operations and the comparison with 1 see the whole word. -/
theorem binary_ops {w : Word} (hw : w = 0 ∨ w = 1) :
    setLowByte w 1 = 1 ∧ setLowByte w 0 = 0 ∧ ofBool (lowByte w ≠ 0) = w ∧ ofBool (w = 1) = w := by
  rcases hw with rfl | rfl <;> decide

/-- A binary word is exchanged with 1. -/
theorem take_effect {w : Word} {l : Local} (hw : w = 0 ∨ w = 1) (hl : l.acquired = false) :
    (∃ g, ((l.take w).pc, g) ∈ [(l.pc + 1, Fact.tried)] ∧ g.Holds (l.take w)) ∧
      Effect w 1 l (l.take w) := by
  rcases hw with rfl | rfl
  · exact ⟨⟨.tried, List.mem_singleton.mpr rfl, Or.inl ⟨rfl, rfl⟩⟩, .acquire rfl rfl hl rfl⟩
  · exact ⟨⟨.tried, List.mem_singleton.mpr rfl, Or.inr ⟨rfl, rfl⟩⟩, .keep rfl hl.symm⟩

theorem release_effect {w : Word} {l : Local} (hl : l.acquired = true) :
    (∃ g, (l.release.pc, g) ∈ [(l.pc + 1, Fact.waiting none)] ∧ g.Holds l.release) ∧
      Effect w 0 l l.release :=
  ⟨⟨_, List.mem_singleton.mpr rfl, rfl, by simp⟩, .release rfl hl rfl⟩

theorem next_sound {i : Instr} {w w' : Word} {l l' : Local} {f : Fact}
    {succ : List (Nat × Fact)} (hn : i.next l.pc f = some succ) (hf : f.Holds l)
    (hw : w = 0 ∨ w = 1) (he : i.exec w l = some (w', l')) :
    (∃ g, (l'.pc, g) ∈ succ ∧ g.Holds l') ∧ Effect w w' l l' := by
  obtain ⟨hset, hclear, htas, htas4⟩ := binary_ops hw
  cases i with
  | exchangeN v =>
    simp only [Instr.next, Option.ite_none_right_eq_some, Option.some.injEq] at hn
    obtain ⟨⟨hwait, rfl⟩, rfl⟩ := hn
    cases he
    exact take_effect hw (hf.not_acquired hwait)
  | xchg =>
    simp only [Instr.next, Option.ite_none_right_eq_some, Option.some.injEq] at hn
    obtain ⟨rfl, rfl⟩ := hn
    simp only [Instr.exec, hf.2 1 rfl, Option.some.injEq, Prod.mk.injEq] at he
    obtain ⟨rfl, rfl⟩ := he
    exact take_effect hw hf.1
  | testAndSet =>
    simp only [Instr.next, Option.ite_none_right_eq_some, Option.some.injEq] at hn
    obtain ⟨hwait, rfl⟩ := hn
    simp only [Instr.exec, hset, htas, Option.some.injEq, Prod.mk.injEq] at he
    obtain ⟨rfl, rfl⟩ := he
    exact take_effect hw (hf.not_acquired hwait)
  | testAndSet4 =>
    simp only [Instr.next, Option.ite_none_right_eq_some, Option.some.injEq] at hn
    obtain ⟨hwait, rfl⟩ := hn
    simp only [Instr.exec, htas4, Option.some.injEq, Prod.mk.injEq] at he
    obtain ⟨rfl, rfl⟩ := he
    exact take_effect hw (hf.not_acquired hwait)
  | mov v =>
    simp only [Instr.next, Option.ite_none_right_eq_some, Option.some.injEq] at hn
    obtain ⟨hwait, rfl⟩ := hn
    cases he
    refine ⟨⟨_, List.mem_singleton.mpr rfl, hf.not_acquired hwait, ?_⟩, .keep rfl rfl⟩
    simp
  | load =>
    cases he
    cases hn
    exact ⟨⟨f, List.mem_singleton.mpr rfl, by cases f <;> exact hf⟩, .keep rfl rfl⟩
  | pause =>
    cases he
    cases hn
    exact ⟨⟨f, List.mem_singleton.mpr rfl, by cases f <;> exact hf⟩, .keep rfl rfl⟩
  | clear =>
    simp only [Instr.next, Option.ite_none_right_eq_some, Option.some.injEq] at hn
    obtain ⟨rfl, rfl⟩ := hn
    simp only [Instr.exec, hclear, Option.some.injEq, Prod.mk.injEq] at he
    obtain ⟨rfl, rfl⟩ := he
    exact release_effect hf
  | clear4 =>
    simp only [Instr.next, Option.ite_none_right_eq_some, Option.some.injEq] at hn
    obtain ⟨rfl, rfl⟩ := hn
    cases he
    exact release_effect hf
  | jump n =>
    cases he
    cases hn
    exact ⟨⟨f, List.mem_singleton.mpr rfl, by cases f <;> exact hf⟩, .keep rfl rfl⟩
  | jumpIf r v n =>
    cases he
    refine ⟨?_, .keep rfl rfl⟩
    cases r with
    | val =>
      cases hn
      refine ⟨f, ?_, by cases f <;> exact hf⟩
      simp only [Local.goto]
      split <;> simp
    | old =>
      cases hn
      obtain ⟨g, hg, hgl⟩ := hf.compareOld v
      refine ⟨g, List.mem_map.mpr ⟨_, hg, ?_⟩, by cases g <;> exact hgl⟩
      by_cases hv : l.old = v <;> simp [Local.goto, Local.get, hv]
  | ret => cases he

variable {code : Code} {start final : Fact}

/-- The thread is at an index of the function, and what is noted there holds of it. -/
def Checked.At (c : Checked code start final) (l : Local) : Prop :=
  ∃ f, c.facts[l.pc]? = some f ∧ f.Holds l

theorem Checked.at_start (c : Checked code start final) {l : Local} (hpc : l.pc = 0)
    (hl : start.Holds l) : c.At l := ⟨start, hpc ▸ c.starts, hl⟩

theorem Checked.checkAt (c : Checked code start final) {pc : Nat} {f : Fact}
    (hf : c.facts[pc]? = some f) : LockType.checkAt code c.facts final pc = true := by
  obtain ⟨hlt, -⟩ := List.getElem?_eq_some_iff.mp hf
  exact List.all_eq_true.mp c.checks pc (List.mem_range.mpr hlt)

theorem Checked.exec (c : Checked code start final) {l l' : Local} {w w' : Word} {i : Instr}
    (h : c.At l) (hi : code[l.pc]? = some i) (hw : w = 0 ∨ w = 1)
    (he : i.exec w l = some (w', l')) : c.At l' ∧ Effect w w' l l' := by
  obtain ⟨f, hf, hl⟩ := h
  have hne : i ≠ .ret := by
    rintro rfl
    cases he
  have hc := c.checkAt hf
  simp only [LockType.checkAt, hi, hf, if_neg hne, Option.any_eq_true] at hc
  obtain ⟨succ, hn, hall⟩ := hc
  obtain ⟨⟨g, hg, hgl⟩, heff⟩ := next_sound hn hl hw he
  obtain ⟨g', hg', himp⟩ := (Option.any_eq_true _ _).mp (List.all_eq_true.mp hall _ hg)
  exact ⟨⟨g', hg', hgl.mono himp⟩, heff⟩

/-- Where a function returns, its final fact holds. -/
theorem Checked.ret (c : Checked code start final) {l : Local} (h : c.At l)
    (hi : code[l.pc]? = some .ret) : final.Holds l := by
  obtain ⟨f, hf, hl⟩ := h
  have hc := c.checkAt hf
  simp only [LockType.checkAt, hi, hf, if_true] at hc
  exact hl.mono hc

end Htmsql.LockType
