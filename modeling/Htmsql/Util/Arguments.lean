import Htmsql.Lib.SignedInt
import Mathlib.Data.List.Basic
import Mathlib.Logic.Function.Basic

/-!
# `handle_args`

The outer loop goes over the arguments, the inner one over the table of identifiers. An argument
that equals an identifier advances the outer index, so that its value becomes the current argument
and is compared with the identifiers that follow in the table. Arguments from `argc` on do not
exist.

The parse from left to right that this is meant to be is a function of the arguments alone. Both
are compared by their assignments, which say from which position a variable got its value: two
parses that differ may still leave the same values.
-/

namespace Htmsql.Util

open SignedInt

variable {V : Type}

/-- `identifier[i]`, and the variable that `values[i]` points to. -/
structure Entry (V : Type) where
  identifier : String
  target : V
deriving DecidableEq, Repr

/-- The assignment `*values[i] = atoi(argv[pos])`. -/
structure Assignment (V : Type) where
  entry : Entry V
  pos : ℕ
  value : String
deriving DecidableEq, Repr

/-- The variables, and all assignments so far. -/
structure Variables (V : Type) where
  val : V → ℤ
  log : List (Assignment V)

/-! ## `atoi` -/

/-- `isspace`. -/
def isSpace (c : Char) : Bool := c = ' ' || '\t' ≤ c && c ≤ '\r'

/-- The digits at the beginning, as a number. -/
def digits (cs : List Char) : ℕ :=
  (cs.takeWhile Char.isDigit).foldl (fun n c => 10 * n + (c.toNat - 48)) 0

/-- `strtol` to base 10, which saturates. -/
def strtol (s : String) : ℤ :=
  let x : ℤ := match s.toList.dropWhile isSpace with
    | '-' :: cs => -digits cs
    | '+' :: cs => digits cs
    | cs => digits cs
  max (-9223372036854775808) (min 9223372036854775807 x)

/-- `atoi`, the conversion of `strtol` to `int`. -/
def atoi (s : String) : ℤ := wrap 32 (strtol s)

example : atoi " -42x" = -42 := by decide

/-! ## The code -/

section Code

variable [DecidableEq V]

/-- The value of an argument is stored in the variable of its entry, and noted in the ghost log. -/
def assign (entry : Entry V) (pos : ℕ) (value : String) (s : Variables V) : Variables V :=
  { val := Function.update s.val entry.target (atoi value)
    log := s.log ++ [{ entry := entry, pos := pos, value := value }] }

/-- The loop over the rest of the table, with the outer index. -/
def innerLoop (argv : List String) : List (Entry V) → ℕ → Variables V → Option (ℕ × Variables V)
  | [], a, s => some (a, s)
  | entry :: rest, a, s => do
    let arg ← argv[a]?
    if arg = entry.identifier then
      let value ← argv[a + 1]?
      innerLoop argv rest (a + 1) (assign entry (a + 1) value s)
    else
      innerLoop argv rest a s

/-- The loop over the arguments from `a` on, for at most `n` iterations. -/
def outerLoop (argv : List String) (table : List (Entry V)) :
    ℕ → ℕ → Variables V → Option (Variables V)
  | 0, a, s => if a < argv.length then none else some s
  | n + 1, a, s =>
    if a < argv.length then do
      let (a, s) ← innerLoop argv table a s
      outerLoop argv table n (a + 1) s
    else
      some s

/-- `handle_args` over all arguments but the name of the program; `none` where it reads beyond the
last one. -/
def handleArgs (argv : List String) (table : List (Entry V)) (val : V → ℤ) :
    Option (Variables V) :=
  outerLoop argv table argv.length 1 { val := val, log := [] }

end Code

/-! ## The parse from left to right -/

/-- The first entry for a token, and the entries behind it. -/
def lookup (token : String) : List (Entry V) → Option (Entry V × List (Entry V))
  | [] => none
  | entry :: rest => if token = entry.identifier then some (entry, rest) else lookup token rest

/-- The assignments for the tokens from position `a` on. An option at the end has no value. -/
def parse (table : List (Entry V)) : ℕ → List String → List (Assignment V)
  | _, [] => []
  | _, [_] => []
  | a, token :: value :: tokens =>
    match lookup token table with
    | some (entry, _) =>
      { entry := entry, pos := a + 1, value := value } :: parse table (a + 2) tokens
    | none => parse table (a + 1) (value :: tokens)

/-- Each option has a value, and the value is not an identifier behind the option's own. -/
def Separated (table : List (Entry V)) : List String → Prop
  | [] => True
  | [token] => lookup token table = none
  | token :: value :: tokens =>
    match lookup token table with
    | some (_, rest) => lookup value rest = none ∧ Separated table tokens
    | none => Separated table (value :: tokens)

/-- The value of the last assignment to a variable, or the value from before. -/
def lastValue [DecidableEq V] (val : V → ℤ) (log : List (Assignment V)) (v : V) : ℤ :=
  match (log.filter fun assignment => assignment.entry.target = v).getLast? with
  | some assignment => atoi assignment.value
  | none => val v

/-- The arguments are handled, by the assignments of the parse from left to right. -/
def ParsesLeftToRight [DecidableEq V] (argv : List String) (table : List (Entry V))
    (val : V → ℤ) : Prop :=
  ∃ s, handleArgs argv table val = some s ∧ s.log = parse table 1 (argv.drop 1) ∧
    ∀ v, s.val v = lastValue val (parse table 1 (argv.drop 1)) v

section Proofs

variable [DecidableEq V] {argv : List String} {table : List (Entry V)}

/-! ## Assignments -/

theorem log_assign (entry : Entry V) (pos : ℕ) (value : String) (s : Variables V) :
    s.log <+: (assign entry pos value s).log := List.prefix_append _ _

theorem lastValue_append (val : V → ℤ) (log : List (Assignment V)) (assignment : Assignment V)
    (v : V) :
    lastValue val (log ++ [assignment]) v =
      if assignment.entry.target = v then atoi assignment.value else lastValue val log v := by
  by_cases h : assignment.entry.target = v
  · simp [lastValue, h]
  · simp [lastValue, h]

/-- Each variable holds what was assigned last. -/
def Current (val : V → ℤ) (s : Variables V) : Prop := ∀ v, s.val v = lastValue val s.log v

theorem Current.assign {val : V → ℤ} {s : Variables V} (h : Current val s) (entry : Entry V)
    (pos : ℕ) (value : String) : Current val (assign entry pos value s) := by
  intro v
  change Function.update s.val entry.target (atoi value) v = _
  rw [Util.assign, lastValue_append, Function.update_apply, h v]
  simp only [eq_comm]

/-! ## The inner loop -/

theorem innerLoop_of_lookup_none {a : ℕ} {token : String} (ha : argv[a]? = some token)
    (h : lookup token table = none) (s : Variables V) :
    innerLoop argv table a s = some (a, s) := by
  induction table with
  | nil => rfl
  | cons entry rest ih =>
    rw [lookup] at h
    split at h
    · cases h
    · rename_i hne
      rw [innerLoop, ha, Option.bind_eq_bind, Option.bind_some, if_neg hne]
      exact ih h

/-- After a match the value is the current argument, for the rest of the table. -/
theorem innerLoop_of_lookup {a : ℕ} {token : String} {entry : Entry V} {rest : List (Entry V)}
    (ha : argv[a]? = some token) (h : lookup token table = some (entry, rest))
    (s : Variables V) :
    innerLoop argv table a s =
      argv[a + 1]?.bind fun value =>
        innerLoop argv rest (a + 1) (assign entry (a + 1) value s) := by
  induction table with
  | nil => cases h
  | cons first others ih =>
    rw [lookup] at h
    rw [innerLoop, ha, Option.bind_eq_bind, Option.bind_some]
    split at h
    · rename_i heq
      cases h
      rw [if_pos heq]
    · rename_i hne
      rw [if_neg hne]
      exact ih h

/-- What each assignment preserves holds at the end. -/
theorem innerLoop_preserves {P : Variables V → Prop}
    (hassign : ∀ entry pos value s, P s → P (assign entry pos value s)) {a : ℕ} {s : Variables V}
    {r : ℕ × Variables V} (h : innerLoop argv table a s = some r) (hs : P s) : P r.2 := by
  induction table generalizing a s with
  | nil =>
    cases h
    exact hs
  | cons entry rest ih =>
    rw [innerLoop] at h
    obtain ⟨arg, -, h⟩ := Option.bind_eq_some_iff.mp h
    split at h
    · obtain ⟨value, -, h⟩ := Option.bind_eq_some_iff.mp h
      exact ih h (hassign _ _ _ s hs)
    · exact ih h hs

/-! ## The outer loop -/

theorem outerLoop_preserves {P : Variables V → Prop}
    (hassign : ∀ entry pos value s, P s → P (assign entry pos value s)) {n a : ℕ}
    {s s' : Variables V} (h : outerLoop argv table n a s = some s') (hs : P s) : P s' := by
  induction n generalizing a s with
  | zero =>
    rw [outerLoop] at h
    split at h
    · cases h
    · cases h
      exact hs
  | succ n ih =>
    rw [outerLoop] at h
    split at h
    · obtain ⟨r, hr, h⟩ := Option.bind_eq_some_iff.mp h
      exact ih h (innerLoop_preserves hassign hr hs)
    · cases h
      exact hs

theorem getElem?_of_drop {a : ℕ} {token : String} {tokens : List String}
    (h : argv.drop a = token :: tokens) : argv[a]? = some token := by
  have : (argv.drop a)[0]? = argv[a]? := List.getElem?_drop
  rw [h] at this
  exact this.symm

theorem drop_succ_of_drop {a : ℕ} {token : String} {tokens : List String}
    (h : argv.drop a = token :: tokens) : argv.drop (a + 1) = tokens := by
  rw [← List.drop_drop, h]
  rfl

/-- One iteration. -/
theorem outerLoop_succ {n a : ℕ} {token : String} {tokens : List String}
    (h : argv.drop a = token :: tokens) (s : Variables V) :
    outerLoop argv table (n + 1) a s =
      (innerLoop argv table a s).bind fun r => outerLoop argv table n (r.1 + 1) r.2 := by
  have ha : a < argv.length := (List.getElem?_eq_some_iff.mp (getElem?_of_drop h)).1
  rw [outerLoop, if_pos ha]
  rfl

theorem outerLoop_of_drop_nil {n a : ℕ} (h : argv.drop a = []) (s : Variables V) :
    outerLoop argv table n a s = some s := by
  have ha : ¬a < argv.length := not_lt.mpr (List.drop_eq_nil_iff.mp h)
  cases n <;> rw [outerLoop, if_neg ha]

omit [DecidableEq V] in
/-- The values of the parse come behind their options. -/
theorem lt_pos_of_mem_parse {a : ℕ} {tokens : List String} {assignment : Assignment V}
    (h : assignment ∈ parse table a tokens) : a < assignment.pos := by
  fun_induction parse table a tokens with
  | case1 => cases h
  | case2 => cases h
  | case3 a token value tokens entry rest hlookup ih =>
    rcases List.mem_cons.mp h with rfl | hmem
    · exact Nat.lt_succ_self a
    · have := ih hmem
      omega
  | case4 a token value tokens hlookup ih =>
    have := ih h
    omega

theorem outerLoop_of_lookup_none {n a : ℕ} {token : String} {tokens : List String}
    (h : argv.drop a = token :: tokens) (htoken : lookup token table = none) (s : Variables V) :
    outerLoop argv table (n + 1) a s = outerLoop argv table n (a + 1) s := by
  rw [outerLoop_succ h, innerLoop_of_lookup_none (getElem?_of_drop h) htoken, Option.bind_some]

section Option

variable {n a : ℕ} {token : String} {entry : Entry V} {rest : List (Entry V)}

/-- An option at the end reads the argument behind the last one. -/
theorem outerLoop_of_last (h : argv.drop a = [token])
    (htoken : lookup token table = some (entry, rest)) (s : Variables V) :
    outerLoop argv table (n + 1) a s = none := by
  have hend : argv[a + 1]? = none := by
    rw [List.getElem?_eq_none_iff, ← List.drop_eq_nil_iff]
    exact drop_succ_of_drop h
  rw [outerLoop_succ h, innerLoop_of_lookup (getElem?_of_drop h) htoken, hend]
  rfl

variable {value : String} {tokens : List String}

/-- The value of an option becomes the current argument. -/
theorem outerLoop_of_lookup (h : argv.drop a = token :: value :: tokens)
    (htoken : lookup token table = some (entry, rest)) (s : Variables V) :
    outerLoop argv table (n + 1) a s =
      (innerLoop argv rest (a + 1) (assign entry (a + 1) value s)).bind fun r =>
        outerLoop argv table n (r.1 + 1) r.2 := by
  rw [outerLoop_succ h, innerLoop_of_lookup (getElem?_of_drop h) htoken,
    getElem?_of_drop (drop_succ_of_drop h), Option.bind_some]

theorem outerLoop_of_option (h : argv.drop a = token :: value :: tokens)
    (htoken : lookup token table = some (entry, rest)) (hvalue : lookup value rest = none)
    (s : Variables V) :
    outerLoop argv table (n + 1) a s =
      outerLoop argv table n (a + 2) (assign entry (a + 1) value s) := by
  rw [outerLoop_of_lookup h htoken,
    innerLoop_of_lookup_none (getElem?_of_drop (drop_succ_of_drop h)) hvalue, Option.bind_some]

/-- A value that is an identifier itself is taken for the next option. -/
theorem outerLoop_of_value {next : Entry V} {others : List (Entry V)}
    (h : argv.drop a = token :: value :: tokens)
    (htoken : lookup token table = some (entry, rest))
    (hvalue : lookup value rest = some (next, others)) {s s' : Variables V}
    (hs' : outerLoop argv table (n + 1) a s = some s') :
    ∃ assignment : Assignment V, assignment.pos = a + 2 ∧
      (assign entry (a + 1) value s).log ++ [assignment] <+: s'.log := by
  rw [outerLoop_of_lookup h htoken,
    innerLoop_of_lookup (getElem?_of_drop (drop_succ_of_drop h)) hvalue] at hs'
  obtain ⟨r, hr, hs'⟩ := Option.bind_eq_some_iff.mp hs'
  obtain ⟨second, -, hr⟩ := Option.bind_eq_some_iff.mp hr
  refine ⟨{ entry := next, pos := a + 2, value := second }, rfl, ?_⟩
  let s₂ := assign next (a + 2) second (assign entry (a + 1) value s)
  have hgrow : ∀ entry pos value (s : Variables V), s₂.log <+: s.log →
      s₂.log <+: (assign entry pos value s).log :=
    fun entry pos value s h => h.trans (log_assign entry pos value s)
  have hinner : s₂.log <+: r.2.log := innerLoop_preserves hgrow hr List.prefix_rfl
  exact outerLoop_preserves hgrow hs' hinner

end Option

theorem exists_succ_of_length_le {n : ℕ} {token : String} {tokens : List String}
    (h : (token :: tokens).length ≤ n) : ∃ m, n = m + 1 ∧ tokens.length ≤ m := by
  rw [List.length_cons] at h
  exact ⟨n - 1, by omega, by omega⟩

/-- A run whose assignments are those of the parse, from any point on. -/
theorem outerLoop_eq_parse_iff {n a : ℕ} {tokens : List String} (htokens : argv.drop a = tokens)
    (hn : tokens.length ≤ n) (s : Variables V) :
    (∃ s', outerLoop argv table n a s = some s' ∧ s'.log = s.log ++ parse table a tokens) ↔
      Separated table tokens := by
  fun_induction parse table a tokens generalizing n s with
  | case1 a =>
    rw [outerLoop_of_drop_nil htokens, Separated, List.append_nil]
    exact iff_of_true ⟨s, rfl, rfl⟩ trivial
  | case2 a token =>
    obtain ⟨n, rfl, -⟩ := exists_succ_of_length_le hn
    rw [Separated]
    cases htoken : lookup token table with
    | none =>
      rw [outerLoop_of_lookup_none htokens htoken,
        outerLoop_of_drop_nil (drop_succ_of_drop htokens), List.append_nil]
      exact iff_of_true ⟨s, rfl, rfl⟩ rfl
    | some found =>
      rw [outerLoop_of_last htokens htoken]
      refine iff_of_false ?_ ?_
      · intro ⟨s', hs', _⟩
        cases hs'
      · intro h
        cases h
  | case3 a token value tokens entry rest htoken ih =>
    obtain ⟨n, rfl, hlength⟩ := exists_succ_of_length_le hn
    have hlog : s.log ++ { entry := entry, pos := a + 1, value := value } ::
        parse table (a + 2) tokens =
          (assign entry (a + 1) value s).log ++ parse table (a + 2) tokens :=
      List.append_cons _ _ _
    simp only [Separated, htoken, hlog]
    cases hvalue : lookup value rest with
    | none =>
      rw [outerLoop_of_option htokens htoken hvalue, and_iff_right rfl]
      exact ih (drop_succ_of_drop (drop_succ_of_drop htokens)) (Nat.le_of_succ_le hlength) _
    | some found =>
      refine iff_of_false ?_ ?_
      · intro ⟨s', hs', heq⟩
        -- the parse has no assignment from the position that the run reads next
        obtain ⟨assignment, hpos, hpre⟩ := outerLoop_of_value htokens htoken hvalue hs'
        rw [heq, List.prefix_append_right_inj] at hpre
        have := lt_pos_of_mem_parse (hpre.subset (List.mem_singleton_self _))
        omega
      · intro h
        cases h.1
  | case4 a token value tokens htoken ih =>
    obtain ⟨n, rfl, hlength⟩ := exists_succ_of_length_le hn
    simp only [Separated, htoken]
    rw [outerLoop_of_lookup_none htokens htoken]
    exact ih (drop_succ_of_drop htokens) hlength s

/-! ## The whole function -/

/-- The arguments are parsed from left to right exactly if no value is taken for an option and none
is missing. -/
theorem handleArgs_parsesLeftToRight_iff (argv : List String) (table : List (Entry V))
    (val : V → ℤ) :
    ParsesLeftToRight argv table val ↔ Separated table (argv.drop 1) := by
  have hlength : (argv.drop 1).length ≤ argv.length := by
    rw [List.length_drop]
    exact Nat.sub_le _ _
  rw [← outerLoop_eq_parse_iff rfl hlength { val := val, log := [] }]
  constructor
  · intro ⟨s, hs, hlog, _⟩
    exact ⟨s, hs, hlog⟩
  · intro ⟨s, hs, hlog⟩
    rw [List.nil_append] at hlog
    have hcurrent : Current val s := by
      apply outerLoop_preserves _ hs
      · exact fun _ => rfl
      · exact fun entry pos value s h => h.assign entry pos value
    refine ⟨s, hs, hlog, ?_⟩
    rw [← hlog]
    exact hcurrent

end Proofs

/-- The identifiers of two variables, the second of which is also given as a value of the first,
and an option at the end. -/
theorem handleArgs_not_parsesLeftToRight :
    let table : List (Entry ℕ) := [⟨"-a", 0⟩, ⟨"-b", 1⟩]
    ¬ParsesLeftToRight ["prog", "-a", "-b", "5"] table (fun _ => 0) ∧
      ¬ParsesLeftToRight ["prog", "-a", "1", "-b"] table (fun _ => 0) := by
  intro table
  constructor
  · intro ⟨s, hs, hlog, _⟩
    have hrun : (handleArgs ["prog", "-a", "-b", "5"] table fun _ => 0).map Variables.log =
        some [⟨⟨"-a", 0⟩, 2, "-b"⟩, ⟨⟨"-b", 1⟩, 3, "5"⟩] := by decide
    rw [hs, Option.map_some, Option.some.injEq, hlog] at hrun
    cases hrun
  · intro ⟨s, hs, _⟩
    have hrun : (handleArgs ["prog", "-a", "1", "-b"] table fun _ => 0).map Variables.log =
        none := by decide
    rw [hs] at hrun
    cases hrun

end Htmsql.Util
