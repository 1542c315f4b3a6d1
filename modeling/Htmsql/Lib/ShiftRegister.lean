import Mathlib.Algebra.CharP.Two
import Mathlib.Algebra.Field.ZMod
import Mathlib.Algebra.Polynomial.Div

/-!
# Shift registers with feedback

A register of `w` bits holds a polynomial over the field of two elements, the coefficient of the
highest power in its lowest bit. A shift multiplies it by `X` modulo a polynomial of degree `w`: the
bit that is shifted out comes back as the feedback. Feeding a message bit by bit leaves the remainder
of the message in the register.

A shift is linear in exclusive or, which is what tables rest on. If the feedback sets the highest
bit, a shift can be reversed, so that a difference between two registers never goes away.
-/

namespace Htmsql.ShiftRegister

open Polynomial

variable {w : Nat} (p : BitVec w)

/-- One shift of the register to the right, with the taps `p` if a 1 falls out. -/
def shift (c : BitVec w) : BitVec w := if c.getLsbD 0 then p ^^^ (c >>> 1) else c >>> 1

/-- That many shifts, one after the other. -/
def shifts (n : Nat) (c : BitVec w) : BitVec w := (shift p)^[n] c

/-- The bit is added to the register, which is then shifted. -/
def feed (c : BitVec w) (b : Bool) : BitVec w := shift p (c ^^^ (BitVec.ofBool b).setWidth w)

/-- The `k` lowest bits, the lowest first. -/
def bits (k : Nat) (x : BitVec w) : List Bool := (List.range k).map x.getLsbD

/-! ## Linearity -/

theorem shift_of_low {c : BitVec w} (h : c.getLsbD 0 = false) : shift p c = c >>> 1 := by
  rw [shift, h]
  rfl

theorem shift_xor (a b : BitVec w) : shift p (a ^^^ b) = shift p a ^^^ shift p b := by
  have hxor : ∀ x y z : Bool, (x ^^ (y ^^ z)) = (y ^^ (x ^^ z)) := by decide
  rw [shift, shift, shift, BitVec.getLsbD_xor, BitVec.ushiftRight_xor_distrib]
  cases a.getLsbD 0 <;> cases b.getLsbD 0
  all_goals
    ext i hi
    simp [hxor]

theorem shifts_succ (n : Nat) (c : BitVec w) : shifts p (n + 1) c = shift p (shifts p n c) :=
  Function.iterate_succ_apply' _ _ _

theorem shifts_add (m n : Nat) (c : BitVec w) : shifts p (m + n) c = shifts p m (shifts p n c) :=
  Function.iterate_add_apply _ _ _ _

theorem shifts_xor (n : Nat) (a b : BitVec w) :
    shifts p n (a ^^^ b) = shifts p n a ^^^ shifts p n b := by
  induction n with
  | zero => rfl
  | succ n ih => rw [shifts_succ, ih, shift_xor, ← shifts_succ, ← shifts_succ]

theorem shifts_of_low {n : Nat} {c : BitVec w} (h : ∀ i < n, c.getLsbD i = false) :
    shifts p n c = c >>> n := by
  induction n with
  | zero => exact (BitVec.ushiftRight_zero c).symm
  | succ n ih =>
    have hlow : (c >>> n).getLsbD 0 = false := by
      rw [BitVec.getLsbD_ushiftRight]
      exact h n (by omega)
    rw [shifts_succ, ih fun i hi => h i (by omega), shift_of_low p hlow, BitVec.shiftRight_add]

/-- The step of a table: the entry of the `k` lowest bits, and the other bits moved down. -/
theorem shifts_split (k m : Nat) (c : BitVec w) :
    shifts p (m + k) c =
      shifts p (m + k) ((c.setWidth k).setWidth w) ^^^ shifts p m (c >>> k) := by
  have hlow : shifts p k (c ^^^ (c.setWidth k).setWidth w) = c >>> k := by
    rw [shifts_of_low p]
    · ext i hi
      simp only [BitVec.getElem_ushiftRight, BitVec.getLsbD_xor, BitVec.getLsbD_setWidth]
      simp
    · intro i hi
      simp only [BitVec.getLsbD_xor, BitVec.getLsbD_setWidth]
      by_cases hiw : i < w
      · simp [hi, hiw]
      · simp [hiw, BitVec.getLsbD_of_ge c i (by omega)]
  have hsplit : shifts p (m + k) c ^^^ shifts p (m + k) ((c.setWidth k).setWidth w) =
      shifts p m (c >>> k) := by
    rw [← shifts_xor, shifts_add, hlow]
  rw [← hsplit, BitVec.xor_comm, BitVec.xor_assoc, BitVec.xor_self, BitVec.xor_zero]

/-- Bits fed one by one are fed at once. -/
theorem foldl_feed (k : Nat) (c x : BitVec w) :
    (bits k x).foldl (feed p) c = shifts p k (c ^^^ x) ^^^ (x >>> k) := by
  induction k with
  | zero =>
    rw [BitVec.ushiftRight_zero, shifts, Function.iterate_zero_apply, BitVec.xor_assoc,
      BitVec.xor_self, BitVec.xor_zero]
    rfl
  | succ k ih =>
    have hlow : ((x >>> k) ^^^ (BitVec.ofBool (x.getLsbD k)).setWidth w).getLsbD 0 = false := by
      simp only [BitVec.getLsbD_xor, BitVec.getLsbD_ushiftRight, BitVec.getLsbD_setWidth,
        BitVec.getLsbD_ofBool, Nat.add_zero]
      by_cases hw : 0 < w
      · simp [hw]
      · simp [hw, BitVec.getLsbD_of_ge x k (by omega)]
    have hshift : ((x >>> k) ^^^ (BitVec.ofBool (x.getLsbD k)).setWidth w) >>> 1 =
        x >>> (k + 1) := by
      ext i hi
      simp only [BitVec.getElem_ushiftRight, BitVec.getLsbD_xor, BitVec.getLsbD_ushiftRight,
        BitVec.getLsbD_setWidth, BitVec.getLsbD_ofBool]
      simp [Nat.add_assoc]
    rw [bits, List.range_succ, List.map_append, List.foldl_append]
    change feed p ((bits k x).foldl (feed p) c) (x.getLsbD k) = _
    rw [ih, feed, BitVec.xor_assoc, shift_xor, ← shifts_succ, shift_of_low p hlow, hshift]

/-! ## Reversal -/

theorem shift_eq_zero (hp : p.getLsbD (w - 1) = true) {c : BitVec w} (h : shift p c = 0#w) :
    c = 0#w := by
  have hw : 0 < w := by
    by_contra hw
    rw [BitVec.getLsbD_of_ge p _ (by omega)] at hp
    cases hp
  -- the bit shifted out would come back as the highest one
  have hlow : c.getLsbD 0 = false := by
    by_contra hset
    rw [Bool.not_eq_false] at hset
    have htop := congrArg (fun d => BitVec.getLsbD d (w - 1)) h
    simp only [shift, if_pos hset, BitVec.getLsbD_xor, hp, BitVec.getLsbD_ushiftRight,
      BitVec.getLsbD_of_ge c (1 + (w - 1)) (by omega), BitVec.getLsbD_zero] at htop
    cases htop
  rw [shift_of_low p hlow] at h
  apply BitVec.eq_of_getLsbD_eq
  intro i hi
  rw [BitVec.getLsbD_zero]
  by_cases hi0 : i = 0
  · rw [hi0, hlow]
  · have hbit := congrArg (fun d => BitVec.getLsbD d (i - 1)) h
    simp only [BitVec.getLsbD_ushiftRight, BitVec.getLsbD_zero] at hbit
    rwa [show 1 + (i - 1) = i by omega] at hbit

theorem shifts_injective (hp : p.getLsbD (w - 1) = true) (n : Nat) :
    Function.Injective (shifts p n) := by
  refine Function.Injective.iterate (fun a b hab => ?_) n
  have hzero : shift p (a ^^^ b) = 0#w := by
    rw [shift_xor, hab, BitVec.xor_self]
  exact BitVec.xor_eq_zero_iff.mp (shift_eq_zero p hp hzero)

theorem feed_injective (hp : p.getLsbD (w - 1) = true) (m : List Bool) :
    Function.Injective fun c => m.foldl (feed p) c := by
  induction m with
  | nil => exact fun _ _ h => h
  | cons b m ih =>
    intro c d h
    have hfeed := shifts_injective p hp 1 (ih h)
    exact (BitVec.xor_left_inj _).mp hfeed

/-- As many bits as the register is wide are what they leave in it. -/
theorem eq_of_foldl_feed (hp : p.getLsbD (w - 1) = true) {m m' : List Bool} (h : m.length = w)
    (h' : m'.length = w) {c : BitVec w} (heq : m.foldl (feed p) c = m'.foldl (feed p) c) :
    m = m' := by
  have hbits : ∀ l : List Bool, l.length = w → ∃ x : BitVec w, bits w x = l := by
    rintro l rfl
    refine ⟨BitVec.ofBoolListLE l, List.ext_getElem (by simp [bits]) fun i hi hi' => ?_⟩
    simp only [bits, List.getElem_map, List.getElem_range, BitVec.getLsbD_ofBoolListLE,
      List.getD_eq_getElem?_getD, List.getElem?_eq_getElem hi', Option.getD_some]
  obtain ⟨x, rfl⟩ := hbits m h
  obtain ⟨x', rfl⟩ := hbits m' h'
  rw [foldl_feed, foldl_feed, BitVec.ushiftRight_eq_zero le_rfl, BitVec.ushiftRight_eq_zero le_rfl,
    BitVec.xor_zero, BitVec.xor_zero] at heq
  rw [(BitVec.xor_right_inj c).mp (shifts_injective p hp w heq)]

/-- A burst of errors that is no longer than the register leaves something else in it. -/
theorem eq_of_burst (hp : p.getLsbD (w - 1) = true) {m m' : List Bool}
    (hlength : m.length = m'.length) {i : Nat} (hi : i + w ≤ m.length)
    (hburst : ∀ j, j < i ∨ i + w ≤ j → m[j]? = m'[j]?) {c : BitVec w}
    (heq : m.foldl (feed p) c = m'.foldl (feed p) c) : m = m' := by
  have hhead : m.take i = m'.take i := by
    refine List.ext_getElem? fun j => ?_
    rw [List.getElem?_take, List.getElem?_take]
    split
    · exact hburst j (by omega)
    · rfl
  have htail : m.drop (i + w) = m'.drop (i + w) := by
    refine List.ext_getElem? fun j => ?_
    rw [List.getElem?_drop, List.getElem?_drop]
    exact hburst _ (by omega)
  have hsplit : ∀ l : List Bool, l = l.take i ++ ((l.drop i).take w ++ l.drop (i + w)) := by
    intro l
    rw [← List.drop_drop, List.take_append_drop, List.take_append_drop]
  have hmiddle : (m.drop i).take w = (m'.drop i).take w := by
    rw [hsplit m, hsplit m', hhead, htail, List.foldl_append, List.foldl_append, List.foldl_append,
      List.foldl_append] at heq
    refine eq_of_foldl_feed p hp ?_ ?_ (feed_injective p hp _ heq)
    · rw [List.length_take, List.length_drop]
      omega
    · rw [List.length_take, List.length_drop]
      omega
  rw [hsplit m, hsplit m', hhead, hmiddle, htail]

/-! ## Polynomials -/

/-- The polynomial that a register holds. -/
noncomputable def value (c : BitVec w) : (ZMod 2)[X] :=
  ∑ i ∈ Finset.range w, if c.getLsbD i then X ^ (w - 1 - i) else 0

/-- The polynomial that the register computes with: the taps below the leading power. -/
noncomputable def modulus : (ZMod 2)[X] := X ^ w + value p

/-- The first bit of a message has the highest power. -/
noncomputable def message (m : List Bool) : (ZMod 2)[X] :=
  m.foldl (fun q b => X * q + if b then 1 else 0) 0

theorem value_xor (a b : BitVec w) : value (a ^^^ b) = value a + value b := by
  rw [value, value, value, ← Finset.sum_add_distrib]
  refine Finset.sum_congr rfl fun i _ => ?_
  rw [BitVec.getLsbD_xor]
  cases a.getLsbD i <;> cases b.getLsbD i <;> simp [CharTwo.add_self_eq_zero]

theorem value_shiftRight (c : BitVec w) :
    value (c >>> 1) + (if c.getLsbD 0 then X ^ w else 0) = X * value c := by
  cases w with
  | zero => simp [value]
  | succ n =>
    have hlast : (c >>> 1).getLsbD n = false := by
      rw [BitVec.getLsbD_ushiftRight]
      exact BitVec.getLsbD_of_ge _ _ (by omega)
    rw [value, value, Finset.sum_range_succ, hlast, Finset.sum_range_succ' _ n, mul_add,
      Finset.mul_sum]
    congr 1
    · simp only [Bool.false_eq_true, if_false, add_zero]
      refine Finset.sum_congr rfl fun i hi => ?_
      rw [Finset.mem_range] at hi
      rw [BitVec.getLsbD_ushiftRight, Nat.add_comm 1 i, mul_ite, mul_zero, ← pow_succ',
        show n + 1 - 1 - (i + 1) + 1 = n + 1 - 1 - i by omega]
    · rw [mul_ite, mul_zero, ← pow_succ', show n + 1 - 1 - 0 + 1 = n + 1 by omega]

/-- A shift multiplies by `X` modulo the polynomial. -/
theorem value_shift (c : BitVec w) :
    value (shift p c) = X * value c + if c.getLsbD 0 then modulus p else 0 := by
  rw [← value_shiftRight, shift]
  cases c.getLsbD 0
  · simp
  · simp only [if_true]
    rw [value_xor, modulus, add_assoc, ← add_assoc (X ^ w), CharTwo.add_self_eq_zero, zero_add,
      add_comm]

theorem value_feed (hw : 0 < w) (c : BitVec w) (b : Bool) :
    modulus p ∣ value (feed p c b) - (X * value c + if b then X ^ w else 0) := by
  have hbit : X * value ((BitVec.ofBool b).setWidth w) = if b then X ^ w else 0 := by
    rw [value, Finset.sum_eq_single_of_mem 0 (Finset.mem_range.mpr hw)]
    · rw [BitVec.getLsbD_setWidth, BitVec.getLsbD_ofBool, mul_ite, mul_zero, ← pow_succ',
        show w - 1 - 0 + 1 = w by omega]
      simp [hw]
    · intro i hi hne
      rw [BitVec.getLsbD_setWidth, BitVec.getLsbD_ofBool]
      simp [hne]
  rw [feed, value_shift, value_xor, mul_add, hbit, add_sub_cancel_left]
  split
  · exact dvd_refl _
  · exact dvd_zero _

theorem message_append_singleton (m : List Bool) (b : Bool) :
    message (m ++ [b]) = X * message m + if b then 1 else 0 := by
  rw [message, List.foldl_append]
  rfl

theorem value_foldl_feed (hw : 0 < w) (c : BitVec w) (m : List Bool) :
    modulus p ∣ value (m.foldl (feed p) c) - (X ^ m.length * value c + X ^ w * message m) := by
  induction m using List.reverseRecOn with
  | nil => simp [message]
  | append_singleton m b ih =>
    rw [List.foldl_append, List.length_append, message_append_singleton]
    have hfeed := value_feed p hw (m.foldl (feed p) c) b
    have hsum := dvd_add hfeed (ih.mul_left X)
    convert hsum using 1
    simp only [List.foldl_cons, List.foldl_nil, List.length_singleton]
    cases b
    · simp only [Bool.false_eq_true, if_false]
      ring
    · simp only [if_true]
      ring

theorem degree_value_lt (c : BitVec w) : (value c).degree < w := by
  refine degree_lt_iff_coeff_zero _ _ |>.mpr fun n hn => ?_
  rw [value, finsetSum_coeff]
  refine Finset.sum_eq_zero fun i hi => ?_
  rw [Finset.mem_range] at hi
  split
  · rw [coeff_X_pow, if_neg (by omega)]
  · exact coeff_zero n

theorem monic_modulus : (modulus p).Monic := monic_X_pow_add (degree_value_lt p)

theorem degree_modulus : (modulus p).degree = w := by
  rw [modulus, degree_add_eq_left_of_degree_lt, degree_X_pow]
  rw [degree_X_pow]
  exact degree_value_lt p

/-- After a message the register holds the remainder of the message, moved up by the width, and of
what it held before. -/
theorem value_foldl_feed_mod (hw : 0 < w) (c : BitVec w) (m : List Bool) :
    value (m.foldl (feed p) c) =
      (X ^ m.length * value c + X ^ w * message m) %ₘ modulus p := by
  have hmod := modByMonic_eq_of_dvd_sub (monic_modulus p) (value_foldl_feed p hw c m)
  rw [← hmod, eq_comm, modByMonic_eq_self_iff (monic_modulus p), degree_modulus]
  exact degree_value_lt _

end Htmsql.ShiftRegister
