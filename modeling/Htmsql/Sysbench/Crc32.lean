import Htmsql.Lib.ShiftRegister
import Mathlib.Tactic.IntervalCases

/-!
# The checksum of the file test

`crc32` of `src/mysql/bench/sysbench-0.4.12/sysbench/tests/fileio/crc32.c`, with which sysbench marks
the blocks it writes. There is a loop over the bytes, and for machines of either byte order a
function that takes four bytes at a time, with tables of its own; all of them leave the remainder of
the data modulo the polynomial of CRC-32.

The tables are those that `make_crc_table` computes; `crc32tbl.h` is its output.
-/

namespace Htmsql.Sysbench

open ShiftRegister

/-- An `unsigned char`. -/
abbrev Byte := BitVec 8

/-- `u4`, four bytes; the functions return an `unsigned long` of eight. -/
abbrev U4 := BitVec 32

/-- `p`, the terms of the polynomial except x^32. -/
def terms : List Nat := [0, 1, 2, 4, 5, 7, 8, 10, 11, 12, 16, 22, 23, 26]

/-- The polynomial of `make_crc_table`, put together from the exponents of its terms, bit 31 for
the power 0. -/
def poly : U4 := terms.foldl (fun poly n => poly ||| 1#32 <<< (31 - n)) 0#32

/-- `REV`, the bytes of a word in the reverse order. -/
def rev (w : U4) : U4 :=
  (w >>> 24) + ((w >>> 8) &&& 0xff00#32) + ((w &&& 0xff00#32) <<< 8) + ((w &&& 0xff#32) <<< 24)

/-! ## `make_crc_table` -/

/-- The inner loop of `make_crc_table`: eight shifts of one byte. -/
def crcOfByte (n : Byte) : U4 :=
  (fun c : U4 => if c &&& 1#32 ≠ 0#32 then poly ^^^ (c >>> 1) else c >>> 1)^[8] (n.setWidth 32)

/-- The checksum of the byte followed by `k` zeros. -/
def crcOfZeros (k : Nat) (n : Byte) : U4 :=
  (fun c : U4 => crcOfByte (c.setWidth 8) ^^^ (c >>> 8))^[k] (crcOfByte n)

/-- `crc_table[k][n]`; the tables from the fourth on have the words of the others with their bytes
reversed. -/
def crcTable (k : Nat) (n : Byte) : U4 :=
  if k < 4 then crcOfZeros k n else rev (crcOfZeros (k - 4) n)

/-! ## The loops -/

/-- `while (len && ((ptrdiff_t)buf & 3))` -/
def align (byte : U4 → Byte → U4) (buf : Nat) : U4 → List Byte → U4 × List Byte
  | c, [] => (c, [])
  | c, b :: rest =>
    if buf % 4 ≠ 0 then align byte (buf + 1) (byte c b) rest else (c, b :: rest)

/-- `while (len >= size)` -/
def whileAtLeast {C : Type} (size : Nat) (body : C → List Byte → C) (c : C) (bytes : List Byte) :
    C × List Byte :=
  if 0 < size ∧ size ≤ bytes.length then
    whileAtLeast size body (body c (bytes.take size)) (bytes.drop size)
  else (c, bytes)
termination_by bytes.length
decreasing_by
  rw [List.length_drop]
  omega

/-- The same body eight times, for `size` bytes each. -/
def eightTimes {C : Type} (size : Nat) (body : C → List Byte → C) (c : C) (bytes : List Byte) : C :=
  (List.range 8).foldl (fun c i => body c ((bytes.drop (size * i)).take size)) c

/-- The bytes up to an address divisible by four, then 32 and then four at a time, then the rest. -/
def fourAtATime (byte : U4 → Byte → U4) (word : U4 → List Byte → U4) (buf : Nat) (c : U4)
    (bytes : List Byte) : U4 :=
  let (c, bytes) := align byte buf c bytes
  let (c, bytes) := whileAtLeast 32 (eightTimes 4 word) c bytes
  let (c, bytes) := whileAtLeast 4 word c bytes
  bytes.foldl byte c

/-! ## `crc32` -/

/-- The load of a word on a machine with the low byte first. -/
def loadLittle {w : Nat} (bytes : List Byte) : BitVec w :=
  bytes.foldr (fun b v => (v <<< 8) ||| b.setWidth w) 0#w

/-- The load of a word on a machine with the high byte first. -/
def loadBig {w : Nat} (bytes : List Byte) : BitVec w :=
  bytes.foldl (fun v b => (v <<< 8) ||| b.setWidth w) 0#w

/-- The step of `crc32_little` for one byte. -/
def littleByte (c : U4) (b : Byte) : U4 := crcTable 0 ((c ^^^ b.setWidth 32).setWidth 8) ^^^ (c >>> 8)

/-- `DOLIT4`, the step of `crc32_little` for four bytes at once. -/
def dolit4 (c : U4) (bytes : List Byte) : U4 :=
  let c := c ^^^ loadLittle bytes
  crcTable 3 (c.setWidth 8) ^^^ crcTable 2 ((c >>> 8).setWidth 8) ^^^
    crcTable 1 ((c >>> 16).setWidth 8) ^^^ crcTable 0 ((c >>> 24).setWidth 8)

/-- `crc32_little`. `buf` is the address, which says how many bytes come before a whole word. -/
def crc32Little (crc : BitVec 64) (buf : Nat) (bytes : List Byte) : BitVec 64 :=
  (~~~ fourAtATime littleByte dolit4 buf (~~~ crc.setWidth 32) bytes).setWidth 64

/-- The step of `crc32_big` for one byte. -/
def bigByte (c : U4) (b : Byte) : U4 := crcTable 4 ((c >>> 24).setWidth 8 ^^^ b) ^^^ (c <<< 8)

/-- `DOBIG4`, the step of `crc32_big` for four bytes at once. -/
def dobig4 (c : U4) (bytes : List Byte) : U4 :=
  let c := c ^^^ loadBig bytes
  crcTable 4 (c.setWidth 8) ^^^ crcTable 5 ((c >>> 8).setWidth 8) ^^^
    crcTable 6 ((c >>> 16).setWidth 8) ^^^ crcTable 7 ((c >>> 24).setWidth 8)

/-- `crc32_big`, the same on words whose bytes are reversed. -/
def crc32Big (crc : BitVec 64) (buf : Nat) (bytes : List Byte) : BitVec 64 :=
  (rev (~~~ fourAtATime bigByte dobig4 buf (~~~ rev (crc.setWidth 32)) bytes)).setWidth 64

/-- `DO1`, the step for one byte where the tables are not used four at a time. -/
def do1 (crc : BitVec 64) (b : Byte) : BitVec 64 :=
  (crcTable 0 ((crc.setWidth 32 ^^^ b.setWidth 32).setWidth 8)).setWidth 64 ^^^ (crc >>> 8)

/-- `DO8` -/
def do8 (crc : BitVec 64) (bytes : List Byte) : BitVec 64 :=
  eightTimes 1 (fun crc b => b.foldl do1 crc) crc bytes

/-- What the preprocessor and the test of `endian` find. -/
inductive Platform where
  | little
  | big
  /-- no type of four bytes, or pointers of another size than `ptrdiff_t` -/
  | other
  deriving DecidableEq, Repr

/-- `buf` is the address and the `len` bytes there, or `Z_NULL`. -/
def crc32 (platform : Platform) (crc : BitVec 64) (buf : Option (Nat × List Byte)) : BitVec 64 :=
  match buf with
  | none => 0#64
  | some (buf, bytes) =>
    match platform with
    | .little => crc32Little crc buf bytes
    | .big => crc32Big crc buf bytes
    | .other =>
      let (crc, bytes) := whileAtLeast 8 do8 (crc ^^^ 0xffffffff#64) bytes
      bytes.foldl do1 crc ^^^ 0xffffffff#64

example : poly = 0xedb88320#32 := by decide

/-! ## The tables -/

theorem crcOfByte_eq (n : Byte) : crcOfByte n = shifts poly 8 (n.setWidth 32) := by
  have hstep : (fun c : U4 => if c &&& 1#32 ≠ 0#32 then poly ^^^ (c >>> 1) else c >>> 1) =
      shift poly := by
    funext c
    rw [shift, BitVec.and_one_eq_setWidth_ofBool_getLsbD]
    cases c.getLsbD 0 <;> rfl
  rw [crcOfByte, hstep, shifts]

/-- A zero byte after the others. -/
theorem crcOfByte_xor (c : U4) :
    crcOfByte (c.setWidth 8) ^^^ (c >>> 8) = shifts poly 8 c := by
  rw [crcOfByte_eq]
  exact (shifts_split poly 8 0 c).symm

theorem crcOfZeros_eq (k : Nat) (n : Byte) :
    crcOfZeros k n = shifts poly (8 * k + 8) (n.setWidth 32) := by
  induction k with
  | zero => exact crcOfByte_eq n
  | succ k ih =>
    rw [crcOfZeros] at ih
    rw [crcOfZeros, Function.iterate_succ_apply', ih, crcOfByte_xor, ← shifts_add]
    congr 1
    omega

theorem crcTable_eq {k : Nat} (hk : k < 4) (n : Byte) :
    crcTable k n = shifts poly (8 * k + 8) (n.setWidth 32) := by
  rw [crcTable, if_pos hk, crcOfZeros_eq]

theorem crcTable_add_four (k : Nat) (n : Byte) : crcTable (k + 4) n = rev (crcOfZeros k n) := by
  rw [crcTable, if_neg (by omega), Nat.add_sub_cancel]

/-! ## Little-endian -/

theorem setWidth_shiftRight (b : Byte) : (b.setWidth 32) >>> 8 = 0#32 := by
  ext i hi
  rw [BitVec.getElem_ushiftRight, BitVec.getLsbD_setWidth, BitVec.getLsbD_of_ge b _ (by omega)]
  simp

theorem littleByte_eq (c : U4) (b : Byte) : littleByte c b = shifts poly 8 (c ^^^ b.setWidth 32) := by
  rw [littleByte, crcTable_eq (by decide), shifts_split poly 8 0 (c ^^^ b.setWidth 32),
    BitVec.ushiftRight_xor_distrib, setWidth_shiftRight, BitVec.xor_zero]
  rfl

/-- A byte as the eight bits of it. -/
theorem littleByte_eq_foldl (c : U4) (b : Byte) :
    littleByte c b = (bits 8 b).foldl (feed poly) c := by
  have hbits : bits 8 b = bits 8 (b.setWidth 32) := by
    refine List.map_congr_left fun i hi => ?_
    rw [List.mem_range] at hi
    rw [BitVec.getLsbD_setWidth]
    simp [show i < 32 by omega]
  rw [hbits, foldl_feed, setWidth_shiftRight, BitVec.xor_zero, littleByte_eq]

theorem dolit4_eq (c : U4) (bytes : List Byte) :
    dolit4 c bytes = shifts poly 32 (c ^^^ loadLittle bytes) := by
  rw [dolit4]
  generalize c ^^^ loadLittle bytes = d
  have hlast : shifts poly 8 (d >>> 24) = crcTable 0 ((d >>> 24).setWidth 8) := by
    rw [shifts_split poly 8 0, ← BitVec.shiftRight_add, crcTable_eq (by decide),
      BitVec.ushiftRight_eq_zero (n := 24 + 8) (by decide)]
    exact BitVec.xor_zero
  calc crcTable 3 (d.setWidth 8) ^^^ crcTable 2 ((d >>> 8).setWidth 8) ^^^
        crcTable 1 ((d >>> 16).setWidth 8) ^^^ crcTable 0 ((d >>> 24).setWidth 8)
      = crcTable 3 (d.setWidth 8) ^^^ (crcTable 2 ((d >>> 8).setWidth 8) ^^^
        (crcTable 1 ((d >>> 16).setWidth 8) ^^^ shifts poly 8 (d >>> 24))) := by
        rw [hlast, BitVec.xor_assoc, BitVec.xor_assoc]
    _ = shifts poly 32 d := by
        rw [shifts_split poly 8 24 d, shifts_split poly 8 16 (d >>> 8),
          shifts_split poly 8 8 (d >>> 8 >>> 8), crcTable_eq (by decide), crcTable_eq (by decide),
          crcTable_eq (by decide), ← BitVec.shiftRight_add, ← BitVec.shiftRight_add]

theorem loadLittle_getLsbD_of_ge {bytes : List Byte} {i : Nat} (h : 8 * bytes.length ≤ i) :
    (loadLittle bytes : U4).getLsbD i = false := by
  induction bytes generalizing i with
  | nil => exact BitVec.getLsbD_zero
  | cons b bytes ih =>
    rw [List.length_cons] at h
    rw [loadLittle, List.foldr_cons, BitVec.getLsbD_or, BitVec.getLsbD_shiftLeft,
      BitVec.getLsbD_setWidth, BitVec.getLsbD_of_ge b i (by omega)]
    change (_ && (loadLittle bytes : U4).getLsbD (i - 8) || _) = false
    rw [ih (by omega), Bool.and_false, Bool.and_false, Bool.or_false]

theorem loadLittle_cons {w : Nat} (b : Byte) (bytes : List Byte) :
    (loadLittle (b :: bytes) : BitVec w) = b.setWidth w ^^^ (loadLittle bytes <<< 8) := by
  apply BitVec.eq_of_getLsbD_eq
  intro i hi
  change ((loadLittle bytes <<< 8) ||| b.setWidth w).getLsbD i = _
  rw [BitVec.getLsbD_or, BitVec.getLsbD_xor, BitVec.getLsbD_shiftLeft, BitVec.getLsbD_setWidth]
  by_cases hlow : i < 8
  · simp [hlow]
  · simp [BitVec.getLsbD_of_ge b i (by omega)]

theorem foldl_littleByte {bytes : List Byte} (h : bytes.length ≤ 4) (c : U4) :
    bytes.foldl littleByte c = shifts poly (8 * bytes.length) (c ^^^ loadLittle bytes) := by
  induction bytes generalizing c with
  | nil => exact (BitVec.xor_zero).symm
  | cons b bytes ih =>
    rw [List.length_cons] at h
    -- the other bytes, eight shifts earlier
    have hrest : shifts poly 8 ((loadLittle bytes : U4) <<< 8) = loadLittle bytes := by
      rw [shifts_of_low poly]
      · apply BitVec.eq_of_getLsbD_eq
        intro i hi
        rw [BitVec.getLsbD_ushiftRight, BitVec.getLsbD_shiftLeft]
        by_cases hlow : 8 + i < 32
        · simp [hlow]
        · rw [loadLittle_getLsbD_of_ge (i := i) (by omega), decide_eq_false hlow, Bool.false_and,
            Bool.false_and]
      · intro i hi
        rw [BitVec.getLsbD_shiftLeft, decide_eq_true hi]
        simp
    rw [List.foldl_cons, ih (by omega), littleByte_eq, List.length_cons, Nat.mul_succ, shifts_add,
      loadLittle_cons, ← BitVec.xor_assoc, shifts_xor poly 8 (c ^^^ _), hrest]

theorem dolit4_eq_foldl (c : U4) {bytes : List Byte} (h : bytes.length = 4) :
    dolit4 c bytes = bytes.foldl littleByte c := by
  rw [dolit4_eq, foldl_littleByte h.le, h]

/-! ## Big-endian -/

theorem rev_getLsbD (w : U4) {i : Nat} (hi : i < 32) :
    (rev w).getLsbD i = w.getLsbD (8 * (3 - i / 8) + i % 8) := by
  have hdisjoint : ∀ a b : U4, (∀ j < 32, (a &&& b).getLsbD j = false) → a + b = a ||| b := by
    intro a b h
    apply BitVec.add_eq_or_of_and_eq_zero
    apply BitVec.eq_of_getLsbD_eq
    intro j hj
    rw [h j hj, BitVec.getLsbD_zero]
  rw [rev, hdisjoint (w >>> 24), hdisjoint (_ ||| _) ((w &&& 0xff00#32) <<< 8),
    hdisjoint (_ ||| _) ((w &&& 0xff#32) <<< 24)]
  · interval_cases i <;> simp
  all_goals
    intro j hj
    interval_cases j <;> simp

theorem eq_of_rev {a b : U4}
    (h : ∀ i < 32, a.getLsbD (8 * (3 - i / 8) + i % 8) = b.getLsbD i) : rev a = b := by
  apply BitVec.eq_of_getLsbD_eq
  intro i hi
  rw [rev_getLsbD a hi, h i hi]

theorem rev_xor (a b : U4) : rev (a ^^^ b) = rev a ^^^ rev b := by
  refine eq_of_rev fun i hi => ?_
  rw [BitVec.getLsbD_xor, BitVec.getLsbD_xor, rev_getLsbD a hi, rev_getLsbD b hi]

theorem rev_rev (w : U4) : rev (rev w) = w := by
  refine eq_of_rev fun i hi => ?_
  rw [rev_getLsbD w (by omega)]
  congr 1
  omega

theorem rev_not (w : U4) : rev (~~~ w) = ~~~ rev w := by
  refine eq_of_rev fun i hi => ?_
  rw [BitVec.getLsbD_not, BitVec.getLsbD_not, rev_getLsbD w hi]
  simp [hi, show 8 * (3 - i / 8) + i % 8 < 32 by omega]

/-- Bytes from the other end. -/
theorem rev_byte (w : U4) {k : Nat} (hk : k < 4) :
    ((rev w) >>> (8 * k)).setWidth 8 = (w >>> (8 * (3 - k))).setWidth 8 := by
  apply BitVec.eq_of_getLsbD_eq
  intro i hi
  simp only [BitVec.getLsbD_setWidth, BitVec.getLsbD_ushiftRight]
  rw [rev_getLsbD w (by omega)]
  congr 2
  omega

theorem rev_shiftRight (w : U4) : rev (w >>> 8) = rev w <<< 8 := by
  refine eq_of_rev fun i hi => ?_
  rw [BitVec.getLsbD_ushiftRight, BitVec.getLsbD_shiftLeft]
  by_cases hlow : i < 8
  · rw [BitVec.getLsbD_of_ge w _ (by omega)]
    simp [hlow]
  · rw [rev_getLsbD w (by omega)]
    simp only [hi, hlow, decide_true, decide_false, Bool.not_false, Bool.true_and]
    congr 1
    omega

theorem bigByte_rev (c : U4) (b : Byte) : bigByte (rev c) b = rev (littleByte c b) := by
  have hindex : ((rev c) >>> 24).setWidth 8 ^^^ b = (c ^^^ b.setWidth 32).setWidth 8 := by
    rw [rev_byte c (k := 3) (by decide), BitVec.setWidth_xor]
    congr 1
    simp
  rw [bigByte, hindex, littleByte, rev_xor, rev_shiftRight]
  rfl

theorem foldl_bigByte_rev (c : U4) (bytes : List Byte) :
    bytes.foldl bigByte (rev c) = rev (bytes.foldl littleByte c) := by
  induction bytes generalizing c with
  | nil => rfl
  | cons b bytes ih => rw [List.foldl_cons, bigByte_rev, ih, List.foldl_cons]

theorem loadBig_eq {bytes : List Byte} (h : bytes.length = 4) :
    (loadBig bytes : U4) = rev (loadLittle bytes) := by
  obtain ⟨b₀, b₁, b₂, b₃, rfl⟩ : ∃ b₀ b₁ b₂ b₃, bytes = [b₀, b₁, b₂, b₃] := by
    rcases bytes with _ | ⟨b₀, _ | ⟨b₁, _ | ⟨b₂, _ | ⟨b₃, _ | ⟨b₄, bytes⟩⟩⟩⟩⟩
    case cons.cons.cons.cons.nil => exact ⟨b₀, b₁, b₂, b₃, rfl⟩
    all_goals simp at h
  refine (eq_of_rev fun i hi => ?_).symm
  simp only [loadLittle, loadBig, List.foldr_cons, List.foldr_nil, List.foldl_cons, List.foldl_nil,
    BitVec.getLsbD_or, BitVec.getLsbD_shiftLeft, BitVec.getLsbD_setWidth, BitVec.getLsbD_zero]
  interval_cases i <;> simp

theorem dobig4_eq_foldl (c : U4) {bytes : List Byte} (h : bytes.length = 4) :
    dobig4 c bytes = bytes.foldl bigByte c := by
  have hrev : dobig4 (rev (rev c)) bytes = rev (dolit4 (rev c) bytes) := by
    rw [dobig4, dolit4, loadBig_eq h, ← rev_xor]
    generalize rev c ^^^ loadLittle bytes = d
    have hbyte : ∀ k < 4, crcTable (k + 4) ((rev d >>> (8 * k)).setWidth 8) =
        rev (crcTable k ((d >>> (8 * (3 - k))).setWidth 8)) := by
      intro k hk
      rw [crcTable_add_four, rev_byte d hk, crcTable, if_pos hk]
    have h₀ : crcTable 4 ((rev d).setWidth 8) = rev (crcTable 0 ((d >>> 24).setWidth 8)) := by
      rw [← hbyte 0 (by decide), Nat.mul_zero, BitVec.ushiftRight_zero]
    have h₁ : crcTable 5 ((rev d >>> 8).setWidth 8) = rev (crcTable 1 ((d >>> 16).setWidth 8)) :=
      hbyte 1 (by decide)
    have h₂ : crcTable 6 ((rev d >>> 16).setWidth 8) = rev (crcTable 2 ((d >>> 8).setWidth 8)) :=
      hbyte 2 (by decide)
    have h₃ : crcTable 7 ((rev d >>> 24).setWidth 8) = rev (crcTable 3 (d.setWidth 8)) := by
      rw [← BitVec.ushiftRight_zero d]
      exact hbyte 3 (by decide)
    rw [h₀, h₁, h₂, h₃, rev_xor, rev_xor, rev_xor]
    have hreverse : ∀ x y z u : U4, x ^^^ y ^^^ z ^^^ u = u ^^^ z ^^^ y ^^^ x := by
      intro x y z u
      ac_rfl
    exact hreverse _ _ _ _
  rw [← rev_rev c, hrev, dolit4_eq_foldl _ h, foldl_bigByte_rev]

/-! ## The loops -/

theorem align_eq_foldl (byte : U4 → Byte → U4) (buf : Nat) (c : U4) (bytes : List Byte) :
    (align byte buf c bytes).2.foldl byte (align byte buf c bytes).1 = bytes.foldl byte c := by
  induction bytes generalizing buf c with
  | nil => rfl
  | cons b bytes ih =>
    rw [align]
    split
    · exact ih (buf + 1) (byte c b)
    · rfl

section Loops

variable {C : Type} {size : Nat} {body : C → List Byte → C} {byte : C → Byte → C}

theorem whileAtLeast_eq_foldl
    (hbody : ∀ c bytes, bytes.length = size → body c bytes = bytes.foldl byte c) (c : C)
    (bytes : List Byte) :
    (whileAtLeast size body c bytes).2.foldl byte (whileAtLeast size body c bytes).1 =
      bytes.foldl byte c := by
  fun_induction whileAtLeast size body c bytes with
  | case1 c bytes h ih =>
    rw [ih, hbody c _ (by rw [List.length_take]; omega), ← List.foldl_append,
      List.take_append_drop]
  | case2 c bytes h => rfl

theorem eightTimes_eq_foldl
    (hbody : ∀ c bytes, bytes.length = size → body c bytes = bytes.foldl byte c) (c : C)
    {bytes : List Byte} (h : bytes.length = size * 8) :
    eightTimes size body c bytes = bytes.foldl byte c := by
  have htimes : ∀ k ≤ 8, (List.range k).foldl
      (fun c i => body c ((bytes.drop (size * i)).take size)) c =
        (bytes.take (size * k)).foldl byte c := by
    intro k hk
    induction k with
    | zero => rfl
    | succ k ih =>
      have hle : size * k + size ≤ bytes.length := by
        rw [h, ← Nat.mul_succ]
        exact Nat.mul_le_mul_left size hk
      rw [List.range_succ, List.foldl_append, ih (by omega), Nat.mul_succ, List.take_add,
        List.foldl_append]
      exact hbody _ _ (by rw [List.length_take, List.length_drop]; omega)
  rw [eightTimes, htimes 8 le_rfl, ← h, List.take_length]

end Loops

theorem fourAtATime_eq_foldl {byte : U4 → Byte → U4} {word : U4 → List Byte → U4}
    (hword : ∀ c bytes, bytes.length = 4 → word c bytes = bytes.foldl byte c) (buf : Nat) (c : U4)
    (bytes : List Byte) : fourAtATime byte word buf c bytes = bytes.foldl byte c := by
  have hwords : ∀ c bytes, bytes.length = 32 →
      eightTimes 4 word c bytes = bytes.foldl byte c :=
    fun c _ h => eightTimes_eq_foldl hword c h
  let head := align byte buf c bytes
  let middle := whileAtLeast 32 (eightTimes 4 word) head.1 head.2
  let last := whileAtLeast 4 word middle.1 middle.2
  calc fourAtATime byte word buf c bytes = last.2.foldl byte last.1 := rfl
    _ = middle.2.foldl byte middle.1 := whileAtLeast_eq_foldl hword _ _
    _ = head.2.foldl byte head.1 := whileAtLeast_eq_foldl hwords _ _
    _ = bytes.foldl byte c := align_eq_foldl byte buf c bytes

/-! ## The remainder -/

theorem do1_setWidth (c : U4) (b : Byte) :
    do1 (c.setWidth 64) b = (littleByte c b).setWidth 64 := by
  have hlow : (c.setWidth 64).setWidth 32 = c := by
    rw [BitVec.setWidth_setWidth_of_le c (by decide), BitVec.setWidth_eq]
  rw [do1, littleByte, hlow, BitVec.setWidth_xor (x := crcTable _ _),
    BitVec.setWidth_ushiftRight (by decide)]

/-- The bits of the data, the lowest bit of a byte first. -/
def dataBits (bytes : List Byte) : List Bool := bytes.flatMap (bits 8)

theorem foldl_littleByte_eq (c : U4) (bytes : List Byte) :
    bytes.foldl littleByte c = (dataBits bytes).foldl (feed poly) c := by
  induction bytes generalizing c with
  | nil => rfl
  | cons b bytes ih =>
    rw [List.foldl_cons, ih, littleByte_eq_foldl, dataBits, dataBits, List.flatMap_cons,
      List.foldl_append]

theorem foldl_do1 (c : U4) (bytes : List Byte) :
    bytes.foldl do1 (c.setWidth 64) = (bytes.foldl littleByte c).setWidth 64 := by
  induction bytes generalizing c with
  | nil => rfl
  | cons b bytes ih => rw [List.foldl_cons, do1_setWidth, ih, List.foldl_cons]

theorem setWidth_xor_ones (c : U4) : c.setWidth 64 ^^^ 0xffffffff#64 = (~~~ c).setWidth 64 := by
  have hones : 0xffffffff#64 = (BitVec.allOnes 32).setWidth 64 := by decide
  rw [hones, ← BitVec.setWidth_xor, BitVec.xor_allOnes]

/-- On every platform the register has taken the data bit by bit. -/
theorem crc32_eq (platform : Platform) {crc : BitVec 64} (h : platform = .other → crc.toNat < 2 ^ 32)
    (buf : Nat) (bytes : List Byte) :
    crc32 platform crc (some (buf, bytes)) =
      (~~~ (dataBits bytes).foldl (feed poly) (~~~ crc.setWidth 32)).setWidth 64 := by
  rw [← foldl_littleByte_eq]
  cases platform with
  | little =>
    change crc32Little crc buf bytes = _
    rw [crc32Little, fourAtATime_eq_foldl fun c _ => dolit4_eq_foldl c]
  | big =>
    change crc32Big crc buf bytes = _
    rw [crc32Big, fourAtATime_eq_foldl fun c _ => dobig4_eq_foldl c, ← rev_not, foldl_bigByte_rev,
      rev_not, rev_rev]
  | other =>
    have hcrc : crc = (crc.setWidth 32).setWidth 64 := by
      apply BitVec.eq_of_toNat_eq
      have hlt := h rfl
      rw [BitVec.toNat_setWidth, BitVec.toNat_setWidth]
      omega
    let head := whileAtLeast 8 do8 (crc ^^^ 0xffffffff#64) bytes
    have hdo8 : ∀ c bytes, bytes.length = 1 * 8 → do8 c bytes = bytes.foldl do1 c :=
      fun c _ h => eightTimes_eq_foldl (fun _ _ _ => rfl) c h
    calc crc32 .other crc (some (buf, bytes)) = head.2.foldl do1 head.1 ^^^ 0xffffffff#64 := rfl
      _ = bytes.foldl do1 (crc ^^^ 0xffffffff#64) ^^^ 0xffffffff#64 := by
        rw [whileAtLeast_eq_foldl hdo8]
      _ = _ := by
        rw [hcrc, setWidth_xor_ones, foldl_do1, setWidth_xor_ones, ← hcrc]

/-- The check value of the checksum: that of the digits from 1 to 9. -/
example : crc32 .little 0#64 (some (1, [0x31, 0x32, 0x33, 0x34, 0x35, 0x36, 0x37, 0x38, 0x39])) =
    0xcbf43926#64 := by
  rw [crc32_eq .little (by simp)]
  decide +kernel

section Polynomials

open Polynomial

theorem modulus_poly : modulus poly = X ^ 32 + X ^ 26 + X ^ 23 + X ^ 22 + X ^ 16 + X ^ 12 + X ^ 11 +
    X ^ 10 + X ^ 8 + X ^ 7 + X ^ 5 + X ^ 4 + X ^ 2 + X + 1 := by
  have hpoly : poly = 0xedb88320#32 := by decide
  have hvalue : value poly = X ^ 26 + X ^ 23 + X ^ 22 + X ^ 16 + X ^ 12 + X ^ 11 + X ^ 10 + X ^ 8 +
      X ^ 7 + X ^ 5 + X ^ 4 + X ^ 2 + X + 1 := by
    rw [hpoly]
    simp [value, Finset.sum_range_succ]
  rw [modulus, hvalue]
  ring

theorem length_dataBits (bytes : List Byte) : (dataBits bytes).length = 8 * bytes.length := by
  induction bytes with
  | nil => rfl
  | cons b bytes ih =>
    rw [dataBits] at ih
    rw [dataBits, List.flatMap_cons, List.length_append, ih, bits, List.length_map,
      List.length_range, List.length_cons]
    omega

/-- Wherever the data lies and on every platform, `crc32` is the complement of one remainder: that
of the data, moved up by 32, and of the complement of the checksum so far, moved up by the data. The
loop over the bytes alone needs a checksum so far that fits in 32 bits. -/
theorem crc32_remainder (crc : BitVec 64) (bytes : List Byte) :
    ∃ c : U4, (∀ platform buf, (platform = .other → crc.toNat < 2 ^ 32) →
        crc32 platform crc (some (buf, bytes)) = (~~~ c).setWidth 64) ∧
      value c = (X ^ (8 * bytes.length) * value (~~~ crc.setWidth 32) +
          X ^ 32 * message (dataBits bytes)) %ₘ
        (X ^ 32 + X ^ 26 + X ^ 23 + X ^ 22 + X ^ 16 + X ^ 12 + X ^ 11 + X ^ 10 + X ^ 8 + X ^ 7 +
          X ^ 5 + X ^ 4 + X ^ 2 + X + 1) := by
  refine ⟨_, fun platform buf h => crc32_eq platform h buf bytes, ?_⟩
  rw [value_foldl_feed_mod poly (by decide), length_dataBits, modulus_poly]

end Polynomials

end Htmsql.Sysbench
