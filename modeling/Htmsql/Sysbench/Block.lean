import Htmsql.Sysbench.Crc32

/-!
# Blocks with a checksum

`file_fill_buffer` and `file_validate_buffer` of
`src/mysql/bench/sysbench-0.4.12/sysbench/tests/fileio/sb_fileio.c`, on a little-endian machine.
With `--validate` every block that the file test writes ends with the checksum of its data and its
offset in the file, and every block that it reads is checked. The data and the checksum together
leave the same remainder in every block, from which it follows that a burst of errors shows.
-/

namespace Htmsql.Sysbench

open ShiftRegister

/-- `FILE_CHECKSUM_LENGTH`, the size of an `int` -/
def fileChecksumLength : Nat := 4

/-- `FILE_OFFSET_LENGTH`, the size of a `long` -/
def fileOffsetLength : Nat := 8

/-- A number as the machine stores it, lowest byte first. -/
def storeLittle {w : Nat} (size : Nat) (v : BitVec w) : List Byte :=
  (List.range size).map fun i => (v >>> (8 * i)).setWidth 8

/-- The buffer at `buf` after the call, with the values that `sb_rnd` returns. If the two fields do
not fit in, the first loop runs beyond the buffer. -/
def fileFillBuffer (sbRnd : Nat → Nat) (buf len : Nat) (offset : BitVec 64) : Option (List Byte) :=
  if len < fileChecksumLength + fileOffsetLength then none
  else
    let data := (List.range (len - (fileChecksumLength + fileOffsetLength))).map fun i =>
      BitVec.ofNat 8 (sbRnd i &&& 0xff)
    let checksum : U4 := (crc32 .little 0#64 (some (buf, data))).setWidth 32
    some (data ++ storeLittle fileChecksumLength checksum ++ storeLittle fileOffsetLength offset)

/-- The result for the buffer at `buf`, 0 if the block is valid. -/
def fileValidateBuffer (buf : Nat) (block : List Byte) (offset : BitVec 64) : Option Nat :=
  if block.length < fileChecksumLength + fileOffsetLength then none
  else
    let csOffset := block.length - (fileChecksumLength + fileOffsetLength)
    let checksum : U4 := (crc32 .little 0#64 (some (buf, block.take csOffset))).setWidth 32
    if checksum ≠ loadLittle ((block.drop csOffset).take fileChecksumLength) then some 1
    else if offset ≠ loadLittle ((block.drop (csOffset + fileChecksumLength)).take fileOffsetLength)
    then some 1
    else some 0

/-! ## Storing and loading -/

theorem loadLittle_getLsbD {w : Nat} (bytes : List Byte) {i : Nat} (hi : i < w) :
    (loadLittle bytes : BitVec w).getLsbD i = (bytes.getD (i / 8) 0#8).getLsbD (i % 8) := by
  induction bytes generalizing i with
  | nil => simp [loadLittle]
  | cons b bytes ih =>
    rw [loadLittle_cons, BitVec.getLsbD_xor, BitVec.getLsbD_shiftLeft, BitVec.getLsbD_setWidth]
    by_cases hlow : i < 8
    · rw [Nat.div_eq_of_lt hlow, Nat.mod_eq_of_lt hlow, List.getD_cons_zero]
      simp [hi, hlow]
    · rw [ih (by omega), show i / 8 = (i - 8) / 8 + 1 by omega, List.getD_cons_succ,
        show i % 8 = (i - 8) % 8 by omega, BitVec.getLsbD_of_ge b i (by omega)]
      simp [hi, hlow]

theorem length_storeLittle {w : Nat} (size : Nat) (v : BitVec w) :
    (storeLittle size v).length = size := by
  rw [storeLittle, List.length_map, List.length_range]

theorem loadLittle_storeLittle {w size : Nat} (hw : w = 8 * size) (v : BitVec w) :
    loadLittle (storeLittle size v) = v := by
  apply BitVec.eq_of_getLsbD_eq
  intro i hi
  rw [loadLittle_getLsbD _ hi, storeLittle, List.getD_eq_getElem?_getD, List.getElem?_map,
    List.getElem?_range (by omega)]
  simp only [Option.map_some, Option.getD_some, BitVec.getLsbD_setWidth,
    BitVec.getLsbD_ushiftRight]
  rw [decide_eq_true (by omega), Bool.true_and]
  congr 1
  omega

theorem storeLittle_loadLittle {w size : Nat} (hw : w = 8 * size) {bytes : List Byte}
    (h : bytes.length = size) : storeLittle size (loadLittle bytes : BitVec w) = bytes := by
  apply List.ext_getElem
  · rw [length_storeLittle, h]
  · intro k hk hk'
    apply BitVec.eq_of_getLsbD_eq
    intro i hi
    simp only [storeLittle, List.getElem_map, List.getElem_range, BitVec.getLsbD_setWidth,
      BitVec.getLsbD_ushiftRight]
    rw [loadLittle_getLsbD _ (by omega), decide_eq_true hi, Bool.true_and,
      show (8 * k + i) / 8 = k by omega, show (8 * k + i) % 8 = i by omega,
      List.getD_eq_getElem?_getD, List.getElem?_eq_getElem hk', Option.getD_some]

/-! ## The remainder of a block -/

theorem poly_top : poly.getLsbD 31 = true := by decide

theorem crc32_data (buf : Nat) (bytes : List Byte) :
    (crc32 .little 0#64 (some (buf, bytes))).setWidth 32 =
      ~~~ (dataBits bytes).foldl (feed poly) (BitVec.allOnes 32) := by
  have hones : ~~~ (0#64).setWidth 32 = BitVec.allOnes 32 := by decide
  rw [crc32_eq .little (by simp), BitVec.setWidth_setWidth_of_le _ (by decide), BitVec.setWidth_eq,
    hones]

/-- What the data and the checksum of a block leave in the register. -/
def residue : U4 := shifts poly 32 (BitVec.allOnes 32)

theorem residue_iff (data : List Byte) {checksum : List Byte} (h : checksum.length = 4) :
    (dataBits (data ++ checksum)).foldl (feed poly) (BitVec.allOnes 32) = residue ↔
      ~~~ (dataBits data).foldl (feed poly) (BitVec.allOnes 32) = loadLittle checksum := by
  generalize hreg : (dataBits data).foldl (feed poly) (BitVec.allOnes 32) = reg
  have hall : (dataBits (data ++ checksum)).foldl (feed poly) (BitVec.allOnes 32) =
      shifts poly 32 (reg ^^^ loadLittle checksum) := by
    rw [dataBits, List.flatMap_append, List.foldl_append]
    change (dataBits checksum).foldl (feed poly) ((dataBits data).foldl (feed poly) _) = _
    rw [hreg, ← foldl_littleByte_eq, foldl_littleByte h.le, h]
  rw [hall, residue, (shifts_injective poly poly_top 32).eq_iff]
  constructor
  · intro heq
    rw [← BitVec.xor_allOnes, ← heq, ← BitVec.xor_assoc, BitVec.xor_self, BitVec.zero_xor]
  · intro heq
    rw [← heq, ← BitVec.xor_allOnes, ← BitVec.xor_assoc, BitVec.xor_self, BitVec.zero_xor]

theorem fileValidateBuffer_eq (buf : Nat) {block : List Byte} (offset : BitVec 64)
    (h : 12 ≤ block.length) :
    fileValidateBuffer buf block offset =
      if ~~~ (dataBits (block.take (block.length - 12))).foldl (feed poly) (BitVec.allOnes 32) ≠
          loadLittle ((block.drop (block.length - 12)).take 4) then some 1
      else if offset ≠ loadLittle ((block.drop (block.length - 12 + 4)).take 8) then some 1
      else some 0 := by
  rw [← crc32_data buf]
  exact if_neg (Nat.not_lt.mpr h)

/-- The data and the checksum leave the residue, and then comes the offset. -/
theorem fileValidateBuffer_iff {buf : Nat} {block : List Byte} {offset : BitVec 64} :
    fileValidateBuffer buf block offset = some 0 ↔ 12 ≤ block.length ∧
      (dataBits (block.take (block.length - 8))).foldl (feed poly) (BitVec.allOnes 32) = residue ∧
      block.drop (block.length - 8) = storeLittle 8 offset := by
  by_cases hshort : block.length < 12
  · have hnone : fileValidateBuffer buf block offset = none := if_pos hshort
    rw [hnone]
    simp [hshort]
  have hlength : 12 ≤ block.length := Nat.not_lt.mp hshort
  have hfour : ((block.drop (block.length - 12)).take 4).length = 4 := by
    rw [List.length_take, List.length_drop]
    omega
  have htake : block.take (block.length - 8) =
      block.take (block.length - 12) ++ (block.drop (block.length - 12)).take 4 := by
    rw [← List.take_add, show block.length - 12 + 4 = block.length - 8 by omega]
  have hdrop : (block.drop (block.length - 12 + 4)).take 8 = block.drop (block.length - 8) := by
    rw [show block.length - 12 + 4 = block.length - 8 by omega, List.take_of_length_le]
    rw [List.length_drop]
    omega
  have hoffset : offset = loadLittle (block.drop (block.length - 8)) ↔
      block.drop (block.length - 8) = storeLittle 8 offset := by
    constructor
    · intro heq
      rw [heq, storeLittle_loadLittle rfl (by rw [List.length_drop]; omega)]
    · intro heq
      rw [heq, loadLittle_storeLittle rfl]
  have hite : ∀ (P Q : Prop) [Decidable P] [Decidable Q],
      (if ¬ P then some 1 else if ¬ Q then some 1 else some 0) = some 0 ↔ P ∧ Q := by
    intro P Q _ _
    by_cases hP : P <;> by_cases hQ : Q <;> simp [hP, hQ]
  rw [fileValidateBuffer_eq buf offset hlength, hite, htake, residue_iff _ hfour, ← hoffset, hdrop]
  exact ⟨fun h => ⟨hlength, h⟩, fun h => h.2⟩

theorem fileValidateBuffer_of_ne (buf : Nat) {block : List Byte} {offset : BitVec 64}
    (h : 12 ≤ block.length) (hne : fileValidateBuffer buf block offset ≠ some 0) :
    fileValidateBuffer buf block offset = some 1 := by
  rw [fileValidateBuffer_eq buf offset h] at hne ⊢
  split
  · rfl
  · split
    · rfl
    · rename_i hchecksum hoffset
      rw [if_neg hchecksum, if_neg hoffset] at hne
      exact (hne rfl).elim

theorem fileFillBuffer_eq {sbRnd : Nat → Nat} {buf len : Nat} {offset : BitVec 64}
    (h : 12 ≤ len) {data : List Byte}
    (hdata : data = (List.range (len - 12)).map fun i => BitVec.ofNat 8 (sbRnd i &&& 0xff)) :
    fileFillBuffer sbRnd buf len offset = some (data ++
      storeLittle 4 (~~~ (dataBits data).foldl (feed poly) (BitVec.allOnes 32)) ++
      storeLittle 8 offset) := by
  rw [← crc32_data buf, hdata]
  exact if_neg (Nat.not_lt.mpr h)

theorem fileFillBuffer_valid {sbRnd : Nat → Nat} {buf buf' len : Nat} {offset : BitVec 64}
    {block : List Byte} (h : fileFillBuffer sbRnd buf len offset = some block) :
    fileValidateBuffer buf' block offset = some 0 := by
  have hlength : 12 ≤ len := by
    by_contra hshort
    have hnone : fileFillBuffer sbRnd buf len offset = none := if_pos (Nat.not_le.mp hshort)
    rw [hnone] at h
    cases h
  rw [fileFillBuffer_eq hlength rfl] at h
  generalize hdata : (List.range (len - 12)).map (fun i => BitVec.ofNat 8 (sbRnd i &&& 0xff)) = data
    at h
  obtain rfl := Option.some.inj h
  have hfront : (data ++ storeLittle 4
      (~~~ (dataBits data).foldl (feed poly) (BitVec.allOnes 32)) ++
        storeLittle 8 offset).length - 8 =
      (data ++ storeLittle 4
        (~~~ (dataBits data).foldl (feed poly) (BitVec.allOnes 32))).length := by
    rw [List.length_append, length_storeLittle, Nat.add_sub_cancel]
  rw [fileValidateBuffer_iff, hfront, List.take_left, List.drop_left]
  refine ⟨?_, ?_, rfl⟩
  · rw [List.length_append, List.length_append, length_storeLittle, length_storeLittle]
    omega
  · rw [residue_iff _ (length_storeLittle 4 _), loadLittle_storeLittle rfl]

theorem exists_fileFillBuffer {buf buf' : Nat} {block : List Byte} {offset : BitVec 64}
    (h : fileValidateBuffer buf' block offset = some 0) :
    ∃ sbRnd, fileFillBuffer sbRnd buf block.length offset = some block := by
  obtain ⟨hlength, hres, hdrop⟩ := fileValidateBuffer_iff.mp h
  refine ⟨fun i => (block.getD i 0#8).toNat, ?_⟩
  have hdata : block.take (block.length - 12) = (List.range (block.length - 12)).map
      fun i => BitVec.ofNat 8 ((block.getD i 0#8).toNat &&& 0xff) := by
    apply List.ext_getElem
    · rw [List.length_take, List.length_map, List.length_range]
      omega
    · intro i hi hi'
      rw [List.length_take] at hi
      simp only [List.getElem_take, List.getElem_map, List.getElem_range]
      rw [List.getD_eq_getElem?_getD, List.getElem?_eq_getElem (by omega), Option.getD_some,
        Nat.and_two_pow_sub_one_eq_mod _ 8, Nat.mod_eq_of_lt (BitVec.isLt _), BitVec.ofNat_toNat,
        BitVec.setWidth_eq]
  have htake : block.take (block.length - 8) =
      block.take (block.length - 12) ++ (block.drop (block.length - 12)).take 4 := by
    rw [← List.take_add, show block.length - 12 + 4 = block.length - 8 by omega]
  have hfour : ((block.drop (block.length - 12)).take 4).length = 4 := by
    rw [List.length_take, List.length_drop]
    omega
  rw [htake, residue_iff _ hfour] at hres
  rw [fileFillBuffer_eq hlength hdata, hres, storeLittle_loadLittle rfl hfour, ← htake, ← hdrop,
    List.take_append_drop]

/-- The blocks that are valid are those that `file_fill_buffer` can write, with the same offset; and
a block is valid at one offset only. -/
theorem valid_iff_filled (buf buf' : Nat) (block : List Byte) (offset : BitVec 64) :
    (fileValidateBuffer buf' block offset = some 0 ↔
        ∃ sbRnd, fileFillBuffer sbRnd buf block.length offset = some block) ∧
      ∀ offset', fileValidateBuffer buf block offset = some 0 →
        fileValidateBuffer buf' block offset' = some 0 → offset = offset' := by
  refine ⟨⟨exists_fileFillBuffer, fun ⟨_, h⟩ => fileFillBuffer_valid h⟩, fun offset' h h' => ?_⟩
  have hoffset := (fileValidateBuffer_iff.mp h).2.2
  rw [(fileValidateBuffer_iff.mp h').2.2] at hoffset
  calc offset = loadLittle (storeLittle 8 offset) := (loadLittle_storeLittle (by decide) offset).symm
    _ = loadLittle (storeLittle 8 offset') := by rw [← hoffset]
    _ = offset' := loadLittle_storeLittle (by decide) offset'

/-! ## Bursts -/

theorem dataBits_append (a b : List Byte) : dataBits (a ++ b) = dataBits a ++ dataBits b :=
  List.flatMap_append

theorem dataBits_injective {a b : List Byte} (h : dataBits a = dataBits b) : a = b := by
  have hlength : a.length = b.length := by
    have := congrArg List.length h
    rw [length_dataBits, length_dataBits] at this
    omega
  induction a generalizing b with
  | nil => exact (List.length_eq_zero_iff.mp hlength.symm).symm
  | cons x a ih =>
    cases b with
    | nil => cases hlength
    | cons y b =>
      rw [dataBits, dataBits, List.flatMap_cons, List.flatMap_cons] at h
      obtain ⟨hbits, hrest⟩ := List.append_inj h (by rw [bits, bits, List.length_map, List.length_map])
      rw [ih hrest (Nat.succ.inj hlength)]
      congr 1
      apply BitVec.eq_of_getLsbD_eq
      intro i hi
      exact List.map_inj_left.mp hbits i (List.mem_range.mpr hi)

/-- A burst of errors of at most 32 bits anywhere in a valid block, counted from the lowest bit of
a byte, makes the block invalid. -/
theorem burst_invalid {buf buf' : Nat} {block block' : List Byte} {offset : BitVec 64}
    (h : fileValidateBuffer buf block offset = some 0) (hlength : block'.length = block.length)
    (hne : block' ≠ block) {i : Nat}
    (hburst : ∀ j, j < i ∨ i + 32 ≤ j → (dataBits block)[j]? = (dataBits block')[j]?) :
    fileValidateBuffer buf' block' offset = some 1 := by
  obtain ⟨htwelve, hres, hdrop⟩ := fileValidateBuffer_iff.mp h
  refine fileValidateBuffer_of_ne buf' (by omega) fun h' => hne ?_
  obtain ⟨-, hres', hdrop'⟩ := fileValidateBuffer_iff.mp h'
  rw [hlength] at hres' hdrop'
  -- the offsets are the same, so that the errors are before them
  have hfront : dataBits (block.take (block.length - 8)) =
      dataBits (block'.take (block.length - 8)) := by
    have hdata : ∀ b : List Byte, b.length = block.length → ∀ j,
        (dataBits (b.take (block.length - 8)))[j]? =
          if j < 8 * (block.length - 8) then (dataBits b)[j]? else none := by
      intro b hb j
      have hbits : (dataBits (b.take (block.length - 8))).length = 8 * (block.length - 8) := by
        rw [length_dataBits, List.length_take]
        omega
      have hsplit : dataBits b = dataBits (b.take (block.length - 8)) ++
          dataBits (b.drop (block.length - 8)) := by
        rw [← dataBits_append, List.take_append_drop]
      split
      · rw [hsplit, List.getElem?_append_left (by omega)]
      · exact List.getElem?_eq_none (by omega)
    refine eq_of_burst poly poly_top (i := min i (8 * (block.length - 8) - 32)) ?_ ?_ ?_
      (hres.trans hres'.symm)
    · rw [length_dataBits, length_dataBits, List.length_take, List.length_take, hlength]
    · rw [length_dataBits, List.length_take]
      omega
    · intro j hj
      rw [hdata block rfl, hdata block' hlength]
      split
      · exact hburst j (by omega)
      · rfl
  rw [← List.take_append_drop (block.length - 8) block', hdrop', ← hdrop,
    ← dataBits_injective hfront, List.take_append_drop]

/-- One byte of the data of a block is changed. -/
theorem burst_invalid_dataByte :
    ∃ rest, fileFillBuffer (fun _ => 0) 0 16 512#64 = some (0#8 :: 0#8 :: rest) ∧
      fileValidateBuffer 0 (0#8 :: 1#8 :: rest) 512#64 = some 1 := by
  have hfill : ∃ rest, fileFillBuffer (fun _ => 0) 0 16 512#64 = some (0#8 :: 0#8 :: rest) :=
    ⟨_, fileFillBuffer_eq (by decide) rfl⟩
  obtain ⟨rest, hrest⟩ := hfill
  have hvalid : fileValidateBuffer 0 (0#8 :: 0#8 :: rest) 512#64 = some 0 :=
    fileFillBuffer_valid hrest
  refine ⟨rest, hrest, burst_invalid hvalid rfl (by simp) (i := 8) fun j hj => ?_⟩
  have hbits : ∀ b : Byte, dataBits (0#8 :: b :: rest) = bits 8 0#8 ++ (bits 8 b ++ dataBits rest) :=
    fun _ => rfl
  rw [hbits, hbits]
  rcases hj with hlt | hge
  · rw [List.getElem?_append_left (by exact hlt), List.getElem?_append_left (by exact hlt)]
  · have hlength : ∀ b : Byte, (bits 8 b).length = 8 := fun _ => rfl
    rw [List.getElem?_append_right (by simp only [hlength]; omega),
      List.getElem?_append_right (by simp only [hlength]; omega),
      List.getElem?_append_right (by simp only [hlength]; omega),
      List.getElem?_append_right (by simp only [hlength]; omega)]
    rfl

end Htmsql.Sysbench
