import JunctionBox.Foundations.MixedRadix

/-!
# Bit vectors

`BitVector.c` stores a set of indices below `size` in an array of
`ceil(size / CHAR_BIT)` bytes, bit `i % CHAR_BIT` of byte `i / CHAR_BIT` standing
for index `i`.  The last byte has padding bits whenever `size` is not a multiple
of eight; no reader may depend on them.

The size is a type parameter here.  The source asserts that the two operands of
a binary operation have the same size, so the operations are typed accordingly.

Everything above this file uses bit vectors through `on`, the truth value of
`BitVector_GetBit`, and the `on_*` lemmas below.  The nested byte-and-bit loops
of `BitVector_GetNumOnBits` and `check_vector` are unrolled once and for all in
`bitPositions_map_index`.
-/

namespace JunctionBox

/-- `CHAR_BIT`. -/
abbrev charBit : ℕ := 8

/-- `ceil(size / (double)CHAR_BIT)`. -/
def numBytes (size : ℕ) : ℕ := (size + 7) / charBit

/-- `struct bit_vector_t`, with the byte array of the length `BitVector_Create`
allocates. -/
structure BitVector (size : ℕ) where
  bits : List (BitVec 8)
  length_bits : bits.length = numBytes size
deriving DecidableEq

namespace BitVector

variable {size : ℕ}

/-- `BitVector_Create`: `SCHAR_MAX` in every byte under `BV_INIT_FILL`, zero
otherwise. -/
def create (size : ℕ) (fill : Bool) : BitVector size where
  bits := List.replicate (numBytes size) (if fill then 127#8 else 0#8)
  length_bits := List.length_replicate ..

/-- The byte-wise binary operations share one loop. -/
def zipBytes (f : BitVec 8 → BitVec 8 → BitVec 8) (this other : BitVector size) :
    BitVector size where
  bits := List.zipWith f this.bits other.bits
  length_bits := by simp [this.length_bits, other.length_bits]

/-- `BitVector_And`. -/
def and (this other : BitVector size) : BitVector size := zipBytes (· &&& ·) this other

/-- `BitVector_Or`. -/
def or (this other : BitVector size) : BitVector size := zipBytes (· ||| ·) this other

/-- `BitVector_Xor`. -/
def xor (this other : BitVector size) : BitVector size := zipBytes (· ^^^ ·) this other

/-- `BitVector_Not`. -/
def not (this : BitVector size) : BitVector size where
  bits := this.bits.map (~~~ ·)
  length_bits := by simp [this.length_bits]

/-- `BitVector_GetBit`: the masked byte, a nonzero `char` when the bit is on. -/
def getBit (this : BitVector size) (index : ℕ) : BitVec 8 :=
  this.bits.getD (index / charBit) 0 &&& (1#8 <<< (index % charBit))

/-- The truth value of `BitVector_GetBit` in the source's conditions. -/
def on (this : BitVector size) (index : ℕ) : Bool := this.getBit index != 0

/-- The byte update shared by `BitVector_SetBitOn` and `BitVector_SetBitOff`. -/
def modifyByte (this : BitVector size) (mjrIndex : ℕ) (f : BitVec 8 → BitVec 8) :
    BitVector size where
  bits := this.bits.modify mjrIndex f
  length_bits := by simp [this.length_bits]

/-- `BitVector_SetBitOn`. -/
def setBitOn (this : BitVector size) (index : ℕ) : BitVector size :=
  this.modifyByte (index / charBit) (· ||| (1#8 <<< (index % charBit)))

/-- `BitVector_SetBitOff`. -/
def setBitOff (this : BitVector size) (index : ℕ) : BitVector size :=
  this.modifyByte (index / charBit) (· &&& ~~~(1#8 <<< (index % charBit)))

/-- The byte and bit numbers `(i, j)` visited by the nested loops
`i * CHAR_BIT < size`, `j < CHAR_BIT && i * CHAR_BIT + j < size`. -/
def bitPositions (size : ℕ) : List (ℕ × ℕ) :=
  (List.range (numBytes size)).flatMap fun i =>
    ((List.range charBit).filter fun j => i * charBit + j < size).map fun j => (i, j)

/-- `data & (1 << j)` for byte `i`. -/
def maskedByte (this : BitVector size) (position : ℕ × ℕ) : BitVec 8 :=
  this.bits.getD position.1 0 &&& (1#8 <<< position.2)

/-- `BitVector_GetNumOnBits`. -/
def getNumOnBits (this : BitVector size) : ℕ :=
  ((bitPositions size).map fun position => if this.maskedByte position != 0 then 1 else 0).sum

/-- `check_vector`: every masked bit equals `value`. -/
def checkVector (this : BitVector size) (value : BitVec 8) : Bool :=
  (bitPositions size).all fun position => this.maskedByte position == value

/-- `BitVector_Equals`. -/
def equals (this other : BitVector size) : Bool := (this.xor other).checkVector 0

/-- The indices that are on, in the order in which the loops
`for(i = 0; i < size; i++) if(BitVector_GetBit(bv, i))` meet them. -/
def onIndices (this : BitVector size) : List ℕ := (List.range size).filter this.on

theorem mem_onIndices {this : BitVector size} {index : ℕ} :
    index ∈ this.onIndices ↔ index < size ∧ this.on index = true := by
  simp [onIndices]

theorem onIndices_sorted (this : BitVector size) : this.onIndices.Pairwise (· < ·) :=
  List.pairwise_lt_range.filter _

theorem onIndices_nodup (this : BitVector size) : this.onIndices.Nodup :=
  this.onIndices_sorted.imp fun h => h.ne

/-! ## Single bits -/

theorem masked_ne_zero (byte : BitVec 8) {j : ℕ} (hj : j < charBit) :
    (byte &&& (1#8 <<< j) != 0) = byte.getLsbD j := by
  rw [← BitVec.twoPow_eq, BitVec.and_twoPow]
  have hpow : BitVec.twoPow 8 j ≠ 0#8 := by
    intro heq
    have hbit := BitVec.getLsbD_twoPow (w := 8) j j
    rw [heq] at hbit
    simp [hj] at hbit
  cases byte.getLsbD j <;> simp [hpow]

theorem mod_charBit_lt (index : ℕ) : index % charBit < charBit :=
  Nat.mod_lt _ (by decide)

theorem on_eq_getLsbD (this : BitVector size) (index : ℕ) :
    this.on index = (this.bits.getD (index / charBit) 0).getLsbD (index % charBit) :=
  masked_ne_zero _ (mod_charBit_lt index)

theorem div_lt_length_bits (this : BitVector size) {index : ℕ} (h : index < size) :
    index / charBit < this.bits.length := by
  rw [this.length_bits, numBytes]
  unfold charBit
  omega

@[simp] theorem on_create (index : ℕ) : (create size false).on index = false := by
  rw [on_eq_getLsbD, create, List.getD_eq_getElem?_getD, List.getElem?_replicate]
  split <;> simp

theorem on_zipBytes (f : BitVec 8 → BitVec 8 → BitVec 8) (g : Bool → Bool → Bool)
    (hf : ∀ (x y : BitVec 8) (j : ℕ), j < charBit →
      (f x y).getLsbD j = g (x.getLsbD j) (y.getLsbD j))
    (this other : BitVector size) {index : ℕ} (h : index < size) :
    (zipBytes f this other).on index = g (this.on index) (other.on index) := by
  have hthis := this.div_lt_length_bits h
  have hother := other.div_lt_length_bits h
  simp only [on_eq_getLsbD, zipBytes, List.getD_eq_getElem?_getD, List.getElem?_zipWith,
    List.getElem?_eq_getElem hthis, List.getElem?_eq_getElem hother, Option.getD_some]
  exact hf _ _ _ (mod_charBit_lt index)

@[simp] theorem on_and (this other : BitVector size) {index : ℕ} (h : index < size) :
    (this.and other).on index = (this.on index && other.on index) :=
  on_zipBytes _ (· && ·) (by simp) this other h

@[simp] theorem on_or (this other : BitVector size) {index : ℕ} (h : index < size) :
    (this.or other).on index = (this.on index || other.on index) :=
  on_zipBytes _ (· || ·) (by simp) this other h

@[simp] theorem on_xor (this other : BitVector size) {index : ℕ} (h : index < size) :
    (this.xor other).on index = (this.on index ^^ other.on index) :=
  on_zipBytes _ (· ^^ ·) (by simp) this other h

theorem xor_comm (this other : BitVector size) : this.xor other = other.xor this := by
  have hbits : List.zipWith (· ^^^ ·) this.bits other.bits =
      List.zipWith (· ^^^ ·) other.bits this.bits :=
    List.zipWith_comm_of_comm BitVec.xor_comm
  unfold xor zipBytes
  simp only [hbits]

/-- A write to the bit `i` of its byte is a write to the index `i`. -/
theorem on_modifyByte (this : BitVector size) {i : ℕ} (hi : i < size) {f : BitVec 8 → BitVec 8}
    {g : Bool → Bool} (hf : ∀ (b : BitVec 8) (j : ℕ), j < 8 →
      (f b).getLsbD j = if i % charBit = j then g (b.getLsbD j) else b.getLsbD j) (index : ℕ) :
    (this.modifyByte (i / charBit) f).on index =
      if i = index then g (this.on index) else this.on index := by
  simp only [on_eq_getLsbD, modifyByte, List.getD_eq_getElem?_getD, List.getElem?_modify]
  by_cases hbyte : i / charBit = index / charBit
  · have hindex : index / charBit < this.bits.length := hbyte ▸ this.div_lt_length_bits hi
    have hbits : (i % charBit = index % charBit) ↔ i = index := by
      unfold charBit at hbyte ⊢
      omega
    simp only [hbyte, if_true, List.getElem?_eq_getElem hindex, Option.map_eq_map,
      Option.map_some, Option.getD_some, hf _ _ (mod_charBit_lt index), hbits]
  · have hne : i ≠ index := fun h => hbyte (by rw [h])
    simp [hbyte, hne]

theorem on_setBitOn (this : BitVector size) {i : ℕ} (hi : i < size) (index : ℕ) :
    (this.setBitOn i).on index = (decide (i = index) || this.on index) := by
  have hbit : ∀ (b : BitVec 8) (j : ℕ), j < 8 → (b ||| 1#8 <<< (i % charBit)).getLsbD j =
      if i % charBit = j then true else b.getLsbD j := by
    intro b j hj
    rw [BitVec.getLsbD_or, ← BitVec.twoPow_eq, BitVec.getLsbD_twoPow]
    by_cases heq : i % charBit = j
    · simp [heq, hj]
    · simp [heq]
  rw [setBitOn, on_modifyByte this hi (g := fun _ => true) hbit]
  by_cases h : i = index <;> simp [h]

/-! ## The nested loops -/

/-- The nested loops visit the indices below `size` in increasing order. -/
theorem bitPositions_map_index (size : ℕ) :
    (bitPositions size).map (fun position => position.1 * charBit + position.2) =
      List.range size := by
  have hall : size ≤ numBytes size * charBit := by
    unfold numBytes charBit
    omega
  have hrange : List.range size = (List.range (numBytes size * charBit)).filter (· < size) := by
    obtain ⟨extra, hextra⟩ := Nat.exists_eq_add_of_le hall
    rw [hextra, List.range_add, List.filter_append]
    have hlow : (List.range size).filter (· < size) = List.range size :=
      List.filter_eq_self.mpr fun k hk => by simpa using hk
    have hhigh : ((List.range extra).map (size + ·)).filter (· < size) = [] :=
      List.filter_eq_nil_iff.mpr fun k hk => by
        obtain ⟨d, -, rfl⟩ := List.mem_map.mp hk
        simp
    rw [hlow, hhigh, List.append_nil]
  rw [hrange, ← MixedRadix.flatMap_range_mul, List.filter_flatMap, bitPositions, List.map_flatMap]
  congr 1
  funext i
  rw [List.map_map, List.filter_map]
  rfl

theorem mem_bitPositions {position : ℕ × ℕ} (h : position ∈ bitPositions size) :
    position.2 < charBit ∧ position.1 * charBit + position.2 < size := by
  simp only [bitPositions, List.mem_flatMap, List.mem_map, List.mem_filter, List.mem_range,
    decide_eq_true_eq] at h
  obtain ⟨i, -, j, ⟨hj, hlt⟩, rfl⟩ := h
  exact ⟨hj, hlt⟩

theorem maskedByte_ne_zero (this : BitVector size) {position : ℕ × ℕ}
    (h : position.2 < charBit) :
    (this.maskedByte position != 0) = this.on (position.1 * charBit + position.2) := by
  have hdiv : (position.1 * charBit + position.2) / charBit = position.1 := by
    unfold charBit at h ⊢
    omega
  have hmod : (position.1 * charBit + position.2) % charBit = position.2 := by
    unfold charBit at h ⊢
    omega
  rw [on, getBit, hdiv, hmod, maskedByte]

/-- `BitVector_GetNumOnBits` counts the indices below `size` that are on. -/
theorem getNumOnBits_eq (this : BitVector size) :
    this.getNumOnBits = this.onIndices.length := by
  rw [onIndices, getNumOnBits, ← bitPositions_map_index, ← List.countP_eq_length_filter,
    List.countP_map]
  have hmap : ((bitPositions size).map fun position =>
      if this.maskedByte position != 0 then 1 else 0) =
      (bitPositions size).map fun position =>
        if this.on (position.1 * charBit + position.2) then 1 else 0 := by
    refine List.map_congr_left fun position hposition => ?_
    rw [this.maskedByte_ne_zero (mem_bitPositions hposition).1]
  rw [hmap]
  generalize bitPositions size = positions
  induction positions with
  | nil => rfl
  | cons position rest ih =>
      simp only [List.map_cons, List.sum_cons, ih, List.countP_cons, Function.comp_apply]
      exact Nat.add_comm _ _

/-- `check_vector(bv, 0)` finds no bit on below `size`. -/
theorem checkVector_zero (this : BitVector size) :
    this.checkVector 0 = true ↔ ∀ index < size, this.on index = false := by
  have hforall : this.checkVector 0 = true ↔
      ∀ position ∈ bitPositions size,
        this.on (position.1 * charBit + position.2) = false := by
    rw [checkVector, List.all_eq_true]
    refine forall₂_congr fun position hposition => ?_
    rw [← this.maskedByte_ne_zero (mem_bitPositions hposition).1]
    simp
  rw [hforall]
  constructor
  · intro h index hindex
    have hmem : index ∈ (bitPositions size).map
        (fun position => position.1 * charBit + position.2) := by
      rw [bitPositions_map_index]
      exact List.mem_range.mpr hindex
    obtain ⟨position, hposition, rfl⟩ := List.mem_map.mp hmem
    exact h position hposition
  · intro h position hposition
    exact h _ (mem_bitPositions hposition).2

/-- `BitVector_Equals` compares the bits below `size`, whatever the padding. -/
theorem equals_iff (this other : BitVector size) :
    this.equals other = true ↔ ∀ index < size, this.on index = other.on index := by
  rw [equals, checkVector_zero]
  refine forall₂_congr fun index hindex => ?_
  rw [on_xor _ _ hindex]
  cases this.on index <;> cases other.on index <;> simp

end BitVector

end JunctionBox
