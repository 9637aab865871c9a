import JunctionBox.Util.BitVector
import Mathlib.Data.Fintype.Card
import Mathlib.Data.Fintype.EquivFin
import Mathlib.Order.SymmDiff
import Mathlib.Tactic.IntervalCases

/-!
# Bit vectors as finite sets

A bit vector of size `n` stands for a `Finset (Fin n)`, and its operations are
the set operations, whatever the padding bits of the last byte hold.

`BV_INIT_FILL` is the exception.  `BitVector_Create` writes `SCHAR_MAX`, which
is `0x7F`, into every byte, so a filled vector lacks every eighth index and is
the full set for sizes up to seven only.
-/

namespace JunctionBox

namespace BitVector

variable {size : ℕ}

@[simp] theorem on_not (this : BitVector size) {index : ℕ} (h : index < size) :
    this.not.on index = !this.on index := by
  have hthis := this.div_lt_length_bits h
  have hmod : index % charBit < 8 := mod_charBit_lt index
  simp [on_eq_getLsbD, not, List.getD_eq_getElem?_getD, List.getElem?_map,
    List.getElem?_eq_getElem hthis, hmod]

theorem on_setBitOff (this : BitVector size) {i : ℕ} (hi : i < size) (index : ℕ) :
    (this.setBitOff i).on index = (!decide (i = index) && this.on index) := by
  have hbit : ∀ (b : BitVec 8) (j : ℕ), j < 8 → (b &&& ~~~(1#8 <<< (i % charBit))).getLsbD j =
      if i % charBit = j then false else b.getLsbD j := by
    intro b j hj
    rw [BitVec.getLsbD_and, BitVec.getLsbD_not, ← BitVec.twoPow_eq, BitVec.getLsbD_twoPow]
    by_cases heq : i % charBit = j
    · simp [heq, hj]
    · simp [heq, hj]
  rw [setBitOff, on_modifyByte this hi (g := fun _ => false) hbit]
  by_cases h : i = index <;> simp [h]

/-! ## The set of indices -/

/-- The set a vector stands for. -/
def set (this : BitVector size) : Finset (Fin size) := {i | this.on i = true}

@[simp] theorem mem_set {this : BitVector size} {i : Fin size} :
    i ∈ this.set ↔ this.on i = true := by
  simp [set]

theorem getBit_ne_zero (this : BitVector size) (i : ℕ) :
    this.getBit i ≠ 0 ↔ this.on i = true := by
  rw [on, bne_iff_ne]

@[simp] theorem set_create : (create size false).set = ∅ := by
  ext i
  simp

@[simp] theorem set_and (this other : BitVector size) :
    (this.and other).set = this.set ∩ other.set := by
  ext i
  simp

@[simp] theorem set_or (this other : BitVector size) :
    (this.or other).set = this.set ∪ other.set := by
  ext i
  simp

@[simp] theorem set_xor (this other : BitVector size) :
    (this.xor other).set = symmDiff this.set other.set := by
  ext i
  rw [Finset.mem_symmDiff]
  simp only [mem_set, on_xor _ _ i.isLt]
  cases this.on i <;> cases other.on i <;> decide

@[simp] theorem set_not (this : BitVector size) : this.not.set = this.setᶜ := by
  ext i
  simp

@[simp] theorem set_setBitOn (this : BitVector size) (i : Fin size) :
    (this.setBitOn i).set = insert i this.set := by
  ext j
  rw [mem_set, on_setBitOn _ i.isLt, Bool.or_eq_true, decide_eq_true_eq, Finset.mem_insert, mem_set,
    Fin.ext_iff, eq_comm]

@[simp] theorem set_setBitOff (this : BitVector size) (i : Fin size) :
    (this.setBitOff i).set = this.set.erase i := by
  ext j
  rw [mem_set, on_setBitOff _ i.isLt, Bool.and_eq_true, Bool.not_eq_true', decide_eq_false_iff_not,
    Finset.mem_erase, mem_set, ne_comm, Ne, Fin.ext_iff]

/-- `BitVector_Equals` decides whether two vectors stand for one set. -/
theorem equals_iff_set_eq (this other : BitVector size) :
    this.equals other = true ↔ this.set = other.set := by
  rw [equals_iff, Finset.ext_iff]
  refine ⟨fun h i => by rw [mem_set, mem_set, h i i.isLt], fun h index hindex => ?_⟩
  rw [Bool.eq_iff_iff]
  simpa using h ⟨index, hindex⟩

/-- `BitVector_GetNumOnBits` is the size of the set. -/
theorem getNumOnBits_eq_card (this : BitVector size) : this.getNumOnBits = this.set.card := by
  have hmap : this.onIndices =
      ((List.finRange size).filter fun i : Fin size => this.on i).map Fin.val := by
    rw [onIndices, ← List.map_coe_finRange_eq_range, List.filter_map]
    rfl
  have hset : this.set = ((List.finRange size).filter fun i : Fin size => this.on i).toFinset := by
    ext i
    simp
  rw [getNumOnBits_eq, hmap, List.length_map, hset,
    List.toFinset_card_of_nodup ((List.nodup_finRange size).filter _)]

/-- The test of `VariableSet_ContainedIn`. -/
theorem equals_and_iff (this other : BitVector size) :
    this.equals (this.and other) = true ↔ this.set ⊆ other.set := by
  rw [equals_iff_set_eq, set_and, eq_comm, Finset.inter_eq_left]

/-- The test of `ElimSet_Contains` and `VertexSet_Contains`. -/
theorem equals_and_iff' (this other : BitVector size) :
    other.equals (this.and other) = true ↔ other.set ⊆ this.set := by
  rw [equals_iff_set_eq, set_and, eq_comm, Finset.inter_eq_right]

/-! ## `BV_INIT_FILL` -/

/-- `SCHAR_MAX` leaves the last bit of every byte off. -/
theorem on_create_fill {index : ℕ} (h : index < size) :
    (create size true).on index = decide (index % charBit < 7) := by
  have hbyte : index / charBit < numBytes size := by
    unfold numBytes charBit
    omega
  rw [on_eq_getLsbD, create, List.getD_eq_getElem?_getD, List.getElem?_replicate, if_pos hbyte]
  have hmod := mod_charBit_lt index
  generalize index % charBit = j at hmod ⊢
  unfold charBit at hmod
  interval_cases j <;> rfl

/-- A filled vector is the complement of an empty one: it is equal to it, every bit is on and
counted, and it changes no vector under `BitVector_And`. -/
def FilledIsComplement (size : ℕ) : Prop :=
  (create size true).equals (create size false).not = true ∧
    (∀ index < size, (create size true).getBit index ≠ 0) ∧
    (create size true).getNumOnBits = size ∧
    ∀ v : BitVector size, ((create size true).and v).equals v = true

/-- All of it comes down to the set of a filled vector. -/
theorem filledIsComplement_iff :
    FilledIsComplement size ↔ (create size true).set = Finset.univ := by
  constructor
  · rintro ⟨hequals, -⟩
    rwa [equals_iff_set_eq, set_not, set_create, Finset.compl_empty] at hequals
  · intro h
    refine ⟨?_, fun index hindex => ?_, ?_, fun v => ?_⟩
    · rw [equals_iff_set_eq, set_not, set_create, Finset.compl_empty, h]
    · have hmem : (⟨index, hindex⟩ : Fin size) ∈ (create size true).set := h ▸ Finset.mem_univ _
      exact (getBit_ne_zero _ _).mpr (mem_set.mp hmem)
    · rw [getNumOnBits_eq_card, h, Finset.card_univ, Fintype.card_fin]
    · rw [equals_iff_set_eq, set_and, h, Finset.univ_inter]

/-- A vector filled on creation is full exactly when it does not reach the last bit of its first
byte. -/
theorem filledIsComplement_iff_le (size : ℕ) : FilledIsComplement size ↔ size ≤ 7 := by
  rw [filledIsComplement_iff, Finset.eq_univ_iff_forall]
  constructor
  · intro h
    by_contra hlt
    have hon : (create size true).on 7 = true := mem_set.mp (h ⟨7, by omega⟩)
    rw [on_create_fill (by omega)] at hon
    exact absurd hon (by decide)
  · intro h i
    have hmod : (i : ℕ) % charBit = i := Nat.mod_eq_of_lt (by unfold charBit; omega)
    rw [mem_set, on_create_fill i.isLt, decide_eq_true_eq, hmod]
    omega

theorem not_filledIsComplement_eight : ¬ FilledIsComplement 8 :=
  fun h => h.2.1 7 (by decide) (by decide)

end BitVector

end JunctionBox
