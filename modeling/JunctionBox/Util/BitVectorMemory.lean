import JunctionBox.Foundations.PartialLoops
import JunctionBox.Util.BitSets

/-!
# Bit vectors in memory

The operations of `BitVector.c` get pointers.  Under `BV_OP_IN_PLACE` the result
is written over the first operand, one byte after the other while both operands
are still being read, and the two operands may be the same vector.

`combine_eq` and `not_eq` say that this makes no difference: the bytes written
are those of the value operation, put in the place of the first operand or
behind the vectors there are.  So the memory of bit vectors refines a memory of
finite sets (`runs_refine`).
-/

namespace JunctionBox

/-- A `struct bit_vector_t`, with its size. -/
abbrev SizedVector := (size : ℕ) × BitVector size

/-- The bit vectors in memory; a `BitVector *` is a position. -/
abbrev VectorMemory := List SizedVector

/-- Where the result of an operation on `this` goes: over `this` itself, or behind everything
there is.  The pointer to it comes along. -/
def place {α : Type} (memory : List α) (this : ℕ) (inPlace : Bool) (result : α) : List α × ℕ :=
  if inPlace then (memory.set this result, this) else (memory ++ [result], memory.length)

namespace VectorMemory

/-- `this->bits[i]`. -/
def getByte (memory : VectorMemory) (this i : ℕ) : Option (BitVec 8) := do
  let v ← memory[this]?
  v.2.bits[i]?

/-- `this->bits[i] = data`. -/
def setByte (memory : VectorMemory) (this i : ℕ) (data : BitVec 8) : Option VectorMemory := do
  let v ← memory[this]?
  if i < numBytes v.1 then some (memory.set this ⟨v.1, v.2.modifyByte i fun _ => data⟩) else none

/-- `BitVector_Create` without a fill, with the pointer it returns. -/
def create (memory : VectorMemory) (size : ℕ) : VectorMemory × ℕ :=
  (memory ++ [⟨size, BitVector.create size false⟩], memory.length)

/-- `get_bit_vector_ret`. -/
def getBitVectorRet (memory : VectorMemory) (this : ℕ) (inPlace : Bool) :
    Option (VectorMemory × ℕ) := do
  if inPlace then return (memory, this)
  let v ← memory[this]?
  return create memory v.1

/-- `for(i = 0; i < numBytes; i++) ret->bits[i] = data(i)`. -/
def writeBytes (ret : ℕ) (data : VectorMemory → ℕ → Option (BitVec 8)) (numBytes : ℕ)
    (memory : VectorMemory) : Option VectorMemory :=
  (List.range numBytes).foldlM (fun memory i => do
    let byte ← data memory i
    setByte memory ret i byte) memory

/-- The body `BitVector_And`, `BitVector_Or` and `BitVector_Xor` share, with the assertion that
the sizes are equal. -/
def combine (f : BitVec 8 → BitVec 8 → BitVec 8) (memory : VectorMemory) (this other : ℕ)
    (inPlace : Bool) : Option (VectorMemory × ℕ) := do
  let v ← memory[this]?
  let w ← memory[other]?
  let ret ← getBitVectorRet memory this inPlace
  if v.1 = w.1 then
    let memory ← writeBytes ret.2 (fun memory i => do
      let x ← getByte memory this i
      let y ← getByte memory other i
      return f x y) (numBytes v.1) ret.1
    return (memory, ret.2)
  else none

/-- `BitVector_And`. -/
def and (memory : VectorMemory) (this other : ℕ) (inPlace : Bool) : Option (VectorMemory × ℕ) :=
  combine (· &&& ·) memory this other inPlace

/-- `BitVector_Or`. -/
def or (memory : VectorMemory) (this other : ℕ) (inPlace : Bool) : Option (VectorMemory × ℕ) :=
  combine (· ||| ·) memory this other inPlace

/-- `BitVector_Xor`. -/
def xor (memory : VectorMemory) (this other : ℕ) (inPlace : Bool) : Option (VectorMemory × ℕ) :=
  combine (· ^^^ ·) memory this other inPlace

/-- `BitVector_Not`. -/
def not (memory : VectorMemory) (this : ℕ) (inPlace : Bool) : Option (VectorMemory × ℕ) := do
  let v ← memory[this]?
  let ret ← getBitVectorRet memory this inPlace
  let memory ← writeBytes ret.2 (fun memory i => do
    let x ← getByte memory this i
    return ~~~x) (numBytes v.1) ret.1
  return (memory, ret.2)

/-- The body `BitVector_SetBitOn` and `BitVector_SetBitOff` share, with the assertion that the
index is in range. -/
def changeBit (memory : VectorMemory) (this index : ℕ) (f : BitVec 8 → BitVec 8) :
    Option VectorMemory := do
  let v ← memory[this]?
  if index < v.1 then
    let data ← getByte memory this (index / charBit)
    setByte memory this (index / charBit) (f data)
  else none

/-- `BitVector_SetBitOn`. -/
def setBitOn (memory : VectorMemory) (this index : ℕ) : Option VectorMemory :=
  changeBit memory this index (· ||| (1#8 <<< (index % charBit)))

/-- `BitVector_SetBitOff`. -/
def setBitOff (memory : VectorMemory) (this index : ℕ) : Option VectorMemory :=
  changeBit memory this index (· &&& ~~~(1#8 <<< (index % charBit)))

/-- `BitVector_GetBit`. -/
def getBit (memory : VectorMemory) (this index : ℕ) : Option (BitVec 8) := do
  let v ← memory[this]?
  if index < v.1 then some (v.2.getBit index) else none

/-- `BitVector_GetNumOnBits`. -/
def getNumOnBits (memory : VectorMemory) (this : ℕ) : Option ℕ := do
  let v ← memory[this]?
  return v.2.getNumOnBits

/-- `BitVector_Equals`; the vector of the differences is destroyed again. -/
def equals (memory : VectorMemory) (this other : ℕ) : Option Bool := do
  let test ← xor memory this other false
  let v ← test.1[test.2]?
  return v.2.checkVector 0

/-- The body of `VariableSet_ContainedIn`. -/
def containedIn (memory : VectorMemory) (this other : ℕ) : Option Bool := do
  let test ← and memory this other false
  equals test.1 this test.2

/-- The body of `ElimSet_Contains` and `VertexSet_Contains`. -/
def contains (memory : VectorMemory) (this other : ℕ) : Option Bool := do
  let test ← and memory this other false
  equals test.1 other test.2

end VectorMemory

/-- A call that creates or changes a vector. -/
inductive VectorCall
  | create (size : ℕ)
  | setBitOn (this index : ℕ)
  | setBitOff (this index : ℕ)
  | and (this other : ℕ) (inPlace : Bool)
  | or (this other : ℕ) (inPlace : Bool)
  | xor (this other : ℕ) (inPlace : Bool)
  | not (this : ℕ) (inPlace : Bool)

namespace VectorCall

/-- What a call makes of the memory. -/
def run (memory : VectorMemory) : VectorCall → Option VectorMemory
  | create size => some (memory.create size).1
  | setBitOn this index => memory.setBitOn this index
  | setBitOff this index => memory.setBitOff this index
  | and this other inPlace => (memory.and this other inPlace).map Prod.fst
  | or this other inPlace => (memory.or this other inPlace).map Prod.fst
  | xor this other inPlace => (memory.xor this other inPlace).map Prod.fst
  | not this inPlace => (memory.not this inPlace).map Prod.fst

end VectorCall

/-! ## The memory of finite sets -/

/-- A set of indices below a size. -/
abbrev SizedSet := (size : ℕ) × Finset (Fin size)

/-- The set a vector in memory stands for. -/
def SizedVector.set (v : SizedVector) : SizedSet := ⟨v.1, v.2.set⟩

/-- The sets in memory. -/
abbrev SetMemory := List SizedSet

namespace SetMemory

/-- An operation on two sets of one size. -/
def combine (f : ∀ size, Finset (Fin size) → Finset (Fin size) → Finset (Fin size))
    (memory : SetMemory) (this other : ℕ) (inPlace : Bool) : Option SetMemory := do
  let s ← memory[this]?
  let t ← memory[other]?
  if h : s.1 = t.1 then some (place memory this inPlace ⟨s.1, f s.1 s.2 (h ▸ t.2)⟩).1 else none

/-- A change at one index of a set. -/
def change (f : ∀ size, Fin size → Finset (Fin size) → Finset (Fin size)) (memory : SetMemory)
    (this index : ℕ) : Option SetMemory := do
  let s ← memory[this]?
  if h : index < s.1 then some (memory.set this ⟨s.1, f s.1 ⟨index, h⟩ s.2⟩) else none

end SetMemory

/-- What a call is for. -/
def VectorCall.runSets (memory : SetMemory) : VectorCall → Option SetMemory
  | create size => some (memory ++ [⟨size, ∅⟩])
  | setBitOn this index => memory.change (fun _ i s => insert i s) this index
  | setBitOff this index => memory.change (fun _ i s => s.erase i) this index
  | and this other inPlace => memory.combine (fun _ s t => s ∩ t) this other inPlace
  | or this other inPlace => memory.combine (fun _ s t => s ∪ t) this other inPlace
  | xor this other inPlace => memory.combine (fun _ s t => symmDiff s t) this other inPlace
  | not this inPlace => do
      let s ← memory[this]?
      return (place memory this inPlace ⟨s.1, s.2ᶜ⟩).1

/-! ## What the loops write -/

namespace VectorMemory

variable {memory : VectorMemory} {this other n : ℕ} {v w : BitVector n}

theorem getByte_eq (h : memory[this]? = some ⟨n, v⟩) (i : ℕ) :
    getByte memory this i = v.bits[i]? := by
  simp [getByte, h]

theorem setByte_eq (h : memory[this]? = some ⟨n, v⟩) {i : ℕ} (hi : i < numBytes n)
    (data : BitVec 8) :
    setByte memory this i data = some (memory.set this ⟨n, v.modifyByte i fun _ => data⟩) := by
  simp [setByte, h, hi]

theorem getElem?_modifyByte (v : BitVector n) (k j : ℕ) (data : BitVec 8) :
    (v.modifyByte k fun _ => data).bits[j]? =
      if k = j then v.bits[j]?.map fun _ => data else v.bits[j]? := by
  rw [BitVector.modifyByte, List.getElem?_modify]
  by_cases h : k = j
  · simp [h]
  · simp [h]

/-- Two vectors of one size are the same when all of their bytes are. -/
theorem eq_of_bits_eq (h : ∀ j < numBytes n, v.bits[j]? = w.bits[j]?) : v = w := by
  have hbits : v.bits = w.bits := by
    refine List.ext_getElem? fun j => ?_
    by_cases hj : j < numBytes n
    · exact h j hj
    · rw [List.getElem?_eq_none (by rw [v.length_bits]; omega),
        List.getElem?_eq_none (by rw [w.length_bits]; omega)]
  cases v
  cases w
  simpa using hbits

theorem set_getElem? (h : memory[this]? = some ⟨n, v⟩) : memory.set this ⟨n, v⟩ = memory := by
  obtain ⟨hlt, hcell⟩ := List.getElem?_eq_some_iff.mp h
  rw [← hcell, List.set_getElem_self]

theorem getElem?_set_self (h : memory[this]? = some ⟨n, v⟩) (cell : SizedVector) :
    (memory.set this cell)[this]? = some cell := by
  have hlt : this < memory.length := (List.getElem?_eq_some_iff.mp h).1
  rw [List.getElem?_set_self hlt]

/-- The loop over the bytes of `ret`, when `data` reads what it needs although the bytes before
its own have been written. -/
theorem writeBytes_eq {ret : ℕ} {r : BitVector n} (hret : memory[ret]? = some ⟨n, r⟩)
    {data : VectorMemory → ℕ → Option (BitVec 8)} (result : BitVector n)
    (hdata : ∀ i < numBytes n, ∀ r' : BitVector n, (∀ j, i ≤ j → r'.bits[j]? = r.bits[j]?) →
      data (memory.set ret ⟨n, r'⟩) i = result.bits[i]?) :
    writeBytes ret data (numBytes n) memory = some (memory.set ret ⟨n, result⟩) := by
  -- after `k` rounds the first `k` bytes are those of the result
  have hrounds : ∀ k ≤ numBytes n, ∃ r' : BitVector n,
      writeBytes ret data k memory = some (memory.set ret ⟨n, r'⟩) ∧
      (∀ j < k, r'.bits[j]? = result.bits[j]?) ∧ ∀ j, k ≤ j → r'.bits[j]? = r.bits[j]? := by
    intro k
    induction k with
    | zero =>
        intro _
        refine ⟨r, ?_, fun j hj => absurd hj (Nat.not_lt_zero j), fun _ _ => rfl⟩
        rw [set_getElem? hret]
        rfl
    | succ k ih =>
        intro hk
        obtain ⟨r', hrun, hwritten, hrest⟩ := ih (Nat.le_of_succ_le hk)
        have hbyte : k < result.bits.length := by rw [result.length_bits]; exact hk
        have hk' : k < r'.bits.length := by rw [r'.length_bits]; exact hk
        refine ⟨r'.modifyByte k fun _ => result.bits[k], ?_, fun j hj => ?_, fun j hj => ?_⟩
        · unfold writeBytes at hrun ⊢
          rw [List.range_succ, List.foldlM_append, hrun]
          simp only [Option.bind_eq_bind, Option.bind_some, List.foldlM_cons, List.foldlM_nil,
            hdata k hk r' hrest, List.getElem?_eq_getElem hbyte,
            setByte_eq (getElem?_set_self hret _) hk, List.set_set]
          rfl
        · rw [getElem?_modifyByte]
          rcases Nat.lt_succ_iff_lt_or_eq.mp hj with hlt | rfl
          · rw [if_neg (by omega), hwritten j hlt]
          · rw [if_pos rfl, List.getElem?_eq_getElem hk', List.getElem?_eq_getElem hbyte]
            rfl
        · rw [getElem?_modifyByte, if_neg (by omega), hrest j (by omega)]
  obtain ⟨r', hrun, hwritten, -⟩ := hrounds (numBytes n) le_rfl
  rw [hrun, eq_of_bits_eq hwritten]

/-- The loop over the result of `get_bit_vector_ret`, likewise. -/
theorem writeBytes_getBitVectorRet (hv : memory[this]? = some ⟨n, v⟩) (inPlace : Bool)
    {data : VectorMemory → ℕ → Option (BitVec 8)} (result : BitVector n)
    (hdata : ∀ i < numBytes n, ∀ memory' : VectorMemory,
      (∀ ptr < memory.length, getByte memory' ptr i = getByte memory ptr i) →
        data memory' i = result.bits[i]?) :
    (do let ret ← getBitVectorRet memory this inPlace
        let memory' ← writeBytes ret.2 data (numBytes n) ret.1
        return (memory', ret.2)) = some (place memory this inPlace ⟨n, result⟩) := by
  cases inPlace with
  | true =>
      have hloop : writeBytes this data (numBytes n) memory =
          some (memory.set this ⟨n, result⟩) := by
        refine writeBytes_eq hv result fun i hi v' hrest => hdata i hi _ fun ptr hptr => ?_
        by_cases heq : this = ptr
        · subst heq
          rw [getByte_eq (getElem?_set_self hv _), getByte_eq hv, hrest i le_rfl]
        · rw [getByte, getByte, List.getElem?_set_ne heq]
      simp [getBitVectorRet, place, hloop]
  | false =>
      have hfresh : (memory ++ [⟨n, BitVector.create n false⟩])[memory.length]? =
          some (⟨n, BitVector.create n false⟩ : SizedVector) := List.getElem?_concat_length
      have hloop : writeBytes memory.length data (numBytes n)
          (memory ++ [⟨n, BitVector.create n false⟩]) = some (memory ++ [⟨n, result⟩]) := by
        rw [writeBytes_eq hfresh result fun i hi v' _ => hdata i hi _ fun ptr hptr => ?_]
        · simp
        · rw [getByte, getByte, List.getElem?_set_ne (by omega), List.getElem?_append_left hptr]
      simp [getBitVectorRet, create, place, hv, hloop]

/-- **`BitVector_And`, `BitVector_Or` and `BitVector_Xor`** in memory: the value operation, in place
or not, also when the operands are one vector. -/
theorem combine_eq (f : BitVec 8 → BitVec 8 → BitVec 8) (hv : memory[this]? = some ⟨n, v⟩)
    (hw : memory[other]? = some ⟨n, w⟩) (inPlace : Bool) :
    combine f memory this other inPlace =
      some (place memory this inPlace ⟨n, v.zipBytes f w⟩) := by
  have hthis : this < memory.length := (List.getElem?_eq_some_iff.mp hv).1
  have hother : other < memory.length := (List.getElem?_eq_some_iff.mp hw).1
  unfold combine
  simp only [hv, hw, Option.bind_eq_bind, Option.bind_some, if_true]
  refine writeBytes_getBitVectorRet hv inPlace (v.zipBytes f w) fun i hi memory' hbytes => ?_
  have hx : i < v.bits.length := by rw [v.length_bits]; exact hi
  have hy : i < w.bits.length := by rw [w.length_bits]; exact hi
  rw [hbytes this hthis, hbytes other hother, getByte_eq hv, getByte_eq hw, BitVector.zipBytes,
    List.getElem?_zipWith, List.getElem?_eq_getElem hx, List.getElem?_eq_getElem hy]
  rfl

theorem combine_eq_none (f : BitVec 8 → BitVec 8 → BitVec 8) {m : ℕ} {w : BitVector m}
    (hv : memory[this]? = some ⟨n, v⟩) (hw : memory[other]? = some ⟨m, w⟩) (hne : n ≠ m)
    (inPlace : Bool) : combine f memory this other inPlace = none := by
  unfold combine
  simp only [hv, hw, Option.bind_eq_bind, Option.bind_some, if_neg hne]
  exact Option.bind_fun_none _

/-- **`BitVector_Not`** in memory. -/
theorem not_eq (hv : memory[this]? = some ⟨n, v⟩) (inPlace : Bool) :
    not memory this inPlace = some (place memory this inPlace ⟨n, v.not⟩) := by
  have hthis : this < memory.length := (List.getElem?_eq_some_iff.mp hv).1
  unfold not
  simp only [hv, Option.bind_eq_bind, Option.bind_some]
  refine writeBytes_getBitVectorRet hv inPlace v.not fun i hi memory' hbytes => ?_
  have hx : i < v.bits.length := by rw [v.length_bits]; exact hi
  rw [hbytes this hthis, getByte_eq hv, BitVector.not, List.getElem?_map,
    List.getElem?_eq_getElem hx]
  rfl

theorem changeBit_eq (hv : memory[this]? = some ⟨n, v⟩) (f : BitVec 8 → BitVec 8) {index : ℕ}
    (h : index < n) :
    changeBit memory this index f =
      some (memory.set this ⟨n, v.modifyByte (index / charBit) f⟩) := by
  have hbyte := v.div_lt_length_bits h
  have hmodify : (v.modifyByte (index / charBit) fun _ => f v.bits[index / charBit]) =
      v.modifyByte (index / charBit) f := by
    refine eq_of_bits_eq fun j _ => ?_
    rw [getElem?_modifyByte, BitVector.modifyByte, List.getElem?_modify]
    by_cases hj : index / charBit = j
    · subst hj
      simp [List.getElem?_eq_getElem hbyte]
    · simp [hj]
  unfold changeBit
  simp only [hv, Option.bind_eq_bind, Option.bind_some, if_pos h, getByte_eq hv,
    List.getElem?_eq_getElem hbyte]
  rw [setByte_eq hv (by rw [← v.length_bits]; exact hbyte), hmodify]

/-! ## Refinement -/

/-- The sets the vectors in memory stand for. -/
def sets (memory : VectorMemory) : SetMemory := memory.map SizedVector.set

theorem sets_place (memory : VectorMemory) (this : ℕ) (inPlace : Bool) (v : SizedVector) :
    sets (place memory this inPlace v).1 = (place memory.sets this inPlace v.set).1 := by
  unfold sets place
  cases inPlace <;> simp

theorem combine_refines {f : BitVec 8 → BitVec 8 → BitVec 8}
    {g : ∀ size, Finset (Fin size) → Finset (Fin size) → Finset (Fin size)}
    (hset : ∀ size (v w : BitVector size), (v.zipBytes f w).set = g size v.set w.set)
    (memory : VectorMemory) (this other : ℕ) (inPlace : Bool) :
    ((combine f memory this other inPlace).map Prod.fst).map sets =
      memory.sets.combine g this other inPlace := by
  have hthis : memory.sets[this]? = memory[this]?.map SizedVector.set := List.getElem?_map ..
  have hother : memory.sets[other]? = memory[other]?.map SizedVector.set := List.getElem?_map ..
  rw [SetMemory.combine, hthis, hother]
  cases hv : memory[this]? with
  | none => simp [combine, hv]
  | some cell =>
      obtain ⟨n, v⟩ := cell
      cases hw : memory[other]? with
      | none => simp [combine, hv, hw]
      | some cell =>
          obtain ⟨m, w⟩ := cell
          by_cases hsize : n = m
          · subst hsize
            rw [combine_eq f hv hw]
            simp [sets_place, SizedVector.set, hset]
          · rw [combine_eq_none f hv hw hsize]
            simp [SizedVector.set, hsize]

theorem changeBit_refines {f : ℕ → BitVec 8 → BitVec 8}
    {g : ∀ size, Fin size → Finset (Fin size) → Finset (Fin size)}
    (hset : ∀ size (v : BitVector size) (i : Fin size),
      (v.modifyByte (i / charBit) (f i)).set = g size i v.set)
    (memory : VectorMemory) (this index : ℕ) :
    (changeBit memory this index (f index)).map sets = memory.sets.change g this index := by
  have hthis : memory.sets[this]? = memory[this]?.map SizedVector.set := List.getElem?_map ..
  rw [SetMemory.change, hthis]
  cases hv : memory[this]? with
  | none => simp [changeBit, hv]
  | some cell =>
      obtain ⟨n, v⟩ := cell
      by_cases hindex : index < n
      · rw [changeBit_eq hv _ hindex]
        have hchanged := hset n v ⟨index, hindex⟩
        simp only at hchanged
        simp [sets, SizedVector.set, hindex, hchanged]
      · simp [changeBit, hv, SizedVector.set, hindex]

theorem not_refines (memory : VectorMemory) (this : ℕ) (inPlace : Bool) :
    ((not memory this inPlace).map Prod.fst).map sets =
      VectorCall.runSets memory.sets (.not this inPlace) := by
  have hthis : memory.sets[this]? = memory[this]?.map SizedVector.set := List.getElem?_map ..
  rw [VectorCall.runSets, hthis]
  cases hv : memory[this]? with
  | none => simp [not, hv]
  | some cell =>
      obtain ⟨n, v⟩ := cell
      rw [not_eq hv]
      simp [sets_place, SizedVector.set]

/-- One call does to the sets what it is for, and fails where that is undefined. -/
theorem run_refines (memory : VectorMemory) (call : VectorCall) :
    (call.run memory).map sets = call.runSets memory.sets := by
  cases call with
  | create size => simp [VectorCall.run, VectorCall.runSets, create, sets, SizedVector.set]
  | setBitOn this index =>
      exact changeBit_refines (f := fun index byte => byte ||| (1#8 <<< (index % charBit)))
        (fun _ v i => v.set_setBitOn i) memory this index
  | setBitOff this index =>
      exact changeBit_refines (f := fun index byte => byte &&& ~~~(1#8 <<< (index % charBit)))
        (g := fun _ i s => s.erase i) (fun _ v i => v.set_setBitOff i) memory this index
  | and this other inPlace =>
      exact combine_refines (fun _ v w => v.set_and w) memory this other inPlace
  | or this other inPlace =>
      exact combine_refines (fun _ v w => v.set_or w) memory this other inPlace
  | xor this other inPlace =>
      exact combine_refines (fun _ v w => v.set_xor w) memory this other inPlace
  | not this inPlace => exact not_refines memory this inPlace

/-- **The memory of bit vectors refines the memory of finite sets**, over every run. -/
theorem runs_refine (calls : List VectorCall) (memory : VectorMemory) :
    (calls.foldlM VectorCall.run memory).map sets =
      calls.foldlM VectorCall.runSets memory.sets :=
  PartialLoops.foldlM_view run_refines calls memory

/-! ## What a caller sees -/

/-- Every vector in memory reads as its set; what the padding bits hold plays no part. -/
structure ReadsAsSets (memory : VectorMemory) : Prop where
  getBit {this n : ℕ} {v : BitVector n} (hv : memory[this]? = some ⟨n, v⟩) (i : Fin n) :
    ∃ byte, memory.getBit this i = some byte ∧ (byte ≠ 0 ↔ i ∈ v.set)
  getNumOnBits {this n : ℕ} {v : BitVector n} (hv : memory[this]? = some ⟨n, v⟩) :
    memory.getNumOnBits this = some v.set.card
  equals {this other n : ℕ} {v w : BitVector n} (hv : memory[this]? = some ⟨n, v⟩)
    (hw : memory[other]? = some ⟨n, w⟩) :
    memory.equals this other = some (decide (∀ i < n, (v.getBit i ≠ 0 ↔ w.getBit i ≠ 0)))
  containedIn {this other n : ℕ} {v w : BitVector n} (hv : memory[this]? = some ⟨n, v⟩)
    (hw : memory[other]? = some ⟨n, w⟩) :
    memory.containedIn this other = some (decide (v.set ⊆ w.set))
  contains {this other n : ℕ} {v w : BitVector n} (hv : memory[this]? = some ⟨n, v⟩)
    (hw : memory[other]? = some ⟨n, w⟩) :
    memory.contains this other = some (decide (w.set ⊆ v.set))

/-- The fresh result of an operation leaves every vector as it is, the result in place is the same
vector over `this`, and the bits of either are `bit`. -/
def Results (memory : VectorMemory) (op : Bool → Option (VectorMemory × ℕ)) (this n : ℕ)
    (bit : ℕ → Bool) : Prop :=
  ∃ r : BitVector n, op false = some (memory ++ [⟨n, r⟩], memory.length) ∧
    op true = some (memory.set this ⟨n, r⟩, this) ∧ ∀ i < n, (r.getBit i ≠ 0 ↔ bit i = true)

/-- Every operation on vectors in memory acts on the bits below the size, and so on the sets. -/
structure OperatesOnSets (memory : VectorMemory) : Prop where
  and {this other n : ℕ} {v w : BitVector n} (hv : memory[this]? = some ⟨n, v⟩)
    (hw : memory[other]? = some ⟨n, w⟩) :
    memory.Results (memory.and this other) this n fun i => v.on i && w.on i
  or {this other n : ℕ} {v w : BitVector n} (hv : memory[this]? = some ⟨n, v⟩)
    (hw : memory[other]? = some ⟨n, w⟩) :
    memory.Results (memory.or this other) this n fun i => v.on i || w.on i
  xor {this other n : ℕ} {v w : BitVector n} (hv : memory[this]? = some ⟨n, v⟩)
    (hw : memory[other]? = some ⟨n, w⟩) :
    memory.Results (memory.xor this other) this n fun i => v.on i ^^ w.on i
  not {this n : ℕ} {v : BitVector n} (hv : memory[this]? = some ⟨n, v⟩) :
    memory.Results (memory.not this) this n fun i => !v.on i
  setBitOn {this n : ℕ} {v : BitVector n} (hv : memory[this]? = some ⟨n, v⟩) (index : Fin n) :
    ∃ r : BitVector n, memory.setBitOn this index = some (memory.set this ⟨n, r⟩) ∧
      ∀ i < n, (r.getBit i ≠ 0 ↔ i = index ∨ v.on i = true)
  setBitOff {this n : ℕ} {v : BitVector n} (hv : memory[this]? = some ⟨n, v⟩) (index : Fin n) :
    ∃ r : BitVector n, memory.setBitOff this index = some (memory.set this ⟨n, r⟩) ∧
      ∀ i < n, (r.getBit i ≠ 0 ↔ i ≠ index ∧ v.on i = true)

theorem equals_eq (hv : memory[this]? = some ⟨n, v⟩) (hw : memory[other]? = some ⟨n, w⟩) :
    equals memory this other = some (v.equals w) := by
  unfold equals xor
  rw [combine_eq _ hv hw]
  simp [place, BitVector.equals, BitVector.xor]

/-- `BitVector_Equals` against the fresh conjunction of two vectors. -/
theorem equals_and (hv : memory[this]? = some ⟨n, v⟩) (hw : memory[other]? = some ⟨n, w⟩)
    {u : BitVector n} {against : ℕ} (hu : memory[against]? = some ⟨n, u⟩) :
    (do let test ← and memory this other false
        equals test.1 against test.2) = some (u.equals (v.and w)) := by
  have hlt : against < memory.length := (List.getElem?_eq_some_iff.mp hu).1
  rw [and, combine_eq _ hv hw]
  exact equals_eq (w := v.and w) ((List.getElem?_append_left hlt).trans hu)
    List.getElem?_concat_length

theorem readsAsSets (memory : VectorMemory) : memory.ReadsAsSets where
  getBit {this n v} hv i :=
    ⟨v.getBit i, by simp [getBit, hv], (v.getBit_ne_zero i).trans BitVector.mem_set.symm⟩
  getNumOnBits {this n v} hv := by
    simp [getNumOnBits, hv, v.getNumOnBits_eq_card]
  equals {this other n v w} hv hw := by
    rw [equals_eq hv hw, Option.some.injEq, Bool.eq_iff_iff, decide_eq_true_iff,
      BitVector.equals_iff]
    refine forall₂_congr fun i _ => ?_
    rw [Bool.eq_iff_iff, v.getBit_ne_zero, w.getBit_ne_zero]
  containedIn {this other n v w} hv hw := by
    rw [containedIn, equals_and hv hw hv, Option.some.injEq, Bool.eq_iff_iff, decide_eq_true_iff,
      BitVector.equals_and_iff]
  contains {this other n v w} hv hw := by
    rw [contains, equals_and hv hw hw, Option.some.injEq, Bool.eq_iff_iff, decide_eq_true_iff,
      BitVector.equals_and_iff']

theorem results_combine {f : BitVec 8 → BitVec 8 → BitVec 8} {g : Bool → Bool → Bool}
    (hv : memory[this]? = some ⟨n, v⟩) (hw : memory[other]? = some ⟨n, w⟩)
    (hon : ∀ i < n, (v.zipBytes f w).on i = g (v.on i) (w.on i)) :
    memory.Results (combine f memory this other) this n fun i => g (v.on i) (w.on i) := by
  refine ⟨v.zipBytes f w, combine_eq f hv hw false, combine_eq f hv hw true, fun i hi => ?_⟩
  rw [BitVector.getBit_ne_zero, hon i hi]

theorem operatesOnSets (memory : VectorMemory) : memory.OperatesOnSets where
  and {this other n v w} hv hw := results_combine hv hw fun _ hi => v.on_and w hi
  or {this other n v w} hv hw := results_combine hv hw fun _ hi => v.on_or w hi
  xor {this other n v w} hv hw := results_combine hv hw fun _ hi => v.on_xor w hi
  not {this n v} hv := by
    refine ⟨v.not, not_eq hv false, not_eq hv true, fun i hi => ?_⟩
    rw [BitVector.getBit_ne_zero, v.on_not hi]
  setBitOn {this n v} hv index := by
    refine ⟨v.setBitOn index, changeBit_eq hv _ index.isLt, fun i _ => ?_⟩
    rw [BitVector.getBit_ne_zero, v.on_setBitOn index.isLt, Bool.or_eq_true, decide_eq_true_eq,
      eq_comm]
  setBitOff {this n v} hv index := by
    refine ⟨v.setBitOff index, changeBit_eq hv _ index.isLt, fun i _ => ?_⟩
    rw [BitVector.getBit_ne_zero, v.on_setBitOff index.isLt, Bool.and_eq_true, Bool.not_eq_true',
      decide_eq_false_iff_not, ne_comm]

end VectorMemory

end JunctionBox
