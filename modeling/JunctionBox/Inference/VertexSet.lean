import JunctionBox.JunctionTree.ElimSet
import JunctionBox.Util.BitVectorMemory

/-!
# Sets of vertices

`VertexSet.c`: a bit vector over the ranks of a vertex ordering, as a
`VariableSet` and an `ElimSet` are over the ranks of a variable ordering.  The
traversals mark the vertices they have seen in one.

With all three kinds of set at hand, `vectors_implement_sets` says what any
sequence of calls to `BitVector.c` leaves in memory.
-/

namespace JunctionBox

/-- `VertexSet`, the marks; the ordering it points at is `vo`. -/
structure VertexSet (vo : VertexOrdering) where
  bv : BitVector vo.size

namespace VertexSet

variable {vo : VertexOrdering}

/-- `VertexSet_Create`. -/
def create (vo : VertexOrdering) : VertexSet vo := ⟨BitVector.create vo.size false⟩

/-- `VertexSet_Add`; a vertex outside of the ordering has the rank `-1`, and adding it changes
nothing. -/
def add (this : VertexSet vo) (v : CString) : VertexSet vo :=
  match vo.getVertexRank v with
  | some indx => ⟨this.bv.setBitOn indx⟩
  | none => this

/-- `VertexSet_ContainsVertex`. -/
def containsVertex (this : VertexSet vo) (v : CString) : Bool :=
  match vo.getVertexRank v with
  | some indx => this.bv.on indx
  | none => false

/-- `VertexSet_Contains`: true if `this` contains `other`. -/
def contains (this other : VertexSet vo) : Bool :=
  other.bv.equals (this.bv.and other.bv)

theorem getVertexRank_lt {v : CString} {i : ℕ} (h : vo.getVertexRank v = some i) :
    i < vo.size ∧ vo.vertices[i]? = some v := by
  obtain ⟨hi, heq, -⟩ := List.findIdx?_eq_some_iff_getElem.mp h
  refine ⟨hi, ?_⟩
  rw [List.getElem?_eq_getElem hi]
  simpa using heq

theorem exists_getVertexRank {v : CString} (h : v ∈ vo.vertices) :
    ∃ i, vo.getVertexRank v = some i := by
  apply Option.isSome_iff_exists.mp
  rw [VertexOrdering.getVertexRank, List.findIdx?_isSome, List.any_eq_true]
  exact ⟨v, h, by simp⟩

theorem containsVertex_create (v : CString) : (create vo).containsVertex v = false := by
  unfold containsVertex create
  cases hrank : vo.getVertexRank v with
  | none => rfl
  | some i =>
      show (BitVector.create vo.size false).on i = false
      exact BitVector.on_create i

theorem containsVertex_add (this : VertexSet vo) {v w : CString} (hv : v ∈ vo.vertices)
    (hw : w ∈ vo.vertices) :
    (this.add v).containsVertex w = true ↔ w = v ∨ this.containsVertex w = true := by
  obtain ⟨i, hi⟩ := exists_getVertexRank hv
  obtain ⟨j, hj⟩ := exists_getVertexRank hw
  unfold add containsVertex
  rw [hi, hj]
  show (this.bv.setBitOn i).on j = true ↔ w = v ∨ this.bv.on j = true
  rw [BitVector.on_setBitOn _ (getVertexRank_lt hi).1, Bool.or_eq_true, decide_eq_true_eq]
  refine or_congr_left ⟨?_, ?_⟩
  · rintro rfl
    exact Option.some.inj ((getVertexRank_lt hj).2.symm.trans (getVertexRank_lt hi).2)
  · rintro rfl
    exact Option.some.inj (hi.symm.trans hj)

end VertexSet

/-- **Any sequence of calls to `BitVector.c`**, in place or not, does to the sets in memory what
the calls are for; every vector reads as its set, every further operation acts on it as on a set,
and the three kinds of set built on vectors decide inclusion. -/
theorem vectors_implement_sets (calls : List VectorCall) {memory : VectorMemory}
    (hrun : calls.foldlM VectorCall.run [] = some memory) :
    calls.foldlM VectorCall.runSets [] = some memory.sets ∧
      memory.ReadsAsSets ∧ memory.OperatesOnSets ∧
      (∀ (o : VariableOrdering) (this other : VariableSet o),
        this.containedIn other = decide (this.bv.set ⊆ other.bv.set)) ∧
      (∀ (o : VariableOrdering) (this other : ElimSet o),
        this.contains other = decide (other.bv.set ⊆ this.bv.set)) ∧
      ∀ (vo : VertexOrdering) (this other : VertexSet vo),
        this.contains other = decide (other.bv.set ⊆ this.bv.set) := by
  refine ⟨?_, memory.readsAsSets, memory.operatesOnSets, fun o this other => ?_,
    fun o this other => ?_, fun vo this other => ?_⟩
  · have hsets := VectorMemory.runs_refine calls []
    rw [hrun] at hsets
    exact hsets.symm
  · rw [Bool.eq_iff_iff, decide_eq_true_iff]
    exact BitVector.equals_and_iff _ _
  · rw [Bool.eq_iff_iff, decide_eq_true_iff]
    exact BitVector.equals_and_iff' _ _
  · rw [Bool.eq_iff_iff, decide_eq_true_iff]
    exact BitVector.equals_and_iff' _ _

/-- Ten bits, negated in place: the six padding bits are on by then. -/
theorem vectors_implement_sets_ten :
    ∃ memory, [VectorCall.create 10, .setBitOn 0 9, .not 0 true, .xor 0 0 false].foldlM
        VectorCall.run [] = some memory ∧ memory.ReadsAsSets ∧ memory.OperatesOnSets := by
  have hsome : ([VectorCall.create 10, .setBitOn 0 9, .not 0 true, .xor 0 0 false].foldlM
      VectorCall.run []).isSome = true := by decide
  obtain ⟨memory, hrun⟩ := Option.isSome_iff_exists.mp hsome
  have hsets := vectors_implement_sets _ hrun
  exact ⟨memory, hrun, hsets.2.1, hsets.2.2.1⟩

end JunctionBox
