import JunctionBox.Foundations.CInt
import JunctionBox.Foundations.PartialLoops
import JunctionBox.Graph.Degrees
import JunctionBox.JunctionTree.ElimSet
import JunctionBox.Model.BNet
import JunctionBox.Util.QSort

/-!
# The elimination ordering

`BNet_StateSpaceWeightedElimOrdering` stores its variable in every vertex of the
network and sorts the vertices with `vtx_SSW_cmp`.  Both differences in the
comparator are taken backwards, as the source remarks: the vertices of highest
degree come first, and among those of one degree the vertices with the most
values.
-/

namespace JunctionBox

/-- `vtx_SSW_cmp`, on vertices with the variables stored in them. -/
def vtxSSWCmp (v1 v2 : Vertex × Variable) : ℤ :=
  let ret : ℤ := v2.1.totdegree - v1.1.totdegree
  if ret = 0 then (v2.2.cardinality : ℤ) - v1.2.cardinality else ret

/-- `vtx_SSW_cmp` in the arithmetic of C. -/
def vtxSSWCmpInt (v1 v2 : Vertex × Variable) : ℤ :=
  let ret := CInt.sub v2.1.totdegree v1.1.totdegree
  if ret = 0 then CInt.sub v2.2.cardinality v1.2.cardinality else ret

/-- The degree and the cardinality of a vertex are numbers of type `int`. -/
def FitsInt (v : Vertex × Variable) : Prop :=
  (v.1.totdegree : ℤ) ≤ CInt.intMax ∧ (v.2.cardinality : ℤ) ≤ CInt.intMax

/-- The differences do not overflow, so the comparator is exact. -/
theorem vtxSSWCmpInt_eq {v w : Vertex × Variable} (hv : FitsInt v) (hw : FitsInt w) :
    vtxSSWCmpInt v w = vtxSSWCmp v w := by
  unfold vtxSSWCmpInt vtxSSWCmp
  rw [CInt.sub_natCast hw.1 hv.1, CInt.sub_natCast hw.2 hv.2]

/-- The vertex of higher degree comes first; between equal degrees, that of higher cardinality. -/
theorem vtxSSWCmp_le_zero_iff (v w : Vertex × Variable) :
    vtxSSWCmp v w ≤ 0 ↔ w.1.totdegree ≤ v.1.totdegree ∧
      (w.1.totdegree = v.1.totdegree → w.2.cardinality ≤ v.2.cardinality) := by
  simp only [vtxSSWCmp]
  split <;> omega

theorem vtxSSWCmp_swap (v w : Vertex × Variable) : vtxSSWCmp w v = -vtxSSWCmp v w := by
  simp only [vtxSSWCmp]
  split <;> split <;> omega

theorem isComparator_vtxSSWCmp : IsComparator vtxSSWCmp where
  opposite v w := by rw [← Int.sign_neg, vtxSSWCmp_swap]
  trans u v w huv hvw := by
    rw [vtxSSWCmp_le_zero_iff] at huv hvw ⊢
    omega

namespace BNet

variable {o : VariableOrdering} {α : Type}

/-- `BNet_StateSpaceWeightedElimOrdering`. -/
def stateSpaceWeightedElimOrdering (qsort : QSort) (this : BNet o α) : Option VertexOrdering := do
  let vertices ← this.initialGraph.vertices.first.mapM fun itr => do
    let vblRank ← o.getVariableRankByLabel itr.2.label
    return (itr.2, o.vbl vblRank)
  return ⟨(qsort.sort vtxSSWCmp vertices).map fun v => v.1.label⟩

/-- The loop of `BNet_StateSpaceWeightedElimOrdering` over the vertices, which stores in each of
them its variable. -/
def verticesWithVariables (this : BNet o α) : Option (List (Vertex × Variable)) :=
  this.initialGraph.vertices.first.mapM fun itr => do
    let vblRank ← o.getVariableRankByLabel itr.2.label
    return (itr.2, o.vbl vblRank)

/-- The vertices as they have been sorted, each with its variable. -/
def sortedVertices (qsort : QSort) (this : BNet o α) : Option (List (Vertex × Variable)) :=
  this.verticesWithVariables.map fun vertices => qsort.sort vtxSSWCmp vertices

/-- The ordering lists every vertex of the network once. -/
def IsOrdering (this : BNet o α) (vo : VertexOrdering) : Prop :=
  vo.vertices.Perm this.initialGraph.labels

variable {this : BNet o α} {vo : VertexOrdering}

theorem stateSpaceWeightedElimOrdering_eq (qsort : QSort) (this : BNet o α) :
    this.stateSpaceWeightedElimOrdering qsort =
      (this.sortedVertices qsort).map fun sorted => ⟨sorted.map fun v => v.1.label⟩ := by
  unfold stateSpaceWeightedElimOrdering sortedVertices verticesWithVariables
  rw [Option.map_map]
  exact Option.map_eq_bind.symm

/-- Every vertex finds its variable. -/
theorem Created.verticesWithVariables (h : this.Created) :
    ∃ vertices, this.verticesWithVariables = some vertices ∧
      vertices.map Prod.fst = this.initialGraph.vertices.contents ∧
      ∀ v ∈ vertices, v.2 ∈ o.vbls ∧ v.2.label = v.1.label := by
  have hbody : ∀ itr ∈ this.initialGraph.vertices.first, ∃ v : Vertex × Variable, (do
      let vblRank ← o.getVariableRankByLabel itr.2.label
      return (itr.2, o.vbl vblRank)) = some v := by
    intro itr hitr
    have hlabel : itr.2.label ∈ o.labels := by
      rw [this.initialGraph.vertex_label itr hitr, ← h.mem_labels]
      exact List.mem_map_of_mem hitr
    obtain ⟨i, hi⟩ := VariableOrdering.getVariableRankByLabel_isSome hlabel
    exact ⟨(itr.2, o.vbl i), by rw [hi]; rfl⟩
  have hvariable : ∀ (itr : CString × Vertex) (v : Vertex × Variable), (do
      let vblRank ← o.getVariableRankByLabel itr.2.label
      return (itr.2, o.vbl vblRank)) = some v →
        v.1 = itr.2 ∧ v.2 ∈ o.vbls ∧ v.2.label = itr.2.label := by
    intro itr v hv
    obtain ⟨i, hi, heq⟩ := Option.bind_eq_some_iff.mp hv
    obtain ⟨hlt, hlabel⟩ := VariableOrdering.getVariableRankByLabel_lt hi
    rw [← Option.some.inj heq]
    exact ⟨rfl, VariableOrdering.vbl_mem hlt, hlabel⟩
  obtain ⟨vertices, hrun, -⟩ := PartialLoops.exists_mapM hbody
  refine ⟨vertices, hrun, ?_, fun v hv => ?_⟩
  · exact PartialLoops.map_of_mapM hrun fun itr _ v hv => (hvariable itr v hv).1
  · obtain ⟨itr, -, hitr⟩ := (PartialLoops.mem_mapM hrun).1 v hv
    obtain ⟨hfst, hmem, hlabel⟩ := hvariable itr v hitr
    exact ⟨hmem, hlabel.trans (congrArg Vertex.label hfst).symm⟩

/-- What the vertices are sorted into. -/
theorem Created.sortedVertices (h : this.Created) (qsort : QSort) :
    ∃ sorted, this.sortedVertices qsort = some sorted ∧
      (sorted.map Prod.fst).Perm this.initialGraph.vertices.contents ∧
      (∀ v ∈ sorted, v.2 ∈ o.vbls ∧ v.2.label = v.1.label) ∧
      sorted.Pairwise fun v w => vtxSSWCmp v w ≤ 0 := by
  obtain ⟨vertices, hrun, hfst, hvbls⟩ := h.verticesWithVariables
  have hperm := qsort.perm vtxSSWCmp vertices
  refine ⟨qsort.sort vtxSSWCmp vertices, by rw [BNet.sortedVertices, hrun]; rfl, ?_,
    fun v hv => hvbls v (hperm.mem_iff.mp hv), qsort.sorted isComparator_vtxSSWCmp vertices⟩
  rw [← hfst]
  exact hperm.map Prod.fst

/-- Sorting the vertices keeps all of them. -/
theorem Created.isOrdering_stateSpaceWeighted (h : this.Created) (qsort : QSort) :
    ∃ vo, this.stateSpaceWeightedElimOrdering qsort = some vo ∧ this.IsOrdering vo := by
  obtain ⟨sorted, hrun, hperm, -⟩ := h.sortedVertices qsort
  refine ⟨⟨sorted.map fun v => v.1.label⟩, ?_, ?_⟩
  · rw [stateSpaceWeightedElimOrdering_eq, hrun]
    rfl
  · have hlabels := hperm.map Vertex.label
    rw [List.map_map, Graph.map_label_contents] at hlabels
    exact hlabels

theorem IsOrdering.nodup (h : this.IsOrdering vo) : vo.vertices.Nodup :=
  h.nodup_iff.mpr this.initialGraph.labels_nodup

/-- **The elimination ordering**: the comparator is a consistent total preorder, and exact in `int`
arithmetic; the ordering lists every vertex once, by decreasing degree and, between equal degrees,
by decreasing cardinality; and every vertex has been given the one variable with its label. -/
theorem stateSpaceWeightedElimOrdering_sorted (h : this.Created) (hdistinct : o.DistinctLabels)
    (qsort : QSort) :
    IsComparator vtxSSWCmp ∧
      (∀ v w, FitsInt v → FitsInt w → vtxSSWCmpInt v w = vtxSSWCmp v w) ∧
      ∃ sorted vo, this.sortedVertices qsort = some sorted ∧
        this.stateSpaceWeightedElimOrdering qsort = some vo ∧
        vo.vertices = sorted.map (fun v => v.1.label) ∧
        (sorted.map Prod.fst).Perm this.initialGraph.vertices.contents ∧
        vo.vertices.Perm this.initialGraph.labels ∧ vo.vertices.Nodup ∧
        sorted.Pairwise (fun v w => w.1.totdegree ≤ v.1.totdegree ∧
          (w.1.totdegree = v.1.totdegree → w.2.cardinality ≤ v.2.cardinality)) ∧
        ∀ v ∈ sorted, v.2 ∈ o.vbls ∧ v.2.label = v.1.label ∧
          ∀ w ∈ o.vbls, w.label = v.1.label → w = v.2 := by
  refine ⟨isComparator_vtxSSWCmp, fun v w hv hw => vtxSSWCmpInt_eq hv hw, ?_⟩
  obtain ⟨sorted, hrun, hperm, hvbls, hsorted⟩ := h.sortedVertices qsort
  obtain ⟨vo, hvo, hordering⟩ := h.isOrdering_stateSpaceWeighted qsort
  have hlabels : vo.vertices = sorted.map fun v => v.1.label := by
    rw [stateSpaceWeightedElimOrdering_eq, hrun] at hvo
    rw [← Option.some.inj hvo]
  refine ⟨sorted, vo, hrun, hvo, hlabels, hperm, hordering, hordering.nodup,
    hsorted.imp fun hle => (vtxSSWCmp_le_zero_iff _ _).mp hle, fun v hv => ?_⟩
  obtain ⟨hmem, hlabel⟩ := hvbls v hv
  refine ⟨hmem, hlabel, fun w hw hwlabel => ?_⟩
  exact List.inj_on_of_nodup_map hdistinct hw hmem (hwlabel.trans hlabel.symm)

/-- Two variables without tables, with two and with three values. -/
def twoVariables : VariableOrdering := ⟨[⟨['a'], 2⟩, ⟨['b'], 3⟩]⟩

theorem stateSpaceWeightedElimOrdering_sorted_two :
    ∃ this : BNet twoVariables ℚ, createList [] = some this ∧
      ∃ vo, this.stateSpaceWeightedElimOrdering QSort.insertion = some vo ∧
        vo.vertices.Perm this.initialGraph.labels := by
  obtain ⟨g, hg⟩ : ∃ g, createGraph ([] : List (CPT twoVariables ℚ)) = some g :=
    exists_createGraph fun p hp => absurd hp List.not_mem_nil
  have hcreated : createList [] = some (⟨[], [], g⟩ : BNet twoVariables ℚ) := by
    rw [createList, hg]
    rfl
  have h : (⟨[], [], g⟩ : BNet twoVariables ℚ).Created := Or.inl hcreated
  obtain ⟨-, -, sorted, vo, -, hvo, -, -, hperm, -⟩ :=
    stateSpaceWeightedElimOrdering_sorted h (by decide) QSort.insertion
  exact ⟨_, hcreated, vo, hvo, hperm⟩

/-- Of two vertices of one degree, the one with fewer values does not come first. -/
theorem not_cardinality_nondecreasing :
    ∃ (this : BNet twoVariables ℚ) (sorted : List (Vertex × Variable)),
      createList [] = some this ∧ this.sortedVertices QSort.insertion = some sorted ∧
      ¬ sorted.Pairwise fun v w => w.1.totdegree ≤ v.1.totdegree ∧
        (w.1.totdegree = v.1.totdegree → v.2.cardinality ≤ w.2.cardinality) := by
  have hrun : ((createList [] : Option (BNet twoVariables ℚ)).bind fun this =>
      (this.sortedVertices QSort.insertion).map fun sorted =>
        sorted.map fun v => (v.1.totdegree, v.2.cardinality)) = some [(0, 3), (0, 2)] := by
    decide +kernel
  obtain ⟨this, hthis, hrun⟩ := Option.bind_eq_some_iff.mp hrun
  obtain ⟨sorted, hsorted, hpairs⟩ := Option.map_eq_some_iff.mp hrun
  refine ⟨this, sorted, hthis, hsorted, fun hpairwise => ?_⟩
  have hle : ([(0, 3), (0, 2)] : List (ℕ × ℕ)).Pairwise fun v w =>
      w.1 ≤ v.1 ∧ (w.1 = v.1 → v.2 ≤ w.2) := by
    rw [← hpairs, List.pairwise_map]
    exact hpairwise
  exact absurd hle (by decide)

end BNet

end JunctionBox
