import JunctionBox.Pot.Tabular

/-!
# Memoised index tables

Index tables depend on the two sets of variables only, and the source computes
each of them once: a separator remembers the tables that spread it over a
clique, a clique those that select its sub-tables.  A memo is consulted by the
bits of the target set, so what it returns may have been computed for another
`VariableSet` with the same bits; `Consistent` and `getMemoized_eq` say that it
was computed by the same function for the same set of ranks.

`Indexes mi rows all` is all the rest of the development needs to know about an
index table.
-/

namespace JunctionBox

/-- `MulMemo`, `MargMemo`; the contents of a `MargMemo` may be `NULL`. -/
abbrev MulMemo (o : VariableOrdering) (β : Type) := BitVectorMap o.size β

namespace MulMemo

variable {o : VariableOrdering} {β : Type}

/-- `MulMemo_Create`. -/
def create : MulMemo o β := []

/-- Look `target` up, and compute and enter what is missing. -/
def getMemoized (compute : VariableSet o → Option β) (this : MulMemo o β)
    (target : VariableSet o) : Option (β × MulMemo o β) :=
  match BitVectorMap.get this target.bv with
  | some ret => some (ret, this)
  | none => (compute target).map fun ret => (ret, BitVectorMap.add this target.bv ret)

/-- `MulMemo_GetMulInd`. -/
def getMulInd (this : MulMemo o (MulInd o)) (vbls target : VariableSet o) :
    Option (MulInd o × MulMemo o (MulInd o)) := getMemoized vbls.computeMulInd this target

/-- `MulMemo_GetMargInd`. -/
def getMargInd (this : MulMemo o (Option (MulInd o))) (vbls target : VariableSet o) :
    Option (Option (MulInd o) × MulMemo o (Option (MulInd o))) :=
  getMemoized vbls.computeMargInd this target

/-- Every entry is what computing it again would give. -/
def Consistent (compute : VariableSet o → Option β) (this : MulMemo o β) : Prop :=
  ∀ me ∈ this, compute ⟨me.1⟩ = some me.2

theorem consistent_create (compute : VariableSet o → Option β) :
    Consistent compute (create : MulMemo o β) := fun _ hme => absurd hme List.not_mem_nil

theorem vars_eq_of_equals {bv : BitVector o.size} {target : VariableSet o}
    (h : bv.equals target.bv = true) : (⟨bv⟩ : VariableSet o).vars = target.vars := by
  rw [BitVector.equals_iff] at h
  ext i
  rw [VariableSet.mem_vars, VariableSet.mem_vars]
  exact and_congr_right fun hi => by rw [h i hi]

/-- What a memo returns was computed for the same variables. -/
theorem getMemoized_eq {compute : VariableSet o → Option β} {this : MulMemo o β}
    (h : Consistent compute this) {target : VariableSet o} {ret : β}
    (hret : compute target = some ret) :
    ∃ key ret' this', getMemoized compute this target = some (ret', this') ∧
      key.vars = target.vars ∧ compute key = some ret' ∧ Consistent compute this' := by
  rw [getMemoized]
  cases hget : BitVectorMap.get this target.bv with
  | some ret' =>
      rw [BitVectorMap.get, Option.map_eq_some_iff] at hget
      obtain ⟨me, hfind, rfl⟩ := hget
      have hequals : me.1.equals target.bv = true := by simpa using List.find?_some hfind
      exact ⟨⟨me.1⟩, me.2, this, rfl, vars_eq_of_equals hequals,
        h me (List.mem_of_find?_eq_some hfind), h⟩
  | none =>
      refine ⟨target, ret, _, by rw [hret]; rfl, rfl, hret, fun me hme => ?_⟩
      rw [BitVectorMap.add, hget] at hme
      rcases List.mem_cons.mp hme with rfl | hme
      · exact hret
      · exact h me hme

/-- A look-up returns what some key of the same variables computes, and enters at most that. -/
theorem Consistent.of_getMemoized {compute : VariableSet o → Option β} {this next : MulMemo o β}
    (h : Consistent compute this) {target : VariableSet o} {ret : β}
    (hrun : getMemoized compute this target = some (ret, next)) :
    Consistent compute next ∧ (∃ key, compute key = some ret) ∧
      ∀ me ∈ next, me ∈ this ∨ me.1 = target.bv := by
  unfold getMemoized at hrun
  cases hget : BitVectorMap.get this target.bv with
  | some ret' =>
      rw [hget] at hrun
      obtain ⟨rfl, rfl⟩ := Prod.mk.inj (Option.some.inj hrun)
      rw [BitVectorMap.get, Option.map_eq_some_iff] at hget
      obtain ⟨me, hfind, rfl⟩ := hget
      exact ⟨h, ⟨⟨me.1⟩, h me (List.mem_of_find?_eq_some hfind)⟩, fun me hme => Or.inl hme⟩
  | none =>
      rw [hget] at hrun
      obtain ⟨ret', hcompute, heq⟩ := Option.map_eq_some_iff.mp hrun
      obtain ⟨rfl, rfl⟩ := Prod.mk.inj heq
      have hadd : ∀ me ∈ BitVectorMap.add this target.bv ret',
          me = (target.bv, ret') ∨ me ∈ this := by
        intro me hme
        rw [BitVectorMap.add, hget] at hme
        exact List.mem_cons.mp hme
      refine ⟨fun me hme => ?_, ⟨target, hcompute⟩, fun me hme => ?_⟩
      · rcases hadd me hme with rfl | hme
        · exact hcompute
        · exact h me hme
      · rcases hadd me hme with rfl | hme
        · exact Or.inr rfl
        · exact Or.inl hme

/-- The result of a look-up is that of the computation, for the target or for a key with its
bits. -/
theorem Consistent.fst_getMemoized {compute : VariableSet o → Option β} {this : MulMemo o β}
    (h : Consistent compute this) (target : VariableSet o) :
    (getMemoized compute this target).map Prod.fst = compute target ∨
      ∃ me ∈ this, me.1.equals target.bv = true ∧
        (getMemoized compute this target).map Prod.fst = compute ⟨me.1⟩ := by
  unfold getMemoized
  cases hget : BitVectorMap.get this target.bv with
  | none =>
      refine Or.inl ?_
      rw [Option.map_map]
      exact Option.map_id' ..
  | some ret =>
      rw [BitVectorMap.get, Option.map_eq_some_iff] at hget
      obtain ⟨me, hfind, rfl⟩ := hget
      refine Or.inr ⟨me, List.mem_of_find?_eq_some hfind, by simpa using List.find?_some hfind, ?_⟩
      rw [h me (List.mem_of_find?_eq_some hfind)]
      rfl

end MulMemo

namespace MulInd

variable {o : VariableOrdering}

/-- Index structures for the same variables with the same indices. -/
structure Same (this other : MulInd o) : Prop where
  vars : this.vbls.vars = other.vbls.vars
  secondIndices : this.secondIndices = other.secondIndices

theorem Same.refl (this : MulInd o) : this.Same this := ⟨rfl, rfl⟩

/-- `mi` holds, for every tuple of `rows`, the indices of its extensions to `all`. -/
def Indexes (mi : MulInd o) (rows all : VariableSet o) : Prop :=
  ∃ cols, VariableSet.Splits rows cols all ∧ Pot.Arithmetic.IsIndexTable mi rows cols all

/-- The bits beyond the ordering do not matter. -/
theorem Indexes.congr {mi : MulInd o} {rows all rows' all' : VariableSet o}
    (h : mi.Indexes rows all) (hrows : rows.vars = rows'.vars) (hall : all.vars = all'.vars) :
    mi.Indexes rows' all' := by
  obtain ⟨cols, hsplit, htable⟩ := h
  have hranks := VariableSet.ranks_eq_of_vars_eq hrows
  have hranks' := VariableSet.ranks_eq_of_vars_eq hall
  refine ⟨cols, ⟨hrows ▸ hsplit.disjoint, by rw [← hall, ← hrows, hsplit.union]⟩, ?_⟩
  simp only [Pot.Arithmetic.IsIndexTable, VariableSet.row, VariableSet.ofTuple, VariableSet.index,
    VariableSet.getVblCardinalities, hranks, hranks'] at htable ⊢
  exact htable

end MulInd

namespace VariableSet

variable {o : VariableOrdering}

theorem ranks_ne_nil_iff {this : VariableSet o} : this.ranks ≠ [] ↔ this.vars.Nonempty := by
  rw [vars, List.toFinset_nonempty_iff]

theorem ranks_xor_ne_nil {this other : VariableSet o} (h : this.vars ⊂ other.vars) :
    (createFromBv (this.bv.xor other.bv) : VariableSet o).ranks ≠ [] := by
  rw [ranks_ne_nil_iff, vars_xor _ _ h.subset]
  exact Finset.sdiff_nonempty.mpr h.not_subset

/-- `VariableSet_ComputeMulInd` on a non-empty proper subset. -/
theorem computeMulInd_indexes {this target : VariableSet o} (hne : this.vars.Nonempty)
    (h : this.vars ⊂ target.vars) :
    ∃ mi, this.computeMulInd target = some mi ∧ mi.vbls = this ∧ mi.Indexes this target := by
  have hsplit := splits_xor h.subset
  have hcross := crossIndices_eq hsplit (ranks_ne_nil_iff.mpr hne) (ranks_xor_ne_nil h)
  refine ⟨_, by rw [computeMulInd, hcross]; rfl, rfl, _, hsplit, ?_⟩
  unfold Pot.Arithmetic.IsIndexTable
  rfl

theorem length_enumerateValues {this : VariableSet o} (h : this.ranks ≠ []) :
    this.enumerateValues.length = this.getCardinality := by
  rw [enumerateValues_eq h, MixedRadix.length_tuples, getCardinality]

theorem getCardinality_pos (hpos : o.Discrete) (this : VariableSet o) :
    0 < this.getCardinality := by
  apply Nat.pos_of_ne_zero
  rw [getCardinality, getVblCardinalities, Ne, List.prod_eq_zero_iff, List.mem_map]
  rintro ⟨i, hi, hzero⟩
  have hvbl := hpos _ (VariableOrdering.vbl_mem (mem_ranks.mp hi).1)
  omega

/-- `VariableSet_ComputeMargInd` when the variables summed out have no tuple. -/
theorem computeMargInd_eq_null {this target : VariableSet o}
    (h : (createFromBv (this.bv.xor target.bv) : VariableSet o).enumerateValues = []) :
    this.computeMargInd target = some none := by
  rw [computeMargInd, h]
  rfl

/-- `VariableSet_ComputeMargInd` on a set of the same variables. -/
theorem computeMargInd_self {this target : VariableSet o} (h : target.vars = this.vars) :
    this.computeMargInd target = some none := by
  refine computeMargInd_eq_null (enumerateValues_eq_nil ?_)
  by_contra hne
  obtain ⟨i, hi⟩ := ranks_ne_nil_iff.mp hne
  rw [vars_xor _ _ h.symm.subset, h, Finset.sdiff_self] at hi
  exact absurd hi (Finset.notMem_empty i)

/-- `VariableSet_ComputeMargInd` on a non-empty proper subset, when the variables summed out
have tuples: the rows of `VariableSet_ComputeMulInd` the other way round. -/
theorem computeMargInd_indexes_of_ne {this target : VariableSet o} (hne : target.vars.Nonempty)
    (h : target.vars ⊂ this.vars)
    (hcard : (createFromBv (this.bv.xor target.bv) : VariableSet o).getCardinality ≠ 0) :
    ∃ mi, this.computeMargInd target = some (some mi) ∧ mi.Indexes target this := by
  rw [BitVector.xor_comm] at hcard
  have hnil := ranks_xor_ne_nil h
  have hsplit := splits_xor h.subset
  have hcross := crossIndices_eq hsplit (ranks_ne_nil_iff.mpr hne) hnil
  refine ⟨⟨createFromBv (target.bv.xor this.bv), _⟩, ?_, _, hsplit, by
    unfold Pot.Arithmetic.IsIndexTable; rfl⟩
  rw [computeMargInd, BitVector.xor_comm, if_neg (by rwa [length_enumerateValues hnil]), hcross]
  rfl

/-! ## The same variables, the same indices -/

section Congr

variable {this target target' : VariableSet o}

theorem vars_xor_congr (h : target.vars = target'.vars) :
    (createFromBv (this.bv.xor target.bv) : VariableSet o).vars =
      (createFromBv (this.bv.xor target'.bv) : VariableSet o).vars := by
  ext i
  rw [mem_vars, mem_vars]
  refine and_congr_right fun hi => ?_
  have hon : target.bv.on i = target'.bv.on i := by
    have hmem := Finset.ext_iff.mp h i
    rw [mem_vars, mem_vars] at hmem
    rw [Bool.eq_iff_iff]
    simpa [hi] using hmem
  simp only [createFromBv, BitVector.on_xor _ _ hi, hon]

theorem enumerateValues_congr (h : target.vars = target'.vars) :
    target.enumerateValues = target'.enumerateValues := by
  simp only [enumerateValues, getNumVbls_eq, getCardinality, getVblCardinalities,
    ranks_eq_of_vars_eq h]

theorem crossIndices_congr {rows rows' cols cols' all all' : VariableSet o}
    (hrows : rows.vars = rows'.vars) (hcols : cols.vars = cols'.vars)
    (hall : all.vars = all'.vars) :
    crossIndices rows cols all = crossIndices rows' cols' all' := by
  unfold crossIndices
  rw [enumerateValues_congr hrows]
  simp only [computeIndices, indexCross, enumerateValues_congr hcols, getNumVbls_eq,
    getCardinality, getVblCardinalities, ranks_eq_of_vars_eq hrows, ranks_eq_of_vars_eq hcols,
    ranks_eq_of_vars_eq hall]

theorem computeMulInd_congr (h : target.vars = target'.vars) :
    this.computeMulInd target = this.computeMulInd target' := by
  unfold computeMulInd
  simp only
  rw [crossIndices_congr rfl (vars_xor_congr h) h]

/-- `NULL` for both targets, or index structures that are the same. -/
theorem computeMargInd_congr (h : target.vars = target'.vars) :
    Option.Rel (Option.Rel MulInd.Same) (this.computeMargInd target)
      (this.computeMargInd target') := by
  have hxor : (createFromBv (this.bv.xor target.bv) : VariableSet o).vars =
      (createFromBv (this.bv.xor target'.bv) : VariableSet o).vars := vars_xor_congr h
  unfold computeMargInd
  simp only
  rw [enumerateValues_congr hxor, crossIndices_congr h hxor rfl]
  split
  · exact Option.Rel.some Option.Rel.none
  · cases crossIndices target' (createFromBv (this.bv.xor target'.bv)) this with
    | none => exact Option.Rel.none
    | some sumIndices => exact Option.Rel.some (Option.Rel.some ⟨hxor, rfl⟩)

end Congr

end VariableSet

end JunctionBox
