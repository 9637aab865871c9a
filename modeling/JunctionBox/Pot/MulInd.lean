import JunctionBox.Foundations.PartialLoops
import JunctionBox.Foundations.SumOut
import JunctionBox.Pot.VariableSet

/-!
# Multiplication and marginalisation indices

A `MulInd` lists, for every tuple of a small set of variables, the table indices
of its extensions to a larger set.  `VariableSet_ComputeMargInd` and
`VariableSet_ComputeMulInd` fill it by the same two loops, `crossIndices` here;
they differ in which set they store and in what they do when the two sets are
equal, where the first returns `NULL` and the second a table of empty rows.

`crossIndices_eq` describes the rows in terms of assignments: for disjoint
non-empty sets the row of an assignment `x` of the small set contains the
indices of `x` overwritten by every tuple of the remaining variables.
-/

namespace JunctionBox

/-- A value for every rank of an ordering. -/
abbrev Assignment := ℕ → ℕ

namespace VariableOrdering

/-- The values of the variable of rank `i`. -/
def dom (o : VariableOrdering) (i : ℕ) : Finset ℕ := Finset.range (o.vbl i).cardinality

theorem mem_dom {o : VariableOrdering} {i a : ℕ} : a ∈ o.dom i ↔ a < (o.vbl i).cardinality :=
  Finset.mem_range

/-- A complete assignment gives every variable of the ordering one of its values. -/
def Complete (o : VariableOrdering) (x : Assignment) : Prop := ∀ i < o.size, x i ∈ o.dom i

end VariableOrdering

/-- `struct mul_ind`; `firstIndices` is the number of rows and `mulSize` the length of
each. -/
structure MulInd (o : VariableOrdering) where
  vbls : VariableSet o
  secondIndices : List (List ℕ)
deriving DecidableEq

namespace MulInd

variable {o : VariableOrdering}

def firstIndices (this : MulInd o) : ℕ := this.secondIndices.length

/-- The pairs `(i, secondIndices[i][j])` in the order of the nested loops over `i` and `j`. -/
def entries (this : MulInd o) : List (ℕ × ℕ) :=
  this.secondIndices.zipIdx.flatMap fun row => row.1.map fun qindex => (row.2, qindex)

end MulInd

namespace VariableSet

variable {o : VariableOrdering}

/-- The loops shared by the two functions below: the tuples of `rows` crossed with those
of `cols`, as indices into a table over `all`. -/
def crossIndices (rows cols all : VariableSet o) : Option (List (List ℕ)) :=
  rows.enumerateValues.mapM fun values =>
    all.computeIndices (indexCross rows values cols cols.enumerateValues)

/-- `VariableSet_ComputeMargInd`; the inner `none` is its `NULL`. -/
def computeMargInd (this target : VariableSet o) : Option (Option (MulInd o)) :=
  let margVars := createFromBv (this.bv.xor target.bv)
  let sumCardinality := margVars.enumerateValues.length
  if sumCardinality = 0 then some none
  else (crossIndices target margVars this).map fun sumIndices => some ⟨margVars, sumIndices⟩

/-- `VariableSet_ComputeMulInd`. -/
def computeMulInd (this target : VariableSet o) : Option (MulInd o) :=
  let itrVars := createFromBv (this.bv.xor target.bv)
  (crossIndices this itrVars target).map fun targetIndices => ⟨this, targetIndices⟩

/-! ## Assignments -/

/-- The table index of the restriction of `x`. -/
def index (this : VariableSet o) (x : Assignment) : ℕ :=
  MixedRadix.encode this.getVblCardinalities (this.ranks.map x)

/-- The variables of the set have values in range. -/
def InRange (this : VariableSet o) (x : Assignment) : Prop := ∀ i ∈ this.vars, x i ∈ o.dom i

theorem InRange.forall₂ {this : VariableSet o} {x : Assignment} (h : this.InRange x) :
    List.Forall₂ (· < ·) (this.ranks.map x) this.getVblCardinalities := by
  rw [getVblCardinalities, List.forall₂_map_left_iff, List.forall₂_map_right_iff,
    List.forall₂_same]
  intro i hi
  exact VariableOrdering.mem_dom.mp (h i (mem_vars_iff_mem_ranks.mpr hi))

theorem InRange.mono {this other : VariableSet o} {x : Assignment} (h : other.InRange x)
    (hsub : this.vars ⊆ other.vars) : this.InRange x := fun i hi => h i (hsub hi)

theorem inRange_of_complete (this : VariableSet o) {x : Assignment} (h : o.Complete x) :
    this.InRange x := fun i hi => h i (mem_vars.mp hi).1

theorem index_lt {this : VariableSet o} {x : Assignment} (h : this.InRange x) :
    this.index x < this.getCardinality := MixedRadix.encode_lt h.forall₂

theorem index_congr {this : VariableSet o} {x y : Assignment} (h : ∀ i ∈ this.vars, x i = y i) :
    this.index x = this.index y := by
  rw [index, index, List.map_congr_left fun i hi => h i (mem_vars_iff_mem_ranks.mpr hi)]

theorem eq_of_index_eq {this : VariableSet o} {x y : Assignment} (hx : this.InRange x)
    (hy : this.InRange y) (h : this.index x = this.index y) : ∀ i ∈ this.vars, x i = y i := by
  intro i hi
  have hmap := MixedRadix.encode_inj hx.forall₂ hy.forall₂ h
  exact List.map_inj_left.mp hmap i (mem_vars_iff_mem_ranks.mp hi)

/-- `VariableSet_ComputeIndex` at the values of an assignment. -/
theorem computeIndex_map {this : VariableSet o} (hne : this.ranks ≠ []) {x : Assignment}
    (h : this.InRange x) : this.computeIndex (this.ranks.map x) = some (this.index x) :=
  computeIndex_eq h.forall₂ fun hnil => hne (List.map_eq_nil_iff.mp hnil)

/-- `x` overwritten by the tuple `t` on the listed ranks. -/
def assign : List ℕ → List ℕ → Assignment → Assignment
  | i :: is, a :: t, x => assign is t (Function.update x i a)
  | _, _, x => x

theorem assign_of_not_mem {is t : List ℕ} {x : Assignment} {i : ℕ} (h : i ∉ is) :
    assign is t x i = x i := by
  induction is generalizing t x with
  | nil => rfl
  | cons j is ih =>
      rw [List.mem_cons, not_or] at h
      cases t with
      | nil => rfl
      | cons a t => rw [assign, ih h.2, Function.update_of_ne h.1]

theorem map_assign {is t : List ℕ} (hnodup : is.Nodup) (hlen : t.length = is.length)
    (x : Assignment) : is.map (assign is t x) = t := by
  induction is generalizing t x with
  | nil => exact (List.length_eq_zero_iff.mp hlen).symm
  | cons i is ih =>
      rw [List.nodup_cons] at hnodup
      cases t with
      | nil => simp at hlen
      | cons a t =>
          have hhead : assign (i :: is) (a :: t) x i = a := by
            rw [assign, assign_of_not_mem hnodup.1, Function.update_self]
          rw [List.map_cons, hhead, assign, ih hnodup.2 (by simpa using hlen)]

/-- Overwriting with the values an assignment already has. -/
theorem assign_map {is : List ℕ} (hnodup : is.Nodup) (x y : Assignment) {i : ℕ} (hi : i ∈ is) :
    assign is (is.map y) x i = y i :=
  List.map_inj_left.mp (map_assign hnodup (List.length_map y) x) i hi

/-- The tuples in range over a set are the restrictions of assignments in range. -/
theorem mem_tuples_iff {this : VariableSet o} {t : List ℕ} :
    t ∈ MixedRadix.tuples this.getVblCardinalities ↔
      ∃ x, this.InRange x ∧ this.ranks.map x = t := by
  rw [MixedRadix.mem_tuples_iff]
  constructor
  · intro h
    have hlen : t.length = this.ranks.length := by
      rw [h.length_eq, getVblCardinalities, List.length_map]
    have hmap := map_assign this.ranks_nodup hlen fun _ => 0
    refine ⟨assign this.ranks t fun _ => 0, fun i hi => ?_, hmap⟩
    rw [← hmap, getVblCardinalities, List.forall₂_map_left_iff, List.forall₂_map_right_iff,
      List.forall₂_same] at h
    exact VariableOrdering.mem_dom.mpr (h i (mem_vars_iff_mem_ranks.mp hi))
  · rintro ⟨x, hx, rfl⟩
    exact hx.forall₂

/-! ## Rows -/

/-- `rows` and `cols` split the variables of `all`. -/
structure Splits (rows cols all : VariableSet o) : Prop where
  disjoint : Disjoint rows.vars cols.vars
  union : all.vars = rows.vars ∪ cols.vars

theorem splits_xor {this other : VariableSet o} (h : this.vars ⊆ other.vars) :
    Splits this (createFromBv (this.bv.xor other.bv)) other where
  disjoint := by
    rw [vars_xor _ _ h]
    exact Finset.disjoint_sdiff
  union := by rw [vars_xor _ _ h, Finset.union_sdiff_of_subset h]

/-- The row of the assignment `x`: the indices of its extensions. -/
def row (cols all : VariableSet o) (x : Assignment) : List ℕ :=
  (MixedRadix.tuples cols.getVblCardinalities).map fun d => all.index (assign cols.ranks d x)

theorem Splits.inRange_assign {rows cols all : VariableSet o} (h : Splits rows cols all)
    {x : Assignment} (hx : rows.InRange x) {d : List ℕ}
    (hd : d ∈ MixedRadix.tuples cols.getVblCardinalities) :
    all.InRange (assign cols.ranks d x) := by
  obtain ⟨y, hy, rfl⟩ := mem_tuples_iff.mp hd
  intro i hi
  rw [h.union, Finset.mem_union] at hi
  rcases hi with hi | hi
  · rw [assign_of_not_mem fun hmem => Finset.disjoint_left.mp h.disjoint hi
      (mem_vars_iff_mem_ranks.mpr hmem)]
    exact hx i hi
  · rw [assign_map cols.ranks_nodup x y (mem_vars_iff_mem_ranks.mp hi)]
    exact hy i hi

theorem Splits.row_congr {rows cols all : VariableSet o} (h : Splits rows cols all)
    {x y : Assignment} (hxy : rows.ranks.map x = rows.ranks.map y) :
    row cols all x = row cols all y := by
  refine List.map_congr_left fun d hd => index_congr fun i hi => ?_
  obtain ⟨z, -, rfl⟩ := mem_tuples_iff.mp hd
  rw [h.union, Finset.mem_union] at hi
  by_cases hcols : i ∈ cols.ranks
  · rw [assign_map cols.ranks_nodup x z hcols, assign_map cols.ranks_nodup y z hcols]
  · have hrows := hi.resolve_right fun hmem => hcols (mem_vars_iff_mem_ranks.mp hmem)
    rw [assign_of_not_mem hcols, assign_of_not_mem hcols]
    exact List.map_inj_left.mp hxy i (mem_vars_iff_mem_ranks.mp hrows)

/-- The assignment that has the tuple `s` on `rows`. -/
def ofTuple (rows : VariableSet o) (s : List ℕ) : Assignment := assign rows.ranks s fun _ => 0

theorem map_ofTuple {rows : VariableSet o} {s : List ℕ}
    (hs : s ∈ MixedRadix.tuples rows.getVblCardinalities) :
    rows.ranks.map (rows.ofTuple s) = s := by
  obtain ⟨x, -, rfl⟩ := mem_tuples_iff.mp hs
  exact map_assign rows.ranks_nodup (List.length_map x) _

theorem inRange_ofTuple {rows : VariableSet o} {s : List ℕ}
    (hs : s ∈ MixedRadix.tuples rows.getVblCardinalities) : rows.InRange (rows.ofTuple s) := by
  obtain ⟨x, hx, rfl⟩ := mem_tuples_iff.mp hs
  intro i hi
  rw [ofTuple, assign_map rows.ranks_nodup _ x (mem_vars_iff_mem_ranks.mp hi)]
  exact hx i hi

/-- A tuple of `rows` crossed with those of `cols`, whatever stands for the values: the
extensions of its assignment. -/
theorem indexCross_tuples {V : Type} {rows cols all : VariableSet o} (h : Splits rows cols all)
    {s : List ℕ} (hs : s ∈ MixedRadix.tuples rows.getVblCardinalities) (g : ℕ → V) :
    indexCross rows (s.map g) cols ((MixedRadix.tuples cols.getVblCardinalities).map (List.map g)) =
      (MixedRadix.tuples cols.getVblCardinalities).map fun d =>
        (all.ranks.map (assign cols.ranks d (rows.ofTuple s))).map fun value => some (g value) := by
  set x : List ℕ → Assignment := fun d => assign cols.ranks d (rows.ofTuple s) with hx
  -- every tuple of `cols` is read off the assignment it makes of `s`
  have hcolsMap : (MixedRadix.tuples cols.getVblCardinalities).map (List.map g) =
      (MixedRadix.tuples cols.getVblCardinalities).map fun d =>
        cols.ranks.map fun i => g (x d i) := by
    refine List.map_congr_left fun d hd => ?_
    obtain ⟨y, -, rfl⟩ := mem_tuples_iff.mp hd
    have hread : cols.ranks.map (x (cols.ranks.map y)) = cols.ranks.map y :=
      map_assign cols.ranks_nodup (List.length_map y) _
    calc (cols.ranks.map y).map g
        = (cols.ranks.map (x (cols.ranks.map y))).map g := by rw [hread]
      _ = cols.ranks.map fun i => g (x (cols.ranks.map y) i) := List.map_map ..
  have hrowsMap : ∀ d ∈ MixedRadix.tuples cols.getVblCardinalities,
      (rows.ranks.map fun i => g (x d i)) = s.map g := by
    intro d _
    rw [← map_ofTuple hs, List.map_map]
    refine List.map_congr_left fun i hi => congrArg g ?_
    exact assign_of_not_mem fun hmem => Finset.disjoint_left.mp h.disjoint
      (mem_vars_iff_mem_ranks.mpr hi) (mem_vars_iff_mem_ranks.mpr hmem)
  rw [hcolsMap, indexCross_eq h.disjoint h.union _ (fun d i => g (x d i)) _ hrowsMap]
  simp only [hx, List.map_map, Function.comp_def]

theorem Splits.ranks_ne_nil {rows cols all : VariableSet o} (h : Splits rows cols all)
    (hrows : rows.ranks ≠ []) : all.ranks ≠ [] := by
  intro hnil
  obtain ⟨i, hi⟩ := List.exists_mem_of_ne_nil _ hrows
  have hmem : i ∈ all.vars := by
    rw [h.union]
    exact Finset.mem_union_left _ (mem_vars_iff_mem_ranks.mpr hi)
  rw [mem_vars_iff_mem_ranks, hnil] at hmem
  exact absurd hmem List.not_mem_nil

/-- **The index tables.** -/
theorem crossIndices_eq {rows cols all : VariableSet o} (h : Splits rows cols all)
    (hrows : rows.ranks ≠ []) (hcols : cols.ranks ≠ []) :
    crossIndices rows cols all =
      some ((MixedRadix.tuples rows.getVblCardinalities).map fun s =>
        row cols all (rows.ofTuple s)) := by
  rw [crossIndices, enumerateValues_eq hrows, enumerateValues_eq hcols]
  refine PartialLoops.mapM_eq_some fun s hs => ?_
  have hcross := indexCross_tuples h hs id
  simp only [List.map_id_fun, List.map_id, id_eq] at hcross
  rw [hcross, computeIndices, List.mapM_map]
  refine PartialLoops.mapM_eq_some fun d hd => ?_
  exact computeIndex_map (h.ranks_ne_nil hrows) (h.inRange_assign (inRange_ofTuple hs) hd)

end VariableSet

end JunctionBox
