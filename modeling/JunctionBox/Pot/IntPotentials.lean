import JunctionBox.Pot.IndexTables
import JunctionBox.Pot.IntTables

/-!
# Potentials and index tables in `int`

`Pot.createTabular` and the index tables of `MulInd` count with natural numbers.
The source counts with `int`: the size of a table is the wrapped product of the
cardinalities, and the enumeration of a set may divide by zero.  This file makes
potentials and index tables from the numbers of `IntTables`.

A set `FitsInt` when the product of its cardinalities is at most `INT_MAX`.  A
table has the size that its variables ask for only then
(`tableSize_eq_iff`), and where all sets of an index table fit, it is the one
of the natural numbers (`computeMargInd_eq`, `computeMulInd_eq`).  A set with a
variable without values has the size zero whatever the other cardinalities are,
so its subsets may be too large; its index table has no rows, and all that is
left of the computation is whether the enumeration of the other variables
divides by zero (`computeMargInd_of_zero`, `computeMulInd_of_zero`).
-/

namespace JunctionBox

variable {o : VariableOrdering}

namespace VariableSet

/-- The product of the cardinalities is at most `INT_MAX`. -/
def FitsInt (this : VariableSet o) : Prop := (this.getCardinality : ℤ) ≤ CInt.intMax

instance (this : VariableSet o) : Decidable this.FitsInt :=
  inferInstanceAs (Decidable ((this.getCardinality : ℤ) ≤ CInt.intMax))

theorem fitsInt_of_eq_zero {this : VariableSet o} (h : this.getCardinality = 0) :
    this.FitsInt := by
  unfold FitsInt
  rw [h]
  decide

/-- A set fits in which every variable has a value, if a larger one does. -/
theorem FitsInt.mono {this other : VariableSet o} (h : other.FitsInt)
    (hpos : other.getCardinality ≠ 0) (hsub : this.vars ⊆ other.vars) : this.FitsInt := by
  have hdvd : this.getCardinality ∣ other.getCardinality := by
    rw [getCardinality_eq_prod, getCardinality_eq_prod]
    exact Finset.prod_dvd_prod_of_subset _ _ _ hsub
  have hle := Nat.le_of_dvd (Nat.pos_of_ne_zero hpos) hdvd
  exact (Int.ofNat_le.mpr hle).trans h

theorem nonempty_of_eq_zero {this : VariableSet o} (h : this.getCardinality = 0) :
    this.vars.Nonempty := by
  rw [Finset.nonempty_iff_ne_empty]
  intro hempty
  rw [getCardinality_eq_prod, hempty, Finset.prod_empty] at h
  exact absurd h one_ne_zero

/-- What is left of a set that fits when a set with values is taken out. -/
theorem FitsInt.xor {this other : VariableSet o} (h : other.FitsInt)
    (hsub : this.vars ⊆ other.vars) (hpos : this.getCardinality ≠ 0) :
    (createFromBv (this.bv.xor other.bv) : VariableSet o).FitsInt := by
  by_cases hzero : other.getCardinality = 0
  · apply fitsInt_of_eq_zero
    rw [getCardinality_eq_mul hsub, ← vars_xor _ _ hsub, ← getCardinality_eq_prod] at hzero
    exact (Nat.mul_eq_zero.mp hzero).resolve_left hpos
  · apply h.mono hzero
    rw [vars_xor _ _ hsub]
    exact Finset.sdiff_subset

end VariableSet

namespace IntTables

open VariableSet

/-! ## Index tables -/

/-- The place in a table that an index stands for. -/
def toPlace (index : ℤ) : Option ℕ := if 0 ≤ index then some index.toNat else none

/-- The loops shared by the two functions below. -/
def crossIndices (rowVars colVars all : VariableSet o) (rows cols : List (List ℤ)) :
    Option (List (List ℕ)) :=
  rows.mapM fun values => do
    let margin ← (indexCross rowVars values colVars cols).mapM fun row => row.mapM id
    let indices ← computeIndices all margin
    indices.mapM toPlace

/-- `VariableSet_ComputeMargInd`; the inner `none` is its `NULL`. -/
def computeMargInd (this target : VariableSet o) : Option (Option (MulInd o)) := do
  let margVars := createFromBv (this.bv.xor target.bv)
  let (sumCardinality, margIndices) ← enumerateValues margVars
  if sumCardinality = 0 then return none
  let (_, newPotIndices) ← enumerateValues target
  let sumIndices ← crossIndices target margVars this newPotIndices margIndices
  return some ⟨margVars, sumIndices⟩

/-- `VariableSet_ComputeMulInd`. -/
def computeMulInd (this target : VariableSet o) : Option (MulInd o) := do
  let itrVars := createFromBv (this.bv.xor target.bv)
  let (_, itrIndices) ← enumerateValues itrVars
  let (_, thisIndices) ← enumerateValues this
  let targetIndices ← crossIndices this itrVars target thisIndices itrIndices
  return ⟨this, targetIndices⟩

/-- `MulMemo_GetMulInd`. -/
def getMulInd (this : MulMemo o (MulInd o)) (vbls target : VariableSet o) :
    Option (MulInd o × MulMemo o (MulInd o)) :=
  MulMemo.getMemoized (computeMulInd vbls) this target

/-- `MulMemo_GetMargInd`. -/
def getMargInd (this : MulMemo o (Option (MulInd o))) (vbls target : VariableSet o) :
    Option (Option (MulInd o) × MulMemo o (Option (MulInd o))) :=
  MulMemo.getMemoized (computeMargInd vbls) this target

theorem mapM_toPlace (indices : List ℕ) :
    (indices.map Nat.cast).mapM toPlace = some indices := by
  rw [List.mapM_map]
  have h : indices.mapM (toPlace ∘ Nat.cast) = some (indices.map id) :=
    PartialLoops.mapM_eq_some fun i _ => by simp [toPlace]
  rwa [List.map_id] at h

theorem mapM_id_some {V : Type} (values : List V) : (values.map some).mapM id = some values := by
  rw [List.mapM_map]
  have h : values.mapM (id ∘ some) = some (values.map id) :=
    PartialLoops.mapM_eq_some fun _ _ => rfl
  rwa [List.map_id] at h

theorem enumerateValues_of_empty {this : VariableSet o} (h : ¬this.vars.Nonempty) :
    this.enumerateValues = [] :=
  enumerateValues_eq_nil (not_not.mp (mt ranks_ne_nil_iff.mp h))

/-- The rows of the enumeration of a set that fits. -/
theorem enumerateValues_of_fits {this : VariableSet o} (h : this.FitsInt) :
    ∃ size, enumerateValues this =
        some (size, this.enumerateValues.map (List.map Nat.cast)) ∧
      (size = 0 ↔ this.enumerateValues.length = 0) := by
  by_cases hne : this.vars.Nonempty
  · have hrows := VariableSet.enumerateValues_eq (ranks_ne_nil_iff.mpr hne)
    refine ⟨_, hrows ▸ IntTables.enumerateValues_eq hne h, ?_⟩
    rw [length_enumerateValues (ranks_ne_nil_iff.mpr hne)]
    exact Int.natCast_eq_zero
  · have hnum : this.getNumVbls = 0 := by
      rw [getNumVbls_eq, List.length_eq_zero_iff]
      exact not_not.mp (mt ranks_ne_nil_iff.mp hne)
    refine ⟨0, ?_, ?_⟩
    · rw [enumerateValues, if_pos hnum, VariableSet.enumerateValues, if_pos hnum]
      rfl
    · rw [VariableSet.enumerateValues, if_pos hnum]
      simp

/-- The row of a tuple. -/
theorem crossIndices_row {rows cols all : VariableSet o} (h : Splits rows cols all)
    (hrows : rows.vars.Nonempty) (hall : all.FitsInt) {s : List ℕ}
    (hs : s ∈ MixedRadix.tuples rows.getVblCardinalities) :
    (do
      let margin ← (indexCross rows (s.map Nat.cast) cols
        ((MixedRadix.tuples cols.getVblCardinalities).map (List.map Nat.cast))).mapM
          fun row => row.mapM id
      let indices ← computeIndices all margin
      indices.mapM toPlace) = some (row cols all (rows.ofTuple s)) := by
  have hmargin : (indexCross rows (s.map Nat.cast) cols
      ((MixedRadix.tuples cols.getVblCardinalities).map (List.map Nat.cast))).mapM
        (fun row => row.mapM id) =
      some ((MixedRadix.tuples cols.getVblCardinalities).map fun d =>
        (all.ranks.map (assign cols.ranks d (rows.ofTuple s))).map (Nat.cast : ℕ → ℤ)) := by
    rw [indexCross_tuples h hs, List.mapM_map]
    refine PartialLoops.mapM_eq_some fun d _ => ?_
    have hread := mapM_id_some
      ((all.ranks.map (assign cols.ranks d (rows.ofTuple s))).map (Nat.cast : ℕ → ℤ))
    rw [List.map_map] at hread
    exact hread
  have hindices : computeIndices all ((MixedRadix.tuples cols.getVblCardinalities).map fun d =>
      (all.ranks.map (assign cols.ranks d (rows.ofTuple s))).map (Nat.cast : ℕ → ℤ)) =
      some ((row cols all (rows.ofTuple s)).map Nat.cast) := by
    rw [computeIndices, List.mapM_map, row, List.map_map]
    refine PartialLoops.mapM_eq_some fun d hd => ?_
    refine computeIndex_natCast (ranks_ne_nil_iff.mp (h.ranks_ne_nil
      (ranks_ne_nil_iff.mpr hrows))) hall ?_
    exact mem_tuples_iff.mpr ⟨_, h.inRange_assign (inRange_ofTuple hs) hd, rfl⟩
  rw [hmargin, Option.bind_eq_bind, Option.bind_some, hindices, Option.bind_eq_bind,
    Option.bind_some, mapM_toPlace]

/-- **The index tables** of sets that fit. -/
theorem crossIndices_eq {rows cols all : VariableSet o} (h : Splits rows cols all)
    (hall : all.FitsInt) :
    crossIndices rows cols all (rows.enumerateValues.map (List.map Nat.cast))
        (cols.enumerateValues.map (List.map Nat.cast)) =
      VariableSet.crossIndices rows cols all := by
  by_cases hrows : rows.vars.Nonempty
  · have hne := ranks_ne_nil_iff.mpr hrows
    by_cases hcols : cols.vars.Nonempty
    · have hne' := ranks_ne_nil_iff.mpr hcols
      rw [VariableSet.crossIndices_eq h hne hne', VariableSet.enumerateValues_eq hne,
        VariableSet.enumerateValues_eq hne', crossIndices, List.mapM_map]
      exact PartialLoops.mapM_eq_some fun s hs => crossIndices_row h hrows hall hs
    · rw [crossIndices, VariableSet.crossIndices, enumerateValues_of_empty hcols, List.mapM_map]
      rfl
  · rw [crossIndices, VariableSet.crossIndices, enumerateValues_of_empty hrows]
    rfl

/-- The index table of a set and a larger one that both fit, as do the other variables. -/
theorem computeMulInd_eq {this target : VariableSet o} (hsub : this.vars ⊆ target.vars)
    (hthis : this.FitsInt) (hitr : (createFromBv (this.bv.xor target.bv) : VariableSet o).FitsInt)
    (htarget : target.FitsInt) : computeMulInd this target = this.computeMulInd target := by
  obtain ⟨_, hitrRows, _⟩ := enumerateValues_of_fits hitr
  obtain ⟨_, hthisRows, _⟩ := enumerateValues_of_fits hthis
  have hcross := crossIndices_eq (splits_xor hsub) htarget
  unfold computeMulInd VariableSet.computeMulInd
  simp only [hitrRows, hthisRows, hcross, Option.bind_eq_bind, Option.bind_some]
  cases VariableSet.crossIndices this (createFromBv (this.bv.xor target.bv)) target <;> rfl

/-- The index table of a set and a smaller one. -/
theorem computeMargInd_eq {this target : VariableSet o} (hsub : target.vars ⊆ this.vars)
    (htarget : target.FitsInt)
    (hmarg : (createFromBv (this.bv.xor target.bv) : VariableSet o).FitsInt)
    (hthis : this.FitsInt) : computeMargInd this target = this.computeMargInd target := by
  obtain ⟨size, hmargRows, hsize⟩ := enumerateValues_of_fits hmarg
  obtain ⟨_, htargetRows, _⟩ := enumerateValues_of_fits htarget
  have hsplits : Splits target (createFromBv (this.bv.xor target.bv)) this := by
    rw [BitVector.xor_comm]
    exact splits_xor hsub
  have hcross := crossIndices_eq hsplits hthis
  unfold computeMargInd VariableSet.computeMargInd
  simp only [hmargRows, Option.bind_eq_bind, Option.bind_some]
  by_cases hzero : size = 0
  · rw [if_pos hzero, if_pos (hsize.mp hzero)]
    rfl
  · rw [if_neg hzero, if_neg (mt hsize.mpr hzero)]
    simp only [htargetRows, hcross, Option.bind_some]
    cases VariableSet.crossIndices target (createFromBv (this.bv.xor target.bv)) this <;> rfl

/-- A set with a variable without values has no tuples. -/
theorem enumerateValues_of_zero {this : VariableSet o} (h : this.getCardinality = 0) :
    enumerateValues this = some (0, []) := by
  obtain ⟨size, hrows, hsize⟩ := enumerateValues_of_fits (fitsInt_of_eq_zero h)
  have hnil : this.enumerateValues = [] := by
    rw [← List.length_eq_zero_iff,
      length_enumerateValues (ranks_ne_nil_iff.mpr (nonempty_of_eq_zero h)), h]
  rw [hnil] at hrows hsize
  rw [hrows, hsize.mpr rfl]
  rfl

/-- Where a set has a variable without values its index table has no rows, provided that the
other variables can be enumerated. -/
theorem computeMulInd_of_zero {this : VariableSet o} (h : this.getCardinality = 0)
    (target : VariableSet o) :
    computeMulInd this target =
      (enumerateValues (createFromBv (this.bv.xor target.bv) : VariableSet o)).map fun _ =>
        ⟨this, []⟩ := by
  unfold computeMulInd
  simp only [enumerateValues_of_zero h]
  cases enumerateValues (createFromBv (this.bv.xor target.bv) : VariableSet o) <;> rfl

theorem computeMargInd_of_zero {target : VariableSet o} (h : target.getCardinality = 0)
    (this : VariableSet o) :
    computeMargInd this target =
      (enumerateValues (createFromBv (this.bv.xor target.bv) : VariableSet o)).map fun margin =>
        if margin.1 = 0 then none
        else some ⟨createFromBv (this.bv.xor target.bv), []⟩ := by
  unfold computeMargInd
  simp only [enumerateValues_of_zero h]
  cases enumerateValues (createFromBv (this.bv.xor target.bv) : VariableSet o) with
  | none => rfl
  | some margin =>
      simp only [Option.bind_eq_bind, Option.bind_some, Option.map_some]
      by_cases hzero : margin.1 = 0
      · rw [if_pos hzero, if_pos hzero]
        rfl
      · rw [if_neg hzero, if_neg hzero]
        rfl

/-- When nothing is summed out, or something without values, the result is `NULL`. -/
theorem computeMargInd_eq_null {this target : VariableSet o}
    (h : (createFromBv (this.bv.xor target.bv) : VariableSet o).enumerateValues = [])
    (hfits : (createFromBv (this.bv.xor target.bv) : VariableSet o).FitsInt) :
    computeMargInd this target = some none := by
  obtain ⟨size, hrows, hsize⟩ := enumerateValues_of_fits hfits
  rw [h] at hrows hsize
  unfold computeMargInd
  simp only [hrows, hsize.mpr rfl, Option.bind_eq_bind, Option.bind_some, if_true]
  rfl

/-! ## Potentials -/

/-- The rounds of a loop up to the `tableSize` of a potential. -/
def tableSize (vbls : VariableSet o) : ℕ := (createTabularSize vbls).toNat

variable {α : Type}

/-- `Pot_CreateTabular`. -/
def createTabular (vbls : VariableSet o) (valueData : List α) : Pot o α where
  vbls := vbls
  tabData := valueData
  tableSize := tableSize vbls

/-- `Pot_CreateTabularUnity`, `Pot_CreateTabularUnityLog`. -/
def createTabularUnity (A : Arith α) (vbls : VariableSet o) : Pot o α :=
  createTabular vbls (List.replicate (tableSize vbls) A.unit)

/-- `Pot_CreateTabularUnInit`; `memory` is what the allocator left there. -/
def createTabularUnInit (vbls : VariableSet o) (memory : ℕ → α) : Pot o α :=
  createTabular vbls ((List.range (tableSize vbls)).map memory)

/-- `Pot_UpdateRatioTabular`, `Pot_UpdateRatioTabularLog`. -/
def updateRatioTabular (A : Arith α) (newSep oldSep : Pot o α) : Option (Pot o α) :=
  ((List.range newSep.tableSize).mapM fun i => do
    let old ← oldSep.tabData[i]?
    let new ← newSep.tabData[i]?
    return A.ratio new old).map (createTabular newSep.vbls)

/-- `Pot_SumMarginTabular`, `Pot_SumMarginTabularLog`. -/
def sumMarginTabular (A : Arith α) (p : Pot o α) (mi : MulInd o) : Option (Pot o α) :=
  (Pot.Arithmetic.sumRows A p mi).map (createTabular mi.vbls)

theorem createTabularSize_eq (vbls : VariableSet o) :
    createTabularSize vbls = CInt.wrap vbls.getCardinality := arrayProduct_eq _

/-- **The size of a table** is the one its variables ask for if and only if that fits. -/
theorem tableSize_eq_iff {vbls : VariableSet o} :
    tableSize vbls = vbls.getCardinality ↔ vbls.FitsInt := by
  unfold tableSize VariableSet.FitsInt
  rw [createTabularSize_eq]
  have hle := CInt.wrap_le (vbls.getCardinality : ℤ)
  constructor
  · intro h
    rw [← h]
    exact max_le hle (by decide) |>.trans' (Int.ofNat_toNat _).le
  · intro h
    rw [CInt.wrap_eq_self (Int.natCast_nonneg _) h, Int.toNat_natCast]

theorem createTabular_eq {vbls : VariableSet o} (h : vbls.FitsInt) (valueData : List α) :
    createTabular vbls valueData = Pot.createTabular vbls valueData := by
  unfold createTabular
  rw [tableSize_eq_iff.mpr h]
  rfl

theorem createTabularUnity_eq (A : Arith α) {vbls : VariableSet o} (h : vbls.FitsInt) :
    createTabularUnity A vbls = Pot.Arithmetic.createTabularUnity A vbls := by
  unfold createTabularUnity
  rw [createTabular_eq h, tableSize_eq_iff.mpr h]
  rfl

theorem updateRatioTabular_eq (A : Arith α) {newSep oldSep : Pot o α} (h : newSep.vbls.FitsInt) :
    updateRatioTabular A newSep oldSep = Pot.Arithmetic.updateRatioTabular A newSep oldSep := by
  unfold updateRatioTabular Pot.Arithmetic.updateRatioTabular
  rw [funext (createTabular_eq h)]

theorem sumMarginTabular_eq (A : Arith α) {p : Pot o α} {mi : MulInd o} (h : mi.vbls.FitsInt) :
    sumMarginTabular A p mi = Pot.Arithmetic.sumMarginTabular A p mi := by
  unfold sumMarginTabular Pot.Arithmetic.sumMarginTabular
  rw [funext (createTabular_eq h)]

/-! ## Products -/

theorem enumerateValues_congr {this other : VariableSet o} (h : this.vars = other.vars) :
    enumerateValues this = enumerateValues other := by
  unfold enumerateValues
  simp only [getNumVbls_eq, bitProduct_eq_arrayProduct, getVblCardinalities,
    ranks_eq_of_vars_eq h]

theorem getCardinality_congr {this other : VariableSet o} (h : this.vars = other.vars) :
    this.getCardinality = other.getCardinality := by
  rw [getCardinality_eq_prod, getCardinality_eq_prod, h]

/-- A table over `vbls` can be multiplied into one over `all`: where that has a variable without
values, `vbls` are all its variables, or they have no values either and the others can be
enumerated. -/
def CanEnter (vbls all : VariableSet o) : Prop :=
  all.getCardinality = 0 → vbls.vars = all.vars ∨ vbls.getCardinality = 0 ∧
    (enumerateValues (createFromBv (all.bv.xor vbls.bv) : VariableSet o)).isSome

section Products

variable {p q : Pot o α} {key : VariableSet o}

/-- The index table, or its absence, for a table that can be multiplied in. -/
theorem exists_computeMargInd (A : Arith α) {f g : Assignment → α} (hp : p.Represents f)
    (hq : q.Represents g) (hfits : q.vbls.FitsInt) (hne : p.vbls.vars.Nonempty)
    (hsub : p.vbls.vars ⊆ q.vbls.vars) (henter : CanEnter p.vbls q.vbls)
    (hkey : key.vars = p.vbls.vars) :
    ∃ mi r, computeMargInd q.vbls key = some mi ∧
      Pot.Arithmetic.productTabular A p q mi = some r ∧ r.vbls = q.vbls ∧
      r.Represents fun x => A.times (f x) (g x) := by
  have hmarg : (createFromBv (q.vbls.bv.xor key.bv) : VariableSet o).vars =
      (createFromBv (q.vbls.bv.xor p.vbls.bv) : VariableSet o).vars := vars_xor_congr hkey
  by_cases hvars : p.vbls.vars = q.vbls.vars
  · -- nothing is summed out
    have hempty : ¬(createFromBv (q.vbls.bv.xor key.bv) : VariableSet o).vars.Nonempty := by
      rw [vars_xor _ _ (hvars ▸ hkey.symm.subset), hkey, hvars, Finset.sdiff_self]
      exact Finset.not_nonempty_empty
    have hfits' : (createFromBv (q.vbls.bv.xor key.bv) : VariableSet o).FitsInt := by
      unfold VariableSet.FitsInt
      rw [getCardinality_eq_prod, Finset.not_nonempty_iff_eq_empty.mp hempty, Finset.prod_empty]
      decide
    obtain ⟨r, hrun, hvbls, hr⟩ := Pot.Arithmetic.productTabular_none_represents (A := A) hp hq
      hvars
    exact ⟨none, r, computeMargInd_eq_null (enumerateValues_of_empty hempty) hfits', hrun, hvbls,
      hr⟩
  have hproper : key.vars ⊂ q.vbls.vars := hkey ▸ hsub.ssubset_of_ne hvars
  by_cases hzero : q.vbls.getCardinality = 0
  · -- no entries, and none to be multiplied
    obtain ⟨hpzero, hrest⟩ := (henter hzero).resolve_left hvars
    obtain ⟨rest, hrest⟩ := Option.isSome_iff_exists.mp hrest
    have hcompute := computeMargInd_of_zero ((getCardinality_congr hkey).trans hpzero) q.vbls
    rw [enumerateValues_congr hmarg, hrest, Option.map_some] at hcompute
    refine ⟨_, q, hcompute, Pot.Arithmetic.productTabular_of_nil A ?_, rfl,
      hq.sized.represents_of_isEmpty hzero _⟩
    split
    · rw [Pot.productEntries, hp.sized.tableSize, hpzero]
      rfl
    · rfl
  · have hcard : (createFromBv (q.vbls.bv.xor key.bv) : VariableSet o).getCardinality ≠ 0 := by
      rw [getCardinality_xor hproper.subset]
      rw [getCardinality_eq_mul hproper.subset] at hzero
      exact fun h => hzero (by rw [h, Nat.mul_zero])
    have hrest : (createFromBv (q.vbls.bv.xor key.bv) : VariableSet o).vars ⊆ q.vbls.vars := by
      rw [BitVector.xor_comm, vars_xor _ _ hproper.subset]
      exact Finset.sdiff_subset
    obtain ⟨mi, hmi, hindexes⟩ := computeMargInd_indexes_of_ne (hkey ▸ hne) hproper hcard
    obtain ⟨cols, hsplit, htable⟩ := hindexes.congr hkey (Eq.refl q.vbls.vars)
    obtain ⟨r, hrun, hvbls, hr⟩ := Pot.Arithmetic.productTabular_represents (A := A) hp hq hsplit
      htable
    refine ⟨some mi, r, ?_, hrun, hvbls, hr⟩
    rw [computeMargInd_eq hproper.subset (hfits.mono hzero hproper.subset)
      (hfits.mono hzero hrest) hfits, hmi]

/-- Without it the enumeration divides by zero, or the product writes past a table without
entries. -/
theorem canEnter_of_product (A : Arith α) (hp : p.Sized) (hq : q.Sized)
    (hsub : p.vbls.vars ⊆ q.vbls.vars) (hkey : key.vars = p.vbls.vars)
    {mi : Option (MulInd o)} (hmi : computeMargInd q.vbls key = some mi) {r : Pot o α}
    (hrun : Pot.Arithmetic.productTabular A p q mi = some r) : CanEnter p.vbls q.vbls := by
  intro hzero
  have hsub' : key.vars ⊆ q.vbls.vars := hkey ▸ hsub
  rw [or_iff_not_imp_left]
  intro hvars
  by_cases hpzero : p.vbls.getCardinality = 0
  · rw [computeMargInd_of_zero ((getCardinality_congr hkey).trans hpzero),
      enumerateValues_congr (vars_xor_congr hkey)] at hmi
    obtain ⟨rest, hrest, -⟩ := Option.map_eq_some_iff.mp hmi
    exact ⟨hpzero, by rw [hrest]; rfl⟩
  · -- then the others have a variable without values, and the index table is `NULL`
    have hrest : (createFromBv (q.vbls.bv.xor key.bv) : VariableSet o).getCardinality = 0 := by
      rw [getCardinality_xor hsub']
      rw [getCardinality_eq_mul hsub', getCardinality_congr hkey] at hzero
      exact (Nat.mul_eq_zero.mp hzero).resolve_left hpzero
    have hrows := length_enumerateValues (ranks_ne_nil_iff.mpr (nonempty_of_eq_zero hrest))
    rw [hrest, List.length_eq_zero_iff] at hrows
    rw [computeMargInd_eq_null hrows (fitsInt_of_eq_zero hrest)] at hmi
    rw [← Option.some.inj hmi,
      Pot.Arithmetic.productTabular_none_eq_none A hp hq hpzero hzero] at hrun
    exact absurd hrun (by simp)

variable {memo memo' : MulMemo o (Option (MulInd o))} {mi : Option (MulInd o)}

/-- What the memo of the large table returns leads to the product. -/
theorem productTabular_getMargInd (A : Arith α) {f g : Assignment → α} (hp : p.Represents f)
    (hq : q.Represents g) (hfits : q.vbls.FitsInt) (hne : p.vbls.vars.Nonempty)
    (hsub : p.vbls.vars ⊆ q.vbls.vars) (henter : CanEnter p.vbls q.vbls)
    (hmemo : MulMemo.Consistent (computeMargInd q.vbls) memo) :
    ∃ mi memo' r, getMargInd memo q.vbls p.vbls = some (mi, memo') ∧
      MulMemo.Consistent (computeMargInd q.vbls) memo' ∧
      Pot.Arithmetic.productTabular A p q mi = some r ∧ r.vbls = q.vbls ∧
      r.Represents fun x => A.times (f x) (g x) := by
  obtain ⟨mi₀, -, hmi₀, -⟩ := exists_computeMargInd A hp hq hfits hne hsub henter rfl
  obtain ⟨key, mi, memo', hget, hkey, hmi, hcons⟩ := MulMemo.getMemoized_eq hmemo hmi₀
  obtain ⟨mi', r, hmi', hrun⟩ := exists_computeMargInd A hp hq hfits hne hsub henter hkey
  obtain rfl : mi = mi' := Option.some.inj (hmi.symm.trans hmi')
  exact ⟨mi, memo', r, hget, hcons, hrun⟩

theorem canEnter_of_getMargInd (A : Arith α) (hp : p.Sized) (hq : q.Sized)
    (hsub : p.vbls.vars ⊆ q.vbls.vars)
    (hmemo : MulMemo.Consistent (computeMargInd q.vbls) memo)
    (hget : getMargInd memo q.vbls p.vbls = some (mi, memo')) {r : Pot o α}
    (hrun : Pot.Arithmetic.productTabular A p q mi = some r) : CanEnter p.vbls q.vbls := by
  have hfst := hmemo.fst_getMemoized p.vbls
  rw [show MulMemo.getMemoized (computeMargInd q.vbls) memo p.vbls = some (mi, memo') from hget,
    Option.map_some] at hfst
  rcases hfst with hmi | ⟨me, -, hequals, hmi⟩
  · exact canEnter_of_product A hp hq hsub rfl hmi.symm hrun
  · exact canEnter_of_product A hp hq hsub (MulMemo.vars_eq_of_equals hequals) hmi.symm hrun

end Products

end IntTables

end JunctionBox
