import JunctionBox.Pot.IntPotentials
import JunctionBox.Pot.Plain

/-!
# The size of a table

A potential records the size of its table and the set of its variables, and the
data come from somewhere else.  The size is an `int` product, which wraps around
when it does not fit.  The sum-margin takes the set from its index table and the
number of entries from the number of rows.  `VariableSet_ComputeMulInd` stores
the set that the rows run over; `VariableSet_ComputeMargInd` stores the set that
is summed out.  Neither makes a row for the empty set, whose table should have
one entry.

A `Recipe` is a way to make a potential, with the `int` functions of
`IntTables`.  `sound_iff` says which recipes keep the recorded size, the
variables and the data in step all the way: those over sets whose sizes fit that
take every sum-margin through `VariableSet_ComputeMulInd`, onto a set that is
not empty.
-/

namespace JunctionBox

namespace Pot

variable {o : VariableOrdering} {α : Type}

/-- The two functions that make an index table for a sum-margin. -/
inductive Indices where
  | computeMargInd
  | computeMulInd
deriving DecidableEq

/-- The index table for the margin of a potential over `vbls` onto `target`; a `NULL` is
about to be dereferenced. -/
def Indices.compute (vbls target : VariableSet o) : Indices → Option (MulInd o)
  | computeMargInd => (IntTables.computeMargInd vbls target).join
  | computeMulInd => IntTables.computeMulInd target vbls

/-- What a margin through `VariableSet_ComputeMargInd` records is not the target. -/
theorem Indices.vbls_ne_target {vbls target : VariableSet o} (h : target.vars ⊂ vbls.vars)
    {mi : MulInd o} (hmi : computeMargInd.compute vbls target = some mi) : mi.vbls ≠ target := by
  have hrun : IntTables.computeMargInd vbls target = some (some mi) :=
    Option.join_eq_some_iff.mp hmi
  have hvbls : mi.vbls = VariableSet.createFromBv (vbls.bv.xor target.bv) := by
    unfold IntTables.computeMargInd at hrun
    obtain ⟨⟨size, rows⟩, -, hrun⟩ := Option.bind_eq_some_iff.mp hrun
    simp only at hrun
    split at hrun
    · exact absurd hrun (by simp)
    · obtain ⟨_, -, hrun⟩ := Option.bind_eq_some_iff.mp hrun
      obtain ⟨_, -, hrun⟩ := Option.bind_eq_some_iff.mp hrun
      rw [← Option.some.inj (Option.some.inj hrun)]
  obtain ⟨i, hi, hnot⟩ := Finset.exists_of_ssubset h
  intro heq
  -- a variable that is summed out
  have hon : (VariableSet.createFromBv (vbls.bv.xor target.bv)).bv.on i = true := by
    have hlt := (VariableSet.mem_vars.mp hi).1
    have hoff : target.bv.on i = false := by
      rw [← Bool.not_eq_true]
      exact fun hon => hnot (VariableSet.mem_vars.mpr ⟨hlt, hon⟩)
    unfold VariableSet.createFromBv
    rw [BitVector.on_xor _ _ hlt, hoff, (VariableSet.mem_vars.mp hi).2]
    rfl
  rw [← hvbls, heq] at hon
  exact hnot (VariableSet.mem_vars.mpr ⟨(VariableSet.mem_vars.mp hi).1, hon⟩)

/-- What `VariableSet_ComputeMulInd` goes through, and what it records. -/
theorem Indices.exists_rows {vbls target : VariableSet o} {mi : MulInd o}
    (hmi : computeMulInd.compute vbls target = some mi) :
    (IntTables.enumerateValues (VariableSet.createFromBv (target.bv.xor vbls.bv))).isSome ∧
      ∃ itr rows, IntTables.enumerateValues target = some rows ∧
        IntTables.crossIndices target (VariableSet.createFromBv (target.bv.xor vbls.bv)) vbls
          rows.2 itr = some mi.secondIndices ∧ mi.vbls = target := by
  have hrun : IntTables.computeMulInd target vbls = some mi := hmi
  unfold IntTables.computeMulInd at hrun
  obtain ⟨⟨size, itr⟩, hitr, hrun⟩ := Option.bind_eq_some_iff.mp hrun
  obtain ⟨⟨size', rows⟩, hrows, hrun⟩ := Option.bind_eq_some_iff.mp hrun
  obtain ⟨indices, hindices, hrun⟩ := Option.bind_eq_some_iff.mp hrun
  rw [← Option.some.inj hrun]
  exact ⟨by rw [hitr]; rfl, itr, _, hrows, hindices, rfl⟩

/-- The margin onto the empty set has no entry. -/
theorem not_sized_of_empty {A : Arith α} {p r : Pot o α} {target : VariableSet o}
    (hempty : target.vars = ∅) {mi : MulInd o}
    (hmi : Indices.computeMulInd.compute p.vbls target = some mi)
    (hrun : IntTables.sumMarginTabular A p mi = some r) : ¬r.Sized := by
  have hranks : target.ranks = [] := by
    rw [List.eq_nil_iff_forall_not_mem]
    intro i hi
    rw [← VariableSet.mem_vars_iff_mem_ranks, hempty] at hi
    exact absurd hi (Finset.notMem_empty i)
  have hrows : IntTables.enumerateValues target = some (0, []) := by
    unfold IntTables.enumerateValues
    rw [if_pos]
    rw [VariableSet.getNumVbls, BitVector.getNumOnBits_eq]
    exact List.length_eq_zero_iff.mpr hranks
  obtain ⟨-, itr, rows, hrows', hcross, hvbls⟩ := Indices.exists_rows hmi
  obtain rfl : (0, []) = rows := Option.some.inj (hrows.symm.trans hrows')
  have hnil : mi.secondIndices = [] := (Option.some.inj hcross).symm
  obtain ⟨sums, hsums, rfl⟩ := Option.map_eq_some_iff.mp hrun
  unfold Arithmetic.sumRows at hsums
  rw [hnil, List.mapM_nil] at hsums
  intro hsized
  have hlen := hsized.length_tabData
  rw [hvbls, ← Option.some.inj hsums] at hlen
  unfold IntTables.createTabular VariableSet.getCardinality VariableSet.getVblCardinalities at hlen
  simp only [hranks, List.length_nil, List.map_nil, List.prod_nil] at hlen
  exact absurd hlen (by decide)

/-- A table with as many entries as its variables ask for records that number if and only if it
fits. -/
theorem sized_createTabular_iff {vbls : VariableSet o} {valueData : List α}
    (h : valueData.length = vbls.getCardinality) :
    (IntTables.createTabular vbls valueData).Sized ↔ vbls.FitsInt := by
  rw [← IntTables.tableSize_eq_iff]
  exact ⟨fun hsized => hsized.tableSize, fun hsize => ⟨hsize, h⟩⟩

theorem fitsInt_of_sized {vbls : VariableSet o} {valueData : List α}
    (h : (IntTables.createTabular vbls valueData).Sized) : vbls.FitsInt :=
  IntTables.tableSize_eq_iff.mp h.tableSize

/-- The margin with natural numbers. -/
theorem Sized.exists_sumMarginTabular {A : Arith α} {p : Pot o α} (hp : p.Sized)
    {target : VariableSet o} (hsub : target.vars ⊂ p.vbls.vars) (hne : target.vars.Nonempty) :
    ∃ mi r, target.computeMulInd p.vbls = some mi ∧
      Arithmetic.sumMarginTabular A p mi = some r ∧ r.Sized ∧ r.vbls = target := by
  set others := VariableSet.createFromBv (target.bv.xor p.vbls.bv) with hothers
  have hsplits : VariableSet.Splits target others p.vbls := VariableSet.splits_xor hsub.subset
  have hranks : ∀ {s : VariableSet o}, s.vars.Nonempty → s.ranks ≠ [] := by
    intro s hs hnil
    obtain ⟨i, hi⟩ := hs
    rw [VariableSet.mem_vars_iff_mem_ranks, hnil] at hi
    exact absurd hi List.not_mem_nil
  have hrest : others.vars.Nonempty := by
    obtain ⟨i, hi, hnot⟩ := Finset.exists_of_ssubset hsub
    rw [hsplits.union, Finset.mem_union] at hi
    exact ⟨i, hi.resolve_left hnot⟩
  set mi : MulInd o := ⟨target, (MixedRadix.tuples target.getVblCardinalities).map fun s =>
    VariableSet.row others p.vbls (target.ofTuple s)⟩ with hmi
  have hcompute : target.computeMulInd p.vbls = some mi := by
    unfold VariableSet.computeMulInd
    simp only
    rw [← hothers, VariableSet.crossIndices_eq hsplits (hranks hne) (hranks hrest)]
    rfl
  set f : Assignment → α := fun x => (p.entry x).getD A.unit with hf
  have hrep : p.Represents f := by
    refine ⟨hp, fun x hx => ?_⟩
    have hlt : p.vbls.index x < p.tabData.length := hp.length_tabData ▸ VariableSet.index_lt hx
    simp only [hf, entry]
    rw [List.getElem?_eq_getElem hlt, Option.getD_some]
  have hdepends : DependsOn f (p.vbls.vars : Set ℕ) := by
    intro x y hxy
    rw [hf]
    simp only [entry]
    rw [VariableSet.index_congr fun i hi => hxy i hi]
  have htable : Arithmetic.IsIndexTable mi target others p.vbls := rfl
  obtain ⟨r, hrun, hvbls, hr⟩ := Arithmetic.sumMarginTabular_represents (A := A) hrep hdepends
    hsplits htable rfl
  exact ⟨mi, r, hcompute, hrun, hr.sized, hvbls⟩

/-- A margin through `VariableSet_ComputeMulInd` onto a set that is not empty, of sizes that
fit. -/
theorem Sized.sumMarginTabular {A : Arith α} {p : Pot o α} (hp : p.Sized)
    {target : VariableSet o} (hsub : target.vars ⊂ p.vbls.vars) (hne : target.vars.Nonempty)
    (hfits : p.vbls.FitsInt) (htarget : target.FitsInt)
    (hrest : (IntTables.enumerateValues
      (VariableSet.createFromBv (target.bv.xor p.vbls.bv))).isSome) :
    ∃ mi r, Indices.computeMulInd.compute p.vbls target = some mi ∧
      IntTables.sumMarginTabular A p mi = some r ∧ r.Sized ∧ r.vbls = target := by
  by_cases hzero : target.getCardinality = 0
  · -- no rows, and no entries
    obtain ⟨rest, hrest⟩ := Option.isSome_iff_exists.mp hrest
    refine ⟨⟨target, []⟩, IntTables.createTabular target [], ?_, rfl, ?_, rfl⟩
    · show IntTables.computeMulInd target p.vbls = _
      rw [IntTables.computeMulInd_of_zero hzero, hrest]
      rfl
    · refine (sized_createTabular_iff ?_).mpr htarget
      exact hzero.symm
  have hitr := hfits.xor hsub.subset hzero
  obtain ⟨mi, r, hmi, hrun, hr, hvbls⟩ := hp.exists_sumMarginTabular (A := A) hsub hne
  have hmi' : mi.vbls.FitsInt := by
    obtain ⟨sums, -, rfl⟩ := Option.map_eq_some_iff.mp hrun
    rw [show mi.vbls = target from hvbls]
    exact htarget
  refine ⟨mi, r, ?_, ?_, hr, hvbls⟩
  · show IntTables.computeMulInd target p.vbls = _
    rw [IntTables.computeMulInd_eq hsub.subset htarget hitr hfits, hmi]
  · rw [IntTables.sumMarginTabular_eq A hmi', hrun]

/-- The ratio of two potentials over one set. -/
theorem Sized.updateRatioTabular {A : Arith α} {newSep oldSep : Pot o α} (hnew : newSep.Sized)
    (hold : oldSep.Sized) (hvbls : newSep.vbls = oldSep.vbls) (hfits : newSep.vbls.FitsInt) :
    ∃ r, IntTables.updateRatioTabular A newSep oldSep = some r ∧ r.Sized := by
  rw [IntTables.updateRatioTabular_eq A hfits]
  have hlen : oldSep.tabData.length = newSep.tabData.length := by
    rw [hnew.length_tabData, hold.length_tabData, hvbls]
  obtain ⟨entries, hrun, hcount, -⟩ := PartialLoops.exists_mapM
    (l := List.range newSep.tableSize) (f := fun i => do
      let old ← oldSep.tabData[i]?
      let new ← newSep.tabData[i]?
      return A.ratio new old) fun i hi => by
    have hlt : i < newSep.tabData.length := by
      rw [hnew.length_tabData, ← hnew.tableSize]
      exact List.mem_range.mp hi
    rw [List.getElem?_eq_getElem (hlen ▸ hlt), List.getElem?_eq_getElem hlt]
    exact ⟨_, rfl⟩
  refine ⟨createTabular newSep.vbls entries, ?_, sized_createTabular ?_⟩
  · unfold Arithmetic.updateRatioTabular
    rw [hrun]
    rfl
  · rw [hcount, List.length_range, hnew.tableSize]

/-- Ways to make a potential. -/
inductive Recipe (o : VariableOrdering) (α : Type) where
  | tabular (vbls : VariableSet o) (valueData : List α)
  | unity (B : Arith α) (vbls : VariableSet o)
  | unInit (vbls : VariableSet o) (memory : ℕ → α)
  | sumMargin (p : Recipe o α) (indices : Indices) (target : VariableSet o)
  | updateRatio (newSep oldSep : Recipe o α)

namespace Recipe

/-- The potential that the functions return. -/
def make (A : Arith α) : Recipe o α → Option (Pot o α)
  | tabular vbls valueData => some (IntTables.createTabular vbls valueData)
  | unity B vbls => some (IntTables.createTabularUnity B vbls)
  | unInit vbls memory => some (IntTables.createTabularUnInit vbls memory)
  | sumMargin p indices target => do
      let p ← p.make A
      let mi ← indices.compute p.vbls target
      IntTables.sumMarginTabular A p mi
  | updateRatio newSep oldSep => do
      let newSep ← newSep.make A
      let oldSep ← oldSep.make A
      IntTables.updateRatioTabular A newSep oldSep

/-- Data of the right length, margins onto strictly smaller sets, and ratios over one set. -/
def Fits (A : Arith α) : Recipe o α → Prop
  | tabular vbls valueData => valueData.length = vbls.getCardinality
  | unity _ _ => True
  | unInit _ _ => True
  | sumMargin p _ target => p.Fits A ∧ ∀ q, p.make A = some q → target.vars ⊂ q.vbls.vars
  | updateRatio newSep oldSep => newSep.Fits A ∧ oldSep.Fits A ∧
      ∀ p q, newSep.make A = some p → oldSep.make A = some q → p.vbls = q.vbls

/-- What is made has the recorded size, and so has everything it is made of; a margin ranges
over its target. -/
def Sound (A : Arith α) : Recipe o α → Prop
  | sumMargin p indices target => p.Sound A ∧
      ∃ r, (sumMargin p indices target).make A = some r ∧ r.Sized ∧ r.vbls = target
  | updateRatio newSep oldSep => newSep.Sound A ∧ oldSep.Sound A ∧
      ∃ r, (updateRatio newSep oldSep).make A = some r ∧ r.Sized
  | recipe => ∃ r, recipe.make A = some r ∧ r.Sized

/-- Margins are taken through `VariableSet_ComputeMulInd`, onto sets that are not empty. -/
def ByMulInd : Recipe o α → Prop
  | sumMargin p indices target => p.ByMulInd ∧ indices = .computeMulInd ∧ target.vars.Nonempty
  | updateRatio newSep oldSep => newSep.ByMulInd ∧ oldSep.ByMulInd
  | _ => True

/-- The variables that the potential is meant to range over. -/
def vbls : Recipe o α → VariableSet o
  | tabular vbls _ => vbls
  | unity _ vbls => vbls
  | unInit vbls _ => vbls
  | sumMargin _ _ target => target
  | updateRatio newSep _ => newSep.vbls

/-- The product of the cardinalities fits an `int` for every set that a potential is made over,
and the enumeration of a summed-out set does not divide by zero. -/
def FitsInt : Recipe o α → Prop
  | sumMargin p _ target => p.FitsInt ∧ target.FitsInt ∧
      (IntTables.enumerateValues (VariableSet.createFromBv (target.bv.xor p.vbls.bv))).isSome
  | updateRatio newSep oldSep => newSep.FitsInt ∧ oldSep.FitsInt
  | recipe => recipe.vbls.FitsInt

theorem FitsInt.vbls {recipe : Recipe o α} (h : recipe.FitsInt) : recipe.vbls.FitsInt := by
  induction recipe with
  | tabular vbls valueData => exact h
  | unity B vbls => exact h
  | unInit vbls memory => exact h
  | sumMargin p indices target ih => exact h.2.1
  | updateRatio newSep oldSep ihNew ihOld => exact ihNew h.1

theorem Sound.exists_make {A : Arith α} {recipe : Recipe o α} (h : recipe.Sound A) :
    ∃ r, recipe.make A = some r ∧ r.Sized ∧ r.vbls = recipe.vbls := by
  induction recipe with
  | sumMargin p indices target ih => exact h.2
  | updateRatio newSep oldSep ihNew ihOld =>
      obtain ⟨hnew, -, r, hrun, hr⟩ := h
      refine ⟨r, hrun, hr, ?_⟩
      obtain ⟨p, hp, -, hvbls⟩ := ihNew hnew
      obtain ⟨p', hp', hrest⟩ := Option.bind_eq_some_iff.mp hrun
      obtain rfl : p = p' := Option.some.inj (hp.symm.trans hp')
      obtain ⟨q, -, hratio⟩ := Option.bind_eq_some_iff.mp hrest
      obtain ⟨entries, -, rfl⟩ := Option.map_eq_some_iff.mp hratio
      exact hvbls
  | tabular vbls valueData =>
      obtain ⟨r, hrun, hr⟩ := h
      exact ⟨r, hrun, hr, (Option.some.inj hrun) ▸ rfl⟩
  | unity B vbls =>
      obtain ⟨r, hrun, hr⟩ := h
      exact ⟨r, hrun, hr, (Option.some.inj hrun) ▸ rfl⟩
  | unInit vbls memory =>
      obtain ⟨r, hrun, hr⟩ := h
      exact ⟨r, hrun, hr, (Option.some.inj hrun) ▸ rfl⟩

/-- A potential that is made with one call is sound if and only if its size fits. -/
theorem exists_sized_iff {vbls : VariableSet o} {valueData : List α}
    (h : vbls.FitsInt → valueData.length = vbls.getCardinality) :
    (∃ r, some (IntTables.createTabular vbls valueData) = some r ∧ r.Sized) ↔ vbls.FitsInt := by
  constructor
  · rintro ⟨r, hr, hsized⟩
    rw [← Option.some.inj hr] at hsized
    exact fitsInt_of_sized hsized
  · exact fun hfits => ⟨_, rfl, (sized_createTabular_iff (h hfits)).mpr hfits⟩

/-- **Size, variables and data stay in step** in a recipe that fits if and only if the sizes fit
an `int` and all margins are taken through `VariableSet_ComputeMulInd`, onto sets that are not
empty. -/
theorem sound_iff {A : Arith α} {recipe : Recipe o α} (h : recipe.Fits A) :
    recipe.Sound A ↔ recipe.ByMulInd ∧ recipe.FitsInt := by
  induction recipe with
  | tabular vbls valueData =>
      exact (exists_sized_iff fun _ => h).trans (and_iff_right trivial).symm
  | unity B vbls =>
      refine (exists_sized_iff fun hfits => ?_).trans (and_iff_right trivial).symm
      rw [List.length_replicate, IntTables.tableSize_eq_iff.mpr hfits]
  | unInit vbls memory =>
      refine (exists_sized_iff fun hfits => ?_).trans (and_iff_right trivial).symm
      rw [List.length_map, List.length_range, IntTables.tableSize_eq_iff.mpr hfits]
  | sumMargin p indices target ih =>
      obtain ⟨hfits, htarget⟩ := h
      constructor
      · rintro ⟨hsound, r, hrun, hr, hvbls⟩
        obtain ⟨hby, hint⟩ := (ih hfits).mp hsound
        obtain ⟨q, hq, hrest⟩ := Option.bind_eq_some_iff.mp hrun
        obtain ⟨mi, hmi, hmargin⟩ := Option.bind_eq_some_iff.mp hrest
        obtain ⟨q', hq', -, hqvbls⟩ := hsound.exists_make
        obtain rfl : q = q' := Option.some.inj (hq.symm.trans hq')
        cases indices with
        | computeMargInd =>
            obtain ⟨sums, -, heq⟩ := Option.map_eq_some_iff.mp hmargin
            rw [← heq] at hvbls
            exact absurd hvbls (Indices.vbls_ne_target (htarget q hq) hmi)
        | computeMulInd =>
            have hne : target.vars.Nonempty := Finset.nonempty_iff_ne_empty.mpr fun hempty =>
              not_sized_of_empty hempty hmi hmargin hr
            obtain ⟨hrows, -⟩ := Indices.exists_rows hmi
            refine ⟨⟨hby, rfl, hne⟩, hint, ?_, hqvbls ▸ hrows⟩
            obtain ⟨sums, -, heq⟩ := Option.map_eq_some_iff.mp hmargin
            rw [← heq] at hr hvbls
            exact hvbls ▸ fitsInt_of_sized hr
      · rintro ⟨⟨hby, rfl, hne⟩, hint, hfitsTarget, hrows⟩
        have hsound := (ih hfits).mpr ⟨hby, hint⟩
        obtain ⟨q, hq, hsized, hqvbls⟩ := hsound.exists_make
        obtain ⟨mi, r, hmi, hrun, hr, hvbls⟩ := hsized.sumMarginTabular (A := A) (htarget q hq)
          hne (hqvbls ▸ hint.vbls) hfitsTarget (hqvbls ▸ hrows)
        refine ⟨hsound, r, ?_, hr, hvbls⟩
        simp only [make, hq, hmi, Option.bind_eq_bind, Option.bind_some]
        exact hrun
  | updateRatio newSep oldSep ihNew ihOld =>
      obtain ⟨hfitsNew, hfitsOld, hvbls⟩ := h
      constructor
      · rintro ⟨hnew, hold, -⟩
        obtain ⟨hbyNew, hintNew⟩ := (ihNew hfitsNew).mp hnew
        obtain ⟨hbyOld, hintOld⟩ := (ihOld hfitsOld).mp hold
        exact ⟨⟨hbyNew, hbyOld⟩, hintNew, hintOld⟩
      · rintro ⟨⟨hbyNew, hbyOld⟩, hintNew, hintOld⟩
        have hsoundNew := (ihNew hfitsNew).mpr ⟨hbyNew, hintNew⟩
        have hsoundOld := (ihOld hfitsOld).mpr ⟨hbyOld, hintOld⟩
        obtain ⟨p, hp, hsizedNew, hpvbls⟩ := hsoundNew.exists_make
        obtain ⟨q, hq, hsizedOld, -⟩ := hsoundOld.exists_make
        obtain ⟨r, hrun, hr⟩ := hsizedNew.updateRatioTabular (A := A) hsizedOld
          (hvbls p q hp hq) (hpvbls ▸ hintNew.vbls)
        refine ⟨hsoundNew, hsoundOld, r, ?_, hr⟩
        simp only [make, hp, hq, Option.bind_eq_bind, Option.bind_some]
        exact hrun

/-- Three binary variables. -/
def sampleOrdering : VariableOrdering := ⟨[⟨['A'], 2⟩, ⟨['B'], 2⟩, ⟨['C'], 2⟩]⟩

/-- The margin of a joint distribution onto the first of three variables. -/
def sampleMargin (indices : Indices) : Recipe sampleOrdering ℚ :=
  let vs1 := sampleOrdering.vbls.foldl VariableSet.add (VariableSet.create sampleOrdering)
  let vs2 := (VariableSet.create sampleOrdering).add (sampleOrdering.vbl 0)
  let valueData1 := [2 / 16, 1 / 16, 3 / 16, 2 / 16, 2 / 16, 2 / 16, 3 / 16, 1 / 16]
  sumMargin (tabular vs1 valueData1) indices vs2

theorem fits_sampleMargin (indices : Indices) : (sampleMargin indices).Fits (plain ℚ) := by
  refine ⟨?_, fun q hq => ?_⟩
  · show List.length _ = VariableSet.getCardinality _
    decide
  · rw [← Option.some.inj hq]
    decide

theorem sound_sampleMargin : (sampleMargin .computeMulInd).Sound (plain ℚ) := by
  rw [sound_iff (fits_sampleMargin .computeMulInd)]
  refine ⟨⟨trivial, rfl, by decide⟩, ?_, by decide, by decide⟩
  show VariableSet.FitsInt _
  decide

/-- Through `VariableSet_ComputeMargInd` the table has two entries and records four. -/
theorem not_sound_sampleMargin :
    (sampleMargin .computeMargInd).Fits (plain ℚ) ∧
      ∃ r, (sampleMargin .computeMargInd).make (plain ℚ) = some r ∧ r.tableSize = 4 ∧
        r.tabData = [1 / 2, 1 / 2] ∧ ¬(sampleMargin .computeMargInd).Sound (plain ℚ) := by
  have hmake : ((sampleMargin .computeMargInd).make (plain ℚ)).map
      (fun r => (r.tableSize, r.tabData)) = some (4, [1 / 2, 1 / 2]) := by decide +kernel
  obtain ⟨r, hrun, hr⟩ := Option.map_eq_some_iff.mp hmake
  obtain ⟨hsize, hdata⟩ := Prod.mk.injEq .. ▸ hr
  refine ⟨fits_sampleMargin .computeMargInd, r, hrun, hsize, hdata, fun hsound => ?_⟩
  obtain ⟨-, r', hrun', hsized, -⟩ := hsound
  obtain rfl : r = r' := Option.some.inj (hrun.symm.trans hrun')
  have hlen := hsized.length_tabData.trans hsized.tableSize.symm
  rw [hsize, hdata] at hlen
  exact absurd hlen (by decide)

end Recipe

end Pot

end JunctionBox
