import JunctionBox.Pot.MulMemo

/-!
# Plain arithmetic

The functions of `JB_Pot.c` that work on probabilities, over an exact field, and
what they do to factors: the product multiplies, the sum-margin is `sumOut`, and
the update ratio is division with `x / 0 = 0`.
-/

namespace JunctionBox

open SumOut

section Definitions

variable {K : Type} [Field K] [DecidableEq K]

/-- The arithmetic of the functions without `Log` in their name. -/
def plain (K : Type) [Field K] [DecidableEq K] : Arith K where
  unit := 1
  times p q := p * q
  ratio new old := if old ≠ 0 then new / old else 0
  total l := l.foldl (fun q p => q + p) 0

namespace Pot

variable {o : VariableOrdering}

/-- `Pot_CreateTabularUnity`. -/
def createTabularUnity (vbls : VariableSet o) : Pot o K :=
  Arithmetic.createTabularUnity (plain K) vbls

/-- `Pot_ProductTabular`. -/
def productTabular (p q : Pot o K) (mi : Option (MulInd o)) : Option (Pot o K) :=
  Arithmetic.productTabular (plain K) p q mi

/-- `Pot_UpdateRatioTabular`. -/
def updateRatioTabular (newSep oldSep : Pot o K) : Option (Pot o K) :=
  Arithmetic.updateRatioTabular (plain K) newSep oldSep

/-- `Pot_SumMarginTabular`. -/
def sumMarginTabular (p : Pot o K) (mi : MulInd o) : Option (Pot o K) :=
  Arithmetic.sumMarginTabular (plain K) p mi

/-- `Pot_SumMarginTabularSingleVbl`. -/
def sumMarginTabularSingleVbl (p : Pot o K) (v : Variable) : Option (List K) :=
  Arithmetic.sumMarginTabularSingleVbl (plain K) p v

end Pot

theorem plain_ratio (new old : K) : (plain K).ratio new old = new / old := by
  unfold plain
  by_cases h : old = 0
  · simp [h]
  · exact if_pos h

theorem plain_total (l : List K) : (plain K).total l = l.sum := List.sum_eq_foldl.symm

end Definitions

/-- Summing over the tuples of some ranks is summing these ranks out. -/
theorem sum_map_assign {K : Type} [CommSemiring K] (o : VariableOrdering)
    (f : Assignment → K) {is : List ℕ} (hnodup : is.Nodup) (x : Assignment) :
    ((MixedRadix.tuples (is.map fun i => (o.vbl i).cardinality)).map fun d =>
      f (VariableSet.assign is d x)).sum = sumOut o.dom is.toFinset f x := by
  induction is generalizing x with
  | nil => simp [MixedRadix.tuples, VariableSet.assign]
  | cons i is ih =>
      rw [List.nodup_cons] at hnodup
      have hnew : i ∉ is.toFinset := fun hmem => hnodup.1 (List.mem_toFinset.mp hmem)
      calc
        _ = ((List.range (o.vbl i).cardinality).map fun a =>
              sumOut o.dom is.toFinset f (Function.update x i a)).sum := by
            rw [List.map_cons, MixedRadix.tuples, List.map_flatMap, List.flatMap_def,
              List.sum_flatten, List.map_map]
            congr 1
            refine List.map_congr_left fun a _ => ?_
            rw [Function.comp_apply, ← ih hnodup.2, List.map_map]
            rfl
        _ = ∑ a ∈ o.dom i, sumOut o.dom is.toFinset f (Function.update x i a) :=
            (Multiset.sum_coe _).symm
        _ = sumOut o.dom (i :: is).toFinset f x := by
            rw [List.toFinset_cons, sumOut_insert hnew]

namespace Pot

variable {K : Type} [Field K] [DecidableEq K] {o : VariableOrdering}

theorem createTabularUnity_represents (vbls : VariableSet o) :
    (createTabularUnity vbls : Pot o K).Represents fun _ => 1 :=
  Arithmetic.createTabularUnity_represents (plain K) vbls

/-- The product through an index table. -/
theorem productTabular_represents {p q : Pot o K} {f g : Assignment → K} {mi : MulInd o}
    (hp : p.Represents f) (hq : q.Represents g) (hmi : mi.Indexes p.vbls q.vbls) :
    ∃ r, productTabular p q (some mi) = some r ∧ r.vbls = q.vbls ∧
      r.Represents fun x => f x * g x := by
  obtain ⟨cols, hsplit, htable⟩ := hmi
  exact Arithmetic.productTabular_represents hp hq hsplit htable

/-- The entry-by-entry product. -/
theorem productTabular_none_represents {p q : Pot o K} {f g : Assignment → K}
    (hp : p.Represents f) (hq : q.Represents g) (hvars : p.vbls.vars = q.vbls.vars) :
    ∃ r, productTabular p q none = some r ∧ r.vbls = q.vbls ∧
      r.Represents fun x => f x * g x :=
  Arithmetic.productTabular_none_represents hp hq hvars

theorem updateRatioTabular_represents {newSep oldSep : Pot o K} {f g : Assignment → K}
    (hnew : newSep.Represents f) (hold : oldSep.Represents g)
    (hvbls : newSep.vbls = oldSep.vbls) :
    ∃ r, updateRatioTabular newSep oldSep = some r ∧ r.vbls = newSep.vbls ∧
      r.Represents fun x => f x / g x := by
  obtain ⟨r, hrun, hr, hrep⟩ := Arithmetic.updateRatioTabular_represents (A := plain K)
    hnew hold hvbls
  exact ⟨r, hrun, hr, hrep.congr fun x _ => plain_ratio _ _⟩

/-- The columns of an index table are what the rows lack. -/
theorem vars_cols {rows cols all : VariableSet o} (h : VariableSet.Splits rows cols all) :
    cols.ranks.toFinset = all.vars \ rows.vars := by
  rw [h.union, Finset.union_sdiff_cancel_left h.disjoint]
  rfl

/-- The sum-margin sums the other variables out. -/
theorem sumMarginTabular_represents {p : Pot o K} {f : Assignment → K} {mi : MulInd o}
    (hp : p.Represents f) (hf : DependsOn f (p.vbls.vars : Set ℕ))
    (hmi : mi.Indexes mi.vbls p.vbls) :
    ∃ r, sumMarginTabular p mi = some r ∧ r.vbls = mi.vbls ∧
      r.Represents (sumOut o.dom (p.vbls.vars \ mi.vbls.vars) f) := by
  obtain ⟨cols, hsplit, htable⟩ := hmi
  obtain ⟨r, hrun, hr, hrep⟩ := Arithmetic.sumMarginTabular_represents (A := plain K) hp hf
    hsplit htable rfl
  refine ⟨r, hrun, hr, hrep.congr fun x _ => ?_⟩
  rw [plain_total, ← vars_cols hsplit]
  exact sum_map_assign o f cols.ranks_nodup x

/-- The single variable's sum-margin, when the other variables have tuples. -/
theorem sumMarginTabularSingleVbl_of_ne {p : Pot o K} {f : Assignment → K}
    (hp : p.Represents f) (hf : DependsOn f (p.vbls.vars : Set ℕ)) {v : Variable} {i : ℕ}
    (hi : o.getVariableRank v = some i) (hlt : {i} ⊂ p.vbls.vars)
    (hcard : (VariableSet.createFromBv (p.vbls.bv.xor ((VariableSet.create o).add v).bv) :
      VariableSet o).getCardinality ≠ 0) :
    ∃ qvalues, sumMarginTabularSingleVbl p v = some qvalues ∧
      qvalues.length = v.cardinality ∧ ∀ x : Assignment, x i < v.cardinality →
        qvalues[x i]? = some (sumOut o.dom (p.vbls.vars \ {i}) f x) := by
  set vs : VariableSet o := (VariableSet.create o).add v with hvs
  have hvars : vs.vars = {i} := VariableSet.vars_add_create hi
  have hranks : vs.ranks = [i] := VariableSet.ranks_eq_singleton hvars
  have hvbl : (o.vbl i).cardinality = v.cardinality := by
    rw [(VariableOrdering.getVariableRank_lt hi).2]
  have hne : vs.vars.Nonempty := hvars ▸ Finset.singleton_nonempty i
  have hproper : vs.vars ⊂ p.vbls.vars := hvars ▸ hlt
  obtain ⟨mi, hmarg, cols, hsplit, htable⟩ :=
    VariableSet.computeMargInd_indexes_of_ne hne hproper hcard
  have hrows := Arithmetic.sumRows_eq (A := plain K) hp hsplit htable
  have hcards : vs.getVblCardinalities = [v.cardinality] := by
    rw [VariableSet.getVblCardinalities, hranks, List.map_singleton, hvbl]
  have hrun : sumMarginTabularSingleVbl p v = Arithmetic.sumRows (plain K) p mi := by
    unfold sumMarginTabularSingleVbl Arithmetic.sumMarginTabularSingleVbl
    rw [← hvs, hmarg]
    rfl
  refine ⟨_, hrun.trans hrows, ?_, fun x hx => ?_⟩
  · rw [List.length_map, MixedRadix.length_tuples, hcards, List.prod_singleton]
  · have htuple : List.Forall₂ (· < ·) [x i] vs.getVblCardinalities := by
      rw [hcards]
      exact List.Forall₂.cons hx List.Forall₂.nil
    have hencode : MixedRadix.encode vs.getVblCardinalities [x i] = x i := by
      rw [hcards]
      simp [MixedRadix.encode]
    have hget := MixedRadix.getElem?_tuples_encode htuple
    rw [hencode] at hget
    rw [List.getElem?_map, hget, Option.map_some, plain_total]
    congr 1
    rw [show p.vbls.vars \ {i} = cols.ranks.toFinset by rw [vars_cols hsplit, hvars],
      ← sum_map_assign o f cols.ranks_nodup x]
    congr 1
    refine List.map_congr_left fun d hd => hf fun j hj => ?_
    obtain ⟨z, -, rfl⟩ := VariableSet.mem_tuples_iff.mp hd
    by_cases hcol : j ∈ cols.ranks
    · rw [VariableSet.assign_map cols.ranks_nodup _ z hcol,
        VariableSet.assign_map cols.ranks_nodup _ z hcol]
    · rw [VariableSet.assign_of_not_mem hcol, VariableSet.assign_of_not_mem hcol]
      -- what is no column is the row
      have hrow := (Finset.mem_union.mp (hsplit.union ▸ Finset.mem_coe.mp hj)).resolve_right
        fun hmem => hcol (VariableSet.mem_vars_iff_mem_ranks.mp hmem)
      rw [hvars, Finset.mem_singleton] at hrow
      rw [hrow, VariableSet.ofTuple, hranks]
      show Function.update (fun _ => 0) i (x i) i = x i
      rw [Function.update_self]

/-- The single variable's sum-margin, for a potential over more variables than that one. -/
theorem sumMarginTabularSingleVbl_eq (hpos : o.Discrete) {p : Pot o K} {f : Assignment → K}
    (hp : p.Represents f) (hf : DependsOn f (p.vbls.vars : Set ℕ)) {v : Variable} {i : ℕ}
    (hi : o.getVariableRank v = some i) (hlt : {i} ⊂ p.vbls.vars) :
    ∃ qvalues, sumMarginTabularSingleVbl p v = some qvalues ∧
      qvalues.length = v.cardinality ∧ ∀ x : Assignment, x i < v.cardinality →
        qvalues[x i]? = some (sumOut o.dom (p.vbls.vars \ {i}) f x) :=
  sumMarginTabularSingleVbl_of_ne hp hf hi hlt (VariableSet.getCardinality_pos hpos _).ne'

end Pot

end JunctionBox
