import JunctionBox.Util.Variable
import Mathlib.Data.Finset.Basic
import Mathlib.Data.List.Sort

/-!
# Variable sets and index tables

A `VariableSet` is a bit vector over the ranks of an ordering.  The tables of
potentials are laid out by counting in the mixed radix of the set's
cardinalities, the variable of highest rank moving fastest, so `VariableSet`
also knows how to enumerate value tuples (`enumerateValues`) and to turn a tuple
into a table index (`computeIndex`).  Sizes and indices are natural numbers here;
the source computes them with `int`, as `IntTables` does, and up to `INT_MAX`
entries the two are the same.

`indexCross` interleaves a tuple of one set with the tuples of a disjoint one.
Its heart is `fixVblsIndices`, in the words of the source "a merge sort with a
relabelling": two increasing lists of ranks become the positions of these ranks
in their merge.

An array write is a `List.set` on slots of type `Option`, `none` being memory
that has not been written; reading such a slot, or past the end of an array,
makes the whole computation `none`.
-/

namespace JunctionBox

/-- `struct variable_set`; the ordering it points at is `o`. -/
structure VariableSet (o : VariableOrdering) where
  bv : BitVector o.size
deriving DecidableEq

namespace VariableSet

variable {o : VariableOrdering}

/-- `VariableSet_Create`. -/
def create (o : VariableOrdering) : VariableSet o := ⟨BitVector.create o.size false⟩

/-- `VariableSet_CreateFromBv`. -/
def createFromBv (bv : BitVector o.size) : VariableSet o := ⟨bv⟩

/-- `VariableSet_ContainedIn`. -/
def containedIn (this other : VariableSet o) : Bool :=
  this.bv.equals (this.bv.and other.bv)

/-- `VariableSet_Add`. -/
def add (this : VariableSet o) (v : Variable) : VariableSet o :=
  match o.getVariableRank v with
  | some indx => ⟨this.bv.setBitOn indx⟩
  | none => this

/-- The ranks of the variables present. -/
def ranks (this : VariableSet o) : List ℕ := this.bv.onIndices

/-- `VariableSet_GetVariableList`. -/
def getVariableList (this : VariableSet o) : List Variable := this.ranks.map o.vbl

/-- `VariableSet_GetFstVbl`; `none` where the source returns `-1`. -/
def getFstVbl (this : VariableSet o) : Option Variable := this.ranks.head?.map o.vbl

/-- `VariableSet_GetNumVbls`. -/
def getNumVbls (this : VariableSet o) : ℕ := this.bv.getNumOnBits

/-- `VariableSet_GetVblCardinalities`. -/
def getVblCardinalities (this : VariableSet o) : List ℕ :=
  this.ranks.map fun i => (o.vbl i).cardinality

/-- `VariableSet_GetCardinality`, without the overflow of `IntTables.getCardinality`. -/
def getCardinality (this : VariableSet o) : ℕ := this.getVblCardinalities.prod

/-- One row of `VariableSet_EnumerateValues`: the digits of `code`, the last one
being whatever is left. -/
def decodeFrom : ℕ → List ℕ → ℕ → List ℕ
  | offsetFactor, c :: c' :: card, code =>
      let offset := offsetFactor / c
      let quotient := code / offset
      quotient :: decodeFrom offset (c' :: card) (code - quotient * offset)
  | _, [_], code => [code]
  | _, [], _ => []

/-- `VariableSet_EnumerateValues`; `*cardinalityRet` is the number of rows. -/
def enumerateValues (this : VariableSet o) : List (List ℕ) :=
  if this.getNumVbls = 0 then []
  else (List.range this.getCardinality).map
    (decodeFrom this.getCardinality this.getVblCardinalities)

/-- The loop of `VariableSet_ComputeIndex`: every value but the last is multiplied by
what is left of `product`. -/
def indexFrom : ℕ → List ℕ → List (Option ℕ) → Option ℕ
  | product, c :: c' :: card, v :: values => do
      let value ← v
      let rest ← indexFrom (product / c) (c' :: card) values
      return value * (product / c) + rest
  | _, _, v :: _ => v
  | _, _, [] => none

/-- `VariableSet_ComputeIndex`. -/
def computeIndex (vbls : VariableSet o) (values : List ℕ) : Option ℕ :=
  indexFrom vbls.getCardinality vbls.getVblCardinalities (values.map some)

/-- `VariableSet_ComputeIndices`. -/
def computeIndices (vbls : VariableSet o) (values : List (List (Option ℕ))) :
    Option (List ℕ) :=
  values.mapM (indexFrom vbls.getCardinality vbls.getVblCardinalities)

/-- `fix_vbls_indices`: the two increasing lists are consumed from the front while `i`
counts, and each rank is overwritten by the count at which it is taken.  The main loop
runs `fuel` rounds at most. -/
def fixVblsIndices : ℕ → ℕ → List ℕ → List ℕ → List ℕ × List ℕ
  | _, i, [], scndVbls => ([], List.range' i scndVbls.length)
  | _, i, fstVbls, [] => (List.range' i fstVbls.length, [])
  | 0, _, fstVbls, scndVbls => (fstVbls, scndVbls)
  | fuel + 1, i, fst :: fstVbls, scnd :: scndVbls =>
      if fst < scnd then
        let rest := fixVblsIndices fuel (i + 1) fstVbls (scnd :: scndVbls)
        (i :: rest.1, rest.2)
      else
        let rest := fixVblsIndices fuel (i + 1) (fst :: fstVbls) scndVbls
        (rest.1, i :: rest.2)

/-- Write `value` into slot `slot`, for each `(slot, value)`. -/
def writeAll {V : Type} (row : List (Option V)) (writes : List (ℕ × V)) : List (Option V) :=
  writes.foldl (fun row w => row.set w.1 (some w.2)) row

/-- `IndexCross`: a row for each tuple of `secondIndicesSet`. -/
def indexCross {V : Type} (first : VariableSet o) (firstIndices : List V)
    (second : VariableSet o) (secondIndicesSet : List (List V)) : List (List (Option V)) :=
  let numTotVbls := first.getNumVbls + second.getNumVbls
  let vblsIndices := fixVblsIndices numTotVbls 0 first.ranks second.ranks
  secondIndicesSet.map fun secondIndices =>
    writeAll (writeAll (List.replicate numTotVbls none) (vblsIndices.1.zip firstIndices))
      (vblsIndices.2.zip secondIndices)

/-! ## Sets of ranks -/

/-- The ranks present, as a finite set. -/
def vars (this : VariableSet o) : Finset ℕ := this.ranks.toFinset

theorem mem_ranks {this : VariableSet o} {i : ℕ} :
    i ∈ this.ranks ↔ i < o.size ∧ this.bv.on i = true := BitVector.mem_onIndices

@[simp] theorem mem_vars {this : VariableSet o} {i : ℕ} :
    i ∈ this.vars ↔ i < o.size ∧ this.bv.on i = true := by
  rw [vars, List.mem_toFinset, mem_ranks]

theorem mem_vars_iff_mem_ranks {this : VariableSet o} {i : ℕ} :
    i ∈ this.vars ↔ i ∈ this.ranks := List.mem_toFinset

theorem ranks_nodup (this : VariableSet o) : this.ranks.Nodup := this.bv.onIndices_nodup

theorem getNumVbls_eq (this : VariableSet o) : this.getNumVbls = this.ranks.length :=
  this.bv.getNumOnBits_eq

theorem ranks_eq_of_vars_eq {this other : VariableSet o} (h : this.vars = other.vars) :
    this.ranks = other.ranks := by
  have hperm : this.ranks.Perm other.ranks := by
    rw [List.perm_ext_iff_of_nodup this.ranks_nodup other.ranks_nodup]
    intro i
    rw [← mem_vars_iff_mem_ranks, h, mem_vars_iff_mem_ranks]
  exact hperm.eq_of_pairwise (fun a b _ _ hab hba => absurd hab hba.asymm)
    this.bv.onIndices_sorted other.bv.onIndices_sorted

theorem ranks_eq_singleton {this : VariableSet o} {i : ℕ} (h : this.vars = {i}) :
    this.ranks = [i] := by
  apply List.perm_singleton.mp
  rw [List.perm_ext_iff_of_nodup this.ranks_nodup (List.nodup_singleton i)]
  intro j
  rw [← mem_vars_iff_mem_ranks, h, Finset.mem_singleton, List.mem_singleton]

/-- `VariableSet_ContainedIn` decides inclusion. -/
theorem containedIn_iff (this other : VariableSet o) :
    this.containedIn other = true ↔ this.vars ⊆ other.vars := by
  rw [containedIn, BitVector.equals_iff]
  constructor
  · intro h i hi
    rw [mem_vars] at hi ⊢
    have hbit := h i hi.1
    rw [BitVector.on_and _ _ hi.1, hi.2, Bool.true_and] at hbit
    exact ⟨hi.1, hbit.symm⟩
  · intro h i hi
    rw [BitVector.on_and _ _ hi]
    by_cases hon : this.bv.on i = true
    · have hother := h (mem_vars.mpr ⟨hi, hon⟩)
      rw [hon, (mem_vars.mp hother).2]
      rfl
    · rw [Bool.not_eq_true] at hon
      rw [hon]
      rfl

theorem vars_xor (this other : VariableSet o) (h : this.vars ⊆ other.vars) :
    (createFromBv (this.bv.xor other.bv) : VariableSet o).vars = other.vars \ this.vars := by
  ext i
  rw [Finset.mem_sdiff, mem_vars, mem_vars, mem_vars, createFromBv]
  constructor
  · rintro ⟨hi, hon⟩
    rw [BitVector.on_xor _ _ hi] at hon
    by_cases hthis : this.bv.on i = true
    · have hother := (mem_vars.mp (h (mem_vars.mpr ⟨hi, hthis⟩))).2
      rw [hthis, hother] at hon
      exact absurd hon (by decide)
    · rw [Bool.not_eq_true] at hthis
      rw [hthis, Bool.false_xor] at hon
      exact ⟨⟨hi, hon⟩, fun hmem => by rw [hmem.2] at hthis; exact absurd hthis (by decide)⟩
  · rintro ⟨⟨hi, hother⟩, hnot⟩
    refine ⟨hi, ?_⟩
    have hthis : this.bv.on i = false := by
      rw [← Bool.not_eq_true]
      exact fun hon => hnot ⟨hi, hon⟩
    rw [BitVector.on_xor _ _ hi, hthis, hother]
    rfl

theorem vars_create : (create o).vars = ∅ := by
  ext i
  simp [create]

theorem vars_add_of_rank (this : VariableSet o) {v : Variable} {indx : ℕ}
    (h : o.getVariableRank v = some indx) : (this.add v).vars = insert indx this.vars := by
  have hindx := (VariableOrdering.getVariableRank_lt h).1
  ext i
  rw [add, h, Finset.mem_insert, mem_vars, mem_vars]
  simp only
  rw [BitVector.on_setBitOn _ hindx, Bool.or_eq_true, decide_eq_true_eq]
  constructor
  · rintro ⟨hi, rfl | hon⟩
    · exact Or.inl rfl
    · exact Or.inr ⟨hi, hon⟩
  · rintro (rfl | ⟨hi, hon⟩)
    · exact ⟨hindx, Or.inl rfl⟩
    · exact ⟨hi, Or.inr hon⟩

/-- The set of one variable. -/
theorem vars_add_create {v : Variable} {i : ℕ} (h : o.getVariableRank v = some i) :
    ((create o).add v).vars = {i} := by
  rw [vars_add_of_rank _ h, vars_create]
  rfl

/-! ## Tuples and indices -/

theorem decodeFrom_eq : ∀ (card : List ℕ) (code : ℕ), code < card.prod → card ≠ [] →
    decodeFrom card.prod card code = MixedRadix.decode card code := by
  intro card
  induction card with
  | nil => exact fun _ _ hne => absurd rfl hne
  | cons c card ih =>
      intro code hcode _
      cases card with
      | nil => simp [decodeFrom, MixedRadix.decode]
      | cons c' card =>
          have hpos : 0 < c := by
            by_contra hzero
            have hc : c = 0 := by omega
            rw [hc, List.prod_cons, Nat.zero_mul] at hcode
            exact absurd hcode (Nat.not_lt_zero _)
          have hpos' : 0 < (c' :: card).prod := by
            by_contra hzero
            have hprod : (c' :: card).prod = 0 := by omega
            rw [List.prod_cons, hprod, Nat.mul_zero] at hcode
            exact absurd hcode (Nat.not_lt_zero _)
          have hoffset : (c :: c' :: card).prod / c = (c' :: card).prod := by
            rw [List.prod_cons, Nat.mul_div_cancel_left _ hpos]
          have hmod : code - code / (c' :: card).prod * (c' :: card).prod =
              code % (c' :: card).prod := by
            have hdiv := Nat.div_add_mod code (c' :: card).prod
            rw [Nat.mul_comm] at hdiv
            omega
          rw [decodeFrom, MixedRadix.decode]
          simp only [hoffset, hmod]
          rw [ih _ (Nat.mod_lt _ hpos') (List.cons_ne_nil _ _)]

/-- A non-empty set enumerates the tuples in range, in lexicographic order. -/
theorem enumerateValues_eq {this : VariableSet o} (h : this.ranks ≠ []) :
    this.enumerateValues = MixedRadix.tuples this.getVblCardinalities := by
  have hnum : this.getNumVbls ≠ 0 := by
    rw [getNumVbls_eq]
    exact fun hzero => h (List.length_eq_zero_iff.mp hzero)
  have hcard : this.getVblCardinalities ≠ [] := fun hnil => h (List.map_eq_nil_iff.mp hnil)
  rw [enumerateValues, if_neg hnum, MixedRadix.tuples_eq_map_decode]
  refine List.map_congr_left fun code hcode => ?_
  exact decodeFrom_eq _ code (List.mem_range.mp hcode) hcard

theorem enumerateValues_eq_nil {this : VariableSet o} (h : this.ranks = []) :
    this.enumerateValues = [] := by
  rw [enumerateValues, if_pos]
  rw [getNumVbls_eq, h, List.length_nil]

theorem indexFrom_eq {card values : List ℕ} (h : List.Forall₂ (· < ·) values card)
    (hne : values ≠ []) :
    indexFrom card.prod card (values.map some) = some (MixedRadix.encode card values) := by
  induction h with
  | nil => exact absurd rfl hne
  | @cons a c values card ha hrest ih =>
      cases hrest with
      | nil => simp [indexFrom, MixedRadix.encode]
      | @cons a' c' values card ha' hrest =>
          have hoffset : (c :: c' :: card).prod / c = (c' :: card).prod := by
            rw [List.prod_cons, Nat.mul_div_cancel_left _ (Nat.zero_lt_of_lt ha)]
          have htail := ih (List.cons_ne_nil _ _)
          rw [List.map_cons] at htail ⊢
          rw [List.map_cons, indexFrom, hoffset, htail, MixedRadix.encode]
          rfl

/-- `VariableSet_ComputeIndex` is the position of the tuple in the enumeration. -/
theorem computeIndex_eq {vbls : VariableSet o} {values : List ℕ}
    (h : List.Forall₂ (· < ·) values vbls.getVblCardinalities) (hne : values ≠ []) :
    vbls.computeIndex values = some (MixedRadix.encode vbls.getVblCardinalities values) :=
  indexFrom_eq h hne

/-! ## Interleaving -/

variable {V : Type}

theorem writeAll_append (row : List (Option V)) (w w' : List (ℕ × V)) :
    writeAll (writeAll row w) w' = writeAll row (w ++ w') := List.foldl_append.symm

/-- Writes to different slots may be reordered. -/
theorem writeAll_perm {w w' : List (ℕ × V)} (h : w.Perm w') (hnodup : (w.map Prod.fst).Nodup)
    (row : List (Option V)) : writeAll row w = writeAll row w' := by
  refine h.foldl_eq' (fun a ha b hb row => ?_) row
  by_cases hslot : a.1 = b.1
  · rw [List.inj_on_of_nodup_map hnodup ha hb hslot]
  · exact List.set_comm _ _ hslot

theorem writeAll_range' (values : List V) (before : List (Option V)) :
    writeAll (before ++ List.replicate values.length none)
      ((List.range' before.length values.length).zip values) = before ++ values.map some := by
  induction values generalizing before with
  | nil => simp [writeAll]
  | cons v values ih =>
      have hstep := ih (before ++ [some v])
      rw [List.length_append, List.length_singleton] at hstep
      rw [List.length_cons, List.range'_succ, List.zip_cons_cons, List.replicate_succ]
      rw [show writeAll (before ++ none :: List.replicate values.length none)
          ((before.length, v) :: (List.range' (before.length + 1) values.length).zip values) =
        writeAll (before ++ [some v] ++ List.replicate values.length none)
          ((List.range' (before.length + 1) values.length).zip values) by simp [writeAll]]
      rw [hstep]
      simp

theorem range'_eq_map_idxOf (i : ℕ) {ranks : List ℕ} (h : ranks.Nodup) :
    List.range' i ranks.length = ranks.map fun rank => i + ranks.idxOf rank := by
  refine List.ext_getElem (by simp) fun k hk hk' => ?_
  rw [List.getElem_range', List.getElem_map, h.idxOf_getElem]
  omega

/-- One more element at the front moves the positions of the others. -/
theorem map_idxOf_cons (i : ℕ) {head : ℕ} {ranks merged : List ℕ} (h : head ∉ ranks) :
    (ranks.map fun rank => i + (head :: merged).idxOf rank) =
      ranks.map fun rank => i + 1 + merged.idxOf rank := by
  refine List.map_congr_left fun rank hrank => ?_
  have hne : head ≠ rank := by
    rintro rfl
    exact h hrank
  rw [List.idxOf_cons_ne _ hne]
  omega

theorem map_idxOf_cons_self (i : ℕ) {head : ℕ} {ranks merged : List ℕ} (h : head ∉ ranks) :
    ((head :: ranks).map fun rank => i + (head :: merged).idxOf rank) =
      i :: ranks.map fun rank => i + 1 + merged.idxOf rank := by
  rw [List.map_cons, map_idxOf_cons i h, List.idxOf_cons_self]
  rfl

/-- Every rank becomes its position in the merge. -/
theorem fixVblsIndices_eq (fuel : ℕ) : ∀ (i : ℕ) (fst scnd : List ℕ),
    fst.length + scnd.length ≤ fuel → (fst ++ scnd).Nodup →
    fixVblsIndices fuel i fst scnd =
      (fst.map fun rank => i + (fst.merge scnd).idxOf rank,
        scnd.map fun rank => i + (fst.merge scnd).idxOf rank) := by
  induction fuel with
  | zero =>
      intro i fst scnd hfuel _
      have hfst : fst = [] := List.length_eq_zero_iff.mp (by omega)
      have hscnd : scnd = [] := List.length_eq_zero_iff.mp (by omega)
      subst hfst hscnd
      rfl
  | succ fuel ih =>
      intro i fst scnd hfuel hnodup
      rcases fst with _ | ⟨f, fst⟩
      · rw [List.nil_append] at hnodup
        rw [fixVblsIndices, List.nil_merge, ← range'_eq_map_idxOf i hnodup]
        rfl
      rcases scnd with _ | ⟨s, scnd⟩
      · rw [List.append_nil] at hnodup
        rw [fixVblsIndices, List.merge_right, ← range'_eq_map_idxOf i hnodup]
        · rfl
        · simp
      have hs := List.nodup_cons.mp (List.nodup_middle.mp hnodup)
      rw [List.mem_append, not_or] at hs
      rw [List.cons_append, List.nodup_cons, List.mem_append, not_or] at hnodup
      simp only [List.length_cons] at hfuel
      rw [fixVblsIndices]
      by_cases hlt : f < s
      · have hmerge : (f :: fst).merge (s :: scnd) = f :: fst.merge (s :: scnd) := by
          rw [List.cons_merge_cons, if_pos (by simpa using hlt.le)]
        rw [if_pos hlt, ih (i + 1) fst (s :: scnd) (by simp only [List.length_cons]; omega)
          hnodup.2,
          hmerge, map_idxOf_cons_self i hnodup.1.1, map_idxOf_cons i hnodup.1.2]
      · have hne : f ≠ s := by
          rintro rfl
          exact hnodup.1.2 (List.mem_cons_self ..)
        have hmerge : (f :: fst).merge (s :: scnd) = s :: (f :: fst).merge scnd := by
          rw [List.cons_merge_cons, if_neg]
          rw [decide_eq_true_eq]
          omega
        rw [if_neg hlt, ih (i + 1) (f :: fst) scnd (by simp only [List.length_cons]; omega) hs.2,
          hmerge, map_idxOf_cons i hs.1.1, map_idxOf_cons_self i hs.1.2]

/-- The relabelled ranks carry their values to the places these have in the merge. -/
theorem fixVblsIndices_zip (x : ℕ → V) {fst scnd : List ℕ} (hnodup : (fst ++ scnd).Nodup) :
    (((fixVblsIndices (fst.length + scnd.length) 0 fst scnd).1.zip (fst.map x)) ++
        ((fixVblsIndices (fst.length + scnd.length) 0 fst scnd).2.zip (scnd.map x))).Perm
      ((List.range' 0 (fst.length + scnd.length)).zip ((fst.merge scnd).map x)) := by
  have hmerge : (fst.merge scnd).Perm (fst ++ scnd) := List.merge_perm_append _
  have hrange := range'_eq_map_idxOf 0 (hmerge.nodup_iff.mpr hnodup)
  rw [List.length_merge] at hrange
  rw [fixVblsIndices_eq _ _ _ _ le_rfl hnodup, hrange, List.zip_map', List.zip_map',
    List.zip_map', ← List.map_append]
  exact (hmerge.map _).symm

/-- The ranks of a disjoint union are the ranks of both sets. -/
theorem ranks_perm {first second all : VariableSet o}
    (hdisj : Disjoint first.vars second.vars) (hall : all.vars = first.vars ∪ second.vars) :
    (first.ranks ++ second.ranks).Perm all.ranks := by
  have hnodup : (first.ranks ++ second.ranks).Nodup := by
    rw [List.nodup_append]
    refine ⟨first.ranks_nodup, second.ranks_nodup, fun a ha b hb heq => ?_⟩
    exact Finset.disjoint_left.mp hdisj (mem_vars_iff_mem_ranks.mpr ha)
      (mem_vars_iff_mem_ranks.mpr (heq ▸ hb))
  rw [List.perm_ext_iff_of_nodup hnodup all.ranks_nodup]
  intro i
  have hi : i ∈ all.ranks ↔ i ∈ first.vars ∪ second.vars := by
    rw [← hall, mem_vars_iff_mem_ranks]
  rw [hi, List.mem_append, Finset.mem_union, mem_vars_iff_mem_ranks, mem_vars_iff_mem_ranks]

/-- They are the merge of these ranks. -/
theorem ranks_eq_merge {first second all : VariableSet o}
    (hdisj : Disjoint first.vars second.vars) (hall : all.vars = first.vars ∪ second.vars) :
    all.ranks = first.ranks.merge second.ranks := by
  have hperm : all.ranks.Perm (first.ranks.merge second.ranks) :=
    (ranks_perm hdisj hall).symm.trans (List.merge_perm_append _).symm
  have hle : ∀ this : VariableSet o, this.ranks.Pairwise (· ≤ ·) := fun this =>
    this.bv.onIndices_sorted.imp fun h => h.le
  exact hperm.eq_of_pairwise' (hle all) ((hle first).merge (hle second))

/-- `IndexCross` lists the values of the union in rank order. -/
theorem indexCross_eq {first second all : VariableSet o}
    (hdisj : Disjoint first.vars second.vars) (hall : all.vars = first.vars ∪ second.vars)
    {ι : Type} (tuples : List ι) (x : ι → ℕ → V) (firstIndices : List V)
    (hfirst : ∀ t ∈ tuples, first.ranks.map (x t) = firstIndices) :
    indexCross first firstIndices second (tuples.map fun t => second.ranks.map (x t)) =
      tuples.map fun t => (all.ranks.map (x t)).map some := by
  have hmerged := (ranks_perm hdisj hall).nodup_iff.mpr all.ranks_nodup
  have hlen : all.ranks.length = first.ranks.length + second.ranks.length := by
    rw [ranks_eq_merge hdisj hall, List.length_merge]
  rw [indexCross, List.map_map]
  refine List.map_congr_left fun t ht => ?_
  have hzip := fixVblsIndices_zip (x t) hmerged
  have hkeys : ((List.range' 0 (first.ranks.length + second.ranks.length)).zip
      ((first.ranks.merge second.ranks).map (x t))).map Prod.fst =
      List.range' 0 (first.ranks.length + second.ranks.length) := by
    refine List.map_fst_zip ?_
    rw [List.length_range', List.length_map, List.length_merge]
  have hnodup := (hzip.map Prod.fst).nodup_iff.mpr (by
    rw [hkeys]
    exact List.nodup_range')
  have hwrite := writeAll_range' (all.ranks.map (x t)) []
  rw [List.length_map, hlen, List.nil_append, List.nil_append, List.length_nil] at hwrite
  rw [Function.comp_apply, writeAll_append, getNumVbls_eq, getNumVbls_eq, ← hfirst t ht,
    writeAll_perm hzip hnodup, ← ranks_eq_merge hdisj hall, hwrite]

end VariableSet

end JunctionBox
