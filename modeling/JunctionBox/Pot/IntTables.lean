import JunctionBox.Foundations.CInt
import JunctionBox.Pot.MulMemo

/-!
# Table sizes and indices in `int`

`Pot.VariableSet` computes table sizes and indices with natural numbers.  The
source computes them with `int`, whose products wrap around and whose quotients
may have no value.  This file follows the source in that respect: the same
loops, each operation a `CInt` one.

While the table has at most `INT_MAX` entries nothing is lost:
`enumerateValues_eq` and `indexFrom_eq` are the numerals of `MixedRadix` again.
Beyond that the size is the exact one wrapped (`bitProduct_eq`), and a running
quotient of it may reach zero before all radices are used up
(`isSome_decodeFrom_iff`).
-/

namespace JunctionBox.IntTables

open VariableSet

variable {o : VariableOrdering}

/-- The counting loop `if(BitVector_GetBit(bv, i)) product *= cardinality` of
`VariableSet_EnumerateValues`, `VariableSet_ComputeIndex` and
`VariableSet_ComputeIndices`. -/
def bitProduct (this : VariableSet o) : ℤ :=
  (List.range o.size).foldl (fun product i =>
    if this.bv.on i then CInt.mul product (o.vbl i).cardinality else product) 1

/-- The loop `product *= cardinalities[i]` of `Pot_CreateTabular` and
`Pot_CreateTabularUnity`. -/
def arrayProduct (cardinalities : List ℕ) : ℤ :=
  cardinalities.foldl (fun product (cardinality : ℕ) => CInt.mul product cardinality) 1

/-- `VariableSet_GetCardinality`. -/
def getCardinality (this : VariableSet o) : ℤ := bitProduct this

/-- The `tableSize` that `Pot_CreateTabular` sets. -/
def createTabularSize (vbls : VariableSet o) : ℤ := arrayProduct vbls.getVblCardinalities

/-- The `tableSize` that `Pot_CreateTabularUnity` sets. -/
def createTabularUnitySize (vbls : VariableSet o) : ℤ := arrayProduct vbls.getVblCardinalities

/-- One row of `VariableSet_EnumerateValues`. -/
def decodeFrom : ℤ → List ℕ → ℤ → Option (List ℤ)
  | offsetFactor, c :: c' :: card, code => do
      let offset ← CInt.div offsetFactor c
      let quotient ← CInt.div code offset
      let row ← decodeFrom offset (c' :: card) (CInt.sub code (CInt.mul quotient offset))
      return quotient :: row
  | _, [_], code => some [code]
  | _, [], _ => some []

/-- `VariableSet_EnumerateValues`: `*cardinalityRet` and the rows. -/
def enumerateValues (this : VariableSet o) : Option (ℤ × List (List ℤ)) :=
  if this.getNumVbls = 0 then some (0, [])
  else ((List.range (bitProduct this).toNat).mapM fun i : ℕ =>
    decodeFrom (bitProduct this) this.getVblCardinalities i).map fun ret => (bitProduct this, ret)

/-- The loop of `VariableSet_ComputeIndex` and the inner one of
`VariableSet_ComputeIndices`. -/
def indexFrom : ℤ → ℤ → List ℕ → List ℤ → Option ℤ
  | product, ret, c :: c' :: card, v :: values => do
      let product ← CInt.div product c
      indexFrom product (CInt.add ret (CInt.mul v product)) (c' :: card) values
  | _, ret, _, v :: _ => some (CInt.add ret v)
  | _, _, _, [] => none

/-- `VariableSet_ComputeIndex`. -/
def computeIndex (vbls : VariableSet o) (values : List ℤ) : Option ℤ :=
  indexFrom (bitProduct vbls) 0 vbls.getVblCardinalities values

/-- `VariableSet_ComputeIndices`. -/
def computeIndices (vbls : VariableSet o) (values : List (List ℤ)) : Option (List ℤ) :=
  values.mapM (indexFrom (bitProduct vbls) 0 vbls.getVblCardinalities)

/-! ## Sizes -/

theorem arrayProduct_eq (cardinalities : List ℕ) :
    arrayProduct cardinalities = CInt.wrap (cardinalities.prod : ℕ) := by
  have hfold := CInt.foldl_mul cardinalities 1
  rw [Nat.one_mul] at hfold
  exact hfold

/-- The loop over the bits multiplies what the loop over the array does. -/
theorem bitProduct_eq_arrayProduct (this : VariableSet o) :
    bitProduct this = arrayProduct this.getVblCardinalities := by
  rw [bitProduct, arrayProduct, getVblCardinalities, List.foldl_map, ranks, BitVector.onIndices,
    List.foldl_filter]

/-- Every size is the exact one, wrapped. -/
theorem bitProduct_eq (this : VariableSet o) :
    bitProduct this = CInt.wrap this.getCardinality := by
  rw [bitProduct_eq_arrayProduct, arrayProduct_eq, VariableSet.getCardinality]

theorem bitProduct_of_fits {this : VariableSet o}
    (hint : (this.getCardinality : ℤ) ≤ CInt.intMax) : bitProduct this = this.getCardinality := by
  rw [bitProduct_eq, CInt.wrap_eq_self (Int.natCast_nonneg _) hint]

theorem getNumVbls_eq_zero_iff {this : VariableSet o} :
    this.getNumVbls = 0 ↔ this.getVblCardinalities = [] := by
  rw [getNumVbls_eq, getVblCardinalities, List.map_eq_nil_iff, List.length_eq_zero_iff]

/-! ## Tables that fit -/

/-- The digits of a code. -/
theorem decodeFrom_eq : ∀ (card : List ℕ) (code : ℕ), code < card.prod →
    (card.prod : ℤ) ≤ CInt.intMax →
    decodeFrom card.prod card code = some ((MixedRadix.decode card code).map Nat.cast) := by
  intro card
  induction card with
  | nil => exact fun _ _ _ => rfl
  | cons c card ih =>
      intro code hcode hint
      cases card with
      | nil => simp [decodeFrom, MixedRadix.decode]
      | cons c' card =>
          have hprod : 0 < (c :: c' :: card).prod := Nat.zero_lt_of_lt hcode
          rw [List.prod_cons] at hprod hint
          have hc : 0 < c := Nat.pos_of_mul_pos_right hprod
          have hrest : 0 < (c' :: card).prod := Nat.pos_of_mul_pos_left hprod
          have hcodeInt : (code : ℤ) ≤ CInt.intMax := by
            rw [List.prod_cons] at hcode
            exact le_trans (Int.ofNat_le.mpr hcode.le) hint
          have hrestInt : ((c' :: card).prod : ℤ) ≤ CInt.intMax :=
            le_trans (Int.ofNat_le.mpr (Nat.le_mul_of_pos_left _ hc)) hint
          have hoffset : CInt.div ((c :: c' :: card).prod : ℕ) c =
              some (((c' :: card).prod : ℕ) : ℤ) := by
            rw [List.prod_cons, CInt.div_natCast hc.ne' hint, Nat.mul_div_cancel_left _ hc]
          -- what is left of the code is its remainder
          have hmul : CInt.mul ((code / (c' :: card).prod : ℕ) : ℤ) ((c' :: card).prod : ℕ) =
              ((code / (c' :: card).prod * (c' :: card).prod : ℕ) : ℤ) := by
            unfold CInt.mul
            rw [← Nat.cast_mul, CInt.wrap_eq_self (Int.natCast_nonneg _)]
            exact le_trans (Int.ofNat_le.mpr (Nat.div_mul_le_self _ _)) hcodeInt
          have hsub : CInt.sub code
              ((code / (c' :: card).prod * (c' :: card).prod : ℕ) : ℤ) =
                ((code % (c' :: card).prod : ℕ) : ℤ) := by
            have hdiv := Nat.div_add_mod' code (c' :: card).prod
            unfold CInt.sub
            rw [← Nat.cast_sub (Nat.div_mul_le_self _ _)]
            rw [show code - code / (c' :: card).prod * (c' :: card).prod =
              code % (c' :: card).prod by omega]
            refine CInt.wrap_eq_self (Int.natCast_nonneg _) (le_trans ?_ hcodeInt)
            exact Int.ofNat_le.mpr (Nat.mod_le _ _)
          rw [decodeFrom, hoffset, Option.bind_eq_bind, Option.bind_some,
            CInt.div_natCast hrest.ne' hcodeInt, Option.bind_eq_bind, Option.bind_some, hmul, hsub,
            ih _ (Nat.mod_lt _ hrest) hrestInt, MixedRadix.decode]
          rfl

/-- A table that fits is enumerated as it should be. -/
theorem enumerateValues_eq {this : VariableSet o} (hne : this.vars.Nonempty)
    (hint : (this.getCardinality : ℤ) ≤ CInt.intMax) :
    enumerateValues this = some ((this.getCardinality : ℤ),
      (MixedRadix.tuples this.getVblCardinalities).map (List.map Nat.cast)) := by
  have hnum : ¬this.getNumVbls = 0 := by
    rw [getNumVbls_eq, List.length_eq_zero_iff]
    exact ranks_ne_nil_iff.mpr hne
  have hrows : ((List.range this.getCardinality).mapM fun i : ℕ =>
      decodeFrom this.getCardinality this.getVblCardinalities i) =
        some ((List.range this.getCardinality).map fun i =>
          (MixedRadix.decode this.getVblCardinalities i).map Nat.cast) :=
    PartialLoops.mapM_eq_some fun i hi => decodeFrom_eq _ i (List.mem_range.mp hi) hint
  rw [enumerateValues, if_neg hnum, bitProduct_of_fits hint, Int.toNat_natCast, hrows,
    MixedRadix.tuples_eq_map_decode, List.map_map]
  rfl

/-- The index of a tuple in range. -/
theorem indexFrom_eq {card values : List ℕ} (h : List.Forall₂ (· < ·) values card)
    (hne : values ≠ []) :
    ∀ ret : ℕ, ((ret + card.prod : ℕ) : ℤ) ≤ CInt.intMax →
      indexFrom card.prod ret card (values.map Nat.cast) =
        some ((ret + MixedRadix.encode card values : ℕ) : ℤ) := by
  induction h with
  | nil => exact absurd rfl hne
  | @cons a c values card ha hrest ih =>
      intro ret hint
      rw [List.prod_cons] at hint
      cases hrest with
      | nil =>
          have hle : ((ret + a : ℕ) : ℤ) ≤ CInt.intMax := by
            refine le_trans (Int.ofNat_le.mpr ?_) hint
            rw [List.prod_nil]
            omega
          have hlast : indexFrom ([c].prod : ℕ) ret [c] [(a : ℤ)] = some (CInt.add ret a) := rfl
          have hencode : MixedRadix.encode [c] [a] = a := by simp [MixedRadix.encode]
          rw [List.map_cons, List.map_nil, hlast, hencode, CInt.add, ← Nat.cast_add,
            CInt.wrap_eq_self (Int.natCast_nonneg _) hle]
      | @cons a' c' values card ha' hrest =>
          have hc : 0 < c := Nat.zero_lt_of_lt ha
          -- the block of `a` ends within the table
          have hblock : a * (c' :: card).prod + (c' :: card).prod ≤ c * (c' :: card).prod := by
            rw [← Nat.succ_mul]
            exact Nat.mul_le_mul_right _ ha
          have hprodInt : ((c * (c' :: card).prod : ℕ) : ℤ) ≤ CInt.intMax :=
            le_trans (Int.ofNat_le.mpr (Nat.le_add_left _ _)) hint
          have hret : ((ret + a * (c' :: card).prod + (c' :: card).prod : ℕ) : ℤ) ≤
              CInt.intMax := le_trans (Int.ofNat_le.mpr (by omega)) hint
          have hoffset : CInt.div ((c :: c' :: card).prod : ℕ) c =
              some (((c' :: card).prod : ℕ) : ℤ) := by
            rw [List.prod_cons, CInt.div_natCast hc.ne' hprodInt, Nat.mul_div_cancel_left _ hc]
          have hadd : CInt.add ret (CInt.mul a ((c' :: card).prod : ℕ)) =
              ((ret + a * (c' :: card).prod : ℕ) : ℤ) := by
            unfold CInt.add CInt.mul
            rw [← Nat.cast_mul, CInt.wrap_eq_self (Int.natCast_nonneg _), ← Nat.cast_add,
              CInt.wrap_eq_self (Int.natCast_nonneg _)]
            · exact le_trans (Int.ofNat_le.mpr (Nat.le_add_right _ _)) hret
            · exact le_trans (Int.ofNat_le.mpr (by omega)) hret
          have hencode : MixedRadix.encode (c :: c' :: card) (a :: a' :: values) =
              a * (c' :: card).prod + MixedRadix.encode (c' :: card) (a' :: values) := rfl
          rw [List.map_cons, indexFrom, hoffset, Option.bind_eq_bind, Option.bind_some, hadd,
            ih (List.cons_ne_nil _ _) _ hret, hencode, Nat.add_assoc]

/-- `t` has a value in range for every variable of the set. -/
def InRange (this : VariableSet o) (t : List ℤ) : Prop :=
  List.Forall₂ (fun (value : ℤ) (cardinality : ℕ) => 0 ≤ value ∧ value < cardinality) t
    this.getVblCardinalities

theorem inRange_iff {this : VariableSet o} {t : List ℤ} :
    InRange this t ↔ ∃ u ∈ MixedRadix.tuples this.getVblCardinalities, u.map Nat.cast = t := by
  constructor
  · intro h
    unfold InRange at h
    generalize this.getVblCardinalities = card at h
    induction h with
    | nil => exact ⟨[], MixedRadix.mem_tuples_iff.mpr List.Forall₂.nil, rfl⟩
    | @cons value cardinality t card hvalue hrest ih =>
        obtain ⟨u, hu, rfl⟩ := ih
        refine ⟨value.toNat :: u, MixedRadix.mem_tuples_iff.mpr
          (List.Forall₂.cons (by omega) (MixedRadix.mem_tuples_iff.mp hu)), ?_⟩
        rw [List.map_cons, Int.toNat_of_nonneg hvalue.1]
  · rintro ⟨u, hu, rfl⟩
    unfold InRange
    rw [List.forall₂_map_left_iff]
    refine (MixedRadix.mem_tuples_iff.mp hu).imp fun value cardinality hlt => ?_
    omega

theorem computeIndex_natCast {this : VariableSet o} (hne : this.vars.Nonempty)
    (hint : (this.getCardinality : ℤ) ≤ CInt.intMax) {u : List ℕ}
    (hu : u ∈ MixedRadix.tuples this.getVblCardinalities) :
    computeIndex this (u.map Nat.cast) =
      some ((MixedRadix.encode this.getVblCardinalities u : ℕ) : ℤ) := by
  have hforall := MixedRadix.mem_tuples_iff.mp hu
  have hcards : this.getVblCardinalities ≠ [] := fun hnil =>
    ranks_ne_nil_iff.mpr hne (List.map_eq_nil_iff.mp hnil)
  have hu' : u ≠ [] := by
    rintro rfl
    exact hcards (List.forall₂_nil_left_iff.mp hforall)
  have hindex := indexFrom_eq hforall hu' 0 (by rw [Nat.zero_add]; exact hint)
  rw [Nat.zero_add] at hindex
  rw [computeIndex, bitProduct_of_fits hint]
  exact hindex

/-! ## Divisions -/

/-- The indices divide by the cardinalities of all variables but the last. -/
theorem isSome_indexFrom_iff : ∀ (card : List ℕ) (product ret : ℤ) (values : List ℤ),
    values ≠ [] → card.length ≤ values.length →
    ((indexFrom product ret card values).isSome ↔ ∀ c ∈ card.dropLast, c ≠ 0) := by
  intro card
  induction card with
  | nil =>
      intro product ret values hne _
      cases values with
      | nil => exact absurd rfl hne
      | cons v values => simp [indexFrom]
  | cons c card ih =>
      intro product ret values hne hlen
      cases values with
      | nil => exact absurd rfl hne
      | cons v values =>
          cases card with
          | nil => simp [indexFrom]
          | cons c' card =>
              have hlen' : (c' :: card).length ≤ values.length := Nat.le_of_succ_le_succ hlen
              have hne' : values ≠ [] := by
                rintro rfl
                simp at hlen'
              rw [List.dropLast_cons_cons, indexFrom]
              by_cases hc : c = 0
              · simp [CInt.div, hc]
              · have hdiv : CInt.div product c = some (CInt.wrap (product.tdiv c)) :=
                  if_neg (Int.natCast_ne_zero.mpr hc)
                rw [hdiv, Option.bind_eq_bind, Option.bind_some, ih _ _ _ hne' hlen']
                simp [hc]

/-- The rows divide by the running quotients of the size, which reach zero when the other
radices multiply to more than the size. -/
theorem isSome_decodeFrom_iff : ∀ (card : List ℕ) (size : ℕ) (code : ℤ), 0 < size →
    (size : ℤ) ≤ CInt.intMax →
    ((decodeFrom size card code).isSome ↔
      0 < card.dropLast.prod ∧ card.dropLast.prod ≤ size) := by
  intro card
  induction card with
  | nil =>
      intro size code hsize _
      simp only [decodeFrom, List.dropLast_nil, List.prod_nil, Option.isSome_some, true_iff]
      omega
  | cons c card ih =>
      intro size code hsize hint
      cases card with
      | nil =>
          simp only [decodeFrom, List.dropLast_singleton, List.prod_nil, Option.isSome_some,
            true_iff]
          omega
      | cons c' card =>
          rw [List.dropLast_cons_cons, List.prod_cons, decodeFrom]
          by_cases hc : c = 0
          · simp [CInt.div, hc]
          have hc' : 0 < c := Nat.pos_of_ne_zero hc
          have hquot : ((size / c : ℕ) : ℤ) ≤ CInt.intMax :=
            le_trans (Int.ofNat_le.mpr (Nat.div_le_self _ _)) hint
          rw [CInt.div_natCast hc hint, Option.bind_eq_bind, Option.bind_some]
          by_cases hzero : size / c = 0
          · -- the next division is by zero, and the radix alone exceeds the size
            have hlt : size < c := (Nat.div_eq_zero_iff.mp hzero).resolve_left hc
            have hright : ¬(0 < c * (c' :: card).dropLast.prod ∧
                c * (c' :: card).dropLast.prod ≤ size) := by
              rintro ⟨hpos, hle⟩
              have hrest := Nat.le_mul_of_pos_right c (Nat.pos_of_mul_pos_left hpos)
              omega
            refine iff_of_false ?_ hright
            rw [hzero]
            simp [CInt.div]
          · have hdiv : CInt.div code ((size / c : ℕ) : ℤ) =
                some (CInt.wrap (code.tdiv ((size / c : ℕ) : ℤ))) :=
              if_neg (Int.natCast_ne_zero.mpr hzero)
            have hrow := ih (size / c) (CInt.sub code (CInt.mul
              (CInt.wrap (code.tdiv ((size / c : ℕ) : ℤ))) ((size / c : ℕ) : ℤ)))
              (Nat.pos_of_ne_zero hzero) hquot
            rw [Nat.le_div_iff_mul_le hc'] at hrow
            have hmap : ∀ row : Option (List ℤ), (row.bind fun row => pure
                (CInt.wrap (code.tdiv ((size / c : ℕ) : ℤ)) :: row)).isSome = row.isSome :=
              fun row => by cases row <;> rfl
            rw [hdiv, Option.bind_eq_bind, Option.bind_some, hmap, hrow, Nat.mul_comm c]
            exact and_congr_left fun _ => ⟨fun h => Nat.mul_pos h hc',
              fun h => Nat.pos_of_mul_pos_right h⟩

theorem getVblCardinalities_pos {this : VariableSet o}
    (hpos : ∀ i ∈ this.vars, 1 ≤ (o.vbl i).cardinality) :
    ∀ c ∈ this.getVblCardinalities, c ≠ 0 := by
  intro c hc
  obtain ⟨i, hi, rfl⟩ := List.mem_map.mp hc
  have hone := hpos i (mem_vars_iff_mem_ranks.mpr hi)
  omega

theorem length_getVblCardinalities (this : VariableSet o) :
    this.getVblCardinalities.length = this.getNumVbls := by
  rw [getVblCardinalities, List.length_map, getNumVbls_eq]

/-- **Encoding and decoding are inverse.** -/
theorem computeIndex_enumerateValues {this : VariableSet o} (hne : this.vars.Nonempty)
    (hpos : ∀ i ∈ this.vars, 1 ≤ (o.vbl i).cardinality)
    (hint : (this.getCardinality : ℤ) ≤ CInt.intMax) :
    ∃ rows, enumerateValues this = some ((this.getCardinality : ℤ), rows) ∧
      rows.length = this.getCardinality ∧
      (∀ (i : ℕ) (row : List ℤ), rows[i]? = some row →
        InRange this row ∧ computeIndex this row = some (i : ℤ)) ∧
      (∀ t, InRange this t → ∃! i : ℕ, rows[i]? = some t) ∧
      ∀ tuples : List (List ℤ), (∀ t ∈ tuples, t.length = this.getNumVbls) →
        ∃ ret, computeIndices this tuples = some ret ∧ ret.length = tuples.length ∧
          ∀ k : ℕ, ret[k]? = tuples[k]?.bind (computeIndex this) := by
  have hget : ∀ (i : ℕ) (row : List ℤ),
      ((MixedRadix.tuples this.getVblCardinalities).map (List.map Nat.cast))[i]? = some row →
        InRange this row ∧ computeIndex this row = some (i : ℤ) := by
    intro i row hrow
    rw [MixedRadix.tuples_eq_map_decode, List.map_map, List.getElem?_map,
      Option.map_eq_some_iff] at hrow
    obtain ⟨k, hk, rfl⟩ := hrow
    obtain ⟨hlt, rfl⟩ := List.getElem?_eq_some_iff.mp hk
    rw [List.length_range] at hlt
    rw [List.getElem_range, Function.comp_apply]
    have hmem : MixedRadix.decode this.getVblCardinalities i ∈
        MixedRadix.tuples this.getVblCardinalities := by
      rw [MixedRadix.tuples_eq_map_decode]
      exact List.mem_map_of_mem (List.mem_range.mpr hlt)
    refine ⟨inRange_iff.mpr ⟨_, hmem, rfl⟩, ?_⟩
    rw [computeIndex_natCast hne hint hmem, MixedRadix.encode_decode hlt]
  refine ⟨_, enumerateValues_eq hne hint, ?_, hget, fun t ht => ?_, fun tuples htuples => ?_⟩
  · rw [List.length_map, MixedRadix.length_tuples, VariableSet.getCardinality]
  · obtain ⟨u, hu, rfl⟩ := inRange_iff.mp ht
    refine ⟨MixedRadix.encode this.getVblCardinalities u, ?_, fun j hj => ?_⟩
    · simp only [List.getElem?_map,
        MixedRadix.getElem?_tuples_encode (MixedRadix.mem_tuples_iff.mp hu), Option.map_some]
    · -- the index of a row is its position
      have hindex := (hget j _ hj).2
      rw [computeIndex_natCast hne hint hu] at hindex
      exact (Int.ofNat_inj.mp (Option.some.inj hindex)).symm
  · refine PartialLoops.exists_mapM fun t ht => Option.isSome_iff_exists.mp ?_
    have hlen := htuples t ht
    have hnum : this.getNumVbls ≠ 0 := by
      rw [getNumVbls_eq]
      exact fun hzero => ranks_ne_nil_iff.mpr hne (List.length_eq_zero_iff.mp hzero)
    have ht' : t ≠ [] := by
      rintro rfl
      exact hnum hlen.symm
    rw [isSome_indexFrom_iff _ _ _ _ ht' (by rw [length_getVblCardinalities, hlen])]
    exact fun c hc => getVblCardinalities_pos hpos c (List.mem_of_mem_dropLast hc)

/-- Two variables with two and three values. -/
def smallOrdering : VariableOrdering := ⟨[⟨['a'], 2⟩, ⟨['b'], 3⟩]⟩

/-- Both of them. -/
def smallPair : VariableSet smallOrdering := ⟨⟨[3#8], rfl⟩⟩

theorem computeIndex_enumerateValues_smallPair :
    (∀ i ∈ smallPair.vars, 1 ≤ (smallOrdering.vbl i).cardinality) ∧
    ∃ rows, enumerateValues smallPair = some (6, rows) ∧ rows.length = 6 ∧
      (∀ (i : ℕ) (row : List ℤ), rows[i]? = some row →
        InRange smallPair row ∧ computeIndex smallPair row = some (i : ℤ)) ∧
      ∀ t, InRange smallPair t → ∃! i : ℕ, rows[i]? = some t := by
  have hpos : ∀ i ∈ smallPair.vars, 1 ≤ (smallOrdering.vbl i).cardinality := by decide
  have hcard : smallPair.getCardinality = 6 := by decide
  obtain ⟨rows, hrun, hlen, hget, hmem, -⟩ :=
    computeIndex_enumerateValues (by decide) hpos (by rw [hcard]; decide)
  rw [hcard] at hrun hlen
  exact ⟨hpos, rows, hrun, hlen, hget, hmem⟩

/-! ## The four sizes -/

/-- `VariableSet_EnumerateValues`, `VariableSet_GetCardinality`, `Pot_CreateTabular` and
`Pot_CreateTabularUnity` find the same size, and there are that many rows. -/
def SizesAgree (this : VariableSet o) : Prop :=
  ∃ rows, enumerateValues this = some (getCardinality this, rows) ∧
    (rows.length : ℤ) = getCardinality this ∧
    createTabularSize this = getCardinality this ∧
    createTabularUnitySize this = getCardinality this

theorem not_sizesAgree_of_empty {this : VariableSet o} (h : this.getNumVbls = 0) :
    ¬SizesAgree this := by
  rintro ⟨rows, hrun, -⟩
  have hone : getCardinality this = 1 := by
    rw [getCardinality, bitProduct_eq_arrayProduct, getNumVbls_eq_zero_iff.mp h]
    rfl
  rw [enumerateValues, if_pos h, hone] at hrun
  have hsize : (0 : ℤ) = 1 := congrArg Prod.fst (Option.some.inj hrun)
  omega

/-- Which sizes can be enumerated. -/
theorem exists_rows_iff {this : VariableSet o} (hne : this.getNumVbls ≠ 0) :
    (∃ rows, enumerateValues this = some (bitProduct this, rows) ∧
        (rows.length : ℤ) = bitProduct this) ↔
      bitProduct this = 0 ∨
        0 < bitProduct this ∧ (this.getVblCardinalities.dropLast.prod : ℤ) ≤ bitProduct this := by
  rw [enumerateValues, if_neg hne]
  rcases lt_trichotomy (bitProduct this) 0 with hneg | hzero | hpos
  · -- no number of rows is negative
    constructor
    · rintro ⟨rows, -, hlen⟩
      omega
    · omega
  · rw [hzero]
    exact iff_of_true ⟨[], rfl, rfl⟩ (Or.inl rfl)
  · obtain ⟨size, hsize⟩ := Int.eq_ofNat_of_zero_le hpos.le
    have hle : bitProduct this ≤ CInt.intMax := bitProduct_eq this ▸ CInt.wrap_le _
    rw [hsize] at hpos hle ⊢
    have hcard : ∀ c ∈ this.getVblCardinalities, c ≠ 0 := by
      rintro c hc rfl
      rw [bitProduct_eq, VariableSet.getCardinality, List.prod_eq_zero hc] at hsize
      have hzero : CInt.wrap ((0 : ℕ) : ℤ) = 0 := by decide
      omega
    have hdrop : 0 < this.getVblCardinalities.dropLast.prod := by
      apply Nat.pos_of_ne_zero
      rw [Ne, List.prod_eq_zero_iff]
      exact fun hmem => hcard 0 (List.mem_of_mem_dropLast hmem) rfl
    have hrow : ∀ code : ℤ, (decodeFrom size this.getVblCardinalities code).isSome ↔
        this.getVblCardinalities.dropLast.prod ≤ size := fun code => by
      rw [isSome_decodeFrom_iff _ _ _ (by omega) hle]
      exact and_iff_right hdrop
    constructor
    · rintro ⟨rows, hrun, -⟩
      obtain ⟨ret, hret, -⟩ := Option.map_eq_some_iff.mp hrun
      obtain ⟨row, -, hzero⟩ := (PartialLoops.mem_mapM hret).2 0
        (List.mem_range.mpr (by omega))
      have hle' := (hrow _).mp (Option.isSome_iff_exists.mpr ⟨row, hzero⟩)
      exact Or.inr ⟨hpos, by omega⟩
    · intro h
      have hle' : this.getVblCardinalities.dropLast.prod ≤ size := by omega
      obtain ⟨rows, hrows, hlen, -⟩ := PartialLoops.exists_mapM
        (l := List.range (size : ℤ).toNat)
        (f := fun i : ℕ => decodeFrom size this.getVblCardinalities i)
        fun i _ => Option.isSome_iff_exists.mp ((hrow _).mpr hle')
      refine ⟨rows, by rw [hrows]; rfl, ?_⟩
      rw [hlen, List.length_range, Int.toNat_natCast]

/-- **The sizes agree** for the sets that are not empty and whose wrapped size can be
enumerated. -/
theorem sizesAgree_iff (this : VariableSet o) :
    SizesAgree this ↔ this.vars.Nonempty ∧
      (CInt.wrap this.getCardinality = 0 ∨ 0 < CInt.wrap this.getCardinality ∧
        (this.getVblCardinalities.dropLast.prod : ℤ) ≤ CInt.wrap this.getCardinality) := by
  rw [← bitProduct_eq]
  by_cases hnum : this.getNumVbls = 0
  · have hempty : ¬this.vars.Nonempty := fun hne =>
      ranks_ne_nil_iff.mpr hne (List.length_eq_zero_iff.mp (getNumVbls_eq this ▸ hnum))
    exact iff_of_false (not_sizesAgree_of_empty hnum) fun h => hempty h.1
  · have hne : this.vars.Nonempty := ranks_ne_nil_iff.mp fun hnil =>
      hnum (by rw [getNumVbls_eq, hnil, List.length_nil])
    rw [and_iff_right hne, ← exists_rows_iff hnum]
    have harray := (bitProduct_eq_arrayProduct this).symm
    exact ⟨fun ⟨rows, hrun, hlen, _⟩ => ⟨rows, hrun, hlen⟩,
      fun ⟨rows, hrun, hlen⟩ => ⟨rows, hrun, hlen, harray, harray⟩⟩

theorem not_sizesAgree_create : ¬SizesAgree (VariableSet.create smallOrdering) :=
  not_sizesAgree_of_empty (by decide)

/-! ## Allocation

`jballoc` prints "Out of memory" when `malloc` returns `NULL`, and returns it.
-/

/-- A table that has been asked for: its number of entries, and whether `jballoc` reported
that it could not have it. -/
structure Allocation where
  size : ℤ
  reported : Bool

/-- `jballoc(sizeof(int*)*size)` and `jballoc(sizeof(double)*size)`: entries of eight bytes,
the number of bytes being a 64-bit `size_t`. -/
def jballoc (malloc : ℕ → Bool) (size : ℤ) : Allocation where
  size := size
  reported := !malloc ((8 * size) % 2 ^ 64).toNat

/-- The table that `VariableSet_EnumerateValues` asks for, the inner `none` when it asks for
none.  If the request is refused nothing is divided: there is no row to fill, or the first
write of a row goes through `NULL`. -/
def enumerateValuesAllocation (malloc : ℕ → Bool) (this : VariableSet o) :
    Option (Option Allocation) :=
  if this.getNumVbls = 0 then some none
  else
    let ret := jballoc malloc (bitProduct this)
    if ret.reported then some (some ret)
    else (enumerateValues this).map fun _ => some ret

/-- The table that `Pot_CreateTabularUnity` asks for. -/
def createTabularUnityAllocation (malloc : ℕ → Bool) (vbls : VariableSet o) : Allocation :=
  jballoc malloc (createTabularUnitySize vbls)

/-- The table has an entry for every assignment, or the failure to get it was reported. -/
def Allocation.Serves (ret : Allocation) (vbls : VariableSet o) : Prop :=
  ret.size = vbls.getCardinality ∨ ret.reported = true

/-- No division by zero, and no table of a wrong size; `values` is an array long enough for the
loop that reads it. -/
structure SafeArithmetic (malloc : ℕ → Bool) (this : VariableSet o) : Prop where
  enumerateValues : ∃ ret, enumerateValuesAllocation malloc this = some ret ∧
    ∀ table ∈ ret, table.Serves this
  computeIndex : ∀ values, values ≠ [] → this.getNumVbls ≤ values.length →
    (computeIndex this values).isSome
  computeIndices : ∀ tuples : List (List ℤ),
    (∀ values ∈ tuples, values ≠ [] ∧ this.getNumVbls ≤ values.length) →
      (computeIndices this tuples).isSome
  createTabularUnity : (createTabularUnityAllocation malloc this).Serves this

theorem serves_jballoc_iff (malloc : ℕ → Bool) (this : VariableSet o) :
    (jballoc malloc (CInt.wrap this.getCardinality)).Serves this ↔
      (this.getCardinality : ℤ) ≤ CInt.intMax ∨
        (jballoc malloc (CInt.wrap this.getCardinality)).reported = true := by
  have hsize : ∀ size, (jballoc malloc size).size = size := fun _ => rfl
  rw [Allocation.Serves, hsize, CInt.wrap_eq_self_iff (Int.natCast_nonneg this.getCardinality)]

/-- The sizes that `malloc` is documented to refuse, more than `PTRDIFF_MAX` bytes, include
every negative one. -/
theorem reported_of_neg {malloc : ℕ → Bool} (hmalloc : ∀ amt, 2 ^ 63 ≤ amt → malloc amt = false)
    {size : ℤ} (hneg : size < 0) (hlow : -2 ^ 31 ≤ size) :
    (jballoc malloc size).reported = true := by
  have hamt : 2 ^ 63 ≤ ((8 * size) % 2 ^ 64).toNat := by omega
  rw [jballoc, hmalloc _ hamt]
  rfl

/-- **Safe table arithmetic**: no cardinality but the last is zero, and the size fits, or the
allocator refuses what it wraps to. -/
theorem safeArithmetic_iff (malloc : ℕ → Bool) (this : VariableSet o) :
    SafeArithmetic malloc this ↔
      (∀ c ∈ this.getVblCardinalities.dropLast, c ≠ 0) ∧
        ((this.getCardinality : ℤ) ≤ CInt.intMax ∨
          (jballoc malloc (CInt.wrap this.getCardinality)).reported = true) := by
  have hunity : createTabularUnityAllocation malloc this =
      jballoc malloc (CInt.wrap this.getCardinality) := by
    rw [createTabularUnityAllocation, createTabularUnitySize, arrayProduct_eq,
      VariableSet.getCardinality]
  have hindex : ∀ values : List ℤ, values ≠ [] → this.getNumVbls ≤ values.length →
      ((computeIndex this values).isSome ↔ ∀ c ∈ this.getVblCardinalities.dropLast, c ≠ 0) :=
    fun values hne hlen =>
      isSome_indexFrom_iff _ _ _ _ hne (by rwa [length_getVblCardinalities])
  constructor
  · intro h
    refine ⟨?_, (serves_jballoc_iff malloc this).mp (hunity ▸ h.createTabularUnity)⟩
    have hvalues : List.replicate (this.getNumVbls + 1) (0 : ℤ) ≠ [] := List.cons_ne_nil _ _
    have hlen : this.getNumVbls ≤ (List.replicate (this.getNumVbls + 1) (0 : ℤ)).length := by
      rw [List.length_replicate]
      omega
    exact (hindex _ hvalues hlen).mp (h.computeIndex _ hvalues hlen)
  · rintro ⟨hcards, hsize⟩
    have hserves := (serves_jballoc_iff malloc this).mpr hsize
    refine ⟨?_, fun values hne hlen => (hindex values hne hlen).mpr hcards,
      fun tuples htuples => ?_, hunity ▸ hserves⟩
    · rw [enumerateValuesAllocation, bitProduct_eq]
      by_cases hnum : this.getNumVbls = 0
      · exact ⟨none, if_pos hnum, by simp⟩
      rw [if_neg hnum]
      simp only
      refine ⟨some (jballoc malloc (CInt.wrap this.getCardinality)), ?_, ?_⟩
      · split
        · rfl
        · next hserved =>
            have hne : this.vars.Nonempty := ranks_ne_nil_iff.mp fun hnil =>
              hnum (by rw [getNumVbls_eq, hnil, List.length_nil])
            rw [enumerateValues_eq hne (hsize.resolve_right hserved)]
            rfl
      · rintro table htable
        obtain rfl := Option.some.inj htable
        exact hserves
    · obtain ⟨ret, hret, -⟩ := PartialLoops.exists_mapM (l := tuples)
        (f := indexFrom (bitProduct this) 0 this.getVblCardinalities) fun values hvalues =>
          Option.isSome_iff_exists.mp
            ((hindex values (htuples values hvalues).1 (htuples values hvalues).2).mpr hcards)
      exact Option.isSome_iff_exists.mpr ⟨ret, hret⟩

/-- Two variables with `2 ^ 32 + 2 ^ 16` joint values. -/
def wideOrdering : VariableOrdering := ⟨[⟨['a'], 65537⟩, ⟨['b'], 65536⟩]⟩

/-- Both of them. -/
def widePair : VariableSet wideOrdering := ⟨⟨[3#8], rfl⟩⟩

/-- Their unity potential has `2 ^ 16` entries. -/
theorem not_safeArithmetic_widePair : ¬SafeArithmetic (fun _ => true) widePair := by
  intro h
  have hcard : widePair.getCardinality = 4295032832 := by decide
  have hsize : (createTabularUnityAllocation (fun _ => true) widePair).size = 65536 := by decide
  have hquiet : (createTabularUnityAllocation (fun _ => true) widePair).reported = false := rfl
  rcases h.createTabularUnity with heq | hreported
  · rw [hsize, hcard] at heq
    omega
  · rw [hquiet] at hreported
    exact absurd hreported (by decide)

end JunctionBox.IntTables
