import JunctionBox.Pot.Plain

/-!
# What the two index constructors share

`VariableSet_ComputeMulInd(S, C)` spreads a table over `S` onto one over `C`,
`VariableSet_ComputeMargInd(C, S)` collects the table over `C` onto one over
`S`.  For a non-empty proper subset both lists are the same, and their rows
partition the table over `C` by the restriction to `S` (`indices_partition`).

They part where nothing is summed out: the first has empty rows, the second is
`NULL`.  A product through the first then leaves the table as it was, a product
without an index table multiplies entry by entry (`productPaths_iff`); a
sum-margin dereferences the `NULL` (`sumMarginTabularSingleVbl_iff`).  The
second is also `NULL` when a variable without values is summed out.
-/

namespace JunctionBox

open SumOut

namespace VariableSet

variable {o : VariableOrdering}

/-- `sumCardinality` in `VariableSet_ComputeMargInd`, stored as the `mulSize` of its
result. -/
def sumCardinality (this target : VariableSet o) : ℕ :=
  (createFromBv (this.bv.xor target.bv) : VariableSet o).enumerateValues.length

/-- `itrCardinality` in `VariableSet_ComputeMulInd`, stored as the `mulSize` of its result. -/
def itrCardinality (this target : VariableSet o) : ℕ :=
  (createFromBv (this.bv.xor target.bv) : VariableSet o).enumerateValues.length

/-! ## Cardinalities -/

theorem getCardinality_eq_prod (this : VariableSet o) :
    this.getCardinality = ∏ i ∈ this.vars, (o.vbl i).cardinality := by
  rw [getCardinality, getVblCardinalities, vars, List.prod_toFinset _ this.ranks_nodup]

theorem Splits.getCardinality_eq {rows cols all : VariableSet o} (h : Splits rows cols all) :
    all.getCardinality = rows.getCardinality * cols.getCardinality := by
  rw [getCardinality_eq_prod, getCardinality_eq_prod, getCardinality_eq_prod, h.union,
    Finset.prod_union h.disjoint]

theorem getCardinality_ne_zero {this : VariableSet o}
    (hpos : ∀ i ∈ this.vars, 1 ≤ (o.vbl i).cardinality) : this.getCardinality ≠ 0 := by
  rw [getCardinality_eq_prod, Finset.prod_ne_zero_iff]
  intro i hi
  have hone := hpos i hi
  omega

/-- The number of tuples that are summed out. -/
theorem getCardinality_xor {this target : VariableSet o} (h : target.vars ⊆ this.vars) :
    (createFromBv (this.bv.xor target.bv) : VariableSet o).getCardinality =
      ∏ i ∈ this.vars \ target.vars, (o.vbl i).cardinality := by
  rw [getCardinality_eq_prod, BitVector.xor_comm, vars_xor _ _ h]

theorem getCardinality_eq_mul {this target : VariableSet o} (h : target.vars ⊆ this.vars) :
    this.getCardinality =
      target.getCardinality * ∏ i ∈ this.vars \ target.vars, (o.vbl i).cardinality := by
  rw [(splits_xor h).getCardinality_eq, ← getCardinality_xor h, BitVector.xor_comm]

/-! ## Rows -/

section Rows

variable {rows cols all : VariableSet o}

/-- The assignment with a given index. -/
theorem exists_index_eq {this : VariableSet o} {k : ℕ} (hk : k < this.getCardinality) :
    ∃ x, this.InRange x ∧ this.index x = k := by
  have hmem : MixedRadix.decode this.getVblCardinalities k ∈
      MixedRadix.tuples this.getVblCardinalities := by
    rw [MixedRadix.tuples_eq_map_decode]
    exact List.mem_map_of_mem (List.mem_range.mpr hk)
  obtain ⟨x, hx, hdecode⟩ := mem_tuples_iff.mp hmem
  refine ⟨x, hx, ?_⟩
  rw [index, hdecode]
  exact MixedRadix.encode_decode hk

/-- The row of `x` lists the assignments that agree with `x` on `rows`. -/
theorem Splits.mem_row_iff (h : Splits rows cols all) {x : Assignment} (hx : rows.InRange x)
    {k : ℕ} :
    k ∈ row cols all x ↔ ∃ y, all.InRange y ∧ rows.index y = rows.index x ∧ all.index y = k := by
  constructor
  · intro hk
    obtain ⟨d, hd, rfl⟩ := List.mem_map.mp hk
    obtain ⟨z, -, rfl⟩ := mem_tuples_iff.mp hd
    refine ⟨_, h.inRange_assign hx hd, index_congr fun i hi => assign_of_not_mem fun hmem => ?_,
      rfl⟩
    exact Finset.disjoint_left.mp h.disjoint hi (mem_vars_iff_mem_ranks.mpr hmem)
  · rintro ⟨y, hy, hindex, rfl⟩
    have hy' : rows.InRange y := hy.mono (h.union ▸ Finset.subset_union_left)
    have hagree := eq_of_index_eq hy' hx hindex
    rw [← h.row_congr (List.map_congr_left fun i hi =>
      hagree i (mem_vars_iff_mem_ranks.mpr hi))]
    exact Pot.Arithmetic.index_mem_row h hy

/-- The rows of an index table, by the index of the assignments they belong to. -/
theorem Splits.row_of_isIndexTable (h : Splits rows cols all) {mi : MulInd o}
    (hmi : Pot.Arithmetic.IsIndexTable mi rows cols all) {i : ℕ} {l : List ℕ}
    (hl : mi.secondIndices[i]? = some l) :
    l.length = cols.getCardinality ∧
      ∀ k, k ∈ l ↔ ∃ y, all.InRange y ∧ rows.index y = i ∧ all.index y = k := by
  have hi : i < rows.getCardinality := by
    have hlt := (List.getElem?_eq_some_iff.mp hl).1
    rwa [hmi, List.length_map, MixedRadix.length_tuples] at hlt
  obtain ⟨x, hx, rfl⟩ := exists_index_eq hi
  rw [Pot.Arithmetic.secondIndices_index hmi h hx, Option.some.injEq] at hl
  subst hl
  refine ⟨?_, fun k => h.mem_row_iff hx⟩
  rw [row, List.length_map, MixedRadix.length_tuples, getCardinality]

/-- The rows of an index table together. -/
theorem Splits.flatten_perm (h : Splits rows cols all) {mi : MulInd o}
    (hmi : Pot.Arithmetic.IsIndexTable mi rows cols all) :
    mi.secondIndices.flatten.Perm (List.range all.getCardinality) := by
  have hnodup := Pot.Arithmetic.nodup_entries hmi h
  rw [Pot.Arithmetic.map_snd_entries] at hnodup
  rw [List.perm_ext_iff_of_nodup hnodup List.nodup_range]
  intro k
  rw [List.mem_flatten, List.mem_range]
  constructor
  · rintro ⟨l, hl, hk⟩
    obtain ⟨i, hi⟩ := List.mem_iff_getElem?.mp hl
    obtain ⟨y, hy, -, rfl⟩ := ((h.row_of_isIndexTable hmi hi).2 k).mp hk
    exact index_lt hy
  · intro hk
    obtain ⟨y, hy, rfl⟩ := exists_index_eq hk
    have hy' : rows.InRange y := hy.mono (h.union ▸ Finset.subset_union_left)
    exact ⟨_, List.mem_of_getElem? (Pot.Arithmetic.secondIndices_index hmi h hy'),
      Pot.Arithmetic.index_mem_row h hy⟩

end Rows

/-- The index table of `VariableSet_ComputeMulInd`, also with the variables it crosses. -/
theorem computeMulInd_eq {this target : VariableSet o} (hne : this.vars.Nonempty)
    (h : this.vars ⊂ target.vars) :
    ∃ mi, this.computeMulInd target = some mi ∧ Pot.Arithmetic.IsIndexTable mi this
      (createFromBv (this.bv.xor target.bv)) target := by
  have hcross := crossIndices_eq (splits_xor h.subset) (ranks_ne_nil_iff.mpr hne)
    (ranks_xor_ne_nil h)
  exact ⟨_, by rw [computeMulInd, hcross]; rfl, by unfold Pot.Arithmetic.IsIndexTable; rfl⟩

/-- **The index tables partition the table of the larger set.** -/
theorem indices_partition {small large : VariableSet o} (hne : small.vars.Nonempty)
    (hlt : small.vars ⊂ large.vars) (hpos : ∀ i ∈ large.vars, 1 ≤ (o.vbl i).cardinality) :
    ∃ mulInd margInd, small.computeMulInd large = some mulInd ∧
      large.computeMargInd small = some (some margInd) ∧
      mulInd.firstIndices = small.getCardinality ∧
      margInd.firstIndices = small.getCardinality ∧
      small.itrCardinality large = large.sumCardinality small ∧
      mulInd.secondIndices = margInd.secondIndices ∧
      (∀ (i : ℕ) (row : List ℕ), mulInd.secondIndices[i]? = some row →
        row.length = small.itrCardinality large ∧ row.Nodup ∧
          ∀ k, k ∈ row ↔ ∃ x, large.InRange x ∧ small.index x = i ∧ large.index x = k) ∧
      mulInd.secondIndices.flatten.Perm (List.range large.getCardinality) := by
  have hsplit := splits_xor hlt.subset
  have hnil := ranks_xor_ne_nil hlt
  obtain ⟨mulInd, hmul, htable⟩ := computeMulInd_eq hne hlt
  have hcols : (createFromBv (small.bv.xor large.bv) : VariableSet o).getCardinality ≠ 0 := by
    have hlarge := getCardinality_ne_zero hpos
    rw [hsplit.getCardinality_eq] at hlarge
    exact right_ne_zero_of_mul hlarge
  -- the same rows once more, stored with the other set of variables
  have hmarg : large.computeMargInd small = some (some
      ⟨createFromBv (small.bv.xor large.bv), mulInd.secondIndices⟩) := by
    rw [computeMulInd, Option.map_eq_some_iff] at hmul
    obtain ⟨targetIndices, hcross, rfl⟩ := hmul
    rw [computeMargInd, BitVector.xor_comm, if_neg (by rwa [length_enumerateValues hnil]), hcross]
    rfl
  have hfirst : mulInd.firstIndices = small.getCardinality := by
    rw [MulInd.firstIndices, htable, List.length_map, MixedRadix.length_tuples,
      VariableSet.getCardinality]
  have hperm := hsplit.flatten_perm htable
  refine ⟨mulInd, _, hmul, hmarg, hfirst, hfirst, ?_, rfl, fun i row hrow => ?_, hperm⟩
  · rw [itrCardinality, sumCardinality, BitVector.xor_comm]
  · obtain ⟨hlen, hmem⟩ := hsplit.row_of_isIndexTable htable hrow
    refine ⟨?_, ?_, hmem⟩
    · rw [hlen, itrCardinality, length_enumerateValues hnil]
    · have hnodup := hperm.nodup_iff.mpr List.nodup_range
      exact (List.nodup_flatten.mp hnodup).1 row (List.mem_of_getElem? hrow)

/-- Two variables with two values each. -/
def abOrdering : VariableOrdering := ⟨[⟨['a'], 2⟩, ⟨['b'], 2⟩]⟩

/-- The first of them. -/
def abFirst : VariableSet abOrdering := ⟨⟨[1#8], rfl⟩⟩

/-- Both of them. -/
def abBoth : VariableSet abOrdering := abFirst.add ⟨['b'], 2⟩

theorem indices_partition_ab :
    abFirst.vars ⊂ abBoth.vars ∧ ∃ mulInd margInd, abFirst.computeMulInd abBoth = some mulInd ∧
      abBoth.computeMargInd abFirst = some (some margInd) ∧
      mulInd.secondIndices = margInd.secondIndices ∧
      mulInd.secondIndices.flatten.Perm (List.range 4) := by
  have hlt : abFirst.vars ⊂ abBoth.vars := by decide
  obtain ⟨mulInd, margInd, hmul, hmarg, -, -, -, hsame, -, hperm⟩ :=
    indices_partition (by decide) hlt (by decide)
  exact ⟨hlt, mulInd, margInd, hmul, hmarg, hsame, hperm⟩

/-- `VariableSet_ComputeMulInd` on a set of the same variables has empty rows. -/
theorem computeMulInd_self {this target : VariableSet o} (h : this.vars = target.vars) :
    ∃ mi, this.computeMulInd target = some mi ∧ mi.entries = [] := by
  have hnil : (createFromBv (this.bv.xor target.bv) : VariableSet o).enumerateValues = [] := by
    refine enumerateValues_eq_nil ?_
    by_contra hne
    obtain ⟨i, hi⟩ := ranks_ne_nil_iff.mp hne
    rw [vars_xor _ _ h.subset, h, Finset.sdiff_self] at hi
    exact absurd hi (Finset.notMem_empty i)
  have hrows : crossIndices this (createFromBv (this.bv.xor target.bv)) target =
      some (this.enumerateValues.map fun _ => []) := by
    rw [crossIndices, hnil]
    exact PartialLoops.mapM_eq_some fun _ _ => rfl
  refine ⟨_, by rw [computeMulInd, hrows]; rfl, ?_⟩
  rw [MulInd.entries, List.flatMap_eq_nil_iff]
  rintro ⟨row, i⟩ hrow
  obtain ⟨values, -, rfl⟩ := List.mem_map.mp (List.fst_mem_of_mem_zipIdx hrow)
  rfl

/-- `VariableSet_ComputeMargInd` when a variable without values is summed out. -/
theorem computeMargInd_of_zero {this target : VariableSet o} (h : target.vars ⊂ this.vars)
    (hzero : ∏ i ∈ this.vars \ target.vars, (o.vbl i).cardinality = 0) :
    this.computeMargInd target = some none := by
  have hnil := ranks_xor_ne_nil h
  rw [BitVector.xor_comm] at hnil
  refine computeMargInd_eq_null (List.length_eq_zero_iff.mp ?_)
  rw [length_enumerateValues hnil, getCardinality_xor h.subset, hzero]

end VariableSet

/-! ## Products through the memos -/

/-- What a separator's memo returns for a clique that properly contains it. -/
theorem MulMemo.getMulInd_eq {o : VariableOrdering} {memo : MulMemo o (MulInd o)}
    {vbls target : VariableSet o} (hmemo : Consistent vbls.computeMulInd memo)
    (hne : vbls.vars.Nonempty) (hlt : vbls.vars ⊂ target.vars) :
    ∃ mi memo', getMulInd memo vbls target = some (mi, memo') ∧
      Consistent vbls.computeMulInd memo' ∧ mi.vbls = vbls ∧ mi.Indexes vbls target := by
  obtain ⟨mi₀, hmi₀, -⟩ := VariableSet.computeMulInd_indexes hne hlt
  obtain ⟨key, mi, memo', hget, hkey, hcompute, hcons⟩ := getMemoized_eq hmemo hmi₀
  obtain ⟨mi₁, hmi₁, hvbls, hindexes⟩ := VariableSet.computeMulInd_indexes hne
    (show vbls.vars ⊂ key.vars from hkey ▸ hlt)
  rw [hmi₁, Option.some.injEq] at hcompute
  exact ⟨mi, memo', hget, hcons, hcompute ▸ hvbls, hcompute ▸ hindexes.congr rfl hkey⟩

/-- What it returns for a clique over the same variables. -/
theorem MulMemo.getMulInd_self {o : VariableOrdering} {memo : MulMemo o (MulInd o)}
    {vbls target : VariableSet o} (hmemo : Consistent vbls.computeMulInd memo)
    (h : vbls.vars = target.vars) :
    ∃ mi memo', getMulInd memo vbls target = some (mi, memo') ∧ mi.entries = [] := by
  obtain ⟨mi₀, hmi₀, -⟩ := VariableSet.computeMulInd_self h
  obtain ⟨key, mi, memo', hget, hkey, hcompute, -⟩ := getMemoized_eq hmemo hmi₀
  obtain ⟨mi₁, hmi₁, hentries⟩ := VariableSet.computeMulInd_self (h.trans hkey.symm)
  rw [hmi₁, Option.some.injEq] at hcompute
  exact ⟨mi, memo', hget, hcompute ▸ hentries⟩

/-- What a clique's memo returns for a set that leaves something to sum out. -/
theorem MulMemo.getMargInd_eq {o : VariableOrdering} {memo : MulMemo o (Option (MulInd o))}
    {vbls target : VariableSet o} (hmemo : Consistent vbls.computeMargInd memo)
    (hne : target.vars.Nonempty) (hlt : target.vars ⊂ vbls.vars)
    (hcard : ∏ i ∈ vbls.vars \ target.vars, (o.vbl i).cardinality ≠ 0) :
    ∃ mi memo', getMargInd memo vbls target = some (some mi, memo') ∧
      Consistent vbls.computeMargInd memo' ∧ mi.Indexes target vbls := by
  have hcompute : ∀ {key : VariableSet o}, key.vars = target.vars →
      ∃ mi, vbls.computeMargInd key = some (some mi) ∧ mi.Indexes target vbls := by
    intro key hkey
    obtain ⟨mi, hmi, hindexes⟩ := VariableSet.computeMargInd_indexes_of_ne
      (show key.vars.Nonempty from hkey ▸ hne) (show key.vars ⊂ vbls.vars from hkey ▸ hlt) (by
        rw [VariableSet.getCardinality_xor (hkey ▸ hlt.subset), hkey]
        exact hcard)
    exact ⟨mi, hmi, hindexes.congr hkey rfl⟩
  obtain ⟨mi₀, hmi₀, -⟩ := hcompute rfl
  obtain ⟨key, ret, memo', hget, hkey, hret, hcons⟩ := getMemoized_eq hmemo hmi₀
  obtain ⟨mi, hmi, hindexes⟩ := hcompute hkey
  rw [hmi, Option.some.injEq] at hret
  exact ⟨mi, memo', hret ▸ hget, hcons, hindexes⟩

/-- When it returns `NULL`. -/
theorem MulMemo.getMargInd_eq_null {o : VariableOrdering}
    {memo : MulMemo o (Option (MulInd o))} {vbls target : VariableSet o}
    (hmemo : Consistent vbls.computeMargInd memo)
    (h : target.vars = vbls.vars ∨ target.vars ⊂ vbls.vars ∧
      ∏ i ∈ vbls.vars \ target.vars, (o.vbl i).cardinality = 0) :
    ∃ memo', getMargInd memo vbls target = some (none, memo') ∧
      Consistent vbls.computeMargInd memo' := by
  have hcompute : ∀ {key : VariableSet o}, key.vars = target.vars →
      vbls.computeMargInd key = some none := by
    intro key hkey
    rcases h with h | ⟨hlt, hzero⟩
    · exact VariableSet.computeMargInd_self (hkey.trans h)
    · exact VariableSet.computeMargInd_of_zero (hkey ▸ hlt) (hkey ▸ hzero)
  obtain ⟨key, ret, memo', hget, hkey, hret, hcons⟩ := getMemoized_eq hmemo (hcompute rfl)
  rw [hcompute hkey, Option.some.injEq] at hret
  exact ⟨memo', hret ▸ hget, hcons⟩

namespace Pot

variable {o : VariableOrdering} {α : Type}

/-- A table without entries represents any factor. -/
theorem Sized.represents_of_isEmpty {q : Pot o α} (hq : q.Sized)
    (hzero : q.vbls.getCardinality = 0) (f : Assignment → α) : q.Represents f := by
  refine ⟨hq, fun x hx => absurd (VariableSet.index_lt hx) ?_⟩
  omega

/-- A table is determined by the factor it represents. -/
theorem Represents.eq {p q : Pot o α} {f : Assignment → α} (hp : p.Represents f)
    (hq : q.Represents f) (hvbls : p.vbls = q.vbls) : p = q := by
  have hdata : p.tabData = q.tabData := by
    refine List.ext_getElem? fun k => ?_
    by_cases hk : k < p.vbls.getCardinality
    · obtain ⟨x, hx, rfl⟩ := VariableSet.exists_index_eq hk
      have hentry := (hp.entry_eq x hx).trans (hq.entry_eq x (hvbls ▸ hx)).symm
      rw [entry, entry, ← hvbls] at hentry
      exact hentry
    · have hlenp := hp.sized.length_tabData
      have hlenq := hq.sized.length_tabData
      rw [← hvbls] at hlenq
      rw [List.getElem?_eq_none (by omega), List.getElem?_eq_none (by omega)]
  have hsize : p.tableSize = q.tableSize := by
    rw [hp.sized.tableSize, hq.sized.tableSize, hvbls]
  cases p
  cases q
  simp_all

namespace Arithmetic

/-- A product without index pairs. -/
theorem productTabular_of_nil (A : Arith α) {p q : Pot o α} {mi : Option (MulInd o)}
    (h : p.productEntries mi = []) : productTabular A p q mi = some q := by
  rw [productTabular, h]
  rfl

/-- The index table for a sub-table, or `NULL` for one over the whole clique, leads to the
product of the factors; a table without entries has to come from another one. -/
theorem productTabular_getMargInd (A : Arith α) {memo : MulMemo o (Option (MulInd o))}
    {p q : Pot o α} {f g : Assignment → α} (hp : p.Represents f) (hq : q.Represents g)
    (hmemo : MulMemo.Consistent q.vbls.computeMargInd memo) (hne : p.vbls.vars.Nonempty)
    (hsub : p.vbls.vars ⊆ q.vbls.vars)
    (hcard : q.vbls.getCardinality = 0 → p.vbls.getCardinality = 0) :
    ∃ mi memo' r, MulMemo.getMargInd memo q.vbls p.vbls = some (mi, memo') ∧
      MulMemo.Consistent q.vbls.computeMargInd memo' ∧ productTabular A p q mi = some r ∧
      r.vbls = q.vbls ∧ r.Represents fun x => A.times (f x) (g x) := by
  by_cases hvars : p.vbls.vars = q.vbls.vars
  · obtain ⟨memo', hget, hcons⟩ := MulMemo.getMargInd_eq_null hmemo (Or.inl hvars)
    obtain ⟨r, hrun, hvbls, hr⟩ := productTabular_none_represents hp hq hvars
    exact ⟨none, memo', r, hget, hcons, hrun, hvbls, hr⟩
  have hproper : p.vbls.vars ⊂ q.vbls.vars := hsub.ssubset_of_ne hvars
  by_cases hzero : ∏ i ∈ q.vbls.vars \ p.vbls.vars, (o.vbl i).cardinality = 0
  · obtain ⟨memo', hget, hcons⟩ := MulMemo.getMargInd_eq_null hmemo (Or.inr ⟨hproper, hzero⟩)
    have hempty : q.vbls.getCardinality = 0 := by
      rw [VariableSet.getCardinality_eq_mul hsub, hzero, Nat.mul_zero]
    refine ⟨none, memo', q, hget, hcons, productTabular_of_nil A ?_, rfl,
      hq.sized.represents_of_isEmpty hempty _⟩
    rw [productEntries, hp.sized.tableSize, hcard hempty]
    rfl
  · obtain ⟨mi, memo', hget, hcons, cols, hsplit, htable⟩ :=
      MulMemo.getMargInd_eq hmemo hne hproper hzero
    obtain ⟨r, hrun, hvbls, hr⟩ := productTabular_represents hp hq hsplit htable
    exact ⟨some mi, memo', r, hget, hcons, hrun, hvbls, hr⟩

/-- The entry-by-entry product writes past the end of a table without entries. -/
theorem productTabular_none_eq_none (A : Arith α) {p q : Pot o α} (hp : p.Sized) (hq : q.Sized)
    (hpos : p.vbls.getCardinality ≠ 0) (hzero : q.vbls.getCardinality = 0) :
    productTabular A p q none = none := by
  obtain ⟨n, hn⟩ := Nat.exists_eq_succ_of_ne_zero hpos
  have hdata : q.tabData = [] := List.length_eq_zero_iff.mp (hq.length_tabData.trans hzero)
  have hfirst : multiplyEntry A.times p.tabData [] (0, 0) = none := by
    unfold multiplyEntry
    cases p.tabData[0]? <;> rfl
  rw [productTabular, productEntries, hp.tableSize, hn, hdata, List.range_succ_eq_map,
    List.map_cons, List.foldlM_cons, hfirst]
  rfl

end Arithmetic

section Plain

variable {K : Type} [Field K] [DecidableEq K]

/-- The product as `MessagePass` takes it. -/
def productByMulInd (memo : MulMemo o (MulInd o)) (p q : Pot o K) : Option (Pot o K) := do
  let (mi, _) ← MulMemo.getMulInd memo p.vbls q.vbls
  productTabular p q (some mi)

/-- The product as `BNet_InitializePotentials` takes it. -/
def productByMargInd (memo : MulMemo o (Option (MulInd o))) (p q : Pot o K) :
    Option (Pot o K) := do
  let (mi, _) ← MulMemo.getMargInd memo q.vbls p.vbls
  productTabular p q mi

/-- Both ways multiply every entry of `q` once, by the entry of `p` at the restriction. -/
def ProductPaths (mulMemo : MulMemo o (MulInd o)) (margMemo : MulMemo o (Option (MulInd o)))
    (p q : Pot o K) : Prop :=
  ∃ r, productByMulInd mulMemo p q = some r ∧ productByMargInd margMemo p q = some r ∧
    r.vbls = q.vbls ∧ r.Represents fun x => q.val x * p.val x

variable {mulMemo : MulMemo o (MulInd o)} {margMemo : MulMemo o (Option (MulInd o))}
  {p q : Pot o K}

theorem productByMulInd_of_ssubset (hmul : MulMemo.Consistent p.vbls.computeMulInd mulMemo)
    (hp : p.Sized) (hq : q.Sized) (hne : p.vbls.vars.Nonempty)
    (hlt : p.vbls.vars ⊂ q.vbls.vars) :
    ∃ r, productByMulInd mulMemo p q = some r ∧ r.vbls = q.vbls ∧
      r.Represents fun x => p.val x * q.val x := by
  obtain ⟨mi, memo', hget, -, -, hindexes⟩ := MulMemo.getMulInd_eq hmul hne hlt
  obtain ⟨r, hrun, hvbls, hr⟩ :=
    productTabular_represents hp.represents_val hq.represents_val hindexes
  exact ⟨r, by rw [productByMulInd, hget]; exact hrun, hvbls, hr⟩

/-- Through the empty rows nothing is multiplied. -/
theorem productByMulInd_self (hmul : MulMemo.Consistent p.vbls.computeMulInd mulMemo)
    (hvars : p.vbls.vars = q.vbls.vars) : productByMulInd mulMemo p q = some q := by
  obtain ⟨mi, memo', hget, hentries⟩ := MulMemo.getMulInd_self hmul hvars
  rw [productByMulInd, hget]
  exact Arithmetic.productTabular_of_nil (plain K) hentries

theorem productByMargInd_eq (hmarg : MulMemo.Consistent q.vbls.computeMargInd margMemo)
    (hp : p.Sized) (hq : q.Sized) (hne : p.vbls.vars.Nonempty)
    (hsub : p.vbls.vars ⊆ q.vbls.vars)
    (hcard : q.vbls.getCardinality = 0 → p.vbls.getCardinality = 0) :
    ∃ r, productByMargInd margMemo p q = some r ∧ r.vbls = q.vbls ∧
      r.Represents fun x => p.val x * q.val x := by
  obtain ⟨mi, memo', r, hget, -, hrun, hvbls, hr⟩ := Arithmetic.productTabular_getMargInd (plain K)
    hp.represents_val hq.represents_val hmarg hne hsub hcard
  exact ⟨r, by rw [productByMargInd, hget]; exact hrun, hvbls, hr⟩

/-- A table over variables with values cannot go into one over a variable without. -/
theorem productByMargInd_eq_none (hmarg : MulMemo.Consistent q.vbls.computeMargInd margMemo)
    (hp : p.Sized) (hq : q.Sized) (hlt : p.vbls.vars ⊂ q.vbls.vars)
    (hpos : p.vbls.getCardinality ≠ 0) (hzero : q.vbls.getCardinality = 0) :
    productByMargInd margMemo p q = none := by
  have hrest : ∏ i ∈ q.vbls.vars \ p.vbls.vars, (o.vbl i).cardinality = 0 := by
    rw [VariableSet.getCardinality_eq_mul hlt.subset] at hzero
    exact (Nat.mul_eq_zero.mp hzero).resolve_left hpos
  obtain ⟨memo', hget, -⟩ := MulMemo.getMargInd_eq_null hmarg (Or.inr ⟨hlt, hrest⟩)
  rw [productByMargInd, hget]
  exact Arithmetic.productTabular_none_eq_none (plain K) hp hq hpos hzero

/-- **The two products agree** where something is summed out, and where multiplying changes
nothing. -/
theorem productPaths_iff (hmul : MulMemo.Consistent p.vbls.computeMulInd mulMemo)
    (hmarg : MulMemo.Consistent q.vbls.computeMargInd margMemo) (hp : p.Sized) (hq : q.Sized)
    (hne : p.vbls.vars.Nonempty) (hsub : p.vbls.vars ⊆ q.vbls.vars) :
    ProductPaths mulMemo margMemo p q ↔
      p.vbls.vars ≠ q.vbls.vars ∧
          (q.vbls.getCardinality = 0 → p.vbls.getCardinality = 0) ∨
        p.vbls.vars = q.vbls.vars ∧ ∀ x, q.vbls.InRange x → p.val x = 1 ∨ q.val x = 0 := by
  by_cases hvars : p.vbls.vars = q.vbls.vars
  · have hcard : p.vbls.getCardinality = q.vbls.getCardinality := by
      rw [VariableSet.getCardinality_eq_prod, VariableSet.getCardinality_eq_prod, hvars]
    obtain ⟨r, hmargRun, hvbls, hr⟩ :=
      productByMargInd_eq hmarg hp hq hne hsub fun hzero => hcard.trans hzero
    have hmulRun := productByMulInd_self hmul hvars
    have hsame : ∀ x, q.val x * p.val x = q.val x ↔ p.val x = 1 ∨ q.val x = 0 :=
      fun x => mul_right_eq_self₀
    constructor
    · rintro ⟨r', hr', -, -, hrep⟩
      obtain rfl := Option.some.inj (hmulRun.symm.trans hr')
      refine Or.inr ⟨hvars, fun x hx => (hsame x).mp ?_⟩
      rw [← hrep.val_eq hx]
    · rintro (⟨hdiff, -⟩ | ⟨-, hunchanged⟩)
      · exact absurd hvars hdiff
      · -- `q` itself is the product
        have hrep : q.Represents fun x => q.val x * p.val x :=
          hq.represents_val.congr fun x hx => ((hsame x).mpr (hunchanged x hx)).symm
        have heq : r = q := (hr.congr fun x _ => mul_comm _ _).eq hrep hvbls
        exact ⟨q, hmulRun, heq ▸ hmargRun, rfl, hrep⟩
  · have hlt : p.vbls.vars ⊂ q.vbls.vars := hsub.ssubset_of_ne hvars
    constructor
    · rintro ⟨r, -, hrun, -⟩
      refine Or.inl ⟨hvars, fun hzero => ?_⟩
      by_contra hpos
      rw [productByMargInd_eq_none hmarg hp hq hlt hpos hzero] at hrun
      exact absurd hrun (by simp)
    · rintro (⟨-, hcard⟩ | ⟨heq, -⟩)
      · obtain ⟨r, hmulRun, hvbls, hr⟩ := productByMulInd_of_ssubset hmul hp hq hne hlt
        obtain ⟨r', hmargRun, hvbls', hr'⟩ := productByMargInd_eq hmarg hp hq hne hsub hcard
        obtain rfl := hr.eq hr' (hvbls.trans hvbls'.symm)
        exact ⟨r, hmulRun, hmargRun, hvbls, hr.congr fun x _ => mul_comm _ _⟩
      · exact absurd heq hvars

/-- Zero at the first value of `a`. -/
def zeroOne : Pot VariableSet.abOrdering ℚ := createTabular VariableSet.abFirst [0, 1]

theorem productPaths_zeroOne :
    zeroOne.vbls.vars ⊂ VariableSet.abBoth.vars ∧
      ProductPaths MulMemo.create MulMemo.create zeroOne
        (createTabularUnity VariableSet.abBoth) := by
  have hlt : zeroOne.vbls.vars ⊂ VariableSet.abBoth.vars := by decide
  exact ⟨hlt, (productPaths_iff (MulMemo.consistent_create _) (MulMemo.consistent_create _)
    ⟨rfl, rfl⟩ (createTabularUnity_represents _).sized (by decide) hlt.subset).mpr
      (Or.inl ⟨hlt.ne, by decide⟩)⟩

/-- Multiplied into the ones over the same variable, through the empty rows and without an
index table. -/
theorem not_productPaths_zeroOne :
    ¬ProductPaths MulMemo.create MulMemo.create zeroOne
      (createTabularUnity VariableSet.abFirst) := by
  rintro ⟨r, hmul, hmarg, -⟩
  have hones : productByMulInd MulMemo.create zeroOne (createTabularUnity VariableSet.abFirst) =
      some (createTabular VariableSet.abFirst [1, 1]) := by decide +kernel
  have hproduct : productByMargInd MulMemo.create zeroOne
      (createTabularUnity VariableSet.abFirst) = some zeroOne := by decide +kernel
  have hdata := congrArg tabData (Option.some.inj
    ((hones.symm.trans hmul).trans (hmarg.symm.trans hproduct)))
  exact absurd hdata (by decide +kernel)

/-! ## Single variables -/

/-- A `NULL` index table is dereferenced. -/
theorem sumMarginTabularSingleVbl_eq_none {v : Variable}
    (h : p.vbls.computeMargInd ((VariableSet.create o).add v) = some none) :
    sumMarginTabularSingleVbl p v = none := by
  rw [sumMarginTabularSingleVbl, Arithmetic.sumMarginTabularSingleVbl, h]
  rfl

/-- The table of the sums over all assignments with a given value of `v`, the variable of
rank `i`. -/
def HasSingleMargin (p : Pot o K) (v : Variable) (i : ℕ) : Prop :=
  ∃ qvalues, sumMarginTabularSingleVbl p v = some qvalues ∧ qvalues.length = v.cardinality ∧
    ∀ x < v.cardinality,
      qvalues[x]? = some (sumOut o.dom (p.vbls.vars \ {i}) p.val fun _ => x)

/-- **The single variable's sum-margin** exists when there are other variables, all with
values. -/
theorem hasSingleMargin_iff (hp : p.Sized) {v : Variable} {i : ℕ}
    (hi : o.getVariableRank v = some i) (hmem : i ∈ p.vbls.vars) :
    HasSingleMargin p v i ↔
      p.vbls.vars ≠ {i} ∧ ∀ j ∈ p.vbls.vars, j ≠ i → (o.vbl j).cardinality ≠ 0 := by
  have hvars : ((VariableSet.create o).add v).vars = {i} := VariableSet.vars_add_create hi
  have hsub : ((VariableSet.create o).add v).vars ⊆ p.vbls.vars := by
    rw [hvars, Finset.singleton_subset_iff]
    exact hmem
  constructor
  · rintro ⟨qvalues, hrun, -⟩
    by_contra hnot
    have hnull : p.vbls.computeMargInd ((VariableSet.create o).add v) = some none := by
      by_cases hself : p.vbls.vars = {i}
      · exact VariableSet.computeMargInd_self (hvars.trans hself.symm)
      · rw [not_and] at hnot
        have hzero := hnot hself
        push Not at hzero
        obtain ⟨j, hj, hne, hcard⟩ := hzero
        refine VariableSet.computeMargInd_of_zero
          (hsub.ssubset_of_ne fun heq => hself (heq.symm.trans hvars)) ?_
        rw [hvars]
        exact Finset.prod_eq_zero (Finset.mem_sdiff.mpr ⟨hj, Finset.notMem_singleton.mpr hne⟩)
          hcard
    rw [sumMarginTabularSingleVbl_eq_none hnull] at hrun
    exact absurd hrun (by simp)
  · rintro ⟨hself, hcards⟩
    have hlt : {i} ⊂ p.vbls.vars := hvars ▸ hsub.ssubset_of_ne fun heq =>
      hself (heq.symm.trans hvars)
    have hcard : (VariableSet.createFromBv (p.vbls.bv.xor ((VariableSet.create o).add v).bv) :
        VariableSet o).getCardinality ≠ 0 := by
      rw [VariableSet.getCardinality_xor hsub, hvars, Finset.prod_ne_zero_iff]
      intro j hj
      obtain ⟨hj, hne⟩ := Finset.mem_sdiff.mp hj
      exact hcards j hj (Finset.notMem_singleton.mp hne)
    obtain ⟨qvalues, hrun, hlen, hget⟩ :=
      sumMarginTabularSingleVbl_of_ne hp.represents_val (dependsOn_val p) hi hlt hcard
    exact ⟨qvalues, hrun, hlen, fun x hx => hget (fun _ => x) hx⟩

theorem hasSingleMargin_ab :
    VariableSet.abOrdering.getVariableRank ⟨['a'], 2⟩ = some 0 ∧
      HasSingleMargin (createTabularUnity VariableSet.abBoth : Pot _ ℚ) ⟨['a'], 2⟩ 0 := by
  have hrank : VariableSet.abOrdering.getVariableRank ⟨['a'], 2⟩ = some 0 := by decide
  exact ⟨hrank, (hasSingleMargin_iff (createTabularUnity_represents _).sized hrank (by decide)).mpr
    ⟨by decide, by decide⟩⟩

/-- A potential over `a` alone. -/
theorem not_hasSingleMargin_zeroOne : ¬HasSingleMargin zeroOne ⟨['a'], 2⟩ 0 := by
  rintro ⟨qvalues, hrun, -⟩
  have hnull : sumMarginTabularSingleVbl zeroOne ⟨['a'], 2⟩ = none := by decide +kernel
  rw [hnull] at hrun
  exact absurd hrun (by simp)

end Plain

end Pot

end JunctionBox
