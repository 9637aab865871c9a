import JunctionBox.Pot.MulInd

/-!
# Tabular potentials

The plain and the `Log` versions of the functions on potentials are the same
loops over different arithmetic.  `Arith` packs the four operations in which
they differ; each function is defined once over an `Arith`, and the source's two
functions are its instances in `Pot.Arithmetic`.

`Represents p f` says that the potential `p` is the table of the factor `f`.
Every operation has one lemma that says which factor its result represents, and
nothing above this file looks at a table index.

The size of a table is the exact product of the cardinalities.  The source's is an
`int`, which wraps: `IntTables` has the same functions with that size, and they are
the ones here if and only if the product fits (`IntTables.tableSize_eq_iff`,
`IntTables.createTabular_eq`).  `Inference.IntPotentials` and
`Inference.IntMessages` carry this on to initialisation and messages, for trees
whose cliques fit (`IntTables.CliquesFit`).
-/

namespace JunctionBox

/-- What the plain and the log version of a function disagree about. -/
structure Arith (α : Type) where
  /-- An entry of the unity table. -/
  unit : α
  /-- The entry of a product. -/
  times : α → α → α
  /-- The entry of an update ratio, from the new and the old separator. -/
  ratio : α → α → α
  /-- The entry of a sum-margin, from the entries it sums. -/
  total : List α → α

/-- `struct pot`, for tabular potentials. -/
structure Pot (o : VariableOrdering) (α : Type) where
  vbls : VariableSet o
  tabData : List α
  tableSize : ℕ
deriving DecidableEq

namespace Pot

variable {o : VariableOrdering} {α : Type}

/-- `Pot_CreateTabular`, for a product of cardinalities that fits an `int`. -/
def createTabular (vbls : VariableSet o) (valueData : List α) : Pot o α where
  vbls := vbls
  tabData := valueData
  tableSize := vbls.getVblCardinalities.prod

/-- `Pot_EvaluateTabular`. -/
def evaluateTabular (this : Pot o α) (values : List ℕ) : Option α := do
  let index ← this.vbls.computeIndex values
  this.tabData[index]?

/-- `qvalues[qindex] = times(pvalues[i], qvalues[qindex])`. -/
def multiplyEntry (times : α → α → α) (pvalues qvalues : List α) (entry : ℕ × ℕ) :
    Option (List α) := do
  let pvalue ← pvalues[entry.1]?
  let qvalue ← qvalues[entry.2]?
  return qvalues.set entry.2 (times pvalue qvalue)

/-- The pairs of indices an index table, or its absence, sends a product through. -/
def productEntries (p : Pot o α) : Option (MulInd o) → List (ℕ × ℕ)
  | some mi => mi.entries
  | none => (List.range p.tableSize).map fun i => (i, i)

namespace Arithmetic

variable (A : Arith α)

/-- `Pot_CreateTabularUnity`, `Pot_CreateTabularUnityLog`. -/
def createTabularUnity (vbls : VariableSet o) : Pot o α :=
  createTabular vbls (List.replicate vbls.getVblCardinalities.prod A.unit)

/-- `Pot_ProductTabular`, `Pot_ProductTabularLog`: `q` multiplied by `p`. -/
def productTabular (p q : Pot o α) (mi : Option (MulInd o)) : Option (Pot o α) :=
  ((p.productEntries mi).foldlM (multiplyEntry A.times p.tabData) q.tabData).map
    fun qvalues => { q with tabData := qvalues }

/-- `Pot_UpdateRatioTabular`, `Pot_UpdateRatioTabularLog`. -/
def updateRatioTabular (newSep oldSep : Pot o α) : Option (Pot o α) :=
  ((List.range newSep.tableSize).mapM fun i => do
    let old ← oldSep.tabData[i]?
    let new ← newSep.tabData[i]?
    return A.ratio new old).map (createTabular newSep.vbls)

/-- The sums shared by the sum-margins: one entry for each row of the index table. -/
def sumRows (p : Pot o α) (mi : MulInd o) : Option (List α) :=
  mi.secondIndices.mapM fun pindices =>
    (pindices.mapM fun pindex => p.tabData[pindex]?).map A.total

/-- `Pot_SumMarginTabular`, `Pot_SumMarginTabularLog`. -/
def sumMarginTabular (p : Pot o α) (mi : MulInd o) : Option (Pot o α) :=
  (sumRows A p mi).map (createTabular mi.vbls)

/-- `Pot_SumMarginTabularSingleVbl`, `Pot_SumMarginTabularSingleVblLog`; a `NULL` index
table is dereferenced. -/
def sumMarginTabularSingleVbl (p : Pot o α) (v : Variable) : Option (List α) := do
  let mi ← p.vbls.computeMargInd ((VariableSet.create o).add v)
  let mi ← mi
  sumRows A p mi

end Arithmetic

/-! ## Potentials and factors -/

/-- The table has the size its variables ask for. -/
structure Sized (p : Pot o α) : Prop where
  tableSize : p.tableSize = p.vbls.getCardinality
  length_tabData : p.tabData.length = p.vbls.getCardinality

/-- The entry at the restriction of `x`. -/
def entry (p : Pot o α) (x : Assignment) : Option α := p.tabData[p.vbls.index x]?

/-- The number at the restriction of `x`. -/
def val [Zero α] (p : Pot o α) (x : Assignment) : α := (p.entry x).getD 0

/-- `p` is the table of the factor `f` over its variables. -/
structure Represents (p : Pot o α) (f : Assignment → α) : Prop where
  sized : p.Sized
  entry_eq : ∀ x, p.vbls.InRange x → p.entry x = some (f x)

theorem Represents.val_eq [Zero α] {p : Pot o α} {f : Assignment → α} (h : p.Represents f)
    {x : Assignment} (hx : p.vbls.InRange x) : p.val x = f x := by
  rw [val, h.entry_eq x hx, Option.getD_some]

theorem Sized.represents_val [Zero α] {p : Pot o α} (h : p.Sized) : p.Represents p.val where
  sized := h
  entry_eq x hx := by
    have hlt : p.vbls.index x < p.tabData.length := h.length_tabData ▸ VariableSet.index_lt hx
    rw [val, entry, List.getElem?_eq_getElem hlt, Option.getD_some]

theorem Represents.congr {p : Pot o α} {f g : Assignment → α} (h : p.Represents f)
    (hfg : ∀ x, p.vbls.InRange x → f x = g x) : p.Represents g :=
  ⟨h.sized, fun x hx => by rw [h.entry_eq x hx, hfg x hx]⟩

theorem dependsOn_val [Zero α] (p : Pot o α) : DependsOn p.val (p.vbls.vars : Set ℕ) := by
  intro x y hxy
  rw [val, val, entry, entry, VariableSet.index_congr fun i hi => hxy i hi]

/-- `Pot_EvaluateTabular` reads the entry of the assignment. -/
theorem evaluateTabular_map {p : Pot o α} (hne : p.vbls.ranks ≠ []) {x : Assignment}
    (hx : p.vbls.InRange x) : p.evaluateTabular (p.vbls.ranks.map x) = p.entry x := by
  rw [evaluateTabular, VariableSet.computeIndex_map hne hx]
  rfl

theorem sized_createTabular {vbls : VariableSet o} {valueData : List α}
    (h : valueData.length = vbls.getCardinality) : (createTabular vbls valueData).Sized :=
  ⟨rfl, h⟩

/-- Every entry of a sized table is the entry of some assignment. -/
theorem Sized.exists_entry {p : Pot o α} (h : p.Sized) {a : α} (ha : a ∈ p.tabData) :
    ∃ x, p.vbls.InRange x ∧ p.entry x = some a := by
  obtain ⟨k, hk, rfl⟩ := List.getElem_of_mem ha
  have hk' : k < p.vbls.getVblCardinalities.prod := by
    have hlen := h.length_tabData
    rw [hlen] at hk
    exact hk
  set t := MixedRadix.decode p.vbls.getVblCardinalities k
  have ht : t ∈ MixedRadix.tuples p.vbls.getVblCardinalities := by
    rw [MixedRadix.tuples_eq_map_decode]
    exact List.mem_map_of_mem (List.mem_range.mpr hk')
  obtain ⟨x, hx, hxt⟩ := VariableSet.mem_tuples_iff.mp ht
  refine ⟨x, hx, ?_⟩
  have hindex : p.vbls.index x = k := by
    rw [VariableSet.index, hxt]
    exact MixedRadix.encode_decode hk'
  rw [entry, hindex, List.getElem?_eq_getElem hk]

/-! ## Operations -/

namespace Arithmetic

variable {A : Arith α}

theorem createTabularUnity_represents (A : Arith α) (vbls : VariableSet o) :
    (createTabularUnity A vbls).Represents fun _ => A.unit where
  sized := sized_createTabular (List.length_replicate ..)
  entry_eq x hx := by
    have hlt := VariableSet.index_lt hx
    exact List.getElem?_replicate_of_lt hlt

/-- Products through disjoint target indices touch every entry at most once. -/
theorem foldlM_multiplyEntry (times : α → α → α) (pvalues : List α) :
    ∀ (entries : List (ℕ × ℕ)) (qvalues : List α), (entries.map Prod.snd).Nodup →
      (∀ e ∈ entries, e.1 < pvalues.length ∧ e.2 < qvalues.length) →
      ∃ r, entries.foldlM (multiplyEntry times pvalues) qvalues = some r ∧
        r.length = qvalues.length ∧
        (∀ k, k ∉ entries.map Prod.snd → r[k]? = qvalues[k]?) ∧
        ∀ e ∈ entries, ∀ a b, pvalues[e.1]? = some a → qvalues[e.2]? = some b →
          r[e.2]? = some (times a b) := by
  intro entries
  induction entries with
  | nil => exact fun qvalues _ _ => ⟨qvalues, rfl, rfl, fun _ _ => rfl, by simp⟩
  | cons e entries ih =>
      intro qvalues hnodup hbounds
      rw [List.map_cons, List.nodup_cons] at hnodup
      obtain ⟨hp, hq⟩ := hbounds e (List.mem_cons_self ..)
      set qvalues' := qvalues.set e.2 (times pvalues[e.1] qvalues[e.2]) with hqvalues'
      have hstep : multiplyEntry times pvalues qvalues e = some qvalues' := by
        rw [multiplyEntry, List.getElem?_eq_getElem hp, List.getElem?_eq_getElem hq]
        rfl
      have hlen' : qvalues'.length = qvalues.length := List.length_set ..
      obtain ⟨r, hrun, hlen, hother, hhit⟩ := ih qvalues' hnodup.2 fun e' he' => by
        rw [hlen']
        exact hbounds e' (List.mem_cons_of_mem _ he')
      refine ⟨r, ?_, hlen.trans hlen', fun k hk => ?_, fun e' he' a b ha hb => ?_⟩
      · rw [List.foldlM_cons, hstep]
        exact hrun
      · rw [List.map_cons, List.mem_cons, not_or] at hk
        rw [hother k hk.2, hqvalues', List.getElem?_set_ne (Ne.symm hk.1)]
      · rcases List.mem_cons.mp he' with rfl | he'
        · rw [hother _ hnodup.1, hqvalues', List.getElem?_set_self hq]
          rw [List.getElem?_eq_getElem hp] at ha
          rw [List.getElem?_eq_getElem hq] at hb
          rw [Option.some.inj ha, Option.some.inj hb]
        · refine hhit e' he' a b ha ?_
          have hne : e.2 ≠ e'.2 := fun heq => hnodup.1 (heq ▸ List.mem_map_of_mem he')
          rw [hqvalues', List.getElem?_set_ne hne, hb]

/-- A product whose index pairs match up assignments is the product of the factors. -/
theorem productTabular_of_entries {p q : Pot o α} {f g : Assignment → α}
    (hp : p.Represents f) (hq : q.Represents g) (mi : Option (MulInd o))
    (hvars : p.vbls.vars ⊆ q.vbls.vars)
    (hnodup : ((p.productEntries mi).map Prod.snd).Nodup)
    (hbounds : ∀ e ∈ p.productEntries mi, e.1 < p.tabData.length ∧ e.2 < q.tabData.length)
    (hmatch : ∀ x, q.vbls.InRange x → (p.vbls.index x, q.vbls.index x) ∈ p.productEntries mi) :
    ∃ r, productTabular A p q mi = some r ∧ r.vbls = q.vbls ∧
      r.Represents fun x => A.times (f x) (g x) := by
  obtain ⟨r, hrun, hlen, -, hhit⟩ := foldlM_multiplyEntry A.times p.tabData
    (p.productEntries mi) q.tabData hnodup hbounds
  refine ⟨{ q with tabData := r }, by rw [productTabular, hrun]; rfl, rfl,
    ⟨hq.sized.tableSize, hlen.trans hq.sized.length_tabData⟩, fun x hx => ?_⟩
  exact hhit _ (hmatch x hx) _ _ (hp.entry_eq x (hx.mono hvars)) (hq.entry_eq x hx)

/-- The index table of the extensions of a subset. -/
def IsIndexTable (mi : MulInd o) (rows cols all : VariableSet o) : Prop :=
  mi.secondIndices = (MixedRadix.tuples rows.getVblCardinalities).map fun s =>
    VariableSet.row cols all (rows.ofTuple s)

section Tables

variable {rows cols all : VariableSet o} {mi : MulInd o}

/-- The row with the number of an assignment is the row of the assignment. -/
theorem secondIndices_index (hmi : IsIndexTable mi rows cols all)
    (h : VariableSet.Splits rows cols all) {x : Assignment} (hx : rows.InRange x) :
    mi.secondIndices[rows.index x]? = some (VariableSet.row cols all x) := by
  rw [hmi, List.getElem?_map, VariableSet.index, MixedRadix.getElem?_tuples_encode hx.forall₂,
    Option.map_some]
  congr 1
  exact h.row_congr (VariableSet.map_ofTuple (VariableSet.mem_tuples_iff.mpr ⟨x, hx, rfl⟩))

theorem mem_entries_iff {e : ℕ × ℕ} :
    e ∈ mi.entries ↔ ∃ row, mi.secondIndices[e.1]? = some row ∧ e.2 ∈ row := by
  rw [MulInd.entries, List.mem_flatMap]
  constructor
  · rintro ⟨⟨row, i⟩, hrow, he⟩
    obtain ⟨k, hk, rfl⟩ := List.mem_map.mp he
    exact ⟨row, List.mem_zipIdx_iff_getElem?.mp hrow, hk⟩
  · rintro ⟨row, hrow, hmem⟩
    exact ⟨(row, e.1), List.mem_zipIdx_iff_getElem?.mpr hrow, List.mem_map.mpr ⟨e.2, hmem, rfl⟩⟩

theorem map_snd_entries : mi.entries.map Prod.snd = mi.secondIndices.flatten := by
  rw [MulInd.entries, List.map_flatMap]
  have hrows : ∀ (l : List (List ℕ)) (n : ℕ),
      ((l.zipIdx n).flatMap fun row => (row.1.map fun k => (row.2, k)).map Prod.snd) =
        l.flatten := by
    intro l
    induction l with
    | nil => exact fun _ => rfl
    | cons row l ih =>
        intro n
        rw [List.zipIdx_cons, List.flatMap_cons, ih, List.flatten_cons, List.map_map]
        congr 1
        exact List.map_id _
  exact hrows _ _

/-- No index occurs twice in an index table. -/
theorem nodup_entries (hmi : IsIndexTable mi rows cols all)
    (h : VariableSet.Splits rows cols all) : (mi.entries.map Prod.snd).Nodup := by
  rw [map_snd_entries, hmi, ← List.flatMap_def, List.nodup_flatMap]
  have hcols : ∀ {x y : Assignment} {d d' : List ℕ}, rows.InRange x → rows.InRange y →
      d ∈ MixedRadix.tuples cols.getVblCardinalities →
      d' ∈ MixedRadix.tuples cols.getVblCardinalities →
      all.index (VariableSet.assign cols.ranks d x) =
        all.index (VariableSet.assign cols.ranks d' y) →
      d = d' ∧ rows.ranks.map x = rows.ranks.map y := by
    intro x y d d' hx hy hd hd' heq
    have hall := VariableSet.eq_of_index_eq (h.inRange_assign hx hd) (h.inRange_assign hy hd') heq
    obtain ⟨z, -, rfl⟩ := VariableSet.mem_tuples_iff.mp hd
    obtain ⟨w, -, rfl⟩ := VariableSet.mem_tuples_iff.mp hd'
    constructor
    · refine List.map_congr_left fun i hi => ?_
      have hi' : i ∈ all.vars := by
        rw [h.union]
        exact Finset.mem_union_right _ (VariableSet.mem_vars_iff_mem_ranks.mpr hi)
      have hpoint := hall i hi'
      rwa [VariableSet.assign_map cols.ranks_nodup x z hi,
        VariableSet.assign_map cols.ranks_nodup y w hi] at hpoint
    · refine List.map_congr_left fun i hi => ?_
      have hrows := VariableSet.mem_vars_iff_mem_ranks.mpr hi
      have hi' : i ∈ all.vars := by
        rw [h.union]
        exact Finset.mem_union_left _ hrows
      have hnot : i ∉ cols.ranks := fun hmem =>
        Finset.disjoint_left.mp h.disjoint hrows (VariableSet.mem_vars_iff_mem_ranks.mpr hmem)
      have hpoint := hall i hi'
      rwa [VariableSet.assign_of_not_mem hnot, VariableSet.assign_of_not_mem hnot] at hpoint
  constructor
  · intro s hs
    refine (MixedRadix.nodup_tuples _).map_on fun d hd d' hd' heq => ?_
    exact (hcols (VariableSet.inRange_ofTuple hs) (VariableSet.inRange_ofTuple hs) hd hd' heq).1
  · refine List.Pairwise.imp_of_mem (fun {s s'} hs hs' hne => ?_) (MixedRadix.nodup_tuples _)
    intro k hk hk'
    obtain ⟨d, hd, rfl⟩ := List.mem_map.mp hk
    obtain ⟨d', hd', heq⟩ := List.mem_map.mp hk'
    have hrows := (hcols (VariableSet.inRange_ofTuple hs') (VariableSet.inRange_ofTuple hs)
      hd' hd heq).2
    rw [VariableSet.map_ofTuple hs, VariableSet.map_ofTuple hs'] at hrows
    exact hne hrows.symm

/-- An assignment of the large set is in the row of its restriction. -/
theorem index_mem_row (h : VariableSet.Splits rows cols all) {x : Assignment}
    (hx : all.InRange x) : all.index x ∈ VariableSet.row cols all x := by
  have hcols : cols.InRange x := hx.mono (h.union ▸ Finset.subset_union_right)
  refine List.mem_map.mpr ⟨cols.ranks.map x, VariableSet.mem_tuples_iff.mpr ⟨x, hcols, rfl⟩, ?_⟩
  refine VariableSet.index_congr fun i _ => ?_
  by_cases hi : i ∈ cols.ranks
  · exact VariableSet.assign_map cols.ranks_nodup x x hi
  · exact VariableSet.assign_of_not_mem hi

/-- `Pot_ProductTabular` through an index table. -/
theorem productTabular_represents {p q : Pot o α} {f g : Assignment → α}
    (hp : p.Represents f) (hq : q.Represents g)
    (h : VariableSet.Splits p.vbls cols q.vbls) (hmi : IsIndexTable mi p.vbls cols q.vbls) :
    ∃ r, productTabular A p q (some mi) = some r ∧ r.vbls = q.vbls ∧
      r.Represents fun x => A.times (f x) (g x) := by
  have hvars : p.vbls.vars ⊆ q.vbls.vars := h.union ▸ Finset.subset_union_left
  refine productTabular_of_entries hp hq (some mi) hvars (nodup_entries hmi h) (fun e he => ?_)
    fun x hx => ?_
  · obtain ⟨row, hrow, hmem⟩ := mem_entries_iff.mp he
    rw [hmi, List.getElem?_map, Option.map_eq_some_iff] at hrow
    obtain ⟨s, hs, rfl⟩ := hrow
    obtain ⟨d, hd, heq⟩ := List.mem_map.mp hmem
    have hlen : (MixedRadix.tuples p.vbls.getVblCardinalities).length =
        p.vbls.getCardinality := MixedRadix.length_tuples _
    constructor
    · rw [hp.sized.length_tabData, ← hlen]
      exact (List.getElem?_eq_some_iff.mp hs).1
    · rw [hq.sized.length_tabData, ← heq]
      exact VariableSet.index_lt (h.inRange_assign
        (VariableSet.inRange_ofTuple (List.mem_of_getElem? hs)) hd)
  · exact mem_entries_iff.mpr ⟨_, secondIndices_index hmi h (hx.mono hvars), index_mem_row h hx⟩

/-- `Pot_ProductTabular` without an index table, for potentials over the same variables. -/
theorem productTabular_none_represents {p q : Pot o α} {f g : Assignment → α}
    (hp : p.Represents f) (hq : q.Represents g) (hvars : p.vbls.vars = q.vbls.vars) :
    ∃ r, productTabular A p q none = some r ∧ r.vbls = q.vbls ∧
      r.Represents fun x => A.times (f x) (g x) := by
  have hranks := VariableSet.ranks_eq_of_vars_eq hvars
  have hcard : p.vbls.getCardinality = q.vbls.getCardinality := by
    rw [VariableSet.getCardinality, VariableSet.getCardinality, VariableSet.getVblCardinalities,
      VariableSet.getVblCardinalities, hranks]
  have hindex : ∀ x, p.vbls.index x = q.vbls.index x := fun x => by
    rw [VariableSet.index, VariableSet.index, VariableSet.getVblCardinalities,
      VariableSet.getVblCardinalities, hranks]
  refine productTabular_of_entries hp hq none hvars.subset ?_ (fun e he => ?_) fun x hx => ?_
  · rw [productEntries, List.map_map]
    exact (List.map_id _).symm ▸ List.nodup_range
  · obtain ⟨i, hi, rfl⟩ := List.mem_map.mp he
    rw [List.mem_range, hp.sized.tableSize] at hi
    exact ⟨hp.sized.length_tabData ▸ hi, hq.sized.length_tabData ▸ hcard ▸ hi⟩
  · refine List.mem_map.mpr ⟨q.vbls.index x, ?_, by rw [hindex]⟩
    rw [List.mem_range, hp.sized.tableSize, hcard]
    exact VariableSet.index_lt hx

/-- The sums of the rows, by assignment. -/
theorem sumRows_eq {p : Pot o α} {f : Assignment → α} (hp : p.Represents f)
    (h : VariableSet.Splits rows cols p.vbls) (hmi : IsIndexTable mi rows cols p.vbls) :
    sumRows A p mi = some ((MixedRadix.tuples rows.getVblCardinalities).map fun s =>
      A.total ((MixedRadix.tuples cols.getVblCardinalities).map fun d =>
        f (VariableSet.assign cols.ranks d (rows.ofTuple s)))) := by
  rw [sumRows, hmi, List.mapM_map]
  refine PartialLoops.mapM_eq_some fun s hs => ?_
  simp only [VariableSet.row, Function.comp_apply, List.mapM_map]
  have hread : ∀ d ∈ MixedRadix.tuples cols.getVblCardinalities,
      p.tabData[p.vbls.index (VariableSet.assign cols.ranks d (rows.ofTuple s))]? =
        some (f (VariableSet.assign cols.ranks d (rows.ofTuple s))) := fun d hd =>
    hp.entry_eq _ (h.inRange_assign (VariableSet.inRange_ofTuple hs) hd)
  exact congrArg (Option.map A.total) (PartialLoops.mapM_eq_some hread)

/-- `Pot_SumMarginTabular`; `f` must read the variables of `p` only. -/
theorem sumMarginTabular_represents {p : Pot o α} {f : Assignment → α} (hp : p.Represents f)
    (hf : DependsOn f (p.vbls.vars : Set ℕ)) (h : VariableSet.Splits rows cols p.vbls)
    (hmi : IsIndexTable mi rows cols p.vbls) (hvbls : mi.vbls = rows) :
    ∃ r, sumMarginTabular A p mi = some r ∧ r.vbls = rows ∧ r.Represents fun x =>
      A.total ((MixedRadix.tuples cols.getVblCardinalities).map fun d =>
        f (VariableSet.assign cols.ranks d x)) := by
  refine ⟨_, by rw [sumMarginTabular, sumRows_eq hp h hmi, Option.map_some, hvbls], rfl, ?_⟩
  refine ⟨sized_createTabular ?_, fun x hx => ?_⟩
  · rw [List.length_map]
    exact MixedRadix.length_tuples _
  · have hx' : rows.InRange x := hx
    rw [entry, createTabular, List.getElem?_map]
    simp only
    rw [VariableSet.index, MixedRadix.getElem?_tuples_encode hx'.forall₂, Option.map_some]
    congr 2
    refine List.map_congr_left fun d hd => hf fun i hi => ?_
    obtain ⟨z, -, rfl⟩ := VariableSet.mem_tuples_iff.mp hd
    by_cases hcols : i ∈ cols.ranks
    · rw [VariableSet.assign_map cols.ranks_nodup _ z hcols,
        VariableSet.assign_map cols.ranks_nodup _ z hcols]
    · rw [VariableSet.assign_of_not_mem hcols, VariableSet.assign_of_not_mem hcols]
      have hmem := h.union ▸ Finset.mem_coe.mp hi
      have hrows := (Finset.mem_union.mp hmem).resolve_right
        fun hmem => hcols (VariableSet.mem_vars_iff_mem_ranks.mp hmem)
      exact VariableSet.assign_map rows.ranks_nodup _ x
        (VariableSet.mem_vars_iff_mem_ranks.mp hrows)

end Tables

/-- `Pot_UpdateRatioTabular`. -/
theorem updateRatioTabular_represents {newSep oldSep : Pot o α} {f g : Assignment → α}
    (hnew : newSep.Represents f) (hold : oldSep.Represents g)
    (hvbls : newSep.vbls = oldSep.vbls) :
    ∃ r, updateRatioTabular A newSep oldSep = some r ∧ r.vbls = newSep.vbls ∧
      r.Represents fun x => A.ratio (f x) (g x) := by
  have hlenNew := hnew.sized.length_tabData
  have hlenOld : oldSep.tabData.length = newSep.vbls.getCardinality :=
    hvbls ▸ hold.sized.length_tabData
  have hsize := hnew.sized.tableSize
  obtain ⟨r, hrun, hlen, hget⟩ := PartialLoops.exists_mapM (l := List.range newSep.tableSize)
    (f := fun i => do
      let old ← oldSep.tabData[i]?
      let new ← newSep.tabData[i]?
      return A.ratio new old) fun i hi => by
    rw [List.mem_range, hsize] at hi
    rw [List.getElem?_eq_getElem (hlenOld ▸ hi), List.getElem?_eq_getElem (hlenNew ▸ hi)]
    exact ⟨_, rfl⟩
  refine ⟨createTabular newSep.vbls r, by rw [updateRatioTabular, hrun]; rfl, rfl,
    sized_createTabular (by rw [hlen, List.length_range, hsize]), fun x hx => ?_⟩
  have hentryNew := hnew.entry_eq x hx
  have hentryOld := hold.entry_eq x (hvbls ▸ hx)
  rw [entry] at hentryNew hentryOld
  rw [← hvbls] at hentryOld
  have hlt : newSep.vbls.index x < newSep.tableSize := hsize ▸ VariableSet.index_lt hx
  have hresult := hget (newSep.vbls.index x)
  rw [List.getElem?_range hlt, Option.bind_some, hentryOld, hentryNew] at hresult
  exact hresult

end Arithmetic

end Pot

end JunctionBox
