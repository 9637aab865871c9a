import JunctionBox.Model.BNet

/-!
# Loading tables from a document

The loader keeps the variables of a document in a hash map and makes a variable
ordering of them in the order in which the map happens to list them.  The set of
variables of a table only remembers which ranks are in it, so the numbers, which
stand in the order of the document, are read in the order of the map.

`agree_iff` says for which tables two orderings read every list of numbers
alike: those whose variables with more than one value come in the same order in
both.
-/

namespace JunctionBox

variable {K : Type}

/-- The `Table` class. -/
structure Table (K : Type) where
  forVbl : CString
  given : List CString
  table : List K

/-- The variable that `counter.variables` has under a name. -/
def getVariable (counterVariables : List Variable) (name : CString) : Option Variable :=
  counterVariables.find? fun vbl => vbl.label = name

namespace Table

/-- The body of the loader's loop over the tables. -/
def load (counterVariables : List Variable) (order : VariableOrdering) (t : Table K) :
    Option (CPT order K) := do
  let vbl ← getVariable counterVariables t.forVbl
  let vs := (VariableSet.create order).add vbl
  let parents ← t.given.mapM (getVariable counterVariables)
  let vs := parents.foldl VariableSet.add vs
  let potential := Pot.createTabular vs t.table
  return CPT.createParentList parents vbl potential

end Table

/-- `Pot_EvaluateTabular` at the values that the variables of the potential have by name. -/
def Pot.evaluateNamed {o : VariableOrdering} (p : Pot o K) (values : CString → ℕ) : Option K :=
  p.evaluateTabular (p.vbls.ranks.map fun i => values (o.vbl i).label)

namespace VariableOrdering

/-- `v` has a lower rank than `w`. -/
def Precedes (o : VariableOrdering) (v w : Variable) : Prop :=
  ∃ i j, o.getVariableRank v = some i ∧ o.getVariableRank w = some j ∧ i < j

instance (o : VariableOrdering) (v w : Variable) : Decidable (o.Precedes v w) :=
  decidable_of_iff (∃ i ∈ o.getVariableRank v, ∃ j ∈ o.getVariableRank w, i < j) <| by
    constructor
    · rintro ⟨i, hi, j, hj, hlt⟩
      exact ⟨i, j, hi, hj, hlt⟩
    · rintro ⟨i, j, hi, hj, hlt⟩
      exact ⟨i, hi, j, hj, hlt⟩

theorem Precedes.asymm {o : VariableOrdering} {v w : Variable} (h : o.Precedes v w) :
    ¬o.Precedes w v := by
  rintro ⟨j', i', hj', hi', hlt'⟩
  obtain ⟨i, j, hi, hj, hlt⟩ := h
  rw [hi, Option.some.injEq] at hi'
  rw [hj, Option.some.injEq] at hj'
  omega

theorem precedes_or {o : VariableOrdering} {v w : Variable} (hv : v ∈ o.vbls) (hw : w ∈ o.vbls)
    (hne : v ≠ w) : o.Precedes v w ∨ o.Precedes w v := by
  obtain ⟨i, hi⟩ := getVariableRank_isSome hv
  obtain ⟨j, hj⟩ := getVariableRank_isSome hw
  rcases lt_trichotomy i j with hlt | heq | hlt
  · exact Or.inl ⟨i, j, hi, hj, hlt⟩
  · subst heq
    exact absurd ((getVariableRank_lt hi).2.symm.trans (getVariableRank_lt hj).2) hne
  · exact Or.inr ⟨j, i, hj, hi, hlt⟩

end VariableOrdering

namespace VariableSet

variable {o : VariableOrdering}

theorem vars_foldl_add (vbls : List Variable) (this : VariableSet o) (i : ℕ) :
    i ∈ (vbls.foldl add this).vars ↔
      i ∈ this.vars ∨ ∃ v ∈ vbls, o.getVariableRank v = some i := by
  induction vbls generalizing this with
  | nil => simp
  | cons v vbls ih =>
      rw [List.foldl_cons, ih]
      have hadd : i ∈ (this.add v).vars ↔ i ∈ this.vars ∨ o.getVariableRank v = some i := by
        cases hrank : o.getVariableRank v with
        | none =>
            rw [add, hrank]
            simp
        | some j =>
            rw [vars_add_of_rank _ hrank, Finset.mem_insert, Option.some.injEq, or_comm, eq_comm]
      rw [hadd, or_assoc]
      simp

/-- The variables of the set, in rank order. -/
def variableList (this : VariableSet o) : List Variable := this.ranks.map o.vbl

/-- A list of variables is sorted by rank in the set of its members. -/
theorem variableList_pairwise (hdistinct : o.DistinctLabels) (this : VariableSet o) :
    this.variableList.Pairwise o.Precedes := by
  unfold variableList
  rw [List.pairwise_map]
  refine this.bv.onIndices_sorted.imp_of_mem fun {i j} hi hj hlt => ⟨i, j, ?_, ?_, hlt⟩
  · exact hdistinct.getVariableRank_vbl (mem_ranks.mp hi).1
  · exact hdistinct.getVariableRank_vbl (mem_ranks.mp hj).1

theorem mem_variableList_foldl_add {vbls : List Variable}
    (hvbls : ∀ v ∈ vbls, v ∈ o.vbls) {v : Variable} :
    v ∈ (vbls.foldl add (create o)).variableList ↔ v ∈ vbls := by
  unfold variableList
  rw [List.mem_map]
  constructor
  · rintro ⟨i, hi, rfl⟩
    rw [← mem_vars_iff_mem_ranks, vars_foldl_add, vars_create] at hi
    obtain ⟨w, hw, hrank⟩ := hi.resolve_left (Finset.notMem_empty i)
    rw [(VariableOrdering.getVariableRank_lt hrank).2]
    exact hw
  · intro hv
    obtain ⟨i, hi⟩ := VariableOrdering.getVariableRank_isSome (hvbls v hv)
    refine ⟨i, ?_, (VariableOrdering.getVariableRank_lt hi).2⟩
    rw [← mem_vars_iff_mem_ranks, vars_foldl_add]
    exact Or.inr ⟨v, hv, hi⟩

/-- The position of named values in a table over the set. -/
def namedIndex (this : VariableSet o) (values : CString → ℕ) : ℕ :=
  MixedRadix.encode (this.variableList.map Variable.cardinality)
    (this.variableList.map fun v => values v.label)

theorem namedIndex_lt {this : VariableSet o} {values : CString → ℕ}
    (h : ∀ v ∈ this.variableList, values v.label < v.cardinality) :
    this.namedIndex values < (this.variableList.map Variable.cardinality).prod :=
  MixedRadix.encode_lt (MixedRadix.forall₂_map h)

/-- `Pot_EvaluateTabular` at named values. -/
theorem evaluateNamed_createTabular {this : VariableSet o} {values : CString → ℕ}
    (hne : this.ranks ≠ []) (h : ∀ v ∈ this.variableList, values v.label < v.cardinality)
    (table : List K) :
    (Pot.createTabular this table).evaluateNamed values = table[this.namedIndex values]? := by
  have hrange : this.InRange fun i => values (o.vbl i).label := by
    intro i hi
    apply VariableOrdering.mem_dom.mpr
    exact h _ (List.mem_map_of_mem (mem_vars_iff_mem_ranks.mp hi))
  have hindex : this.index (fun i => values (o.vbl i).label) = this.namedIndex values := by
    unfold index namedIndex variableList getVblCardinalities
    rw [List.map_map, List.map_map]
    rfl
  have heval := Pot.evaluateTabular_map (p := Pot.createTabular this table) hne hrange
  refine heval.trans ?_
  show table[this.index fun i => values (o.vbl i).label]? = _
  rw [hindex]

end VariableSet

namespace Table

/-- Under the two orderings the loaded potentials have the same number at all named values in
range. -/
def Agree (counterVariables : List Variable) (o₁ o₂ : VariableOrdering) (t : Table K) : Prop :=
  ∀ values : CString → ℕ,
    (∀ name ∈ t.forVbl :: t.given, ∀ v, getVariable counterVariables name = some v →
      values name < v.cardinality) →
    (t.load counterVariables o₁).bind (fun cpt => cpt.pot.evaluateNamed values) =
      (t.load counterVariables o₂).bind fun cpt => cpt.pot.evaluateNamed values

/-- The variables with more than one value come in the same order. -/
def SameOrder (o₁ o₂ : VariableOrdering) (vbls : List Variable) : Prop :=
  ∀ v ∈ vbls, ∀ w ∈ vbls, 1 < v.cardinality → 1 < w.cardinality →
    (o₁.Precedes v w ↔ o₂.Precedes v w)

instance (o₁ o₂ : VariableOrdering) (vbls : List Variable) : Decidable (SameOrder o₁ o₂ vbls) :=
  inferInstanceAs (Decidable (∀ v ∈ vbls, ∀ w ∈ vbls, 1 < v.cardinality → 1 < w.cardinality →
    (o₁.Precedes v w ↔ o₂.Precedes v w)))

section Orderings

variable {counterVariables : List Variable} {o : VariableOrdering}

theorem label_of_getVariable {name : CString} {v : Variable}
    (h : getVariable counterVariables name = some v) : v ∈ counterVariables ∧ v.label = name := by
  refine ⟨List.mem_of_find?_eq_some h, ?_⟩
  have hfound := List.find?_some h
  simpa using hfound

/-- What the loader makes of a table. -/
theorem load_eq {t : Table K} {vbl : Variable} {parents : List Variable}
    (hfor : getVariable counterVariables t.forVbl = some vbl)
    (hgiven : t.given.mapM (getVariable counterVariables) = some parents) (o : VariableOrdering) :
    t.load counterVariables o = some (CPT.createParentList parents vbl
      (Pot.createTabular ((vbl :: parents).foldl VariableSet.add (VariableSet.create o))
        t.table)) := by
  unfold load
  rw [hfor, hgiven]
  rfl

/-- The table's variables under an ordering. -/
def tableSet (o : VariableOrdering) (vbls : List Variable) : VariableSet o :=
  vbls.foldl VariableSet.add (VariableSet.create o)

theorem evaluate_load {t : Table K} {vbl : Variable} {parents : List Variable}
    (hfor : getVariable counterVariables t.forVbl = some vbl)
    (hgiven : t.given.mapM (getVariable counterVariables) = some parents)
    (hmem : ∀ v ∈ vbl :: parents, v ∈ o.vbls) {values : CString → ℕ}
    (h : ∀ v ∈ vbl :: parents, values v.label < v.cardinality) :
    ((t.load counterVariables o).bind fun cpt => cpt.pot.evaluateNamed values) =
      t.table[(tableSet o (vbl :: parents)).namedIndex values]? := by
  have hlist : ∀ v, v ∈ (tableSet o (vbl :: parents)).variableList ↔ v ∈ vbl :: parents :=
    fun v => VariableSet.mem_variableList_foldl_add hmem
  have hne : (tableSet o (vbl :: parents)).ranks ≠ [] := by
    intro hnil
    have hvbl := (hlist vbl).mpr (List.mem_cons_self ..)
    unfold VariableSet.variableList at hvbl
    rw [hnil] at hvbl
    exact absurd hvbl List.not_mem_nil
  rw [load_eq hfor hgiven]
  exact VariableSet.evaluateNamed_createTabular hne (fun v hv => h v ((hlist v).mp hv)) t.table

end Orderings

section TwoOrderings

variable {o₁ o₂ : VariableOrdering} {vbls : List Variable}

theorem perm_variableList (h₁ : o₁.DistinctLabels) (h₂ : o₂.DistinctLabels)
    (hmem₁ : ∀ v ∈ vbls, v ∈ o₁.vbls) (hmem₂ : ∀ v ∈ vbls, v ∈ o₂.vbls) :
    (tableSet o₁ vbls).variableList.Perm (tableSet o₂ vbls).variableList := by
  have hnodup : ∀ {o : VariableOrdering}, o.DistinctLabels →
      (tableSet o vbls).variableList.Nodup := fun h =>
    (VariableSet.variableList_pairwise h _).imp fun {a b} hab heq => by
      subst heq
      exact hab.asymm hab
  rw [List.perm_ext_iff_of_nodup (hnodup h₁) (hnodup h₂)]
  intro v
  unfold tableSet
  rw [VariableSet.mem_variableList_foldl_add hmem₁, VariableSet.mem_variableList_foldl_add hmem₂]

/-- Orderings that agree on the variables with more than one value lay tables out alike. -/
theorem SameOrder.namedIndex_eq (h : SameOrder o₁ o₂ vbls) (h₁ : o₁.DistinctLabels)
    (h₂ : o₂.DistinctLabels) (hmem₁ : ∀ v ∈ vbls, v ∈ o₁.vbls) (hmem₂ : ∀ v ∈ vbls, v ∈ o₂.vbls)
    {values : CString → ℕ} (hvalues : ∀ v ∈ vbls, values v.label < v.cardinality) :
    (tableSet o₁ vbls).namedIndex values = (tableSet o₂ vbls).namedIndex values := by
  have hlist₁ : ∀ v, v ∈ (tableSet o₁ vbls).variableList ↔ v ∈ vbls := fun v =>
    VariableSet.mem_variableList_foldl_add hmem₁
  have hlist₂ : ∀ v, v ∈ (tableSet o₂ vbls).variableList ↔ v ∈ vbls := fun v =>
    VariableSet.mem_variableList_foldl_add hmem₂
  have hfilter : (tableSet o₁ vbls).variableList.filter (fun v => 1 < v.cardinality) =
      (tableSet o₂ vbls).variableList.filter fun v => 1 < v.cardinality := by
    refine ((perm_variableList h₁ h₂ hmem₁ hmem₂).filter _).eq_of_pairwise
      (fun a b _ _ hab hba => absurd hab (VariableOrdering.Precedes.asymm hba))
      ((VariableSet.variableList_pairwise h₁ _).filter _) ?_
    -- the second list is sorted by the first ordering as well
    refine ((VariableSet.variableList_pairwise h₂ _).filter _).imp_of_mem fun {a b} ha hb hab => ?_
    obtain ⟨ha, htwo⟩ := List.mem_filter.mp ha
    obtain ⟨hb, htwo'⟩ := List.mem_filter.mp hb
    exact (h a ((hlist₂ a).mp ha) b ((hlist₂ b).mp hb) (by simpa using htwo)
      (by simpa using htwo')).mpr hab
  unfold VariableSet.namedIndex
  rw [← (MixedRadix.encode_filter fun v hv => hvalues v ((hlist₁ v).mp hv)).1,
    ← (MixedRadix.encode_filter fun v hv => hvalues v ((hlist₂ v).mp hv)).1, hfilter]

/-- Where two such variables change places, some position changes. -/
theorem exists_namedIndex_ne (h₁ : o₁.DistinctLabels) (h₂ : o₂.DistinctLabels)
    (hmem₁ : ∀ v ∈ vbls, v ∈ o₁.vbls) (hmem₂ : ∀ v ∈ vbls, v ∈ o₂.vbls)
    (hpos : ∀ v ∈ vbls, 0 < v.cardinality) {v w : Variable} (hv : v ∈ vbls) (hw : w ∈ vbls)
    (hvtwo : 1 < v.cardinality) (hwtwo : 1 < w.cardinality) (hvw : o₁.Precedes v w)
    (hwv : o₂.Precedes w v) :
    ∃ values : CString → ℕ, (∀ u ∈ vbls, values u.label < u.cardinality) ∧
      (tableSet o₁ vbls).namedIndex values ≠ (tableSet o₂ vbls).namedIndex values := by
  -- all variables but one are zero
  set unit : Variable → CString → ℕ := fun v name => if name = v.label then 1 else 0 with hunit
  have hlist₁ : ∀ u, u ∈ (tableSet o₁ vbls).variableList ↔ u ∈ vbls := fun u =>
    VariableSet.mem_variableList_foldl_add hmem₁
  have hlist₂ : ∀ u, u ∈ (tableSet o₂ vbls).variableList ↔ u ∈ vbls := fun u =>
    VariableSet.mem_variableList_foldl_add hmem₂
  have hrange : ∀ a ∈ vbls, 1 < a.cardinality →
      ∀ u ∈ vbls, unit a u.label < u.cardinality := by
    intro a ha htwo u hu
    simp only [hunit]
    split
    · next heq =>
        rw [h₁.eq_of_label (hmem₁ u hu) (hmem₁ a ha) heq]
        exact htwo
    · exact hpos u hu
  have hindex : ∀ {o : VariableOrdering}, o.DistinctLabels → (∀ u ∈ vbls, u ∈ o.vbls) →
      (∀ u, u ∈ (tableSet o vbls).variableList ↔ u ∈ vbls) → ∀ a ∈ vbls,
      (tableSet o vbls).namedIndex (unit a) =
        MixedRadix.encode ((tableSet o vbls).variableList.map Variable.cardinality)
          ((tableSet o vbls).variableList.map fun u => if u = a then 1 else 0) := by
    intro o h hmem hlist a ha
    unfold VariableSet.namedIndex
    congr 1
    refine List.map_congr_left fun u hu => ?_
    have hiff : u.label = a.label ↔ u = a :=
      ⟨fun heq => h.eq_of_label (hmem u ((hlist u).mp hu)) (hmem a ha) heq, fun heq => heq ▸ rfl⟩
    simp only [hunit, hiff]
  have hlt₁ : (tableSet o₁ vbls).namedIndex (unit w) < (tableSet o₁ vbls).namedIndex (unit v) := by
    rw [hindex h₁ hmem₁ hlist₁ w hw, hindex h₁ hmem₁ hlist₁ v hv]
    exact MixedRadix.encode_unit_lt (fun _ _ => VariableOrdering.Precedes.asymm)
      (VariableSet.variableList_pairwise h₁ _) (fun u hu => hpos u ((hlist₁ u).mp hu))
      ((hlist₁ v).mpr hv) ((hlist₁ w).mpr hw) hvw hwtwo
  have hlt₂ : (tableSet o₂ vbls).namedIndex (unit v) < (tableSet o₂ vbls).namedIndex (unit w) := by
    rw [hindex h₂ hmem₂ hlist₂ w hw, hindex h₂ hmem₂ hlist₂ v hv]
    exact MixedRadix.encode_unit_lt (fun _ _ => VariableOrdering.Precedes.asymm)
      (VariableSet.variableList_pairwise h₂ _) (fun u hu => hpos u ((hlist₂ u).mp hu))
      ((hlist₂ w).mpr hw) ((hlist₂ v).mpr hv) hwv hvtwo
  by_cases heq : (tableSet o₁ vbls).namedIndex (unit v) = (tableSet o₂ vbls).namedIndex (unit v)
  · exact ⟨unit w, hrange w hw hwtwo, by omega⟩
  · exact ⟨unit v, hrange v hv hvtwo, heq⟩

end TwoOrderings

/-- A list of numbers that tells two positions apart. -/
theorem exists_table_getElem_ne [Nontrivial K] {i j n : ℕ} (hi : i < n) (hne : i ≠ j) :
    ∃ table : List K, table.length = n ∧ table[i]? ≠ table[j]? := by
  obtain ⟨a, b, hab⟩ := exists_pair_ne K
  refine ⟨(List.range n).map fun k => if k = i then a else b, by simp, ?_⟩
  rw [List.getElem?_map, List.getElem?_map, List.getElem?_range hi, Option.map_some, if_pos rfl]
  intro heq
  obtain ⟨k, hk, hval⟩ := Option.map_eq_some_iff.mp heq.symm
  obtain ⟨hlt, rfl⟩ := List.getElem?_eq_some_iff.mp hk
  rw [List.getElem_range, if_neg hne.symm] at hval
  exact hab hval.symm

section Names

variable {counterVariables : List Variable} {forVbl : CString} {given : List CString}
variable {vbl : Variable} {parents : List Variable}

/-- The names of a table stand for its variables. -/
theorem exists_name_iff (hfor : getVariable counterVariables forVbl = some vbl)
    (hgiven : given.mapM (getVariable counterVariables) = some parents) (v : Variable) :
    v ∈ vbl :: parents ↔ ∃ name ∈ forVbl :: given, getVariable counterVariables name = some v := by
  obtain ⟨hsound, hcomplete⟩ := PartialLoops.mem_mapM hgiven
  constructor
  · intro hv
    rcases List.mem_cons.mp hv with rfl | hv
    · exact ⟨forVbl, List.mem_cons_self .., hfor⟩
    · obtain ⟨name, hname, heq⟩ := hsound v hv
      exact ⟨name, List.mem_cons_of_mem _ hname, heq⟩
  · rintro ⟨name, hname, heq⟩
    rcases List.mem_cons.mp hname with rfl | hname
    · exact Option.some.inj (heq.symm.trans hfor) ▸ List.mem_cons_self ..
    · obtain ⟨w, hw, heq'⟩ := hcomplete name hname
      exact Option.some.inj (heq'.symm.trans heq) ▸ List.mem_cons_of_mem _ hw

/-- Named values are in range when they are so for the variables. -/
theorem inRange_names_iff (hfor : getVariable counterVariables forVbl = some vbl)
    (hgiven : given.mapM (getVariable counterVariables) = some parents) (values : CString → ℕ) :
    (∀ name ∈ forVbl :: given, ∀ v, getVariable counterVariables name = some v →
      values name < v.cardinality) ↔ ∀ v ∈ vbl :: parents, values v.label < v.cardinality := by
  constructor
  · intro h v hv
    obtain ⟨name, hname, heq⟩ := (exists_name_iff hfor hgiven v).mp hv
    rw [(label_of_getVariable heq).2]
    exact h name hname v heq
  · intro h name hname v heq
    rw [← (label_of_getVariable heq).2]
    exact h v ((exists_name_iff hfor hgiven v).mpr ⟨name, hname, heq⟩)

end Names

section Swap

variable {o₁ o₂ : VariableOrdering} {vbls : List Variable}

/-- Orderings that do not agree exchange two variables. -/
theorem exists_swap (hmem₁ : ∀ v ∈ vbls, v ∈ o₁.vbls) (hmem₂ : ∀ v ∈ vbls, v ∈ o₂.vbls)
    (h : ¬SameOrder o₁ o₂ vbls) : ∃ v ∈ vbls, ∃ w ∈ vbls, 1 < v.cardinality ∧
      1 < w.cardinality ∧ o₁.Precedes v w ∧ o₂.Precedes w v := by
  by_contra hswap
  push Not at hswap
  apply h
  intro v hv w hw htwo htwo'
  have hne : ∀ {o : VariableOrdering} {a b : Variable}, o.Precedes a b → a ≠ b :=
    fun hab heq => (heq ▸ hab).asymm (heq ▸ hab)
  constructor
  · intro hvw
    exact (VariableOrdering.precedes_or (hmem₂ v hv) (hmem₂ w hw) (hne hvw)).resolve_right
      (hswap v hv w hw htwo htwo' hvw)
  · intro hvw
    apply (VariableOrdering.precedes_or (hmem₁ v hv) (hmem₁ w hw) (hne hvw)).resolve_right
    intro hwv
    exact hswap w hw v hv htwo' htwo hwv hvw

/-- The number of entries that the variables ask for. -/
theorem prod_variableList {o : VariableOrdering} (h : o.DistinctLabels)
    (hmem : ∀ v ∈ vbls, v ∈ o.vbls) :
    ((tableSet o vbls).variableList.map Variable.cardinality).prod =
      (vbls.dedup.map Variable.cardinality).prod := by
  apply List.Perm.prod_eq
  apply List.Perm.map
  rw [List.perm_ext_iff_of_nodup _ (List.nodup_dedup _)]
  · intro u
    unfold tableSet
    rw [VariableSet.mem_variableList_foldl_add hmem, List.mem_dedup]
  · exact (VariableSet.variableList_pairwise h _).imp fun {a b} hab heq => by
      subst heq
      exact hab.asymm hab

end Swap

/-- Reading the same numbers under two orderings of the same variables: the loaded potentials
agree, whatever the numbers are, if some variable of the table has no value or the variables
of the table with more than one value come in the same order; and if they agree for all
tables of the right length, one or the other is the case. -/
theorem agree_iff [Nontrivial K] {counterVariables : List Variable} {o₁ o₂ : VariableOrdering}
    (hdistinct : (counterVariables.map Variable.label).Nodup)
    (horder₁ : o₁.vbls.Perm counterVariables) (horder₂ : o₂.vbls.Perm counterVariables)
    {forVbl : CString} {given : List CString} {vbl : Variable} {parents : List Variable}
    (hfor : getVariable counterVariables forVbl = some vbl)
    (hgiven : given.mapM (getVariable counterVariables) = some parents) :
    ((∃ v ∈ vbl :: parents, v.cardinality = 0) ∨ SameOrder o₁ o₂ (vbl :: parents) →
      ∀ table : List K, Agree counterVariables o₁ o₂ ⟨forVbl, given, table⟩) ∧
    ((∀ table : List K, table.length = ((vbl :: parents).dedup.map Variable.cardinality).prod →
        Agree counterVariables o₁ o₂ ⟨forVbl, given, table⟩) →
      (∃ v ∈ vbl :: parents, v.cardinality = 0) ∨ SameOrder o₁ o₂ (vbl :: parents)) := by
  have h₁ : o₁.DistinctLabels := (horder₁.map Variable.label).nodup_iff.mpr hdistinct
  have h₂ : o₂.DistinctLabels := (horder₂.map Variable.label).nodup_iff.mpr hdistinct
  have hmem : ∀ {o : VariableOrdering}, o.vbls.Perm counterVariables →
      ∀ v ∈ vbl :: parents, v ∈ o.vbls := by
    intro o horder v hv
    obtain ⟨name, -, heq⟩ := (exists_name_iff hfor hgiven v).mp hv
    exact horder.mem_iff.mpr (label_of_getVariable heq).1
  have hmem₁ := hmem horder₁
  have hmem₂ := hmem horder₂
  have hrange := inRange_names_iff hfor hgiven
  constructor
  · intro h table values hvalues
    rw [hrange] at hvalues
    have hsame : SameOrder o₁ o₂ (vbl :: parents) := by
      apply h.resolve_left
      rintro ⟨v, hv, hzero⟩
      have hlt := hvalues v hv
      omega
    rw [evaluate_load (t := ⟨forVbl, given, table⟩) hfor hgiven hmem₁ hvalues,
      evaluate_load (t := ⟨forVbl, given, table⟩) hfor hgiven hmem₂ hvalues,
      hsame.namedIndex_eq h₁ h₂ hmem₁ hmem₂ hvalues]
  · intro hall
    by_contra hnone
    rw [not_or] at hnone
    obtain ⟨hzero, hdiffer⟩ := hnone
    have hpos : ∀ v ∈ vbl :: parents, 0 < v.cardinality := fun v hv =>
      Nat.pos_of_ne_zero fun heq => hzero ⟨v, hv, heq⟩
    obtain ⟨v, hv, w, hw, htwo, htwo', hvw, hwv⟩ := exists_swap hmem₁ hmem₂ hdiffer
    obtain ⟨values, hvalues, hne⟩ := exists_namedIndex_ne h₁ h₂ hmem₁ hmem₂ hpos hv hw htwo htwo'
      hvw hwv
    have hlist : ∀ u, u ∈ (tableSet o₁ (vbl :: parents)).variableList ↔ u ∈ vbl :: parents :=
      fun u => VariableSet.mem_variableList_foldl_add hmem₁
    have hlt : (tableSet o₁ (vbl :: parents)).namedIndex values <
        ((tableSet o₁ (vbl :: parents)).variableList.map Variable.cardinality).prod :=
      VariableSet.namedIndex_lt fun u hu => hvalues u ((hlist u).mp hu)
    obtain ⟨table, hlen, htable⟩ := exists_table_getElem_ne (K := K) hlt hne
    have hagree := hall table (hlen.trans (prod_variableList h₁ hmem₁)) values
      ((hrange values).mpr hvalues)
    rw [evaluate_load (t := ⟨forVbl, given, table⟩) hfor hgiven hmem₁ hvalues,
      evaluate_load (t := ⟨forVbl, given, table⟩) hfor hgiven hmem₂ hvalues] at hagree
    exact htable hagree

/-- The variables of a document. -/
def sampleVariables : List Variable := [⟨['a'], 2⟩, ⟨['b'], 2⟩, ⟨['c'], 3⟩]

/-- The numbers of `b` given `a`. -/
def sampleTable : Table ℚ := ⟨['b'], [['a']], [9 / 10, 1 / 10, 1 / 5, 4 / 5]⟩

/-- Moving `c` before `b` leaves them alone. -/
theorem agree_sample :
    Agree sampleVariables ⟨sampleVariables⟩ ⟨[⟨['a'], 2⟩, ⟨['c'], 3⟩, ⟨['b'], 2⟩]⟩
      sampleTable := by
  have hsame : SameOrder ⟨sampleVariables⟩ ⟨[⟨['a'], 2⟩, ⟨['c'], 3⟩, ⟨['b'], 2⟩]⟩
      [⟨['b'], 2⟩, ⟨['a'], 2⟩] := by decide
  exact (agree_iff (by decide) (List.Perm.refl _) (by decide) rfl rfl).1 (Or.inr hsame)
    sampleTable.table

/-- Moving `a` after `b` transposes them. -/
theorem not_agree_sample :
    (sampleVariables.map Variable.label).Nodup ∧
      [⟨['b'], 2⟩, ⟨['a'], 2⟩, ⟨['c'], 3⟩].Perm sampleVariables ∧
      ¬Agree sampleVariables ⟨sampleVariables⟩ ⟨[⟨['b'], 2⟩, ⟨['a'], 2⟩, ⟨['c'], 3⟩]⟩
        sampleTable := by
  refine ⟨by decide, by decide, fun hagree => ?_⟩
  have hread := hagree (fun name => if name = ['b'] then 1 else 0) (by decide)
  exact absurd hread (by decide +kernel)

end Table

end JunctionBox
