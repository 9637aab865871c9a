import JunctionBox.Pot.Tabular

/-!
# The same operations over two arithmetics

`Arith.Hom A B f valid divisor` says that `f` carries the arithmetic `A` to `B`
as long as the numbers are `valid` and the second argument of every ratio is a
`divisor`.  Every operation on potentials then commutes with applying `f` to the
entries.
-/

namespace JunctionBox

variable {α β : Type}

/-- `f` carries `A` to `B` on the valid numbers, ratios to divisors only. -/
structure Arith.Hom (A : Arith α) (B : Arith β) (f : α → β) (valid divisor : α → Prop) :
    Prop where
  valid_unit : valid A.unit
  valid_times : ∀ {p q}, valid p → valid q → valid (A.times p q)
  valid_ratio : ∀ {p q}, valid p → valid q → valid (A.ratio p q)
  valid_total : ∀ {l}, (∀ p ∈ l, valid p) → valid (A.total l)
  map_unit : f A.unit = B.unit
  map_times : ∀ {p q}, valid p → valid q → f (A.times p q) = B.times (f p) (f q)
  map_ratio : ∀ {p q}, valid p → valid q → divisor q → f (A.ratio p q) = B.ratio (f p) (f q)
  map_total : ∀ {l}, (∀ p ∈ l, valid p) → f (A.total l) = B.total (l.map f)

namespace Pot

variable {o : VariableOrdering}

/-- `f` applied to every entry. -/
def map (f : α → β) (p : Pot o α) : Pot o β where
  vbls := p.vbls
  tabData := p.tabData.map f
  tableSize := p.tableSize

@[simp] theorem vbls_map (f : α → β) (p : Pot o α) : (p.map f).vbls = p.vbls := rfl

@[simp] theorem tableSize_map (f : α → β) (p : Pot o α) : (p.map f).tableSize = p.tableSize := rfl

@[simp] theorem tabData_map (f : α → β) (p : Pot o α) : (p.map f).tabData = p.tabData.map f := rfl

theorem map_createTabular (f : α → β) (vbls : VariableSet o) (valueData : List α) :
    (createTabular vbls valueData).map f = createTabular vbls (valueData.map f) := rfl

theorem productEntries_map (f : α → β) (p : Pot o α) (mi : Option (MulInd o)) :
    (p.map f).productEntries mi = p.productEntries mi := by
  cases mi <;> rfl

/-- All entries are valid. -/
def AllEntries (valid : α → Prop) (p : Pot o α) : Prop := ∀ a ∈ p.tabData, valid a

namespace Arithmetic

variable {A : Arith α} {B : Arith β} {f : α → β} {valid divisor : α → Prop}

section Hom

variable (h : A.Hom B f valid divisor)

include h

theorem map_createTabularUnity (vbls : VariableSet o) :
    (createTabularUnity A vbls).map f = createTabularUnity B vbls := by
  unfold createTabularUnity
  rw [map_createTabular, List.map_replicate, h.map_unit]

theorem allEntries_createTabularUnity (vbls : VariableSet o) :
    (createTabularUnity A vbls).AllEntries valid := by
  intro a ha
  rw [List.eq_of_mem_replicate ha]
  exact h.valid_unit

theorem map_multiplyEntry {pvalues qvalues r : List α} {entry : ℕ × ℕ}
    (hp : ∀ a ∈ pvalues, valid a) (hq : ∀ a ∈ qvalues, valid a)
    (hrun : multiplyEntry A.times pvalues qvalues entry = some r) :
    multiplyEntry B.times (pvalues.map f) (qvalues.map f) entry = some (r.map f) ∧
      ∀ a ∈ r, valid a := by
  obtain ⟨pvalue, hpvalue, hrun⟩ := Option.bind_eq_some_iff.mp hrun
  obtain ⟨qvalue, hqvalue, hrun⟩ := Option.bind_eq_some_iff.mp hrun
  obtain rfl := Option.some.inj hrun
  have hvalid := h.valid_times (hp _ (List.mem_of_getElem? hpvalue))
    (hq _ (List.mem_of_getElem? hqvalue))
  constructor
  · unfold multiplyEntry
    rw [List.getElem?_map, List.getElem?_map, hpvalue, hqvalue, List.map_set,
      h.map_times (hp _ (List.mem_of_getElem? hpvalue)) (hq _ (List.mem_of_getElem? hqvalue))]
    rfl
  · intro a ha
    rcases List.mem_or_eq_of_mem_set ha with ha | rfl
    · exact hq a ha
    · exact hvalid

/-- Products. -/
theorem map_productTabular {p q r : Pot o α} (hp : p.AllEntries valid) (hq : q.AllEntries valid)
    {mi : Option (MulInd o)} (hrun : productTabular A p q mi = some r) :
    productTabular B (p.map f) (q.map f) mi = some (r.map f) ∧ r.AllEntries valid := by
  obtain ⟨qvalues, hloop, rfl⟩ := Option.map_eq_some_iff.mp hrun
  obtain ⟨qvalues', hloop', heq, hvalid⟩ := PartialLoops.foldlM_transport
    (g := multiplyEntry B.times (p.map f).tabData) (φ := id)
    (fun qvalues qvalues' => qvalues' = qvalues.map f ∧ ∀ a ∈ qvalues, valid a)
    hloop ⟨rfl, hq⟩ fun s u entry s' _ hrel hstep => by
      obtain ⟨rfl, hs⟩ := hrel
      obtain ⟨hstep', hs'⟩ := map_multiplyEntry h hp hs hstep
      exact ⟨_, hstep', rfl, hs'⟩
  refine ⟨?_, hvalid⟩
  unfold productTabular
  rw [productEntries_map, ← List.map_id (p.productEntries mi), tabData_map f q, hloop', heq]
  rfl

/-- Update ratios, to a potential of divisors. -/
theorem map_updateRatioTabular {newSep oldSep r : Pot o α} (hnew : newSep.AllEntries valid)
    (hold : oldSep.AllEntries valid) (hdivisor : oldSep.AllEntries divisor)
    (hrun : updateRatioTabular A newSep oldSep = some r) :
    updateRatioTabular B (newSep.map f) (oldSep.map f) = some (r.map f) ∧ r.AllEntries valid := by
  obtain ⟨entries, hloop, rfl⟩ := Option.map_eq_some_iff.mp hrun
  obtain ⟨hloop', hvalid⟩ := PartialLoops.mapM_transport (φ := f) (P := valid)
    (g := fun i => do
      let old ← (oldSep.map f).tabData[i]?
      let new ← (newSep.map f).tabData[i]?
      return B.ratio new old) hloop fun i _ b hb => by
    obtain ⟨old, hget, hb⟩ := Option.bind_eq_some_iff.mp hb
    obtain ⟨new, hget', hb⟩ := Option.bind_eq_some_iff.mp hb
    obtain rfl := Option.some.inj hb
    have hmem := List.mem_of_getElem? hget
    have hmem' := List.mem_of_getElem? hget'
    rw [tabData_map, tabData_map, List.getElem?_map, List.getElem?_map, hget, hget',
      h.map_ratio (hnew _ hmem') (hold _ hmem) (hdivisor _ hmem)]
    exact ⟨rfl, h.valid_ratio (hnew _ hmem') (hold _ hmem)⟩
  refine ⟨?_, hvalid⟩
  unfold updateRatioTabular
  rw [tableSize_map, hloop']
  rfl

theorem map_sumRows {p : Pot o α} {mi : MulInd o} {sums : List α} (hp : p.AllEntries valid)
    (hrun : sumRows A p mi = some sums) :
    sumRows B (p.map f) mi = some (sums.map f) ∧ ∀ a ∈ sums, valid a := by
  refine PartialLoops.mapM_transport hrun fun pindices _ total htotal => ?_
  obtain ⟨pvalues, hread, rfl⟩ := Option.map_eq_some_iff.mp htotal
  obtain ⟨hread', hvalid⟩ := PartialLoops.mapM_transport (φ := f) (P := valid)
    (g := fun pindex => (p.map f).tabData[pindex]?) hread fun pindex _ b hb => by
    rw [tabData_map, List.getElem?_map, hb]
    exact ⟨rfl, hp b (List.mem_of_getElem? hb)⟩
  rw [hread', Option.map_some, ← h.map_total hvalid]
  exact ⟨rfl, h.valid_total hvalid⟩

/-- Sum-margins. -/
theorem map_sumMarginTabular {p r : Pot o α} {mi : MulInd o} (hp : p.AllEntries valid)
    (hrun : sumMarginTabular A p mi = some r) :
    sumMarginTabular B (p.map f) mi = some (r.map f) ∧ r.AllEntries valid := by
  obtain ⟨sums, hsums, rfl⟩ := Option.map_eq_some_iff.mp hrun
  obtain ⟨hsums', hvalid⟩ := map_sumRows h hp hsums
  refine ⟨?_, hvalid⟩
  unfold sumMarginTabular
  rw [hsums']
  rfl

end Hom

end Arithmetic

end Pot

end JunctionBox
