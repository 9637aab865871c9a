import JunctionBox.Util.Map
import Mathlib.Data.List.GetD

/-!
# Variables and variable orderings

A variable is a label and a number of values.  The functions and the raw data
that `struct variable` also carries (`valid_value_func`, `enumerate_value_func`,
`valueData`) are stubs no caller reads.  The source compares variables by
address; the variables of an ordering have distinct labels, so comparing their
contents is the same.

`rank` lookups return `-1` when the variable is missing, `none` here.
-/

namespace JunctionBox

/-- `struct variable`. -/
structure Variable where
  label : CString
  cardinality : ℕ
deriving DecidableEq, Inhabited

/-- `struct variable_ordering`: variables from lowest to highest rank. -/
structure VariableOrdering where
  vbls : List Variable
deriving DecidableEq

namespace VariableOrdering

/-- `o->size`. -/
abbrev size (o : VariableOrdering) : ℕ := o.vbls.length

/-- `o->vbls[i]`, for `i < o->size`. -/
def vbl (o : VariableOrdering) (i : ℕ) : Variable := o.vbls.getD i default

/-- `VariableOrdering_GetVariableRank`. -/
def getVariableRank (o : VariableOrdering) (v : Variable) : Option ℕ :=
  o.vbls.findIdx? fun w => w = v

/-- `VariableOrdering_GetVariableRankByLabel`. -/
def getVariableRankByLabel (o : VariableOrdering) (label : CString) : Option ℕ :=
  o.vbls.findIdx? fun w => w.label = label

/-- The labels, in rank order. -/
def labels (o : VariableOrdering) : List CString := o.vbls.map Variable.label

/-- No two variables of the ordering share a label. -/
def DistinctLabels (o : VariableOrdering) : Prop := o.labels.Nodup

/-- Labels are non-empty and contain no space, so that blank-separated lists of
labels can be read back. -/
def SpaceFreeLabels (o : VariableOrdering) : Prop :=
  ∀ label ∈ o.labels, label ≠ [] ∧ ' ' ∉ label

/-- Every variable has at least one value; cardinality `0` is documented as the
mark of a continuous variable, for which there are no tabular potentials. -/
def Discrete (o : VariableOrdering) : Prop := ∀ v ∈ o.vbls, 0 < v.cardinality

instance (o : VariableOrdering) : Decidable o.DistinctLabels :=
  inferInstanceAs (Decidable o.labels.Nodup)

instance (o : VariableOrdering) : Decidable o.SpaceFreeLabels :=
  inferInstanceAs (Decidable (∀ label ∈ o.labels, label ≠ [] ∧ ' ' ∉ label))

instance (o : VariableOrdering) : Decidable o.Discrete :=
  inferInstanceAs (Decidable (∀ v ∈ o.vbls, 0 < v.cardinality))

theorem vbl_mem {o : VariableOrdering} {i : ℕ} (h : i < o.size) : o.vbl i ∈ o.vbls := by
  rw [vbl, List.getD_eq_getElem _ _ h]
  exact List.getElem_mem h

theorem exists_vbl_eq {o : VariableOrdering} {v : Variable} (h : v ∈ o.vbls) :
    ∃ i < o.size, o.vbl i = v := by
  obtain ⟨i, hi, rfl⟩ := List.getElem_of_mem h
  exact ⟨i, hi, List.getD_eq_getElem _ _ hi⟩

theorem DistinctLabels.nodup {o : VariableOrdering} (h : o.DistinctLabels) : o.vbls.Nodup :=
  List.Nodup.of_map _ h

theorem DistinctLabels.vbl_inj {o : VariableOrdering} (h : o.DistinctLabels) {i j : ℕ}
    (hi : i < o.size) (hj : j < o.size) (heq : o.vbl i = o.vbl j) : i = j := by
  rw [vbl, vbl, List.getD_eq_getElem _ _ hi, List.getD_eq_getElem _ _ hj] at heq
  exact (h.nodup.getElem_inj_iff).mp heq

/-- Within an ordering a variable is determined by its label. -/
theorem DistinctLabels.eq_of_label {o : VariableOrdering} (h : o.DistinctLabels)
    {v w : Variable} (hv : v ∈ o.vbls) (hw : w ∈ o.vbls) (heq : v.label = w.label) : v = w :=
  List.inj_on_of_nodup_map h hv hw heq

theorem getVariableRank_lt {o : VariableOrdering} {v : Variable} {i : ℕ}
    (h : o.getVariableRank v = some i) : i < o.size ∧ o.vbl i = v := by
  obtain ⟨hi, heq, -⟩ := List.findIdx?_eq_some_iff_getElem.mp h
  refine ⟨hi, ?_⟩
  rw [vbl, List.getD_eq_getElem _ _ hi]
  simpa using heq

theorem getVariableRankByLabel_lt {o : VariableOrdering} {label : CString} {i : ℕ}
    (h : o.getVariableRankByLabel label = some i) : i < o.size ∧ (o.vbl i).label = label := by
  obtain ⟨hi, heq, -⟩ := List.findIdx?_eq_some_iff_getElem.mp h
  refine ⟨hi, ?_⟩
  rw [vbl, List.getD_eq_getElem _ _ hi]
  simpa using heq

theorem getVariableRank_isSome {o : VariableOrdering} {v : Variable} (h : v ∈ o.vbls) :
    ∃ i, o.getVariableRank v = some i := by
  refine Option.isSome_iff_exists.mp ?_
  rw [getVariableRank, List.findIdx?_isSome, List.any_eq_true]
  exact ⟨v, h, by simp⟩

theorem getVariableRankByLabel_isSome {o : VariableOrdering} {label : CString}
    (h : label ∈ o.labels) : ∃ i, o.getVariableRankByLabel label = some i := by
  obtain ⟨v, hv, rfl⟩ := List.mem_map.mp h
  refine Option.isSome_iff_exists.mp ?_
  rw [getVariableRankByLabel, List.findIdx?_isSome, List.any_eq_true]
  exact ⟨v, hv, by simp⟩

theorem DistinctLabels.getVariableRank_vbl {o : VariableOrdering} (h : o.DistinctLabels)
    {i : ℕ} (hi : i < o.size) : o.getVariableRank (o.vbl i) = some i := by
  obtain ⟨j, hj⟩ := getVariableRank_isSome (vbl_mem hi)
  obtain ⟨hlt, heq⟩ := getVariableRank_lt hj
  rw [hj, h.vbl_inj hlt hi heq]

theorem DistinctLabels.getVariableRankByLabel_vbl {o : VariableOrdering} (h : o.DistinctLabels)
    {i : ℕ} (hi : i < o.size) : o.getVariableRankByLabel (o.vbl i).label = some i := by
  obtain ⟨k, hk⟩ := getVariableRankByLabel_isSome (List.mem_map_of_mem (vbl_mem hi))
  obtain ⟨hlt, hlabel⟩ := getVariableRankByLabel_lt hk
  rw [hk, h.vbl_inj hlt hi (h.eq_of_label (vbl_mem hlt) (vbl_mem hi) hlabel)]

end VariableOrdering

end JunctionBox
