import JunctionBox.Graph.Iteration
import JunctionBox.Pot.VariableSet

/-!
# Vertex orderings and elimination sets

An elimination set is a set of variables, kept as a bit vector over the ranks of
the variable ordering.  The vertices of an elimination tree are named by
`ElimSet_GetLabel`, the labels of the variables with a blank after each; with
non-empty labels that contain no blank the name determines the set
(`label_inj`), and two names with a blank between them can be told apart again
(`uniqueKeys_getLabel`), so that edges of the tree are never confused.

The loop of `ElimSet_GetVertexList` runs while `i > size`, starting from `i = 0`.
-/

namespace JunctionBox

/-- `VertexOrdering`: vertices from lowest to highest, by their labels. -/
structure VertexOrdering where
  vertices : List CString
deriving DecidableEq

namespace VertexOrdering

/-- `o->size`. -/
abbrev size (o : VertexOrdering) : ℕ := o.vertices.length

/-- `VertexOrdering_GetVertexRank`; the vertices of one graph are their labels. -/
def getVertexRank (this : VertexOrdering) (v : CString) : Option ℕ :=
  this.vertices.findIdx? fun w => w = v

/-- `VertexOrdering_GetVertexRankByLabel`, `-1` for a label that is not there. -/
def getVertexRankByLabel (this : VertexOrdering) (c : CString) : ℤ :=
  match this.vertices.findIdx? fun w => w = c with
  | some ret => ret
  | none => -1

/-- `defaultVertexOrdering`. -/
def default (g : Graph) : VertexOrdering := ⟨g.vertexLoop.map Vertex.label⟩

/-- In an ordering without repetitions a vertex has its position as rank. -/
theorem getVertexRankByLabel_eq {this : VertexOrdering} (h : this.vertices.Nodup) {i : ℕ}
    {v : CString} (hi : this.vertices[i]? = some v) : this.getVertexRankByLabel v = i := by
  obtain ⟨hlt, rfl⟩ := List.getElem?_eq_some_iff.mp hi
  have hfind : this.vertices.findIdx? (fun w => w = this.vertices[i]) = some i := by
    rw [List.findIdx?_eq_some_iff_getElem]
    refine ⟨hlt, by simp, fun j hj => ?_⟩
    simpa using fun heq => hj.ne (h.getElem_inj_iff.mp heq)
  unfold getVertexRankByLabel
  rw [hfind]

theorem vertices_default (g : Graph) : (default g).vertices = g.labels :=
  g.map_label_vertexLoop

end VertexOrdering

/-- `ElimSet`; the ordering it points at is `o`. -/
structure ElimSet (o : VariableOrdering) where
  bv : BitVector o.size
deriving DecidableEq

namespace ElimSet

variable {o : VariableOrdering}

/-- `ElimSet_Create`. -/
def create (o : VariableOrdering) : ElimSet o := ⟨BitVector.create o.size false⟩

/-- `ElimSet_GetLabel`. -/
def getLabel (this : ElimSet o) : CString :=
  this.bv.onIndices.flatMap fun i => (o.vbl i).label ++ [' ']

/-- `ElimSet_Add`. -/
def add (this : ElimSet o) (v : CString) : ElimSet o :=
  match o.getVariableRankByLabel v with
  | some indx => ⟨this.bv.setBitOn indx⟩
  | none => this

/-- `for(; i > BitVector_GetSize(this->bv); i++)` in `ElimSet_GetVertexList`, at most
`rounds` rounds of it. -/
def getVertexListFrom (this : ElimSet o) (g : Graph) :
    ℕ → ℕ → List CString → Option (List CString)
  | 0, _, ret => some ret
  | rounds + 1, i, ret =>
      if i > o.size then
        if this.bv.on i then do
          let v ← g.getVertex (o.vbl i).label
          this.getVertexListFrom g rounds (i + 1) (ret ++ [v.label])
        else this.getVertexListFrom g rounds (i + 1) ret
      else some ret

/-- `ElimSet_GetVertexList`. -/
def getVertexList (this : ElimSet o) (g : Graph) : Option (List CString) :=
  this.getVertexListFrom g (o.size + 1) 0 []

/-- `ElimSet_Contains`: does `this` contain `other`? -/
def contains (this other : ElimSet o) : Bool :=
  other.bv.equals (this.bv.and other.bv)

/-- `ElimSet_Intersect`. -/
def intersect (this other : ElimSet o) : ElimSet o := ⟨this.bv.and other.bv⟩

/-- `VariableSet_CreateFromBv(o, elim_set->bv)`. -/
def toVariableSet (this : ElimSet o) : VariableSet o := VariableSet.createFromBv this.bv

/-- The ranks of the variables in the set. -/
def vars (this : ElimSet o) : Finset ℕ := this.toVariableSet.vars

/-- The loop of `ElimSet_GetVertexList` is never entered. -/
theorem getVertexList_eq_nil (this : ElimSet o) (g : Graph) : this.getVertexList g = some [] := by
  unfold getVertexList getVertexListFrom
  exact if_neg (Nat.not_lt_zero _)

theorem mem_vars {this : ElimSet o} {i : ℕ} :
    i ∈ this.vars ↔ i < o.size ∧ this.bv.on i = true := VariableSet.mem_vars

theorem lt_size_of_mem_vars {this : ElimSet o} {i : ℕ} (h : i ∈ this.vars) : i < o.size :=
  (mem_vars.mp h).1

theorem vars_create : (create o).vars = ∅ := VariableSet.vars_create

theorem vars_add (this : ElimSet o) {v : CString} {indx : ℕ}
    (h : o.getVariableRankByLabel v = some indx) : (this.add v).vars = insert indx this.vars := by
  have hindx := (VariableOrdering.getVariableRankByLabel_lt h).1
  ext i
  rw [add, h, Finset.mem_insert, mem_vars, mem_vars]
  simp only
  rw [BitVector.on_setBitOn _ hindx, Bool.or_eq_true, decide_eq_true_eq, eq_comm (a := i)]
  by_cases heq : indx = i
  · simp [heq, heq ▸ hindx]
  · simp [heq]

theorem contains_iff (this other : ElimSet o) :
    this.contains other = true ↔ other.vars ⊆ this.vars := by
  unfold vars
  rw [← VariableSet.containedIn_iff]
  unfold contains VariableSet.containedIn
  rw [BitVector.equals_iff, BitVector.equals_iff]
  refine forall₂_congr fun i hi => ?_
  rw [BitVector.on_and _ _ hi, BitVector.on_and _ _ hi, Bool.and_comm]
  rfl

theorem vars_intersect (this other : ElimSet o) :
    (this.intersect other).vars = this.vars ∩ other.vars := by
  ext i
  rw [Finset.mem_inter, mem_vars, mem_vars, mem_vars, intersect]
  by_cases hi : i < o.size
  · simp [hi]
  · simp [hi]

/-! ## Names -/

/-- The labels of the variables in the set. -/
def words (this : ElimSet o) : List CString := this.bv.onIndices.map fun i => (o.vbl i).label

/-- A blank after every word. -/
def spell (words : List CString) : CString := words.flatMap fun w => w ++ [' ']

theorem getLabel_eq_spell (this : ElimSet o) : this.getLabel = spell this.words := by
  rw [getLabel, spell, words, List.flatMap_map]

theorem mem_words {this : ElimSet o} (ho : o.SpaceFreeLabels) {w : CString}
    (hw : w ∈ this.words) : w ≠ [] ∧ ' ' ∉ w := by
  obtain ⟨i, hi, rfl⟩ := List.mem_map.mp hw
  apply ho
  exact List.mem_map_of_mem (VariableOrdering.vbl_mem (BitVector.mem_onIndices.mp hi).1)

theorem spell_cons (w : CString) (ws : List CString) : spell (w :: ws) = w ++ ' ' :: spell ws := by
  unfold spell
  rw [List.flatMap_cons, List.append_assoc, List.singleton_append]

/-- A spelled list followed by a blank can be read back: where a word should start there
is a blank. -/
theorem spell_append_inj {ws us : List CString} {l r : CString}
    (hws : ∀ w ∈ ws, w ≠ [] ∧ ' ' ∉ w) (hus : ∀ u ∈ us, u ≠ [] ∧ ' ' ∉ u)
    (h : spell ws ++ ' ' :: l = spell us ++ ' ' :: r) : ws = us ∧ l = r := by
  -- a word cannot start with a blank
  have hclash : ∀ {w : CString} {ws : List CString} {l r : CString}, w ≠ [] → ' ' ∉ w →
      ' ' :: r ≠ spell (w :: ws) ++ ' ' :: l := by
    intro w ws l r hne hspace heq
    rcases w with _ | ⟨c, w⟩
    · exact hne rfl
    · rw [spell_cons] at heq
      exact hspace ((List.cons.inj heq).1 ▸ List.mem_cons_self ..)
  induction ws generalizing us with
  | nil =>
      cases us with
      | nil => exact ⟨rfl, (List.cons.inj h).2⟩
      | cons u us =>
          have hu := hus u (List.mem_cons_self ..)
          exact absurd h (hclash hu.1 hu.2)
  | cons w ws ih =>
      have hw := hws w (List.mem_cons_self ..)
      cases us with
      | nil => exact absurd h.symm (hclash hw.1 hw.2)
      | cons u us =>
          have hu := hus u (List.mem_cons_self ..)
          rw [spell_cons, spell_cons, List.append_assoc, List.append_assoc, List.cons_append,
            List.cons_append] at h
          obtain ⟨rfl, hrest⟩ := Graph.append_space_inj hw.2 hu.2 h
          obtain ⟨rfl, hlr⟩ := ih (fun w hw => hws w (List.mem_cons_of_mem _ hw))
            (fun u hu => hus u (List.mem_cons_of_mem _ hu)) hrest
          exact ⟨rfl, hlr⟩

theorem spell_inj {ws us : List CString} (hws : ∀ w ∈ ws, w ≠ [] ∧ ' ' ∉ w)
    (hus : ∀ u ∈ us, u ≠ [] ∧ ' ' ∉ u) (h : spell ws = spell us) : ws = us := by
  have happend : spell ws ++ ' ' :: [] = spell us ++ ' ' :: [] := by rw [h]
  exact (spell_append_inj hws hus happend).1

/-- Sets of the same variables have the same name. -/
theorem getLabel_congr {this other : ElimSet o} (h : this.vars = other.vars) :
    this.getLabel = other.getLabel := by
  have hranks : this.bv.onIndices = other.bv.onIndices := VariableSet.ranks_eq_of_vars_eq h
  rw [getLabel, getLabel, hranks]

/-- Sets of the same name contain the same variables. -/
theorem label_inj (hdistinct : o.DistinctLabels) (hspace : o.SpaceFreeLabels)
    {this other : ElimSet o} (h : this.getLabel = other.getLabel) : this.vars = other.vars := by
  rw [getLabel_eq_spell, getLabel_eq_spell] at h
  have hwords := spell_inj (fun w hw => mem_words hspace hw) (fun w hw => mem_words hspace hw) h
  have hsub : ∀ {s t : ElimSet o}, s.words = t.words → s.vars ⊆ t.vars := by
    intro s t hst i hi
    have hword : (o.vbl i).label ∈ s.words :=
      List.mem_map_of_mem (BitVector.mem_onIndices.mpr (mem_vars.mp hi))
    rw [hst] at hword
    obtain ⟨j, hj, hlabel⟩ := List.mem_map.mp hword
    have hj' := BitVector.mem_onIndices.mp hj
    have hvbl := hdistinct.eq_of_label (VariableOrdering.vbl_mem hj'.1)
      (VariableOrdering.vbl_mem (lt_size_of_mem_vars hi)) hlabel
    rw [← hdistinct.vbl_inj hj'.1 (lt_size_of_mem_vars hi) hvbl]
    exact mem_vars.mpr hj'
  exact (hsub hwords).antisymm (hsub hwords.symm)

/-- The names of elimination sets make unambiguous edge keys. -/
theorem uniqueKeys_getLabel (hspace : o.SpaceFreeLabels) {labels : List CString}
    (h : ∀ l ∈ labels, ∃ s : ElimSet o, s.getLabel = l) : Graph.UniqueKeys labels := by
  intro a ha b _ c hc d _ hkey
  obtain ⟨s, rfl⟩ := h a ha
  obtain ⟨t, rfl⟩ := h c hc
  rw [srcsink, srcsink, getLabel_eq_spell, getLabel_eq_spell] at hkey
  obtain ⟨hwords, htail⟩ := spell_append_inj (fun w hw => mem_words hspace hw)
    (fun w hw => mem_words hspace hw) hkey
  exact ⟨by rw [getLabel_eq_spell, getLabel_eq_spell, hwords], htail⟩

end ElimSet

end JunctionBox
