import JunctionBox.Graph.Content
import JunctionBox.Pot.Plain

/-!
# Bayes networks

A network is a list of conditional probability tables, each with the variable it
is for and that variable's parents, and a list of observations.  The graph of
the network has the variables of the ordering as vertices and an edge from every
parent to its child.
-/

namespace JunctionBox

variable {o : VariableOrdering} {α : Type}

/-- `struct conditional_probability_table`. -/
structure CPT (o : VariableOrdering) (α : Type) where
  parents : List Variable
  tableFor : Variable
  pot : Pot o α

namespace CPT

/-- `CPT_Create_ParentList`. -/
def createParentList (parentList : List Variable) (tableFor : Variable) (pot : Pot o α) :
    CPT o α where
  parents := parentList
  tableFor := tableFor
  pot := pot

/-- `allvbls`. -/
def allvbls (this : CPT o α) : VariableSet o := this.pot.vbls

/-- The ranks of the variable the table is for and of its parents. -/
def family (this : CPT o α) : Finset ℕ :=
  {i ∈ Finset.range o.size |
    (o.vbl i).label ∈ (this.tableFor :: this.parents).map Variable.label}

end CPT

/-- `struct observation`. -/
structure Observation (o : VariableOrdering) (α : Type) where
  v : Variable
  pot : Pot o α
  value : ℤ

namespace Observation

/-- `Observation_Create` and `Observation_CreateLog`, which differ in the numbers they
write for the observed value and for the others; `none` where the source reports an
illegal value.  A value equal to the cardinality is not reported. -/
def createWith (hit miss : α) (vset : VariableSet o) (value : ℤ) : Option (Observation o α) := do
  let v ← vset.getFstVbl
  let vblSize := v.cardinality
  if value > vblSize ∨ value < 0 then none
  else
    let potVals := (List.range vblSize).map fun (i : ℕ) => if (i : ℤ) = value then hit else miss
    return ⟨v, Pot.createTabular vset potVals, value⟩

/-- `Observation_Create`. -/
def create {K : Type} [Field K] (vset : VariableSet o) (value : ℤ) : Option (Observation o K) :=
  createWith 1 0 vset value

variable {hit miss : α} {vset : VariableSet o} {i : ℕ} {value : ℤ}

/-- What an observation of the variable of rank `i` is made of. -/
theorem createWith_eq (hvars : vset.vars = {i}) : createWith hit miss vset value =
    if value > (o.vbl i).cardinality ∨ value < 0 then none
    else some ⟨o.vbl i, Pot.createTabular vset ((List.range (o.vbl i).cardinality).map
      fun (j : ℕ) => if (j : ℤ) = value then hit else miss), value⟩ := by
  have hfst : vset.getFstVbl = some (o.vbl i) := by
    rw [VariableSet.getFstVbl, VariableSet.ranks_eq_singleton hvars]
    rfl
  rw [createWith, hfst]
  rfl

theorem createWith_eq_none_iff (hvars : vset.vars = {i}) :
    createWith hit miss vset value = none ↔ value > (o.vbl i).cardinality ∨ value < 0 := by
  rw [createWith_eq hvars]
  split <;> simp_all

/-- The potential of an observation marks the assignments that have the observed value. -/
theorem represents_createWith (hvars : vset.vars = {i}) {ob : Observation o α}
    (h : createWith hit miss vset value = some ob) :
    ob.pot.vbls = vset ∧ ob.pot.Represents fun x => if (x i : ℤ) = value then hit else miss := by
  rw [createWith_eq hvars] at h
  split at h
  · exact absurd h (by simp)
  rw [← Option.some.inj h]
  have hcards : vset.getVblCardinalities = [(o.vbl i).cardinality] := by
    rw [VariableSet.getVblCardinalities, VariableSet.ranks_eq_singleton hvars, List.map_singleton]
  refine ⟨rfl, Pot.sized_createTabular ?_, fun x hx => ?_⟩
  · rw [List.length_map, List.length_range, VariableSet.getCardinality, hcards,
      List.prod_singleton]
  · have hindex : vset.index x = x i := by
      rw [VariableSet.index, hcards, VariableSet.ranks_eq_singleton hvars]
      simp [MixedRadix.encode]
    have hi : i ∈ vset.vars := hvars ▸ Finset.mem_singleton_self i
    have hlt : x i < (o.vbl i).cardinality := VariableOrdering.mem_dom.mp (hx i hi)
    show ((List.range (o.vbl i).cardinality).map _)[vset.index x]? = _
    rw [hindex, List.getElem?_map, List.getElem?_range hlt, Option.map_some]

end Observation

/-- `struct bayes_net`, as the `BNet_Create` functions leave it; what `BNet_BuildElimTree`
adds is an `ElimTree`, and what `BNet_InitializePotentials` adds a state of its own. -/
structure BNet (o : VariableOrdering) (α : Type) where
  tables : List (CPT o α)
  obs : List (Observation o α)
  initialGraph : Graph

namespace BNet

/-- The loop of the `BNet_Create` functions that adds the edges of one table. -/
def addParents (g : Graph) (curTab : CPT o α) : Option Graph :=
  curTab.parents.foldlM (fun (g : Graph) parent => g.addEdge parent.label curTab.tableFor.label) g

/-- The graph that the `BNet_Create` functions set up. -/
def createGraph (tables : List (CPT o α)) : Option Graph :=
  tables.foldlM addParents
    (o.vbls.foldl (fun (g : Graph) v => g.addVertex v.label) (Graph.create "BNet".toList true))

/-- `BNet_Create_List`. -/
def createList (tables : List (CPT o α)) : Option (BNet o α) :=
  (createGraph tables).map fun g => ⟨tables, [], g⟩

/-- `BNet_Create_List2`. -/
def createList2 (tables : List (CPT o α)) (obs : List (Observation o α)) : Option (BNet o α) :=
  (createGraph tables).map fun g => ⟨tables, obs, g⟩

/-- The labels of parents and children. -/
def parentPairs (tables : List (CPT o α)) : List (CString × CString) :=
  tables.flatMap fun t => t.parents.map fun parent => (parent.label, t.tableFor.label)

/-- `this` comes out of `BNet_Create_List` or `BNet_Create_List2`. -/
def Created (this : BNet o α) : Prop :=
  createList this.tables = some this ∨ createList2 this.tables this.obs = some this

/-- No variable is its own ancestor. -/
def Acyclic (this : BNet o α) : Prop :=
  ∃ depth : CString → ℕ, ∀ p ∈ parentPairs this.tables, depth p.1 < depth p.2

theorem mem_parentPairs {tables : List (CPT o α)} {p : CString × CString} :
    p ∈ parentPairs tables ↔
      ∃ t ∈ tables, ∃ parent ∈ t.parents, (parent.label, t.tableFor.label) = p := by
  simp only [parentPairs, List.mem_flatMap, List.mem_map]

theorem Created.createGraph {this : BNet o α} (h : this.Created) :
    createGraph this.tables = some this.initialGraph := by
  have hmap : ∀ {obs : List (Observation o α)},
      (BNet.createGraph this.tables).map (fun g => (⟨this.tables, obs, g⟩ : BNet o α)) =
        some this → BNet.createGraph this.tables = some this.initialGraph := by
    intro obs heq
    obtain ⟨g, hg, hthis⟩ := Option.map_eq_some_iff.mp heq
    rw [hg, ← hthis]
  rcases h with h | h
  · exact hmap h
  · exact hmap h

theorem consists_vertices (vbls : List Variable) {g : Graph} {V : Set CString}
    {E : Set (CString × CString)} (h : g.Consists V E) :
    (vbls.foldl (fun (g : Graph) v => g.addVertex v.label) g).Consists
      ({l | l ∈ vbls.map Variable.label} ∪ V) E := by
  induction vbls generalizing g V with
  | nil => exact ⟨fun l => by rw [List.foldl_nil, h.vertices]; simp, h.edges⟩
  | cons v vbls ih =>
      have hrest := ih (h.addVertex v.label)
      refine ⟨fun l => ?_, hrest.edges⟩
      rw [List.foldl_cons, hrest.vertices, List.map_cons]
      simp only [Set.mem_union, Set.mem_insert_iff, Set.mem_ofPred_eq, List.mem_cons]
      tauto

/-- The edges of one table after those of another. -/
theorem foldlM_addParents (tables : List (CPT o α)) (g : Graph) :
    tables.foldlM addParents g =
      (parentPairs tables).foldlM (fun (g : Graph) p => g.addEdge p.1 p.2) g := by
  induction tables generalizing g with
  | nil => rfl
  | cons t tables ih =>
      have hpairs : parentPairs (t :: tables) =
          (t.parents.map fun parent => (parent.label, t.tableFor.label)) ++
            parentPairs tables := List.flatMap_cons
      rw [List.foldlM_cons, hpairs, List.foldlM_append, List.foldlM_map]
      exact congrArg _ (funext ih)

theorem createGraph_eq (tables : List (CPT o α)) :
    createGraph tables = (parentPairs tables).foldlM (fun (g : Graph) p => g.addEdge p.1 p.2)
      (o.vbls.foldl (fun (g : Graph) v => g.addVertex v.label) (Graph.create "BNet".toList true)) :=
  foldlM_addParents tables _

/-- Before the edges, the graph has the variables of the ordering. -/
theorem consists_variables (o : VariableOrdering) :
    (o.vbls.foldl (fun (g : Graph) v => g.addVertex v.label)
      (Graph.create "BNet".toList true)).Consists {l | l ∈ o.labels} ∅ := by
  have hstart := consists_vertices o.vbls (Graph.consists_create "BNet".toList true)
  rw [Set.union_empty] at hstart
  exact hstart

/-- **The graph of a network.** -/
theorem Created.consists {this : BNet o α} (h : this.Created) (hspace : o.SpaceFreeLabels) :
    this.initialGraph.Consists {l | l ∈ o.labels} {p | p ∈ parentPairs this.tables} := by
  have hrun := h.createGraph
  rw [createGraph_eq] at hrun
  obtain ⟨-, hcons⟩ := (consists_variables o).of_addEdges (fun l hl => (hspace l hl).2) hrun
  rw [Set.union_empty] at hcons
  exact hcons

/-- Tables over the variables of the ordering make a network. -/
theorem exists_createGraph {tables : List (CPT o α)}
    (h : ∀ p ∈ parentPairs tables, p.1 ∈ o.labels ∧ p.2 ∈ o.labels) :
    ∃ g, BNet.createGraph tables = some g := by
  have hstart := consists_variables o
  rw [createGraph_eq]
  apply Graph.exists_addEdges_iff.mpr
  intro p hp
  exact ⟨(hstart.vertices _).mpr (h p hp).1, (hstart.vertices _).mpr (h p hp).2⟩

theorem Created.mem_labels {this : BNet o α} (h : this.Created) {l : CString} :
    l ∈ this.initialGraph.labels ↔ l ∈ o.labels := by
  have hrun := h.createGraph
  rw [createGraph_eq] at hrun
  rw [Graph.labels_addEdges hrun, (consists_variables o).vertices]
  rfl

end BNet

end JunctionBox
