import JunctionBox.Inference.Potentials

/-!
# The constructors of a network

`BNet_Create`, `BNet_Create_List` and `BNet_Create_List2` fill a struct that
comes from `jballoc` with whatever the memory held before, and so do the two
constructors of a table.  Two fields are left out on the way: `BNet_Create` does
not write `numObs`, and `CPT_Create_ParentList` does not write `numParents` when
the list is `NULL`.

The structs of this module have these fields.  A pointer that nothing has set is
`none`, and following it ends the run; a number that nothing has set is the word
that was in its place, which the functions take as a parameter.  `constructorsAgree_iff`
says for which words and tables the three constructors make the same network.
-/

namespace JunctionBox.Raw

variable {o : VariableOrdering} {α : Type}

/-- `struct conditional_probability_table`. -/
structure CPT (o : VariableOrdering) (α : Type) where
  parents : Option (List Variable)
  numParents : ℤ
  tableFor : Variable
  pot : Pot o α

namespace CPT

/-- `CPT_Create`. -/
def create (parents : Option (List Variable)) (numParents : ℤ) (tableFor : Variable)
    (pot : Pot o α) : CPT o α := ⟨parents, numParents, tableFor, pot⟩

/-- `CPT_Create_ParentList`; `memory` is the word in the place of `numParents`. -/
def createParentList (memory : ℤ) (parentList : Option (List Variable)) (tableFor : Variable)
    (pot : Pot o α) : CPT o α :=
  match parentList with
  | some parentList => ⟨some parentList, parentList.length, tableFor, pot⟩
  | none => ⟨none, memory, tableFor, pot⟩

/-- `CPT_GetIthParent`. -/
def getIthParent (this : CPT o α) (i : ℕ) : Option Variable := do (← this.parents)[i]?

end CPT

/-- `struct bayes_net`, without what `BNet_BuildElimTree` and the functions after it add. -/
structure BNet (o : VariableOrdering) (α : Type) where
  tables : List (CPT o α)
  obs : Option (List (Observation o α))
  numObs : ℤ
  initialGraph : Graph

namespace BNet

/-- The edges from the parents of one table. -/
def addParents (g : Graph) (curTab : CPT o α) : Option Graph :=
  (List.range curTab.numParents.toNat).foldlM (fun (g : Graph) j => do
    let parent ← curTab.getIthParent j
    g.addEdge parent.label curTab.tableFor.label) g

/-- The graph of the variables, without edges. -/
def variableGraph (o : VariableOrdering) : Graph :=
  o.vbls.foldl (fun (g : Graph) v => g.addVertex v.label) (Graph.create "BNet".toList true)

/-- `BNet_Create`; `memory` is the word in the place of `numObs`. -/
def create (memory : ℤ) (tables : List (CPT o α)) : Option (BNet o α) := do
  let g ← tables.foldlM addParents (variableGraph o)
  return ⟨tables, none, memory, g⟩

/-- `BNet_Create_List`. -/
def createList (tables : List (CPT o α)) : Option (BNet o α) := do
  let g ← tables.foldlM addParents (variableGraph o)
  return ⟨tables, none, 0, g⟩

/-- `BNet_Create_List2`. -/
def createList2 (tables : List (CPT o α)) (obs : List (Observation o α)) :
    Option (BNet o α) := do
  let g ← tables.foldlM addParents (variableGraph o)
  return ⟨tables, some obs, obs.length, g⟩

/-- `BNet_InitializePotentials`. -/
def initializePotentialsWith (A : Arith α) (this : BNet o α) (t : ElimTree o)
    (state : Potentials o α) : Option (Potentials o α) := do
  let state := state.createAll A t
  let state ← this.tables.foldlM (fun state curTable => state.multiplyIn A t curTable.pot) state
  (List.range this.numObs.toNat).foldlM (fun state (i : ℕ) => do
    let curObs ← (← this.obs)[i]?
    state.multiplyIn A t curObs.pot) state

end BNet

/-- How a table is made: `CPT_Create` from an array, `NULL` for no parents, or
`CPT_Create_ParentList` from a list. -/
inductive Call (o : VariableOrdering) (α : Type) where
  | array (parents : Option (List Variable)) (tableFor : Variable) (pot : Pot o α)
  | parentList (memory : ℤ) (parents : Option (List Variable)) (tableFor : Variable)
      (pot : Pot o α)

namespace Call

/-- The parents that are listed. -/
def parents : Call o α → List Variable
  | array parents _ _ => parents.getD []
  | parentList _ parents _ _ => parents.getD []

def tableFor : Call o α → Variable
  | array _ tableFor _ => tableFor
  | parentList _ _ tableFor _ => tableFor

def pot : Call o α → Pot o α
  | array _ _ pot => pot
  | parentList _ _ _ pot => pot

/-- The table that the call returns. -/
def make : Call o α → CPT o α
  | array parents tableFor pot => CPT.create parents (parents.getD []).length tableFor pot
  | parentList memory parents tableFor pot =>
      CPT.createParentList memory parents tableFor pot

/-- The table of the model. -/
def toCPT (c : Call o α) : JunctionBox.CPT o α :=
  JunctionBox.CPT.createParentList c.parents c.tableFor c.pot

/-- The word that is taken for the number of parents of a `NULL` list is not positive. -/
def CountsNone : Call o α → Prop
  | parentList memory none _ _ => memory ≤ 0
  | _ => True

/-- The labels of the listed parents and of the variable they are listed for. -/
def pairs (calls : List (Call o α)) : List (CString × CString) :=
  calls.flatMap fun c => c.parents.map fun parent => (parent.label, c.tableFor.label)

end Call

/-- The network has the tables, no observation, one vertex for every variable, and an edge from
every listed parent. -/
structure Holds (calls : List (Call o α)) (this : BNet o α) : Prop where
  tables : this.tables = calls.map Call.make
  numObs : this.numObs = 0
  vertices : this.initialGraph.labels.Perm o.labels
  edges : ∀ p c, Edge.create p c ∈ this.initialGraph.edgeList ↔ (p, c) ∈ Call.pairs calls

/-- All three constructors make the network, and its potentials are initialised alike. -/
def ConstructorsAgree (memory : ℤ) (calls : List (Call o α)) : Prop :=
  ∃ fst scnd thrd, BNet.create memory (calls.map Call.make) = some fst ∧
    BNet.createList (calls.map Call.make) = some scnd ∧
    BNet.createList2 (calls.map Call.make) [] = some thrd ∧
    Holds calls fst ∧ Holds calls scnd ∧ Holds calls thrd ∧
    ∀ (A : Arith α) (t : ElimTree o) (state : Potentials o α),
      fst.initializePotentialsWith A t state = thrd.initializePotentialsWith A t state ∧
        scnd.initializePotentialsWith A t state = thrd.initializePotentialsWith A t state

/-! ## The graph -/

section Graph

/-- What adding edges leaves: the edges there were, some of those asked for, and an edge for
every key. -/
structure Added (new : List (CString × CString)) (g g' : Graph) : Prop where
  labels : g'.labels = g.labels
  old : ∀ e ∈ g.edgeList, e ∈ g'.edgeList
  mem : ∀ e ∈ g'.edgeList, e ∈ g.edgeList ∨ (e.src, e.sink) ∈ new
  key : ∀ p ∈ new, ∃ e ∈ g'.edgeList, e.srcSink = srcsink p.1 p.2

theorem added_one {g g' : Graph} {p : CString × CString} (h : g.addEdge p.1 p.2 = some g') :
    Added [p] g g' := by
  have hlist := Graph.edgeList_addEdge h
  refine ⟨Graph.labels_addEdge h, fun e he => ?_, fun e he => ?_, fun q hq => ?_⟩
  · rw [hlist]
    split
    · exact he
    · exact List.mem_cons_of_mem _ he
  · rw [hlist] at he
    split at he
    · exact Or.inl he
    · rcases List.mem_cons.mp he with rfl | he
      · exact Or.inr (List.mem_singleton_self _)
      · exact Or.inl he
  · rw [List.mem_singleton.mp hq, hlist]
    split
    · next hkey => exact Graph.mem_edges_keys_iff.mp hkey
    · exact ⟨_, List.mem_cons_self .., rfl⟩

theorem added {new : List (CString × CString)} {g g' : Graph}
    (h : new.foldlM (fun (g : Graph) p => g.addEdge p.1 p.2) g = some g') : Added new g g' := by
  induction new generalizing g with
  | nil =>
      rw [← Option.some.inj h]
      exact ⟨rfl, fun _ he => he, fun _ he => Or.inl he, fun p hp => absurd hp List.not_mem_nil⟩
  | cons p new ih =>
      rw [List.foldlM_cons] at h
      obtain ⟨mid, hmid, hrest⟩ := Option.bind_eq_some_iff.mp h
      have hone := added_one hmid
      have hmore := ih hrest
      refine ⟨hmore.labels.trans hone.labels, fun e he => hmore.old e (hone.old e he),
        fun e he => ?_, fun q hq => ?_⟩
      · rcases hmore.mem e he with he | he
        · rcases hone.mem e he with he | he
          · exact Or.inl he
          · exact Or.inr (List.mem_cons.mpr (Or.inl (List.mem_singleton.mp he)))
        · exact Or.inr (List.mem_cons_of_mem _ he)
      · rcases List.mem_cons.mp hq with rfl | hq
        · obtain ⟨e, he, hkey⟩ := hone.key q (List.mem_singleton_self _)
          exact ⟨e, hmore.old e he, hkey⟩
        · exact hmore.key q hq

/-- Starting without edges, exactly the edges asked for are there if and only if their keys
tell them apart. -/
theorem Added.edges_iff {new : List (CString × CString)} {g g' : Graph} (h : Added new g g')
    (hg : g.edgeList = []) :
    (∀ p c, Edge.create p c ∈ g'.edgeList ↔ (p, c) ∈ new) ↔
      ∀ p ∈ new, ∀ q ∈ new, srcsink p.1 p.2 = srcsink q.1 q.2 → p = q := by
  constructor
  · intro hedges p hp q hq hkey
    have hp' := (hedges p.1 p.2).mpr hp
    have hq' := (hedges q.1 q.2).mpr hq
    have heq := Graph.eq_of_srcSink_eq hp' hq' hkey
    exact Prod.ext (congrArg Edge.src heq) (congrArg Edge.sink heq)
  · intro hinj p c
    have hmem : ∀ e ∈ g'.edgeList, (e.src, e.sink) ∈ new := by
      intro e he
      refine (h.mem e he).resolve_left fun hold => ?_
      rw [hg] at hold
      exact List.not_mem_nil hold
    constructor
    · exact hmem _
    · intro hp
      obtain ⟨e, he, hkey⟩ := h.key _ hp
      have hcreate := Graph.eq_create_of_mem he
      have hpair := hinj _ (hmem e he) _ hp ((congrArg Edge.srcSink hcreate).symm.trans hkey)
      obtain ⟨hsrc, hsink⟩ := Prod.mk.injEq .. ▸ hpair
      rwa [hcreate, hsrc, hsink] at he

end Graph

namespace BNet

theorem mem_labels_variableGraph {l : CString} : l ∈ (variableGraph o).labels ↔ l ∈ o.labels := by
  rw [variableGraph, (JunctionBox.BNet.consists_variables o).vertices]
  rfl

theorem edgeList_variableGraph : (variableGraph o).edgeList = [] := by
  rw [List.eq_nil_iff_forall_not_mem]
  intro e he
  rw [variableGraph, Graph.eq_create_of_mem he] at he
  exact ((JunctionBox.BNet.consists_variables o).edges _ _).mp he

/-- The edges of one table, as the loop adds them. -/
theorem addParents_make (g g' : Graph) (c : Call o α) : addParents g c.make = some g' ↔
    c.CountsNone ∧ (c.parents.map fun parent => (parent.label, c.tableFor.label)).foldlM
      (fun (g : Graph) p => g.addEdge p.1 p.2) g = some g' := by
  -- a table whose pointer leads to the listed parents
  have hlist : ∀ (l : List Variable) (tableFor : Variable) (pot : Pot o α),
      addParents g ⟨some l, l.length, tableFor, pot⟩ =
        (l.map fun parent => (parent.label, tableFor.label)).foldlM
          (fun (g : Graph) p => g.addEdge p.1 p.2) g := by
    intro l tableFor pot
    have hrange := PartialLoops.foldlM_range
      (f := fun (g : Graph) (parent : Variable) => g.addEdge parent.label tableFor.label) l g
    rw [List.foldlM_map, ← hrange]
    rfl
  cases c with
  | array parents tableFor pot =>
      cases parents with
      | none => exact ⟨fun h => ⟨trivial, h⟩, And.right⟩
      | some l =>
          rw [show (Call.array (some l) tableFor pot).make = ⟨some l, l.length, tableFor, pot⟩ from
            rfl, hlist]
          exact ⟨fun h => ⟨trivial, h⟩, And.right⟩
  | parentList memory parents tableFor pot =>
      cases parents with
      | some l =>
          rw [show (Call.parentList memory (some l) tableFor pot).make =
            ⟨some l, l.length, tableFor, pot⟩ from rfl, hlist]
          exact ⟨fun h => ⟨trivial, h⟩, And.right⟩
      | none =>
          show addParents g ⟨none, memory, tableFor, pot⟩ = some g' ↔ memory ≤ 0 ∧ some g = some g'
          unfold addParents
          by_cases hmemory : memory ≤ 0
          · rw [Int.toNat_of_nonpos hmemory]
            exact ⟨fun h => ⟨hmemory, h⟩, And.right⟩
          · obtain ⟨n, hn⟩ : ∃ n, memory.toNat = n + 1 := ⟨memory.toNat - 1, by omega⟩
            rw [hn, List.range_succ_eq_map, List.foldlM_cons]
            exact ⟨fun h => absurd h (by simp [CPT.getIthParent]), fun h => absurd h.1 hmemory⟩

theorem foldlM_addParents_make (calls : List (Call o α)) (g g' : Graph) :
    (calls.map Call.make).foldlM addParents g = some g' ↔ (∀ c ∈ calls, c.CountsNone) ∧
      (Call.pairs calls).foldlM (fun (g : Graph) p => g.addEdge p.1 p.2) g = some g' := by
  induction calls generalizing g with
  | nil => exact ⟨fun h => ⟨fun c hc => absurd hc List.not_mem_nil, h⟩, And.right⟩
  | cons c calls ih =>
      have hpairs : Call.pairs (c :: calls) =
          (c.parents.map fun parent => (parent.label, c.tableFor.label)) ++ Call.pairs calls :=
        List.flatMap_cons
      rw [List.map_cons, List.foldlM_cons, hpairs, PartialLoops.foldlM_append, List.forall_mem_cons,
        Option.bind_eq_bind, Option.bind_eq_some_iff, Option.bind_eq_some_iff]
      simp only [addParents_make, ih]
      constructor
      · rintro ⟨mid, ⟨hc, hmid⟩, hcalls, hrest⟩
        exact ⟨⟨hc, hcalls⟩, mid, hmid, hrest⟩
      · rintro ⟨⟨hc, hcalls⟩, mid, hmid, hrest⟩
        exact ⟨mid, ⟨hc, hmid⟩, hcalls, hrest⟩

/-- The graph is that of the network of the model. -/
theorem foldlM_addParents_eq_createGraph {calls : List (Call o α)}
    (h : ∀ c ∈ calls, c.CountsNone) :
    (calls.map Call.make).foldlM addParents (variableGraph o) =
      JunctionBox.BNet.createGraph (calls.map Call.toCPT) := by
  have hpairs : JunctionBox.BNet.parentPairs (calls.map Call.toCPT) = Call.pairs calls :=
    List.flatMap_map ..
  apply Option.ext
  intro g
  rw [foldlM_addParents_make, and_iff_right h, JunctionBox.BNet.createGraph_eq, hpairs]
  rfl

theorem of_create {memory : ℤ} {tables : List (CPT o α)} {this : BNet o α}
    (h : create memory tables = some this) :
    tables.foldlM addParents (variableGraph o) = some this.initialGraph ∧ this.numObs = memory := by
  obtain ⟨g, hg, hnet⟩ := Option.bind_eq_some_iff.mp h
  rw [← Option.some.inj hnet]
  exact ⟨hg, rfl⟩

/-- Without observations only the tables matter. -/
theorem initializePotentialsWith_congr (A : Arith α) {this other : BNet o α}
    (htables : this.tables = other.tables) (hthis : this.numObs = 0) (hother : other.numObs = 0)
    (t : ElimTree o) (state : Potentials o α) :
    this.initializePotentialsWith A t state = other.initializePotentialsWith A t state := by
  unfold initializePotentialsWith
  rw [htables, hthis, hother]
  rfl

end BNet

/-- The three constructors agree if and only if the word taken for `numObs` is zero, those taken
for the number of parents of a `NULL` list are not positive, the parents and their children are
variables of the ordering, and no two listed pairs have one key. -/
theorem constructorsAgree_iff (hdistinct : o.DistinctLabels) (memory : ℤ)
    (calls : List (Call o α)) :
    ConstructorsAgree memory calls ↔ memory = 0 ∧ (∀ c ∈ calls, c.CountsNone) ∧
      (∀ p ∈ Call.pairs calls, p.1 ∈ o.labels ∧ p.2 ∈ o.labels) ∧
      ∀ p ∈ Call.pairs calls, ∀ q ∈ Call.pairs calls,
        srcsink p.1 p.2 = srcsink q.1 q.2 → p = q := by
  have hends : (∀ p ∈ Call.pairs calls, p.1 ∈ o.labels ∧ p.2 ∈ o.labels) ↔
      ∃ g, (Call.pairs calls).foldlM (fun (g : Graph) p => g.addEdge p.1 p.2)
        (BNet.variableGraph o) = some g := by
    rw [Graph.exists_addEdges_iff]
    simp only [BNet.mem_labels_variableGraph]
  constructor
  · rintro ⟨fst, scnd, thrd, hfst, hscnd, -, hfstHolds, hscndHolds, -, -⟩
    obtain ⟨hg, hnumObs⟩ := BNet.of_create hfst
    obtain ⟨hcounts, hrun⟩ := (BNet.foldlM_addParents_make calls _ _).mp hg
    have hedges := ((added hrun).edges_iff BNet.edgeList_variableGraph).mp hfstHolds.edges
    exact ⟨hnumObs.symm.trans hfstHolds.numObs, hcounts, hends.mpr ⟨_, hrun⟩, hedges⟩
  · rintro ⟨rfl, hcounts, hpairs, hkeys⟩
    obtain ⟨g, hrun⟩ := hends.mp hpairs
    have hg := (BNet.foldlM_addParents_make calls _ g).mpr ⟨hcounts, hrun⟩
    have hadded := added hrun
    have hvertices : g.labels.Perm o.labels := by
      rw [List.perm_ext_iff_of_nodup g.labels_nodup hdistinct]
      intro l
      rw [hadded.labels, BNet.mem_labels_variableGraph]
    have hedges := (hadded.edges_iff BNet.edgeList_variableGraph).mpr hkeys
    refine ⟨⟨calls.map Call.make, none, 0, g⟩, ⟨calls.map Call.make, none, 0, g⟩,
      ⟨calls.map Call.make, some [], 0, g⟩, ?_, ?_, ?_, ⟨rfl, rfl, hvertices, hedges⟩,
      ⟨rfl, rfl, hvertices, hedges⟩, ⟨rfl, rfl, hvertices, hedges⟩, fun A t state => ?_⟩
    · rw [BNet.create, hg]
      rfl
    · rw [BNet.createList, hg]
      rfl
    · rw [BNet.createList2, hg]
      rfl
    · exact ⟨BNet.initializePotentialsWith_congr A rfl rfl rfl t state,
        BNet.initializePotentialsWith_congr A rfl rfl rfl t state⟩

/-- Two variables. -/
def pairOrdering : VariableOrdering := ⟨[⟨['a'], 2⟩, ⟨['b'], 2⟩]⟩

/-- A table of the right size. -/
def pairPot (labels : List CString) : Pot pairOrdering ℚ :=
  let vs := labels.foldl (fun vs l => vs.add ⟨l, 2⟩) (VariableSet.create pairOrdering)
  Pot.createTabular vs (List.replicate vs.getCardinality (1 / 2))

/-- `a` without parents and `b` given `a`; `memory` is the word for the parents of `a`. -/
def pairCalls (memory : ℤ) : List (Call pairOrdering ℚ) :=
  [.parentList memory none ⟨['a'], 2⟩ (pairPot [['a']]),
    .array (some [⟨['a'], 2⟩]) ⟨['b'], 2⟩ (pairPot [['a'], ['b']])]

theorem constructorsAgree_pairCalls : ConstructorsAgree 0 (pairCalls 0) := by
  have hpairs : Call.pairs (pairCalls 0) = [(['a'], ['b'])] := rfl
  refine (constructorsAgree_iff (by decide) 0 (pairCalls 0)).mpr ⟨rfl, ?_, ?_, ?_⟩
  · exact List.forall_mem_cons.mpr ⟨le_rfl, List.forall_mem_cons.mpr ⟨trivial, by simp⟩⟩
  · rw [hpairs]
    decide
  · rw [hpairs]
    decide

/-- With another word for `numObs` the networks differ, and with a positive one for the number
of parents nothing is returned. -/
theorem not_constructorsAgree_pairCalls :
    pairOrdering.DistinctLabels ∧ ¬ConstructorsAgree 1 (pairCalls 0) ∧
      ¬ConstructorsAgree 0 (pairCalls 1) := by
  refine ⟨by decide, ?_, ?_⟩
  · rintro ⟨fst, scnd, thrd, hfst, -, -, hholds, -⟩
    exact absurd ((BNet.of_create hfst).2.symm.trans hholds.numObs) (by decide)
  · rintro ⟨fst, scnd, thrd, hfst, -⟩
    have hcounts := ((BNet.foldlM_addParents_make (pairCalls 1) _ _).mp (BNet.of_create hfst).1).1
    exact absurd (hcounts _ (List.mem_cons_self ..)) (by decide : ¬(1 : ℤ) ≤ 0)

end JunctionBox.Raw
