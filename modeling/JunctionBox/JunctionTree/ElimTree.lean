import JunctionBox.Foundations.RunningIntersection
import JunctionBox.JunctionTree.ElimSet
import JunctionBox.Util.DSetForest
import JunctionBox.Util.QSort

/-!
# Elimination trees

`ElimTree_Create` makes a vertex for every distinct elimination set and joins
them by Kruskal's algorithm, the pairs with the largest intersection first.  An
`ElimTree` is the resulting graph with the elimination sets the source hangs on
its vertices and edges; an edge is looked up by its key.

`Grown` is the invariant of the loop: the edges so far form a forest whose
components are the parts of the disjoint set forest, every edge carries the
intersection of its ends, and if the sets have a junction tree at all then some
junction tree contains the forest.
-/

namespace JunctionBox

open Hypertree

/-- `ElimSetCollection`; a `NULL` slot is `none`. -/
structure ElimSetCollection (o : VariableOrdering) where
  elimSets : List (Option (ElimSet o))
deriving DecidableEq

/-- The distinct sets of a collection. -/
def ElimSetCollection.sets {o : VariableOrdering} (esc : ElimSetCollection o) :
    Set (Finset ℕ) :=
  {A | ∃ es, some es ∈ esc.elimSets ∧ es.vars = A}

/-- `ElimTree`: a graph with `elim_set` pointers on vertices and edges. -/
structure ElimTree (o : VariableOrdering) where
  graph : Graph
  elimSet : CString → ElimSet o
  sepSet : CString → ElimSet o

namespace ElimTree

variable {o : VariableOrdering}

/-- The variables of a clique, given by its label. -/
def clique (this : ElimTree o) (label : CString) : Finset ℕ := (this.elimSet label).vars

/-- The variables of a separator, given by the key of its edge. -/
def separator (this : ElimTree o) (key : CString) : Finset ℕ := (this.sepSet key).vars

/-- The variables of the separator on an edge. -/
def separatorOf (this : ElimTree o) (e : Edge) : Finset ℕ := this.separator e.srcSink

/-- The graph is a tree, without loops and without parallel edges. -/
structure IsTree (this : ElimTree o) : Prop where
  isTreeOn : IsTreeOn {l | l ∈ this.graph.labels} this.graph.skeleton
  loopless : ∀ e ∈ this.graph.edgeList, e.src ≠ e.sink
  simple : ∀ e ∈ this.graph.edgeList, ∀ e' ∈ this.graph.edgeList,
    s(e.src, e.sink) = s(e'.src, e'.sink) → e = e'

/-- For any two cliques, every clique and every separator on the path between them
contains their intersection. -/
structure HasRunningIntersection (this : ElimTree o) : Prop where
  cliques : RunningIntersection this.clique this.graph.skeleton
  separators : ∀ {u v} (p : this.graph.skeleton.Walk u v), p.IsPath →
    ∀ e ∈ this.graph.edgeList, s(e.src, e.sink) ∈ p.edges →
      this.clique u ∩ this.clique v ⊆ this.separator e.srcSink

/-- Every separator is the intersection of its two cliques. -/
def SeparatorsAreIntersections (this : ElimTree o) : Prop :=
  ∀ e ∈ this.graph.edgeList, this.separator e.srcSink = this.clique e.src ∩ this.clique e.sink

end ElimTree

/-- `EdgeCandidate`. -/
structure EdgeCandidate (o : VariableOrdering) where
  src : CString
  sink : CString
  elimSet : ElimSet o
deriving DecidableEq

namespace EdgeCandidate

variable {o : VariableOrdering}

/-- `EdgeCandidate_Create`. -/
def create (t : ElimTree o) (src sink : CString) : EdgeCandidate o :=
  ⟨src, sink, (t.elimSet src).intersect (t.elimSet sink)⟩

/-- `ECCollection_DefEdgeComp`. -/
def defEdgeComp (edgec1 edgec2 : EdgeCandidate o) : ℤ :=
  (edgec2.elimSet.bv.getNumOnBits : ℤ) - edgec1.elimSet.bv.getNumOnBits

end EdgeCandidate

/-- `ECCollection_Create`: the candidates, sorted. -/
def ecCollectionCreate {o : VariableOrdering} (qsort : QSort) (vo : VertexOrdering)
    (t : ElimTree o) : List (EdgeCandidate o) :=
  qsort.sort EdgeCandidate.defEdgeComp
    ((PartialLoops.pairs vo.vertices).map fun p => EdgeCandidate.create t p.1 p.2)

namespace ElimTree

variable {o : VariableOrdering}

/-- One round of the first loop of `ElimTree_Create`: a vertex and a singleton set for
the clique in the slot, unless the slot is `NULL` or there is a vertex of that name. -/
def addClique (state : ElimTree o × DSetForest) : Option (ElimSet o) → ElimTree o × DSetForest
  | none => state
  | some es =>
    let label := es.getLabel
    match state.1.graph.getVertex label with
    | some _ => state
    | none =>
      ({ state.1 with
          graph := state.1.graph.addVertex label
          elimSet := Function.update state.1.elimSet label es },
        state.2.makeSet label)

/-- A tree without vertices; nothing has set any `elim_set` pointer yet. -/
def empty (o : VariableOrdering) : ElimTree o where
  graph := Graph.create "Elim_Tree".toList false
  elimSet _ := ElimSet.create o
  sepSet _ := ElimSet.create o

/-- The first loop of `ElimTree_Create`. -/
def createCliques (esc : ElimSetCollection o) : ElimTree o × DSetForest :=
  esc.elimSets.foldl addClique (empty o, DSetForest.create)

/-- What the second loop of `ElimTree_Create` changes. -/
structure Kruskal (o : VariableOrdering) where
  tree : ElimTree o
  dsf : DSetForest
  numEdges : ℕ

/-- `Graph_AddEdge` and `Edge_SetElimSet`, `numEdges += 1`, `DSetForest_Union`. -/
def joinCliques (s : Kruskal o) (ec : EdgeCandidate o) : Option (Kruskal o) := do
  let u := ec.sink
  let v := ec.src
  let graph ← s.tree.graph.addEdge u v
  let dsf ← s.dsf.union u v
  return ⟨{ s.tree with
    graph := graph
    sepSet := Function.update s.tree.sepSet (srcsink u v) ec.elimSet }, dsf, s.numEdges + 1⟩

/-- The second loop of `ElimTree_Create`, which stops at `numVertices - 1` edges. -/
def growTree (numVertices : ℕ) : List (EdgeCandidate o) → Kruskal o → Option (Kruskal o)
  | [], s => some s
  | ec :: rest, s => do
      let fst ← s.dsf.getRepresentative ec.sink
      let scnd ← fst.1.getRepresentative ec.src
      let s := { s with dsf := scnd.1 }
      if fst.2 ≠ scnd.2 then
        let s ← joinCliques s ec
        if s.numEdges + 1 = numVertices then return s
        else growTree numVertices rest s
      else growTree numVertices rest s

/-- `ElimTree_Create`. -/
def create (qsort : QSort) (esc : ElimSetCollection o) : Option (ElimTree o) := do
  let start := createCliques esc
  let edgeCs := ecCollectionCreate qsort (VertexOrdering.default start.1.graph) start.1
  let s ← growTree start.1.graph.getNumVertices edgeCs ⟨start.1, start.2, 0⟩
  return s.tree

/-! ## The vertices -/

/-- What the first loop has done with the slots it has seen. -/
structure CliquesMade (seen : List (Option (ElimSet o))) (state : ElimTree o × DSetForest) :
    Prop where
  edges : state.1.graph.edgeList = []
  mem_labels : ∀ l, l ∈ state.1.graph.labels ↔ ∃ es, some es ∈ seen ∧ es.getLabel = l
  elimSet : ∀ l ∈ state.1.graph.labels,
    some (state.1.elimSet l) ∈ seen ∧ (state.1.elimSet l).getLabel = l
  realizes : state.2.Realizes id
  nodes : ∀ l, (state.2.lookup.get l).isSome ↔ l ∈ state.1.graph.labels

/-- A slot that brings no new name changes nothing. -/
theorem CliquesMade.skip {seen : List (Option (ElimSet o))} {state : ElimTree o × DSetForest}
    (h : CliquesMade seen state) {slot : Option (ElimSet o)}
    (hslot : ∀ es, slot = some es → es.getLabel ∈ state.1.graph.labels) :
    CliquesMade (seen ++ [slot]) state := by
  refine ⟨h.edges, fun l => ⟨fun hl => ?_, fun hl => ?_⟩, fun l hl => ?_, h.realizes, h.nodes⟩
  · obtain ⟨es, hes, hlabel⟩ := (h.mem_labels l).mp hl
    exact ⟨es, List.mem_append_left _ hes, hlabel⟩
  · obtain ⟨es, hes, rfl⟩ := hl
    rcases List.mem_append.mp hes with hes | hes
    · exact (h.mem_labels _).mpr ⟨es, hes, rfl⟩
    · exact hslot es (List.mem_singleton.mp hes).symm
  · exact ⟨List.mem_append_left _ (h.elimSet l hl).1, (h.elimSet l hl).2⟩

theorem CliquesMade.step {seen : List (Option (ElimSet o))} {state : ElimTree o × DSetForest}
    (h : CliquesMade seen state) (slot : Option (ElimSet o)) :
    CliquesMade (seen ++ [slot]) (addClique state slot) := by
  cases slot with
  | none => exact h.skip fun es hes => absurd hes (by simp)
  | some es =>
      unfold addClique
      simp only
      split
      · next v hv =>
          refine h.skip fun es' hes => ?_
          rw [← Option.some.inj hes, ← state.1.graph.getVertex_isSome_iff, hv]
          rfl
      · next hv =>
          have hnew : es.getLabel ∉ state.1.graph.labels := by
            rw [← state.1.graph.getVertex_isSome_iff, hv]
            simp
          refine ⟨?_, fun l => ?_, fun l hl => ?_, DSetForest.realizes_makeSet h.realizes _,
            fun l => ?_⟩
          · unfold Graph.edgeList
            rw [Graph.edges_addVertex]
            exact h.edges
          · rw [Graph.mem_labels_addVertex, h.mem_labels]
            constructor
            · rintro (rfl | ⟨es', hes', hlabel⟩)
              · exact ⟨es, List.mem_append_right _ (List.mem_singleton_self _), rfl⟩
              · exact ⟨es', List.mem_append_left _ hes', hlabel⟩
            · rintro ⟨es', hes', rfl⟩
              rcases List.mem_append.mp hes' with hes' | hes'
              · exact Or.inr ⟨es', hes', rfl⟩
              · rw [Option.some.inj (List.mem_singleton.mp hes')]
                exact Or.inl rfl
          · rcases Graph.mem_labels_addVertex.mp hl with rfl | hl
            · simp only [Function.update_self]
              exact ⟨List.mem_append_right _ (List.mem_singleton_self _), trivial⟩
            · have hne : l ≠ es.getLabel := fun heq => hnew (heq ▸ hl)
              simp only [Function.update_of_ne hne]
              exact ⟨List.mem_append_left _ (h.elimSet l hl).1, (h.elimSet l hl).2⟩
          · rw [DSetForest.isSome_get_makeSet, h.nodes, Graph.mem_labels_addVertex]

theorem cliquesMade (esc : ElimSetCollection o) :
    CliquesMade esc.elimSets (createCliques esc) := by
  have hstart : CliquesMade [] ((empty o, DSetForest.create) : ElimTree o × DSetForest) := by
    refine ⟨rfl, fun l => ?_, fun l hl => absurd hl List.not_mem_nil,
      DSetForest.realizes_create, fun l => ?_⟩
    · simp [empty]
    · refine ⟨fun h => absurd h ?_, fun h => absurd h List.not_mem_nil⟩
      simp [DSetForest.create, Map.create, Map.get]
  have hrun : ∀ (rest seen : List (Option (ElimSet o))) (state : ElimTree o × DSetForest),
      CliquesMade seen state → CliquesMade (seen ++ rest) (rest.foldl addClique state) := by
    intro rest
    induction rest with
    | nil => exact fun seen state h => by rwa [List.append_nil]
    | cons slot rest ih =>
        intro seen state h
        have hrest := ih (seen ++ [slot]) (addClique state slot) (h.step slot)
        rwa [List.append_assoc, List.singleton_append] at hrest
  exact hrun _ [] _ hstart

/-! ## The edges -/

/-- The invariant of the second loop; `start` is the tree before it. -/
structure Grown (start : ElimTree o) (comp : CString → CString) (s : Kruskal o) : Prop where
  labels : s.tree.graph.labels = start.graph.labels
  elimSet : s.tree.elimSet = start.elimSet
  realizes : s.dsf.Realizes comp
  nodes : ∀ l, (s.dsf.lookup.get l).isSome ↔ l ∈ start.graph.labels
  progress : Progress start.graph.labels.toFinset s.tree.graph.skeleton comp s.numEdges
  loopless : ∀ e ∈ s.tree.graph.edgeList, e.src ≠ e.sink
  simple : ∀ e ∈ s.tree.graph.edgeList, ∀ e' ∈ s.tree.graph.edgeList,
    s(e.src, e.sink) = s(e'.src, e'.sink) → e = e'
  separators : s.tree.SeparatorsAreIntersections
  greedy : ∀ T, IsJunctionTree {l | l ∈ start.graph.labels} start.clique T →
    ∃ T', IsJunctionTree {l | l ∈ start.graph.labels} start.clique T' ∧
      s.tree.graph.skeleton ≤ T'

/-- Before the second loop there are no edges. -/
theorem CliquesMade.grown {seen : List (Option (ElimSet o))} {state : ElimTree o × DSetForest}
    (h : CliquesMade seen state) : Grown state.1 id ⟨state.1, state.2, 0⟩ := by
  have hnone : ∀ e, e ∉ state.1.graph.edgeList := fun e he =>
    absurd (h.edges ▸ he) List.not_mem_nil
  have hbot : state.1.graph.skeleton = ⊥ := by
    ext a b
    refine ⟨fun hadj => ?_, fun hadj => absurd hadj (by simp)⟩
    obtain ⟨-, e, he, -⟩ := hadj
    exact absurd he (hnone e)
  refine ⟨rfl, rfl, h.realizes, h.nodes, ?_, fun e he => absurd he (hnone e),
    fun e he => absurd he (hnone e), fun e he => absurd he (hnone e), fun T hT => ⟨T, hT, ?_⟩⟩
  · show Progress _ state.1.graph.skeleton id 0
    rw [hbot]
    exact progress_start _
  · show state.1.graph.skeleton ≤ T
    rw [hbot]
    exact bot_le

/-- There is a candidate for every pair of vertices, the earlier one its source. -/
theorem mem_ecCollectionCreate {qsort : QSort} {t : ElimTree o} {ec : EdgeCandidate o} :
    ec ∈ ecCollectionCreate qsort (VertexOrdering.default t.graph) t ↔
      ∃ p ∈ PartialLoops.pairs t.graph.labels, EdgeCandidate.create t p.1 p.2 = ec := by
  rw [ecCollectionCreate, (qsort.perm _ _).mem_iff, List.mem_map, VertexOrdering.vertices_default]

/-- The candidate joins two vertices and carries their intersection. -/
structure Candidate (start : ElimTree o) (ec : EdgeCandidate o) : Prop where
  src : ec.src ∈ start.graph.labels
  sink : ec.sink ∈ start.graph.labels
  elimSet : ec.elimSet.vars = start.clique ec.src ∩ start.clique ec.sink

theorem getNumOnBits_eq_card (es : ElimSet o) : es.bv.getNumOnBits = es.vars.card := by
  rw [BitVector.getNumOnBits_eq]
  exact (List.toFinset_card_of_nodup es.bv.onIndices_nodup).symm

/-- `u v` has the largest intersection of all pairs that `G` does not connect. -/
structure GreedyPair (start : ElimTree o) (G : SimpleGraph CString) (u v : CString) : Prop where
  fst : u ∈ start.graph.labels
  scnd : v ∈ start.graph.labels
  cross : ¬G.Reachable u v
  max : ∀ a ∈ start.graph.labels, ∀ b ∈ start.graph.labels, ¬G.Reachable a b →
    (start.clique a ∩ start.clique b).card ≤ (start.clique u ∩ start.clique v).card

section GreedyPair

variable {start : ElimTree o} {g : Graph} {u v : CString}

theorem GreedyPair.ne (h : GreedyPair start g.skeleton u v) : u ≠ v :=
  fun heq => h.cross (heq ▸ SimpleGraph.Reachable.refl u)

/-- No edge joins the pair yet. -/
theorem GreedyPair.not_joined (h : GreedyPair start g.skeleton u v) :
    ∀ e ∈ g.edgeList, s(e.src, e.sink) ≠ s(u, v) := by
  intro e he heq
  have hadj : g.skeleton.Adj u v := ⟨h.ne, e, he, heq⟩
  exact h.cross hadj.reachable

/-- No edge has its key. -/
theorem GreedyPair.notMem_keys (h : GreedyPair start g.skeleton u v)
    (hkeys : Graph.UniqueKeys start.graph.labels) (hlabels : g.labels = start.graph.labels) :
    srcsink u v ∉ g.edges.keys := by
  intro hkey
  obtain ⟨e, he, heq⟩ := Graph.mem_edges_keys_iff.mp hkey
  have hends := Graph.ends_mem he
  rw [hlabels] at hends
  rw [Graph.eq_create_of_mem he] at heq
  obtain ⟨hsrc, hsink⟩ := hkeys _ hends.1 _ hends.2 _ h.fst _ h.scnd heq
  exact h.not_joined e he (by rw [hsrc, hsink])

/-- `Graph_AddEdge` enters the edge. -/
theorem GreedyPair.edgeList_addEdge (h : GreedyPair start g.skeleton u v)
    (hkeys : Graph.UniqueKeys start.graph.labels) (hlabels : g.labels = start.graph.labels)
    {g' : Graph} (hadd : g.addEdge u v = some g') :
    g'.edgeList = Edge.create u v :: g.edgeList := by
  rw [Graph.edgeList_addEdge hadd, if_neg (h.notMem_keys hkeys hlabels)]

end GreedyPair

/-- `joinCliques` enters the edge and merges the parts of its ends. -/
theorem joinCliques_eq {labels : List CString} {comp : CString → CString} {s : Kruskal o}
    (hlabels : s.tree.graph.labels = labels) (hreal : s.dsf.Realizes comp)
    (hnodes : ∀ l, (s.dsf.lookup.get l).isSome ↔ l ∈ labels) {ec : EdgeCandidate o}
    (hsrc : ec.src ∈ labels) (hsink : ec.sink ∈ labels) :
    ∃ g dsf, s.tree.graph.addEdge ec.sink ec.src = some g ∧
      joinCliques s ec = some ⟨{ s.tree with
        graph := g
        sepSet := Function.update s.tree.sepSet (srcsink ec.sink ec.src) ec.elimSet }, dsf,
        s.numEdges + 1⟩ ∧
      (dsf.Realizes (merge comp ec.sink ec.src) ∨ dsf.Realizes (merge comp ec.src ec.sink)) ∧
      ∀ l, (dsf.lookup.get l).isSome ↔ l ∈ labels := by
  subst hlabels
  obtain ⟨g, hg⟩ := Graph.exists_addEdge hsink hsrc
  obtain ⟨dsf, hunion, hpart, hkept⟩ :=
    DSetForest.union_eq hreal ((hnodes _).mpr hsink) ((hnodes _).mpr hsrc)
  refine ⟨g, dsf, hg, ?_, hpart, fun l => by rw [hkept, hnodes]⟩
  unfold joinCliques
  simp only [hg, hunion]
  rfl

theorem Grown.reachable_iff {start : ElimTree o} {comp : CString → CString} {s : Kruskal o}
    (h : Grown start comp s) {u v : CString} (hu : u ∈ start.graph.labels)
    (hv : v ∈ start.graph.labels) : s.tree.graph.skeleton.Reachable u v ↔ comp u = comp v :=
  h.progress.reachable_iff u (List.mem_toFinset.mpr hu) v (List.mem_toFinset.mpr hv)

/-- The candidate that the second loop takes. -/
theorem Grown.greedyPair {start : ElimTree o} {comp : CString → CString} {s : Kruskal o}
    (h : Grown start comp s) {ec : EdgeCandidate o} (hec : Candidate start ec)
    (hne : comp ec.sink ≠ comp ec.src)
    (hmax : ∀ a ∈ start.graph.labels, ∀ b ∈ start.graph.labels, comp a ≠ comp b →
      (start.clique a ∩ start.clique b).card ≤ ec.elimSet.vars.card) :
    GreedyPair start s.tree.graph.skeleton ec.sink ec.src := by
  refine ⟨hec.sink, hec.src, fun hr => hne ((h.reachable_iff hec.sink hec.src).mp hr),
    fun a ha b hb hab => ?_⟩
  have hcard := hmax a ha b hb fun heq => hab ((h.reachable_iff ha hb).mpr heq)
  rwa [hec.elimSet, Finset.inter_comm (start.clique ec.src)] at hcard

/-- The step of Kruskal's algorithm. -/
theorem Grown.join {start : ElimTree o} {comp : CString → CString} {s : Kruskal o}
    (h : Grown start comp s) (hkeys : Graph.UniqueKeys start.graph.labels)
    {ec : EdgeCandidate o} (hec : Candidate start ec) (hne : comp ec.sink ≠ comp ec.src)
    (hmax : ∀ a ∈ start.graph.labels, ∀ b ∈ start.graph.labels, comp a ≠ comp b →
      (start.clique a ∩ start.clique b).card ≤ ec.elimSet.vars.card) :
    ∃ s' comp', joinCliques s ec = some s' ∧ Grown start comp' s' ∧
      s.tree.graph.addEdge ec.sink ec.src = some s'.tree.graph ∧ s'.numEdges = s.numEdges + 1 ∧
      ∀ a b, comp' a ≠ comp' b → comp a ≠ comp b ∧ s(ec.src, ec.sink) ≠ s(a, b) := by
  have hpair := h.greedyPair hec hne hmax
  obtain ⟨g, dsf, hg, hrun, hpart, hnodes⟩ :=
    joinCliques_eq h.labels h.realizes h.nodes hec.src hec.sink
  have hkeys' : Graph.UniqueKeys s.tree.graph.labels := h.labels ▸ hkeys
  have hskel := Graph.skeleton_addEdge hkeys' hpair.ne hg
  have hedges := hpair.edgeList_addEdge hkeys h.labels hg
  have hinU := List.mem_toFinset.mpr hec.sink
  have hinV := List.mem_toFinset.mpr hec.src
  -- the two parts are merged one way or the other
  obtain ⟨comp', hreal, hprog, hsep⟩ : ∃ comp', dsf.Realizes comp' ∧
      Progress start.graph.labels.toFinset g.skeleton comp' (s.numEdges + 1) ∧
      ∀ a b, comp' a ≠ comp' b → comp a ≠ comp b ∧ s(ec.src, ec.sink) ≠ s(a, b) := by
    rcases hpart with hreal | hreal
    · refine ⟨_, hreal, hskel ▸ h.progress.join hinU hinV hne, fun a b hab => ?_⟩
      rw [Sym2.eq_swap]
      exact ne_of_merge_ne hab
    · refine ⟨_, hreal, ?_, fun a b hab => ne_of_merge_ne hab⟩
      rw [hskel, SimpleGraph.edge_comm]
      exact h.progress.join hinV hinU hne.symm
  have hforest : g.IsForest :=
    Graph.IsForest.cons ⟨h.progress.acyclic, h.loopless, h.simple⟩ hpair.cross hedges
  refine ⟨_, comp', hrun, ⟨?_, h.elimSet, hreal, hnodes, hprog, hforest.loopless,
    hforest.simple, fun e he => ?_, fun T hT => ?_⟩, hg, rfl, hsep⟩
  · exact (Graph.labels_addEdge hg).trans h.labels
  · unfold separator clique
    simp only
    rcases List.mem_cons.mp (hedges ▸ he) with rfl | he
    · rw [show (Edge.create ec.sink ec.src).srcSink = srcsink ec.sink ec.src from rfl,
        Function.update_self, hec.elimSet, h.elimSet, Finset.inter_comm]
      rfl
    · have hkey : e.srcSink ≠ srcsink ec.sink ec.src := fun heq =>
        hpair.notMem_keys hkeys h.labels (Graph.mem_edges_keys_iff.mpr ⟨e, he, heq⟩)
      rw [Function.update_of_ne hkey]
      exact h.separators e he
  · obtain ⟨T', hT', hle⟩ := h.greedy T hT
    obtain ⟨T'', hT'', hle'⟩ := hT'.exists_greedy hle hpair.fst hpair.scnd hpair.cross hpair.max
    exact ⟨T'', hT'', hskel ▸ hle'⟩

/-- Looking representatives up changes nothing but pointers. -/
theorem Grown.setDsf {start : ElimTree o} {comp : CString → CString} {s : Kruskal o}
    (h : Grown start comp s) {dsf : DSetForest} (hreal : dsf.Realizes comp)
    (hnodes : ∀ l, (dsf.lookup.get l).isSome ↔ l ∈ start.graph.labels) :
    Grown start comp { s with dsf := dsf } :=
  ⟨h.labels, h.elimSet, hreal, hnodes, h.progress, h.loopless, h.simple, h.separators, h.greedy⟩

/-- A round of the second loop: after the two calls of `DSetForest_GetRepresentative` it joins
the ends of the candidate if they are in different components. -/
theorem growTree_cons {labels : List CString} {comp : CString → CString} {s : Kruskal o}
    (hreal : s.dsf.Realizes comp) (hnodes : ∀ l, (s.dsf.lookup.get l).isSome ↔ l ∈ labels)
    {ec : EdgeCandidate o} (hsrc : ec.src ∈ labels) (hsink : ec.sink ∈ labels)
    (numVertices : ℕ) (rest : List (EdgeCandidate o)) :
    ∃ dsf : DSetForest, dsf.Realizes comp ∧ (∀ l, (dsf.lookup.get l).isSome ↔ l ∈ labels) ∧
      ElimTree.growTree numVertices (ec :: rest) s =
        if comp ec.sink = comp ec.src then ElimTree.growTree numVertices rest { s with dsf := dsf }
        else (joinCliques { s with dsf := dsf } ec).bind fun s =>
          if s.numEdges + 1 = numVertices then some s
          else ElimTree.growTree numVertices rest s := by
  obtain ⟨fst, hfst, hreal₁, hkept₁⟩ := hreal.getRepresentative ((hnodes _).mpr hsink)
  obtain ⟨scnd, hscnd, hreal₂, hkept₂⟩ :=
    hreal₁.getRepresentative ((hkept₁ ec.src).symm ▸ (hnodes _).mpr hsrc)
  refine ⟨scnd, hreal₂, fun l => by rw [hkept₂, hkept₁, hnodes], ?_⟩
  rw [ElimTree.growTree, hfst]
  simp only [Option.bind_eq_bind, Option.bind_some]
  rw [hscnd]
  simp only [Option.bind_some, ne_eq, ite_not]
  rfl

/-- The first of the sorted candidates has the largest intersection of all pairs they join. -/
theorem card_le_of_first {start : ElimTree o} {ec : EdgeCandidate o}
    {rest : List (EdgeCandidate o)} (hcand : ∀ ec' ∈ ec :: rest, Candidate start ec')
    (hsorted : (ec :: rest).Pairwise fun a b => EdgeCandidate.defEdgeComp a b ≤ 0)
    {a b : CString} (hcover : ∃ ec' ∈ ec :: rest, s(ec'.src, ec'.sink) = s(a, b)) :
    (start.clique a ∩ start.clique b).card ≤ ec.elimSet.vars.card := by
  obtain ⟨ec', hec', heq⟩ := hcover
  have hcard : (start.clique a ∩ start.clique b).card = ec'.elimSet.vars.card := by
    rw [(hcand ec' hec').elimSet]
    rcases Sym2.eq_iff.mp heq with ⟨rfl, rfl⟩ | ⟨rfl, rfl⟩
    · rfl
    · rw [Finset.inter_comm]
  rw [hcard]
  rcases List.mem_cons.mp hec' with rfl | hec'
  · exact le_rfl
  · have hcmp := (List.pairwise_cons.mp hsorted).1 ec' hec'
    unfold EdgeCandidate.defEdgeComp at hcmp
    rw [getNumOnBits_eq_card, getNumOnBits_eq_card] at hcmp
    omega

/-- `P` survives the rounds of the second loop; `seen` are the candidates of the rounds so
far. -/
structure KeptByRounds (start : ElimTree o)
    (P : List (EdgeCandidate o) → Graph → ℕ → Prop) : Prop where
  skip : ∀ {seen ec g numEdges}, P seen g numEdges → g.skeleton.Reachable ec.sink ec.src →
    P (seen ++ [ec]) g numEdges
  join : ∀ {seen ec g g' numEdges}, P seen g numEdges → g.labels = start.graph.labels →
    GreedyPair start g.skeleton ec.sink ec.src → g.addEdge ec.sink ec.src = some g' →
    P (seen ++ [ec]) g' (numEdges + 1)

/-- The second loop of `ElimTree_Create`. -/
theorem Grown.growTree {start : ElimTree o} (hkeys : Graph.UniqueKeys start.graph.labels)
    {P : List (EdgeCandidate o) → Graph → ℕ → Prop} (hP : KeptByRounds start P)
    (numVertices : ℕ) :
    ∀ (rest seen : List (EdgeCandidate o)) {comp : CString → CString} {s : Kruskal o},
      Grown start comp s → P seen s.tree.graph s.numEdges → (∀ ec ∈ rest, Candidate start ec) →
      (rest.Pairwise fun a b => EdgeCandidate.defEdgeComp a b ≤ 0) →
      (∀ a ∈ start.graph.labels, ∀ b ∈ start.graph.labels, comp a ≠ comp b →
        ∃ ec ∈ rest, s(ec.src, ec.sink) = s(a, b)) →
      ∃ s' comp' seen', ElimTree.growTree numVertices rest s = some s' ∧ Grown start comp' s' ∧
        seen' <+: seen ++ rest ∧ P seen' s'.tree.graph s'.numEdges ∧
        (s'.numEdges + 1 = numVertices ∨
          ∀ a ∈ start.graph.labels, ∀ b ∈ start.graph.labels, comp' a = comp' b) := by
  intro rest
  induction rest with
  | nil =>
      intro seen comp s h hs _ _ hcover
      refine ⟨s, comp, seen, rfl, h, List.prefix_append .., hs, Or.inr fun a ha b hb => ?_⟩
      by_contra hab
      obtain ⟨ec, hec, -⟩ := hcover a ha b hb hab
      exact absurd hec List.not_mem_nil
  | cons ec rest ih =>
      intro seen comp s h hs hcand hsorted hcover
      have hsorted' := (List.pairwise_cons.mp hsorted).2
      have hec := hcand ec (List.mem_cons_self ..)
      have hcand' : ∀ ec' ∈ rest, Candidate start ec' := fun ec' hec' =>
        hcand ec' (List.mem_cons_of_mem _ hec')
      have hsplit : seen ++ ec :: rest = (seen ++ [ec]) ++ rest := by simp
      obtain ⟨dsf, hreal₂, hnodes₂, hround⟩ :=
        growTree_cons h.realizes h.nodes hec.src hec.sink numVertices rest
      have h₂ := h.setDsf hreal₂ hnodes₂
      rw [hround, hsplit]
      by_cases hne : comp ec.sink = comp ec.src
      · -- both ends are in one component already
        rw [if_pos hne]
        have hs' := hP.skip hs ((h.reachable_iff hec.sink hec.src).mpr hne)
        refine ih _ h₂ hs' hcand' hsorted' fun a ha b hb hab => ?_
        obtain ⟨ec', hec', heq⟩ := hcover a ha b hb hab
        rcases List.mem_cons.mp hec' with rfl | hec'
        · rcases Sym2.eq_iff.mp heq with ⟨rfl, rfl⟩ | ⟨rfl, rfl⟩
          · exact absurd hne.symm hab
          · exact absurd hne hab
        · exact ⟨ec', hec', heq⟩
      · rw [if_neg hne]
        have hmax : ∀ a ∈ start.graph.labels, ∀ b ∈ start.graph.labels, comp a ≠ comp b →
            (start.clique a ∩ start.clique b).card ≤ ec.elimSet.vars.card :=
          fun a ha b hb hab => card_le_of_first hcand hsorted (hcover a ha b hb hab)
        obtain ⟨s', comp', hjoin, h', hadd, hnum, hsep⟩ := h₂.join hkeys hec hne hmax
        have hs' : P (seen ++ [ec]) s'.tree.graph s'.numEdges := by
          rw [hnum]
          exact hP.join hs h₂.labels (h₂.greedyPair hec hne hmax) hadd
        rw [hjoin, Option.bind_some]
        by_cases hdone : s'.numEdges + 1 = numVertices
        · rw [if_pos hdone]
          exact ⟨s', comp', _, rfl, h', List.prefix_append .., hs', Or.inl hdone⟩
        · rw [if_neg hdone]
          refine ih _ h' hs' hcand' hsorted' fun a ha b hb hab => ?_
          obtain ⟨hold, hnew⟩ := hsep a b hab
          obtain ⟨ec', hec', heq⟩ := hcover a ha b hb hold
          rcases List.mem_cons.mp hec' with rfl | hec'
          · exact absurd heq hnew
          · exact ⟨ec', hec', heq⟩

/-! ## The tree -/

/-- The running intersection property of the cliques passes to the separators. -/
theorem HasRunningIntersection.of_cliques {t : ElimTree o} (hsep : t.SeparatorsAreIntersections)
    (h : RunningIntersection t.clique t.graph.skeleton) : t.HasRunningIntersection where
  cliques := h
  separators p hp e he hmem := by
    rw [hsep e he]
    exact Finset.subset_inter (h p hp _ (p.fst_mem_support_of_mem_edges hmem))
      (h p hp _ (p.snd_mem_support_of_mem_edges hmem))

/-- What `ElimTree_Create` makes of a collection. -/
structure Spans (esc : ElimSetCollection o) (t : ElimTree o) : Prop where
  mem_labels : ∀ l, l ∈ t.graph.labels ↔ ∃ es, some es ∈ esc.elimSets ∧ es.getLabel = l
  elimSet : ∀ l ∈ t.graph.labels, some (t.elimSet l) ∈ esc.elimSets ∧ (t.elimSet l).getLabel = l
  isTree : t.IsTree
  separators : t.SeparatorsAreIntersections
  greedy : (∃ T, IsJunctionTree {l | l ∈ t.graph.labels} t.clique T) → t.HasRunningIntersection

/-- The loops end with a spanning tree, and with what holds before the second loop and survives
its rounds. -/
theorem exists_grown (hspace : o.SpaceFreeLabels) (qsort : QSort) (esc : ElimSetCollection o)
    {P : List (EdgeCandidate o) → Graph → ℕ → Prop}
    (hstart : P [] (createCliques esc).1.graph 0)
    (hP : KeptByRounds (createCliques esc).1 P) :
    ∃ s comp seen, create qsort esc = some s.tree ∧ Grown (createCliques esc).1 comp s ∧
      seen <+: ecCollectionCreate qsort (VertexOrdering.default (createCliques esc).1.graph)
        (createCliques esc).1 ∧
      P seen s.tree.graph s.numEdges ∧
      IsTreeOn {l | l ∈ (createCliques esc).1.graph.labels} s.tree.graph.skeleton := by
  have hmade := cliquesMade esc
  set start := (createCliques esc).1 with hstart'
  have hkeys : Graph.UniqueKeys start.graph.labels := by
    apply ElimSet.uniqueKeys_getLabel hspace
    intro l hl
    exact ⟨_, (hmade.elimSet l hl).2⟩
  set edgeCs := ecCollectionCreate qsort (VertexOrdering.default start.graph) start with hedgeCs
  have hcand : ∀ ec ∈ edgeCs, Candidate start ec := by
    intro ec hec
    obtain ⟨p, hp, rfl⟩ := mem_ecCollectionCreate.mp hec
    have hends := PartialLoops.mem_pairs hp
    exact ⟨hends.1, hends.2, ElimSet.vars_intersect _ _⟩
  have hsorted : edgeCs.Pairwise fun a b => EdgeCandidate.defEdgeComp a b ≤ 0 :=
    qsort.sorted (QSort.isComparator_of_key fun ec : EdgeCandidate o =>
      ec.elimSet.bv.getNumOnBits) _
  have hcover : ∀ a ∈ start.graph.labels, ∀ b ∈ start.graph.labels, id a ≠ id b →
      ∃ ec ∈ edgeCs, s(ec.src, ec.sink) = s(a, b) := by
    intro a ha b hb hab
    obtain ⟨p, hp, heq⟩ := PartialLoops.exists_mem_pairs ha hb hab
    exact ⟨_, mem_ecCollectionCreate.mpr ⟨p, hp, rfl⟩, heq⟩
  obtain ⟨s, comp, seen, hrun, hgrown, hseen, hs, hend⟩ := hmade.grown.growTree hkeys hP
    start.graph.getNumVertices edgeCs [] hstart hcand hsorted hcover
  refine ⟨s, comp, seen, ?_, hgrown, hseen, hs, ?_⟩
  · unfold create
    simp only [← hstart', ← hedgeCs]
    rw [hrun]
    rfl
  · rw [← List.coe_toFinset]
    rcases hend with hnum | hone
    · apply hgrown.progress.isTreeOn_of_numEdges
      rw [hnum, List.toFinset_card_of_nodup start.graph.labels_nodup, Graph.length_labels]
    · apply hgrown.progress.isTreeOn_of_reachable
      intro u hu v hv
      rw [hgrown.progress.reachable_iff u hu v hv]
      exact hone u (List.mem_toFinset.mp hu) v (List.mem_toFinset.mp hv)

theorem Grown.clique_eq {start : ElimTree o} {comp : CString → CString} {s : Kruskal o}
    (h : Grown start comp s) : s.tree.clique = start.clique := by
  unfold clique
  rw [h.elimSet]

/-- **`ElimTree_Create`** returns a spanning tree, and a junction tree if there is one. -/
theorem create_spans (hspace : o.SpaceFreeLabels) (qsort : QSort) (esc : ElimSetCollection o) :
    ∃ t, create qsort esc = some t ∧ Spans esc t := by
  have hmade := cliquesMade esc
  obtain ⟨s, comp, -, hrun, hgrown, -, -, htree⟩ := exists_grown hspace qsort esc
    (P := fun _ _ _ => True) trivial ⟨fun _ _ => trivial, fun _ _ _ _ => trivial⟩
  refine ⟨s.tree, hrun, fun l => ?_, fun l hl => ?_, ⟨?_, hgrown.loopless, hgrown.simple⟩,
    hgrown.separators, fun ⟨T, hT⟩ => ?_⟩
  · rw [hgrown.labels, hmade.mem_labels]
  · rw [hgrown.elimSet]
    exact hmade.elimSet l (hgrown.labels ▸ hl)
  · rw [hgrown.labels]
    exact htree
  · rw [hgrown.labels, hgrown.clique_eq] at hT
    obtain ⟨T', hT', hle⟩ := hgrown.greedy T hT
    apply HasRunningIntersection.of_cliques hgrown.separators
    rw [hgrown.clique_eq, htree.eq_of_le hT'.toIsTreeOn hle]
    exact hT'.runningIntersection

/-! ## Junction trees of the sets -/

theorem Spans.clique_injOn {esc : ElimSetCollection o} {t : ElimTree o} (h : Spans esc t) :
    Set.InjOn t.clique {l | l ∈ t.graph.labels} := by
  intro l hl l' hl' heq
  rw [← (h.elimSet l hl).2, ← (h.elimSet l' hl').2]
  exact ElimSet.getLabel_congr heq

/-- Three variables. -/
def sampleOrdering : VariableOrdering := ⟨[⟨['a'], 2⟩, ⟨['b'], 2⟩, ⟨['c'], 2⟩]⟩

/-- `{a, b}`, a `NULL` slot, `{b, c}` and `{a, b}` again. -/
def sampleSets : ElimSetCollection sampleOrdering :=
  let fst := ((ElimSet.create sampleOrdering).add ['a']).add ['b']
  let scnd := ((ElimSet.create sampleOrdering).add ['b']).add ['c']
  ⟨[some fst, none, some scnd, some fst]⟩

end ElimTree

end JunctionBox
