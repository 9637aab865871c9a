import JunctionBox.Graph.Store
import Mathlib.Algebra.BigOperators.Group.Finset.Piecewise

/-!
# Degrees

The degrees of a vertex are the recorded sizes of its two edge maps, which are
right because the maps are the adjacency of the edge set.  The names are on the
wrong functions, though: `Graph_VertexIndegree` returns the size of `outedges`
and `Graph_VertexOutdegree` that of `inedges`.  The total degree and the sums
over all vertices do not show it, and neither does a graph in which every vertex
has as many edges in as out.
-/

namespace JunctionBox.Graph

/-- `Graph_VertexIndegree`; its graph is not read. -/
def vertexIndegree (v : Vertex) : ℕ := v.outedges.size

/-- `Graph_VertexOutdegree`; its graph is not read. -/
def vertexOutdegree (v : Vertex) : ℕ := v.inedges.size

/-- `Graph_VertexTotdegree`; its graph is not read. -/
def vertexTotdegree (v : Vertex) : ℕ := v.outedges.size + v.inedges.size

/-- The edges whose sink has the label `l`. -/
def edgesInto (this : Graph) (l : CString) : List Edge := this.edgeList.filter fun e => e.sink = l

/-- The edges whose source has the label `l`. -/
def edgesOutOf (this : Graph) (l : CString) : List Edge := this.edgeList.filter fun e => e.src = l

/-- The degrees count edges. -/
structure DegreesCountEdges (this : Graph) : Prop where
  indegree : ∀ v ∈ this.vertices.contents, vertexIndegree v = (this.edgesInto v.label).length
  outdegree : ∀ v ∈ this.vertices.contents, vertexOutdegree v = (this.edgesOutOf v.label).length
  totdegree : ∀ v ∈ this.vertices.contents, v.totdegree = vertexIndegree v + vertexOutdegree v
  vertexTotdegree : ∀ v ∈ this.vertices.contents,
    Graph.vertexTotdegree v = vertexIndegree v + vertexOutdegree v
  sum_indegree : (this.vertices.contents.map vertexIndegree).sum = this.getNumEdges
  sum_outdegree : (this.vertices.contents.map vertexOutdegree).sum = this.getNumEdges

/-- At every vertex as many edges end as start. -/
def Balanced (this : Graph) : Prop :=
  ∀ l ∈ this.labels, (this.edgesInto l).length = (this.edgesOutOf l).length

variable {this : Graph} {v : Vertex}

theorem vertexIndegree_eq (hv : v ∈ this.vertices.contents) :
    vertexIndegree v = (this.edgesOutOf v.label).length := by
  rw [vertexIndegree, Store.size_eq_length, Store.contents_outedges hv]
  rfl

theorem vertexOutdegree_eq (hv : v ∈ this.vertices.contents) :
    vertexOutdegree v = (this.edgesInto v.label).length := by
  rw [vertexOutdegree, Store.size_eq_length, Store.contents_inedges hv]
  rfl

theorem map_label_contents (this : Graph) :
    this.vertices.contents.map Vertex.label = this.labels := by
  rw [Map.contents, List.map_map]
  exact List.map_congr_left fun me hme => this.vertex_label me hme

/-- Every edge is counted at one vertex, when it is counted at one of its ends. -/
theorem sum_edges_at (this : Graph) {endpoint : Edge → CString}
    (hends : ∀ e ∈ this.edgeList, endpoint e ∈ this.labels) :
    (this.labels.map fun l => (this.edgeList.filter fun e => endpoint e = l).length).sum =
      this.getNumEdges := by
  rw [← List.sum_toFinset _ this.labels_nodup, ← length_edgeList]
  revert hends
  induction this.edgeList with
  | nil => simp
  | cons e es ih =>
      intro hends
      obtain ⟨he, hes⟩ := List.forall_mem_cons.mp hends
      have hsplit : ∀ l, ((e :: es).filter fun e => endpoint e = l).length =
          (if endpoint e = l then 1 else 0) + (es.filter fun e => endpoint e = l).length := by
        intro l
        by_cases h : endpoint e = l
        · simp [h, Nat.add_comm]
        · simp [h]
      simp only [hsplit]
      rw [Finset.sum_add_distrib, ih hes, Finset.sum_ite_eq, if_pos (List.mem_toFinset.mpr he),
        List.length_cons, Nat.add_comm]

theorem sum_vertexIndegree (this : Graph) :
    (this.vertices.contents.map vertexIndegree).sum = this.getNumEdges := by
  rw [← this.sum_edges_at fun _ he => (ends_mem he).1, ← map_label_contents, List.map_map]
  exact congrArg List.sum (List.map_congr_left fun v hv => vertexIndegree_eq hv)

theorem sum_vertexOutdegree (this : Graph) :
    (this.vertices.contents.map vertexOutdegree).sum = this.getNumEdges := by
  rw [← this.sum_edges_at fun _ he => (ends_mem he).2, ← map_label_contents, List.map_map]
  exact congrArg List.sum (List.map_congr_left fun v hv => vertexOutdegree_eq hv)

theorem DegreesCountEdges.balanced {this : Graph} (h : this.DegreesCountEdges) :
    this.Balanced := by
  intro l hl
  rw [← map_label_contents, List.mem_map] at hl
  obtain ⟨v, hv, rfl⟩ := hl
  rw [← h.indegree v hv, vertexIndegree_eq hv]

theorem Balanced.degreesCountEdges {this : Graph} (h : this.Balanced) :
    this.DegreesCountEdges := by
  have hlabel : ∀ v ∈ this.vertices.contents, v.label ∈ this.labels := fun v hv =>
    map_label_contents this ▸ List.mem_map_of_mem hv
  exact {
    indegree := fun v hv => (vertexIndegree_eq hv).trans (h v.label (hlabel v hv)).symm
    outdegree := fun v hv => (vertexOutdegree_eq hv).trans (h v.label (hlabel v hv))
    totdegree := fun _ _ => rfl
    vertexTotdegree := fun _ _ => rfl
    sum_indegree := sum_vertexIndegree this
    sum_outdegree := sum_vertexOutdegree this }

/-- In every graph, the degrees count edges exactly when at every vertex as many edges end as
start. -/
theorem degreesCountEdges_iff (this : Graph) : this.DegreesCountEdges ↔ this.Balanced :=
  ⟨DegreesCountEdges.balanced, Balanced.degreesCountEdges⟩

/-- So it is in whatever graph calls lead to. -/
theorem degreesCountEdges_of_run (name : CString) (directed : Bool) (ops : List Store.Op) :
    ∀ s ∈ ops.foldlM Store.run (Store.create name directed),
      (s.graph.DegreesCountEdges ↔ s.graph.Balanced) :=
  fun _ _ => ⟨DegreesCountEdges.balanced, Balanced.degreesCountEdges⟩

/-- One edge, counted at the wrong ends. -/
theorem not_degreesCountEdges_edge :
    ∃ s, [Store.Op.addVertex ['a'], .addVertex ['b'], .addEdge ['a'] ['b']].foldlM Store.run
        (Store.create ['g'] true) = some s ∧ ¬ s.graph.DegreesCountEdges := by
  have hrun : ([Store.Op.addVertex ['a'], .addVertex ['b'], .addEdge ['a'] ['b']].foldlM Store.run
      (Store.create ['g'] true)).map (fun s => decide (∃ v ∈ s.graph.vertices.contents,
        vertexIndegree v ≠ (s.graph.edgesInto v.label).length)) = some true := by decide +kernel
  obtain ⟨s, hs, hwrong⟩ := Option.map_eq_some_iff.mp hrun
  obtain ⟨v, hv, hne⟩ := of_decide_eq_true hwrong
  exact ⟨s, hs, fun h => hne (h.indegree v hv)⟩

end JunctionBox.Graph
