import JunctionBox.Foundations.PartialLoops
import JunctionBox.Graph.Graph

/-!
# The graph as a store

The operations of `JB_Graph.c` with what they return and with the flag they set,
over the graphs of the model.  `Consistent` is what the redundant maps promise
to a reader of the graph: labels and keys find what was added, the edge maps of
the vertices are the adjacency of the edge set, and adding something again finds
it.  `consistent_of_run` says so for every run of the operations.
-/

namespace JunctionBox.Graph

/-- An edge whose key is taken is not entered. -/
theorem addEdge_of_mem_keys {g : Graph} {src sink : CString}
    (hends : src ∈ g.labels ∧ sink ∈ g.labels)
    (hkey : srcsink src sink ∈ g.edges.keys) : g.addEdge src sink = some g := by
  unfold addEdge
  split
  · rfl
  · next hnot => exact absurd hends hnot

/-- An edge with a new key, field by field. -/
theorem addEdge_of_notMem_keys {g : Graph} {src sink : CString}
    (hends : src ∈ g.vertices.keys ∧ sink ∈ g.vertices.keys)
    (hnew : srcsink src sink ∉ g.edges.keys) :
    ∃ g', g.addEdge src sink = some g' ∧ g'.name = g.name ∧ g'.directed = g.directed ∧
      g'.vertices = attach g.vertices (Edge.create src sink) ∧
      g'.edges = g.edges.add (srcsink src sink) (Edge.create src sink) := by
  unfold addEdge
  rw [dif_pos hends, dif_neg hnew]
  exact ⟨_, rfl, rfl, rfl, rfl, rfl⟩

/-- A vertex with a new label, field by field. -/
theorem addVertex_of_notMem_keys {g : Graph} {name : CString} (hnew : name ∉ g.vertices.keys) :
    (g.addVertex name).name = g.name ∧ (g.addVertex name).directed = g.directed ∧
      (g.addVertex name).vertices = g.vertices.add name (Vertex.create name) ∧
      (g.addVertex name).edges = g.edges := by
  unfold addVertex
  rw [dif_neg hnew]
  exact ⟨rfl, rfl, rfl, rfl⟩

/-- `struct graph`: the flag `graph_dirty` beside the rest. -/
structure Store where
  graph : Graph
  graphDirty : Bool

namespace Store

/-- `Graph_Create`. -/
def create (name : CString) (directed : Bool) : Store := ⟨Graph.create name directed, true⟩

/-- `Graph_AddVertex`, with the vertex it returns. -/
def addVertex (this : Store) (name : CString) : Vertex × Store :=
  match this.graph.getVertex name with
  | some ret => (ret, ⟨this.graph, true⟩)
  | none => (Vertex.create name, ⟨this.graph.addVertex name, true⟩)

/-- `Graph_AddEdge` between two vertices of the graph, with the edge it returns. -/
def addEdge (this : Store) (src sink : CString) : Option (Edge × Store) := do
  let graph ← this.graph.addEdge src sink
  match this.graph.getEdge src sink with
  | some ret => return (ret, this)
  | none => return (Edge.create src sink, ⟨graph, true⟩)

/-- `Graph_ConnectAll`. -/
def connectAll (this : Store) : List CString → Option Store
  | [] => some this
  | nb1 :: rest => do
      let s ← rest.foldlM (fun (s : Store) nb2 => do
        let there ← s.addEdge nb1 nb2
        let back ← there.2.addEdge nb2 nb1
        return back.2) this
      s.connectAll rest

/-- One call. -/
inductive Op where
  | addVertex (name : CString)
  | addEdge (src sink : CString)
  | connectAll (l : List CString)

/-- The state after a call. -/
def run (this : Store) : Op → Option Store
  | .addVertex name => some (this.addVertex name).2
  | .addEdge src sink => (this.addEdge src sink).map Prod.snd
  | .connectAll l => this.connectAll l

/-! ## What a call does to the graph -/

variable {this next : Store}

theorem addVertex_eq (this : Store) (name : CString) :
    (this.addVertex name).2 = ⟨this.graph.addVertex name, true⟩ := by
  unfold Store.addVertex
  split
  · next ret hret =>
      have hmem : name ∈ this.graph.vertices.keys := by
        apply (this.graph.getVertex_isSome_iff name).mp
        rw [hret]
        rfl
      unfold Graph.addVertex
      rw [dif_pos hmem]
  · rfl

/-- What `Graph_AddVertex` returns is in the graph under its label. -/
theorem getVertex_addVertex (this : Store) (name : CString) :
    (this.addVertex name).2.graph.getVertex name = some (this.addVertex name).1 := by
  unfold Store.addVertex
  split
  · next ret hret => exact hret
  · next hret =>
      have hnew : name ∉ this.graph.vertices.keys :=
        (this.graph.vertices.get_eq_none_iff name).mp hret
      show (this.graph.addVertex name).vertices.get name = _
      rw [(addVertex_of_notMem_keys hnew).2.2.1, Map.get_add, if_pos ⟨rfl, hret⟩]

theorem addEdge_graph {src sink : CString} {e : Edge} (h : this.addEdge src sink = some (e, next)) :
    this.graph.addEdge src sink = some next.graph := by
  unfold Store.addEdge at h
  obtain ⟨graph, hgraph, h⟩ := Option.bind_eq_some_iff.mp h
  cases hget : this.graph.getEdge src sink with
  | none =>
      rw [hget] at h
      obtain ⟨-, rfl⟩ := Prod.mk.injEq .. ▸ Option.some.inj h
      exact hgraph
  | some ret =>
      rw [hget] at h
      obtain ⟨-, rfl⟩ := Prod.mk.injEq .. ▸ Option.some.inj h
      have hkey : srcsink src sink ∈ this.graph.edges.keys := by
        rw [← Map.isSome_get_iff]
        show (this.graph.getEdge src sink).isSome
        rw [hget]
        rfl
      have hends := addEdge_isSome_iff.mp (Option.isSome_iff_exists.mpr ⟨graph, hgraph⟩)
      exact addEdge_of_mem_keys hends hkey

/-- An edge can be added between any two vertices of the graph. -/
theorem exists_addEdge {src sink : CString} (hsrc : src ∈ this.graph.labels)
    (hsink : sink ∈ this.graph.labels) : ∃ r, this.addEdge src sink = some r := by
  obtain ⟨graph, hgraph⟩ := Graph.exists_addEdge hsrc hsink
  unfold Store.addEdge
  rw [hgraph]
  cases this.graph.getEdge src sink with
  | none => exact ⟨_, rfl⟩
  | some ret => exact ⟨_, rfl⟩

theorem connectAll_graph {l : List CString} (h : this.connectAll l = some next) :
    this.graph.connectAll l = some next.graph := by
  induction l generalizing this with
  | nil => rw [← Option.some.inj h]; rfl
  | cons nb1 rest ih =>
      obtain ⟨mid, hmid, hrest⟩ := Option.bind_eq_some_iff.mp h
      obtain ⟨g, hg, hgraph⟩ := PartialLoops.foldlM_transport (φ := id)
        (g := fun (g : Graph) nb2 => do (← g.addEdge nb1 nb2).addEdge nb2 nb1)
        (fun (s : Store) (g : Graph) => g = s.graph) hmid rfl fun s g nb2 s' _ hrel hstep => by
          obtain ⟨there, hthere, hstep⟩ := Option.bind_eq_some_iff.mp hstep
          obtain ⟨back, hback, hstep⟩ := Option.bind_eq_some_iff.mp hstep
          refine ⟨s'.graph, ?_, rfl⟩
          rw [hrel, ← Option.some.inj hstep]
          simp only [id, addEdge_graph hthere, Option.bind_eq_bind, Option.bind_some]
          exact addEdge_graph hback
      unfold Graph.connectAll
      rw [List.map_id] at hg
      rw [hg, hgraph]
      exact ih hrest

theorem labels_connectAll {g g' : Graph} {l : List CString} (h : g.connectAll l = some g') :
    g'.labels = g.labels := by
  induction l generalizing g with
  | nil => rw [← Option.some.inj h]
  | cons nb1 rest ih =>
      obtain ⟨mid, hmid, hrest⟩ := Option.bind_eq_some_iff.mp h
      rw [ih hrest]
      refine PartialLoops.foldlM_invariant (fun s : Graph => s.labels = g.labels) hmid rfl ?_
      intro s nb2 s' _ hs hstep
      obtain ⟨there, hthere, hback⟩ := Option.bind_eq_some_iff.mp hstep
      rw [labels_addEdge hback, labels_addEdge hthere, hs]

/-- Which vertices a call adds. -/
theorem mem_labels_run {op : Op} (h : this.run op = some next) {name : CString} :
    name ∈ next.graph.labels ↔ op = .addVertex name ∨ name ∈ this.graph.labels := by
  cases op with
  | addVertex name' =>
      rw [← Option.some.inj h, addVertex_eq, Graph.mem_labels_addVertex, Op.addVertex.injEq,
        eq_comm (a := name)]
  | addEdge src sink =>
      obtain ⟨⟨e, s⟩, hrun, rfl⟩ := Option.map_eq_some_iff.mp h
      rw [labels_addEdge (addEdge_graph hrun)]
      simp
  | connectAll l =>
      rw [labels_connectAll (connectAll_graph h)]
      simp

/-- What the store promises its readers. -/
structure Consistent (this : Store) : Prop where
  nodup_labels : (this.graph.vertices.contents.map Vertex.label).Nodup
  getVertex : ∀ name v, this.graph.getVertex name = some v ↔
    v ∈ this.graph.vertices.contents ∧ v.label = name
  nodup_keys : (this.graph.edges.contents.map Edge.srcSink).Nodup
  mem_outedges : ∀ e, e ∈ this.graph.edges.contents ↔
    ∃ v, this.graph.getVertex e.src = some v ∧ e ∈ v.outedges.contents
  mem_inedges : ∀ e, e ∈ this.graph.edges.contents ↔
    ∃ v, this.graph.getVertex e.sink = some v ∧ e ∈ v.inedges.contents
  outedges_src : ∀ v ∈ this.graph.vertices.contents, ∀ e ∈ v.outedges.contents, e.src = v.label
  inedges_sink : ∀ v ∈ this.graph.vertices.contents, ∀ e ∈ v.inedges.contents, e.sink = v.label
  size_vertices : this.graph.vertices.size = this.graph.vertices.contents.length
  size_edges : this.graph.edges.size = this.graph.edges.contents.length
  size_outedges : ∀ v ∈ this.graph.vertices.contents,
    v.outedges.size = v.outedges.contents.length
  size_inedges : ∀ v ∈ this.graph.vertices.contents, v.inedges.size = v.inedges.contents.length
  addVertex_again : ∀ v ∈ this.graph.vertices.contents,
    this.addVertex v.label = (v, { this with graphDirty := true })
  addEdge_again : ∀ e ∈ this.graph.edges.contents, this.addEdge e.src e.sink = some (e, this)

theorem getVertex_iff (g : Graph) (name : CString) (v : Vertex) :
    g.getVertex name = some v ↔ v ∈ g.vertices.contents ∧ v.label = name := by
  unfold Graph.getVertex
  rw [Map.get_eq_some_iff, Map.contents, List.mem_map]
  constructor
  · intro h
    exact ⟨⟨_, h, rfl⟩, g.vertex_label _ h⟩
  · rintro ⟨⟨me, hme, rfl⟩, hlabel⟩
    rw [← hlabel, g.vertex_label me hme]
    exact hme

theorem contents_outedges {g : Graph} {v : Vertex} (hv : v ∈ g.vertices.contents) :
    v.outedges.contents = g.edges.contents.filter fun e => e.src = v.label := by
  obtain ⟨me, hme, rfl⟩ := List.mem_map.mp hv
  unfold Map.contents
  rw [g.outedges_eq me hme, g.vertex_label me hme, List.filter_map]
  rfl

theorem contents_inedges {g : Graph} {v : Vertex} (hv : v ∈ g.vertices.contents) :
    v.inedges.contents = g.edges.contents.filter fun e => e.sink = v.label := by
  obtain ⟨me, hme, rfl⟩ := List.mem_map.mp hv
  unfold Map.contents
  rw [g.inedges_eq me hme, g.vertex_label me hme, List.filter_map]
  rfl

/-- The edges of the graph are those kept at their vertices, in either direction. -/
theorem mem_edges_at {g : Graph} {endpoint : Edge → CString} {edgesAt : Vertex → Map Edge}
    (hcontents : ∀ {v}, v ∈ g.vertices.contents →
      (edgesAt v).contents = g.edges.contents.filter fun e => endpoint e = v.label)
    (hends : ∀ e ∈ g.edges.contents, endpoint e ∈ g.labels) (e : Edge) :
    e ∈ g.edges.contents ↔
      ∃ v, g.getVertex (endpoint e) = some v ∧ e ∈ (edgesAt v).contents := by
  constructor
  · intro he
    obtain ⟨v, hv⟩ := Option.isSome_iff_exists.mp
      ((g.getVertex_isSome_iff (endpoint e)).mpr (hends e he))
    obtain ⟨hmem, hlabel⟩ := (getVertex_iff g (endpoint e) v).mp hv
    refine ⟨v, hv, ?_⟩
    rw [hcontents hmem]
    exact List.mem_filter.mpr ⟨he, decide_eq_true hlabel.symm⟩
  · rintro ⟨v, hv, he⟩
    rw [hcontents ((getVertex_iff g (endpoint e) v).mp hv).1] at he
    exact (List.mem_filter.mp he).1

theorem size_eq_length {β : Type} (m : Map β) : m.size = m.contents.length := by
  rw [m.size_eq, Map.contents, List.length_map]

/-- The redundant maps of a graph agree. -/
theorem consistent (this : Store) : this.Consistent where
  nodup_labels := by
    have hlabels : this.graph.vertices.contents.map Vertex.label = this.graph.labels := by
      unfold Map.contents labels Map.keys
      rw [List.map_map]
      exact List.map_congr_left fun me hme => this.graph.vertex_label me hme
    rw [hlabels]
    exact this.graph.labels_nodup
  getVertex := getVertex_iff this.graph
  nodup_keys := this.graph.nodup_srcSink
  mem_outedges := mem_edges_at contents_outedges fun _ he => (ends_mem he).1
  mem_inedges := mem_edges_at contents_inedges fun _ he => (ends_mem he).2
  outedges_src v hv e he := by
    rw [contents_outedges hv] at he
    exact of_decide_eq_true (List.mem_filter.mp he).2
  inedges_sink v hv e he := by
    rw [contents_inedges hv] at he
    exact of_decide_eq_true (List.mem_filter.mp he).2
  size_vertices := size_eq_length _
  size_edges := size_eq_length _
  size_outedges _ _ := size_eq_length _
  size_inedges _ _ := size_eq_length _
  addVertex_again v hv := by
    have hget := (getVertex_iff this.graph v.label v).mpr ⟨hv, rfl⟩
    unfold Store.addVertex
    rw [hget]
  addEdge_again e he := by
    have hkey : e.srcSink = srcsink e.src e.sink := congrArg Edge.srcSink (eq_create_of_mem he)
    have hget := getEdge_eq_some_iff.mpr ⟨he, hkey⟩
    obtain ⟨graph, hgraph⟩ := Graph.exists_addEdge (ends_mem he).1 (ends_mem he).2
    unfold Store.addEdge
    rw [hgraph, hget]
    rfl

/-- Every state that calls lead to from a new graph is consistent, and finds the vertices
that were added. -/
theorem consistent_of_run {name : CString} {directed : Bool} {ops : List Op} {s : Store}
    (h : ops.foldlM run (create name directed) = some s) :
    s.Consistent ∧ ∀ l, (s.graph.getVertex l).isSome ↔ Op.addVertex l ∈ ops := by
  have hlabels : ∀ (ops : List Op) (start : Store), ops.foldlM run start = some s →
      ∀ l, l ∈ s.graph.labels ↔ Op.addVertex l ∈ ops ∨ l ∈ start.graph.labels := by
    intro ops
    induction ops with
    | nil =>
        intro start hrun l
        rw [← Option.some.inj hrun]
        simp
    | cons op ops ih =>
        intro start hrun l
        rw [List.foldlM_cons] at hrun
        obtain ⟨mid, hmid, hrest⟩ := Option.bind_eq_some_iff.mp hrun
        rw [ih mid hrest, mem_labels_run hmid, List.mem_cons, eq_comm (a := op)]
        tauto
  refine ⟨s.consistent, fun l => ?_⟩
  rw [Graph.getVertex_isSome_iff, hlabels ops _ h]
  simp [create]

/-- Calls that add a vertex and an edge again, and complete what is there already. -/
def sampleOps : List Op :=
  [.addVertex ['a'], .addVertex ['b'], .addVertex ['a'], .addEdge ['a'] ['b'],
    .addEdge ['a'] ['b'], .connectAll [['a'], ['b']]]

theorem consistent_of_run_sample :
    ∃ s, sampleOps.foldlM run (create ['g'] false) = some s ∧ s.Consistent ∧
      s.graph.edges.size = 2 := by
  have hrun : (sampleOps.foldlM run (create ['g'] false)).map
      (fun s => s.graph.edges.size) = some 2 := by decide +kernel
  obtain ⟨s, hs, hsize⟩ := Option.map_eq_some_iff.mp hrun
  exact ⟨s, hs, (consistent_of_run hs).1, hsize⟩

end Store

end JunctionBox.Graph
