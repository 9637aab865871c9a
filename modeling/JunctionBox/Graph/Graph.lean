import JunctionBox.Util.Map

/-!
# Graphs

`JB_Graph.c` keeps all vertices in one map, keyed by label, and all edges in
another, keyed by the two labels with a blank between them; every vertex also
has maps of its outgoing and incoming edges.  The redundancy is an invariant:
`outedges` and `inedges` are the edges of the graph that start, respectively
end, at the vertex, in the order of the graph's own edge map.  These facts are
fields of `Graph`, so a graph in which they fail cannot be built.

A pointer to a vertex is its label here, and a pointer to an edge the edge; what
the source hangs on vertices and edges as `void *` (elimination sets,
potentials, memos) is kept beside the graph.  Dereferencing a missing vertex is
`none`.
-/

namespace JunctionBox

/-- `srcsink`, the key of an edge. -/
def srcsink (src sink : CString) : CString := src ++ ' ' :: sink

/-- `struct edge`. -/
structure Edge where
  srcSink : CString
  src : CString
  sink : CString
deriving DecidableEq

/-- `Edge_Create`. -/
def Edge.create (src sink : CString) : Edge := ⟨srcsink src sink, src, sink⟩

/-- `struct vertex`. -/
structure Vertex where
  label : CString
  outedges : Map Edge
  inedges : Map Edge

/-- `Vertex_Create`. -/
def Vertex.create (name : CString) : Vertex := ⟨name, Map.create, Map.create⟩

/-- `Vertex_Totdegree`. -/
def Vertex.totdegree (v : Vertex) : ℕ := v.outedges.size + v.inedges.size

/-- `struct graph`. -/
structure Graph where
  name : CString
  directed : Bool
  vertices : Map Vertex
  edges : Map Edge
  vertex_label : ∀ me ∈ vertices.first, me.2.label = me.1
  edge_key : ∀ me ∈ edges.first, me.2 = Edge.create me.2.src me.2.sink ∧ me.2.srcSink = me.1
  edge_ends : ∀ me ∈ edges.first, me.2.src ∈ vertices.keys ∧ me.2.sink ∈ vertices.keys
  outedges_eq : ∀ me ∈ vertices.first,
    me.2.outedges.first = edges.first.filter fun e => e.2.src = me.1
  inedges_eq : ∀ me ∈ vertices.first,
    me.2.inedges.first = edges.first.filter fun e => e.2.sink = me.1

namespace Graph

/-- `Graph_Create`. -/
def create (name : CString) (directed : Bool) : Graph where
  name := name
  directed := directed
  vertices := Map.create
  edges := Map.create
  vertex_label := by simp
  edge_key := by simp
  edge_ends := by simp
  outedges_eq := by simp
  inedges_eq := by simp

/-- `Graph_SetDirected`. -/
def setDirected (this : Graph) (setting : Bool) : Graph := { this with directed := setting }

/-- The labels of the vertices, in list order. -/
def labels (this : Graph) : List CString := this.vertices.keys

/-- The edges, in list order. -/
def edgeList (this : Graph) : List Edge := this.edges.contents

/-- `Graph_GetNumVertices`. -/
def getNumVertices (this : Graph) : ℕ := this.vertices.size

/-- `Graph_GetNumEdges`. -/
def getNumEdges (this : Graph) : ℕ := this.edges.size

/-- `Graph_GetVertex`. -/
def getVertex (this : Graph) (name : CString) : Option Vertex := this.vertices.get name

/-- `Graph_GetEdge`. -/
def getEdge (this : Graph) (src sink : CString) : Option Edge :=
  this.edges.get (srcsink src sink)

/-- `Graph_AddVertex`: nothing happens when there is a vertex of that name. -/
def addVertex (this : Graph) (name : CString) : Graph :=
  if h : name ∈ this.vertices.keys then this
  else
    { this with
      vertices := this.vertices.add name (Vertex.create name)
      vertex_label := by
        rw [Map.first_add, if_neg h]
        intro me hme
        rcases List.mem_cons.mp hme with rfl | hme
        · rfl
        · exact this.vertex_label me hme
      edge_ends := by
        intro me hme
        have hkeys : ∀ key ∈ this.vertices.keys,
            key ∈ (this.vertices.add name (Vertex.create name)).keys := by
          intro key hkey
          rw [Map.keys, Map.first_add, if_neg h]
          exact List.mem_cons_of_mem _ hkey
        exact ⟨hkeys _ (this.edge_ends me hme).1, hkeys _ (this.edge_ends me hme).2⟩
      outedges_eq := by
        rw [Map.first_add, if_neg h]
        intro me hme
        rcases List.mem_cons.mp hme with rfl | hme
        · symm
          rw [show (Vertex.create name).outedges.first = [] from rfl, List.filter_eq_nil_iff]
          intro e he heq
          have hname : e.2.src = name := of_decide_eq_true heq
          exact h (hname ▸ (this.edge_ends e he).1)
        · exact this.outedges_eq me hme
      inedges_eq := by
        rw [Map.first_add, if_neg h]
        intro me hme
        rcases List.mem_cons.mp hme with rfl | hme
        · symm
          rw [show (Vertex.create name).inedges.first = [] from rfl, List.filter_eq_nil_iff]
          intro e he heq
          have hname : e.2.sink = name := of_decide_eq_true heq
          exact h (hname ▸ (this.edge_ends e he).2)
        · exact this.inedges_eq me hme }

/-- `EdgeMap_Add` on the map of outgoing edges. -/
def Vertex.addOut (v : Vertex) (e : Edge) : Vertex :=
  { v with outedges := v.outedges.add e.srcSink e }

/-- `EdgeMap_Add` on the map of incoming edges. -/
def Vertex.addIn (v : Vertex) (e : Edge) : Vertex :=
  { v with inedges := v.inedges.add e.srcSink e }

/-- The vertices after a new edge has been entered at its two ends. -/
def attach (vertices : Map Vertex) (e : Edge) : Map Vertex :=
  (vertices.modify e.src fun v => Vertex.addOut v e).modify e.sink fun v => Vertex.addIn v e

theorem keys_attach (vertices : Map Vertex) (e : Edge) :
    (attach vertices e).keys = vertices.keys := by
  rw [attach, Map.keys_modify, Map.keys_modify]

/-- What a vertex looks like after `attach`. -/
theorem mem_attach {vertices : Map Vertex} {e : Edge} {key : CString} {w : Vertex}
    (h : (key, w) ∈ (attach vertices e).first) :
    ∃ v, (key, v) ∈ vertices.first ∧ w.label = v.label ∧
      w.outedges = (if e.src = key then v.outedges.add e.srcSink e else v.outedges) ∧
      w.inedges = (if e.sink = key then v.inedges.add e.srcSink e else v.inedges) := by
  rw [attach, Map.mem_first_modify] at h
  obtain ⟨u, hu, rfl⟩ := h
  rw [Map.mem_first_modify] at hu
  obtain ⟨v, hv, rfl⟩ := hu
  refine ⟨v, hv, ?_⟩
  simp only [eq_comm (b := key), Vertex.addOut, Vertex.addIn]
  split <;> split <;> exact ⟨rfl, rfl, rfl⟩

/-- The graph with a new edge between two of its vertices. -/
def enterEdge (this : Graph) (e : Edge) (hedge : e = Edge.create e.src e.sink)
    (hends : e.src ∈ this.vertices.keys ∧ e.sink ∈ this.vertices.keys)
    (hnew : e.srcSink ∉ this.edges.keys) : Graph :=
  have hfirst : (this.edges.add e.srcSink e).first = (e.srcSink, e) :: this.edges.first := by
    rw [Map.first_add, if_neg hnew]
  { this with
    vertices := attach this.vertices e
    edges := this.edges.add e.srcSink e
    vertex_label := by
      rintro ⟨key, w⟩ hw
      obtain ⟨v, hv, hlabel, -⟩ := mem_attach hw
      exact hlabel.trans (this.vertex_label _ hv)
    edge_key := by
      rw [hfirst]
      intro me hme
      rcases List.mem_cons.mp hme with rfl | hme
      · exact ⟨hedge, rfl⟩
      · exact this.edge_key me hme
    edge_ends := by
      rw [hfirst, keys_attach]
      intro me hme
      rcases List.mem_cons.mp hme with rfl | hme
      · exact hends
      · exact this.edge_ends me hme
    outedges_eq := by
      rintro ⟨key, w⟩ hw
      obtain ⟨v, hv, -, hout, -⟩ := mem_attach hw
      rw [hout]
      exact Map.first_add_filter e (q := fun me => me.2.src = key) (this.outedges_eq _ hv) hnew
    inedges_eq := by
      rintro ⟨key, w⟩ hw
      obtain ⟨v, hv, -, -, hin⟩ := mem_attach hw
      rw [hin]
      exact Map.first_add_filter e (q := fun me => me.2.sink = key) (this.inedges_eq _ hv) hnew }

/-- `Graph_AddEdge` between two vertices of the graph; an edge whose key is there
already is not entered again. -/
def addEdge (this : Graph) (src sink : CString) : Option Graph :=
  if hends : src ∈ this.vertices.keys ∧ sink ∈ this.vertices.keys then
    if hnew : srcsink src sink ∈ this.edges.keys then some this
    else some (this.enterEdge (Edge.create src sink) rfl hends hnew)
  else none

/-- `Graph_ConnectAll`, for vertices given by their labels: the pairs of one list
element and a later one, in both directions. -/
def connectAll (this : Graph) : List CString → Option Graph
  | [] => some this
  | nb1 :: rest => do
      let g ← rest.foldlM (fun (g : Graph) nb2 => do (← g.addEdge nb1 nb2).addEdge nb2 nb1) this
      g.connectAll rest

/-! ## What the operations do -/

theorem labels_nodup (this : Graph) : this.labels.Nodup := this.vertices.nodup_keys

@[simp] theorem labels_create (name : CString) (directed : Bool) :
    (create name directed).labels = [] := rfl

@[simp] theorem edgeList_create (name : CString) (directed : Bool) :
    (create name directed).edgeList = [] := rfl

theorem length_labels (this : Graph) : this.labels.length = this.getNumVertices := by
  rw [getNumVertices, this.vertices.size_eq, labels, Map.keys, List.length_map]

theorem length_edgeList (this : Graph) : this.edgeList.length = this.getNumEdges := by
  rw [getNumEdges, this.edges.size_eq, edgeList, Map.contents, List.length_map]

theorem getVertex_isSome_iff (this : Graph) (name : CString) :
    (this.getVertex name).isSome ↔ name ∈ this.labels := this.vertices.isSome_get_iff name

theorem label_of_getVertex {this : Graph} {name : CString} {v : Vertex}
    (h : this.getVertex name = some v) : v.label = name :=
  this.vertex_label _ ((this.vertices.get_eq_some_iff name v).mp h)

theorem labels_addVertex (this : Graph) (name : CString) :
    (this.addVertex name).labels =
      if name ∈ this.labels then this.labels else name :: this.labels := by
  unfold addVertex
  split
  · next h => exact (if_pos h).symm
  · next h =>
      have hold : name ∉ this.labels := h
      rw [if_neg hold, labels, Map.keys, Map.first_add, if_neg h]
      rfl

@[simp] theorem edges_addVertex (this : Graph) (name : CString) :
    (this.addVertex name).edges = this.edges := by
  unfold addVertex
  split <;> rfl

theorem mem_labels_addVertex {this : Graph} {name l : CString} :
    l ∈ (this.addVertex name).labels ↔ l = name ∨ l ∈ this.labels := by
  rw [labels_addVertex]
  split
  · next h => exact ⟨Or.inr, fun hl => hl.elim (fun heq => heq ▸ h) id⟩
  · exact List.mem_cons

theorem mem_edgeList {this : Graph} {e : Edge} :
    e ∈ this.edgeList ↔ (e.srcSink, e) ∈ this.edges.first := by
  rw [edgeList, Map.contents, List.mem_map]
  constructor
  · rintro ⟨me, hme, rfl⟩
    rw [(this.edge_key me hme).2]
    exact hme
  · exact fun h => ⟨_, h, rfl⟩

theorem eq_create_of_mem {this : Graph} {e : Edge} (h : e ∈ this.edgeList) :
    e = Edge.create e.src e.sink := (this.edge_key _ (mem_edgeList.mp h)).1

theorem ends_mem {this : Graph} {e : Edge} (h : e ∈ this.edgeList) :
    e.src ∈ this.labels ∧ e.sink ∈ this.labels := this.edge_ends _ (mem_edgeList.mp h)

/-- `Graph_GetEdge` finds exactly the edges of the graph. -/
theorem getEdge_eq_some_iff {this : Graph} {src sink : CString} {e : Edge} :
    this.getEdge src sink = some e ↔ e ∈ this.edgeList ∧ e.srcSink = srcsink src sink := by
  rw [getEdge, Map.get_eq_some_iff, mem_edgeList]
  constructor
  · intro h
    have hkey := (this.edge_key _ h).2
    exact ⟨hkey.symm ▸ h, hkey⟩
  · rintro ⟨h, hkey⟩
    exact hkey ▸ h

theorem nodup_srcSink (this : Graph) : (this.edgeList.map Edge.srcSink).Nodup := by
  have hkeys : this.edgeList.map Edge.srcSink = this.edges.first.map Prod.fst := by
    rw [edgeList, Map.contents, List.map_map]
    exact List.map_congr_left fun me hme => (this.edge_key me hme).2
  rw [hkeys]
  exact this.edges.nodup_keys

/-- The edges of a graph are told apart by their keys. -/
theorem eq_of_srcSink_eq {this : Graph} {e e' : Edge} (h : e ∈ this.edgeList)
    (h' : e' ∈ this.edgeList) (heq : e.srcSink = e'.srcSink) : e = e' :=
  List.inj_on_of_nodup_map this.nodup_srcSink h h' heq

theorem mem_edges_keys_iff {this : Graph} {key : CString} :
    key ∈ this.edges.keys ↔ ∃ e ∈ this.edgeList, e.srcSink = key := by
  rw [Map.mem_keys_iff]
  constructor
  · rintro ⟨e, he⟩
    have hkey := (this.edge_key _ he).2
    exact ⟨e, mem_edgeList.mpr (hkey.symm ▸ he), hkey⟩
  · rintro ⟨e, he, rfl⟩
    exact ⟨e, mem_edgeList.mp he⟩

theorem addEdge_isSome_iff {this : Graph} {src sink : CString} :
    (this.addEdge src sink).isSome ↔ src ∈ this.labels ∧ sink ∈ this.labels := by
  unfold addEdge
  split
  · next h => split <;> exact ⟨fun _ => h, fun _ => rfl⟩
  · next h => exact ⟨fun hsome => absurd hsome (by simp), fun hends => absurd hends h⟩

theorem exists_addEdge {this : Graph} {src sink : CString} (hsrc : src ∈ this.labels)
    (hsink : sink ∈ this.labels) : ∃ g, this.addEdge src sink = some g :=
  Option.isSome_iff_exists.mp (addEdge_isSome_iff.mpr ⟨hsrc, hsink⟩)

theorem labels_addEdge {this g : Graph} {src sink : CString}
    (h : this.addEdge src sink = some g) : g.labels = this.labels := by
  unfold addEdge at h
  split at h
  · split at h
    · rw [Option.some.inj h]
    · rw [← Option.some.inj h]
      exact keys_attach _ _
  · exact absurd h (by simp)

/-- Adding edges between vertices that are there ends. -/
theorem exists_addEdges_iff {new : List (CString × CString)} {this : Graph} :
    (∃ g, new.foldlM (fun (g : Graph) p => g.addEdge p.1 p.2) this = some g) ↔
      ∀ p ∈ new, p.1 ∈ this.labels ∧ p.2 ∈ this.labels := by
  induction new generalizing this with
  | nil => exact iff_of_true ⟨this, rfl⟩ fun p hp => absurd hp List.not_mem_nil
  | cons p new ih =>
      rw [List.forall_mem_cons, ← addEdge_isSome_iff, Option.isSome_iff_exists]
      constructor
      · rintro ⟨g, hrun⟩
        rw [List.foldlM_cons] at hrun
        obtain ⟨mid, hmid, hrest⟩ := Option.bind_eq_some_iff.mp hrun
        refine ⟨⟨mid, hmid⟩, ?_⟩
        rw [← labels_addEdge hmid]
        exact ih.mp ⟨g, hrest⟩
      · rintro ⟨⟨mid, hmid⟩, hnew⟩
        rw [← labels_addEdge hmid] at hnew
        obtain ⟨g, hrest⟩ := ih.mpr hnew
        exact ⟨g, by rw [List.foldlM_cons, hmid]; exact hrest⟩

/-- Adding edges adds no vertices. -/
theorem labels_addEdges {new : List (CString × CString)} {this g : Graph}
    (h : new.foldlM (fun (g : Graph) p => g.addEdge p.1 p.2) this = some g) :
    g.labels = this.labels := by
  induction new generalizing this with
  | nil => rw [← Option.some.inj h]
  | cons p new ih =>
      rw [List.foldlM_cons] at h
      obtain ⟨mid, hmid, hrest⟩ := Option.bind_eq_some_iff.mp h
      rw [ih hrest, labels_addEdge hmid]

/-- A new edge comes first; an edge whose key is taken is not entered. -/
theorem edgeList_addEdge {this g : Graph} {src sink : CString}
    (h : this.addEdge src sink = some g) :
    g.edgeList = if srcsink src sink ∈ this.edges.keys then this.edgeList
      else Edge.create src sink :: this.edgeList := by
  unfold addEdge at h
  split at h
  · split at h
    · next hkey => rw [if_pos hkey, Option.some.inj h]
    · next hkey =>
        rw [if_neg hkey, ← Option.some.inj h]
        have hfirst := this.edges.first_add (srcsink src sink) (Edge.create src sink)
        rw [if_neg hkey] at hfirst
        exact congrArg (List.map Prod.snd) hfirst
  · exact absurd h (by simp)

end Graph

end JunctionBox
