import JunctionBox.Graph.Content
import JunctionBox.Graph.Protocols

/-!
# Graphs on the heap

The graphs of the other files are values.  Here they are what the source has:
cells that point at each other.  A vertex knows its graph and keeps pointers to
its edges, an edge knows its graph and points at its two vertices, and a graph
keeps pointers to both.

`IsGraph` says that the graph at a pointer reads as a given value, and that all
the pointers met on the way stay inside it.  Each operation on the heap does to
the reading what the operation of the same name does to the value, and writes
only to the graph it is called on (`Writes`); so `Graph_Copy` leaves every cell
there was as it was, and what it returns points at nothing old.
-/

namespace JunctionBox

/-- `struct vertex`. -/
structure VertexCell where
  owner : ℕ
  label : CString
  outedges : Map ℕ
  inedges : Map ℕ

/-- `struct edge`. -/
structure EdgeCell where
  owner : ℕ
  srcSink : CString
  src : ℕ
  sink : ℕ

/-- `struct graph`. -/
structure GraphCell where
  name : CString
  directed : Bool
  graphDirty : Bool
  vertices : Map ℕ
  edges : Map ℕ

/-- The cells of each kind; a pointer is a position. -/
structure Heap where
  graphs : List GraphCell
  vertices : List VertexCell
  edges : List EdgeCell

namespace Heap

/-- Nothing has been allocated. -/
def empty : Heap := ⟨[], [], []⟩

/-- `Vertex_GetLabel`. -/
def vertexGetLabel (h : Heap) (v : ℕ) : Option CString := h.vertices[v]?.map VertexCell.label

/-- `Graph_Create`, with the pointer it returns. -/
def create (h : Heap) (name : CString) (directed : Bool) : Heap × ℕ :=
  ({ h with graphs := h.graphs ++ [⟨name, directed, true, Map.create, Map.create⟩] },
    h.graphs.length)

/-- `Vertex_Create`. -/
def vertexCreate (h : Heap) (owner : ℕ) (name : CString) : Heap × ℕ :=
  ({ h with vertices := h.vertices ++ [⟨owner, name, Map.create, Map.create⟩] },
    h.vertices.length)

/-- `Graph_GetVertex`. -/
def getVertex (h : Heap) (g : ℕ) (name : CString) : Option ℕ := do
  let c ← h.graphs[g]?
  c.vertices.get name

/-- `Graph_AddVertex`, with the pointer it returns. -/
def addVertex (h : Heap) (g : ℕ) (name : CString) : Option (Heap × ℕ) := do
  let c ← h.graphs[g]?
  let ret := match c.vertices.get name with
    | some ret => (h, ret)
    | none => h.vertexCreate g name
  let label ← ret.1.vertexGetLabel ret.2
  let c := { c with graphDirty := true, vertices := c.vertices.add label ret.2 }
  return ({ ret.1 with graphs := ret.1.graphs.set g c }, ret.2)

/-- `Graph_GetEdge`; the inner `none` is `NULL`. -/
def getEdge (h : Heap) (g src sink : ℕ) : Option (Option ℕ) := do
  let a ← h.vertexGetLabel src
  let b ← h.vertexGetLabel sink
  let c ← h.graphs[g]?
  return c.edges.get (srcsink a b)

/-- `Edge_Create`, with the cell it fills. -/
def edgeCreate (h : Heap) (owner src sink : ℕ) : Option (Heap × ℕ × EdgeCell) := do
  let a ← h.vertexGetLabel src
  let b ← h.vertexGetLabel sink
  let e : EdgeCell := ⟨owner, srcsink a b, src, sink⟩
  return ({ h with edges := h.edges ++ [e] }, h.edges.length, e)

/-- A write to the vertex at `v`. -/
def updateVertex (h : Heap) (v : ℕ) (f : VertexCell → VertexCell) : Option Heap := do
  let cell ← h.vertices[v]?
  return { h with vertices := h.vertices.set v (f cell) }

/-- `Graph_AddEdge`, with the pointer it returns: a new edge enters three maps. -/
def addEdge (h : Heap) (g src sink : ℕ) : Option (Heap × ℕ) := do
  match ← h.getEdge g src sink with
  | some ret => return (h, ret)
  | none =>
      let made ← h.edgeCreate g src sink
      let c ← made.1.graphs[g]?
      let c := { c with
        graphDirty := true
        edges := c.edges.add made.2.2.srcSink made.2.1 }
      let h := { made.1 with graphs := made.1.graphs.set g c }
      let h ← h.updateVertex src fun v =>
        { v with outedges := v.outedges.add made.2.2.srcSink made.2.1 }
      let h ← h.updateVertex sink fun v =>
        { v with inedges := v.inedges.add made.2.2.srcSink made.2.1 }
      return (h, made.2.1)

/-- `Graph_GetFstVertex`. -/
def getFstVertex (h : Heap) (g : ℕ) : Option ℕ := do
  let c ← h.graphs[g]?
  c.vertices.getFirst

/-- `Graph_GetNxtVertex`. -/
def getNxtVertex (h : Heap) (g v : ℕ) : Option ℕ := do
  let label ← h.vertexGetLabel v
  let c ← h.graphs[g]?
  c.vertices.getNext label

/-- `Graph_GetFstParent`. -/
def getFstParent (h : Heap) (v : ℕ) : Option ℕ := do
  let cell ← h.vertices[v]?
  let e ← cell.inedges.getFirst
  let tail ← h.edges[e]?
  return tail.src

/-- `Graph_GetNxtParent`. -/
def getNxtParent (h : Heap) (g v last : ℕ) : Option ℕ := do
  let tmp ← ← h.getEdge g last v
  let tmp ← h.edges[tmp]?
  let cell ← h.vertices[v]?
  let e ← cell.inedges.getNext tmp.srcSink
  let tail ← h.edges[e]?
  return tail.src

/-- `for (x = fst; x != NULL; x = nxt(x)) body(x)`, where `nxt` sees the heap the body has left;
`none` when the loop has not come to its end within so many rounds. -/
def loop (nxt : Heap → ℕ → Option ℕ) (body : Heap → ℕ → Option Heap) :
    ℕ → Option ℕ → Heap → Option Heap
  | _, none, h => some h
  | 0, some _, _ => none
  | rounds + 1, some x, h => do
      let h ← body h x
      loop nxt body rounds (nxt h x) h

/-- The round of `Graph_Copy` for one parent. -/
def copyParent (fresh curF : ℕ) (h : Heap) (curParent : ℕ) : Option Heap := do
  let label ← h.vertexGetLabel curParent
  let curParentF ← h.addVertex fresh label
  let e ← curParentF.1.addEdge fresh curParentF.2 curF
  return e.1

/-- The round of `Graph_Copy` for one vertex. -/
def copyVertex (this fresh : ℕ) (h : Heap) (cur : ℕ) : Option Heap := do
  let label ← h.vertexGetLabel cur
  let curF ← h.addVertex fresh label
  let cell ← curF.1.vertices[cur]?
  loop (fun h last => h.getNxtParent this cur last) (copyParent fresh curF.2) cell.inedges.size
    (curF.1.getFstParent cur) curF.1

/-- `Graph_Copy`, with the pointer it returns. -/
def copy (h : Heap) (this : ℕ) : Option (Heap × ℕ) := do
  let c ← h.graphs[this]?
  let fresh := h.create c.name c.directed
  let h ← loop (fun h v => h.getNxtVertex this v) (copyVertex this fresh.2) c.vertices.size
    (fresh.1.getFstVertex this) fresh.1
  let c ← h.graphs[fresh.2]?
  return ({ h with graphs := h.graphs.set fresh.2 { c with graphDirty := true } }, fresh.2)

/-- One call; a caller gets its vertices from `Graph_GetVertex`. -/
inductive Call
  | create (name : CString) (directed : Bool)
  | addVertex (g : ℕ) (name : CString)
  | addEdge (g : ℕ) (src sink : CString)
  | copy (g : ℕ)

/-- The heap after a call. -/
def run (h : Heap) : Call → Option Heap
  | .create name directed => some (h.create name directed).1
  | .addVertex g name => (h.addVertex g name).map Prod.fst
  | .addEdge g src sink => do
      let src ← h.getVertex g src
      let sink ← h.getVertex g sink
      let e ← h.addEdge g src sink
      return e.1
  | .copy g => (h.copy g).map Prod.fst

/-! ## Reading the heap -/

/-- The label of the vertex at `v`. -/
def labelAt (h : Heap) (v : ℕ) : CString := (h.vertexGetLabel v).getD []

/-- The edge at `e`. -/
def edgeAt (h : Heap) (e : ℕ) : Edge :=
  match h.edges[e]? with
  | some cell => ⟨cell.srcSink, h.labelAt cell.src, h.labelAt cell.sink⟩
  | none => ⟨[], [], []⟩

/-- The vertex at `v`, with its edges. -/
def vertexAt (h : Heap) (v : ℕ) : Vertex :=
  match h.vertices[v]? with
  | some cell =>
      ⟨cell.label, cell.outedges.mapContents h.edgeAt, cell.inedges.mapContents h.edgeAt⟩
  | none => Vertex.create []

/-- The graph at `g` has the cell `c` and reads as `G`, and all that it points at belongs to it. -/
structure IsGraph (h : Heap) (g : ℕ) (c : GraphCell) (G : Graph) : Prop where
  cell : h.graphs[g]? = some c
  name : c.name = G.name
  directed : c.directed = G.directed
  vertices : c.vertices.mapContents h.vertexAt = G.vertices
  edges : c.edges.mapContents h.edgeAt = G.edges
  vertex_owner : ∀ p ∈ c.vertices.contents, ∃ v, h.vertices[p]? = some v ∧ v.owner = g ∧
    (∀ e ∈ v.outedges.contents, e ∈ c.edges.contents) ∧
    ∀ e ∈ v.inedges.contents, e ∈ c.edges.contents
  edge_owner : ∀ p ∈ c.edges.contents, ∃ e, h.edges[p]? = some e ∧ e.owner = g ∧
    e.src ∈ c.vertices.contents ∧ e.sink ∈ c.vertices.contents

section Reading

variable {h : Heap} {g : ℕ} {c : GraphCell} {G : Graph}

theorem labelAt_eq {p : ℕ} {v : VertexCell} (hv : h.vertices[p]? = some v) :
    h.labelAt p = v.label := by
  simp [labelAt, vertexGetLabel, hv]

theorem label_vertexAt {p : ℕ} {v : VertexCell} (hv : h.vertices[p]? = some v) :
    (h.vertexAt p).label = v.label := by
  simp [vertexAt, hv]

/-- A vertex lies in the map of its graph under its label. -/
theorem IsGraph.label_eq (hg : h.IsGraph g c G) {l : CString} {p : ℕ}
    (hp : c.vertices.get l = some p) : h.vertexGetLabel p = some l := by
  have hmem := (c.vertices.get_eq_some_iff l p).mp hp
  obtain ⟨v, hv, -⟩ := hg.vertex_owner p (Map.mem_contents_of_get hp)
  have hread : (l, h.vertexAt p) ∈ G.vertices.first := by
    rw [← hg.vertices]
    exact List.mem_map.mpr ⟨(l, p), hmem, rfl⟩
  have hlabel : (h.vertexAt p).label = l := G.vertex_label _ hread
  rw [vertexGetLabel, hv, Option.map_some, ← label_vertexAt hv, hlabel]

theorem IsGraph.get_of_mem (hg : h.IsGraph g c G) {p : ℕ} (hp : p ∈ c.vertices.contents) :
    c.vertices.get (h.labelAt p) = some p := by
  obtain ⟨me, hme, rfl⟩ := List.mem_map.mp hp
  have hget : c.vertices.get me.1 = some me.2 := (c.vertices.get_eq_some_iff _ _).mpr hme
  rw [labelAt, hg.label_eq hget]
  exact hget

theorem IsGraph.labels (hg : h.IsGraph g c G) : G.labels = c.vertices.keys := by
  rw [Graph.labels, ← hg.vertices, Map.keys_mapContents]

theorem IsGraph.mem_labels (hg : h.IsGraph g c G) {l : CString} {p : ℕ}
    (hp : c.vertices.get l = some p) : l ∈ G.labels := by
  rw [hg.labels]
  exact (c.vertices.isSome_get_iff l).mp (by rw [hp]; rfl)

theorem IsGraph.edgeList (hg : h.IsGraph g c G) :
    G.edgeList = c.edges.contents.map h.edgeAt := by
  rw [Graph.edgeList, ← hg.edges, Map.contents_mapContents]

/-- The key of an edge is its own. -/
theorem IsGraph.edge_get (hg : h.IsGraph g c G) {p : ℕ} {e : EdgeCell}
    (hp : p ∈ c.edges.contents) (he : h.edges[p]? = some e) :
    c.edges.get e.srcSink = some p ∧ e.srcSink = srcsink (h.labelAt e.src) (h.labelAt e.sink) := by
  obtain ⟨me, hme, rfl⟩ := List.mem_map.mp hp
  have hread : (me.1, h.edgeAt me.2) ∈ G.edges.first := by
    rw [← hg.edges]
    exact List.mem_map.mpr ⟨me, hme, rfl⟩
  obtain ⟨hcreate, hkey⟩ := G.edge_key _ hread
  have hat : h.edgeAt me.2 = ⟨e.srcSink, h.labelAt e.src, h.labelAt e.sink⟩ := by
    simp [edgeAt, he]
  rw [hat] at hcreate hkey
  refine ⟨?_, congrArg Edge.srcSink hcreate⟩
  rw [show e.srcSink = me.1 from hkey]
  exact (c.edges.get_eq_some_iff _ _).mpr hme

end Reading

/-! ## What a call writes to -/

/-- Only the graph at `g` is written to, and the cells allocated belong to it. -/
structure Writes (h : Heap) (g : ℕ) (h' : Heap) : Prop where
  graphs_length : h'.graphs.length = h.graphs.length
  graphs : ∀ g' : ℕ, g' ≠ g → h'.graphs[g']? = h.graphs[g']?
  vertices : ∀ (p : ℕ) (v : VertexCell), h.vertices[p]? = some v →
    ∃ v' : VertexCell, h'.vertices[p]? = some v' ∧ v'.owner = v.owner ∧ v'.label = v.label ∧
      (v.owner ≠ g → v' = v)
  allocated : ∀ (p : ℕ) (v' : VertexCell), h'.vertices[p]? = some v' → h.vertices[p]? = none →
    v'.owner = g
  edges : ∀ (p : ℕ) (e : EdgeCell), h.edges[p]? = some e → h'.edges[p]? = some e

section Writes

variable {h h' h'' : Heap} {g : ℕ} {c : GraphCell} {G : Graph}

theorem Writes.refl (h : Heap) (g : ℕ) : h.Writes g h where
  graphs_length := rfl
  graphs _ _ := rfl
  vertices _ v hv := ⟨v, hv, rfl, rfl, fun _ => rfl⟩
  allocated _ v' hv' hv := by rw [hv] at hv'; exact absurd hv' (by simp)
  edges _ _ he := he

theorem Writes.trans (hw : h.Writes g h') (hw' : h'.Writes g h'') : h.Writes g h'' where
  graphs_length := hw'.graphs_length.trans hw.graphs_length
  graphs g' hne := (hw'.graphs g' hne).trans (hw.graphs g' hne)
  vertices p v hv := by
    obtain ⟨v', hv', howner, hlabel, hsame⟩ := hw.vertices p v hv
    obtain ⟨v'', hv'', howner', hlabel', hsame'⟩ := hw'.vertices p v' hv'
    refine ⟨v'', hv'', howner'.trans howner, hlabel'.trans hlabel, fun hne => ?_⟩
    rw [hsame' (howner ▸ hne), hsame hne]
  allocated p v'' hv'' hv := by
    cases hmid : h'.vertices[p]? with
    | none => exact hw'.allocated p v'' hv'' hmid
    | some v' =>
        obtain ⟨w, hw'', howner, -⟩ := hw'.vertices p v' hmid
        obtain rfl : w = v'' := Option.some.inj (hw''.symm.trans hv'')
        exact howner.trans (hw.allocated p v' hmid hv)
  edges p e he := hw'.edges p e (hw.edges p e he)

theorem Writes.vertexGetLabel (hw : h.Writes g h') {p : ℕ} {l : CString}
    (hl : h.vertexGetLabel p = some l) : h'.vertexGetLabel p = some l := by
  obtain ⟨v, hv, rfl⟩ := Option.map_eq_some_iff.mp hl
  obtain ⟨v', hv', -, hlabel, -⟩ := hw.vertices p v hv
  rw [Heap.vertexGetLabel, hv', Option.map_some, hlabel]

theorem Writes.labelAt (hw : h.Writes g h') {p : ℕ} {v : VertexCell}
    (hv : h.vertices[p]? = some v) : h'.labelAt p = h.labelAt p := by
  obtain ⟨v', hv', -, hlabel, -⟩ := hw.vertices p v hv
  rw [labelAt_eq hv, labelAt_eq hv', hlabel]

/-- The edges of a graph read as before, also of the graph written to. -/
theorem Writes.edgeAt (hw : h.Writes g h') {g' : ℕ} (hg : h.IsGraph g' c G) {p : ℕ}
    (hp : p ∈ c.edges.contents) : h'.edgeAt p = h.edgeAt p := by
  obtain ⟨e, he, -, hsrc, hsink⟩ := hg.edge_owner p hp
  obtain ⟨u, hu, -⟩ := hg.vertex_owner _ hsrc
  obtain ⟨w, hw', -⟩ := hg.vertex_owner _ hsink
  simp only [Heap.edgeAt, he, hw.edges p e he, hw.labelAt hu, hw.labelAt hw']

/-- A vertex whose cell is as it was reads as before. -/
theorem Writes.vertexAt (hw : h.Writes g h') {g' : ℕ} (hg : h.IsGraph g' c G) {p : ℕ}
    (hp : p ∈ c.vertices.contents) (hcell : h'.vertices[p]? = h.vertices[p]?) :
    h'.vertexAt p = h.vertexAt p := by
  obtain ⟨v, hv, -, hout, hin⟩ := hg.vertex_owner p hp
  simp only [Heap.vertexAt, hcell, hv]
  rw [Map.mapContents_congr _ fun e he => hw.edgeAt hg (hout e he),
    Map.mapContents_congr _ fun e he => hw.edgeAt hg (hin e he)]

theorem Writes.cell_eq (hw : h.Writes g h') {g' : ℕ} (hne : g' ≠ g) (hg : h.IsGraph g' c G)
    {p : ℕ} (hp : p ∈ c.vertices.contents) : h'.vertices[p]? = h.vertices[p]? := by
  obtain ⟨v, hv, howner, -⟩ := hg.vertex_owner p hp
  obtain ⟨v', hv', -, -, hsame⟩ := hw.vertices p v hv
  rw [hv, hv', hsame (howner ▸ hne)]

/-- Every other graph is what it was. -/
theorem IsGraph.of_writes {g' : ℕ} (hg : h.IsGraph g' c G) (hw : h.Writes g h') (hne : g' ≠ g) :
    h'.IsGraph g' c G where
  cell := (hw.graphs g' hne).trans hg.cell
  name := hg.name
  directed := hg.directed
  vertices := (Map.mapContents_congr _ fun p hp =>
    hw.vertexAt hg hp (hw.cell_eq hne hg hp)).trans hg.vertices
  edges := (Map.mapContents_congr _ fun p hp => hw.edgeAt hg hp).trans hg.edges
  vertex_owner p hp := by
    rw [hw.cell_eq hne hg hp]
    exact hg.vertex_owner p hp
  edge_owner p hp := by
    obtain ⟨e, he, hrest⟩ := hg.edge_owner p hp
    exact ⟨e, hw.edges p e he, hrest⟩

/-! ## Each operation by itself -/

theorem writes_setGraph (h : Heap) (g : ℕ) (c : GraphCell) :
    h.Writes g { h with graphs := h.graphs.set g c } where
  graphs_length := List.length_set
  graphs _ hne := List.getElem?_set_ne hne.symm
  vertices _ v hv := ⟨v, hv, rfl, rfl, fun _ => rfl⟩
  allocated _ v' hv' hv := by rw [hv] at hv'; exact absurd hv' (by simp)
  edges _ _ he := he

theorem writes_vertexCreate (h : Heap) (g : ℕ) (name : CString) :
    h.Writes g (h.vertexCreate g name).1 where
  graphs_length := rfl
  graphs _ _ := rfl
  vertices p v hv :=
    ⟨v, (List.getElem?_append_left (List.getElem?_eq_some_iff.mp hv).1).trans hv, rfl, rfl,
      fun _ => rfl⟩
  allocated p v' hv' hv := by
    have hle : h.vertices.length ≤ p := List.getElem?_eq_none_iff.mp hv
    have hnew := (List.getElem?_append_right hle).symm.trans hv'
    have hmem := List.mem_of_getElem? hnew
    rw [List.mem_singleton.mp hmem]
  edges _ _ he := he

theorem writes_edgeAlloc (h : Heap) (g : ℕ) (e : EdgeCell) :
    h.Writes g { h with edges := h.edges ++ [e] } where
  graphs_length := rfl
  graphs _ _ := rfl
  vertices _ v hv := ⟨v, hv, rfl, rfl, fun _ => rfl⟩
  allocated _ v' hv' hv := by rw [hv] at hv'; exact absurd hv' (by simp)
  edges p _ he := (List.getElem?_append_left (List.getElem?_eq_some_iff.mp he).1).trans he

theorem getElem?_updateVertex {p : ℕ} {v : VertexCell} (hv : h.vertices[p]? = some v)
    (f : VertexCell → VertexCell) (q : ℕ) :
    (h.vertices.set p (f v))[q]? = h.vertices[q]?.map fun u => if q = p then f u else u := by
  by_cases hq : q = p
  · subst hq
    rw [List.getElem?_set_self (List.getElem?_eq_some_iff.mp hv).1, hv, Option.map_some, if_pos rfl]
  · rw [List.getElem?_set_ne (Ne.symm hq)]
    simp [hq]

theorem updateVertex_eq {p : ℕ} {v : VertexCell} (hv : h.vertices[p]? = some v)
    (f : VertexCell → VertexCell) :
    h.updateVertex p f = some { h with vertices := h.vertices.set p (f v) } := by
  simp [updateVertex, hv]

theorem writes_updateVertex {p : ℕ} {v : VertexCell} (hv : h.vertices[p]? = some v)
    (howner : v.owner = g) {f : VertexCell → VertexCell}
    (hf : (f v).owner = v.owner ∧ (f v).label = v.label) :
    h.Writes g { h with vertices := h.vertices.set p (f v) } where
  graphs_length := rfl
  graphs _ _ := rfl
  vertices q u hu := by
    refine ⟨if q = p then f u else u, ?_, ?_⟩
    · exact (getElem?_updateVertex hv f q).trans (by rw [hu]; rfl)
    · by_cases hq : q = p
      · subst hq
        obtain rfl : u = v := Option.some.inj (hu.symm.trans hv)
        rw [if_pos rfl]
        exact ⟨hf.1, hf.2, fun hne => absurd howner hne⟩
      · rw [if_neg hq]
        exact ⟨rfl, rfl, fun _ => rfl⟩
  allocated q v' hv' hnone := by
    have hread := (getElem?_updateVertex hv f q).symm.trans hv'
    rw [hnone] at hread
    exact absurd hread (by simp)
  edges _ _ he := he

/-- What `Graph_AddVertex` ends with. -/
def AddsVertex (h : Heap) (g : ℕ) (c : GraphCell) (G : Graph) (name : CString) : Prop :=
  ∃ h' p c', h.addVertex g name = some (h', p) ∧ h'.IsGraph g c' (G.addVertex name) ∧
    c'.vertices.get name = some p ∧
    (∀ l q, c.vertices.get l = some q → c'.vertices.get l = some q) ∧ h.Writes g h'

/-- A vertex of that name is there. -/
theorem IsGraph.addVertex_old (hg : h.IsGraph g c G) {name : CString} {p : ℕ}
    (hget : c.vertices.get name = some p) : h.AddsVertex g c G name := by
  have hlt : g < h.graphs.length := (List.getElem?_eq_some_iff.mp hg.cell).1
  have hmem : name ∈ c.vertices.keys := (c.vertices.isSome_get_iff name).mp (by rw [hget]; rfl)
  have hG : G.addVertex name = G := by
    unfold Graph.addVertex
    rw [dif_pos (by rw [← hg.vertices, Map.keys_mapContents]; exact hmem)]
  refine ⟨_, p, { c with graphDirty := true }, ?_, ?_, hget, fun _ _ hq => hq,
    writes_setGraph h g { c with graphDirty := true }⟩
  · simp only [Heap.addVertex, hg.cell, hget, hg.label_eq hget, Option.bind_eq_bind,
      Option.bind_some, Map.add_of_mem hmem]
    rfl
  · rw [hG]
    exact ⟨List.getElem?_set_self hlt, hg.name, hg.directed, hg.vertices, hg.edges,
      hg.vertex_owner, hg.edge_owner⟩

/-- A vertex is allocated. -/
theorem IsGraph.addVertex_new (hg : h.IsGraph g c G) {name : CString}
    (hget : c.vertices.get name = none) : h.AddsVertex g c G name := by
  have hlt : g < h.graphs.length := (List.getElem?_eq_some_iff.mp hg.cell).1
  have hnew : name ∉ c.vertices.keys := (c.vertices.get_eq_none_iff name).mp hget
  obtain ⟨hname, hdirected, hvertices, hedges⟩ := Graph.addVertex_of_notMem_keys (g := G) (by
    rw [← hg.vertices, Map.keys_mapContents]
    exact hnew)
  have hw := writes_vertexCreate h g name
  have hcell : (h.vertexCreate g name).1.vertices[h.vertices.length]? =
      some ⟨g, name, Map.create, Map.create⟩ := List.getElem?_concat_length
  have hold : ∀ q ∈ c.vertices.contents,
      (h.vertexCreate g name).1.vertices[q]? = h.vertices[q]? := by
    intro q hq
    obtain ⟨v, hv, -⟩ := hg.vertex_owner q hq
    exact List.getElem?_append_left (List.getElem?_eq_some_iff.mp hv).1
  have hread : (h.vertexCreate g name).1.vertexAt h.vertices.length = Vertex.create name := by
    simp only [Heap.vertexAt, hcell]
    rfl
  obtain ⟨c', hc'⟩ : ∃ c' : GraphCell, c' = { c with
      graphDirty := true
      vertices := c.vertices.add name h.vertices.length } := ⟨_, rfl⟩
  refine ⟨_, h.vertices.length, c', ?_, ⟨List.getElem?_set_self hlt, ?_, ?_, ?_, ?_, ?_, ?_⟩,
    ?_, ?_, hw.trans (writes_setGraph _ g c')⟩
  · simp only [Heap.addVertex, hg.cell, hget, Option.bind_eq_bind, Option.bind_some]
    rw [show (h.vertexCreate g name).2 = h.vertices.length from rfl, Heap.vertexGetLabel, hcell,
      hc']
    rfl
  · rw [hc', hname]
    exact hg.name
  · rw [hc', hdirected]
    exact hg.directed
  · rw [hvertices, ← hg.vertices, hc', Map.mapContents_add]
    refine congrArg₂ (fun m v => Map.add m name v) ?_ hread
    exact Map.mapContents_congr _ fun q hq => hw.vertexAt hg hq (hold q hq)
  · rw [hedges, ← hg.edges, hc']
    exact Map.mapContents_congr _ fun q hq => hw.edgeAt hg hq
  · intro q hq
    rw [hc'] at hq ⊢
    rcases (Map.mem_contents_add hnew).mp hq with rfl | hq
    · exact ⟨_, hcell, rfl, fun e he => absurd he List.not_mem_nil,
        fun e he => absurd he List.not_mem_nil⟩
    · obtain ⟨v, hv, hrest⟩ := hg.vertex_owner q hq
      exact ⟨v, (hold q hq).trans hv, hrest⟩
  · intro q hq
    rw [hc'] at hq ⊢
    obtain ⟨e, he, howner, hsrc, hsink⟩ := hg.edge_owner q hq
    exact ⟨e, he, howner, (Map.mem_contents_add hnew).mpr (Or.inr hsrc),
      (Map.mem_contents_add hnew).mpr (Or.inr hsink)⟩
  · rw [hc', Map.get_add, if_pos ⟨rfl, hget⟩]
  · intro l q hq
    rw [hc', Map.get_add, if_neg, hq]
    rintro ⟨rfl, -⟩
    rw [hq] at hget
    exact absurd hget (by simp)

/-- **`Graph_AddVertex`** on the heap. -/
theorem IsGraph.addVertex (hg : h.IsGraph g c G) (name : CString) : h.AddsVertex g c G name := by
  cases hget : c.vertices.get name with
  | some p => exact hg.addVertex_old hget
  | none => exact hg.addVertex_new hget

theorem IsGraph.getEdge_eq (hg : h.IsGraph g c G) {a b : CString} {src sink : ℕ}
    (ha : c.vertices.get a = some src) (hb : c.vertices.get b = some sink) :
    h.getEdge g src sink = some (c.edges.get (srcsink a b)) := by
  simp [Heap.getEdge, hg.label_eq ha, hg.label_eq hb, hg.cell]

/-- The key of an element of the vertex map and the pointer in it tell the same. -/
theorem IsGraph.key_eq_iff (hg : h.IsGraph g c G) {a : CString} {src : ℕ}
    (ha : c.vertices.get a = some src) {me : CString × ℕ} (hme : me ∈ c.vertices.first) :
    me.1 = a ↔ me.2 = src := by
  have hget : c.vertices.get me.1 = some me.2 := (c.vertices.get_eq_some_iff _ _).mpr hme
  constructor
  · rintro rfl
    exact Option.some.inj (hget.symm.trans ha)
  · intro heq
    have hlabel := hg.label_eq hget
    rw [heq, hg.label_eq ha] at hlabel
    exact (Option.some.inj hlabel).symm

/-- The vertex cell at `q` once a new edge has been entered at both of its ends. -/
def enterAt (src sink : ℕ) (key : CString) (e q : ℕ) (v : VertexCell) : VertexCell :=
  { v with
    outedges := if q = src then v.outedges.add key e else v.outedges
    inedges := if q = sink then v.inedges.add key e else v.inedges }

/-- The vertices after both writes, also when both are to one vertex. -/
theorem enterBoth {h : Heap} {src sink : ℕ} {u w : VertexCell} (hu : h.vertices[src]? = some u)
    (hw : h.vertices[sink]? = some w) (key : CString) (e : ℕ) :
    ∃ h', (do let h ← h.updateVertex src fun v => { v with outedges := v.outedges.add key e }
              h.updateVertex sink fun v => { v with inedges := v.inedges.add key e }) = some h' ∧
      h'.graphs = h.graphs ∧ h'.edges = h.edges ∧
      (∀ q : ℕ, h'.vertices[q]? = h.vertices[q]?.map (enterAt src sink key e q)) ∧
      ∀ g, u.owner = g → w.owner = g → h.Writes g h' := by
  obtain ⟨h₁, hh₁⟩ : ∃ h₁ : Heap, h₁ = { h with
      vertices := h.vertices.set src { u with outedges := u.outedges.add key e } } := ⟨_, rfl⟩
  have hread₁ : ∀ q : ℕ, h₁.vertices[q]? = h.vertices[q]?.map fun v =>
      if q = src then { v with outedges := v.outedges.add key e } else v := fun q => by
    rw [hh₁]
    exact getElem?_updateVertex hu (fun v => { v with outedges := v.outedges.add key e }) q
  obtain ⟨w₁, hw₁, howner⟩ : ∃ w₁, h₁.vertices[sink]? = some w₁ ∧ w₁.owner = w.owner := by
    rw [hread₁, hw, Option.map_some]
    refine ⟨_, rfl, ?_⟩
    split <;> rfl
  refine ⟨{ h₁ with
    vertices := h₁.vertices.set sink { w₁ with inedges := w₁.inedges.add key e } }, ?_, ?_, ?_,
    fun q => ?_, fun g hug hwg => ?_⟩
  · simp only [updateVertex_eq hu, Option.bind_eq_bind, Option.bind_some, ← hh₁]
    exact updateVertex_eq hw₁ _
  · rw [hh₁]
  · rw [hh₁]
  · have hread₂ := getElem?_updateVertex hw₁ (fun v => { v with inedges := v.inedges.add key e }) q
    refine hread₂.trans ?_
    rw [hread₁, Option.map_map]
    congr 1
    funext v
    rw [Function.comp_apply, enterAt]
    split_ifs <;> rfl
  · have hwrites₁ : h.Writes g h₁ := hh₁ ▸
      writes_updateVertex (f := fun v => { v with outedges := v.outedges.add key e }) hu hug
        ⟨rfl, rfl⟩
    exact hwrites₁.trans (writes_updateVertex
      (f := fun v => { v with inedges := v.inedges.add key e }) hw₁ (howner.trans hwg) ⟨rfl, rfl⟩)

/-- What `Graph_AddEdge` ends with. -/
def AddsEdge (h : Heap) (g : ℕ) (c : GraphCell) (G : Graph) (a b : CString) (src sink : ℕ) :
    Prop :=
  ∃ h' p c' G', h.addEdge g src sink = some (h', p) ∧ G.addEdge a b = some G' ∧
    h'.IsGraph g c' G' ∧ c'.vertices = c.vertices ∧ h.Writes g h'

/-- The key of the edge is taken. -/
theorem IsGraph.addEdge_old (hg : h.IsGraph g c G) {a b : CString} {src sink e : ℕ}
    (ha : c.vertices.get a = some src) (hb : c.vertices.get b = some sink)
    (hget : c.edges.get (srcsink a b) = some e) : h.AddsEdge g c G a b src sink := by
  have hkey : srcsink a b ∈ G.edges.keys := by
    rw [← hg.edges, Map.keys_mapContents]
    exact (c.edges.isSome_get_iff _).mp (by rw [hget]; rfl)
  refine ⟨h, e, c, G, ?_,
    Graph.addEdge_of_mem_keys ⟨hg.mem_labels ha, hg.mem_labels hb⟩ hkey, hg, rfl, Writes.refl h g⟩
  simp [Heap.addEdge, hg.getEdge_eq ha hb, hget]

/-- The vertices of the graph after a new edge has been entered at both of its ends. -/
theorem IsGraph.vertices_attach (hg : h.IsGraph g c G) {a b key : CString} {src sink e : ℕ}
    (ha : c.vertices.get a = some src) (hb : c.vertices.get b = some sink) (hw : h.Writes g h')
    (hread : ∀ q : ℕ, h'.vertices[q]? = h.vertices[q]?.map (enterAt src sink key e q))
    (hnew : h'.edgeAt e = Edge.create a b) (hkey : key = srcsink a b) :
    c.vertices.mapContents h'.vertexAt = Graph.attach G.vertices (Edge.create a b) := by
  refine Map.eq_of_first_eq ?_
  rw [Graph.attach, ← hg.vertices]
  simp only [Map.modify, Map.first_mapContents, List.map_map]
  refine List.map_congr_left fun me hme => ?_
  obtain ⟨v, hv, -, hout, hin⟩ := hg.vertex_owner me.2 (List.mem_map_of_mem hme)
  have hold : ∀ m : Map ℕ, (∀ p ∈ m.contents, p ∈ c.edges.contents) →
      m.mapContents h'.edgeAt = m.mapContents h.edgeAt := fun m hm =>
    Map.mapContents_congr _ fun p hp => hw.edgeAt hg (hm p hp)
  have hat : h'.vertexAt me.2 = ⟨v.label,
      if me.2 = src then (v.outedges.mapContents h.edgeAt).add key (Edge.create a b)
        else v.outedges.mapContents h.edgeAt,
      if me.2 = sink then (v.inedges.mapContents h.edgeAt).add key (Edge.create a b)
        else v.inedges.mapContents h.edgeAt⟩ := by
    simp only [Heap.vertexAt, hread, hv, Option.map_some, enterAt]
    congr 1
    · split
      · rw [Map.mapContents_add, hold _ hout, hnew]
      · exact hold _ hout
    · split
      · rw [Map.mapContents_add, hold _ hin, hnew]
      · exact hold _ hin
  have hbefore : h.vertexAt me.2 =
      ⟨v.label, v.outedges.mapContents h.edgeAt, v.inedges.mapContents h.edgeAt⟩ := by
    simp only [Heap.vertexAt, hv]
  simp only [Function.comp_apply, hat, hbefore, Edge.create, ← hg.key_eq_iff ha hme,
    ← hg.key_eq_iff hb hme, hkey]
  split_ifs <;> rfl

/-- The cell of the graph once the new edge at `e` has entered its map. -/
def withEdge (c : GraphCell) (key : CString) (e : ℕ) : GraphCell :=
  { c with graphDirty := true, edges := c.edges.add key e }

/-- `Graph_AddEdge` with a new key: an edge is allocated and enters the map of the graph and those
of its ends. -/
theorem IsGraph.addEdge_run (hg : h.IsGraph g c G) {a b : CString} {src sink : ℕ}
    (ha : c.vertices.get a = some src) (hb : c.vertices.get b = some sink)
    (hget : c.edges.get (srcsink a b) = none) :
    ∃ h', h.addEdge g src sink = some (h', h.edges.length) ∧
      h'.graphs = h.graphs.set g (withEdge c (srcsink a b) h.edges.length) ∧
      h'.edges = h.edges ++ [⟨g, srcsink a b, src, sink⟩] ∧
      (∀ q : ℕ, h'.vertices[q]? =
        h.vertices[q]?.map (enterAt src sink (srcsink a b) h.edges.length q)) ∧
      h.Writes g h' := by
  obtain ⟨u, hu, huowner, -⟩ := hg.vertex_owner src (Map.mem_contents_of_get ha)
  obtain ⟨w, hw, hwowner, -⟩ := hg.vertex_owner sink (Map.mem_contents_of_get hb)
  obtain ⟨cell, hcell⟩ : ∃ cell : EdgeCell, cell = ⟨g, srcsink a b, src, sink⟩ := ⟨_, rfl⟩
  obtain ⟨h₂, hh₂⟩ : ∃ h₂ : Heap, h₂ = ⟨h.graphs.set g (withEdge c (srcsink a b) h.edges.length),
      h.vertices, h.edges ++ [cell]⟩ := ⟨_, rfl⟩
  have hwrites₂ : h.Writes g h₂ :=
    hh₂ ▸ (writes_edgeAlloc h g cell).trans (writes_setGraph _ g _)
  obtain ⟨h', hrun, hgraphs, hedges, hread, hwrites⟩ := enterBoth
    (show h₂.vertices[src]? = some u by rw [hh₂]; exact hu)
    (show h₂.vertices[sink]? = some w by rw [hh₂]; exact hw) (srcsink a b) h.edges.length
  refine ⟨h', ?_, by rw [hgraphs, hh₂], by rw [hedges, hh₂, hcell], fun q => by rw [hread, hh₂],
    hwrites₂.trans (hwrites g huowner hwowner)⟩
  have hmade : h.edgeCreate g src sink =
      some ({ h with edges := h.edges ++ [cell] }, h.edges.length, cell) := by
    simp [edgeCreate, hg.label_eq ha, hg.label_eq hb, hcell]
  have hkey : cell.srcSink = srcsink a b := by rw [hcell]
  rw [Option.bind_eq_bind, hh₂, withEdge] at hrun
  simp only [Heap.addEdge, hg.getEdge_eq ha hb, hget, hmade, hg.cell, hkey, Option.bind_eq_bind,
    Option.bind_some]
  rw [← Option.bind_assoc, hrun]
  rfl

/-- What the edge maps of a vertex hold afterwards is in the map of the graph. -/
theorem mem_edges_of_enterAt {key : CString} {e : ℕ} (hnew : key ∉ c.edges.keys) {m : Map ℕ}
    (hm : ∀ p ∈ m.contents, p ∈ c.edges.contents) {P : Prop} [Decidable P] :
    ∀ p ∈ (if P then m.add key e else m).contents, p ∈ (withEdge c key e).edges.contents := by
  intro p hp
  refine (Map.mem_contents_add hnew).mpr ?_
  split at hp
  · exact (Map.mem_of_mem_add hp).imp id (hm p)
  · exact Or.inr (hm p hp)

/-- After `Graph_AddEdge` with a new key the graph is the old one with the edge. -/
theorem IsGraph.addEdge_new (hg : h.IsGraph g c G) {a b : CString} {src sink : ℕ}
    (ha : c.vertices.get a = some src) (hb : c.vertices.get b = some sink)
    (hget : c.edges.get (srcsink a b) = none) : h.AddsEdge g c G a b src sink := by
  have hnew : srcsink a b ∉ c.edges.keys := (c.edges.get_eq_none_iff _).mp hget
  obtain ⟨h', hrun, hgraphs, hedges, hread, hwrites⟩ := hg.addEdge_run ha hb hget
  obtain ⟨G', hG', hname, hdirected, hvertices', hedges'⟩ :=
    Graph.addEdge_of_notMem_keys ⟨hg.mem_labels ha, hg.mem_labels hb⟩ (by
      rw [← hg.edges, Map.keys_mapContents]
      exact hnew)
  have hedge : h'.edges[h.edges.length]? = some ⟨g, srcsink a b, src, sink⟩ := by
    rw [hedges]
    exact List.getElem?_concat_length
  have hedgeAt : h'.edgeAt h.edges.length = Edge.create a b := by
    simp only [Heap.edgeAt, hedge, Heap.labelAt, hwrites.vertexGetLabel (hg.label_eq ha),
      hwrites.vertexGetLabel (hg.label_eq hb)]
    rfl
  refine ⟨h', h.edges.length, withEdge c (srcsink a b) h.edges.length, G', hrun, hG',
    ⟨?_, hname ▸ hg.name, hdirected ▸ hg.directed, ?_, ?_, ?_, ?_⟩, rfl, hwrites⟩
  · rw [hgraphs]
    exact List.getElem?_set_self (List.getElem?_eq_some_iff.mp hg.cell).1
  · rw [hvertices']
    exact hg.vertices_attach ha hb hwrites hread hedgeAt rfl
  · rw [hedges', withEdge, Map.mapContents_add, hedgeAt, ← hg.edges]
    refine congrArg (fun m => Map.add m _ _) ?_
    exact Map.mapContents_congr _ fun p hp => hwrites.edgeAt hg hp
  · intro q hq
    obtain ⟨v, hv, howner, hout, hin⟩ := hg.vertex_owner q hq
    exact ⟨enterAt src sink (srcsink a b) h.edges.length q v, by rw [hread, hv]; rfl, howner,
      mem_edges_of_enterAt hnew hout, mem_edges_of_enterAt hnew hin⟩
  · intro q hq
    rcases (Map.mem_contents_add hnew).mp hq with rfl | hq
    · exact ⟨_, hedge, rfl, Map.mem_contents_of_get ha, Map.mem_contents_of_get hb⟩
    · obtain ⟨e, he, hrest⟩ := hg.edge_owner q hq
      exact ⟨e, hwrites.edges q e he, hrest⟩

/-- **`Graph_AddEdge`** on the heap, between two vertices of the graph. -/
theorem IsGraph.addEdge (hg : h.IsGraph g c G) {a b : CString} {src sink : ℕ}
    (ha : c.vertices.get a = some src) (hb : c.vertices.get b = some sink) :
    h.AddsEdge g c G a b src sink := by
  cases hget : c.edges.get (srcsink a b) with
  | some e => exact hg.addEdge_old ha hb hget
  | none => exact hg.addEdge_new ha hb hget

end Writes

end Heap

end JunctionBox
