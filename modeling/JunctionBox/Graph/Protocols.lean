import JunctionBox.Graph.Degrees
import JunctionBox.Graph.Iteration

/-!
# The iteration protocols

`JB_Graph.c` has two ways of going over things.  `NeighborItr`, `VertexItr` and
`EdgeItr` keep a pointer into a list and step it.  The `GetFst` / `GetNxt` pairs
keep nothing: each step looks the element it is given up again, by a key built
from labels, and follows the list from there.

`Enumerates` is what either kind amounts to: after `k` steps the protocol is at
element `k` of a list, and at `NULL` from the end of the list on.  The lists are
the same for both, whatever the labels are, since no two edges of a graph have
the same key.
-/

namespace JunctionBox

/-- After `k` steps a protocol is at element `k` of the list, and at `NULL` past the end. -/
def Enumerates {α : Type} (current : ℕ → Option α) (l : List α) : Prop :=
  ∀ k, current k = l[k]?

/-- The pointer of `for (x = fst; x != NULL; x = nxt(x))` after `k` steps. -/
def pointerAt {α : Type} (nxt : α → Option α) (fst : Option α) : ℕ → Option α
  | 0 => fst
  | k + 1 => (pointerAt nxt fst k).bind nxt

namespace NeighborItr

/-- `NeighborItr_Advance` with what it returns. -/
def advanceReturning (this : NeighborItr) : NeighborItr × Option CString :=
  match this.curIn, this.curOut with
  | [], [] => (this, none)
  | [], _ :: rest => ({ this with curOut := rest }, rest.head?.map Edge.sink)
  | _ :: rest, _ => ({ this with curIn := rest }, getCurrent { this with curIn := rest })

theorem advanceReturning_eq (this : NeighborItr) :
    this.advanceReturning = (this.advance, this.advance.getCurrent) := by
  obtain ⟨curIn, curOut⟩ := this
  rcases curIn with _ | ⟨e, curIn⟩
  · rcases curOut with _ | ⟨e, curOut⟩ <;> rfl
  · rfl

theorem toList_advance (this : NeighborItr) : this.advance.toList = this.toList.tail := by
  obtain ⟨curIn, curOut⟩ := this
  rcases curIn with _ | ⟨e, curIn⟩
  · rcases curOut with _ | ⟨e, curOut⟩ <;> rfl
  · rfl

theorem getCurrent_eq (this : NeighborItr) : this.getCurrent = this.toList.head?.map Prod.fst := by
  obtain ⟨curIn, curOut⟩ := this
  rcases curIn with _ | ⟨e, curIn⟩
  · rcases curOut with _ | ⟨e, curOut⟩ <;> rfl
  · rfl

theorem getCurrentEdge_eq (this : NeighborItr) :
    this.getCurrentEdge = this.toList.head?.map Prod.snd := by
  obtain ⟨curIn, curOut⟩ := this
  rcases curIn with _ | ⟨e, curIn⟩
  · rcases curOut with _ | ⟨e, curOut⟩ <;> rfl
  · rfl

/-- The iterator after `k` steps. -/
def stepped (this : NeighborItr) (k : ℕ) : NeighborItr := advance^[k] this

theorem toList_stepped (this : NeighborItr) (k : ℕ) :
    (this.stepped k).toList = this.toList.drop k := by
  induction k with
  | zero => rfl
  | succ k ih =>
      rw [stepped, Function.iterate_succ_apply', toList_advance, ← stepped, ih, List.tail_drop]

theorem enumerates_getCurrent (this : NeighborItr) :
    Enumerates (fun k => (this.stepped k).getCurrent) (this.toList.map Prod.fst) := by
  intro k
  show (this.stepped k).getCurrent = _
  rw [getCurrent_eq, toList_stepped, List.head?_drop, List.getElem?_map]

theorem enumerates_getCurrentEdge (this : NeighborItr) :
    Enumerates (fun k => (this.stepped k).getCurrentEdge) (this.toList.map Prod.snd) := by
  intro k
  show (this.stepped k).getCurrentEdge = _
  rw [getCurrentEdge_eq, toList_stepped, List.head?_drop, List.getElem?_map]

end NeighborItr

/-- `struct map_itr`. -/
structure MapItr (α : Type) where
  current : List α

namespace MapItr

variable {α : Type}

/-- `VertexItr_Create` on the vertices of a graph, `EdgeItr_Create` on its edges. -/
def create (m : Map α) : MapItr α := ⟨m.contents⟩

/-- `VertexItr_GetCurrent`, `EdgeItr_GetCurrent`. -/
def getCurrent (this : MapItr α) : Option α := this.current.head?

/-- `VertexItr_Advance`, `EdgeItr_Advance`, with what they return. -/
def advance (this : MapItr α) : MapItr α × Option α :=
  match this.current with
  | [] => (this, none)
  | _ :: rest => (⟨rest⟩, getCurrent ⟨rest⟩)

/-- The iterator after `k` steps. -/
def stepped (this : MapItr α) (k : ℕ) : MapItr α := (fun itr => itr.advance.1)^[k] this

theorem advance_eq (this : MapItr α) :
    this.advance = (⟨this.current.tail⟩, getCurrent ⟨this.current.tail⟩) := by
  obtain ⟨current⟩ := this
  cases current <;> rfl

theorem current_stepped (this : MapItr α) (k : ℕ) :
    (this.stepped k).current = this.current.drop k := by
  induction k with
  | zero => rfl
  | succ k ih =>
      rw [stepped, Function.iterate_succ_apply', ← stepped, advance_eq, ih, List.tail_drop]

theorem enumerates_getCurrent (m : Map α) :
    Enumerates (fun k => ((create m).stepped k).getCurrent) m.contents := by
  intro k
  show ((create m).stepped k).current.head? = _
  rw [current_stepped, List.head?_drop]
  rfl

end MapItr

/-! ## `GetFst` and `GetNxt` -/

section Pointers

variable {α β : Type}

/-- `visits` lists what the pointer is at before the rounds run out. -/
theorem getElem?_visits (nxt : α → Option α) (fst : Option α) {rounds k : ℕ} (h : k < rounds) :
    (visits nxt rounds fst)[k]? = pointerAt nxt fst k := by
  induction rounds generalizing fst k with
  | zero => exact absurd h (Nat.not_lt_zero k)
  | succ rounds ih =>
      cases fst with
      | none =>
          have hnone : ∀ k, pointerAt nxt none k = none := by
            intro k
            induction k with
            | zero => rfl
            | succ k ihk => rw [pointerAt, ihk]; rfl
          rw [visits, hnone]
          rfl
      | some a =>
          have hshift : ∀ k, pointerAt nxt (some a) (k + 1) = pointerAt nxt (nxt a) k := by
            intro k
            induction k with
            | zero => rfl
            | succ k ihk => rw [pointerAt, ihk]; rfl
          cases k with
          | zero => rfl
          | succ k =>
              rw [visits, List.getElem?_cons_succ, ih (nxt a) (Nat.lt_of_succ_lt_succ h), hshift]

/-- A loop that looks its elements up again in a map goes over the contents of the map. -/
theorem enumerates_contents (m : Map α) (nxt : α → Option α) (key : α → CString)
    (hkey : ∀ me ∈ m.first, key me.2 = me.1)
    (hnxt : ∀ me ∈ m.first, nxt me.2 = m.getNext (key me.2)) :
    Enumerates (pointerAt nxt m.getFirst) m.contents := by
  intro k
  rw [← getElem?_visits nxt m.getFirst (Nat.lt_of_succ_le (le_max_right m.size (k + 1))),
    m.visits_eq_contents nxt key hkey hnxt (le_max_left ..)]

/-- The same loop, when it is the far ends of the elements that the caller gets and gives back. -/
theorem enumerates_far (m : Map α) (nxt : β → Option β) (key : α → CString) (far : α → β)
    (hkey : ∀ me ∈ m.first, key me.2 = me.1)
    (hnxt : ∀ a ∈ m.contents, nxt (far a) = (m.getNext (key a)).map far) :
    Enumerates (pointerAt nxt (m.getFirst.map far)) (m.contents.map far) := by
  have hinner := enumerates_contents m (fun a => m.getNext (key a)) key hkey fun _ _ => rfl
  intro k
  rw [List.getElem?_map, ← hinner k]
  induction k with
  | zero => rfl
  | succ k ih =>
      rw [pointerAt, ih, pointerAt]
      cases hat : pointerAt (fun a => m.getNext (key a)) m.getFirst k with
      | none => rfl
      | some a =>
          have ha : a ∈ m.contents := List.mem_of_getElem? ((hinner k).symm.trans hat)
          exact hnxt a ha

end Pointers

namespace Graph

/-- `Graph_GetFstEdge`. -/
def getFstEdge (this : Graph) : Option Edge := this.edges.getFirst

/-- `Graph_GetNxtEdge`. -/
def getNxtEdge (this : Graph) (e : Edge) : Option Edge := this.edges.getNext e.srcSink

/-- `Graph_GetFstChild`. -/
def getFstChild (this : Graph) (v : Vertex) : Option CString :=
  if this.directed then v.outedges.getFirst.map Edge.sink else none

/-- `Graph_GetNxtChild`.  As for the parents, `none` is the `NULL` it returns as well as the read
through `NULL` where `last` is no child. -/
def getNxtChild (this : Graph) (v : Vertex) (last : CString) : Option CString :=
  if this.directed then do
    let tmp ← this.getEdge v.label last
    let next ← v.outedges.getNext tmp.srcSink
    return next.sink
  else none

variable {this : Graph} {v : Vertex}

theorem mem_edgesInto {l : CString} {e : Edge} :
    e ∈ this.edgesInto l ↔ e ∈ this.edgeList ∧ e.sink = l := by
  rw [edgesInto, List.mem_filter, decide_eq_true_eq]

theorem mem_edgesOutOf {l : CString} {e : Edge} :
    e ∈ this.edgesOutOf l ↔ e ∈ this.edgeList ∧ e.src = l := by
  rw [edgesOutOf, List.mem_filter, decide_eq_true_eq]

theorem edgeList_nodup (this : Graph) : this.edgeList.Nodup := this.nodup_srcSink.of_map _

/-- The edges at one vertex, in one direction, have different far ends. -/
theorem nodup_far {es : List Edge} {far near : Edge → CString} (hes : es.Sublist this.edgeList)
    (hnear : ∀ e ∈ es, ∀ e' ∈ es, near e = near e')
    (hends : ∀ e ∈ this.edgeList, ∀ e' ∈ this.edgeList, far e = far e' → near e = near e' →
      e.srcSink = e'.srcSink) : (es.map far).Nodup := by
  refine (this.edgeList_nodup.sublist hes).map_on fun e he e' he' hfar => ?_
  exact eq_of_srcSink_eq (hes.subset he) (hes.subset he')
    (hends e (hes.subset he) e' (hes.subset he') hfar (hnear e he e' he'))

theorem srcSink_eq {e e' : Edge} (he : e ∈ this.edgeList) (he' : e' ∈ this.edgeList)
    (hsrc : e.src = e'.src) (hsink : e.sink = e'.sink) : e.srcSink = e'.srcSink := by
  rw [eq_create_of_mem he, eq_create_of_mem he', hsrc, hsink]

theorem nodup_tails (this : Graph) (l : CString) : ((this.edgesInto l).map Edge.src).Nodup :=
  nodup_far List.filter_sublist
    (fun _ he _ he' => (mem_edgesInto.mp he).2.trans (mem_edgesInto.mp he').2.symm)
    fun _ he _ he' hsrc hsink => srcSink_eq he he' hsrc hsink

theorem nodup_heads (this : Graph) (l : CString) : ((this.edgesOutOf l).map Edge.sink).Nodup :=
  nodup_far List.filter_sublist
    (fun _ he _ he' => (mem_edgesOutOf.mp he).2.trans (mem_edgesOutOf.mp he').2.symm)
    fun _ he _ he' hsink hsrc => srcSink_eq he he' hsrc hsink

/-- An edge kept at a vertex is found again under the labels of its ends. -/
theorem getEdge_ends {e : Edge} (he : e ∈ this.edgeList) : this.getEdge e.src e.sink = some e :=
  getEdge_eq_some_iff.mpr ⟨he, congrArg Edge.srcSink (eq_create_of_mem he)⟩

theorem srcSink_of_mem_filter {m : Map Edge} {q : CString × Edge → Bool}
    (hm : m.first = this.edges.first.filter q) : ∀ me ∈ m.first, me.2.srcSink = me.1 := by
  intro me hme
  rw [hm] at hme
  exact (this.edge_key me (List.mem_filter.mp hme).1).2

theorem enumerates_parents (hv : v ∈ this.vertices.contents) :
    Enumerates (pointerAt (this.getNxtParent v) (getFstParent v))
      ((this.edgesInto v.label).map Edge.src) := by
  obtain ⟨me, hme, rfl⟩ := List.mem_map.mp hv
  have hcontents : me.2.inedges.contents = this.edgesInto me.2.label :=
    Store.contents_inedges hv
  rw [← hcontents]
  refine enumerates_far me.2.inedges _ Edge.srcSink Edge.src
    (srcSink_of_mem_filter (this.inedges_eq me hme)) fun e he => ?_
  rw [hcontents] at he
  obtain ⟨hmem, hsink⟩ := mem_edgesInto.mp he
  rw [getNxtParent, ← hsink, getEdge_ends hmem]
  exact Option.map_eq_bind.symm

theorem enumerates_children (hdirected : this.directed = true) (hv : v ∈ this.vertices.contents) :
    Enumerates (pointerAt (this.getNxtChild v) (this.getFstChild v))
      ((this.edgesOutOf v.label).map Edge.sink) := by
  obtain ⟨me, hme, rfl⟩ := List.mem_map.mp hv
  have hcontents : me.2.outedges.contents = this.edgesOutOf me.2.label :=
    Store.contents_outedges hv
  rw [getFstChild, if_pos hdirected, ← hcontents]
  refine enumerates_far me.2.outedges _ Edge.srcSink Edge.sink
    (srcSink_of_mem_filter (this.outedges_eq me hme)) fun e he => ?_
  rw [hcontents] at he
  obtain ⟨hmem, hsrc⟩ := mem_edgesOutOf.mp he
  rw [getNxtChild, if_pos hdirected, ← hsrc, getEdge_ends hmem]
  exact Option.map_eq_bind.symm

theorem toList_create (hv : v ∈ this.vertices.contents) :
    (NeighborItr.create v).toList = (this.edgesInto v.label).map (fun e => (e.src, e)) ++
      (this.edgesOutOf v.label).map fun e => (e.sink, e) := by
  rw [NeighborItr.toList, NeighborItr.create, Store.contents_inedges hv,
    Store.contents_outedges hv]
  rfl

/-- What the iteration protocols of a graph go over. -/
structure ProtocolsEnumerate (this : Graph) : Prop where
  /-- The tails of the incoming edges, then the heads of the outgoing ones. -/
  neighbors : ∀ v ∈ this.vertices.contents,
    Enumerates (fun k => ((NeighborItr.create v).stepped k).getCurrent)
      ((this.edgesInto v.label).map Edge.src ++ (this.edgesOutOf v.label).map Edge.sink)
  neighborEdges : ∀ v ∈ this.vertices.contents,
    Enumerates (fun k => ((NeighborItr.create v).stepped k).getCurrentEdge)
      (this.edgesInto v.label ++ this.edgesOutOf v.label)
  neighborAdvance : ∀ v ∈ this.vertices.contents, ∀ k,
    ((NeighborItr.create v).stepped k).advanceReturning =
      ((NeighborItr.create v).stepped (k + 1),
        ((NeighborItr.create v).stepped (k + 1)).getCurrent)
  nodup_edges : ∀ l, (this.edgesInto l).Nodup ∧ (this.edgesOutOf l).Nodup
  parents : ∀ v ∈ this.vertices.contents,
    Enumerates (pointerAt (this.getNxtParent v) (getFstParent v))
      ((this.edgesInto v.label).map Edge.src)
  children : this.directed = true → ∀ v ∈ this.vertices.contents,
    Enumerates (pointerAt (this.getNxtChild v) (this.getFstChild v))
      ((this.edgesOutOf v.label).map Edge.sink)
  nodup_far : ∀ l, ((this.edgesInto l).map Edge.src).Nodup ∧
    ((this.edgesOutOf l).map Edge.sink).Nodup
  vertices : Enumerates (pointerAt this.getNxtVertex this.getFstVertex) this.vertices.contents
  vertexItr : Enumerates (fun k => ((MapItr.create this.vertices).stepped k).getCurrent)
    this.vertices.contents
  edges : Enumerates (pointerAt this.getNxtEdge this.getFstEdge) this.edges.contents
  edgeItr : Enumerates (fun k => ((MapItr.create this.edges).stepped k).getCurrent)
    this.edges.contents

/-- **All iteration protocols enumerate the same thing**, on every graph and whatever the labels
are. -/
theorem protocolsEnumerate (this : Graph) : this.ProtocolsEnumerate where
  neighbors v hv := by
    have hitr := (NeighborItr.create v).enumerates_getCurrent
    rw [toList_create hv, List.map_append, List.map_map, List.map_map] at hitr
    exact hitr
  neighborEdges v hv := by
    have hitr := (NeighborItr.create v).enumerates_getCurrentEdge
    rw [toList_create hv, List.map_append, List.map_map, List.map_map] at hitr
    simpa only [Function.comp_def, List.map_id'] using hitr
  neighborAdvance v _ k := by
    rw [NeighborItr.advanceReturning_eq, NeighborItr.stepped, NeighborItr.stepped,
      Function.iterate_succ_apply']
  nodup_edges l :=
    ⟨this.edgeList_nodup.sublist List.filter_sublist,
      this.edgeList_nodup.sublist List.filter_sublist⟩
  parents v hv := enumerates_parents hv
  children hdirected v hv := enumerates_children hdirected hv
  nodup_far l := ⟨this.nodup_tails l, this.nodup_heads l⟩
  vertices := enumerates_contents this.vertices this.getNxtVertex Vertex.label
    (fun me hme => this.vertex_label me hme) fun _ _ => rfl
  vertexItr := MapItr.enumerates_getCurrent this.vertices
  edges := enumerates_contents this.edges this.getNxtEdge Edge.srcSink
    (fun me hme => (this.edge_key me hme).2) fun _ _ => rfl
  edgeItr := MapItr.enumerates_getCurrent this.edges

end Graph

end JunctionBox
