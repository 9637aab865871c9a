import JunctionBox.Foundations.PartialLoops
import JunctionBox.Graph.Graph
import Mathlib.Combinatorics.SimpleGraph.Acyclic
import Mathlib.Data.Sym.Sym2

/-!
# Walking over a graph

`NeighborItr` is a pair of pointers into the vertex's lists of incoming and
outgoing edges; the neighbours come out in that order, tails of incoming edges
first.  A pointer into a linked list is the rest of the list.  `neighborLoop` is
the loop every caller writes, and it returns the iterator as well, because one
caller uses it again afterwards.

Vertices and parents are visited by `GetFst` / `GetNxt` pairs, which look the
current element up again on every step; `visits` is that loop.

`skeleton` forgets directions.  A new edge adds one edge to it, and one between
two parts of a forest leaves a forest (`IsForest.addEdge`).
-/

namespace JunctionBox

/-- `struct neighbor_itr`; its `home` is never read. -/
structure NeighborItr where
  curIn : List Edge
  curOut : List Edge
deriving DecidableEq

namespace NeighborItr

/-- `NeighborItr_Create`. -/
def create (v : Vertex) : NeighborItr := ⟨v.inedges.contents, v.outedges.contents⟩

/-- `NeighborItr_GetCurrent`. -/
def getCurrent (this : NeighborItr) : Option CString :=
  match this.curIn with
  | e :: _ => some e.src
  | [] => this.curOut.head?.map Edge.sink

/-- `NeighborItr_GetCurrentEdge`. -/
def getCurrentEdge (this : NeighborItr) : Option Edge :=
  match this.curIn with
  | e :: _ => some e
  | [] => this.curOut.head?

/-- `NeighborItr_Advance`; what it returns is `getCurrent` of the advanced iterator. -/
def advance (this : NeighborItr) : NeighborItr :=
  match this.curIn with
  | _ :: rest => { this with curIn := rest }
  | [] => { this with curOut := this.curOut.tail }

/-- The number of neighbours still to come. -/
def remaining (this : NeighborItr) : ℕ := this.curIn.length + this.curOut.length

/-- The neighbours still to come, each with its edge. -/
def toList (this : NeighborItr) : List (CString × Edge) :=
  this.curIn.map (fun e => (e.src, e)) ++ this.curOut.map fun e => (e.sink, e)

/-- At most `rounds` rounds of
`for(n = GetCurrent(itr); n != NULL; n = Advance(itr)) body(n, GetCurrentEdge(itr))`. -/
def loopRounds {σ : Type} (body : σ → CString → Edge → Option σ) :
    ℕ → NeighborItr → σ → Option (NeighborItr × σ)
  | 0, itr, s => some (itr, s)
  | rounds + 1, itr, s =>
      match itr.getCurrent, itr.getCurrentEdge with
      | some nghbr, some e => do
          let s ← body s nghbr e
          loopRounds body rounds itr.advance s
      | _, _ => some (itr, s)

/-- The whole loop. -/
def neighborLoop {σ : Type} (body : σ → CString → Edge → Option σ) (itr : NeighborItr) (s : σ) :
    Option (NeighborItr × σ) := loopRounds body (itr.remaining + 1) itr s

theorem loopRounds_eq {σ : Type} (body : σ → CString → Edge → Option σ) :
    ∀ (rounds : ℕ) (itr : NeighborItr) (s : σ), itr.remaining < rounds →
      loopRounds body rounds itr s =
        (itr.toList.foldlM (fun s n => body s n.1 n.2) s).map fun s => (⟨[], []⟩, s) := by
  intro rounds
  induction rounds with
  | zero => exact fun _ _ h => absurd h (Nat.not_lt_zero _)
  | succ rounds ih =>
      rintro ⟨curIn, curOut⟩ s h
      rcases curIn with _ | ⟨e, curIn⟩
      · rcases curOut with _ | ⟨e, curOut⟩
        · rfl
        · have hrest := fun s => ih ⟨[], curOut⟩ s (by simp [remaining] at h ⊢; omega)
          simp only [loopRounds, getCurrent, getCurrentEdge, advance, toList, List.head?_cons,
            Option.map_some, List.tail_cons, List.map_nil, List.map_cons, List.nil_append,
            List.foldlM_cons, hrest]
          cases body s e.sink e <;> rfl
      · have hrest := fun s => ih ⟨curIn, curOut⟩ s (by simp [remaining] at h ⊢; omega)
        simp only [loopRounds, getCurrent, getCurrentEdge, advance, toList, List.map_cons,
          List.cons_append, List.foldlM_cons, hrest]
        cases body s e.src e <;> rfl

/-- The loop runs over all neighbours and leaves the iterator at the end. -/
theorem neighborLoop_eq {σ : Type} (body : σ → CString → Edge → Option σ) (itr : NeighborItr)
    (s : σ) :
    neighborLoop body itr s =
      (itr.toList.foldlM (fun s n => body s n.1 n.2) s).map fun s => (⟨[], []⟩, s) :=
  loopRounds_eq body _ itr s (Nat.lt_succ_self _)

/-- Nothing is left to do with an iterator at the end. -/
theorem neighborLoop_end {σ : Type} (body : σ → CString → Edge → Option σ) (s : σ) :
    neighborLoop body ⟨[], []⟩ s = some (⟨[], []⟩, s) := rfl

end NeighborItr

namespace Graph

/-- `Graph_GetNeighborItr`. -/
def getNeighborItr (this : Graph) (v : CString) : Option NeighborItr :=
  (this.getVertex v).map NeighborItr.create

/-- The neighbours of a vertex, each with the edge that leads there. -/
def neighbors (this : Graph) (v : CString) : List (CString × Edge) :=
  (this.edgeList.filter fun e => e.sink = v).map (fun e => (e.src, e)) ++
    (this.edgeList.filter fun e => e.src = v).map fun e => (e.sink, e)

/-- `Graph_GetFstVertex`. -/
def getFstVertex (this : Graph) : Option Vertex := this.vertices.getFirst

/-- `Graph_GetNxtVertex`. -/
def getNxtVertex (this : Graph) (v : Vertex) : Option Vertex := this.vertices.getNext v.label

/-- The vertices met by `GetFstVertex` and `GetNxtVertex`. -/
def vertexLoop (this : Graph) : List Vertex :=
  visits this.getNxtVertex this.getNumVertices this.getFstVertex

/-- `Graph_GetFstParent`. -/
def getFstParent (v : Vertex) : Option CString := v.inedges.getFirst.map Edge.src

/-- `Graph_GetNxtParent`.  Behind the last parent it returns `NULL`, and where `last` is no parent
it reads through one; both are `none`. -/
def getNxtParent (this : Graph) (v : Vertex) (last : CString) : Option CString := do
  let tmp ← this.getEdge last v.label
  let next ← v.inedges.getNext tmp.srcSink
  return next.src

/-- The parents met by `GetFstParent` and `GetNxtParent`. -/
def parentLoop (this : Graph) (v : Vertex) : List CString :=
  visits (this.getNxtParent v) v.inedges.size (getFstParent v)

/-- `Graph_Copy`. -/
def copy (this : Graph) : Option Graph :=
  this.vertexLoop.foldlM (fun fresh cur =>
    (this.parentLoop cur).foldlM (fun fresh parent =>
      (fresh.addVertex parent).addEdge parent cur.label) (fresh.addVertex cur.label))
    (create this.name this.directed)

/-- The undirected graph without its data. -/
def skeleton (this : Graph) : SimpleGraph CString where
  Adj u v := u ≠ v ∧ ∃ e ∈ this.edgeList, s(e.src, e.sink) = s(u, v)
  symm := ⟨fun u v h => ⟨h.1.symm, by rw [Sym2.eq_swap]; exact h.2⟩⟩
  loopless := ⟨fun _ h => h.1 rfl⟩

/-! ## What the walks meet -/

theorem mem_vertices_of_getVertex {this : Graph} {name : CString} {v : Vertex}
    (h : this.getVertex name = some v) : (name, v) ∈ this.vertices.first :=
  (this.vertices.get_eq_some_iff name v).mp h

theorem inedges_contents {this : Graph} {name : CString} {v : Vertex}
    (h : (name, v) ∈ this.vertices.first) :
    v.inedges.contents = this.edgeList.filter fun e => e.sink = name := by
  rw [Map.contents, this.inedges_eq _ h, edgeList, Map.contents, List.filter_map]
  rfl

theorem outedges_contents {this : Graph} {name : CString} {v : Vertex}
    (h : (name, v) ∈ this.vertices.first) :
    v.outedges.contents = this.edgeList.filter fun e => e.src = name := by
  rw [Map.contents, this.outedges_eq _ h, edgeList, Map.contents, List.filter_map]
  rfl

theorem getNeighborItr_eq {this : Graph} {v : CString} (h : v ∈ this.labels) :
    ∃ itr, this.getNeighborItr v = some itr ∧ itr.toList = this.neighbors v := by
  obtain ⟨w, hw⟩ := Option.isSome_iff_exists.mp ((this.getVertex_isSome_iff v).mpr h)
  have hmem := mem_vertices_of_getVertex hw
  refine ⟨NeighborItr.create w, by rw [getNeighborItr, hw, Option.map_some], ?_⟩
  rw [NeighborItr.toList, NeighborItr.create, inedges_contents hmem, outedges_contents hmem,
    neighbors]

theorem mem_neighbors {this : Graph} {v n : CString} {e : Edge} :
    (n, e) ∈ this.neighbors v ↔
      e ∈ this.edgeList ∧ ((e.sink = v ∧ e.src = n) ∨ (e.src = v ∧ e.sink = n)) := by
  simp only [neighbors, List.mem_append, List.mem_map, List.mem_filter, decide_eq_true_eq,
    Prod.mk.injEq]
  constructor
  · rintro (⟨e', ⟨he, hv⟩, hn, rfl⟩ | ⟨e', ⟨he, hv⟩, hn, rfl⟩)
    · exact ⟨he, Or.inl ⟨hv, hn⟩⟩
    · exact ⟨he, Or.inr ⟨hv, hn⟩⟩
  · rintro ⟨he, ⟨hv, hn⟩ | ⟨hv, hn⟩⟩
    · exact Or.inl ⟨e, ⟨he, hv⟩, hn, rfl⟩
    · exact Or.inr ⟨e, ⟨he, hv⟩, hn, rfl⟩

theorem vertexLoop_eq (this : Graph) : this.vertexLoop = this.vertices.contents :=
  this.vertices.visits_eq_contents this.getNxtVertex Vertex.label
    (fun me hme => this.vertex_label me hme) (fun _ _ => rfl) le_rfl

theorem mem_vertexLoop {this : Graph} {v : Vertex} :
    v ∈ this.vertexLoop ↔ (v.label, v) ∈ this.vertices.first := by
  rw [vertexLoop_eq, Map.contents, List.mem_map]
  constructor
  · rintro ⟨me, hme, rfl⟩
    rw [this.vertex_label me hme]
    exact hme
  · exact fun h => ⟨_, h, rfl⟩

theorem map_label_vertexLoop (this : Graph) : this.vertexLoop.map Vertex.label = this.labels := by
  rw [vertexLoop_eq, Map.contents, List.map_map]
  exact List.map_congr_left fun me hme => this.vertex_label me hme

/-- `visits` through a change of representation. -/
theorem visits_map {α β : Type} {nxt : α → Option α} {nxt' : β → Option β} (f : α → β)
    (good : α → Prop) (hgood : ∀ a b, good a → nxt a = some b → good b)
    (h : ∀ a, good a → nxt' (f a) = (nxt a).map f) :
    ∀ (rounds : ℕ) (a : Option α), (∀ b, a = some b → good b) →
      visits nxt' rounds (a.map f) = (visits nxt rounds a).map f := by
  intro rounds
  induction rounds with
  | zero => exact fun _ _ => rfl
  | succ rounds ih =>
      intro a ha
      cases a with
      | none => rfl
      | some a =>
          rw [Option.map_some, visits, visits, List.map_cons, h a (ha a rfl),
            ih (nxt a) fun b hb => hgood a b (ha a rfl) hb]

theorem parentLoop_eq {this : Graph} {v : Vertex} (h : (v.label, v) ∈ this.vertices.first) :
    this.parentLoop v = (this.edgeList.filter fun e => e.sink = v.label).map Edge.src := by
  have hin := inedges_contents h
  have hmem : ∀ e ∈ v.inedges.contents, e ∈ this.edgeList ∧ e.sink = v.label := fun e he => by
    rw [hin, List.mem_filter] at he
    exact ⟨he.1, of_decide_eq_true he.2⟩
  have hkey : ∀ me ∈ v.inedges.first, me.2.srcSink = me.1 := fun me hme => by
    rw [this.inedges_eq _ h] at hme
    exact (this.edge_key me (List.mem_filter.mp hme).1).2
  have hcontents : ∀ {e : Edge}, (∃ key, (key, e) ∈ v.inedges.first) →
      e ∈ v.inedges.contents := by
    intro e he
    obtain ⟨key, he⟩ := he
    exact List.mem_map_of_mem (f := Prod.snd) he
  rw [← hin, ← v.inedges.visits_eq_contents (fun e => v.inedges.getNext e.srcSink) Edge.srcSink
    hkey (fun _ _ => rfl) le_rfl]
  refine visits_map Edge.src (fun e => e ∈ v.inedges.contents)
    (fun e e' _ hnext => hcontents (Map.mem_of_getNext hnext)) (fun e he => ?_) _ _
    fun e hfirst => hcontents (Map.mem_of_getFirst hfirst)
  -- looking the parent up finds the edge it was read from
  have hedge : this.getEdge e.src v.label = some e := by
    rw [getEdge_eq_some_iff]
    refine ⟨(hmem e he).1, ?_⟩
    conv_lhs => rw [eq_create_of_mem (hmem e he).1]
    rw [(hmem e he).2]
    rfl
  rw [getNxtParent, hedge]
  exact Option.map_eq_bind.symm

/-! ## Unambiguous keys -/

/-- The keys of the edges between the listed vertices tell their ends apart. -/
def UniqueKeys (labels : List CString) : Prop :=
  ∀ a ∈ labels, ∀ b ∈ labels, ∀ c ∈ labels, ∀ d ∈ labels,
    srcsink a b = srcsink c d → a = c ∧ b = d

theorem append_space_inj {a b c d : CString} (ha : ' ' ∉ a) (hc : ' ' ∉ c)
    (h : a ++ ' ' :: b = c ++ ' ' :: d) : a = c ∧ b = d := by
  induction a generalizing c with
  | nil =>
      cases c with
      | nil => exact ⟨rfl, (List.cons.inj h).2⟩
      | cons ch c => exact absurd ((List.cons.inj h).1 ▸ List.mem_cons_self ..) hc
  | cons ch a ih =>
      rw [List.mem_cons, not_or] at ha
      cases c with
      | nil => exact absurd (List.cons.inj h).1.symm ha.1
      | cons ch' c =>
          rw [List.mem_cons, not_or] at hc
          obtain ⟨hhead, htail⟩ := List.cons.inj h
          obtain ⟨rfl, rfl⟩ := ih ha.2 hc.2 htail
          exact ⟨by rw [hhead], rfl⟩

theorem uniqueKeys_of_spaceFree {labels : List CString} (h : ∀ l ∈ labels, ' ' ∉ l) :
    UniqueKeys labels := fun a ha _ _ c hc _ _ heq => append_space_inj (h a ha) (h c hc) heq

/-- With unambiguous keys `Graph_AddEdge` adds the edge asked for. -/
theorem mem_edgeList_addEdge {this g : Graph} {src sink a b : CString}
    (hkeys : UniqueKeys this.labels) (h : this.addEdge src sink = some g) :
    Edge.create a b ∈ g.edgeList ↔
      (a = src ∧ b = sink) ∨ Edge.create a b ∈ this.edgeList := by
  have hends := addEdge_isSome_iff.mp (Option.isSome_iff_exists.mpr ⟨g, h⟩)
  rw [edgeList_addEdge h]
  split
  · next hkey =>
      obtain ⟨e, he, heq⟩ := mem_edges_keys_iff.mp hkey
      have hcreate := eq_create_of_mem he
      rw [hcreate] at heq
      obtain ⟨hsrc, hsink⟩ := hkeys _ (ends_mem he).1 _ (ends_mem he).2 _ hends.1 _ hends.2 heq
      refine ⟨Or.inr, fun hor => hor.elim (fun hab => ?_) id⟩
      rw [hab.1, hab.2, ← hsrc, ← hsink, ← hcreate]
      exact he
  · rw [List.mem_cons]
    refine or_congr_left ⟨fun heq => ?_, fun heq => by rw [heq.1, heq.2]⟩
    exact ⟨congrArg Edge.src heq, congrArg Edge.sink heq⟩

/-! ## Adding an edge -/

variable {this g : Graph} {u v : CString}

/-- The skeleton depends on the edges only. -/
theorem skeleton_congr (h : g.edgeList = this.edgeList) : g.skeleton = this.skeleton := by
  ext a b
  simp only [skeleton, h]

theorem skeleton_cons (hne : u ≠ v) (h : g.edgeList = Edge.create u v :: this.edgeList) :
    g.skeleton = this.skeleton ⊔ SimpleGraph.edge u v := by
  ext a b
  rw [SimpleGraph.sup_adj, SimpleGraph.edge_adj]
  simp only [skeleton, h, List.mem_cons, exists_eq_or_imp]
  have hends : s((Edge.create u v).src, (Edge.create u v).sink) = s(a, b) ↔
      (a = u ∧ b = v) ∨ (a = v ∧ b = u) := by
    rw [Sym2.eq_iff]
    constructor
    · rintro (⟨rfl, rfl⟩ | ⟨rfl, rfl⟩)
      · exact Or.inl ⟨rfl, rfl⟩
      · exact Or.inr ⟨rfl, rfl⟩
    · rintro (⟨rfl, rfl⟩ | ⟨rfl, rfl⟩)
      · exact Or.inl ⟨rfl, rfl⟩
      · exact Or.inr ⟨rfl, rfl⟩
  rw [hends]
  constructor
  · rintro ⟨hab, hnew | hold⟩
    · exact Or.inr ⟨hnew, hab⟩
    · exact Or.inl ⟨hab, hold⟩
  · rintro (⟨hab, hold⟩ | ⟨hnew, hab⟩)
    · exact ⟨hab, Or.inr hold⟩
    · exact ⟨hab, Or.inl hnew⟩

/-- The skeleton gets the new edge and no other. -/
theorem skeleton_addEdge (hkeys : UniqueKeys this.labels) (hne : u ≠ v)
    (h : this.addEdge u v = some g) : g.skeleton = this.skeleton ⊔ SimpleGraph.edge u v := by
  have hedges := edgeList_addEdge h
  split at hedges
  · next hkey =>
      -- with unambiguous keys the edge that is there joins `u` and `v`
      have hmem : Edge.create u v ∈ this.edgeList :=
        hedges ▸ (mem_edgeList_addEdge hkeys h).mpr (Or.inl ⟨rfl, rfl⟩)
      have hadj : this.skeleton.Adj u v := ⟨hne, _, hmem, rfl⟩
      rw [skeleton_congr hedges, SimpleGraph.sup_edge_of_adj _ hadj]
  · exact skeleton_cons hne hedges

/-- The edges make no cycle; there are no loops and no parallel edges. -/
structure IsForest (this : Graph) : Prop where
  acyclic : this.skeleton.IsAcyclic
  loopless : ∀ e ∈ this.edgeList, e.src ≠ e.sink
  simple : ∀ e ∈ this.edgeList, ∀ e' ∈ this.edgeList,
    s(e.src, e.sink) = s(e'.src, e'.sink) → e = e'

/-- The test for a forest reads the edges only. -/
theorem IsForest.congr (h : this.IsForest) (hedges : g.edgeList = this.edgeList) :
    g.IsForest where
  acyclic := skeleton_congr hedges ▸ h.acyclic
  loopless := hedges.symm ▸ h.loopless
  simple := hedges.symm ▸ h.simple

/-- A new edge between two parts of a forest. -/
theorem IsForest.cons (h : this.IsForest) (hcross : ¬this.skeleton.Reachable u v)
    (hedges : g.edgeList = Edge.create u v :: this.edgeList) : g.IsForest := by
  have hne : u ≠ v := fun heq => hcross (heq ▸ SimpleGraph.Reachable.refl u)
  have hnew : ∀ e ∈ this.edgeList, s(e.src, e.sink) ≠ s(u, v) := by
    intro e he heq
    have hadj : this.skeleton.Adj u v := ⟨hne, e, he, heq⟩
    exact hcross hadj.reachable
  refine ⟨?_, fun e he => ?_, fun e he e' he' heq => ?_⟩
  · rw [skeleton_cons hne hedges]
    exact h.acyclic.sup_edge_of_not_reachable hcross
  · rcases List.mem_cons.mp (hedges ▸ he) with rfl | he
    · exact hne
    · exact h.loopless e he
  · rcases List.mem_cons.mp (hedges ▸ he) with rfl | he <;>
      rcases List.mem_cons.mp (hedges ▸ he') with rfl | he'
    · rfl
    · exact absurd heq.symm (hnew e' he')
    · exact absurd heq (hnew e he)
    · exact h.simple e he e' he' heq

/-- `Graph_AddEdge` between two parts of a forest, whether it enters the edge or not. -/
theorem IsForest.addEdge (h : this.IsForest) (hcross : ¬this.skeleton.Reachable u v)
    (hadd : this.addEdge u v = some g) : g.IsForest := by
  have hedges := edgeList_addEdge hadd
  split at hedges
  · exact h.congr hedges
  · exact h.cons hcross hedges

end Graph

end JunctionBox
