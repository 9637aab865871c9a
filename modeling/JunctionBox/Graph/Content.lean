import JunctionBox.Graph.Iteration

/-!
# What a graph consists of

The vertices and edges of a graph as two sets, forgetting the order of the
lists.  With labels that contain no blank no two edges have the same key, so
adding vertices and edges is adding elements to these sets.
-/

namespace JunctionBox.Graph

/-- The labels of the vertices, and the labels at the two ends of the edges. -/
structure Consists (this : Graph) (V : Set CString) (E : Set (CString × CString)) : Prop where
  vertices : ∀ l, l ∈ this.labels ↔ l ∈ V
  edges : ∀ a b, Edge.create a b ∈ this.edgeList ↔ (a, b) ∈ E

variable {this : Graph} {V : Set CString} {E : Set (CString × CString)}

theorem consists_create (name : CString) (directed : Bool) :
    (create name directed).Consists ∅ ∅ :=
  ⟨fun l => by simp, fun a b => by simp⟩

theorem Consists.setDirected (h : this.Consists V E) (setting : Bool) :
    (this.setDirected setting).Consists V E := ⟨h.vertices, h.edges⟩

theorem Consists.addVertex (h : this.Consists V E) (name : CString) :
    (this.addVertex name).Consists (insert name V) E := by
  refine ⟨fun l => ?_, fun a b => ?_⟩
  · rw [mem_labels_addVertex, h.vertices, Set.mem_insert_iff]
  · unfold edgeList
    rw [edges_addVertex]
    exact h.edges a b

theorem Consists.uniqueKeys (h : this.Consists V E) (hV : ∀ l ∈ V, ' ' ∉ l) :
    UniqueKeys this.labels :=
  uniqueKeys_of_spaceFree fun l hl => hV l ((h.vertices l).mp hl)

theorem Consists.addEdge (h : this.Consists V E) (hV : ∀ l ∈ V, ' ' ∉ l) {src sink : CString}
    (hsrc : src ∈ V) (hsink : sink ∈ V) :
    ∃ g, this.addEdge src sink = some g ∧ g.Consists V (insert (src, sink) E) := by
  obtain ⟨g, hg⟩ := exists_addEdge ((h.vertices src).mpr hsrc) ((h.vertices sink).mpr hsink)
  refine ⟨g, hg, fun l => ?_, fun a b => ?_⟩
  · rw [labels_addEdge hg]
    exact h.vertices l
  · rw [mem_edgeList_addEdge (h.uniqueKeys hV) hg, h.edges, Set.mem_insert_iff, Prod.mk.injEq]

/-- A loop that adds edges. -/
theorem Consists.addEdges (hV : ∀ l ∈ V, ' ' ∉ l) {new : List (CString × CString)}
    (hnew : ∀ p ∈ new, p.1 ∈ V ∧ p.2 ∈ V) (h : this.Consists V E) :
    ∃ g, new.foldlM (fun (g : Graph) p => g.addEdge p.1 p.2) this = some g ∧
      g.Consists V ({p | p ∈ new} ∪ E) := by
  induction new generalizing this E with
  | nil => exact ⟨this, rfl, h.vertices, fun a b => by rw [h.edges]; simp⟩
  | cons p new ih =>
      have hp := hnew p (List.mem_cons_self ..)
      obtain ⟨g, hg, hcons⟩ := h.addEdge hV hp.1 hp.2
      obtain ⟨g', hrun, hcons'⟩ := ih (fun q hq => hnew q (List.mem_cons_of_mem _ hq)) hcons
      refine ⟨g', by rw [List.foldlM_cons, hg]; exact hrun, hcons'.vertices, fun a b => ?_⟩
      rw [hcons'.edges]
      simp only [Set.mem_union, Set.mem_insert_iff, Set.mem_ofPred_eq, List.mem_cons]
      tauto

/-- Edges enter between vertices only. -/
theorem Consists.of_addEdge (h : this.Consists V E) (hV : ∀ l ∈ V, ' ' ∉ l) {src sink : CString}
    {g : Graph} (hg : this.addEdge src sink = some g) :
    (src ∈ V ∧ sink ∈ V) ∧ g.Consists V (insert (src, sink) E) := by
  have hends := addEdge_isSome_iff.mp (Option.isSome_iff_exists.mpr ⟨g, hg⟩)
  rw [h.vertices, h.vertices] at hends
  obtain ⟨g', hg', hcons⟩ := h.addEdge hV hends.1 hends.2
  rw [hg, Option.some.injEq] at hg'
  exact ⟨hends, hg' ▸ hcons⟩

/-- A loop that adds edges and came to its end. -/
theorem Consists.of_addEdges (hV : ∀ l ∈ V, ' ' ∉ l) {new : List (CString × CString)} {g : Graph}
    (h : this.Consists V E)
    (hg : new.foldlM (fun (g : Graph) p => g.addEdge p.1 p.2) this = some g) :
    (∀ p ∈ new, p.1 ∈ V ∧ p.2 ∈ V) ∧ g.Consists V ({p | p ∈ new} ∪ E) := by
  induction new generalizing this E with
  | nil =>
      rw [List.foldlM_nil] at hg
      refine ⟨fun p hp => absurd hp List.not_mem_nil, ?_⟩
      rw [← Option.some.inj hg]
      exact ⟨h.vertices, fun a b => by rw [h.edges]; simp⟩
  | cons p new ih =>
      rw [List.foldlM_cons] at hg
      obtain ⟨mid, hmid, hrest⟩ := Option.bind_eq_some_iff.mp hg
      obtain ⟨hp, hcons⟩ := h.of_addEdge hV hmid
      obtain ⟨hnew, hcons'⟩ := ih hcons hrest
      refine ⟨fun q hq => ?_, hcons'.vertices, fun a b => ?_⟩
      · rcases List.mem_cons.mp hq with rfl | hq
        · exact hp
        · exact hnew q hq
      · rw [hcons'.edges]
        simp only [Set.mem_union, Set.mem_insert_iff, Set.mem_ofPred_eq, List.mem_cons]
        tauto

/-- The neighbours of a vertex are what an edge joins it to. -/
theorem Consists.mem_neighbors (h : this.Consists V E) {v n : CString} :
    (∃ e, (n, e) ∈ this.neighbors v) ↔ (n, v) ∈ E ∨ (v, n) ∈ E := by
  rw [← h.edges, ← h.edges]
  constructor
  · rintro ⟨e, he⟩
    obtain ⟨hmem, hends⟩ := Graph.mem_neighbors.mp he
    rw [eq_create_of_mem hmem] at hmem
    rcases hends with ⟨rfl, rfl⟩ | ⟨rfl, rfl⟩
    · exact Or.inl hmem
    · exact Or.inr hmem
  · rintro (hedge | hedge)
    · exact ⟨_, Graph.mem_neighbors.mpr ⟨hedge, Or.inl ⟨rfl, rfl⟩⟩⟩
    · exact ⟨_, Graph.mem_neighbors.mpr ⟨hedge, Or.inr ⟨rfl, rfl⟩⟩⟩

/-- The ends of an edge are vertices. -/
theorem Consists.ends_mem (h : this.Consists V E) {a b : CString} (hab : (a, b) ∈ E) :
    a ∈ V ∧ b ∈ V := by
  have hends := Graph.ends_mem ((h.edges a b).mpr hab)
  exact ⟨(h.vertices a).mp hends.1, (h.vertices b).mp hends.2⟩

/-- The parents met by the `GetFstParent`, `GetNxtParent` loop. -/
theorem Consists.mem_parentLoop (h : this.Consists V E) {v : Vertex}
    (hv : (v.label, v) ∈ this.vertices.first) {p : CString} :
    p ∈ this.parentLoop v ↔ (p, v.label) ∈ E := by
  rw [parentLoop_eq hv, ← h.edges, List.mem_map]
  constructor
  · rintro ⟨e, he, rfl⟩
    obtain ⟨hmem, hsink⟩ := List.mem_filter.mp he
    rw [eq_create_of_mem hmem, of_decide_eq_true hsink] at hmem
    exact hmem
  · intro hedge
    exact ⟨_, List.mem_filter.mpr ⟨hedge, decide_eq_true rfl⟩, rfl⟩

/-! ## `Graph_Copy`

While it is being filled, the copy is a part of the original.  So an edge whose
key is taken already is the edge that is there, and this needs no assumption on
the labels: the keys of the original tell its edges apart. -/

/-- A graph of the same name and direction has these vertices and edges too. -/
structure Part (this other : Graph) : Prop where
  name : this.name = other.name
  directed : this.directed = other.directed
  labels : ∀ l ∈ this.labels, l ∈ other.labels
  edges : ∀ e ∈ this.edgeList, e ∈ other.edgeList

variable {fresh g : Graph}

theorem Part.refl (this : Graph) : this.Part this := ⟨rfl, rfl, fun _ h => h, fun _ h => h⟩

theorem Part.trans (h : fresh.Part g) (h' : g.Part this) : fresh.Part this :=
  ⟨h.name.trans h'.name, h.directed.trans h'.directed, fun l hl => h'.labels l (h.labels l hl),
    fun e he => h'.edges e (h.edges e he)⟩

theorem edgeList_addVertex (this : Graph) (name : CString) :
    (this.addVertex name).edgeList = this.edgeList := by
  rw [edgeList, edges_addVertex, edgeList]

theorem name_addVertex (this : Graph) (name : CString) :
    (this.addVertex name).name = this.name ∧ (this.addVertex name).directed = this.directed := by
  unfold Graph.addVertex
  split <;> exact ⟨rfl, rfl⟩

theorem name_addEdge {src sink : CString} (h : fresh.addEdge src sink = some g) :
    g.name = fresh.name ∧ g.directed = fresh.directed := by
  unfold Graph.addEdge at h
  split at h
  · split at h
    · rw [Option.some.inj h]
      exact ⟨rfl, rfl⟩
    · rw [← Option.some.inj h]
      exact ⟨rfl, rfl⟩
  · exact absurd h (by simp)

theorem part_addVertex (fresh : Graph) (name : CString) : fresh.Part (fresh.addVertex name) where
  name := (name_addVertex fresh name).1.symm
  directed := (name_addVertex fresh name).2.symm
  labels _ hl := mem_labels_addVertex.mpr (Or.inr hl)
  edges _ he := by rwa [edgeList_addVertex]

theorem Part.addVertex (h : fresh.Part this) {name : CString} (hname : name ∈ this.labels) :
    (fresh.addVertex name).Part this where
  name := (name_addVertex fresh name).1.trans h.name
  directed := (name_addVertex fresh name).2.trans h.directed
  labels l hl := (mem_labels_addVertex.mp hl).elim (fun heq => heq ▸ hname) (h.labels l)
  edges e he := h.edges e (by rwa [edgeList_addVertex] at he)

/-- An edge of the original enters the part, or is there. -/
theorem Part.addEdge (h : fresh.Part this) {src sink : CString}
    (hedge : Edge.create src sink ∈ this.edgeList) (hg : fresh.addEdge src sink = some g) :
    g.Part this ∧ fresh.Part g ∧ Edge.create src sink ∈ g.edgeList := by
  have hlabels := labels_addEdge hg
  obtain ⟨hname, hdirected⟩ := name_addEdge hg
  have hedges : ∀ e, e ∈ g.edgeList ↔ e = Edge.create src sink ∨ e ∈ fresh.edgeList := by
    intro e
    rw [edgeList_addEdge hg]
    split
    · next hkey =>
        obtain ⟨e', he', hsame⟩ := mem_edges_keys_iff.mp hkey
        have heq : e' = Edge.create src sink := eq_of_srcSink_eq (h.edges e' he') hedge hsame
        exact ⟨Or.inr, fun hor => hor.elim (fun hnew => hnew ▸ heq ▸ he') id⟩
    · exact List.mem_cons
  refine ⟨⟨hname.trans h.name, hdirected.trans h.directed, fun l hl => ?_, fun e he => ?_⟩,
    ⟨hname.symm, hdirected.symm, fun l hl => hlabels ▸ hl, fun e he => (hedges e).mpr (Or.inr he)⟩,
    (hedges _).mpr (Or.inl rfl)⟩
  · exact h.labels l (hlabels ▸ hl)
  · exact ((hedges e).mp he).elim (fun heq => heq ▸ hedge) (h.edges e)

/-- The round of `Graph_Copy` for one vertex. -/
theorem Part.copyVertex {cur : CString} (parents : List CString) (h : fresh.Part this)
    (hcur : cur ∈ fresh.labels) (hparents : ∀ p ∈ parents, Edge.create p cur ∈ this.edgeList) :
    ∃ g, parents.foldlM (fun (fresh : Graph) parent =>
        (fresh.addVertex parent).addEdge parent cur) fresh = some g ∧
      g.Part this ∧ fresh.Part g ∧ ∀ p ∈ parents, Edge.create p cur ∈ g.edgeList := by
  induction parents generalizing fresh with
  | nil => exact ⟨fresh, rfl, h, Part.refl fresh, fun p hp => absurd hp List.not_mem_nil⟩
  | cons p parents ih =>
      obtain ⟨hedge, hrest⟩ := List.forall_mem_cons.mp hparents
      obtain ⟨mid, hmid⟩ := exists_addEdge (mem_labels_addVertex.mpr (Or.inl rfl))
        (mem_labels_addVertex.mpr (Or.inr hcur) : cur ∈ (fresh.addVertex p).labels)
      obtain ⟨hpart, hgrown, hentered⟩ := (h.addVertex (ends_mem hedge).1).addEdge hedge hmid
      have hgrown' := (part_addVertex fresh p).trans hgrown
      obtain ⟨g, hrun, hg, hgrown'', hall⟩ := ih hpart (hgrown'.labels cur hcur) hrest
      refine ⟨g, by rw [List.foldlM_cons, hmid]; exact hrun, hg, hgrown'.trans hgrown'', ?_⟩
      exact List.forall_mem_cons.mpr ⟨hgrown''.edges _ hentered, hall⟩

theorem create_mem_of_parentLoop {v : Vertex} (hv : (v.label, v) ∈ this.vertices.first)
    {p : CString} (hp : p ∈ this.parentLoop v) : Edge.create p v.label ∈ this.edgeList := by
  rw [parentLoop_eq hv, List.mem_map] at hp
  obtain ⟨e, he, rfl⟩ := hp
  obtain ⟨hmem, hsink⟩ := List.mem_filter.mp he
  rw [← of_decide_eq_true hsink, ← eq_create_of_mem hmem]
  exact hmem

/-- What the loop of `Graph_Copy` has copied when `rest` has been visited. -/
theorem Part.copyVertices (rest : List Vertex) (h : fresh.Part this)
    (hrest : ∀ v ∈ rest, (v.label, v) ∈ this.vertices.first) :
    ∃ g, rest.foldlM (fun fresh cur => (this.parentLoop cur).foldlM (fun fresh parent =>
        (fresh.addVertex parent).addEdge parent cur.label) (fresh.addVertex cur.label)) fresh =
        some g ∧
      g.Part this ∧ fresh.Part g ∧ ∀ v ∈ rest, v.label ∈ g.labels ∧
        ∀ p ∈ this.parentLoop v, Edge.create p v.label ∈ g.edgeList := by
  induction rest generalizing fresh with
  | nil => exact ⟨fresh, rfl, h, Part.refl fresh, fun v hv => absurd hv List.not_mem_nil⟩
  | cons v rest ih =>
      obtain ⟨hv, hrest⟩ := List.forall_mem_cons.mp hrest
      have hlabel : v.label ∈ this.labels := List.mem_map.mpr ⟨_, hv, rfl⟩
      obtain ⟨mid, hmid, hpart, hgrown, hedges⟩ :=
        (h.addVertex hlabel).copyVertex (this.parentLoop v)
          (mem_labels_addVertex.mpr (Or.inl rfl)) fun p hp => create_mem_of_parentLoop hv hp
      obtain ⟨g, hrun, hg, hgrown', hall⟩ := ih hpart hrest
      refine ⟨g, by rw [List.foldlM_cons, hmid]; exact hrun, hg,
        ((part_addVertex fresh _).trans hgrown).trans hgrown', ?_⟩
      refine List.forall_mem_cons.mpr ⟨⟨hgrown'.labels _ (hgrown.labels _ ?_), fun p hp =>
        hgrown'.edges _ (hedges p hp)⟩, hall⟩
      exact mem_labels_addVertex.mpr (Or.inl rfl)

/-- `Graph_Copy` ends, with a graph of which the original is a part and which is a part of it. -/
theorem exists_copy (this : Graph) : ∃ g, this.copy = some g ∧ g.Part this ∧ this.Part g := by
  have hempty : (create this.name this.directed).Part this :=
    ⟨rfl, rfl, fun l hl => absurd hl List.not_mem_nil, fun e he => absurd he List.not_mem_nil⟩
  obtain ⟨g, hrun, hg, hgrown, hall⟩ :=
    hempty.copyVertices this.vertexLoop fun v hv => mem_vertexLoop.mp hv
  have hvertex : ∀ l ∈ this.labels, ∃ v ∈ this.vertexLoop, v.label = l := fun l hl => by
    rw [← map_label_vertexLoop, List.mem_map] at hl
    exact hl
  refine ⟨g, hrun, hg, hgrown.name, hgrown.directed, fun l hl => ?_, fun e he => ?_⟩
  · obtain ⟨v, hv, rfl⟩ := hvertex l hl
    exact (hall v hv).1
  · obtain ⟨v, hv, hlabel⟩ := hvertex _ (ends_mem he).2
    rw [eq_create_of_mem he, ← hlabel]
    refine (hall v hv).2 _ ?_
    rw [parentLoop_eq (mem_vertexLoop.mp hv)]
    exact List.mem_map_of_mem (List.mem_filter.mpr ⟨he, decide_eq_true hlabel.symm⟩)

/-- `Graph_Copy` copies. -/
theorem Consists.copy (h : this.Consists V E) : ∃ g, this.copy = some g ∧ g.Consists V E := by
  obtain ⟨g, hg, hpart, hpart'⟩ := this.exists_copy
  refine ⟨g, hg, fun l => ?_, fun a b => ?_⟩
  · rw [← h.vertices]
    exact ⟨hpart.labels l, hpart'.labels l⟩
  · rw [← h.edges]
    exact ⟨hpart.edges _, hpart'.edges _⟩

end JunctionBox.Graph
