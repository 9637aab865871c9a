import JunctionBox.Graph.Heap

/-!
# `Graph_Copy` on the heap

Two nested loops that look their next element up in the graph they read, while
they write to another.  A write to the copy leaves the original as it was, so
the loops go over what the iteration protocols enumerate (`loop_eq`), and every
round does to the copy what the round of the value function does to its value.
-/

namespace JunctionBox.Heap

/-! ## The loops of `Graph_Copy` -/

/-- A loop whose body does not change what `nxt` sees goes over what `nxt` enumerates. -/
theorem loop_eq {nxt : Heap → ℕ → Option ℕ} {body : Heap → ℕ → Option Heap}
    {nxt' : ℕ → Option ℕ} {fst : Option ℕ} {l : List ℕ} (henum : Enumerates (pointerAt nxt' fst) l)
    (inv : Heap → Prop) (hnxt : ∀ h, inv h → ∀ x ∈ l, nxt h x = nxt' x)
    (hinv : ∀ h, inv h → ∀ x ∈ l, ∀ h', body h x = some h' → inv h') {h : Heap} (hh : inv h) :
    loop nxt body l.length fst h = l.foldlM body h := by
  have hrest : ∀ (rest : List ℕ) (k : ℕ) (h : Heap), l.drop k = rest → inv h →
      loop nxt body rest.length rest.head? h = rest.foldlM body h := by
    intro rest
    induction rest with
    | nil => exact fun _ _ _ _ => rfl
    | cons x rest ih =>
        intro k h hdrop hh
        have hx : l[k]? = some x := by
          rw [← List.head?_drop, hdrop]
          rfl
        have htail : l.drop (k + 1) = rest := by
          rw [← List.tail_drop, hdrop]
          rfl
        have hmem : x ∈ l := List.mem_of_getElem? hx
        have hnext : nxt' x = rest.head? := by
          have hat := henum (k + 1)
          rw [pointerAt, henum k, hx, Option.bind_some] at hat
          rw [hat, ← htail, List.head?_drop]
        rw [List.length_cons, List.head?_cons, loop, List.foldlM_cons]
        cases hbody : body h x with
        | none => rfl
        | some h' =>
            have hh' := hinv h hh x hmem h' hbody
            simp only [Option.bind_eq_bind, Option.bind_some]
            rw [hnxt h' hh' x hmem, hnext]
            exact ih (k + 1) h' htail hh'
  have hfst : fst = l.head? := by
    rw [List.head?_eq_getElem?, ← henum 0, pointerAt]
  rw [hfst]
  exact hrest l 0 h rfl hh

section Copy

variable {h h' : Heap} {this fresh : ℕ} {c cF : GraphCell} {G F : Graph}

/-- The edge cell at `e`. -/
def edgeCell (h : Heap) (e : ℕ) : EdgeCell := h.edges[e]?.getD ⟨0, [], 0, 0⟩

theorem IsGraph.edgeCell (hg : h.IsGraph this c G) {e : ℕ} (he : e ∈ c.edges.contents) :
    h.edges[e]? = some (h.edgeCell e) := by
  obtain ⟨cell, hcell, -⟩ := hg.edge_owner e he
  rw [Heap.edgeCell, hcell, Option.getD_some]

theorem edgeAt_eq {e : ℕ} {cell : EdgeCell} (he : h.edges[e]? = some cell) :
    h.edgeAt e = ⟨cell.srcSink, h.labelAt cell.src, h.labelAt cell.sink⟩ := by
  simp only [edgeAt, he]

/-- The incoming edges of a vertex, as the graph has them. -/
theorem IsGraph.mem_inedges (hg : h.IsGraph this c G) {cur : ℕ} {cell : VertexCell}
    (hcur : cur ∈ c.vertices.contents) (hcell : h.vertices[cur]? = some cell)
    {me : CString × ℕ} (hme : me ∈ cell.inedges.first) :
    me.2 ∈ c.edges.contents ∧ (h.edgeCell me.2).srcSink = me.1 ∧
      h.labelAt (h.edgeCell me.2).sink = cell.label := by
  obtain ⟨v, hv, -, -, hin⟩ := hg.vertex_owner cur hcur
  obtain rfl : v = cell := Option.some.inj (hv.symm.trans hcell)
  have hmem := hin me.2 (List.mem_map_of_mem hme)
  have hat := edgeAt_eq (hg.edgeCell hmem)
  have hread : (h.labelAt cur, h.vertexAt cur) ∈ G.vertices.first := by
    rw [← hg.vertices]
    exact List.mem_map.mpr ⟨_, (c.vertices.get_eq_some_iff _ _).mp (hg.get_of_mem hcur), rfl⟩
  have hinedges : (me.1, h.edgeAt me.2) ∈ (h.vertexAt cur).inedges.first := by
    simp only [vertexAt, hcell]
    exact List.mem_map.mpr ⟨me, hme, rfl⟩
  rw [G.inedges_eq _ hread, List.mem_filter] at hinedges
  have hkey := (G.edge_key _ hinedges.1).2
  have hsink := of_decide_eq_true hinedges.2
  rw [hat] at hkey hsink
  exact ⟨hmem, hkey, hsink.trans (labelAt_eq hcell)⟩

/-- Looking a parent up finds the edge it was read from. -/
theorem IsGraph.getNxtParent_eq (hg : h.IsGraph this c G) {cur : ℕ} {cell : VertexCell}
    (hcur : cur ∈ c.vertices.contents) (hcell : h.vertices[cur]? = some cell) {e : ℕ}
    (he : e ∈ cell.inedges.contents) :
    h.getNxtParent this cur (h.edgeCell e).src =
      (cell.inedges.getNext (h.edgeCell e).srcSink).map fun e => (h.edgeCell e).src := by
  obtain ⟨me, hme, rfl⟩ := List.mem_map.mp he
  obtain ⟨hmem, -, hsink⟩ := hg.mem_inedges hcur hcell hme
  have hedge := hg.edgeCell hmem
  obtain ⟨hget, hkey⟩ := hg.edge_get hmem hedge
  obtain ⟨e', he', -, hsrc, -⟩ := hg.edge_owner _ hmem
  obtain rfl : h.edgeCell me.2 = e' := Option.some.inj (hedge.symm.trans he')
  have hgetEdge : h.getEdge this (h.edgeCell me.2).src cur = some (some me.2) := by
    rw [hg.getEdge_eq (hg.get_of_mem hsrc) (hg.get_of_mem hcur), labelAt_eq hcell, ← hsink, ← hkey,
      hget]
  simp only [getNxtParent, hgetEdge, hedge, hcell, Option.bind_eq_bind, Option.bind_some]
  cases hnext : cell.inedges.getNext (h.edgeCell me.2).srcSink with
  | none => rfl
  | some e =>
      obtain ⟨key, hmem'⟩ := Map.mem_of_getNext hnext
      rw [Option.bind_some, hg.edgeCell (hg.mem_inedges hcur hcell hmem').1]
      rfl

/-- The parents of a vertex, as the loop of `Graph_Copy` meets them. -/
theorem IsGraph.enumerates_parents (hg : h.IsGraph this c G) {cur : ℕ} {cell : VertexCell}
    (hcur : cur ∈ c.vertices.contents) (hcell : h.vertices[cur]? = some cell) :
    Enumerates (pointerAt (h.getNxtParent this cur) (h.getFstParent cur))
      (cell.inedges.contents.map fun e => (h.edgeCell e).src) := by
  have hfst : h.getFstParent cur = cell.inedges.getFirst.map fun e => (h.edgeCell e).src := by
    simp only [getFstParent, hcell, Option.bind_eq_bind, Option.bind_some]
    cases hfirst : cell.inedges.getFirst with
    | none => rfl
    | some e =>
        obtain ⟨key, hmem⟩ := Map.mem_of_getFirst hfirst
        rw [Option.bind_some, hg.edgeCell (hg.mem_inedges hcur hcell hmem).1]
        rfl
  rw [hfst]
  exact enumerates_far cell.inedges _ (fun e => (h.edgeCell e).srcSink) _
    (fun me hme => (hg.mem_inedges hcur hcell hme).2.1) fun e he => hg.getNxtParent_eq hcur hcell he

theorem IsGraph.enumerates_vertices (hg : h.IsGraph this c G) :
    Enumerates (pointerAt (h.getNxtVertex this) (h.getFstVertex this)) c.vertices.contents := by
  have hfst : h.getFstVertex this = c.vertices.getFirst := by
    simp only [getFstVertex, hg.cell, Option.bind_eq_bind, Option.bind_some]
  rw [hfst]
  refine enumerates_contents c.vertices _ h.labelAt (fun me hme => ?_) fun me hme => ?_
  · rw [labelAt, hg.label_eq ((c.vertices.get_eq_some_iff _ _).mpr hme)]
    rfl
  · have hlabel := hg.label_eq ((c.vertices.get_eq_some_iff _ _).mpr hme)
    simp only [getNxtVertex, labelAt, hlabel, hg.cell, Option.bind_eq_bind, Option.bind_some,
      Option.getD_some]

theorem Writes.edgeCell (hw : h.Writes fresh h') (hg : h.IsGraph this c G) {e : ℕ}
    (he : e ∈ c.edges.contents) : h'.edgeCell e = h.edgeCell e := by
  simp only [Heap.edgeCell, hw.edges e _ (hg.edgeCell he), Option.getD_some]

/-- A write to the copy does not change what the loop over the parents sees. -/
theorem Writes.getNxtParent (hw : h.Writes fresh h') (hne : this ≠ fresh)
    (hg : h.IsGraph this c G) {cur : ℕ} {cell : VertexCell} (hcur : cur ∈ c.vertices.contents)
    (hcell : h.vertices[cur]? = some cell) {e : ℕ} (he : e ∈ cell.inedges.contents) :
    h'.getNxtParent this cur (h.edgeCell e).src = h.getNxtParent this cur (h.edgeCell e).src := by
  have hcell' : h'.vertices[cur]? = some cell := (hw.cell_eq hne hg hcur).trans hcell
  have hsame : ∀ {e}, e ∈ cell.inedges.contents → h'.edgeCell e = h.edgeCell e := fun he => by
    obtain ⟨me, hme, rfl⟩ := List.mem_map.mp he
    exact hw.edgeCell hg (hg.mem_inedges hcur hcell hme).1
  have hnext' := (hg.of_writes hw hne).getNxtParent_eq hcur hcell' he
  rw [hsame he] at hnext'
  rw [hnext', hg.getNxtParent_eq hcur hcell he]
  cases hnext : cell.inedges.getNext (h.edgeCell e).srcSink with
  | none => rfl
  | some e' =>
      obtain ⟨key, hmem⟩ := Map.mem_of_getNext hnext
      rw [Option.map_some, Option.map_some, hsame (List.mem_map_of_mem hmem)]

/-- The copy while the parents of `cur` are being gone over: `curF` is its vertex there. -/
structure Filling (h₁ : Heap) (fresh : ℕ) (cur : CString) (curF : ℕ) (h : Heap) (F : Graph) :
    Prop where
  writes : h₁.Writes fresh h
  copy : ∃ cF, h.IsGraph fresh cF F ∧ cF.vertices.get cur = some curF

/-- The round of `Graph_Copy` for one parent. -/
theorem Filling.copyParent {h₁ : Heap} {cur l : CString} {curF q : ℕ}
    (hfill : Filling h₁ fresh cur curF h F) (hq : h₁.vertexGetLabel q = some l) :
    ∃ h' F', copyParent fresh curF h q = some h' ∧ (F.addVertex l).addEdge l cur = some F' ∧
      Filling h₁ fresh cur curF h' F' := by
  obtain ⟨cF, hF, hcurF⟩ := hfill.copy
  obtain ⟨h₂, p, c₂, hadd, hF₂, hp, hkept, hw₂⟩ := hF.addVertex l
  obtain ⟨h₃, e, c₃, F', haddEdge, hF', hF₃, hvertices, hw₃⟩ :=
    hF₂.addEdge hp (hkept cur curF hcurF)
  refine ⟨h₃, F', ?_, hF', (hfill.writes.trans hw₂).trans hw₃, c₃, hF₃, ?_⟩
  · simp only [Heap.copyParent, hfill.writes.vertexGetLabel hq, hadd, haddEdge, Option.bind_eq_bind,
      Option.bind_some]
    rfl
  · rw [hvertices]
    exact hkept cur curF hcurF

/-- The rounds of `Graph_Copy` for the parents `qs`, labelled by `labels`. -/
theorem Filling.copyParents {h₁ : Heap} {cur : CString} {curF : ℕ} {qs : List ℕ}
    {labels : List CString} (hqs : List.Forall₂ (fun q l => h₁.vertexGetLabel q = some l) qs labels)
    (hfill : Filling h₁ fresh cur curF h F) :
    ∃ h' F', qs.foldlM (Heap.copyParent fresh curF) h = some h' ∧
      labels.foldlM (fun (F : Graph) parent => (F.addVertex parent).addEdge parent cur) F =
        some F' ∧
      Filling h₁ fresh cur curF h' F' := by
  induction hqs generalizing h F with
  | nil => exact ⟨h, F, rfl, rfl, hfill⟩
  | cons hq _ ih =>
      obtain ⟨h₂, F₂, hstep, hvalue, hfill₂⟩ := hfill.copyParent hq
      obtain ⟨h', F', hrun, hvalues, hfill'⟩ := ih hfill₂
      refine ⟨h', F', ?_, ?_, hfill'⟩
      · rw [List.foldlM_cons, hstep]
        exact hrun
      · rw [List.foldlM_cons, hvalue]
        exact hvalues

/-- The labels of the parents are those the value loop goes over. -/
theorem IsGraph.parentLoop (hg : h.IsGraph this c G) {cur : ℕ} {cell : VertexCell}
    (hcur : cur ∈ c.vertices.contents) (hcell : h.vertices[cur]? = some cell) :
    List.Forall₂ (fun q l => h.vertexGetLabel q = some l)
      (cell.inedges.contents.map fun e => (h.edgeCell e).src) (G.parentLoop (h.vertexAt cur)) := by
  have hmem : (h.labelAt cur, h.vertexAt cur) ∈ G.vertices.first := by
    rw [← hg.vertices]
    exact List.mem_map.mpr ⟨_, (c.vertices.get_eq_some_iff _ _).mp (hg.get_of_mem hcur), rfl⟩
  have hlabel : (h.vertexAt cur).label = h.labelAt cur := by
    rw [label_vertexAt hcell, labelAt_eq hcell]
  have hinedges : (h.vertexAt cur).inedges.contents = cell.inedges.contents.map h.edgeAt := by
    simp only [vertexAt, hcell, Map.contents_mapContents]
  rw [Graph.parentLoop_eq (hlabel ▸ hmem), hlabel, ← Graph.inedges_contents hmem, hinedges,
    List.map_map, List.forall₂_map_left_iff, List.forall₂_map_right_iff, List.forall₂_same]
  intro e he
  obtain ⟨me, hme, rfl⟩ := List.mem_map.mp he
  have hcontents := (hg.mem_inedges hcur hcell hme).1
  obtain ⟨e', he', -, hsrc, -⟩ := hg.edge_owner _ hcontents
  rw [Function.comp_apply, edgeAt_eq (hg.edgeCell hcontents)]
  obtain rfl : h.edgeCell me.2 = e' :=
    Option.some.inj ((hg.edgeCell hcontents).symm.trans he')
  obtain ⟨v, hv, -⟩ := hg.vertex_owner _ hsrc
  rw [labelAt_eq hv, vertexGetLabel, hv]
  rfl

/-- The round of `Graph_Copy` for one vertex. -/
theorem IsGraph.copyVertex (hg : h.IsGraph this c G) (hne : this ≠ fresh)
    (hF : h.IsGraph fresh cF F) {cur : ℕ} (hcur : cur ∈ c.vertices.contents) :
    ∃ h' cF' F', copyVertex this fresh h cur = some h' ∧
      (G.parentLoop (h.vertexAt cur)).foldlM (fun (F : Graph) parent =>
        (F.addVertex parent).addEdge parent (h.vertexAt cur).label)
        (F.addVertex (h.vertexAt cur).label) = some F' ∧
      h'.IsGraph fresh cF' F' ∧ h.Writes fresh h' := by
  obtain ⟨cell, hcell, -⟩ := hg.vertex_owner cur hcur
  obtain ⟨h₁, curF, c₁, hadd, hF₁, hcurF, -, hw₁⟩ := hF.addVertex cell.label
  have hg₁ := hg.of_writes hw₁ hne
  have hcell₁ : h₁.vertices[cur]? = some cell := (hw₁.cell_eq hne hg hcur).trans hcell
  have hat : h₁.vertexAt cur = h.vertexAt cur := hw₁.vertexAt hg hcur (hw₁.cell_eq hne hg hcur)
  have hqs := hg₁.parentLoop hcur hcell₁
  have hstart : Filling h₁ fresh cell.label curF h₁ (F.addVertex cell.label) :=
    ⟨Writes.refl h₁ fresh, c₁, hF₁, hcurF⟩
  obtain ⟨h', F', hrun, hvalues, hfill⟩ := hstart.copyParents hqs
  obtain ⟨cF', hF', -⟩ := hfill.copy
  refine ⟨h', cF', F', ?_, ?_, hF', hw₁.trans hfill.writes⟩
  · have hlabel : h.vertexGetLabel cur = some cell.label := by
      rw [vertexGetLabel, hcell]
      rfl
    simp only [Heap.copyVertex, hlabel, hadd, hcell₁, Option.bind_eq_bind, Option.bind_some]
    rw [show cell.inedges.size = (cell.inedges.contents.map fun e => (h₁.edgeCell e).src).length by
      rw [List.length_map, ← Graph.Store.size_eq_length]]
    -- the loop keeps filling the copy, and the original stays as it was
    refine (loop_eq (hg₁.enumerates_parents hcur hcell₁)
      (fun h => ∃ F, Filling h₁ fresh cell.label curF h F) ?_ ?_ ⟨_, hstart⟩).trans hrun
    · rintro h₂ ⟨F₂, hfill₂⟩ x hx
      obtain ⟨e, he, rfl⟩ := List.mem_map.mp hx
      exact hfill₂.writes.getNxtParent hne hg₁ hcur hcell₁ he
    · rintro h₂ ⟨F₂, hfill₂⟩ x hx h₃ hbody
      obtain ⟨e, he, rfl⟩ := List.mem_map.mp hx
      obtain ⟨me, hme, rfl⟩ := List.mem_map.mp he
      obtain ⟨e', he', -, hsrc, -⟩ := hg₁.edge_owner _ (hg₁.mem_inedges hcur hcell₁ hme).1
      obtain rfl : h₁.edgeCell me.2 = e' := Option.some.inj
        ((hg₁.edgeCell (hg₁.mem_inedges hcur hcell₁ hme).1).symm.trans he')
      obtain ⟨h₄, F₄, hstep, -, hfill₄⟩ :=
        hfill₂.copyParent (hg₁.label_eq (hg₁.get_of_mem hsrc))
      obtain rfl := Option.some.inj (hbody.symm.trans hstep)
      exact ⟨F₄, hfill₄⟩
  · rw [hat] at hvalues
    rw [label_vertexAt hcell]
    exact hvalues

/-- The rounds of `Graph_Copy` for the vertices `rest`. -/
theorem IsGraph.copyVertices (hne : this ≠ fresh) {h₁ : Heap} (hg : h₁.IsGraph this c G)
    {rest : List ℕ} (hrest : ∀ p ∈ rest, p ∈ c.vertices.contents) (hw : h₁.Writes fresh h)
    (hF : h.IsGraph fresh cF F) :
    ∃ h' cF' F', rest.foldlM (Heap.copyVertex this fresh) h = some h' ∧
      (rest.map h₁.vertexAt).foldlM (fun (F : Graph) cur => (G.parentLoop cur).foldlM
        (fun (F : Graph) parent => (F.addVertex parent).addEdge parent cur.label)
        (F.addVertex cur.label)) F = some F' ∧
      h'.IsGraph fresh cF' F' ∧ h₁.Writes fresh h' := by
  induction rest generalizing h cF F with
  | nil => exact ⟨h, cF, F, rfl, rfl, hF, hw⟩
  | cons p rest ih =>
      obtain ⟨hp, hrest⟩ := List.forall_mem_cons.mp hrest
      obtain ⟨h₂, c₂, F₂, hstep, hvalue, hF₂, hw₂⟩ := (hg.of_writes hw hne).copyVertex hne hF hp
      rw [hw.vertexAt hg hp (hw.cell_eq hne hg hp)] at hvalue
      obtain ⟨h', cF', F', hrun, hvalues, hF', hw'⟩ := ih hrest (hw.trans hw₂) hF₂
      refine ⟨h', cF', F', ?_, ?_, hF', hw'⟩
      · rw [List.foldlM_cons, hstep]
        exact hrun
      · rw [List.map_cons, List.foldlM_cons, hvalue]
        exact hvalues

/-- A new graph is behind those there are, which read as before. -/
theorem IsGraph.create (hg : h.IsGraph this c G) (name : CString) (directed : Bool) :
    (h.create name directed).1.IsGraph this c G :=
  ⟨(List.getElem?_append_left (List.getElem?_eq_some_iff.mp hg.cell).1).trans hg.cell, hg.name,
    hg.directed, hg.vertices, hg.edges, hg.vertex_owner, hg.edge_owner⟩

theorem isGraph_create (h : Heap) (name : CString) (directed : Bool) :
    (h.create name directed).1.IsGraph h.graphs.length
      ⟨name, directed, true, Map.create, Map.create⟩ (Graph.create name directed) :=
  ⟨List.getElem?_concat_length, rfl, rfl, rfl, rfl, fun _ hp => absurd hp List.not_mem_nil,
    fun _ hp => absurd hp List.not_mem_nil⟩

/-- Setting the flag of a graph does not change what the graph is. -/
theorem IsGraph.setDirty (hg : h.IsGraph this c G) :
    ({ h with graphs := h.graphs.set this { c with graphDirty := true } } : Heap).IsGraph this
      { c with graphDirty := true } G :=
  ⟨List.getElem?_set_self (List.getElem?_eq_some_iff.mp hg.cell).1, hg.name, hg.directed,
    hg.vertices, hg.edges, hg.vertex_owner, hg.edge_owner⟩

/-- **`Graph_Copy`** on the heap: it allocates a graph that reads as the copy of the value, and
writes to that graph only. -/
theorem IsGraph.copy (hg : h.IsGraph this c G) :
    ∃ h' cF F, h.copy this = some (h', h.graphs.length) ∧ G.copy = some F ∧
      h'.IsGraph h.graphs.length cF F ∧
      (h.create c.name c.directed).1.Writes h.graphs.length h' := by
  have hlt : this < h.graphs.length := (List.getElem?_eq_some_iff.mp hg.cell).1
  have hne : this ≠ h.graphs.length := Nat.ne_of_lt hlt
  have hg₁ := hg.create c.name c.directed
  have hstart := Writes.refl (h.create c.name c.directed).1 h.graphs.length
  have hF₁ := isGraph_create h c.name c.directed
  obtain ⟨h', cF, F, hrun, hvalue, hF, hw⟩ :=
    hg₁.copyVertices hne (fun _ hp => hp) hstart hF₁
  have hloop : loop (fun h v => h.getNxtVertex this v) (Heap.copyVertex this h.graphs.length)
      c.vertices.size ((h.create c.name c.directed).1.getFstVertex this)
      (h.create c.name c.directed).1 = some h' := by
    rw [Graph.Store.size_eq_length]
    refine (loop_eq hg₁.enumerates_vertices
      (fun h₂ => (h.create c.name c.directed).1.Writes h.graphs.length h₂ ∧
        ∃ c₂ F₂, h₂.IsGraph h.graphs.length c₂ F₂) ?_ ?_ ⟨hstart, _, _, hF₁⟩).trans hrun
    · rintro h₂ ⟨hw₂, -⟩ x hx
      have hlabel := hg₁.label_eq (hg₁.get_of_mem hx)
      simp only [getNxtVertex, hw₂.vertexGetLabel hlabel, hlabel, hg₁.cell,
        (hg₁.of_writes hw₂ hne).cell]
    · rintro h₂ ⟨hw₂, c₂, F₂, hF₂⟩ x hx h₃ hbody
      obtain ⟨h₄, c₄, F₄, hstep, -, hF₄, hw₄⟩ := (hg₁.of_writes hw₂ hne).copyVertex hne hF₂ hx
      obtain rfl := Option.some.inj (hbody.symm.trans hstep)
      exact ⟨hw₂.trans hw₄, c₄, F₄, hF₄⟩
  refine ⟨_, _, F, ?_, ?_, hF.setDirty, hw.trans (writes_setGraph _ _ _)⟩
  · simp only [Heap.copy, hg.cell, Option.bind_eq_bind, Option.bind_some]
    rw [show (h.create c.name c.directed).2 = h.graphs.length from rfl, hloop, Option.bind_some,
      hF.cell]
    rfl
  · rw [Graph.copy, Graph.vertexLoop_eq, ← hg.name, ← hg.directed, ← hg₁.vertices,
      Map.contents_mapContents]
    exact hvalue

end Copy

/-! ## Heaps that calls lead to -/

/-- Every graph is one, and every vertex belongs to a graph. -/
structure WellFormed (h : Heap) : Prop where
  graphs : ∀ g < h.graphs.length, ∃ c G, h.IsGraph g c G
  owners : ∀ (p : ℕ) (v : VertexCell), h.vertices[p]? = some v → v.owner < h.graphs.length

/-- Every cell there was is what it was. -/
structure Extends (h h' : Heap) : Prop where
  graphs : ∀ (g : ℕ) (c : GraphCell), h.graphs[g]? = some c → h'.graphs[g]? = some c
  vertices : ∀ (p : ℕ) (v : VertexCell), h.vertices[p]? = some v → h'.vertices[p]? = some v
  edges : ∀ (p : ℕ) (e : EdgeCell), h.edges[p]? = some e → h'.edges[p]? = some e

section Calls

variable {h h' : Heap} {g : ℕ} {c : GraphCell} {G : Graph}

theorem WellFormed.of_writes (hwf : h.WellFormed) (hlt : g < h.graphs.length)
    (hw : h.Writes g h') (hg : h'.IsGraph g c G) : h'.WellFormed where
  graphs g' hg' := by
    rw [hw.graphs_length] at hg'
    by_cases heq : g' = g
    · exact ⟨c, G, heq ▸ hg⟩
    · obtain ⟨c', G', hread⟩ := hwf.graphs g' hg'
      exact ⟨c', G', hread.of_writes hw heq⟩
  owners p v' hv' := by
    rw [hw.graphs_length]
    cases hv : h.vertices[p]? with
    | none => exact hw.allocated p v' hv' hv ▸ hlt
    | some v =>
        obtain ⟨w, hw', howner, -⟩ := hw.vertices p v hv
        obtain rfl := Option.some.inj (hw'.symm.trans hv')
        exact howner ▸ hwf.owners p v hv

theorem WellFormed.create (hwf : h.WellFormed) (name : CString) (directed : Bool) :
    (h.create name directed).1.WellFormed where
  graphs g hg := by
    by_cases heq : g = h.graphs.length
    · exact ⟨_, _, heq ▸ isGraph_create h name directed⟩
    · have hlt : g < h.graphs.length := by
        have hlen : (h.create name directed).1.graphs.length = h.graphs.length + 1 :=
          List.length_append
        omega
      obtain ⟨c, G, hread⟩ := hwf.graphs g hlt
      exact ⟨c, G, hread.create name directed⟩
  owners p v hv := by
    have hlen : (h.create name directed).1.graphs.length = h.graphs.length + 1 :=
      List.length_append
    rw [hlen]
    exact Nat.lt_succ_of_lt (hwf.owners p v hv)

/-- `Graph_Copy` of a graph in a well-formed heap. -/
theorem WellFormed.copy (hwf : h.WellFormed) (hg : h.IsGraph g c G) :
    ∃ h' cF F, h.copy g = some (h', h.graphs.length) ∧ G.copy = some F ∧
      h'.IsGraph h.graphs.length cF F ∧ h.Extends h' ∧ h'.WellFormed := by
  obtain ⟨h', cF, F, hrun, hvalue, hF, hw⟩ := hg.copy
  have hlen : (h.create c.name c.directed).1.graphs.length = h.graphs.length + 1 :=
    List.length_append
  refine ⟨h', cF, F, hrun, hvalue, hF, ⟨fun g' c' hg' => ?_, fun p v hv => ?_, fun p e he => ?_⟩,
    (hwf.create c.name c.directed).of_writes (hlen ▸ Nat.lt_succ_self _) hw hF⟩
  · have hlt := (List.getElem?_eq_some_iff.mp hg').1
    rw [hw.graphs g' (Nat.ne_of_lt hlt)]
    exact (List.getElem?_append_left hlt).trans hg'
  · obtain ⟨v', hv', -, -, hsame⟩ := hw.vertices p v hv
    rw [hv', hsame (Nat.ne_of_lt (hwf.owners p v hv))]
  · exact hw.edges p e he

theorem WellFormed.run (hwf : h.WellFormed) {call : Call} (hrun : h.run call = some h') :
    h'.WellFormed := by
  cases call with
  | create name directed =>
      rw [← Option.some.inj hrun]
      exact hwf.create name directed
  | addVertex g name =>
      obtain ⟨r, hadd, rfl⟩ := Option.map_eq_some_iff.mp hrun
      obtain ⟨c, hc, -⟩ := Option.bind_eq_some_iff.mp hadd
      have hlt := (List.getElem?_eq_some_iff.mp hc).1
      obtain ⟨c', G, hg⟩ := hwf.graphs g hlt
      obtain ⟨h₂, p, c₂, hadd', hg₂, -, -, hw⟩ := hg.addVertex name
      obtain rfl := Option.some.inj (hadd.symm.trans hadd')
      exact hwf.of_writes hlt hw hg₂
  | addEdge g src sink =>
      obtain ⟨p, hp, hrun⟩ := Option.bind_eq_some_iff.mp hrun
      obtain ⟨q, hq, hrun⟩ := Option.bind_eq_some_iff.mp hrun
      obtain ⟨e, he, hrun⟩ := Option.bind_eq_some_iff.mp hrun
      obtain ⟨c, hc, hp⟩ := Option.bind_eq_some_iff.mp hp
      obtain ⟨c', hc', hq⟩ := Option.bind_eq_some_iff.mp hq
      obtain rfl : c = c' := Option.some.inj (hc.symm.trans hc')
      have hlt := (List.getElem?_eq_some_iff.mp hc).1
      obtain ⟨c', G, hg⟩ := hwf.graphs g hlt
      obtain rfl : c = c' := Option.some.inj (hc.symm.trans hg.cell)
      obtain ⟨h₂, r, c₂, G₂, hadd, -, hg₂, -, hw⟩ := hg.addEdge hp hq
      obtain rfl := Option.some.inj (he.symm.trans hadd)
      rw [← Option.some.inj hrun]
      exact hwf.of_writes hlt hw hg₂
  | copy g =>
      obtain ⟨r, hcopy, rfl⟩ := Option.map_eq_some_iff.mp hrun
      obtain ⟨c, hc, -⟩ := Option.bind_eq_some_iff.mp hcopy
      obtain ⟨c', G, hg⟩ := hwf.graphs g (List.getElem?_eq_some_iff.mp hc).1
      obtain ⟨h₂, cF, F, hcopy', -, -, -, hwf'⟩ := hwf.copy hg
      obtain rfl := Option.some.inj (hcopy.symm.trans hcopy')
      exact hwf'

theorem wellFormed_of_run {calls : List Call} (hrun : calls.foldlM Heap.run Heap.empty = some h) :
    h.WellFormed := by
  refine PartialLoops.foldlM_invariant WellFormed hrun ⟨?_, ?_⟩
    fun _ _ _ _ hwf hstep => hwf.run hstep
  · exact fun g hg => absurd hg (Nat.not_lt_zero g)
  · exact fun p v hv => absurd hv (by simp [Heap.empty])

/-- **`Graph_Copy` is faithful**, on every graph that calls lead to and whatever its labels are:
the copy has the name, the direction, the vertices and the edges of the original, everything it
points at is its own, and no cell there was has changed. -/
theorem copy_faithful {calls : List Call} (hrun : calls.foldlM Heap.run Heap.empty = some h)
    {this : ℕ} (hthis : this < h.graphs.length) :
    ∃ h' fresh c G cF F, h.copy this = some (h', fresh) ∧ h.Extends h' ∧
      h.IsGraph this c G ∧ h'.IsGraph this c G ∧ fresh ≠ this ∧ h'.IsGraph fresh cF F ∧
      F.name = G.name ∧ F.directed = G.directed ∧
      (∀ l, l ∈ F.labels ↔ l ∈ G.labels) ∧ (∀ e, e ∈ F.edgeList ↔ e ∈ G.edgeList) ∧
      ∀ a b, (F.getEdge a b).isSome = (G.getEdge a b).isSome := by
  have hwf := wellFormed_of_run hrun
  obtain ⟨c, G, hg⟩ := hwf.graphs this hthis
  obtain ⟨h', cF, F, hcopy, hvalue, hF, hext, -⟩ := hwf.copy hg
  obtain ⟨F', hF', hpart, hpart'⟩ := G.exists_copy
  obtain rfl := Option.some.inj (hvalue.symm.trans hF')
  have hedges : ∀ e, e ∈ F.edgeList ↔ e ∈ G.edgeList := fun e =>
    ⟨hpart.edges e, hpart'.edges e⟩
  refine ⟨h', h.graphs.length, c, G, cF, F, hcopy, hext, hg, ?_, Nat.ne_of_gt hthis, hF,
    hpart.name, hpart.directed, fun l => ⟨hpart.labels l, hpart'.labels l⟩, hedges, fun a b => ?_⟩
  · obtain ⟨h₂, _, _, hcopy₂, -, -, hw⟩ := hg.copy
    obtain rfl : h' = h₂ := congrArg Prod.fst (Option.some.inj (hcopy.symm.trans hcopy₂))
    exact (hg.create c.name c.directed).of_writes hw (Nat.ne_of_lt hthis)
  · have hget : F.getEdge a b = G.getEdge a b := by
      ext e
      rw [Graph.getEdge_eq_some_iff, Graph.getEdge_eq_some_iff, hedges]
    rw [hget]

/-- A cycle, a self-loop and two labels that spell one key, copied. -/
theorem copy_faithful_cycle :
    ∃ h, [Call.create ['g'] true, .addVertex 0 ['a'], .addVertex 0 ['b', ' ', 'c'],
        .addVertex 0 ['a', ' ', 'b'], .addVertex 0 ['c'], .addEdge 0 ['a'] ['b', ' ', 'c'],
        .addEdge 0 ['a', ' ', 'b'] ['c'], .addEdge 0 ['b', ' ', 'c'] ['a'],
        .addEdge 0 ['a'] ['a']].foldlM Heap.run Heap.empty = some h ∧
      ∃ h' fresh, h.copy 0 = some (h', fresh) ∧ h.Extends h' := by
  have hsome : ([Call.create ['g'] true, .addVertex 0 ['a'], .addVertex 0 ['b', ' ', 'c'],
        .addVertex 0 ['a', ' ', 'b'], .addVertex 0 ['c'], .addEdge 0 ['a'] ['b', ' ', 'c'],
        .addEdge 0 ['a', ' ', 'b'] ['c'], .addEdge 0 ['b', ' ', 'c'] ['a'],
        .addEdge 0 ['a'] ['a']].foldlM Heap.run Heap.empty).map (fun h => h.graphs.length) =
      some 1 := by decide +kernel
  obtain ⟨h, hrun, hlen⟩ := Option.map_eq_some_iff.mp hsome
  obtain ⟨h', fresh, -, -, -, -, hcopy, hext, -⟩ :=
    copy_faithful hrun (show 0 < h.graphs.length by omega)
  exact ⟨h, hrun, h', fresh, hcopy, hext⟩

end Calls

end JunctionBox.Heap
