import JunctionBox.JunctionTree.ElimTree

/-!
# What `ElimTree_Create` always makes

When labels contain blanks, edges of an elimination tree may be confused: two of
them can have one key, and `Graph_AddEdge` then returns the first for the second.
`ElimTree_Create` counts the second edge all the same and may stop before the
cliques hang together, so that its result is a forest and no more
(`create_isForest`).
-/

namespace JunctionBox

namespace ElimTree

open Hypertree

variable {o : VariableOrdering} {start : ElimTree o} {comp : CString → CString} {s : Kruskal o}

/-- What the second loop keeps whatever the labels: the edges form a forest, and each lies in one
part of the disjoint set forest. -/
structure Joined (start : ElimTree o) (comp : CString → CString) (s : Kruskal o) : Prop where
  labels : s.tree.graph.labels = start.graph.labels
  realizes : s.dsf.Realizes comp
  nodes : ∀ l, (s.dsf.lookup.get l).isSome ↔ l ∈ start.graph.labels
  forest : s.tree.graph.IsForest
  within : ∀ e ∈ s.tree.graph.edgeList, comp e.src = comp e.sink

theorem CliquesMade.joined {seen : List (Option (ElimSet o))} {state : ElimTree o × DSetForest}
    (h : CliquesMade seen state) : Joined state.1 id ⟨state.1, state.2, 0⟩ := by
  have hnone : ∀ e, e ∉ state.1.graph.edgeList := fun e he =>
    absurd (h.edges ▸ he) List.not_mem_nil
  refine ⟨rfl, h.realizes, h.nodes, ⟨?_, fun e he => absurd he (hnone e),
    fun e he => absurd he (hnone e)⟩, fun e he => absurd he (hnone e)⟩
  exact h.grown.progress.acyclic

/-- What hangs together is in one part. -/
theorem Joined.comp_eq_of_reachable (h : Joined start comp s) {u v : CString}
    (hreach : s.tree.graph.skeleton.Reachable u v) : comp u = comp v := by
  obtain ⟨p⟩ := hreach
  induction p with
  | nil => rfl
  | cons hadj _ ih =>
      obtain ⟨-, e, he, hends⟩ := hadj
      refine Eq.trans ?_ ih
      rcases Sym2.eq_iff.mp hends with ⟨rfl, rfl⟩ | ⟨rfl, rfl⟩
      · exact h.within e he
      · exact (h.within e he).symm

/-- Joining two parts, with a new edge or with one that is there. -/
theorem Joined.join (h : Joined start comp s) {ec : EdgeCandidate o}
    (hsrc : ec.src ∈ start.graph.labels) (hsink : ec.sink ∈ start.graph.labels)
    (hne : comp ec.sink ≠ comp ec.src) :
    ∃ s' comp', joinCliques s ec = some s' ∧ Joined start comp' s' := by
  obtain ⟨g, dsf, hadd, hrun, hpart, hnodes⟩ :=
    joinCliques_eq h.labels h.realizes h.nodes hsrc hsink
  have hforest : g.IsForest :=
    h.forest.addEdge (fun hreach => hne (h.comp_eq_of_reachable hreach)) hadd
  have hlabels := (Graph.labels_addEdge hadd).trans h.labels
  have hold : ∀ e ∈ g.edgeList, e = Edge.create ec.sink ec.src ∨ e ∈ s.tree.graph.edgeList := by
    intro e he
    rw [Graph.edgeList_addEdge hadd] at he
    split at he
    · exact Or.inr he
    · exact List.mem_cons.mp he
  have hwithin : ∀ u v, s(ec.sink, ec.src) = s(u, v) →
      ∀ e ∈ g.edgeList, merge comp u v e.src = merge comp u v e.sink := by
    intro u v huv e he
    rw [merge_eq_iff]
    rcases hold e he with rfl | he
    · rcases Sym2.eq_iff.mp huv with ⟨rfl, rfl⟩ | ⟨rfl, rfl⟩
      · exact Or.inr (Or.inl ⟨rfl, rfl⟩)
      · exact Or.inr (Or.inr ⟨rfl, rfl⟩)
    · exact Or.inl (h.within e he)
  rcases hpart with hreal | hreal
  · exact ⟨_, _, hrun, hlabels, hreal, hnodes, hforest, hwithin _ _ rfl⟩
  · exact ⟨_, _, hrun, hlabels, hreal, hnodes, hforest, hwithin _ _ Sym2.eq_swap⟩

/-- The second loop of `ElimTree_Create`. -/
theorem Joined.growTree (numVertices : ℕ) :
    ∀ (rest : List (EdgeCandidate o)) {comp : CString → CString} {s : Kruskal o},
      Joined start comp s →
      (∀ ec ∈ rest, ec.src ∈ start.graph.labels ∧ ec.sink ∈ start.graph.labels) →
      ∃ s' comp', ElimTree.growTree numVertices rest s = some s' ∧ Joined start comp' s' := by
  intro rest
  induction rest with
  | nil => exact fun {comp s} h _ => ⟨s, comp, rfl, h⟩
  | cons ec rest ih =>
      intro comp s h hcand
      obtain ⟨hsrc, hsink⟩ := hcand ec (List.mem_cons_self ..)
      have hcand' : ∀ ec' ∈ rest, ec'.src ∈ start.graph.labels ∧ ec'.sink ∈ start.graph.labels :=
        fun ec' hec' => hcand ec' (List.mem_cons_of_mem _ hec')
      obtain ⟨dsf, hreal, hnodes, hround⟩ :=
        growTree_cons h.realizes h.nodes hsrc hsink numVertices rest
      have h₂ : Joined start comp { s with dsf := dsf } :=
        ⟨h.labels, hreal, hnodes, h.forest, h.within⟩
      rw [hround]
      by_cases hne : comp ec.sink = comp ec.src
      · rw [if_pos hne]
        exact ih h₂ hcand'
      · rw [if_neg hne]
        obtain ⟨s', comp', hjoin, h'⟩ := h₂.join hsrc hsink hne
        rw [hjoin, Option.bind_some]
        by_cases hdone : s'.numEdges + 1 = numVertices
        · rw [if_pos hdone]
          exact ⟨s', comp', rfl, h'⟩
        · rw [if_neg hdone]
          exact ih h' hcand'

/-- **`ElimTree_Create`** returns a forest, whatever the labels. -/
theorem create_isForest (qsort : QSort) (esc : ElimSetCollection o) :
    ∃ t, create qsort esc = some t ∧ t.graph.IsForest := by
  obtain ⟨s, comp, hrun, hjoined⟩ := (cliquesMade esc).joined.growTree
    (createCliques esc).1.graph.getNumVertices
    (ecCollectionCreate qsort (VertexOrdering.default (createCliques esc).1.graph)
      (createCliques esc).1) fun ec hec => by
        obtain ⟨p, hp, rfl⟩ := mem_ecCollectionCreate.mp hec
        exact PartialLoops.mem_pairs hp
  refine ⟨s.tree, ?_, hjoined.forest⟩
  unfold create
  simp only
  rw [hrun]
  rfl

/-- The edges form a tree on some of the vertices; the others have no edge. -/
structure IsTreeWithin (this : ElimTree o) (nodes : Set CString) : Prop where
  forest : this.graph.IsForest
  isTreeOn : IsTreeOn nodes this.graph.skeleton
  subset : nodes ⊆ {l | l ∈ this.graph.labels}

theorem IsTree.within {t : ElimTree o} (h : t.IsTree) :
    t.IsTreeWithin {l | l ∈ t.graph.labels} where
  forest := ⟨h.isTreeOn.acyclic, h.loopless, h.simple⟩
  isTreeOn := h.isTreeOn
  subset := Set.Subset.rfl

end ElimTree

end JunctionBox
