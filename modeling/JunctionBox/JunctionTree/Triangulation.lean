import JunctionBox.Foundations.FillIn
import JunctionBox.JunctionTree.NonCliques

/-!
# What `GatherElimSets` leaves of a graph

`GatherElimSets` is meant to triangulate its graph in place: to connect, for
each vertex from the highest rank down, its neighbours of lower rank.  The list
of vertices that it connects is empty (`ElimSet.getVertexList_eq_nil`), so the
graph it leaves is the one it got.  `triangulates_iff` says when that is right:
when eliminating in the given order fills nothing in.

The sets of a graph that has been filled in before are nested inside each other
(`keepsMaximal_of_fillIn`), and then `RemoveNonCliques` keeps the maximal ones.
-/

namespace JunctionBox

open FillIn

variable {o : VariableOrdering}

/-- The neighbours of lower rank of every vertex are pairwise adjacent. -/
def LowerNeighborsAdjacent (g : Graph) (vo : VertexOrdering) : Prop :=
  ∀ (i : ℕ) v, vo.vertices[i]? = some v → ∀ a b, g.skeleton.Adj v a → g.skeleton.Adj v b →
    vo.getVertexRankByLabel a < i → vo.getVertexRankByLabel b < i → a ≠ b → g.skeleton.Adj a b

/-- `GatherElimSets` adds the fill-in of eliminating the vertices from the last to the first,
collects each vertex with its neighbours of lower rank in the graph it leaves, and these
neighbours are pairwise adjacent. -/
def Triangulates (moral : Graph) (vo : VertexOrdering) (o : VariableOrdering) : Prop :=
  ∃ (g : Graph) (sets : List (ElimSet o)),
    gatherElimSets moral vo o = some (g, ⟨sets.map some⟩) ∧ sets.length = vo.size ∧
      g.skeleton = fillIn moral.skeleton vo.vertices.reverse ∧
      (∀ (i : ℕ) v (es : ElimSet o), vo.vertices[i]? = some v → sets[i]? = some es →
        ∀ l, l ∈ es.words ↔ l = v ∨ (g.skeleton.Adj v l ∧ vo.getVertexRankByLabel l < i)) ∧
      LowerNeighborsAdjacent g vo

theorem skeleton_adj_iff {g : Graph} {v l : CString} :
    g.skeleton.Adj v l ↔ v ≠ l ∧ ∃ e, (l, e) ∈ g.neighbors v := by
  unfold Graph.skeleton
  simp only [Graph.mem_neighbors, Sym2.eq_iff]
  constructor
  · rintro ⟨hne, e, he, ⟨hsrc, hsink⟩ | ⟨hsrc, hsink⟩⟩
    · exact ⟨hne, e, he, Or.inr ⟨hsrc, hsink⟩⟩
    · exact ⟨hne, e, he, Or.inl ⟨hsink, hsrc⟩⟩
  · rintro ⟨hne, e, he, ⟨hsink, hsrc⟩ | ⟨hsrc, hsink⟩⟩
    · exact ⟨hne, e, he, Or.inr ⟨hsrc, hsink⟩⟩
    · exact ⟨hne, e, he, Or.inl ⟨hsrc, hsink⟩⟩

theorem mem_labels_of_adj {g : Graph} {v l : CString} (h : g.skeleton.Adj v l) : l ∈ g.labels := by
  obtain ⟨-, e, he, hends⟩ := h
  rcases Sym2.eq_iff.mp hends with ⟨-, rfl⟩ | ⟨rfl, -⟩
  · exact (Graph.ends_mem he).2
  · exact (Graph.ends_mem he).1

theorem ElimSet.mem_words_iff {es : ElimSet o} {l : CString} :
    l ∈ es.words ↔ ∃ j ∈ es.vars, (o.vbl j).label = l := by
  rw [ElimSet.words, List.mem_map]
  simp only [BitVector.mem_onIndices, ElimSet.mem_vars]

/-- An elimination set by its labels. -/
theorem IsElimSet.mem_words {moral : Graph} {vo : VertexOrdering} {i : ℕ} {v : CString}
    {es : ElimSet o} (h : IsElimSet moral vo i es) (hi : vo.vertices[i]? = some v)
    (hv : v ∈ moral.labels) (ho : ∀ l ∈ moral.labels, l ∈ o.labels) {l : CString} :
    l ∈ es.words ↔ l = v ∨ (moral.skeleton.Adj v l ∧ vo.getVertexRankByLabel l < i) := by
  obtain ⟨v', hi', hmem⟩ := h
  obtain rfl : v = v' := Option.some.inj (hi.symm.trans hi')
  have hiff : (l = v ∨ (∃ e, (l, e) ∈ moral.neighbors v) ∧ vo.getVertexRankByLabel l < i) ↔
      l = v ∨ (moral.skeleton.Adj v l ∧ vo.getVertexRankByLabel l < i) := by
    rw [skeleton_adj_iff]
    tauto
  rw [ElimSet.mem_words_iff, ← hiff]
  constructor
  · rintro ⟨j, hj, rfl⟩
    obtain ⟨l, hrank, hl⟩ := (hmem j).mp hj
    rwa [(VariableOrdering.getVariableRankByLabel_lt hrank).2]
  · intro hl
    have hlabel : l ∈ moral.labels := by
      rcases hiff.mp hl with rfl | ⟨hadj, -⟩
      · exact hv
      · exact mem_labels_of_adj hadj
    obtain ⟨j, hj⟩ := VariableOrdering.getVariableRankByLabel_isSome (ho l hlabel)
    exact ⟨j, (hmem j).mpr ⟨l, hj, hl⟩, (VariableOrdering.getVariableRankByLabel_lt hj).2⟩

/-- What comes before a place has a lower rank. -/
theorem VertexOrdering.rank_lt_iff {vo : VertexOrdering} (hnodup : vo.vertices.Nodup)
    {front back : List CString} (hsplit : vo.vertices = front ++ back) {a : CString}
    (ha : a ∈ vo.vertices) : vo.getVertexRankByLabel a < front.length ↔ a ∈ front := by
  constructor
  · intro hlt
    obtain ⟨k, hk⟩ := List.mem_iff_getElem?.mp ha
    rw [getVertexRankByLabel_eq hnodup hk] at hlt
    rw [hsplit, List.getElem?_append_left (by omega)] at hk
    exact List.mem_of_getElem? hk
  · intro hmem
    obtain ⟨k, hk⟩ := List.mem_iff_getElem?.mp hmem
    obtain ⟨hlt, -⟩ := List.getElem?_eq_some_iff.mp hk
    have hget : vo.vertices[k]? = some a := by rw [hsplit, List.getElem?_append_left hlt, hk]
    rw [getVertexRankByLabel_eq hnodup hget]
    omega

theorem lowerNeighborsAdjacent_iff {g : Graph} {vo : VertexOrdering}
    (hvo : vo.vertices.Perm g.labels) :
    LowerNeighborsAdjacent g vo ↔ Perfect g.skeleton vo.vertices.reverse := by
  have hnodup : vo.vertices.Nodup := hvo.nodup_iff.mpr g.labels_nodup
  have hmem : ∀ {v l : CString}, g.skeleton.Adj v l → l ∈ vo.vertices := fun h =>
    hvo.mem_iff.mpr (mem_labels_of_adj h)
  rw [perfect_iff]
  constructor
  · intro h before v rest hsplit a ha b hb hva hvb hab
    have hvertices : vo.vertices = rest.reverse ++ v :: before.reverse := by
      rw [← List.reverse_reverse vo.vertices, hsplit]
      simp
    have hi : vo.vertices[rest.reverse.length]? = some v := by
      rw [hvertices, List.getElem?_append_right le_rfl, Nat.sub_self, List.getElem?_cons_zero]
    exact h _ v hi a b hva hvb
      ((vo.rank_lt_iff hnodup hvertices (hmem hva)).mpr (List.mem_reverse.mpr ha))
      ((vo.rank_lt_iff hnodup hvertices (hmem hvb)).mpr (List.mem_reverse.mpr hb)) hab
  · intro h i v hi a b hva hvb hla hlb hab
    obtain ⟨hlt, rfl⟩ := List.getElem?_eq_some_iff.mp hi
    have hvertices :
        vo.vertices = vo.vertices.take i ++ vo.vertices[i] :: vo.vertices.drop (i + 1) := by
      rw [List.getElem_cons_drop, List.take_append_drop]
    have hlen : (vo.vertices.take i).length = i := by
      rw [List.length_take]
      omega
    have hsplit : vo.vertices.reverse = (vo.vertices.drop (i + 1)).reverse ++
        vo.vertices[i] :: (vo.vertices.take i).reverse := by
      conv_lhs => rw [hvertices]
      simp
    rw [← hlen] at hla hlb
    have hmema := (vo.rank_lt_iff hnodup hvertices (hmem hva)).mp hla
    have hmemb := (vo.rank_lt_iff hnodup hvertices (hmem hvb)).mp hlb
    exact h _ _ _ hsplit a (List.mem_reverse.mpr hmema) b (List.mem_reverse.mpr hmemb) hva hvb hab

theorem gatherElimSets_of_perm {moral : Graph} {vo : VertexOrdering}
    (hvo : vo.vertices.Perm moral.labels) (ho : ∀ l ∈ moral.labels, l ∈ o.labels) :
    ∃ sets : List (ElimSet o), gatherElimSets moral vo o = some (moral, ⟨sets.map some⟩) ∧
      sets.length = vo.size ∧
      (∀ i es, sets[i]? = some es → IsElimSet moral vo i es) ∧
      ∀ (i : ℕ) v (es : ElimSet o), vo.vertices[i]? = some v → sets[i]? = some es →
        ∀ l, l ∈ es.words ↔ l = v ∨ (moral.skeleton.Adj v l ∧ vo.getVertexRankByLabel l < i) := by
  obtain ⟨sets, hrun, hlen, hspec⟩ := gatherElimSets_eq (o := o) fun v hv => hvo.mem_iff.mp hv
  exact ⟨sets, hrun, hlen, hspec, fun i v es hi hes l =>
    (hspec i es hes).mem_words hi (hvo.mem_iff.mp (List.mem_of_getElem? hi)) ho⟩

/-- As the graph stays, no fill-in may be missing. -/
theorem Triangulates.perfect {moral : Graph} {vo : VertexOrdering}
    (h : Triangulates moral vo o) (hvo : vo.vertices.Perm moral.labels) :
    Perfect moral.skeleton vo.vertices.reverse := by
  obtain ⟨g, sets, hrun, -, hfill, -⟩ := h
  obtain ⟨sets', hrun', -⟩ := gatherElimSets_eq (o := o) fun v hv => hvo.mem_iff.mp hv
  obtain rfl : moral = g := congrArg Prod.fst (Option.some.inj (hrun'.symm.trans hrun))
  exact fillIn_eq_self_iff.mp hfill.symm

/-- `GatherElimSets` triangulates its graph if and only if eliminating in the given order
fills nothing in. -/
theorem triangulates_iff {moral : Graph} {vo : VertexOrdering}
    (hvo : vo.vertices.Perm moral.labels) (ho : ∀ l ∈ moral.labels, l ∈ o.labels) :
    Triangulates moral vo o ↔ Perfect moral.skeleton vo.vertices.reverse := by
  constructor
  · exact fun h => h.perfect hvo
  · intro h
    obtain ⟨sets, hrun, hlen, -, hspec⟩ := gatherElimSets_of_perm hvo ho
    exact ⟨moral, sets, hrun, hlen, (fillIn_eq_self_iff.mpr h).symm, hspec,
      (lowerNeighborsAdjacent_iff hvo).mpr h⟩

/-! ## Filled in before -/

/-- The labels tell which of two sets is larger. -/
theorem ElimSet.vars_subset_iff (hdistinct : o.DistinctLabels) {es es' : ElimSet o} :
    es.vars ⊆ es'.vars ↔ ∀ l ∈ es.words, l ∈ es'.words := by
  simp only [ElimSet.mem_words_iff]
  constructor
  · rintro hsub l ⟨j, hj, hl⟩
    exact ⟨j, hsub hj, hl⟩
  · intro h j hj
    obtain ⟨k, hk, hlabel⟩ := h _ ⟨j, hj, rfl⟩
    have hklt := ElimSet.lt_size_of_mem_vars hk
    have hjlt := ElimSet.lt_size_of_mem_vars hj
    have hvbl := hdistinct.eq_of_label (VariableOrdering.vbl_mem hklt)
      (VariableOrdering.vbl_mem hjlt) hlabel
    rwa [← hdistinct.vbl_inj hklt hjlt hvbl]

/-- The members of an elimination set are pairwise adjacent, so of two sets inside it the one
of the lower vertex lies in the other. -/
theorem LowerNeighborsAdjacent.subset {g : Graph} {vo : VertexOrdering}
    (h : LowerNeighborsAdjacent g vo) (hnodup : vo.vertices.Nodup) {sets : List (ElimSet o)}
    (hspec : ∀ (i : ℕ) v (es : ElimSet o), vo.vertices[i]? = some v → sets[i]? = some es →
      ∀ l, l ∈ es.words ↔ l = v ∨ (g.skeleton.Adj v l ∧ vo.getVertexRankByLabel l < i))
    {i j k : ℕ} (hij : i ≤ j) {u v w : CString} (hu : vo.vertices[i]? = some u)
    (hv : vo.vertices[j]? = some v) (hw : vo.vertices[k]? = some w) {a b c : ElimSet o}
    (ha : sets[i]? = some a) (hb : sets[j]? = some b) (hc : sets[k]? = some c)
    (hac : ∀ l ∈ a.words, l ∈ c.words) (hbc : ∀ l ∈ b.words, l ∈ c.words) :
    ∀ l ∈ a.words, l ∈ b.words := by
  have hclique : ∀ l ∈ c.words, ∀ m ∈ c.words, l ≠ m → g.skeleton.Adj l m := by
    intro l hl m hm hne
    rcases (hspec k w c hw hc l).mp hl with rfl | ⟨hl, hrankl⟩
    · exact ((hspec k l c hw hc m).mp hm).elim (fun h => absurd h hne.symm) And.left
    · rcases (hspec k w c hw hc m).mp hm with rfl | ⟨hm, hrankm⟩
      · exact hl.symm
      · exact h k w hw l m hl hm hrankl hrankm hne
  intro l hl
  rw [hspec j v b hv hb]
  by_cases heq : l = v
  · exact Or.inl heq
  · have hmem := hbc v ((hspec j v b hv hb v).mpr (Or.inl rfl))
    refine Or.inr ⟨hclique v hmem l (hac l hl) (Ne.symm heq), ?_⟩
    rcases (hspec i u a hu ha l).mp hl with rfl | ⟨-, hrank⟩
    · have hne : i ≠ j := by
        rintro rfl
        exact heq (Option.some.inj (hu.symm.trans hv))
      rw [VertexOrdering.getVertexRankByLabel_eq hnodup hu]
      omega
    · omega

/-- On a graph that has been filled in along the ordering, `RemoveNonCliques` keeps exactly the
maximal elimination sets. -/
theorem keepsMaximal_of_fillIn {moral : Graph} {vo : VertexOrdering}
    (hvo : vo.vertices.Perm moral.labels) (ho : ∀ l ∈ moral.labels, l ∈ o.labels)
    (hdistinct : o.DistinctLabels) {G : SimpleGraph CString}
    (hfill : moral.skeleton = fillIn G vo.vertices.reverse) :
    ∃ sets : List (ElimSet o), gatherElimSets moral vo o = some (moral, ⟨sets.map some⟩) ∧
      KeepsMaximal sets := by
  have hnodup : vo.vertices.Nodup := hvo.nodup_iff.mpr moral.labels_nodup
  have hperfect : Perfect moral.skeleton vo.vertices.reverse := by
    rw [hfill]
    exact perfect_fillIn (List.nodup_reverse.mpr hnodup)
  have hadj := (lowerNeighborsAdjacent_iff hvo).mpr hperfect
  obtain ⟨sets, hrun, -, hspec, hwords⟩ := gatherElimSets_of_perm hvo ho
  have hranked : Ranked vo sets :=
    ranked_of_isElimSet (fun v hv => ho v (hvo.mem_iff.mp hv)) hspec
  refine ⟨sets, hrun, keepsMaximal_of_nested hnodup hranked ?_⟩
  intro a ha b hb c hc hac hbc
  rw [ElimSet.vars_subset_iff hdistinct] at hac hbc ⊢
  rw [ElimSet.vars_subset_iff hdistinct]
  have hplace : ∀ es ∈ sets, ∃ (i : ℕ) (v : CString),
      sets[i]? = some es ∧ vo.vertices[i]? = some v := by
    intro es hes
    obtain ⟨i, hi⟩ := List.mem_iff_getElem?.mp hes
    obtain ⟨v, hv, -⟩ := hspec i es hi
    exact ⟨i, v, hi, hv⟩
  obtain ⟨i, u, hi, hu⟩ := hplace a ha
  obtain ⟨j, v, hj, hv⟩ := hplace b hb
  obtain ⟨k, w, hk, hw⟩ := hplace c hc
  rcases Nat.le_total i j with hij | hji
  · exact Or.inl (hadj.subset hnodup hwords hij hu hv hw hi hj hk hac hbc)
  · exact Or.inr (hadj.subset hnodup hwords hji hv hu hw hj hi hk hbc hac)

/-! ## Two graphs -/

instance (g : Graph) : DecidableRel g.skeleton.Adj := fun u v =>
  inferInstanceAs (Decidable (u ≠ v ∧ ∃ e ∈ g.edgeList, s(e.src, e.sink) = s(u, v)))

/-- The undirected graph with the given vertices and edges. -/
def undirectedGraph (labels : List CString) (edges : List (CString × CString)) : Graph :=
  let vertices := labels.foldl Graph.addVertex (Graph.create ['g'] false)
  (edges.foldlM (fun (g : Graph) e => g.addEdge e.1 e.2) vertices).getD vertices

/-- Four binary variables. -/
def cycleOrdering : VariableOrdering :=
  ⟨[⟨['a'], 2⟩, ⟨['b'], 2⟩, ⟨['c'], 2⟩, ⟨['d'], 2⟩]⟩

/-- The variables in their order. -/
def cycleVertices : VertexOrdering := ⟨cycleOrdering.labels⟩

/-- The path `a - b - c - d`. -/
def pathGraph : Graph :=
  undirectedGraph [['a'], ['b'], ['c'], ['d']]
    [(['a'], ['b']), (['b'], ['c']), (['c'], ['d'])]

theorem triangulates_pathGraph : Triangulates pathGraph cycleVertices cycleOrdering :=
  (triangulates_iff (by decide +kernel) (by decide +kernel)).mpr (by decide +kernel)

/-- The cycle `a - b - c - d - a`. -/
def cycleGraph : Graph :=
  undirectedGraph [['a'], ['b'], ['c'], ['d']]
    [(['a'], ['b']), (['b'], ['c']), (['c'], ['d']), (['d'], ['a'])]

/-- The edge between the neighbours of `d` is missing. -/
theorem not_triangulates_cycleGraph :
    cycleGraph.directed = false ∧ (∀ l ∈ cycleGraph.labels, ' ' ∉ l) ∧
      cycleVertices.vertices.Perm cycleGraph.labels ∧
      (∀ l ∈ cycleGraph.labels, l ∈ cycleOrdering.labels) ∧
      ¬Triangulates cycleGraph cycleVertices cycleOrdering := by
  have hperm : cycleVertices.vertices.Perm cycleGraph.labels := by decide +kernel
  refine ⟨by decide +kernel, by decide +kernel, hperm, by decide +kernel, fun h => ?_⟩
  have hnot : ¬Perfect cycleGraph.skeleton cycleVertices.vertices.reverse := by decide +kernel
  exact hnot (h.perfect hperm)

end JunctionBox
