import JunctionBox.Inference.ElimOrdering
import JunctionBox.JunctionTree.Elimination
import JunctionBox.JunctionTree.Names

/-!
# From a network to its elimination tree

`BNet_BuildElimTree` moralises the graph of the network, gathers elimination
sets along an ordering of the vertices, drops those contained in others, and
joins the rest by a spanning tree.

Because `GatherElimSets` adds no fill-in, the sets are the `elimFamily`s: a
vertex with its moral neighbours of lower rank.  The family of every table lies
in one of them (`Built.exists_family_subset`), but the tree is a junction tree
only when the families can be put into a running intersection ordering
(`Built.hasRunningIntersection_iff`).
-/

namespace JunctionBox

open Hypertree

instance (l : List (CString × CString)) (a b : CString) : Decidable (MoralAdj {p | p ∈ l} a b) :=
  decidable_of_iff ((a, b) ∈ l ∨ (b, a) ∈ l ∨ ∃ p ∈ l, p.1 = a ∧ (b, p.2) ∈ l) <| by
    unfold MoralAdj
    refine or_congr Iff.rfl (or_congr Iff.rfl ⟨fun h => ?_, fun h => ?_⟩)
    · obtain ⟨p, hp, rfl, hb⟩ := h
      exact ⟨p.2, hp, hb⟩
    · obtain ⟨c, ha, hb⟩ := h
      exact ⟨(a, c), ha, rfl, hb⟩

namespace BNet

variable {o : VariableOrdering} {α : Type}

/-- `BNet_BuildElimTree`. -/
def buildElimTree (qsort : QSort) (this : BNet o α) (vo : VertexOrdering) :
    Option (ElimTree o) := do
  let moral ← moralGraph this.initialGraph
  let esc ← gatherElimSets moral vo o
  let elimCliques ← removeNonCliques esc.2
  ElimTree.create qsort elimCliques

/-- The variable of rank `i` in the elimination ordering, and the variables of lower rank
that share a table with it. -/
def elimFamily (tables : List (CPT o α)) (vo : VertexOrdering) (i : ℕ) : Finset ℕ :=
  {j ∈ Finset.range o.size |
    (o.vbl j).label = vo.vertices.getD i [] ∨
      MoralAdj {p | p ∈ parentPairs tables} (o.vbl j).label (vo.vertices.getD i []) ∧
        vo.getVertexRankByLabel (o.vbl j).label < i}

/-- One family for every vertex. -/
def elimFamilies (tables : List (CPT o α)) (vo : VertexOrdering) : List (Finset ℕ) :=
  (List.range vo.size).map (elimFamily tables vo)

section Ordering

variable {this : BNet o α} {vo : VertexOrdering}

/-- A list of the variables is an ordering. -/
theorem Created.isOrdering (h : this.Created) (hdistinct : o.DistinctLabels)
    (hperm : vo.vertices.Perm o.labels) : this.IsOrdering vo := by
  have hnodup : vo.vertices.Nodup := hperm.nodup_iff.mpr hdistinct
  apply (List.perm_ext_iff_of_nodup hnodup this.initialGraph.labels_nodup).mpr
  intro l
  rw [hperm.mem_iff, h.mem_labels]

theorem IsOrdering.exists_rank (h : this.IsOrdering vo) (hcreated : this.Created)
    {l : CString} (hl : l ∈ o.labels) :
    ∃ i : ℕ, vo.vertices[i]? = some l ∧ vo.getVertexRankByLabel l = i := by
  have hmem : l ∈ vo.vertices := h.mem_iff.mpr ((hcreated.mem_labels).mpr hl)
  obtain ⟨i, hi⟩ := List.mem_iff_getElem?.mp hmem
  exact ⟨i, hi, VertexOrdering.getVertexRankByLabel_eq h.nodup hi⟩

/-- What `GatherElimSets` sees in the moral graph. -/
theorem vars_eq_elimFamily {moral : Graph} {F : Set (CString × CString)}
    (hdistinct : o.DistinctLabels) (hmoral : moral.Consists {l | l ∈ o.labels} F)
    (hadj : ∀ a b, a ≠ b →
      ((a, b) ∈ F ∨ (b, a) ∈ F ↔ MoralAdj {p | p ∈ parentPairs this.tables} a b))
    {i : ℕ} {es : ElimSet o} (hes : IsElimSet moral vo i es) :
    es.vars = elimFamily this.tables vo i := by
  obtain ⟨v, hv, hmem⟩ := hes
  have hget : vo.vertices.getD i [] = v := by rw [List.getD_eq_getElem?_getD, hv]; rfl
  ext j
  rw [hmem, elimFamily, Finset.mem_filter, Finset.mem_range, hget]
  constructor
  · rintro ⟨l, hrank, hl⟩
    obtain ⟨hlt, rfl⟩ := VariableOrdering.getVariableRankByLabel_lt hrank
    refine ⟨hlt, ?_⟩
    by_cases heq : (o.vbl j).label = v
    · exact Or.inl heq
    · obtain ⟨hnghbr, hlow⟩ := hl.resolve_left heq
      exact Or.inr ⟨(hadj _ _ heq).mp (hmoral.mem_neighbors.mp hnghbr), hlow⟩
  · rintro ⟨hlt, hl⟩
    refine ⟨_, hdistinct.getVariableRankByLabel_vbl hlt, ?_⟩
    by_cases heq : (o.vbl j).label = v
    · exact Or.inl heq
    · obtain ⟨hnghbr, hlow⟩ := hl.resolve_left heq
      exact Or.inr ⟨hmoral.mem_neighbors.mpr ((hadj _ _ heq).mpr hnghbr), hlow⟩

end Ordering

/-! ## The tree -/

/-- What `BNet_BuildElimTree` makes of a network. -/
structure Built (this : BNet o α) (vo : VertexOrdering) (t : ElimTree o) : Prop where
  isTree : t.IsTree
  separators : t.SeparatorsAreIntersections
  cover : ∀ i < vo.size, ∃ l ∈ t.graph.labels, elimFamily this.tables vo i ⊆ t.clique l
  mem : ∀ l ∈ t.graph.labels, ∃ i < vo.size, t.clique l = elimFamily this.tables vo i
  injOn : Set.InjOn t.clique {l | l ∈ t.graph.labels}
  greedy : (∃ T, IsJunctionTree {l | l ∈ t.graph.labels} t.clique T) → t.HasRunningIntersection

/-- The stages of `BNet_BuildElimTree`: the sets gathered, what `RemoveNonCliques` leaves of them,
and the tree over that. -/
theorem Created.exists_stages {this : BNet o α} (h : this.Created)
    (hdistinct : o.DistinctLabels) (hspace : o.SpaceFreeLabels) (qsort : QSort)
    {vo : VertexOrdering} (hvo : this.IsOrdering vo) :
    ∃ (moral : Graph) (sets : List (ElimSet o)) (esc : ElimSetCollection o) (t : ElimTree o),
      this.buildElimTree qsort vo = some t ∧ sets.length = vo.size ∧
      (∀ i es, sets[i]? = some es → IsElimSet moral vo i es ∧
        es.vars = elimFamily this.tables vo i) ∧
      removeNonCliques ⟨sets.map some⟩ = some esc ∧ ElimTree.create qsort esc = some t := by
  have hV : ∀ l ∈ ({l | l ∈ o.labels} : Set CString), ' ' ∉ l := fun l hl => (hspace l hl).2
  obtain ⟨moral, F, hmoral, hcons, hadj⟩ := (h.consists hspace).moralGraph hV
  have hmemLabels : ∀ v ∈ vo.vertices, v ∈ moral.labels := by
    intro v hv
    rw [hcons.vertices]
    exact (h.mem_labels).mp (hvo.mem_iff.mp hv)
  obtain ⟨sets, hgather, hlen, hspec⟩ := gatherElimSets_eq (o := o) hmemLabels
  obtain ⟨esc, hremove, -⟩ := removeNonCliques_eq (⟨sets.map some⟩ : ElimSetCollection o)
  obtain ⟨t, hcreate, -⟩ := ElimTree.create_spans hspace qsort esc
  refine ⟨moral, sets, esc, t, ?_, hlen, fun i es hes => ⟨hspec i es hes, ?_⟩, hremove, hcreate⟩
  · unfold BNet.buildElimTree
    simp only [hmoral, Option.bind_eq_bind, Option.bind_some]
    rw [hgather]
    simp only [Option.bind_some]
    rw [hremove]
    exact hcreate
  · exact vars_eq_elimFamily hdistinct hcons hadj (hspec i es hes)

/-- **`BNet_BuildElimTree`** ends with a spanning tree of the largest families. -/
theorem Created.buildElimTree {this : BNet o α} (h : this.Created)
    (hdistinct : o.DistinctLabels) (hspace : o.SpaceFreeLabels) (qsort : QSort)
    {vo : VertexOrdering} (hvo : this.IsOrdering vo) :
    ∃ t, this.buildElimTree qsort vo = some t ∧ this.Built vo t := by
  obtain ⟨moral, sets, esc, t, hrun, hlen, hspec, hremove, hcreate⟩ :=
    h.exists_stages hdistinct hspace qsort hvo
  obtain ⟨esc', hremove', habs⟩ := removeNonCliques_eq (⟨sets.map some⟩ : ElimSetCollection o)
  obtain rfl : esc = esc' := Option.some.inj (hremove.symm.trans hremove')
  obtain ⟨t', hcreate', hspans⟩ := ElimTree.create_spans hspace qsort esc
  obtain rfl : t = t' := Option.some.inj (hcreate.symm.trans hcreate')
  refine ⟨t, hrun, hspans.isTree, hspans.separators, fun i hi => ?_, fun l hl => ?_,
    hspans.clique_injOn, hspans.greedy⟩
  · obtain ⟨es, hes⟩ : ∃ es, sets[i]? = some es :=
      ⟨_, List.getElem?_eq_getElem (hlen ▸ hi)⟩
    obtain ⟨es', hes', hsub⟩ := habs.cover es (List.mem_map_of_mem (List.mem_of_getElem? hes))
    have hl := (hspans.mem_labels es'.getLabel).mpr ⟨es', hes', rfl⟩
    refine ⟨es'.getLabel, hl, ?_⟩
    unfold ElimTree.clique
    rw [ElimSet.label_inj hdistinct hspace (hspans.elimSet _ hl).2, ← (hspec i es hes).2]
    exact hsub
  · obtain ⟨es, hes, heq⟩ := List.mem_map.mp (habs.mem _ (hspans.elimSet l hl).1)
    obtain ⟨i, hi⟩ := List.mem_iff_getElem?.mp hes
    refine ⟨i, hlen ▸ (List.getElem?_eq_some_iff.mp hi).1, ?_⟩
    unfold ElimTree.clique
    rw [← Option.some.inj heq, (hspec i es hi).2]

section Families

variable {this : BNet o α} {vo : VertexOrdering} {t : ElimTree o}

/-- The family of a table lies in one elimination family, that of its member of highest
rank. -/
theorem exists_family_subset (hvo : this.IsOrdering vo) (h : this.Created)
    {table : CPT o α} (htable : table ∈ this.tables)
    (hne : table.family.Nonempty) : ∃ i < vo.size, table.family ⊆ elimFamily this.tables vo i := by
  obtain ⟨j₀, hj₀, hmax⟩ := table.family.exists_max_image
    (fun j => vo.getVertexRankByLabel (o.vbl j).label) hne
  rw [CPT.family, Finset.mem_filter, Finset.mem_range] at hj₀
  set v := (o.vbl j₀).label with hv
  obtain ⟨i, hi, hrank⟩ := hvo.exists_rank h
    (List.mem_map_of_mem (VariableOrdering.vbl_mem hj₀.1))
  have hget : vo.vertices.getD i [] = v := by rw [List.getD_eq_getElem?_getD, hi]; rfl
  refine ⟨i, (List.getElem?_eq_some_iff.mp hi).1, fun j hj => ?_⟩
  have hle := hmax j hj
  rw [CPT.family, Finset.mem_filter, Finset.mem_range] at hj
  rw [elimFamily, Finset.mem_filter, Finset.mem_range, hget]
  refine ⟨hj.1, ?_⟩
  by_cases heq : (o.vbl j).label = v
  · exact Or.inl heq
  -- two members of a family are parent and child or parents of one child
  have hparent : ∀ {l : CString}, l ∈ table.parents.map Variable.label →
      (l, table.tableFor.label) ∈ parentPairs this.tables := by
    intro l hl
    obtain ⟨parent, hparent, rfl⟩ := List.mem_map.mp hl
    exact mem_parentPairs.mpr ⟨table, htable, parent, hparent, rfl⟩
  refine Or.inr ⟨?_, ?_⟩
  · rcases List.mem_cons.mp hj.2 with hchild | hj'
    · rcases List.mem_cons.mp hj₀.2 with hchild₀ | hj₀'
      · exact absurd (hchild.trans hchild₀.symm) heq
      · rw [hchild]
        exact Or.inr (Or.inl (hparent hj₀'))
    · rcases List.mem_cons.mp hj₀.2 with hchild₀ | hj₀'
      · rw [hchild₀]
        exact Or.inl (hparent hj')
      · exact Or.inr (Or.inr ⟨_, hparent hj', hparent hj₀'⟩)
  · obtain ⟨i', hi', hrank'⟩ := hvo.exists_rank h
      (List.mem_map_of_mem (VariableOrdering.vbl_mem hj.1))
    have hne' : i' ≠ i := by
      rintro rfl
      exact heq (Option.some.inj (hi'.symm.trans hi))
    rw [hrank] at hle
    rw [hrank'] at hle ⊢
    omega

/-- Every table's family lies in a clique of the tree. -/
theorem Built.exists_family_subset (hbuilt : this.Built vo t) (hvo : this.IsOrdering vo)
    (h : this.Created) {table : CPT o α} (htable : table ∈ this.tables)
    (hne : table.family.Nonempty) : ∃ l ∈ t.graph.labels, table.family ⊆ t.clique l := by
  obtain ⟨i, hi, hsub⟩ := BNet.exists_family_subset hvo h htable hne
  obtain ⟨l, hl, hsub'⟩ := hbuilt.cover i hi
  exact ⟨l, hl, hsub.trans hsub'⟩

/-- Every variable lies in a clique of the tree. -/
theorem Built.exists_mem_clique (hbuilt : this.Built vo t) (hvo : this.IsOrdering vo)
    (h : this.Created) {i : ℕ} (hi : i < o.size) :
    ∃ l ∈ t.graph.labels, i ∈ t.clique l := by
  obtain ⟨j, hj, -⟩ := hvo.exists_rank h
    (List.mem_map_of_mem (VariableOrdering.vbl_mem hi))
  obtain ⟨l, hl, hsub⟩ := hbuilt.cover j (List.getElem?_eq_some_iff.mp hj).1
  refine ⟨l, hl, hsub ?_⟩
  rw [elimFamily, Finset.mem_filter, List.getD_eq_getElem?_getD, hj]
  exact ⟨Finset.mem_range.mpr hi, Or.inl rfl⟩

/-- The cliques of the tree and the elimination families cover each other. -/
theorem Built.hasRIOrder_iff (hbuilt : this.Built vo t) :
    HasRIOrder (t.graph.labels.map t.clique) ↔ HasRIOrder (elimFamilies this.tables vo) := by
  have hfamilies : ∀ A ∈ elimFamilies this.tables vo, ∃ B ∈ t.graph.labels.map t.clique, A ⊆ B := by
    intro A hA
    obtain ⟨i, hi, rfl⟩ := List.mem_map.mp hA
    obtain ⟨l, hl, hsub⟩ := hbuilt.cover i (List.mem_range.mp hi)
    exact ⟨_, List.mem_map_of_mem hl, hsub⟩
  have hcliques : ∀ A ∈ t.graph.labels.map t.clique, ∃ B ∈ elimFamilies this.tables vo, A ⊆ B := by
    intro A hA
    obtain ⟨l, hl, rfl⟩ := List.mem_map.mp hA
    obtain ⟨i, hi, heq⟩ := hbuilt.mem l hl
    exact ⟨_, List.mem_map_of_mem (List.mem_range.mpr hi), heq.subset⟩
  rw [← hasRIOrder_append_iff hfamilies, ← hasRIOrder_append_iff hcliques]
  exact ⟨fun h => h.perm List.perm_append_comm, fun h => h.perm List.perm_append_comm⟩

/-- Whether the tree is a junction tree is decided by the network and the ordering. -/
theorem Built.hasRunningIntersection_iff (hbuilt : this.Built vo t) :
    t.HasRunningIntersection ↔ HasRIOrder (elimFamilies this.tables vo) := by
  rw [← hbuilt.hasRIOrder_iff]
  constructor
  · intro hri
    have hjunction : IsJunctionTree {l | l ∈ t.graph.labels} t.clique t.graph.skeleton :=
      ⟨hbuilt.isTree.isTreeOn, hri.cliques⟩
    exact hjunction.hasRIOrder t.graph.labels_nodup fun _ => Iff.rfl
  · intro horder
    apply hbuilt.greedy
    obtain ⟨L, hperm, hL⟩ := horder
    have hnodup : L.Nodup := hperm.nodup_iff.mpr
      (t.graph.labels_nodup.map_on fun l hl l' hl' => hbuilt.injOn hl hl')
    by_cases hne : L = []
    · -- a tree without vertices
      rw [hne, List.nil_perm, List.map_eq_nil_iff] at hperm
      have hsingle := isJunctionTree_singleton t.clique []
      refine ⟨⊥, ⟨fun hadj => absurd hadj (by simp), fun hu => ?_, hsingle.acyclic⟩,
        hsingle.runningIntersection⟩
      rw [hperm] at hu
      exact absurd hu List.not_mem_nil
    · obtain ⟨T, hT⟩ := exists_junctionTree hne hnodup hL
      have himage : t.clique '' {l | l ∈ t.graph.labels} = {A | A ∈ L} := by
        ext A
        rw [Set.mem_ofPred_eq, hperm.mem_iff, List.mem_map]
        exact Iff.rfl
      exact ⟨_, hT.comapOn hbuilt.injOn himage fun _ _ => rfl⟩

end Families

/-- A table whose entries are all `1 / 2`. -/
def uniformTable (o : VariableOrdering) (parents : List Variable) (tableFor : Variable) :
    CPT o ℚ :=
  let vs := parents.foldl VariableSet.add ((VariableSet.create o).add tableFor)
  CPT.createParentList parents tableFor
    (Pot.createTabular vs (List.replicate vs.getCardinality (1 / 2)))

theorem created_of_tables {o : VariableOrdering} {tables : List (CPT o ℚ)}
    (obs : List (Observation o ℚ))
    (h : ∀ p ∈ parentPairs tables, p.1 ∈ o.labels ∧ p.2 ∈ o.labels) :
    ∃ bn, createList2 tables obs = some bn ∧ bn.Created ∧ bn.tables = tables ∧ bn.obs = obs := by
  obtain ⟨g, hg⟩ := exists_createGraph h
  have hrun : createList2 tables obs = some ⟨tables, obs, g⟩ := by rw [createList2, hg]; rfl
  exact ⟨_, hrun, Or.inr hrun, rfl, rfl⟩

/-- Four binary variables. -/
def chainOrdering : VariableOrdering :=
  ⟨[⟨['a'], 2⟩, ⟨['b'], 2⟩, ⟨['c'], 2⟩, ⟨['d'], 2⟩]⟩

/-- A network in which every variable but the first has the one before it as parent. -/
def chainTables : List (CPT chainOrdering ℚ) :=
  let table parents i := uniformTable chainOrdering (parents.map chainOrdering.vbl)
    (chainOrdering.vbl i)
  [table [] 0, table [0] 1, table [1] 2, table [2] 3]

/-- The variables in their order. -/
def chainVertices : VertexOrdering := ⟨chainOrdering.labels⟩

/-- The elimination tree of the chain. -/
def chainTree (vo : VertexOrdering) : ElimTree chainOrdering :=
  ((createList2 chainTables []).bind fun bn => bn.buildElimTree QSort.insertion vo).getD
    (ElimTree.empty chainOrdering)

theorem chainTree_built (vo : VertexOrdering) (hvo : vo.vertices.Perm chainOrdering.labels)
    (obs : List (Observation chainOrdering ℚ)) :
    ∃ bn, createList2 chainTables obs = some bn ∧ bn.Created ∧ bn.tables = chainTables ∧
      bn.obs = obs ∧ bn.IsOrdering vo ∧
      bn.buildElimTree QSort.insertion vo = some (chainTree vo) ∧ bn.Built vo (chainTree vo) := by
  have hpairs : ∀ p ∈ parentPairs chainTables,
      p.1 ∈ chainOrdering.labels ∧ p.2 ∈ chainOrdering.labels := by decide
  obtain ⟨g, hg⟩ := exists_createGraph hpairs
  have hrun : ∀ obs, createList2 chainTables obs = some ⟨chainTables, obs, g⟩ := fun obs => by
    rw [createList2, hg]
    rfl
  have hcreated : (⟨chainTables, obs, g⟩ : BNet chainOrdering ℚ).Created := Or.inr (hrun obs)
  have hordering := hcreated.isOrdering (by decide) hvo
  obtain ⟨t, ht, hbuilt⟩ := hcreated.buildElimTree (by decide) (by decide) QSort.insertion
    hordering
  have heq : chainTree vo = t := by
    unfold chainTree
    rw [hrun, Option.bind_some]
    show (BNet.buildElimTree QSort.insertion ⟨chainTables, obs, g⟩ vo).getD _ = t
    rw [ht, Option.getD_some]
  exact ⟨_, hrun obs, hcreated, rfl, rfl, hordering, heq ▸ ht, heq ▸ hbuilt⟩

/-- Five binary variables. -/
def loopOrdering : VariableOrdering :=
  ⟨[⟨['a'], 2⟩, ⟨['b'], 2⟩, ⟨['c'], 2⟩, ⟨['d'], 2⟩, ⟨['e'], 2⟩]⟩

/-- A network in which `a` has children `b` and `d`, `b` has child `c`, and `e` has parents
`c` and `d`. -/
def loopTables : List (CPT loopOrdering ℚ) :=
  let table parents i := uniformTable loopOrdering (parents.map loopOrdering.vbl)
    (loopOrdering.vbl i)
  [table [] 0, table [0] 1, table [1] 2, table [0] 3, table [2, 3] 4]

end BNet

end JunctionBox
