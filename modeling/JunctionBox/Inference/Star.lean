import JunctionBox.Inference.Calibration
import JunctionBox.JunctionTree.Centre
import JunctionBox.JunctionTree.NonCliques

/-!
# When the elimination tree is a star

`Vertex_DistributeEvidence` reaches the neighbours of the root only.  This file
says for which networks and orderings that is enough, in terms of the
elimination families alone.

Where no two families have the same lowest proper superset, `RemoveNonCliques`
leaves the largest families, the one at which the last climb ends
(`rootFamily`) in the last slot, and so the first vertex of the tree
(`Created.exists_cliques`).  When every other family shares more variables with
that one than with any third, every clique is next to the root
(`Central.isStar`), and the separators are proper if it shares any.  Conversely,
under a stable sort the families of a junction tree that is a star with proper
separators lie so (`Built.central`).
-/

namespace JunctionBox

open Hypertree

namespace BNet

variable {o : VariableOrdering} {α : Type}

/-- The one family lies in the other. -/
abbrev Within (A B : Finset ℕ) : Prop := A ⊆ B

/-- The largest of the elimination families. -/
def cliqueFamilies (families : List (Finset ℕ)) : List (Finset ℕ) :=
  Climbing.maximals Within families

/-- Where the last of the climbs through the families ends that start at a family which is not
the lowest proper superset of another. -/
def rootFamily (families : List (Finset ℕ)) : Option (Finset ℕ) :=
  Climbing.lastSummit Within families

variable {this : BNet o α} {vo : VertexOrdering}

theorem length_elimFamilies (tables : List (CPT o α)) (vo : VertexOrdering) :
    (elimFamilies tables vo).length = vo.size := by
  rw [elimFamilies, List.length_map, List.length_range]

/-- The families of the sets gathered. -/
theorem map_vars_eq {sets : List (ElimSet o)} (hlen : sets.length = vo.size)
    (hspec : ∀ i es, sets[i]? = some es → es.vars = elimFamily this.tables vo i) :
    sets.map ElimSet.vars = elimFamilies this.tables vo := by
  apply List.ext_getElem
  · rw [List.length_map, hlen, length_elimFamilies]
  · intro i hi hi'
    rw [List.length_map] at hi
    rw [List.getElem_map, hspec i _ (List.getElem?_eq_getElem hi)]
    simp [elimFamilies]

/-- No family lies in an earlier one. -/
theorem Created.upwards (h : this.Created) (hdistinct : o.DistinctLabels)
    (hspace : o.SpaceFreeLabels) (hvo : this.IsOrdering vo) :
    (elimFamilies this.tables vo).Pairwise fun A B => ¬B ⊆ A := by
  obtain ⟨moral, sets, -, -, -, hlen, hspec, -⟩ :=
    h.exists_stages hdistinct hspace QSort.insertion hvo
  have hmem : ∀ v ∈ vo.vertices, v ∈ o.labels := fun v hv =>
    h.mem_labels.mp (hvo.mem_iff.mp hv)
  have hranked : Ranked vo sets := ranked_of_isElimSet hmem fun i es hes => (hspec i es hes).1
  rw [← map_vars_eq hlen fun i es hes => (hspec i es hes).2]
  apply List.Pairwise.map ElimSet.vars _ (hranked.not_below hvo.nodup)
  exact fun es es' hnot hsub => hnot (below_iff.mpr hsub)

/-- The cliques of the tree are where the climbs through the families end, backwards. -/
theorem Created.exists_cliques (h : this.Created) (hdistinct : o.DistinctLabels)
    (hspace : o.SpaceFreeLabels) (qsort : QSort) (hvo : this.IsOrdering vo) :
    ∃ esc t, this.buildElimTree qsort vo = some t ∧ ElimTree.create qsort esc = some t ∧
      t.graph.labels.map t.clique =
        (Climbing.tops Within (elimFamilies this.tables vo)).reverse := by
  obtain ⟨moral, sets, esc, t, hrun, hlen, hspec, hremove, hcreate⟩ :=
    h.exists_stages hdistinct hspace qsort hvo
  refine ⟨esc, t, hrun, hcreate, ?_⟩
  obtain ⟨esc', hremove', htops⟩ := reduceOption_removeNonCliques sets
  obtain rfl : esc = esc' := Option.some.inj (hremove.symm.trans hremove')
  have hvars : esc.elimSets.reduceOption.map ElimSet.vars =
      Climbing.tops Within (elimFamilies this.tables vo) := by
    rw [htops, ← map_vars_eq hlen fun i es hes => (hspec i es hes).2]
    exact Climbing.map_tops Below Within (fun _ _ => below_iff) sets
  -- the sets left are different, and so are their labels
  have hnodup : (esc.elimSets.reduceOption.map ElimSet.getLabel).Nodup := by
    have hupwards := Climbing.pairwise_tops Within (h.upwards hdistinct hspace hvo)
    rw [← hvars, List.pairwise_map] at hupwards
    apply List.Pairwise.map ElimSet.getLabel _ hupwards
    exact fun es es' hnot heq => hnot (ElimSet.label_inj hdistinct hspace heq).subset
  obtain ⟨t', hcreate', hspans⟩ := ElimTree.create_spans hspace qsort esc
  obtain rfl : t = t' := Option.some.inj (hcreate.symm.trans hcreate')
  obtain ⟨s, comp, -, hrun', hgrown, -⟩ := ElimTree.exists_grown hspace qsort esc
    (P := fun _ _ _ => True) trivial ⟨fun _ _ => trivial, fun _ _ _ _ => trivial⟩
  obtain rfl : t = s.tree := Option.some.inj (hcreate.symm.trans hrun')
  rw [hgrown.labels, ElimTree.labels_createCliques hnodup, List.map_reverse, List.map_map, ← hvars]
  congr 1
  apply List.map_congr_left
  intro es hes
  have hmem : some es ∈ esc.elimSets := List.reduceOption_mem_iff.mp hes
  have hl := (hspans.mem_labels es.getLabel).mpr ⟨es, hmem, rfl⟩
  exact ElimSet.label_inj hdistinct hspace (hspans.elimSet _ hl).2

/-- Every other clique shares variables with the root, and more than with any third one; where
it shares as many with a third one, the sort has to be stable. -/
structure Central (qsort : QSort) (families : List (Finset ℕ)) : Prop where
  unshared : Climbing.Unshared Within families
  meets : ∀ R ∈ rootFamily families, ∀ A ∈ cliqueFamilies families, A ≠ R → (A ∩ R).Nonempty
  centre : ∀ R ∈ rootFamily families, ∀ A ∈ cliqueFamilies families,
    ∀ B ∈ cliqueFamilies families, A ≠ R → B ≠ R → A ≠ B →
      (A ∩ B).card < (A ∩ R).card ∨ qsort.Stable ∧ (A ∩ B).card = (A ∩ R).card

/-- The cliques of the tree are the largest families, the first of them the root family. -/
theorem Created.exists_cliqueFamilies (h : this.Created) (hdistinct : o.DistinctLabels)
    (hspace : o.SpaceFreeLabels) (qsort : QSort) (hvo : this.IsOrdering vo)
    (hown : Climbing.Unshared Within (elimFamilies this.tables vo)) :
    ∃ esc t, this.buildElimTree qsort vo = some t ∧ ElimTree.create qsort esc = some t ∧
      t.graph.labels.head?.map t.clique = rootFamily (elimFamilies this.tables vo) ∧
      ∀ A, A ∈ cliqueFamilies (elimFamilies this.tables vo) ↔
        ∃ l ∈ t.graph.labels, t.clique l = A := by
  have hup := h.upwards hdistinct hspace hvo
  obtain ⟨esc, t, hrun, hcreate, hcliques⟩ := h.exists_cliques hdistinct hspace qsort hvo
  refine ⟨esc, t, hrun, hcreate, ?_, fun A => ?_⟩
  · rw [← List.head?_map, hcliques, List.head?_reverse]
    exact Climbing.getLast?_tops Within hup hown
  · rw [← List.mem_map, hcliques, List.mem_reverse]
    exact (Climbing.mem_tops_iff Within hup
      (Climbing.unobstructed_of_unshared Within hup hown)).symm

/-- Largest families that share any variables have proper separators. -/
theorem Built.properSeparators (hbuilt : this.Built vo t)
    (hfamilies : ∀ l ∈ t.graph.labels, t.clique l ∈ cliqueFamilies (elimFamilies this.tables vo))
    (hmeet : ∀ e ∈ t.graph.edgeList, (t.separatorOf e).Nonempty) : t.ProperSeparators := by
  -- no clique lies in another one
  have hanti : ∀ {a b}, a ∈ t.graph.labels → b ∈ t.graph.labels → a ≠ b →
      t.clique a ∩ t.clique b ⊂ t.clique a := by
    intro a b ha hb hab
    refine Finset.inter_subset_left.ssubset_of_ne fun heq => hab (hbuilt.injOn ha hb ?_)
    have hsub : t.clique a ⊆ t.clique b := Finset.inter_eq_left.mp heq
    have hmax := ((Climbing.mem_maximals Within).mp (hfamilies a ha)).2
    exact hsub.antisymm (hmax _ ((Climbing.mem_maximals Within).mp (hfamilies b hb)).1 hsub)
  refine ⟨hmeet, fun e he => ?_, fun e he => ?_⟩
  · rw [ElimTree.separatorOf, hbuilt.separators e he]
    exact hanti (Graph.ends_mem he).1 (Graph.ends_mem he).2 (hbuilt.isTree.loopless e he)
  · rw [ElimTree.separatorOf, hbuilt.separators e he, Finset.inter_comm]
    exact hanti (Graph.ends_mem he).2 (Graph.ends_mem he).1 (hbuilt.isTree.loopless e he).symm

/-- **The tree is a star** with proper separators, its root in the middle. -/
theorem Central.isStar {qsort : QSort} (hcentral : Central qsort (elimFamilies this.tables vo))
    (h : this.Created) (hdistinct : o.DistinctLabels) (hspace : o.SpaceFreeLabels)
    (hvo : this.IsOrdering vo) (horder : HasRIOrder (elimFamilies this.tables vo))
    (hsize : 0 < o.size) :
    ∃ t root, this.buildElimTree qsort vo = some t ∧ this.Built vo t ∧
      t.graph.labels.head? = some root ∧ Potentials.IsStar t root ∧ t.ProperSeparators := by
  obtain ⟨t, hrun, hbuilt⟩ := h.buildElimTree hdistinct hspace qsort hvo
  obtain ⟨esc, t', hrun', hcreate, hhead, hfamilies⟩ :=
    h.exists_cliqueFamilies hdistinct hspace qsort hvo hcentral.unshared
  obtain rfl : t = t' := Option.some.inj (hrun.symm.trans hrun')
  have hcliques : ∀ l ∈ t.graph.labels, t.clique l ∈ cliqueFamilies (elimFamilies this.tables vo) :=
    fun l hl => (hfamilies _).mpr ⟨l, hl, rfl⟩
  have hri := hbuilt.hasRunningIntersection_iff.mpr horder
  obtain ⟨root, ls, hlabels⟩ : ∃ root ls, t.graph.labels = root :: ls := by
    obtain ⟨l, hl, -⟩ := hbuilt.exists_mem_clique hvo h hsize
    exact List.exists_cons_of_ne_nil (List.ne_nil_of_mem hl)
  have hroot : root ∈ t.graph.labels := hlabels ▸ List.mem_cons_self ..
  rw [hlabels] at hhead
  have hR : t.clique root ∈ rootFamily (elimFamilies this.tables vo) := hhead.symm
  have hne : ∀ {a b}, a ∈ t.graph.labels → b ∈ t.graph.labels → a ≠ b →
      t.clique a ≠ t.clique b := fun ha hb hab heq => hab (hbuilt.injOn ha hb heq)
  have hother : ∀ a ∈ ls, a ∈ t.graph.labels ∧ a ≠ root := fun a ha =>
    ⟨hlabels ▸ List.mem_cons_of_mem _ ha, fun heq =>
      (List.nodup_cons.mp (hlabels ▸ t.graph.labels_nodup)).1 (heq ▸ ha)⟩
  have hadj := ElimTree.create_adj_root hspace hcreate hri.cliques hlabels
    fun a ha b hb hab => hcentral.centre _ hR _ (hcliques a (hother a ha).1) _
      (hcliques b (hother b hb).1) (hne (hother a ha).1 hroot (hother a ha).2)
      (hne (hother b hb).1 hroot (hother b hb).2) (hne (hother a ha).1 (hother b hb).1 hab)
  have hstar : Potentials.IsStar t root := by
    intro l hl
    rw [hlabels] at hl
    exact (List.mem_cons.mp hl).imp id (hadj l)
  refine ⟨t, root, hrun, hbuilt, by rw [hlabels]; rfl, hstar,
    hbuilt.properSeparators hcliques fun e he => ?_⟩
  obtain ⟨R⟩ := hbuilt.isTree.isTreeOn.exists_rooting hroot
  obtain ⟨m, hm, rfl⟩ := hstar.exists_mem_inward hbuilt.isTree R he
  obtain ⟨halong, hreceiver, hadj'⟩ := Potentials.mem_inward hbuilt.isTree hm
  have hmeets := hcentral.meets _ hR _ (hcliques _ halong.sender_mem)
    (hne halong.sender_mem hroot hadj'.ne')
  rw [ElimTree.separatorOf, hbuilt.separators _ halong.mem]
  rcases Sym2.eq_iff.mp halong.ends with ⟨hsrc, hsink⟩ | ⟨hsrc, hsink⟩
  · rwa [hsrc, hsink, hreceiver]
  · rwa [hsrc, hsink, hreceiver, Finset.inter_comm]

/-- In a junction tree that is a star the families lie around the root family. -/
theorem Built.central {qsort : QSort} (hbuilt : this.Built vo t)
    (hown : Climbing.Unshared Within (elimFamilies this.tables vo)) {root : CString}
    (hroot : t.graph.labels.head? = some root)
    (hR : t.graph.labels.head?.map t.clique = rootFamily (elimFamilies this.tables vo))
    (hfamilies : ∀ A, A ∈ cliqueFamilies (elimFamilies this.tables vo) ↔
      ∃ l ∈ t.graph.labels, t.clique l = A)
    (hri : t.HasRunningIntersection) (hproper : t.ProperSeparators)
    (hstar : Potentials.IsStar t root) (hstable : qsort.Stable) :
    Central qsort (elimFamilies this.tables vo) := by
  have hmem : root ∈ t.graph.labels := List.mem_of_mem_head? hroot
  have hother : ∀ {l}, l ∈ t.graph.labels → t.clique l ≠ t.clique root →
      t.graph.skeleton.Adj root l := fun {l} hl hne =>
    (hstar l hl).resolve_left fun heq => hne (heq ▸ rfl)
  have heq : ∀ R ∈ rootFamily (elimFamilies this.tables vo), R = t.clique root := by
    intro R h
    rw [← hR, hroot, Option.map_some, Option.mem_def, Option.some.injEq] at h
    exact h.symm
  refine ⟨hown, fun R h A hA hne => ?_, fun R h A hA B hB hAR hBR hAB => ?_⟩
  · obtain rfl := heq R h
    obtain ⟨l, hl, rfl⟩ := (hfamilies A).mp hA
    obtain ⟨-, e, he, hends⟩ := hother hl hne
    have hmeet := hproper.nonempty e he
    rw [ElimTree.separatorOf, hbuilt.separators e he] at hmeet
    rcases Sym2.eq_iff.mp hends with ⟨hsrc, hsink⟩ | ⟨hsrc, hsink⟩
    · rwa [hsrc, hsink, Finset.inter_comm] at hmeet
    · rwa [hsrc, hsink] at hmeet
  · obtain rfl := heq R h
    obtain ⟨l, hl, rfl⟩ := (hfamilies A).mp hA
    obtain ⟨k, hk, rfl⟩ := (hfamilies B).mp hB
    -- the way from the one clique to the other goes through the root
    have hsub : t.clique l ∩ t.clique k ⊆ t.clique l ∩ t.clique root := by
      refine Finset.subset_inter Finset.inter_subset_left ?_
      obtain ⟨R⟩ := hbuilt.isTree.isTreeOn.exists_rooting hmem
      obtain ⟨hne, hparent⟩ := Potentials.parent_of_adj_root (R := R) (hother hl hAR)
      obtain ⟨hne', hparent'⟩ := Potentials.parent_of_adj_root (R := R) (hother hk hBR)
      have hnot : ¬R.Below l k := by
        intro hbelow
        have hdepth : R.depth l = R.depth k := by
          rw [R.depth_parent hl hne, R.depth_parent hk hne', hparent, hparent']
        exact hAB (congrArg t.clique (hbelow.eq_of_depth_eq hdepth))
      have hinter := R.inter_subset_parent (hri.isJunctionTree hbuilt.isTree) hl hk hnot
      rwa [hparent] at hinter
    exact (Finset.card_le_card hsub).lt_or_eq.imp id fun hcard => ⟨hstable, hcard⟩

end BNet

end JunctionBox
