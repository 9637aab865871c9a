import JunctionBox.JunctionTree.ElimTree
import Mathlib.Data.List.ReduceOption

/-!
# Trees with the last set in the middle

`createCliques` puts every new vertex in front, so the vertices of an elimination
tree are the slots of the collection backwards (`labels_createCliques`), and the
passes start at the set in the last slot.

The sort puts the candidates with the larger intersections first.  A candidate
for which the loop adds no edge has its ends joined by candidates before it
(`Spanned`), so in a junction tree every clique is next to the first one if it
shares more variables with that than with any other, or as many, where the sort
is stable (`create_adj_root`).
-/

namespace JunctionBox

namespace ElimTree

open Hypertree

variable {o : VariableOrdering}

/-! ## The order of the vertices -/

theorem labels_addClique {state : ElimTree o × DSetForest} {es : ElimSet o}
    (h : es.getLabel ∉ state.1.graph.labels) :
    (addClique state (some es)).1.graph.labels = es.getLabel :: state.1.graph.labels := by
  have hnone : state.1.graph.getVertex es.getLabel = none := by
    rw [← Option.not_isSome_iff_eq_none, Graph.getVertex_isSome_iff]
    exact h
  unfold addClique
  simp only [hnone]
  rw [Graph.labels_addVertex, if_neg h]

/-- The vertices are the slots backwards. -/
theorem labels_createCliques {esc : ElimSetCollection o}
    (hnodup : (esc.elimSets.reduceOption.map ElimSet.getLabel).Nodup) :
    (createCliques esc).1.graph.labels =
      (esc.elimSets.reduceOption.map ElimSet.getLabel).reverse := by
  have hrun : ∀ (slots : List (Option (ElimSet o))) (state : ElimTree o × DSetForest),
      (slots.reduceOption.map ElimSet.getLabel).Nodup →
      (∀ l ∈ slots.reduceOption.map ElimSet.getLabel, l ∉ state.1.graph.labels) →
      (slots.foldl addClique state).1.graph.labels =
        (slots.reduceOption.map ElimSet.getLabel).reverse ++ state.1.graph.labels := by
    intro slots
    induction slots with
    | nil => exact fun _ _ _ => rfl
    | cons slot slots ih =>
        intro state hnodup hnew
        cases slot with
        | none => exact ih state hnodup hnew
        | some es =>
            rw [List.reduceOption_cons_of_some, List.map_cons] at hnodup hnew ⊢
            obtain ⟨hes, hnodup⟩ := List.nodup_cons.mp hnodup
            have hlabels := labels_addClique (hnew _ (List.mem_cons_self ..))
            rw [List.foldl_cons, ih _ hnodup, hlabels, List.reverse_cons, List.append_assoc,
              List.singleton_append]
            intro l hl
            rw [hlabels, List.mem_cons]
            rintro (rfl | hmem)
            · exact hes hl
            · exact hnew l (List.mem_cons_of_mem _ hl) hmem
  have hstart := hrun esc.elimSets (empty o, DSetForest.create) hnodup fun l _ => by simp [empty]
  rw [show (empty o, DSetForest.create).1.graph.labels = [] from rfl, List.append_nil] at hstart
  exact hstart

/-! ## The candidates in their order -/

/-- The edges of the graph that some of the candidates have made. -/
def madeBy (g : Graph) (ecs : List (EdgeCandidate o)) : SimpleGraph CString where
  Adj a b := g.skeleton.Adj a b ∧ ∃ ec ∈ ecs, s(ec.src, ec.sink) = s(a, b)
  symm.symm _ _ h := ⟨h.1.symm, by rw [Sym2.eq_swap]; exact h.2⟩
  loopless.irrefl _ h := g.skeleton.irrefl h.1

theorem madeBy_le (g : Graph) (ecs : List (EdgeCandidate o)) : madeBy g ecs ≤ g.skeleton :=
  fun _ _ h => h.1

theorem madeBy_mono {g g' : Graph} (h : g.skeleton ≤ g'.skeleton) (ecs : List (EdgeCandidate o)) :
    madeBy g ecs ≤ madeBy g' ecs := fun _ _ hadj => ⟨h hadj.1, hadj.2⟩

/-- Every edge comes from a candidate, and the ends of every candidate seen are joined by edges
that this one and those before it have made. -/
structure Spanned (seen : List (EdgeCandidate o)) (g : Graph) : Prop where
  made : ∀ a b, g.skeleton.Adj a b → ∃ ec ∈ seen, s(ec.src, ec.sink) = s(a, b)
  joined : ∀ front ec back, seen = front ++ ec :: back →
    (madeBy g (front ++ [ec])).Reachable ec.sink ec.src

/-- One more candidate, whose ends are joined by now. -/
theorem Spanned.concat {seen : List (EdgeCandidate o)} {ec : EdgeCandidate o} {g g' : Graph}
    (h : Spanned seen g) (hle : g.skeleton ≤ g'.skeleton)
    (hmade : ∀ a b, g'.skeleton.Adj a b → ∃ ec' ∈ seen ++ [ec], s(ec'.src, ec'.sink) = s(a, b))
    (hreach : g'.skeleton.Reachable ec.sink ec.src) : Spanned (seen ++ [ec]) g' := by
  refine ⟨hmade, fun front ec' back heq => ?_⟩
  rcases List.eq_nil_or_concat back with rfl | ⟨back', last, rfl⟩
  · obtain ⟨rfl, hlast⟩ := List.append_inj' heq rfl
    obtain rfl := List.singleton_inj.mp hlast
    exact hreach.mono fun a b hadj => ⟨hadj, hmade a b hadj⟩
  · rw [List.concat_eq_append, ← List.cons_append, ← List.append_assoc] at heq
    obtain ⟨hseen, -⟩ := List.append_inj' heq rfl
    exact (h.joined front ec' back' hseen).mono (madeBy_mono hle _)

theorem keptByRounds_spanned {start : ElimTree o} (hkeys : Graph.UniqueKeys start.graph.labels) :
    KeptByRounds start fun seen g _ => Spanned seen g := by
  refine ⟨fun {seen ec g _} h hreach => ?_, fun {seen ec g g' _} h hlabels hpair hadd => ?_⟩
  · refine h.concat le_rfl (fun a b hadj => ?_) hreach
    obtain ⟨ec', hec', heq⟩ := h.made a b hadj
    exact ⟨ec', List.mem_append_left _ hec', heq⟩
  · have hskel := Graph.skeleton_addEdge (hlabels ▸ hkeys) hpair.ne hadd
    have hnew : g'.skeleton.Adj ec.sink ec.src := by
      rw [hskel]
      exact Or.inr ((SimpleGraph.edge_adj ..).mpr ⟨Or.inl ⟨rfl, rfl⟩, hpair.ne⟩)
    refine h.concat (hskel ▸ le_sup_left) (fun a b hadj => ?_) hnew.reachable
    rw [hskel, SimpleGraph.sup_adj] at hadj
    rcases hadj with hadj | hadj
    · obtain ⟨ec', hec', heq⟩ := h.made a b hadj
      exact ⟨ec', List.mem_append_left _ hec', heq⟩
    · refine ⟨ec, List.mem_append_right _ (List.mem_singleton_self ec), ?_⟩
      rw [Sym2.eq_swap]
      rcases ((SimpleGraph.edge_adj ..).mp hadj).1 with ⟨rfl, rfl⟩ | ⟨rfl, rfl⟩
      · rfl
      · exact Sym2.eq_swap

/-- The ends of every candidate are joined by edges of the tree that this one and those before
it have made. -/
theorem exists_spanned (hspace : o.SpaceFreeLabels) (qsort : QSort) (esc : ElimSetCollection o) :
    ∃ s comp, create qsort esc = some s.tree ∧ Grown (createCliques esc).1 comp s ∧
      IsTreeOn {l | l ∈ (createCliques esc).1.graph.labels} s.tree.graph.skeleton ∧
      ∀ front ec back, ecCollectionCreate qsort
          (VertexOrdering.default (createCliques esc).1.graph) (createCliques esc).1 =
          front ++ ec :: back →
        (madeBy s.tree.graph (front ++ [ec])).Reachable ec.sink ec.src := by
  have hmade := cliquesMade esc
  have hkeys : Graph.UniqueKeys (createCliques esc).1.graph.labels :=
    ElimSet.uniqueKeys_getLabel hspace fun l hl => ⟨_, (hmade.elimSet l hl).2⟩
  have hstart : Spanned ([] : List (EdgeCandidate o)) (createCliques esc).1.graph := by
    refine ⟨fun a b hadj => ?_, fun front ec back heq => absurd heq (by simp)⟩
    obtain ⟨-, e, he, -⟩ := hadj
    rw [hmade.edges] at he
    exact absurd he List.not_mem_nil
  obtain ⟨s, comp, seen, hrun, hgrown, ⟨rest, hrest⟩, hspanned, htree⟩ :=
    exists_grown hspace qsort esc (P := fun seen g _ => Spanned seen g) hstart
      (keptByRounds_spanned hkeys)
  refine ⟨s, comp, hrun, hgrown, htree, fun front ec back heq => ?_⟩
  have hec : ec ∈ ecCollectionCreate qsort
      (VertexOrdering.default (createCliques esc).1.graph) (createCliques esc).1 :=
    heq ▸ List.mem_append_right _ (List.mem_cons_self ..)
  have hends : ec.src ∈ (createCliques esc).1.graph.labels ∧
      ec.sink ∈ (createCliques esc).1.graph.labels := by
    obtain ⟨p, hp, rfl⟩ := mem_ecCollectionCreate.mp hec
    exact PartialLoops.mem_pairs hp
  -- once the tree is complete all candidates have their ends joined
  have hcomplete : seen <+: front → (madeBy s.tree.graph (front ++ [ec])).Reachable ec.sink
      ec.src := by
    intro hearlier
    refine (htree.reachable hends.2 hends.1).mono fun a b hadj => ⟨hadj, ?_⟩
    obtain ⟨ec', hec', hmem⟩ := hspanned.made a b hadj
    exact ⟨ec', List.mem_append_left _ (hearlier.subset hec'), hmem⟩
  rw [← hrest, List.append_eq_append_iff] at heq
  rcases heq with ⟨mid, rfl, -⟩ | ⟨mid, rfl, hback⟩
  · exact hcomplete (List.prefix_append ..)
  · rcases List.append_eq_cons_iff.mp hback.symm with ⟨rfl, -⟩ | ⟨mid', rfl, -⟩
    · exact hcomplete (by rw [List.append_nil])
    · exact hspanned.joined front ec mid' rfl

/-- A stable sort leaves the candidates of the first vertex before those of the same size that
come later. -/
theorem exists_split_of_stable {qsort : QSort} (hstable : qsort.Stable) {start : ElimTree o}
    {root : CString} {ls : List CString} (hlabels : start.graph.labels = root :: ls)
    {a b : CString} (ha : a ∈ ls) (hb : b ∈ ls) (hab : a ≠ b)
    (hcard : (start.clique a ∩ start.clique b).card ≤ (start.clique a ∩ start.clique root).card) :
    ∃ front back, ecCollectionCreate qsort (VertexOrdering.default start.graph) start =
        front ++ EdgeCandidate.create start root a :: back ∧
      ∀ ec ∈ front ++ [EdgeCandidate.create start root a], s(ec.src, ec.sink) ≠ s(a, b) := by
  have hsize : ∀ u v, (EdgeCandidate.create start u v).elimSet.bv.getNumOnBits =
      (start.clique u ∩ start.clique v).card := by
    intro u v
    rw [getNumOnBits_eq_card]
    exact congrArg Finset.card (ElimSet.vars_intersect ..)
  obtain ⟨p, hp, heq⟩ := PartialLoops.exists_mem_pairs ha hb hab
  have hcmp : EdgeCandidate.defEdgeComp (EdgeCandidate.create start root a)
      (EdgeCandidate.create start p.1 p.2) ≤ 0 := by
    have hpcard : (start.clique p.1 ∩ start.clique p.2).card =
        (start.clique a ∩ start.clique b).card := by
      rcases Sym2.eq_iff.mp heq with ⟨hfst, hsnd⟩ | ⟨hfst, hsnd⟩
      · rw [hfst, hsnd]
      · rw [hfst, hsnd, Finset.inter_comm]
    unfold EdgeCandidate.defEdgeComp
    rw [hsize, hsize, hpcard, Finset.inter_comm (start.clique root)]
    omega
  -- the candidates before they are sorted
  set ecs := (PartialLoops.pairs start.graph.labels).map fun p =>
    EdgeCandidate.create start p.1 p.2 with hecs
  have hsub : [EdgeCandidate.create start root a, EdgeCandidate.create start p.1 p.2].Sublist
      ecs := by
    rw [hecs, hlabels, PartialLoops.pairs, List.map_append, List.map_map]
    exact (List.singleton_sublist.mpr (List.mem_map.mpr ⟨a, ha, rfl⟩)).append
      (List.singleton_sublist.mpr (List.mem_map.mpr ⟨p, hp, rfl⟩))
  have hsorted := hstable (QSort.isComparator_of_key fun ec : EdgeCandidate o =>
    ec.elimSet.bv.getNumOnBits) hcmp hsub
  obtain ⟨front, later, hsplit, hfst, hsnd⟩ := List.cons_sublist_iff.mp hsorted
  obtain ⟨front, mid, rfl⟩ := List.append_of_mem hfst
  have hmem := List.singleton_sublist.mp hsnd
  have hwhole : ecCollectionCreate qsort (VertexOrdering.default start.graph) start =
      front ++ EdgeCandidate.create start root a :: (mid ++ later) := by
    unfold ecCollectionCreate
    rw [VertexOrdering.vertices_default, ← hecs]
    exact hsplit.trans (by simp)
  refine ⟨front, mid ++ later, hwhole, fun ec hec hends => ?_⟩
  -- no other candidate joins `a` and `b`
  have hnodup : ((ecCollectionCreate qsort (VertexOrdering.default start.graph) start).map
      fun ec => s(ec.src, ec.sink)).Nodup := by
    have hpairs := PartialLoops.nodup_pairs start.graph.labels_nodup
    have hperm := (qsort.perm EdgeCandidate.defEdgeComp ecs).map
      fun ec : EdgeCandidate o => s(ec.src, ec.sink)
    unfold ecCollectionCreate
    rw [VertexOrdering.vertices_default, ← hecs, hperm.nodup_iff, hecs, List.map_map]
    exact hpairs
  rw [hwhole, ← List.singleton_append, ← List.append_assoc, List.map_append,
    List.nodup_append] at hnodup
  exact hnodup.2.2 _ (List.mem_map_of_mem hec) _
    (List.mem_map_of_mem (List.mem_append_right _ hmem)) (hends.trans heq.symm)

/-- In a junction tree the first clique is next to all that share more variables with it than with
any other, or as many when the sort is stable. -/
theorem create_adj_root (hspace : o.SpaceFreeLabels) {qsort : QSort} {esc : ElimSetCollection o}
    {t : ElimTree o} (hrun : create qsort esc = some t)
    (hri : RunningIntersection t.clique t.graph.skeleton) {root : CString} {ls : List CString}
    (hlabels : t.graph.labels = root :: ls)
    (hcentral : ∀ a ∈ ls, ∀ b ∈ ls, a ≠ b →
      (t.clique a ∩ t.clique b).card < (t.clique a ∩ t.clique root).card ∨
        qsort.Stable ∧ (t.clique a ∩ t.clique b).card = (t.clique a ∩ t.clique root).card) :
    ∀ a ∈ ls, t.graph.skeleton.Adj root a := by
  obtain ⟨s, comp, hrun', hgrown, htree, hspanned⟩ := exists_spanned hspace qsort esc
  obtain rfl : t = s.tree := Option.some.inj (hrun.symm.trans hrun')
  set start := (createCliques esc).1 with hstart
  have hstartLabels : start.graph.labels = root :: ls := hgrown.labels.symm.trans hlabels
  rw [hgrown.clique_eq] at hri hcentral
  have hnodup : (root :: ls).Nodup := hstartLabels ▸ start.graph.labels_nodup
  intro a ha
  have hne : a ≠ root := fun heq => (List.nodup_cons.mp hnodup).1 (heq ▸ ha)
  have hmema : a ∈ start.graph.labels := hstartLabels ▸ List.mem_cons_of_mem _ ha
  have hmemroot : root ∈ start.graph.labels := hstartLabels ▸ List.mem_cons_self ..
  obtain ⟨p, hp⟩ := (htree.reachable hmema hmemroot).exists_isPath
  cases p with
  | nil => exact absurd rfl hne
  | @cons _ b _ hadj q =>
      by_cases hb : b = root
      · exact hb ▸ hadj.symm
      exfalso
      have hmemb : b ∈ ls := by
        have hmem := htree.mem_of_adj_right hadj
        rw [Set.mem_ofPred_eq, hstartLabels] at hmem
        exact (List.mem_cons.mp hmem).resolve_left hb
      -- the first clique on the path contains what the two share
      have hsub : start.clique a ∩ start.clique root ⊆ start.clique a ∩ start.clique b :=
        Finset.subset_inter Finset.inter_subset_left
          (hri _ hp b (List.mem_cons_of_mem _ q.start_mem_support))
      rcases hcentral a ha b hmemb hadj.ne with hlt | ⟨hstable, heq⟩
      · exact absurd (Finset.card_le_card hsub) (not_le.mpr hlt)
      obtain ⟨front, back, hsplit, hfront⟩ :=
        exists_split_of_stable hstable hstartLabels ha hmemb hadj.ne heq.le
      obtain ⟨-, ec, hec, hends⟩ := (SimpleGraph.mem_edgeSet _).mp
        (mem_edgeSet_of_reachable htree.acyclic (madeBy_le ..) (hspanned _ _ _ hsplit) hp
          (e := s(a, b)) (List.mem_cons_self ..))
      exact hfront ec hec hends

end ElimTree

end JunctionBox
