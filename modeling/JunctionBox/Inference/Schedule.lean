import JunctionBox.Foundations.CollectionSchedule
import JunctionBox.Inference.Traversal

/-!
# The schedule of `BNet_CollectEvidence`

`BNet_CollectEvidence` starts at the first vertex and collects from whatever
hangs together with it.  So on the result of `ElimTree_Create` it passes one
message over every edge, inwards and subtree by subtree, exactly when all edges
hang together with the first vertex (`create_collectsEvidence_iff`).

With labels that contain no blank they always do.  `blankSets` are four sets of
variables whose labels do: the edge between the first clique and its neighbour
has the key of an edge that is there already, so the first clique stays alone
and nothing is collected.
-/

namespace JunctionBox

open Hypertree Propagation SimpleGraph

/-- `BNet_CollectEvidence` and its Log version terminate, whatever the messages do, and pass
messages that collect to the first vertex over the edges of the graph. -/
def CollectsEvidence (elimTree : Graph) : Prop :=
  ∃ root ms, (VertexOrdering.default elimTree).vertices.head? = some root ∧
    (∀ (σ : Type) (pass : σ → CString → CString → Edge → Option σ) (s : σ),
      collectEvidenceWith pass elimTree s = passEach pass ms s) ∧
    CollectsTo elimTree.skeleton Edge.ends elimTree.edgeList root ms

namespace Graph

variable {g : Graph} {u v : CString}

/-- Walks stay among the vertices. -/
theorem mem_labels_of_reachable (h : g.skeleton.Reachable u v) (hu : u ∈ g.labels) :
    v ∈ g.labels := by
  obtain ⟨p⟩ := h
  induction p with
  | nil => exact hu
  | cons hadj _ ih =>
      obtain ⟨-, e, he, hends⟩ := hadj
      have hmem := ends_mem he
      apply ih
      rcases Sym2.eq_iff.mp hends with ⟨-, rfl⟩ | ⟨rfl, -⟩
      · exact hmem.2
      · exact hmem.1

/-- A vertex without edges reaches itself only. -/
theorem eq_of_reachable_of_isolated (h : g.skeleton.Reachable u v)
    (hisolated : ∀ e ∈ g.edgeList, e.src ≠ u ∧ e.sink ≠ u) : v = u := by
  obtain ⟨p⟩ := h
  cases p with
  | nil => rfl
  | cons hadj _ =>
      obtain ⟨-, e, he, hends⟩ := hadj
      rcases Sym2.eq_iff.mp hends with ⟨hsrc, -⟩ | ⟨-, hsink⟩
      · exact absurd hsrc (hisolated e he).1
      · exact absurd hsink (hisolated e he).2

end Graph

namespace ElimTree

variable {o : VariableOrdering} {t : ElimTree o} {root : CString}

/-- The vertices that hang together with the first one, when all edges do. -/
theorem isTreeWithin_reachable (h : t.graph.IsForest) (hroot : root ∈ t.graph.labels)
    (hreach : ∀ e ∈ t.graph.edgeList, t.graph.skeleton.Reachable root e.src) :
    t.IsTreeWithin {l | t.graph.skeleton.Reachable root l} where
  forest := h
  isTreeOn := by
    refine ⟨fun {u v} hadj => ?_, fun {u v} hu hv => hu.symm.trans hv, h.acyclic⟩
    obtain ⟨-, e, he, hends⟩ := id hadj
    rcases Sym2.eq_iff.mp hends with ⟨rfl, -⟩ | ⟨rfl, -⟩
    · exact hreach e he
    · exact (hreach e he).trans hadj.symm.reachable
  subset _ hl := Graph.mem_labels_of_reachable hl hroot

theorem collectsEvidence_of_reachable (h : t.graph.IsForest)
    (hroot : t.graph.labels.head? = some root)
    (hreach : ∀ e ∈ t.graph.edgeList, t.graph.skeleton.Reachable root e.src) :
    CollectsEvidence t.graph := by
  have hwithin := isTreeWithin_reachable h (List.mem_of_mem_head? hroot) hreach
  obtain ⟨R⟩ := hwithin.isTreeOn.exists_rooting (Reachable.refl root)
  obtain ⟨ms, hrun, horder, hup⟩ := collectEvidence_eq_of_within hwithin hroot R
  refine ⟨root, ms, by rwa [VertexOrdering.vertices_default], hrun, ?_⟩
  apply collectsTo_of_postOrder hwithin.isTreeOn (fun m hm => (hup m hm).1) horder
    (Potentials.nodup_edgeList t.graph) (fun m hm => (hup m hm).2.mem) h.simple
  exact fun e he => ⟨e.src, e.sink, rfl, h.loopless e he, e, he, rfl⟩

theorem reachable_of_collectsEvidence (h : CollectsEvidence t.graph)
    (hroot : t.graph.labels.head? = some root) :
    ∀ e ∈ t.graph.edgeList, t.graph.skeleton.Reachable root e.src := by
  obtain ⟨root', ms, hroot', -, hcollects⟩ := h
  rw [VertexOrdering.vertices_default, hroot] at hroot'
  obtain rfl := Option.some.inj hroot'
  intro e he
  apply hcollects.reachable (fun e he u v hends hne => ⟨hne, e, he, hends⟩) e he
  exact Sym2.mem_mk_left ..

/-- **The collection schedule**: on a tree that `ElimTree_Create` has made,
`BNet_CollectEvidence` passes one message over every edge, from its farther to its nearer end and
after the sender's whole subtree, if and only if every edge hangs together with the first
vertex. -/
theorem create_collectsEvidence_iff {qsort : QSort} {esc : ElimSetCollection o}
    (hcreate : create qsort esc = some t) (hroot : t.graph.labels.head? = some root) :
    CollectsEvidence t.graph ↔
      ∀ e ∈ t.graph.edgeList, t.graph.skeleton.Reachable root e.src := by
  obtain ⟨t', hrun, hforest⟩ := create_isForest qsort esc
  rw [hcreate] at hrun
  obtain rfl := Option.some.inj hrun
  exact ⟨fun h => reachable_of_collectsEvidence h hroot,
    collectsEvidence_of_reachable hforest hroot⟩

theorem create_collectsEvidence_iff_sample :
    ∃ t, create QSort.insertion sampleSets = some t ∧ CollectsEvidence t.graph := by
  obtain ⟨t, hcreate, hspans⟩ := create_spans (by decide) QSort.insertion sampleSets
  have hsome : ((create QSort.insertion sampleSets).map fun t => t.graph.labels.head?) =
      some (some ['b', ' ', 'c', ' ']) := by decide +kernel
  rw [hcreate] at hsome
  have hroot := Option.some.inj hsome
  refine ⟨t, hcreate, (create_collectsEvidence_iff hcreate hroot).mpr fun e he => ?_⟩
  exact hspans.isTree.isTreeOn.reachable (List.mem_of_mem_head? hroot) (Graph.ends_mem he).1

/-! ## Labels with blanks -/

/-- Seven variables; the labels of two of them contain double blanks. -/
def blankLabels : VariableOrdering :=
  ⟨["a", "b", "c", "b c  a b", "z  z w", "z", "w"].map fun label => ⟨label.toList, 2⟩⟩

/-- The set of the variables with the labels. -/
def blankSet (labels : List String) : ElimSet blankLabels :=
  labels.foldl (fun es label => es.add label.toList) (ElimSet.create blankLabels)

/-- The edges between the second and the third set and between the first and the last one have
the same key. -/
def blankSets : ElimSetCollection blankLabels :=
  ⟨[some (blankSet ["a", "b c  a b", "z"]), some (blankSet ["a", "b", "c"]),
    some (blankSet ["a", "b", "z  z w"]), some (blankSet ["z", "w"])]⟩

theorem not_collectsEvidence_blankSets :
    ∃ t, create QSort.insertion blankSets = some t ∧ t.graph.labels ≠ [] ∧
      ¬CollectsEvidence t.graph := by
  have hview : ((create QSort.insertion blankSets).map fun t =>
      (t.graph.labels.head?, t.graph.edgeList.length,
        t.graph.edgeList.all fun e => e.src ≠ "z w ".toList ∧ e.sink ≠ "z w ".toList)) =
      some (some "z w ".toList, 2, true) := by decide +kernel
  obtain ⟨t, hcreate, heq⟩ := Option.map_eq_some_iff.mp hview
  obtain ⟨hroot, heq⟩ := Prod.mk.inj heq
  obtain ⟨hlength, hall⟩ := Prod.mk.inj heq
  have hisolated : ∀ e ∈ t.graph.edgeList, e.src ≠ "z w ".toList ∧ e.sink ≠ "z w ".toList :=
    fun e he => of_decide_eq_true (List.all_eq_true.mp hall e he)
  refine ⟨t, hcreate, List.ne_nil_of_mem (List.mem_of_mem_head? hroot), fun h => ?_⟩
  obtain ⟨e, he⟩ := List.exists_mem_of_length_pos (l := t.graph.edgeList) (by omega)
  have hreach := reachable_of_collectsEvidence h hroot e he
  exact (hisolated e he).1 (Graph.eq_of_reachable_of_isolated hreach hisolated)

end ElimTree

end JunctionBox
