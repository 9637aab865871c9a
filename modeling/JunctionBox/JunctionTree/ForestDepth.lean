import JunctionBox.JunctionTree.ElimTree
import JunctionBox.Util.DSetDepth

/-!
# The disjoint sets of `ElimTree_Create`

`ElimTree_Create` joins two cliques only after it has seen that they have
different representatives, so no link is wasted and the ranks stay below the
logarithm of the number of cliques (`create_eq_createWithin`).
-/

namespace JunctionBox

namespace DSetForest

/-- `DSetForest_Union` whose searches go through `rounds` nodes at most. -/
def unionWithin (rounds : ℕ) (this : DSetForest) (element1 element2 : CString) :
    Option DSetForest := do
  let fst ← findSet rounds this element1
  let scnd ← findSet rounds fst.1 element2
  scnd.1.link fst.2 scnd.2

end DSetForest

namespace ElimTree

open DSetForest RankedSets

variable {o : VariableOrdering}

/-- `joinCliques` whose searches go through `rounds` nodes at most. -/
def joinCliquesWithin (rounds : ℕ) (s : Kruskal o) (ec : EdgeCandidate o) : Option (Kruskal o) := do
  let u := ec.sink
  let v := ec.src
  let graph ← s.tree.graph.addEdge u v
  let dsf ← s.dsf.unionWithin rounds u v
  return ⟨{ s.tree with
    graph := graph
    sepSet := Function.update s.tree.sepSet (srcsink u v) ec.elimSet }, dsf, s.numEdges + 1⟩

/-- The second loop of `ElimTree_Create`, whose searches go through `rounds` nodes at most. -/
def growTreeWithin (rounds numVertices : ℕ) :
    List (EdgeCandidate o) → Kruskal o → Option (Kruskal o)
  | [], s => some s
  | ec :: rest, s => do
      let fst ← findSet rounds s.dsf ec.sink
      let scnd ← findSet rounds fst.1 ec.src
      let s := { s with dsf := scnd.1 }
      if fst.2 ≠ scnd.2 then
        let s ← joinCliquesWithin rounds s ec
        if s.numEdges + 1 = numVertices then return s
        else growTreeWithin rounds numVertices rest s
      else growTreeWithin rounds numVertices rest s

/-- `ElimTree_Create` whose searches go through `rounds` nodes at most. -/
def createWithin (rounds : ℕ) (qsort : QSort) (esc : ElimSetCollection o) :
    Option (ElimTree o) := do
  let start := createCliques esc
  let edgeCs := ecCollectionCreate qsort (VertexOrdering.default start.1.graph) start.1
  let s ← growTreeWithin rounds start.1.graph.getNumVertices edgeCs ⟨start.1, start.2, 0⟩
  return s.tree

variable {this : DSetForest} {comp : CString → CString} {rounds : ℕ} {x u v : CString}

/-- Enough rounds for a forest without wasted links. -/
theorem findSet_eq_of_log (h : Ranked this comp 0) (hrounds : Nat.log 2 this.nodes.card < rounds)
    (hx : x ∈ this.nodes) : findSet rounds this x = this.getRepresentative x := by
  obtain ⟨f, hfind, -⟩ := h.getRepresentative hx
  have hdeep := (h.findSet_eq hx).trans hfind
  have hle : Nat.log 2 (part this.nodes comp x).card ≤ Nat.log 2 this.nodes.card :=
    Nat.log_mono_right (Finset.card_filter_le _ _)
  rw [hfind]
  exact findSet_mono hdeep (by omega)

theorem unionWithin_eq (h : Ranked this comp 0) (hrounds : Nat.log 2 this.nodes.card < rounds)
    (hu : u ∈ this.nodes) (hv : v ∈ this.nodes) : this.unionWithin rounds u v = this.union u v := by
  obtain ⟨f, hfind, hf, hnodes⟩ := h.getRepresentative hu
  rw [unionWithin, union, findSet_eq_of_log h hrounds hu, hfind]
  simp only [Option.bind_eq_bind, Option.bind_some]
  rw [findSet_eq_of_log hf (hnodes.symm ▸ hrounds) (hnodes.symm ▸ hv)]

/-- The second loop of `ElimTree_Create` links no root with itself. -/
theorem growTreeWithin_eq {numVertices : ℕ} {nodes : Finset CString}
    (hrounds : Nat.log 2 nodes.card < rounds) {edgeCs : List (EdgeCandidate o)}
    (hends : ∀ ec ∈ edgeCs, ec.src ∈ nodes ∧ ec.sink ∈ nodes) {s : Kruskal o}
    (h : Ranked s.dsf comp 0) (hnodes : s.dsf.nodes = nodes) :
    growTreeWithin rounds numVertices edgeCs s = growTree numVertices edgeCs s := by
  induction edgeCs generalizing s comp with
  | nil => rfl
  | cons ec rest ih =>
      obtain ⟨hsrc, hsink⟩ := hends ec (List.mem_cons_self ..)
      have ih := fun {s} {comp} => @ih comp (fun ec hec => hends ec (List.mem_cons_of_mem _ hec)) s
      subst hnodes
      obtain ⟨f, hfind, hf, hfnodes⟩ := h.getRepresentative hsink
      rw [← hfnodes] at hrounds hsrc hsink
      obtain ⟨g, hfind', hg, hgnodes⟩ := hf.getRepresentative hsrc
      have hfst : findSet rounds s.dsf ec.sink = some (f, comp ec.sink) :=
        (findSet_eq_of_log h (hfnodes ▸ hrounds) (hfnodes ▸ hsink)).trans hfind
      have hscnd : findSet rounds f ec.src = some (g, comp ec.src) :=
        (findSet_eq_of_log hf hrounds hsrc).trans hfind'
      rw [← hgnodes] at hrounds hsrc hsink
      rw [growTreeWithin, growTree, hfst, hfind]
      simp only [Option.bind_eq_bind, Option.bind_some, hscnd, hfind']
      by_cases heq : comp ec.sink = comp ec.src
      · rw [if_neg (not_not.mpr heq), if_neg (not_not.mpr heq)]
        exact ih hg (hgnodes.trans hfnodes)
      · rw [if_pos heq, if_pos heq]
        obtain ⟨g', hunion, hgnodes', hparts⟩ := hg.union hsink hsrc
        rw [joinCliquesWithin, joinCliques, unionWithin_eq hg hrounds hsink hsrc, hunion]
        cases s.tree.graph.addEdge ec.sink ec.src with
        | none => rfl
        | some graph =>
            simp only [Option.bind_eq_bind, Option.bind_some, Option.pure_def]
            rw [if_neg heq] at hparts
            split
            · rfl
            · rcases hparts with hparts | hparts
              · exact ih hparts (hgnodes'.trans (hgnodes.trans hfnodes))
              · exact ih hparts (hgnodes'.trans (hgnodes.trans hfnodes))

/-- The first loop makes singleton sets only. -/
theorem ranked_createCliques (esc : ElimSetCollection o) : Ranked (createCliques esc).2 id 0 := by
  obtain ⟨slots⟩ := esc
  induction slots using List.reverseRecOn with
  | nil => exact ranked_create
  | append_singleton seen slot ih =>
      have hmade := cliquesMade (⟨seen⟩ : ElimSetCollection o)
      have hlast : createCliques ⟨seen ++ [slot]⟩ = addClique (createCliques ⟨seen⟩) slot :=
        List.foldl_append ..
      rw [hlast]
      cases slot with
      | none => exact ih
      | some es =>
          unfold addClique
          simp only
          split
          · exact ih
          · next hv =>
              have hnew : (createCliques ⟨seen⟩).2.lookup.get es.getLabel = none := by
                rw [← Option.not_isSome_iff_eq_none, hmade.nodes, ← Graph.getVertex_isSome_iff, hv]
                exact nofun
              have hset := ih.makeSet hnew
              rwa [show Function.update id es.getLabel es.getLabel = id from
                Function.update_eq_self ..] at hset

/-- **The searches of `ElimTree_Create`.**  No call of `DSetForest_GetRepresentative` nests the
calls of `DSetForest_FindSet` deeper than the binary logarithm of the number of cliques. -/
theorem create_eq_createWithin (qsort : QSort) (esc : ElimSetCollection o) :
    create qsort esc =
      createWithin (Nat.log 2 (createCliques esc).1.graph.getNumVertices + 1) qsort esc := by
  have hmade := cliquesMade esc
  have hnodes : (createCliques esc).2.nodes = (createCliques esc).1.graph.labels.toFinset := by
    ext l
    rw [mem_nodes, hmade.nodes, List.mem_toFinset]
  have hcard : (createCliques esc).2.nodes.card = (createCliques esc).1.graph.getNumVertices := by
    rw [hnodes, List.toFinset_card_of_nodup (Graph.labels_nodup _), Graph.length_labels]
  unfold create createWithin
  simp only
  rw [growTreeWithin_eq (by rw [hcard]; exact Nat.lt_succ_self _) (fun ec hec => ?_)
    (ranked_createCliques esc) rfl]
  obtain ⟨p, hp, rfl⟩ := mem_ecCollectionCreate.mp hec
  rw [hnodes, List.mem_toFinset, List.mem_toFinset]
  exact PartialLoops.mem_pairs hp

end ElimTree

end JunctionBox
