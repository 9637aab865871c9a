import JunctionBox.Foundations.UpwardMessages
import JunctionBox.Inference.Messages
import JunctionBox.Inference.VertexSet
import JunctionBox.JunctionTree.Forest

/-!
# Collecting and distributing evidence

`Vertex_CollectEvidence` marks its vertex, calls itself on every unmarked
neighbour and then sends a message to its caller, so the cliques send in
post-order (`collectEvidence_eq`).

`Vertex_DistributeEvidence` sends to all unmarked neighbours and means to call
itself on them afterwards, but its second loop goes on with the iterator that
the first loop has left at the end: only the neighbours of the root are sent
anything (`distributeEvidence_eq`).

Both are written over any way of passing a message; which messages are passed
depends on the tree only.
-/

namespace JunctionBox

open Hypertree Propagation

section Definitions

variable {σ : Type} {vo : VertexOrdering}

/-- `Vertex_CollectEvidence`, at most `depth` calls deep; `caller` comes with `backsep`. -/
def vertexCollectEvidence (pass : σ → CString → CString → Edge → Option σ) (owner : Graph) :
    ℕ → CString → Option (CString × Edge) → VertexSet vo × σ → Option (VertexSet vo × σ)
  | 0, _, _, _ => none
  | depth + 1, this, caller, state => do
      let itr ← owner.getNeighborItr this
      let loop ← itr.neighborLoop (fun (state : VertexSet vo × σ) nghbr fwdsep =>
          if state.1.containsVertex nghbr then some state
          else vertexCollectEvidence pass owner depth nghbr (some (this, fwdsep)) state)
        (state.1.add this, state.2)
      match caller with
      | none => return loop.2
      | some (caller, backsep) => do
          let s ← pass loop.2.2 caller this backsep
          return (loop.2.1, s)

/-- `Vertex_DistributeEvidence`, at most `depth` calls deep. -/
def vertexDistributeEvidence (pass : σ → CString → CString → Edge → Option σ) (owner : Graph) :
    ℕ → CString → VertexSet vo × σ → Option (VertexSet vo × σ)
  | 0, _, _ => none
  | depth + 1, this, state => do
      let itr ← owner.getNeighborItr this
      let sent ← itr.neighborLoop (fun (state : VertexSet vo × σ) nghbr fwdsep =>
          if state.1.containsVertex nghbr then some state
          else (pass state.2 nghbr this fwdsep).map fun s => (state.1, s))
        (state.1.add this, state.2)
      -- the second loop starts where the first one left the iterator
      let recursed ← sent.1.neighborLoop (fun (state : VertexSet vo × σ) nghbr _ =>
          if state.1.containsVertex nghbr then some state
          else vertexDistributeEvidence pass owner depth nghbr state) sent.2
      return recursed.2

/-- `BNet_CollectEvidence` and `BNet_CollectEvidenceLog`. -/
def collectEvidenceWith (pass : σ → CString → CString → Edge → Option σ) (elimTree : Graph)
    (s : σ) : Option σ := do
  let vo := VertexOrdering.default elimTree
  let fstVertex ← vo.vertices.head?
  let state ← vertexCollectEvidence pass elimTree elimTree.getNumVertices fstVertex none
    (VertexSet.create vo, s)
  return state.2

/-- `BNet_DistributeEvidence` and `BNet_DistributeEvidenceLog`. -/
def distributeEvidenceWith (pass : σ → CString → CString → Edge → Option σ) (elimTree : Graph)
    (s : σ) : Option σ := do
  let vo := VertexOrdering.default elimTree
  let fstVertex ← vo.vertices.head?
  let state ← vertexDistributeEvidence pass elimTree elimTree.getNumVertices fstVertex
    (VertexSet.create vo, s)
  return state.2

end Definitions

namespace Potentials

variable {o : VariableOrdering} {K : Type} [Field K] [DecidableEq K]

/-- `BNet_CollectEvidence`. -/
def collectEvidence (t : ElimTree o) (this : Potentials o K) : Option (Potentials o K) :=
  collectEvidenceWith messagePass t.graph this

/-- `BNet_DistributeEvidence`. -/
def distributeEvidence (t : ElimTree o) (this : Potentials o K) : Option (Potentials o K) :=
  distributeEvidenceWith messagePass t.graph this

end Potentials

/-! ## The neighbours of a vertex of a tree -/

section Schedule

variable {o : VariableOrdering} {t : ElimTree o} {root : CString}

/-- The two ends of an edge. -/
def Edge.ends (e : Edge) : Sym2 CString := s(e.src, e.sink)

theorem Graph.mem_neighbors_ends {g : Graph} {v n : CString} {e : Edge}
    (h : (n, e) ∈ g.neighbors v) : e ∈ g.edgeList ∧ e.ends = s(n, v) := by
  obtain ⟨he, ⟨rfl, rfl⟩ | ⟨rfl, rfl⟩⟩ := Graph.mem_neighbors.mp h
  · exact ⟨he, rfl⟩
  · exact ⟨he, Sym2.eq_swap⟩

namespace Graph.IsForest

variable {g : Graph}

theorem adj_of_mem_neighbors (h : g.IsForest) {v n : CString} {e : Edge}
    (hn : (n, e) ∈ g.neighbors v) : g.skeleton.Adj v n := by
  obtain ⟨he, hends⟩ := Graph.mem_neighbors_ends hn
  refine ⟨fun heq => ?_, e, he, hends.trans Sym2.eq_swap⟩
  subst heq
  rcases Sym2.eq_iff.mp hends with ⟨hsrc, hsink⟩ | ⟨hsrc, hsink⟩ <;>
    exact h.loopless e he (hsrc.trans hsink.symm)

/-- No neighbour is met twice. -/
theorem nodup_neighbors (h : g.IsForest) (v : CString) :
    ((g.neighbors v).map Prod.fst).Nodup := by
  have hedges : g.edgeList.Nodup := Potentials.nodup_edgeList g
  have hends : ∀ {n e e'}, (n, e) ∈ g.neighbors v → (n, e') ∈ g.neighbors v →
      e = e' := fun hn hn' => h.simple _ (Graph.mem_neighbors_ends hn).1 _
    (Graph.mem_neighbors_ends hn').1
    ((Graph.mem_neighbors_ends hn).2.trans (Graph.mem_neighbors_ends hn').2.symm)
  apply List.Nodup.map_on
  · rintro ⟨n, e⟩ hn ⟨n', e'⟩ hn' rfl
    rw [hends hn hn']
  · unfold Graph.neighbors
    rw [List.nodup_append]
    refine ⟨(hedges.filter _).map fun e e' heq => (Prod.mk.inj heq).2,
      (hedges.filter _).map fun e e' heq => (Prod.mk.inj heq).2, ?_⟩
    rintro ⟨n, e⟩ hin ⟨n', e'⟩ hout heq
    -- an edge in both lists would be a loop
    simp only [List.mem_map, List.mem_filter, decide_eq_true_eq, Prod.mk.injEq] at hin hout
    obtain ⟨e₁, ⟨he, hsink⟩, -, rfl⟩ := hin
    obtain ⟨e₂, ⟨-, hsrc⟩, -, rfl⟩ := hout
    obtain ⟨-, rfl⟩ := Prod.mk.inj heq
    exact h.loopless e₁ he (hsrc.trans hsink.symm)

end Graph.IsForest

namespace ElimTree.IsTree

theorem adj_of_mem_neighbors (h : t.IsTree) {v n : CString} {e : Edge}
    (hn : (n, e) ∈ t.graph.neighbors v) : t.graph.skeleton.Adj v n :=
  h.within.forest.adj_of_mem_neighbors hn

theorem nodup_neighbors (h : t.IsTree) (v : CString) :
    ((t.graph.neighbors v).map Prod.fst).Nodup := h.within.forest.nodup_neighbors v

theorem exists_mem_neighbors {v n : CString} (hadj : t.graph.skeleton.Adj v n) :
    ∃ e, (n, e) ∈ t.graph.neighbors v := by
  obtain ⟨-, e, he, hends⟩ := hadj
  refine ⟨e, Graph.mem_neighbors.mpr ⟨he, ?_⟩⟩
  rcases Sym2.eq_iff.mp hends with ⟨hsrc, hsink⟩ | ⟨hsrc, hsink⟩
  · exact Or.inr ⟨hsrc, hsink⟩
  · exact Or.inl ⟨hsink, hsrc⟩

end ElimTree.IsTree

/-! ## Collecting -/

variable {nodes : Set CString} {R : Rooting nodes t.graph.skeleton root}

/-- The marks of the traversals. -/
abbrev Marks (t : ElimTree o) := VertexSet (VertexOrdering.default t.graph)

/-- What has happened when the messages `ms` have been sent: each went from a vertex to its
parent along their edge, and its sender has been marked. -/
structure Sent (R : Rooting nodes t.graph.skeleton root)
    (marks marks' : Marks t) (ms : List (Message CString Edge)) : Prop where
  upward : ∀ m ∈ ms, Upward R Edge.ends m ∧ t.Along m
  marked : ∀ w ∈ t.graph.labels, marks'.containsVertex w = true ↔
    marks.containsVertex w = true ∨ w ∈ ms.map Message.sender

theorem Sent.append {marks marks' marks'' : Marks t} {ms ms' : List (Message CString Edge)}
    (h : Sent R marks marks' ms) (h' : Sent R marks' marks'' ms') :
    Sent R marks marks'' (ms ++ ms') := by
  refine ⟨fun m hm => ?_, fun w hw => ?_⟩
  · rcases List.mem_append.mp hm with hm | hm
    · exact h.upward m hm
    · exact h'.upward m hm
  · rw [h'.marked w hw, h.marked w hw, List.map_append, List.mem_append, or_assoc]

theorem Sent.unmarked {marks marks' : Marks t} {ms : List (Message CString Edge)}
    (h : Sent R marks marks' ms) {w : CString} (hw : w ∈ t.graph.labels)
    (hmark : marks.containsVertex w = false) (hnot : w ∉ ms.map Message.sender) :
    marks'.containsVertex w = false := by
  rw [← Bool.not_eq_true, h.marked w hw, hmark]
  simpa using hnot

/-- The subtrees of other children of `v` leave the subtree of `c` unmarked. -/
theorem Sent.unmarked_below {marks marks' : Marks t} {ms : List (Message CString Edge)}
    (h : Sent R marks marks' ms) (hsub : nodes ⊆ {l | l ∈ t.graph.labels}) {v c : CString}
    {children : List CString} (horder : R.IsForestOrder v children (ms.map Message.sender))
    (hfresh : ∀ w, R.Below v w → w ≠ v → marks.containsVertex w = false)
    (hv : v ∈ nodes) (hnew : c ∉ children) (hroot : c ≠ root)
    (hparent : R.parent c = v) :
    ∀ w, R.Below c w → marks'.containsVertex w = false := by
  intro w hw
  obtain ⟨hvw, hne⟩ := hw.strict hroot hparent hv
  apply h.unmarked (hsub hw.mem) (hfresh w hvw hne)
  intro hold
  obtain ⟨d, hd, hdroot, hdparent, hdw⟩ := (horder.mem_iff w).mp hold
  have heq := hdw.eq_of_siblings hw hdroot hroot (hdparent.trans hparent.symm)
  exact hnew (heq ▸ hd)

/-- A call of `Vertex_CollectEvidence` on `v` by its parent sends the messages of the subtree
in post-order. -/
def CollectsBelow (R : Rooting nodes t.graph.skeleton root) (depth : ℕ)
    (v : CString) (e : Edge) (marks : Marks t) : Prop :=
  ∃ (ms : List (Message CString Edge)) (marks' : Marks t),
    (∀ (σ : Type) (pass : σ → CString → CString → Edge → Option σ) (s : σ),
      vertexCollectEvidence pass t.graph depth v (some (R.parent v, e)) (marks, s) =
        (passEach pass ms s).map fun s => (marks', s)) ∧
    R.IsPostOrder v (ms.map Message.sender) ∧ Sent R marks marks' ms

/-- What holds in the loop of `Vertex_CollectEvidence` over the neighbours of `v` when
`children` have been met: the subtrees of those below `v` have sent `ms`. -/
structure Visited (R : Rooting nodes t.graph.skeleton root) (v : CString)
    (marks₀ : Marks t) (children : List CString) (marks : Marks t)
    (ms : List (Message CString Edge)) : Prop where
  order : R.IsForestOrder v children (ms.map Message.sender)
  sent : Sent R marks₀ marks ms

theorem Visited.start (v : CString) (marks₀ : Marks t) : Visited R v marks₀ [] marks₀ [] :=
  ⟨R.isForestOrder_nil v, by simp, fun w _ => by simp⟩

/-- The parent has been marked before and sends nothing. -/
theorem Visited.skip {v c : CString} {marks₀ marks : Marks t} {children : List CString}
    {ms : List (Message CString Edge)} (h : Visited R v marks₀ children marks ms)
    (hskip : ¬(c ≠ root ∧ R.parent c = v)) :
    Visited R v marks₀ (children ++ [c]) marks ms :=
  ⟨h.order.concat_skip hskip, h.sent⟩

theorem Visited.append {v c : CString} {marks₀ marks marks' : Marks t} {children : List CString}
    {ms ms' : List (Message CString Edge)} (h : Visited R v marks₀ children marks ms)
    (hnew : c ∉ children) (hroot : c ≠ root) (hparent : R.parent c = v)
    (horder : R.IsPostOrder c (ms'.map Message.sender)) (hsent : Sent R marks marks' ms') :
    Visited R v marks₀ (children ++ [c]) marks' (ms ++ ms') := by
  refine ⟨?_, h.sent.append hsent⟩
  rw [List.map_append]
  exact h.order.concat hnew hroot hparent horder

/-- One neighbour in the loop of `Vertex_CollectEvidence`: a child is called and its subtree
sends, the parent is left out. -/
theorem Visited.neighbor (h : t.IsTreeWithin nodes) (depth : ℕ) {v : CString}
    {marks₀ marks : Marks t} {children : List CString} {ms : List (Message CString Edge)}
    (hvisited : Visited R v marks₀ children marks ms)
    (hself : marks₀.containsVertex v = true)
    (hparent : v ≠ root → marks₀.containsVertex (R.parent v) = true)
    (hfresh : ∀ w, R.Below v w → w ≠ v → marks₀.containsVertex w = false)
    {c : CString} {e : Edge} (hmem : (c, e) ∈ t.graph.neighbors v) (hnew : c ∉ children)
    (hcall : c ≠ root → R.parent c = v → marks.containsVertex v = true →
      (∀ w, R.Below c w → marks.containsVertex w = false) → CollectsBelow R depth c e marks) :
    ∃ (ms' : List (Message CString Edge)) (marks' : Marks t),
      (∀ (σ : Type) (pass : σ → CString → CString → Edge → Option σ) (s : σ),
        (if marks.containsVertex c then some (marks, s)
          else vertexCollectEvidence pass t.graph depth c (some (v, e)) (marks, s)) =
          (passEach pass ms' s).map fun s => (marks', s)) ∧
      Visited R v marks₀ (children ++ [c]) marks' (ms ++ ms') := by
  have hadj := h.forest.adj_of_mem_neighbors hmem
  have hv := h.isTreeOn.mem_of_adj hadj
  have hc := h.isTreeOn.mem_of_adj_right hadj
  rcases R.parent_of_adj hadj with ⟨hcroot, hcparent⟩ | ⟨hvroot, hvparent⟩
  · -- a child: nothing below it has been marked
    have hunmarked :=
      hvisited.sent.unmarked_below h.subset hvisited.order hfresh hv hnew hcroot hcparent
    have hvmarked : marks.containsVertex v = true :=
      (hvisited.sent.marked v (h.subset hv)).mpr (Or.inl hself)
    obtain ⟨ms', marks', hrun, horder, hsent⟩ := hcall hcroot hcparent hvmarked hunmarked
    refine ⟨ms', marks', fun σ pass s => ?_,
      hvisited.append hnew hcroot hcparent horder hsent⟩
    rw [hunmarked c (Rooting.Below.refl hc), if_neg Bool.false_ne_true, ← hcparent, hrun]
  · -- the parent: it has been marked before
    have hmarked : marks.containsVertex c = true := by
      rw [hvisited.sent.marked c (h.subset hc), ← hvparent]
      exact Or.inl (hparent hvroot)
    have hskip := R.not_child_of_parent hv hc hvroot hvparent
    refine ⟨[], marks, fun σ pass s => ?_, ?_⟩
    · rw [hmarked, if_pos rfl]
      rfl
    · rw [List.append_nil]
      exact hvisited.skip hskip

/-- The loop of `Vertex_CollectEvidence` over the neighbours of `v`. -/
theorem collectChildren_eq (h : t.IsTreeWithin nodes) (depth : ℕ) {v : CString} {marks₀ : Marks t}
    (hself : marks₀.containsVertex v = true)
    (hparent : v ≠ root → marks₀.containsVertex (R.parent v) = true)
    (hfresh : ∀ w, R.Below v w → w ≠ v → marks₀.containsVertex w = false)
    (hcalls : ∀ c e marks, (c, e) ∈ t.graph.neighbors v → c ≠ root → R.parent c = v →
      marks.containsVertex v = true → (∀ w, R.Below c w → marks.containsVertex w = false) →
      CollectsBelow R depth c e marks) :
    ∃ (ms : List (Message CString Edge)) (marks' : Marks t),
      (∀ (σ : Type) (pass : σ → CString → CString → Edge → Option σ) (s : σ),
        (t.graph.neighbors v).foldlM (fun (state : Marks t × σ) n =>
            if state.1.containsVertex n.1 then some state
            else vertexCollectEvidence pass t.graph depth n.1 (some (v, n.2)) state)
          (marks₀, s) = (passEach pass ms s).map fun s => (marks', s)) ∧
      Visited R v marks₀ ((t.graph.neighbors v).map Prod.fst) marks' ms := by
  -- the neighbours met so far, and those still to come
  have hrun : ∀ (rest : List (CString × Edge)) (met : List CString)
      (ms : List (Message CString Edge)) (marks : Marks t),
      (∀ n ∈ rest, n ∈ t.graph.neighbors v) → (met ++ rest.map Prod.fst).Nodup →
      Visited R v marks₀ met marks ms →
      ∃ (ms' : List (Message CString Edge)) (marks' : Marks t),
        (∀ (σ : Type) (pass : σ → CString → CString → Edge → Option σ) (s : σ),
          rest.foldlM (fun (state : Marks t × σ) n =>
              if state.1.containsVertex n.1 then some state
              else vertexCollectEvidence pass t.graph depth n.1 (some (v, n.2)) state)
            (marks, s) = (passEach pass ms' s).map fun s => (marks', s)) ∧
        Visited R v marks₀ (met ++ rest.map Prod.fst) marks' (ms ++ ms') := by
    intro rest
    induction rest with
    | nil =>
        intro met ms marks _ _ hvisited
        refine ⟨[], marks, fun σ pass s => rfl, ?_⟩
        simpa using hvisited
    | cons n rest ih =>
        obtain ⟨c, e⟩ := n
        intro met ms marks hrest hnodup hvisited
        have hmem := hrest _ (List.mem_cons_self ..)
        have hnew : c ∉ met := fun hold =>
          (List.nodup_append.mp hnodup).2.2 c hold c (List.mem_cons_self ..) rfl
        obtain ⟨ms₁, marks₁, hrun₁, hvisited₁⟩ := hvisited.neighbor h depth hself hparent hfresh
          hmem hnew (hcalls c e marks hmem)
        rw [List.map_cons, List.append_cons] at hnodup
        obtain ⟨ms₂, marks₂, hrun₂, hvisited₂⟩ := ih (met ++ [c]) (ms ++ ms₁) marks₁
          (fun n hn => hrest n (List.mem_cons_of_mem _ hn)) hnodup hvisited₁
        refine ⟨ms₁ ++ ms₂, marks₂, fun σ pass s => ?_, ?_⟩
        · rw [List.foldlM_cons, hrun₁, passEach_append]
          cases hms₁ : passEach pass ms₁ s with
          | none => rfl
          | some s₁ => exact hrun₂ σ pass s₁
        · rw [List.map_cons, List.append_cons, ← List.append_assoc]
          exact hvisited₂
  exact hrun _ [] [] marks₀ (fun n hn => hn) (h.forest.nodup_neighbors v) (Visited.start v marks₀)

theorem containsVertex_add_default {marks : Marks t} {v w : CString}
    (hv : v ∈ t.graph.labels) (hw : w ∈ t.graph.labels) :
    (marks.add v).containsVertex w = true ↔ w = v ∨ marks.containsVertex w = true := by
  rw [← VertexOrdering.vertices_default] at hv hw
  exact VertexSet.containsVertex_add marks hv hw

/-- The children of a vertex are among its neighbours. -/
theorem mem_neighbors_of_parent {v c : CString} (hc : c ∈ nodes) (hroot : c ≠ root)
    (hparent : R.parent c = v) : c ∈ (t.graph.neighbors v).map Prod.fst := by
  have hadj := (R.adj_parent hc hroot).symm
  rw [hparent] at hadj
  obtain ⟨e, he⟩ := ElimTree.IsTree.exists_mem_neighbors hadj
  exact List.mem_map_of_mem he

/-- The body of `Vertex_CollectEvidence`, without the message at its end. -/
theorem collectBody_eq (h : t.IsTreeWithin nodes) (depth : ℕ) {v : CString} (hv : v ∈ nodes)
    {marks : Marks t} (hparent : v ≠ root → marks.containsVertex (R.parent v) = true)
    (hfresh : ∀ w, R.Below v w → marks.containsVertex w = false)
    (hcalls : ∀ c e marks, (c, e) ∈ t.graph.neighbors v → c ≠ root → R.parent c = v →
      marks.containsVertex v = true → (∀ w, R.Below c w → marks.containsVertex w = false) →
      CollectsBelow R depth c e marks) :
    ∃ (ms : List (Message CString Edge)) (marks' : Marks t) (itr itr' : NeighborItr),
      t.graph.getNeighborItr v = some itr ∧
      (∀ (σ : Type) (pass : σ → CString → CString → Edge → Option σ) (s : σ),
        itr.neighborLoop (fun (state : Marks t × σ) nghbr fwdsep =>
            if state.1.containsVertex nghbr then some state
            else vertexCollectEvidence pass t.graph depth nghbr (some (v, fwdsep)) state)
          (marks.add v, s) = (passEach pass ms s).map fun s => (itr', marks', s)) ∧
      R.IsPostOrder v (ms.map Message.sender ++ [v]) ∧ Sent R (marks.add v) marks' ms := by
  have hadd : ∀ {w}, w ∈ t.graph.labels →
      ((marks.add v).containsVertex w = true ↔ w = v ∨ marks.containsVertex w = true) := fun hw =>
    containsVertex_add_default (h.subset hv) hw
  obtain ⟨ms, marks', hrun, horder, hsent⟩ := collectChildren_eq h (R := R) depth
    ((hadd (h.subset hv)).mpr (Or.inl rfl))
    (fun hne => (hadd (h.subset (R.parent_mem h.isTreeOn hv hne))).mpr (Or.inr (hparent hne)))
    (fun w hw hne => by
      rw [← Bool.not_eq_true, hadd (h.subset hw.mem), hfresh w hw]
      simpa using hne) hcalls
  obtain ⟨itr, hitr, hlist⟩ := Graph.getNeighborItr_eq (h.subset hv)
  refine ⟨ms, marks', itr, ⟨[], []⟩, hitr, fun σ pass s => ?_, ?_, hsent⟩
  · rw [NeighborItr.neighborLoop_eq, hlist, hrun, Option.map_map]
    rfl
  · exact horder.concat_self hv fun c hc hroot hcparent => mem_neighbors_of_parent hc hroot hcparent

theorem depth_lt_getNumVertices (h : t.IsTreeWithin nodes) {v : CString} (hv : v ∈ nodes) :
    R.depth v < t.graph.getNumVertices := by
  have hall : ∀ w ∈ nodes, w ∈ t.graph.labels.toFinset := fun w hw =>
    List.mem_toFinset.mpr (h.subset hw)
  have hlt := R.depth_lt h.isTreeOn hall hv
  rwa [List.toFinset_card_of_nodup t.graph.labels_nodup, Graph.length_labels] at hlt

/-- **`Vertex_CollectEvidence`** on a vertex other than the root. -/
theorem collectsBelow (h : t.IsTreeWithin nodes) (depth : ℕ) :
    ∀ {v e} {marks : Marks t}, v ∈ nodes → v ≠ root →
      (v, e) ∈ t.graph.neighbors (R.parent v) → t.graph.getNumVertices ≤ R.depth v + depth →
      marks.containsVertex (R.parent v) = true →
      (∀ w, R.Below v w → marks.containsVertex w = false) → CollectsBelow R depth v e marks := by
  induction depth with
  | zero =>
      intro v e marks hv _ _ hdepth
      exact absurd (depth_lt_getNumVertices h (R := R) hv) (by omega)
  | succ depth ih =>
      intro v e marks hv hroot he hdepth hparent hfresh
      obtain ⟨ms, marks', itr, itr', hitr, hrun, horder, hsent⟩ := collectBody_eq h
        depth hv (fun _ => hparent) hfresh fun c e marks hc hcroot hcparent hvmark hcfresh => by
          have hcmem := h.isTreeOn.mem_of_adj_right (h.forest.adj_of_mem_neighbors hc)
          have hcdepth := R.depth_parent hcmem hcroot
          rw [hcparent] at hcdepth
          exact ih hcmem hcroot (hcparent.symm ▸ hc) (by omega) (hcparent.symm ▸ hvmark) hcfresh
      obtain ⟨hedge, hends⟩ := Graph.mem_neighbors_ends he
      set m : Message CString Edge := ⟨R.parent v, v, e⟩ with hm
      have hup : Upward R Edge.ends m ∧ t.Along m := ⟨⟨hv, hroot, rfl, hends⟩, ⟨hedge, hends⟩⟩
      refine ⟨ms ++ [m], marks', fun σ pass s => ?_, ?_, fun m' hm' => ?_, fun w hw => ?_⟩
      · unfold vertexCollectEvidence
        simp only [hitr, Option.bind_eq_bind, Option.bind_some]
        rw [hrun, passEach_append]
        cases hms : passEach pass ms s with
        | none => rfl
        | some s' =>
            simp only [Option.map_some, Option.bind_some, passEach, List.foldlM_cons,
              List.foldlM_nil, hm]
            cases pass s' (R.parent v) v e <;> rfl
      · rw [List.map_append]
        exact horder
      · rcases List.mem_append.mp hm' with hm' | hm'
        · exact hsent.upward m' hm'
        · rw [List.mem_singleton.mp hm']
          exact hup
      · rw [hsent.marked w hw, containsVertex_add_default (h.subset hv) hw, List.map_append,
          List.mem_append, List.map_singleton, List.mem_singleton]
        tauto

/-- **`BNet_CollectEvidence`** has every vertex that hangs together with the first one send to its
parent, none after one of its ancestors. -/
theorem collectEvidence_eq_of_within (h : t.IsTreeWithin nodes)
    (hroot : t.graph.labels.head? = some root) (R : Rooting nodes t.graph.skeleton root) :
    ∃ ms : List (Message CString Edge),
      (∀ (σ : Type) (pass : σ → CString → CString → Edge → Option σ) (s : σ),
        collectEvidenceWith pass t.graph s = passEach pass ms s) ∧
      R.IsPostOrder root (ms.map Message.sender ++ [root]) ∧
      ∀ m ∈ ms, Upward R Edge.ends m ∧ t.Along m := by
  have hnum := depth_lt_getNumVertices h (R := R) R.root_mem
  obtain ⟨depth, hdepth⟩ : ∃ depth, t.graph.getNumVertices = depth + 1 :=
    ⟨t.graph.getNumVertices - 1, by omega⟩
  obtain ⟨ms, marks', itr, itr', hitr, hrun, horder, hsent⟩ := collectBody_eq h (R := R)
    depth R.root_mem (fun hne => absurd rfl hne)
    (fun w _ => VertexSet.containsVertex_create w)
    fun c e marks hc hcroot hcparent hvmark hcfresh => by
      have hcmem := h.isTreeOn.mem_of_adj_right (h.forest.adj_of_mem_neighbors hc)
      have hcdepth := R.depth_parent hcmem hcroot
      rw [hcparent, R.depth_root] at hcdepth
      exact collectsBelow h depth hcmem hcroot (hcparent.symm ▸ hc) (by omega)
        (hcparent.symm ▸ hvmark) hcfresh
  refine ⟨ms, fun σ pass s => ?_, horder, hsent.upward⟩
  unfold collectEvidenceWith
  simp only [VertexOrdering.vertices_default, hroot, Option.bind_eq_bind, Option.bind_some, hdepth]
  unfold vertexCollectEvidence
  simp only [hitr, Option.bind_eq_bind, Option.bind_some]
  rw [hrun]
  cases passEach pass ms s <;> rfl

/-- In a tree these are all vertices but the first. -/
theorem collectEvidence_eq (h : t.IsTree) (hroot : t.graph.labels.head? = some root)
    (R : Rooting {l | l ∈ t.graph.labels} t.graph.skeleton root) :
    ∃ ms : List (Message CString Edge),
      (∀ (σ : Type) (pass : σ → CString → CString → Edge → Option σ) (s : σ),
        collectEvidenceWith pass t.graph s = passEach pass ms s) ∧
      R.IsPostOrder root (ms.map Message.sender ++ [root]) ∧
      ∀ m ∈ ms, Upward R Edge.ends m ∧ t.Along m :=
  collectEvidence_eq_of_within h.within hroot R

/-! ## Distributing -/

/-- The messages of the first loop of `Vertex_DistributeEvidence` on `v`, when nothing but
`v` is marked. -/
def outward (g : Graph) (v : CString) : List (Message CString Edge) :=
  (g.neighbors v).map fun n => ⟨n.1, v, n.2⟩

/-- **`BNet_DistributeEvidence`** has the first vertex send to its neighbours, and that is
all. -/
theorem distributeEvidence_eq (h : t.IsTree) (hroot : t.graph.labels.head? = some root)
    {σ : Type} (pass : σ → CString → CString → Edge → Option σ) (s : σ) :
    distributeEvidenceWith pass t.graph s = passEach pass (outward t.graph root) s := by
  have hmem : root ∈ t.graph.labels := List.mem_of_mem_head? hroot
  obtain ⟨itr, hitr, hlist⟩ := Graph.getNeighborItr_eq hmem
  have hnum : ∃ depth, t.graph.getNumVertices = depth + 1 := by
    rw [← Graph.length_labels]
    exact ⟨_, (Nat.succ_pred_eq_of_pos (List.length_pos_of_mem hmem)).symm⟩
  obtain ⟨depth, hdepth⟩ := hnum
  set marks : Marks t := (VertexSet.create (VertexOrdering.default t.graph)).add root with hmarks
  have hunmarked : ∀ n ∈ t.graph.neighbors root, marks.containsVertex n.1 = false := by
    intro n hn
    have hadj := h.adj_of_mem_neighbors (e := n.2) hn
    rw [← Bool.not_eq_true, containsVertex_add_default hmem (h.isTreeOn.mem_of_adj_right hadj),
      VertexSet.containsVertex_create]
    simpa using hadj.ne'
  have hloop : ∀ (ns : List (CString × Edge)) (s : σ),
      (∀ n ∈ ns, marks.containsVertex n.1 = false) →
      ns.foldlM (fun (state : Marks t × σ) n =>
          if state.1.containsVertex n.1 then some state
          else (pass state.2 n.1 root n.2).map fun s => (state.1, s)) (marks, s) =
        (passEach pass (ns.map fun n => ⟨n.1, root, n.2⟩) s).map fun s => (marks, s) := by
    intro ns
    induction ns with
    | nil => exact fun s _ => rfl
    | cons n ns ih =>
        intro s hns
        have hn := hns n (List.mem_cons_self ..)
        rw [List.foldlM_cons, List.map_cons]
        unfold passEach
        rw [List.foldlM_cons]
        simp only [hn, Bool.false_eq_true, if_false]
        cases pass s n.1 root n.2 with
        | none => rfl
        | some s' => exact ih s' fun n' hn' => hns n' (List.mem_cons_of_mem _ hn')
  unfold distributeEvidenceWith
  simp only [VertexOrdering.vertices_default, hroot, Option.bind_eq_bind, Option.bind_some, hdepth]
  unfold vertexDistributeEvidence
  simp only [hitr, Option.bind_eq_bind, Option.bind_some]
  rw [NeighborItr.neighborLoop_eq, hlist, ← hmarks, hloop _ s hunmarked, outward]
  cases passEach pass _ s with
  | none => rfl
  | some s' =>
      simp only [Option.map_some, Option.bind_some, NeighborItr.neighborLoop_end]
      rfl

end Schedule

end JunctionBox
